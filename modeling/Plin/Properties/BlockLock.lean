import Mathlib.Data.Fin.VecNotation
import Plin.Index.BlockLock

/-!
# block の lock の排他

block の lock は排他の lock であるはずだが、write lock を見て諦めた thread が他の thread の lock を
放してしまう。**三つの thread があれば、二つが同時に block を書く状態に届く**
（`two_threads_in_block`）。

諦めた thread の書き込みが、他の thread の lock を持っている間に起きなければ、**block を書く thread
はいつも一つ以下であり、lock を持たない thread がそれを放すことは無い**（`blockLock_exclusion`）。
この条件を外れた一歩は、必ず他の thread の lock を放す。
-/

namespace Plin

open Infra

/-- `get_lock` に成功してから、自分の解放の書き込みまで。 -/
def BlockPc.Inside : BlockPc → Bool
  | .critical _ => true
  | .releaseLoad _ _ => true
  | .releaseStore _ _ _ => true
  | _ => false

/-- 諦めた枝の書き込みの直前。 -/
def BlockPc.Clearing : BlockPc → Bool
  | .clearStore _ _ => true
  | _ => false

namespace BlockState

variable {T : Type}

/-- block を書いている thread は一つ以下である。 -/
def Exclusive (c : BlockState T) : Prop :=
  ∀ t u, (c.pc t).Inside → (c.pc u).Inside → t = u

/-- 一歩が、lock を持たない thread による解放ではないこと。 -/
def KeepsLock (c : BlockState T) : Option T → BlockState T → Prop
  | some t, c' => ¬ (c.pc t).Inside → Locked c.shared.locked → Locked c'.shared.locked
  | none, c' => Locked c.shared.locked → Locked c'.shared.locked

/-- 諦めた枝の書き込みは、block を書いている thread が無いときに限る。 -/
def Safe (c : BlockState T) : Option T → Prop
  | some t => (c.pc t).Clearing → ∀ u, ¬ (c.pc u).Inside
  | none => True

instance [Fintype T] (c : BlockState T) (e : Option T) : Decidable (c.Safe e) :=
  match e with
  | some t => inferInstanceAs (Decidable ((c.pc t).Clearing → ∀ u, ¬ (c.pc u).Inside))
  | none => .isTrue trivial

end BlockState

variable {T : Type} [Fintype T]

/-- 条件を満たす実行の不変量。 -/
structure BlockInv (c : BlockState T) : Prop where
  holders : c.count (fun l => l.Inside = true) = if Locked c.shared.locked then 1 else 0
  loaded : ∀ t op v, c.pc t = .lockCas op v → ¬ Locked v

theorem blockInv_initial : BlockInv (BlockState.initial : BlockState T) where
  holders := by
    rw [Threads.count_eq_zero.mpr fun t => by simp [BlockState.initial, BlockPc.Inside]]
    simp [BlockState.initial]
  loaded := by simp [BlockState.initial]

namespace BlockInv

variable {c : BlockState T} {t : T}

theorem exclusive (h : BlockInv c) : c.Exclusive := by
  intro t u ht hu
  refine Threads.eq_of_count_le_one (p := fun l : BlockPc => l.Inside = true) ?_ ht hu
  rw [h.holders]
  split <;> omega

theorem locked_of_inside (h : BlockInv c) (ht : (c.pc t).Inside) : Locked c.shared.locked := by
  have hpos : 0 < c.count fun l => l.Inside = true := Threads.count_pos.mpr ⟨t, ht⟩
  by_contra hl
  rw [h.holders, if_neg hl] at hpos
  exact Nat.lt_irrefl 0 hpos

theorem free_of_outside (h : BlockInv c) (ho : ∀ u, ¬ (c.pc u).Inside) :
    ¬ Locked c.shared.locked := by
  intro hl
  have hzero : c.count (fun l => l.Inside = true) = 0 := Threads.count_eq_zero.mpr ho
  rw [h.holders, if_pos hl] at hzero
  exact Nat.one_ne_zero hzero

variable [DecidableEq T] {l : BlockPc} {m : BlockWords}

theorem loaded_move (h : BlockInv c) (hl : ∀ op v, l = .lockCas op v → ¬ Locked v) :
    ∀ u op v, (c.move t m l).pc u = .lockCas op v → ¬ Locked v := by
  intro u op v hu
  rcases c.move_pc_cases t u m l with ⟨_, e⟩ | ⟨_, e⟩
  · exact hl op v (e ▸ hu)
  · exact h.loaded u op v (e ▸ hu)

/-- 語を変えず、block の内外も変えない一歩。 -/
theorem stutter (h : BlockInv c) (hin : l.Inside = true ↔ (c.pc t).Inside = true)
    (hl : ∀ op v, l = .lockCas op v → ¬ Locked v) : BlockInv (c.move t c.shared l) where
  holders := by rw [Threads.count_move_same hin]; exact h.holders
  loaded := h.loaded_move hl

/-- `get_lock` の CAS に成功する一歩。 -/
theorem acquire (h : BlockInv c) {op : BlockWriter} (ht : c.pc t = .lockCas op c.shared.locked) :
    BlockInv (c.move t { c.shared with locked := c.shared.locked ||| lockSet } (.critical op)) := by
  have hfree : ¬ Locked c.shared.locked := h.loaded t op _ ht
  have hzero : c.count (fun l => l.Inside = true) = 0 := by rw [h.holders, if_neg hfree]
  refine ⟨?_, h.loaded_move (by simp)⟩
  rw [Threads.count_move_enter (p := fun l : BlockPc => l.Inside = true) rfl
    (by simp [ht, BlockPc.Inside]), hzero, Threads.move_shared, if_pos (locked_or_lockSet hfree)]

/-- block を書いている thread の解放。 -/
theorem release (h : BlockInv c) (ht : (c.pc t).Inside) (v : UInt32) :
    BlockInv (c.move t { c.shared with locked := v &&& lockMask } .idle) := by
  have hcount := Threads.count_move_leave (c := c) (t := t) (l := .idle)
    (m := { c.shared with locked := v &&& lockMask }) (p := fun l => l.Inside = true)
    (by simp [BlockPc.Inside]) ht
  rw [h.holders, if_pos (h.locked_of_inside ht)] at hcount
  refine ⟨?_, h.loaded_move (by simp)⟩
  rw [Threads.move_shared, if_neg (not_locked_and_lockMask v)]
  omega

/-- 諦めた枝の書き込み。誰も block を書いていなければ、語の lock の bit は変わらない。 -/
theorem clear (h : BlockInv c) (ht : ¬ (c.pc t).Inside) (ho : ∀ u, ¬ (c.pc u).Inside)
    (v : UInt32) : BlockInv (c.move t { c.shared with locked := v &&& lockMask } .idle) := by
  refine ⟨?_, h.loaded_move (by simp)⟩
  rw [Threads.count_move_same (by simpa [BlockPc.Inside] using ht), Threads.count_eq_zero.mpr ho,
    Threads.move_shared, if_neg (not_locked_and_lockMask v)]

/-- **条件を満たす一歩は不変量を保つ。** -/
theorem step (h : BlockInv c) {e : Option T} {c' : BlockState T} (hsafe : c.Safe e)
    (hs : c.Step e c') : BlockInv c' := by
  cases hs with
  | env hm => exact ⟨by rw [hm]; exact h.holders, h.loaded⟩
  | thread t hs =>
    generalize hpc : c.pc t = l at hs
    generalize hm : c.shared = m at hs
    cases hs with
    | call op =>
      subst hm
      exact h.stutter (by simp [hpc, BlockPc.Inside]) (by simp)
    | checkWriteLock op =>
      subst hm
      refine h.stutter ?_ ?_ <;> split <;> simp [hpc, BlockPc.Inside]
    | clearLoad op =>
      subst hm
      exact h.stutter (by simp [hpc, BlockPc.Inside]) (by simp)
    | clearStore op v =>
      subst hm
      have ho : ∀ u, ¬ (c.pc u).Inside := hsafe (by simp [hpc, BlockPc.Clearing])
      exact h.clear (ho t) ho v
    | lockLoad op =>
      subst hm
      refine h.stutter ?_ ?_ <;> split <;> simp_all [BlockPc.Inside]
    | lockCas op v =>
      subst hm
      by_cases hv : c.shared.locked = v
      · rw [if_pos hv, if_pos hv, ← hv]
        exact h.acquire (by rw [hpc, hv])
      · rw [if_neg hv, if_neg hv]
        exact h.stutter (by simp [hpc, BlockPc.Inside]) (by simp)
    | releaseLock op =>
      subst hm
      exact h.stutter (by simp [hpc, BlockPc.Inside]) (by simp)
    | releaseLockWithoutChange =>
      subst hm
      exact h.stutter (by simp [hpc, BlockPc.Inside]) (by simp)
    | releaseLoad op bump =>
      subst hm
      exact h.stutter (by simp [hpc, BlockPc.Inside]) (by simp)
    | releaseStore op bump v =>
      subst hm
      exact h.release (by simp [hpc, BlockPc.Inside]) _

/-- **他の thread の lock を放す一歩は、条件を外れた一歩だけである。** -/
theorem keepsLock_iff (h : BlockInv c) {e : Option T} {c' : BlockState T} (hs : c.Step e c') :
    c.KeepsLock e c' ↔ c.Safe e := by
  cases hs with
  | env hm => exact ⟨fun _ => trivial, fun _ hl => by rw [hm]; exact hl⟩
  | thread t hs =>
    generalize hpc : c.pc t = l at hs
    generalize hm : c.shared = m at hs
    cases hs with
    | clearStore op v =>
      subst hm
      have hout : ¬ (c.pc t).Inside := by simp [hpc, BlockPc.Inside]
      constructor
      · intro hk _ u hu
        exact not_locked_and_lockMask v (hk hout (h.locked_of_inside hu))
      · intro hsafe _ hl
        exact absurd hl (h.free_of_outside (hsafe (by simp [hpc, BlockPc.Clearing])))
    | lockCas op v =>
      subst hm
      refine ⟨fun _ => by simp [BlockState.Safe, hpc, BlockPc.Clearing], fun _ _ hl => ?_⟩
      by_cases hv : c.shared.locked = v
      · exact absurd hl (hv ▸ h.loaded t op v hpc)
      · simpa [hv] using hl
    | releaseStore op bump v =>
      refine ⟨fun _ => by simp [BlockState.Safe, hpc, BlockPc.Clearing], fun _ hout => ?_⟩
      exact absurd (by simp [hpc, BlockPc.Inside]) hout
    | _ =>
      subst hm
      exact ⟨fun _ => by simp [BlockState.Safe, hpc, BlockPc.Clearing], fun _ _ hl => hl⟩

end BlockInv

/-! ## 排他 -/

/--
条件を満たす一歩だけで届くどの状態でも block を書く thread は一つ以下であり、そこから先の一歩が
他の thread の lock を放さないのは、その一歩も条件を満たすとき、かつそのときに限る。
-/
theorem blockLock_exclusion [DecidableEq T] {c : BlockState T}
    (h : Reach BlockState.Step BlockState.Safe BlockState.initial c) :
    c.Exclusive ∧ ∀ e c', c.Step e c' → (c.KeepsLock e c' ↔ c.Safe e) := by
  have hinv : BlockInv c :=
    h.invariant BlockInv blockInv_initial fun _ _ _ hI hsafe hs => hI.step hsafe hs
  exact ⟨hinv.exclusive, fun e c' hs => hinv.keepsLock_iff hs⟩

/-! ## 三つの thread -/

/-- 三つの thread の状態。 -/
def threeThreads (locked : UInt32) (writeLock : Bool) (l₀ l₁ l₂ : BlockPc) :
    BlockState (Fin 3) :=
  ⟨⟨locked, writeLock⟩, ![l₀, l₁, l₂]⟩

/-- 一つが block を書いていて、一つが lock を待ち、一つが write lock を見ようとしている。 -/
theorem reach_waiting :
    Reach BlockState.Step BlockState.Safe BlockState.initial
      (threeThreads lockSet false (.critical .upsert) (.lockLoad .upsert)
        (.checkWriteLock .remove)) := by
  have h₁ : Reach BlockState.Step BlockState.Safe BlockState.initial
      (threeThreads 0 false (.checkWriteLock .upsert) .idle .idle) :=
    (Reach.refl _).tail (by decide) (.of_frame 0 (.call _ _) (by decide))
  have h₂ : Reach BlockState.Step BlockState.Safe BlockState.initial
      (threeThreads 0 false (.lockLoad .upsert) .idle .idle) :=
    h₁.tail (by decide) (.of_frame 0 (.checkWriteLock _ _) (by decide))
  have h₃ : Reach BlockState.Step BlockState.Safe BlockState.initial
      (threeThreads 0 false (.lockCas .upsert 0) .idle .idle) :=
    h₂.tail (by decide) (.of_frame 0 (.lockLoad _ _) (by decide))
  have h₄ : Reach BlockState.Step BlockState.Safe BlockState.initial
      (threeThreads lockSet false (.critical .upsert) .idle .idle) :=
    h₃.tail (by decide) (.of_frame 0 (.lockCas _ _ _) (by decide))
  have h₅ : Reach BlockState.Step BlockState.Safe BlockState.initial
      (threeThreads lockSet false (.critical .upsert) (.checkWriteLock .upsert) .idle) :=
    h₄.tail (by decide) (.of_frame 1 (.call _ _) (by decide))
  have h₆ : Reach BlockState.Step BlockState.Safe BlockState.initial
      (threeThreads lockSet false (.critical .upsert) (.lockLoad .upsert) .idle) :=
    h₅.tail (by decide) (.of_frame 1 (.checkWriteLock _ _) (by decide))
  exact h₆.tail (by decide) (.of_frame 2 (.call _ _) (by decide))

/-- 待っている間は、block を書いている thread は一つである。 -/
theorem blockLock_exclusion_waiting :
    (threeThreads lockSet false (.critical .upsert) (.lockLoad .upsert)
      (.checkWriteLock .remove)).Exclusive :=
  (blockLock_exclusion reach_waiting).1

/-- **分割が write lock を掛けると、諦めた thread が lock を放し、二つ目の thread が block に入る。** -/
theorem two_threads_in_block :
    ¬ ∀ c : BlockState (Fin 3), Reachable BlockState.Step BlockState.initial c → c.Exclusive := by
  intro hall
  have h₁ : Reachable BlockState.Step BlockState.initial
      (threeThreads lockSet true (.critical .upsert) (.lockLoad .upsert)
        (.checkWriteLock .remove)) :=
    reach_waiting.reachable.tail (.env rfl)
  have h₂ : Reachable BlockState.Step BlockState.initial
      (threeThreads lockSet true (.critical .upsert) (.lockLoad .upsert) (.clearLoad .remove)) :=
    h₁.tail (.of_frame 2 (.checkWriteLock _ _) (by decide))
  have h₃ : Reachable BlockState.Step BlockState.initial
      (threeThreads lockSet true (.critical .upsert) (.lockLoad .upsert)
        (.clearStore .remove lockSet)) :=
    h₂.tail (.of_frame 2 (.clearLoad _ _) (by decide))
  have h₄ : Reachable BlockState.Step BlockState.initial
      (threeThreads 0 true (.critical .upsert) (.lockLoad .upsert) .idle) :=
    h₃.tail (.of_frame 2 (.clearStore _ _ _) (by decide))
  have h₅ : Reachable BlockState.Step BlockState.initial
      (threeThreads 0 true (.critical .upsert) (.lockCas .upsert 0) .idle) :=
    h₄.tail (.of_frame 1 (.lockLoad _ _) (by decide))
  have h₆ : Reachable BlockState.Step BlockState.initial
      (threeThreads lockSet true (.critical .upsert) (.critical .upsert) .idle) :=
    h₅.tail (.of_frame 1 (.lockCas _ _ _) (by decide))
  exact absurd (hall _ h₆ 0 1 rfl rfl) (by decide)

end Plin
