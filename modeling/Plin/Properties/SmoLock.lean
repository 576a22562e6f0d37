import Plin.Index.SmoLock

/-!
# 分割と再構築の排他

**再構築の本体に thread がいる間、分割の本体にはどの thread もおらず、再構築の本体にいるのも
その thread だけである。** また、`smo_lock` の下位 31 bit は、分割の本体にいる thread の個数に
いつも等しい（`smoLock_exclusion`）。

不変量 `SmoInv` は、lock の bit を立てた thread の個数と bit の値を結び付ける。解放は語に 0 を
書くだけだが、そのとき分割は残っていない。
-/

namespace Plin

open Infra

/-- write lock の bit を立ててから、まだ降ろしていない thread。 -/
def SmoPc.Writing (l : SmoPc) : Prop := l = .drain ∨ l = .inRebuild

instance : DecidablePred SmoPc.Writing := fun _ => inferInstanceAs (Decidable (_ ∨ _))

variable {T : Type} [Fintype T]

/-- 到達できる状態の不変量。 -/
structure SmoInv (c : SmoState T) : Prop where
  readers : low c.shared = c.count (· = .inSplit)
  writers : c.count SmoPc.Writing = if Locked c.shared then 1 else 0
  /-- 再構築の本体に入ったときには、分割は残っていない。 -/
  drained : ∀ t, c.pc t = .inRebuild → low c.shared = 0
  /-- CAS の期待値は、lock の bit の無い値である。 -/
  loaded : ∀ t v, c.pc t = .readCas v ∨ c.pc t = .writeCas v → ¬ Locked v

theorem smoInv_initial : SmoInv (SmoState.initial : SmoState T) where
  readers := by
    rw [Threads.count_eq_zero.mpr fun t => by simp [SmoState.initial]]
    exact low_zero
  writers := by
    rw [Threads.count_eq_zero.mpr fun t => by simp [SmoState.initial, SmoPc.Writing]]
    simp [SmoState.initial]
  drained := by simp [SmoState.initial]
  loaded := by simp [SmoState.initial]

namespace SmoInv

variable {c : SmoState T} {t : T}

theorem locked_of_writing (h : SmoInv c) (ht : (c.pc t).Writing) : Locked c.shared := by
  have hpos : 0 < c.count SmoPc.Writing := Threads.count_pos.mpr ⟨t, ht⟩
  by_contra hl
  rw [h.writers, if_neg hl] at hpos
  exact Nat.lt_irrefl 0 hpos

theorem writing_unique (h : SmoInv c) {u : T} (ht : (c.pc t).Writing) (hu : (c.pc u).Writing) :
    t = u := by
  refine Threads.eq_of_count_le_one ?_ ht hu
  rw [h.writers]
  split <;> omega

theorem no_split (h : SmoInv c) (ht : c.pc t = .inRebuild) (u : T) : c.pc u ≠ .inSplit := by
  have hzero := h.drained t ht
  rw [h.readers] at hzero
  exact Threads.count_eq_zero.mp hzero u

variable [DecidableEq T] {l : SmoPc}

/-- CAS の期待値の条件は、動いた thread だけを見ればよい。 -/
theorem loaded_move (h : SmoInv c) (w : UInt32)
    (hl : ∀ v, l = .readCas v ∨ l = .writeCas v → ¬ Locked v) :
    ∀ u v, (c.move t w l).pc u = .readCas v ∨ (c.move t w l).pc u = .writeCas v → ¬ Locked v := by
  intro u v hu
  rcases c.move_pc_cases t u w l with ⟨_, e⟩ | ⟨_, e⟩
  · rw [e] at hu
    exact hl v hu
  · rw [e] at hu
    exact h.loaded u v hu

/-- 語を変えず、どの個数も変えない一歩。 -/
theorem stutter (h : SmoInv c) (hsplit : l = .inSplit ↔ c.pc t = .inSplit)
    (hwrite : l.Writing ↔ (c.pc t).Writing) (hdrain : l = .inRebuild → low c.shared = 0)
    (hload : ∀ v, l = .readCas v ∨ l = .writeCas v → ¬ Locked v) :
    SmoInv (c.move t c.shared l) where
  readers := by rw [Threads.count_move_same hsplit]; exact h.readers
  writers := by rw [Threads.count_move_same hwrite]; exact h.writers
  drained := by
    intro u hu
    rcases c.move_pc_cases t u c.shared l with ⟨_, e⟩ | ⟨_, e⟩
    · exact hdrain (e ▸ hu)
    · exact h.drained u (e ▸ hu)
  loaded := h.loaded_move _ hload

/-- 分割の本体に入る一歩。thread の総数が 31 bit に収まるので、数は lock の bit に届かない。 -/
theorem enterSplit (h : SmoInv c) (hcard : Fintype.card T < 2 ^ 31)
    (ht : c.pc t = .readCas c.shared) : SmoInv (c.move t (c.shared + 1) .inSplit) := by
  have hfree : ¬ Locked c.shared := h.loaded t _ (Or.inl ht)
  have hlt : c.count (· = .inSplit) < Fintype.card T :=
    Threads.count_lt_card (t := t) (by simp [ht])
  obtain ⟨hfree', hlow⟩ := succ_spec hfree (by rw [h.readers]; omega)
  refine ⟨?_, ?_, ?_, h.loaded_move _ (by simp)⟩
  · rw [Threads.count_move_enter (p := (· = SmoPc.inSplit)) rfl (by simp [ht]), Threads.move_shared,
      hlow, h.readers]
  · rw [Threads.count_move_same (by simp [ht, SmoPc.Writing]), Threads.move_shared, h.writers,
      if_neg hfree, if_neg hfree']
  · intro u hu
    rcases c.move_pc_cases t u (c.shared + 1) .inSplit with ⟨_, e⟩ | ⟨_, e⟩
    · rw [e] at hu
      cases hu
    · exact absurd (h.locked_of_writing (Or.inr (e ▸ hu))) hfree

/-- 分割の本体から出る一歩。 -/
theorem leaveSplit (h : SmoInv c) (ht : c.pc t = .inSplit) :
    SmoInv (c.move t (c.shared - 1) .idle) := by
  have hpos : 0 < low c.shared := by
    rw [h.readers]
    exact Threads.count_pos.mpr ⟨t, ht⟩
  obtain ⟨hlock, hlow⟩ := pred_spec hpos
  refine ⟨?_, ?_, ?_, h.loaded_move _ (by simp)⟩
  · have hcount := Threads.count_move_leave (c := c) (t := t) (m := c.shared - 1)
      (p := (· = .inSplit)) (l := .idle) (by simp) ht
    rw [Threads.move_shared]
    rw [h.readers] at hlow
    omega
  · rw [Threads.count_move_same (by simp [ht, SmoPc.Writing]), Threads.move_shared, h.writers,
      if_congr hlock rfl rfl]
  · intro u hu
    rcases c.move_pc_cases t u (c.shared - 1) .idle with ⟨_, e⟩ | ⟨_, e⟩
    · rw [e] at hu
      cases hu
    · have := h.drained u (e ▸ hu)
      omega

/-- write lock の bit を立てる一歩。 -/
theorem raise (h : SmoInv c) (ht : c.pc t = .writeCas c.shared) :
    SmoInv (c.move t (c.shared ||| lockSet) .drain) := by
  have hfree : ¬ Locked c.shared := h.loaded t _ (Or.inr ht)
  have hcount : c.count SmoPc.Writing = 0 := by rw [h.writers, if_neg hfree]
  refine ⟨?_, ?_, ?_, h.loaded_move _ (by simp)⟩
  · rw [Threads.count_move_same (by simp [ht]), Threads.move_shared, low_or_lockSet hfree,
      h.readers]
  · rw [Threads.count_move_enter (p := SmoPc.Writing) (Or.inl rfl) (by simp [ht, SmoPc.Writing]),
      Threads.move_shared, if_pos (locked_or_lockSet hfree), hcount]
  · intro u hu
    rcases c.move_pc_cases t u (c.shared ||| lockSet) .drain with ⟨_, e⟩ | ⟨_, e⟩
    · rw [e] at hu
      cases hu
    · exact absurd (h.locked_of_writing (Or.inr (e ▸ hu))) hfree

/-- write lock の解放。0 を書くだけだが、分割は残っていないので数は正しい。 -/
theorem lower (h : SmoInv c) (ht : c.pc t = .inRebuild) : SmoInv (c.move t 0 .idle) := by
  have hzero := h.drained t ht
  have hlocked : Locked c.shared := h.locked_of_writing (Or.inr ht)
  refine ⟨?_, ?_, ?_, h.loaded_move _ (by simp)⟩
  · rw [Threads.count_move_same (by simp [ht]), Threads.move_shared, low_zero, ← h.readers, hzero]
  · have hcount := Threads.count_move_leave (c := c) (t := t) (m := (0 : UInt32))
      (p := SmoPc.Writing) (l := .idle) (by simp [SmoPc.Writing]) (Or.inr ht)
    rw [h.writers, if_pos hlocked] at hcount
    rw [Threads.move_shared, if_neg not_locked_zero]
    omega
  · intro u _
    exact low_zero

/-- **どの thread の一歩も不変量を保つ。** -/
theorem step (hcard : Fintype.card T < 2 ^ 31) {e : Option T} {c' : SmoState T} (h : SmoInv c)
    (hs : c.Step e c') : SmoInv c' := by
  cases hs with
  | env hf => exact hf.elim
  | thread t hs =>
    generalize hpc : c.pc t = l at hs
    generalize hw : c.shared = w at hs
    cases hs with
    | tryGetReadLock =>
      subst hw
      exact h.stutter (by simp [hpc]) (by simp [hpc, SmoPc.Writing]) (by simp) (by simp)
    | getWriteLock =>
      subst hw
      exact h.stutter (by simp [hpc]) (by simp [hpc, SmoPc.Writing]) (by simp) (by simp)
    | readLoad =>
      subst hw
      refine h.stutter ?_ ?_ ?_ ?_ <;> split <;> simp_all [SmoPc.Writing]
    | writeLoad =>
      subst hw
      refine h.stutter ?_ ?_ ?_ ?_ <;> split <;> simp_all [SmoPc.Writing]
    | readCas v =>
      subst hw
      by_cases hv : c.shared = v
      · rw [if_pos hv, if_pos hv, ← hv]
        exact h.enterSplit hcard (by rw [hpc, hv])
      · rw [if_neg hv, if_neg hv]
        exact h.stutter (by simp [hpc]) (by simp [hpc, SmoPc.Writing]) (by simp) (by simp)
    | writeCas v =>
      subst hw
      by_cases hv : c.shared = v
      · rw [if_pos hv, if_pos hv, ← hv]
        exact h.raise (by rw [hpc, hv])
      · rw [if_neg hv, if_neg hv]
        exact h.stutter (by simp [hpc]) (by simp [hpc, SmoPc.Writing]) (by simp) (by simp)
    | drain =>
      subst hw
      by_cases hz : c.shared &&& lockMask = 0
      · rw [if_pos hz]
        refine h.stutter (by simp [hpc]) (by simp [hpc, SmoPc.Writing]) (fun _ => ?_) (by simp)
        rw [low, hz]
        rfl
      · rw [if_neg hz]
        exact h.stutter (by simp [hpc]) (by simp [hpc, SmoPc.Writing]) (by simp) (by simp)
    | releaseReadLock => exact hw ▸ h.leaveSplit hpc
    | releaseWriteLock => exact h.lower hpc

end SmoInv

/-! ## 排他 -/

/--
どの thread の数（`2 ^ 31` 未満）とどの交錯についても、**再構築の本体は分割の本体とも他の再構築の
本体とも重ならず**、語の下位 31 bit は分割の本体にいる thread の個数である。
-/
theorem smoLock_exclusion [DecidableEq T] (hcard : Fintype.card T < 2 ^ 31) {c : SmoState T}
    (h : Reachable SmoState.Step SmoState.initial c) :
    (∀ t, c.pc t = .inRebuild →
      (∀ u, c.pc u ≠ .inSplit) ∧ ∀ u, c.pc u = .inRebuild → u = t) ∧
    (c.shared &&& lockMask).toNat = (Finset.univ.filter fun t => c.pc t = .inSplit).card := by
  have hinv : SmoInv c := h.invariant SmoInv smoInv_initial fun _ _ _ => SmoInv.step hcard
  refine ⟨fun t ht => ⟨hinv.no_split ht, fun u hu => ?_⟩, hinv.readers⟩
  exact hinv.writing_unique (Or.inr hu) (Or.inr ht)

/-- 二つの thread のうち一つが再構築の本体に入った状態。 -/
theorem smoLock_exclusion_two :
    ∃ c : SmoState (Fin 2), c.pc 0 = .inRebuild ∧ Locked c.shared ∧ c.pc 1 ≠ .inSplit ∧
      (c.shared &&& lockMask).toNat = (Finset.univ.filter fun t => c.pc t = .inSplit).card := by
  have h₀ : Reachable SmoState.Step (SmoState.initial : SmoState (Fin 2)) _ := Reach.refl _
  have h₁ := h₀.tail (.thread 0 (.getWriteLock _))
  have h₂ := h₁.tail (.thread 0 (.writeLoad _))
  have h₃ := h₂.tail (.thread 0 (.writeCas _ 0))
  have h₄ := h₃.tail (.thread 0 (.drain _))
  have hex := smoLock_exclusion (by decide) h₄
  exact ⟨_, by decide, by decide, (hex.1 0 (by decide)).1 1, hex.2⟩

end Plin
