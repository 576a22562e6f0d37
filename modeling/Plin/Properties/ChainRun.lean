import Mathlib.Data.Fin.VecNotation
import Plin.Properties.ChainShared

/-!
# 並行する分割は連鎖を壊さない

orphan の分割は、捨てた leaf の lock を放す。その lock をもう一度取る thread があれば、古い両隣の間につないで
しまい、先の分割が作った leaf は連鎖から消える。**捨てられた leaf の lock を誰も取らなければ、分割をどう交錯
させても、捨てられていない leaf はすべて左端から `next` をたどった列に在る**（`chain_intact`）。親 slot を持つ
leaf の分割は lock を放さないので、そのような分割だけなら、この条件はいつも成り立つ
（`chain_intact_parented`）。
-/

namespace Plin

open Infra

variable {D : Type} [Arith D]

/-! ## 実行 -/

/--
捨てられていない leaf は、`ids` の順につながっている。`prev` でもつながっていることは、右隣の `prev` を書く途中の
thread が無いときにだけ言う。
-/
structure Intact {T : Type} (c : ChainState T D) (ids : List LeafId) : Prop where
  nodup : ids.Nodup
  mem : ∀ i, i ∈ ids ↔ i < c.shared.length ∧ ¬ c.Gone i
  forward : ids.IsChain fun a b => nextOf c.shared a = some b
  back : (∀ t j last, c.pc t ≠ .linkRight j last) →
    ids.IsChain fun a b => prevOf c.shared b = some a
  front : ∀ a ∈ ids.head?, prevOf c.shared a = none
  tail : ∀ a ∈ ids.getLast?, nextOf c.shared a = none
  /-- `prev` も `next` も heap の外を指さない。 -/
  range : ∀ i y, prevOf c.shared i = some y ∨ nextOf c.shared i = some y → y < c.shared.length

section Run

variable {T : Type} {f : Fitter D} {m : List (LeafNode D)} {c c' : ChainState T D}
  {ids : List LeafId}

omit [Arith D] in
theorem ChainInv.intact (h : ChainInv c ids) : Intact c ids where
  nodup := h.woven.nodup
  mem := h.mem
  forward := h.woven.forward
  back hnone := h.woven.back.imp fun a b hab => hab.resolve_right fun hlate => by
    obtain ⟨t, ht⟩ := hlate
    obtain ⟨j, hj, -⟩ := ht.eq
    exact hnone t j a hj
  front := h.woven.front
  tail := h.woven.tail
  range := h.range

omit [Arith D] in
theorem Intact.initial (h : Intact (ChainState.initial m : ChainState T D) ids) :
    ChainInv (ChainState.initial m : ChainState T D) ids where
  woven := ⟨h.nodup, h.forward, (h.back fun _ _ _ hc => by cases hc).imp fun _ _ => Or.inl, h.front,
    h.tail⟩
  mem := h.mem
  range := h.range
  pcs _ := trivial
  live _ _ := False.elim
  held _ _ hi := hi.elim False.elim False.elim
  exclusive _ _ _ hi := hi.elim False.elim False.elim

variable [DecidableEq T]

theorem ChainInv.of_reach (hm : Intact (ChainState.initial m : ChainState T D) ids)
    (h : Reach (ChainState.Step f) ChainState.Fresh (ChainState.initial m) c) :
    ∃ ids', ChainInv c ids' ∧ ids'.head? = ids.head? := by
  refine h.invariant (fun c => ∃ ids', ChainInv c ids' ∧ ids'.head? = ids.head?)
    ⟨ids, hm.initial, rfl⟩ ?_
  rintro s e s' ⟨ids₁, hI, hhead⟩ hfresh hs
  rcases hI.step hfresh hs with hI' | ⟨ids₂, hrep, hI'⟩
  · exact ⟨ids₁, hI', hhead⟩
  · exact ⟨ids₂, hI', hrep.head.trans hhead⟩

/--
**分割をどう交錯させても連鎖は壊れない。** 捨てられた leaf の split lock を誰も取らない実行では、捨てられていない
leaf はいつもすべて連鎖に在り、左端は変わらない。
-/
theorem chain_intact {D : Type} [Arith D] {T : Type} [DecidableEq T] {f : Fitter D}
    {m : List (LeafNode D)} {ids : List LeafId}
    (hm : Intact (ChainState.initial m : ChainState T D) ids) {c : ChainState T D}
    (h : Reach (ChainState.Step f) ChainState.Fresh (ChainState.initial m) c) :
    ∃ ids', Intact c ids' ∧ ids'.head? = ids.head? := by
  obtain ⟨ids', hI, hhead⟩ := ChainInv.of_reach hm h
  exact ⟨ids', hI.intact, hhead⟩

end Run

/-! ## 親 slot を持つ leaf の分割 -/

namespace SplitterPc

/-- 親 slot を持つ leaf の分割だけを進めている。 -/
def Slotted : SplitterPc → Prop
  | getNext _ orphan _ => orphan = false
  | tryReadLock j => j.orphan = false
  | lockLoad j _ => j.orphan = false
  | lockCas j _ _ => j.orphan = false
  | getWriteLock j => j.orphan = false
  | getData j => j.orphan = false
  | getReadLock j _ => j.orphan = false
  | linkLeft j _ => j.orphan = false
  | linkRight j _ => j.orphan = false
  | setAbandoned j => j.orphan = false
  | releaseLeaf _ => False
  | _ => True

theorem slotted_failed (j : SplitJob) (g : Guarded) : (failed j g).Slotted := by
  cases g <;> trivial

theorem slotted_locked {j : SplitJob} (h : j.orphan = false) (g : Guarded) :
    (locked j g).Slotted := by
  cases g <;> exact h

end SplitterPc

section Parented

variable {f : Fitter D} {m m' : List (LeafNode D)} {l l' : SplitterPc} {i : LeafId}

theorem SplitterStep.slotted (h : SplitterStep f m l m' l') (hl : l.Slotted)
    (horphan : ∀ x, l ≠ .getPrev x true) : l'.Slotted := by
  cases h with
  | call => trivial
  | getPrev orphan hx =>
    cases orphan with
    | true => exact absurd rfl (horphan _)
    | false => rfl
  | getNext => exact hl
  | tryReadLock => exact hl
  | tryReadLockFailed => trivial
  | lockNone j g => exact SplitterPc.slotted_failed j g
  | lockLoad j g =>
    split
    · exact SplitterPc.slotted_failed j g
    · exact hl
  | lockCas j g => exact SplitterPc.slotted_locked hl g
  | lockCasFailed j g => exact SplitterPc.slotted_failed j g
  | undoLeft => trivial
  | undoLeaf => trivial
  | getWriteLock => exact hl
  | getData => exact hl
  | getReadLock => exact hl
  | linkLeft => exact hl
  | linkRight => exact hl
  | setAbandoned j =>
    rw [if_neg (by rw [show j.orphan = false from hl]; exact Bool.false_ne_true)]
    trivial
  | releaseLeaf => exact hl.elim
  | releaseLeft => trivial
  | releaseRight => trivial

/-- 放されるのは、自分の持っている lock だけである。 -/
theorem SplitterStep.lockedAt (h : SplitterStep f m l m' l') (hl : ∀ x, l.Holds x → LockedAt m x)
    (hi : LockedAt m i) (hnot : ¬ l.Holds i) : LockedAt m' i := by
  have hrelease : ∀ x, l.Holds x → LockedAt (m.modify x LeafNode.releaseLock) i :=
    fun x hx => hi.modify_ne fun hxi => hnot (hxi ▸ hx)
  cases h with
  | lockCas j g v => exact hi.modify fun l _ => by simp
  | undoLeft j hg => exact hrelease _ (Or.inl (Or.inr hg))
  | undoLeaf j => exact hrelease _ (Or.inl rfl)
  | getWriteLock j =>
    split
    · exact hi.modify fun l hb => (ChainInv.testBit_zero_add (b := 2) rfl).trans hb
    · exact hi
  | getData => exact hi.modify fun _ hb => hb
  | getReadLock j =>
    split
    · exact hi.modify fun l hb => (ChainInv.testBit_zero_add (b := 4) rfl).trans hb
    · exact hi
  | @linkLeft j data left right _ last hleft hright hm =>
    obtain ⟨x, hx, -⟩ := hl left (Or.inl (Or.inr (Or.inl hleft)))
    obtain ⟨new, hpub, -⟩ := publish_eq (List.getElem?_eq_some_iff.mp hx).1 hm
    exact hpub.lockedAt_old hi
  | linkRight => exact hi.modify fun _ hb => hb
  | setAbandoned => exact hi.modify fun _ hb => hb
  | releaseLeaf j => exact hrelease _ (Or.inr rfl)
  | releaseLeft j hg => exact hrelease _ (Or.inl (Or.inl hg))
  | releaseRight j hg => exact hrelease _ (Or.inl hg)
  | _ => exact hi

/-- 捨てられるのは、つなぎ替えた leaf だけである。 -/
theorem SplitterStep.abandonedAt (h : SplitterStep f m l m' l')
    (hl : ∀ x, l.Holds x → LockedAt m x) (hi : AbandonedAt m' i) :
    AbandonedAt m i ∨ ∃ j, l = .setAbandoned j ∧ i = j.leaf := by
  cases h with
  | lockCas => exact Or.inl (hi.of_modify fun _ => rfl)
  | undoLeft => exact Or.inl (hi.of_modify fun _ => rfl)
  | undoLeaf => exact Or.inl (hi.of_modify fun _ => rfl)
  | getWriteLock j =>
    split at hi
    · exact Or.inl (hi.of_modify fun _ => rfl)
    · exact Or.inl hi
  | getData => exact Or.inl (hi.of_modify fun _ => rfl)
  | getReadLock j =>
    split at hi
    · exact Or.inl (hi.of_modify fun _ => rfl)
    · exact Or.inl hi
  | @linkLeft j data left right _ last hleft hright hm =>
    obtain ⟨x, hx, -⟩ := hl left (Or.inl (Or.inr (Or.inl hleft)))
    obtain ⟨new, hpub, -⟩ := publish_eq (List.getElem?_eq_some_iff.mp hx).1 hm
    exact Or.inl (hpub.abandonedAt_iff.mp hi)
  | linkRight => exact Or.inl (hi.of_modify fun _ => rfl)
  | setAbandoned j =>
    by_cases hx : j.leaf = i
    · exact Or.inr ⟨j, rfl, hx.symm⟩
    · rw [AbandonedAt, List.getElem?_modify_ne _ _ hx] at hi
      exact Or.inl hi
  | releaseLeaf => exact Or.inl (hi.of_modify fun _ => rfl)
  | releaseLeft => exact Or.inl (hi.of_modify fun _ => rfl)
  | releaseRight => exact Or.inl (hi.of_modify fun _ => rfl)
  | _ => exact Or.inl hi

/-- 新しく取るのは、空いていた lock である。 -/
theorem SplitterStep.holds {v : ChainView} (h : SplitterStep f m l m' l') (hl : l.Knows v)
    (hi : l'.Holds i) : l.Holds i ∨ ¬ LockedAt m i := by
  have hfailed : ∀ {j : SplitJob} {g : Guarded}, (SplitterPc.failed j g).Holds i →
      j.Before g i := fun hi => hi.elim SplitterPc.guards_failed fun hi =>
        absurd hi SplitterPc.not_owns_failed
  cases h with
  | lockNone j g => exact Or.inl (Or.inl (hfailed hi))
  | lockLoad j g =>
    split at hi
    · exact Or.inl (Or.inl (hfailed hi))
    · exact Or.inl hi
  | lockCas j g w hg hx hw =>
    refine hi.elim (fun hi => ?_) fun hi => absurd hi SplitterPc.not_owns_locked
    refine (SplitterPc.guards_locked hg hi).imp Or.inl ?_
    rintro rfl ⟨y, hy, hbit⟩
    obtain rfl := Option.some.inj (hx.symm.trans hy)
    rw [hw, hl.2.2] at hbit
    cases hbit
  | lockCasFailed j g => exact Or.inl (Or.inl (hfailed hi))
  | undoLeft j => exact Or.inl (hi.imp Or.inl id)
  | getWriteLock => exact Or.inl hi
  | getData => exact Or.inl hi
  | getReadLock => exact Or.inl hi
  | linkLeft => exact Or.inl (Or.inl (hi.elim Or.inr Or.inl))
  | linkRight => exact Or.inl hi
  | setAbandoned j =>
    split at hi
    · exact Or.inl hi
    · exact Or.inl (hi.imp id False.elim)
  | releaseLeaf => exact Or.inl (hi.imp id False.elim)
  | releaseLeft => exact Or.inl (hi.imp Or.inr id)
  | _ => exact (hi.elim False.elim False.elim)

end Parented

/-- 捨てられた leaf の lock は掛かったままで、どの thread のものでもない。 -/
def ChainState.Dead {T : Type} (c : ChainState T D) : Prop :=
  ∀ i, AbandonedAt c.shared i → LockedAt c.shared i ∧ ∀ t, ¬ (c.pc t).Holds i

section Dead

variable {T : Type} [DecidableEq T] {f : Fitter D} {m : List (LeafNode D)} {c c' : ChainState T D}
  {ids : List LeafId} {e : Option T}

namespace ChainInv

omit [Arith D] [DecidableEq T] in
/-- 捨てられた leaf の lock は取れない。 -/
theorem fresh (h : ChainInv c ids) (hdead : c.Dead) (e : Option T) : c.Fresh e := by
  intro t j g v x l _ hpc _ hx hl
  have hknows := h.pcs t
  rw [hpc] at hknows
  cases hab : l.isAbandoned with
  | false => rfl
  | true =>
    obtain ⟨⟨y, hy, hbit⟩, -⟩ := hdead x ⟨l, hx, hab⟩
    obtain rfl := Option.some.inj (hx.symm.trans hy)
    rw [hl, hknows.2.2] at hbit
    cases hbit

theorem dead (h : ChainInv c ids) (hdead : c.Dead) (hslot : ∀ t, (c.pc t).Slotted)
    (hs : c.Step f e c') : c'.Dead := by
  cases hs with
  | env hm =>
    obtain ⟨x, blocks, n, hm⟩ := hm
    subst hm
    intro i hab
    obtain ⟨hlock, hnot⟩ := hdead i (hab.of_modify fun _ => rfl)
    exact ⟨hlock.modify fun _ hb => hb, hnot⟩
  | @thread t m l hs =>
    intro i hab
    rcases hs.abandonedAt (h.held t) hab with hab | ⟨j, hj, rfl⟩
    · obtain ⟨hlock, hnot⟩ := hdead i hab
      refine ⟨hs.lockedAt (h.held t) hlock (hnot t), fun u hu => ?_⟩
      rcases c.move_pc_cases t u m l with ⟨-, e⟩ | ⟨-, e⟩
      · rw [e] at hu
        exact (hs.holds (h.pcs t) hu).elim (hnot t) fun hfree => hfree hlock
      · exact hnot u (e ▸ hu)
    · have hown : (c.pc t).Holds j.leaf := by
        rw [hj]
        exact Or.inr rfl
      have hlock := h.held t j.leaf hown
      have hapart := h.pcs t
      have hparent := hslot t
      rw [hj] at hapart hparent
      have hfree : ¬ (SplitterPc.releaseLeft j).Holds j.leaf := fun hi =>
        hi.elim (fun hi => hi.elim hapart.2.left hapart.2.right) id
      rw [hj] at hs
      cases hs
      refine ⟨hlock.modify fun _ hb => hb, fun u hu => ?_⟩
      rcases c.move_pc_cases t u (c.shared.modify j.leaf fun l => { l with isAbandoned := true })
        (if j.orphan then .releaseLeaf j else .releaseLeft j) with ⟨-, e⟩ | ⟨hne, e⟩
      · rw [e, if_neg (by rw [show j.orphan = false from hparent]; exact Bool.false_ne_true)] at hu
        exact hfree hu
      · exact hne (h.exclusive u t j.leaf (e ▸ hu) hown)

end ChainInv

/-- 親 slot を持つ leaf の分割だけなら、捨てられた leaf の lock を取る一歩は無い。 -/
theorem fresh_of_parented {P : ChainState T D → Option T → Prop}
    (hm : Intact (ChainState.initial m : ChainState T D) ids)
    (hdead : ∀ i, AbandonedAt m i → LockedAt m i) (hP : ∀ c e, P c e → c.Parented e)
    (h : Reach (ChainState.Step f) P (ChainState.initial m) c) :
    Reach (ChainState.Step f) (fun c e => P c e ∧ c.Fresh e) (ChainState.initial m) c := by
  refine (h.invariant (fun c => Reach (ChainState.Step f) (fun c e => P c e ∧ c.Fresh e)
    (ChainState.initial m) c ∧ (∀ t, (c.pc t).Slotted) ∧ c.Dead) ⟨.refl _, fun _ => trivial,
      fun i hi => ⟨hdead i hi, fun _ hc => hc.elim False.elim False.elim⟩⟩ ?_).1
  rintro s e s' ⟨hreach, hslot, hs⟩ hstart hstep
  obtain ⟨ids', hI, -⟩ := ChainInv.of_reach hm (hreach.mono fun _ _ h => h.2)
  refine ⟨hreach.tail ⟨hstart, hI.fresh hs e⟩ hstep, fun u => ?_, hI.dead hs hslot hstep⟩
  cases hstep with
  | env => exact hslot u
  | @thread t m l hstep =>
    rcases s.move_pc_cases t u m l with ⟨-, e⟩ | ⟨-, e⟩
    · rw [e]
      exact hstep.slotted (hslot t) fun x => hP s _ hstart t x rfl
    · rw [e]
      exact hslot u

/--
**親 slot を持つ leaf の分割だけなら、連鎖はいつも保たれる。** 捨てた leaf の lock は放されないので、それを取る
thread は無い。
-/
theorem chain_intact_parented {D : Type} [Arith D] {T : Type} [DecidableEq T] {f : Fitter D}
    {m : List (LeafNode D)} {ids : List LeafId}
    (hm : Intact (ChainState.initial m : ChainState T D) ids)
    (hdead : ∀ i, AbandonedAt m i → LockedAt m i) {c : ChainState T D}
    (h : Reach (ChainState.Step f) ChainState.Parented (ChainState.initial m) c) :
    ∃ ids', Intact c ids' ∧ ids'.head? = ids.head? := by
  have hfresh := fresh_of_parented hm hdead (fun _ _ => id) h
  obtain ⟨ids', hI, hhead⟩ := ChainInv.of_reach hm (hfresh.mono fun _ _ h => h.2)
  exact ⟨ids', hI.intact, hhead⟩

end Dead

/-! ## 真ん中の leaf を奪い合う二つの thread -/

/-- 鍵を一つだけ持つ leaf。 -/
def keyLeaf (key : Key) (prev next : Option LeafId) : LeafNode ℚ :=
  { slope := 0, intercept := 0, blockNumber := 1, prev := prev, next := next, firstKey := key
    overflowNumber := 0, numberToSplit := 4, locked := 0, isAbandoned := false
    lastBuildKey := key, blocks := [⟨none, [⟨key, 10⟩]⟩] }

def threeLeaves : List (LeafNode ℚ) :=
  [keyLeaf (Key.ofNat 1) none (some 1), keyLeaf (Key.ofNat 2) (some 0) (some 2),
    keyLeaf (Key.ofNat 3) (some 1) none]

/-- 二つの thread の状態。 -/
def twoSplitters (m : List (LeafNode ℚ)) (l₀ l₁ : SplitterPc) : ChainState (Fin 2) ℚ :=
  ⟨m, ![l₀, l₁]⟩

/-- 真ん中の leaf の分割。 -/
def middleJob : SplitJob := ⟨1, false, some 0, some 2⟩

namespace SplitterPc

/-- 親 slot の無い leaf の分割を始めるところ。 -/
def Orphaned : SplitterPc → Bool
  | getPrev _ orphan => orphan
  | _ => false

end SplitterPc

section TwoSplitters

variable {m m' : List (LeafNode ℚ)} {l₀ l₁ l : SplitterPc}

theorem SplitterStep.loadFree {f : Fitter ℚ} {j : SplitJob} {g : Guarded} {x : LeafId}
    {y : LeafNode ℚ} (hg : j.at g = some x) (hx : m[x]? = some y)
    (hbit : y.locked.testBit 0 = false) :
    SplitterStep f m (.lockLoad j g) m (.lockCas j g y.locked) := by
  have hs := SplitterStep.lockLoad (f := f) m j g hg hx
  rwa [if_neg (by rw [hbit]; exact Bool.false_ne_true)] at hs

theorem SplitterStep.loadHeld {f : Fitter ℚ} {j : SplitJob} {g : Guarded} {x : LeafId}
    {y : LeafNode ℚ} (hg : j.at g = some x) (hx : m[x]? = some y)
    (hbit : y.locked.testBit 0 = true) :
    SplitterStep f m (.lockLoad j g) m (.failed j g) := by
  have hs := SplitterStep.lockLoad (f := f) m j g hg hx
  rwa [if_pos hbit] at hs

theorem parented_twoSplitters (h₀ : l₀.Orphaned = false) (h₁ : l₁.Orphaned = false)
    (e : Option (Fin 2)) : (twoSplitters m l₀ l₁).Parented e := by
  intro t x _ hpc
  have horphan : ∀ u, ((twoSplitters m l₀ l₁).pc u).Orphaned = false :=
    Fin.forall_fin_two.mpr ⟨h₀, h₁⟩
  have ht := horphan t
  rw [hpc] at ht
  cases ht

/-- 親 slot を持つ leaf だけを分割する、二つの thread の実行。書き込みは無い。 -/
abbrev Splitting (m : List (LeafNode ℚ)) (l₀ l₁ : SplitterPc) : Prop :=
  Reach (ChainState.Step exactFitter) (fun c e => c.Parented e ∧ e ≠ none)
    (ChainState.initial threeLeaves) (twoSplitters m l₀ l₁)

theorem Splitting.zero (h : Splitting m l₀ l₁) (h₀ : l₀.Orphaned = false)
    (h₁ : l₁.Orphaned = false) (hs : SplitterStep exactFitter m l₀ m' l) : Splitting m' l l₁ :=
  h.tail ⟨parented_twoSplitters h₀ h₁ (some 0), Option.some_ne_none 0⟩ (.of_frame 0 hs
    (Fin.forall_fin_two.mpr ⟨fun hne => absurd rfl hne, fun _ => rfl⟩))

theorem Splitting.one (h : Splitting m l₀ l₁) (h₀ : l₀.Orphaned = false)
    (h₁ : l₁.Orphaned = false) (hs : SplitterStep exactFitter m l₁ m' l) : Splitting m' l₀ l :=
  h.tail ⟨parented_twoSplitters h₀ h₁ (some 1), Option.some_ne_none 1⟩ (.of_frame 1 hs
    (Fin.forall_fin_two.mpr ⟨fun _ => rfl, fun hne => absurd rfl hne⟩))

theorem splitting_idle : Splitting threeLeaves .idle .idle := by
  have hpc : (fun _ => .idle : Fin 2 → SplitterPc) = ![.idle, .idle] :=
    funext (Fin.forall_fin_two.mpr ⟨rfl, rfl⟩)
  unfold Splitting ChainState.initial twoSplitters
  rw [hpc]
  exact .refl _

/-- どちらの thread も両隣を読み、片方だけが lock を取った。 -/
def contended : List (LeafNode ℚ) := threeLeaves.modify 1 fun l => { l with locked := 1 }

theorem splitting_contended : Splitting contended (.lockLoad middleJob .left) .idle := by
  have h₁ := splitting_idle.zero rfl rfl (.call _ (x := 1) false rfl)
  have h₂ := h₁.one rfl rfl (.call _ (x := 1) false rfl)
  have h₃ := h₂.zero rfl rfl (.getPrev _ _ rfl)
  have h₄ := h₃.zero rfl rfl (.getNext _ _ _ rfl)
  have h₅ := h₄.one rfl rfl (.getPrev _ _ rfl)
  have h₆ := h₅.one rfl rfl (.getNext _ _ _ rfl)
  have h₇ := h₆.zero rfl rfl (.tryReadLock _ _)
  have h₈ := h₇.one rfl rfl (.tryReadLock _ _)
  have h₉ := h₈.zero rfl rfl (.loadFree (g := .self) rfl rfl rfl)
  have h₁₀ := h₉.zero rfl rfl (.lockCas _ _ _ _ rfl rfl rfl)
  exact h₁₀.one rfl rfl (.loadHeld (g := .self) rfl rfl rfl)

/-- 三つの lock を取った heap。 -/
def allLocked : List (LeafNode ℚ) := threeLeaves.map fun l => { l with locked := 1 }

/-- lock を取った真ん中の leaf。 -/
def middleLeaf : LeafNode ℚ := { keyLeaf (Key.ofNat 2) (some 0) (some 2) with locked := 1 }

theorem splitting_getReadLock :
    Splitting (allLocked.modify 1 fun l => l.getData.2)
      (.linkLeft middleJob middleLeaf.getData.1) .idle := by
  have h₁ := splitting_contended.zero rfl rfl (.loadFree rfl rfl rfl)
  have h₂ := h₁.zero rfl rfl (.lockCas _ _ _ _ rfl rfl rfl)
  have h₃ := h₂.zero rfl rfl (.loadFree rfl rfl rfl)
  have h₄ := h₃.zero rfl rfl (.lockCas _ _ _ _ rfl rfl rfl)
  change Splitting allLocked (.getWriteLock middleJob) .idle at h₄
  have h₅ := h₄.zero rfl rfl (.getWriteLock _ _)
  have h₆ := h₅.zero rfl rfl (.getData _ _ (l := middleLeaf) rfl)
  exact h₆.zero rfl rfl (.getReadLock _ _ _)

theorem not_abandonedAt_threeLeaves (i : LeafId) : ¬ AbandonedAt threeLeaves i := by
  rintro ⟨l, hl, hab⟩
  have hall : ∀ l ∈ threeLeaves, l.isAbandoned = false := by simp [threeLeaves, keyLeaf]
  rw [hall l (List.mem_of_getElem? hl)] at hab
  cases hab

/-- 三つの leaf は両方向につながっている。 -/
theorem intact_threeLeaves :
    Intact (ChainState.initial threeLeaves : ChainState (Fin 2) ℚ) [0, 1, 2] where
  nodup := by decide
  mem i := by
    have halive : ¬ ChainState.Gone (ChainState.initial threeLeaves : ChainState (Fin 2) ℚ) i := by
      rintro (hab | ⟨t, ht⟩)
      · exact not_abandonedAt_threeLeaves i hab
      · exact ht
    have hlen : (ChainState.initial threeLeaves : ChainState (Fin 2) ℚ).shared.length = 3 := rfl
    have hthree : ∀ i : Nat, i = 0 ∨ i = 1 ∨ i = 2 ↔ i < 3 := by omega
    rw [and_iff_left halive, hlen]
    simp only [List.mem_cons, List.not_mem_nil, or_false]
    exact hthree i
  forward := .cons_cons rfl (.cons_cons rfl (.singleton _))
  back _ := .cons_cons rfl (.cons_cons rfl (.singleton _))
  front a ha := by
    obtain rfl := Option.some.inj ha
    rfl
  tail a ha := by
    obtain rfl := Option.some.inj ha
    rfl
  range i y hy := by
    have hall : ∀ l ∈ threeLeaves, ∀ y, l.prev = some y ∨ l.next = some y → y < 3 := by
      simp only [threeLeaves, keyLeaf, List.forall_mem_cons]
      refine ⟨?_, ?_, ?_, fun l hl => absurd hl List.not_mem_nil⟩ <;>
        · rintro y (hy | hy) <;> cases hy <;> decide
    rcases hy with hy | hy <;> obtain ⟨l, hl, hy⟩ := Option.bind_eq_some_iff.mp hy
    · exact hall l (List.mem_of_getElem? hl) y (Or.inl hy)
    · exact hall l (List.mem_of_getElem? hl) y (Or.inr hy)

/-- 左隣の `next` が書かれ、右隣の `prev` がまだ古いところ。捨てられた leaf の lock を取る一歩は無い。 -/
theorem exists_linkRight :
    ∃ m last, Reach (ChainState.Step exactFitter) (fun c e => (c.Parented e ∧ e ≠ none) ∧ c.Fresh e)
      (ChainState.initial threeLeaves) (twoSplitters m (.linkRight middleJob last) .idle) := by
  cases hm : publish exactFitter (allLocked.modify 1 fun l => l.getData.2) 0 2
      middleLeaf.getData.1 with
  | error e =>
    have hok : (publish exactFitter (allLocked.modify 1 fun l => l.getData.2) 0 2
      middleLeaf.getData.1).isOk = true := by decide +kernel
    rw [hm] at hok
    cases hok
  | ok r =>
    refine ⟨r.1, r.2, fresh_of_parented intact_threeLeaves
      (fun i hi => absurd hi (not_abandonedAt_threeLeaves i)) (fun _ _ h => h.1) ?_⟩
    exact splitting_getReadLock.zero rfl rfl (.linkLeft _ _ _ rfl rfl hm)

theorem chain_intact_linkLeft :
    ∃ m last ids, Intact (twoSplitters m (.linkRight middleJob last) .idle) ids ∧
      ids.head? = some 0 := by
  obtain ⟨m, last, h⟩ := exists_linkRight
  exact ⟨m, last, chain_intact intact_threeLeaves (h.mono fun _ _ h => h.2)⟩

/-- 片方だけが lock を取ったところ。 -/
theorem chain_intact_contended :
    ∃ ids, Intact (twoSplitters contended (.lockLoad middleJob .left) .idle) ids ∧
      ids.head? = some 0 :=
  chain_intact_parented intact_threeLeaves
    (fun i hi => absurd hi (not_abandonedAt_threeLeaves i))
    (splitting_contended.mono fun _ _ h => h.1)

end TwoSplitters

end Plin
