import Plin.Properties.ChainRun

/-!
# 捨てられた leaf を読んでいる thread

`find` も範囲検索も、leaf を lock せずに `next` をたどる。たどっている間に leaf が分割されて捨てられても、その
`next` は書き換わらない。**heap に在るどの leaf からも、`next` をたどれば今の連鎖に戻り、右端に着く**
（`chain_leads`）。
-/

namespace Plin

open Infra

variable {D : Type} [Arith D]

/-- `next` を何度かたどって着く。 -/
def Follows (m : List (LeafNode D)) : LeafId → LeafId → Prop :=
  Relation.ReflTransGen fun a b => nextOf m a = some b

section Follows

omit [Arith D]

variable {m m' : List (LeafNode D)} {i j : LeafId}

theorem Follows.congr (h : Follows m i j) (hnext : ∀ i, nextOf m' i = nextOf m i) :
    Follows m' i j := by
  induction h with
  | refl => exact .refl
  | @tail a b _ hab ih => exact .tail ih ((hnext a).trans hab)

theorem lt_of_nextOf (h : nextOf m i = some j) : i < m.length := by
  obtain ⟨l, hl, -⟩ := Option.bind_eq_some_iff.mp h
  exact (List.getElem?_eq_some_iff.mp hl).1

/-- 連鎖の leaf からは、右端に着く。 -/
theorem follows_getLast {ids : List LeafId}
    (h : ids.IsChain fun a b => nextOf m a = some b) (hi : i ∈ ids) :
    ∃ a ∈ ids.getLast?, Follows m i a := by
  induction ids generalizing i with
  | nil => cases hi
  | cons x ids ih =>
    cases ids with
    | nil =>
      obtain rfl := List.mem_singleton.mp hi
      exact ⟨i, rfl, .refl⟩
    | cons y ids =>
      obtain ⟨hxy, hrest⟩ := List.isChain_cons_cons.mp h
      have hlast : (x :: y :: ids).getLast? = (y :: ids).getLast? := List.getLast?_cons_cons
      rw [hlast]
      rcases List.mem_cons.mp hi with rfl | hi
      · obtain ⟨a, ha, hya⟩ := ih hrest List.mem_cons_self
        exact ⟨a, ha, .head hxy hya⟩
      · exact ih hrest hi

end Follows

section Step

variable {f : Fitter D} {m m' : List (LeafNode D)} {l l' : SplitterPc}

/-- `next` が変わるのは、左隣からつなぐ一歩だけである。 -/
theorem SplitterStep.link_cases (h : SplitterStep f m l m' l') :
    (m'.length = m.length ∧ ∀ i, nextOf m' i = nextOf m i) ∨
      ∃ j data left right last, l = .linkLeft j data ∧ j.left = some left ∧ j.right = some right ∧
        publish f m left right data = .ok (m', last) ∧ l' = .linkRight j last := by
  have hmodify : ∀ (x : LeafId) (g : LeafNode D → LeafNode D), (∀ l, (g l).next = l.next) →
      (m.modify x g).length = m.length ∧ ∀ i, nextOf (m.modify x g) i = nextOf m i :=
    fun x g hg => ⟨List.length_modify .., fun i => bind_modify hg⟩
  cases h with
  | lockCas => exact Or.inl (hmodify _ _ fun _ => rfl)
  | undoLeft => exact Or.inl (hmodify _ _ fun _ => rfl)
  | undoLeaf => exact Or.inl (hmodify _ _ fun _ => rfl)
  | getWriteLock j =>
    split
    · exact Or.inl (hmodify _ _ fun _ => rfl)
    · exact Or.inl ⟨rfl, fun _ => rfl⟩
  | getData => exact Or.inl (hmodify _ _ fun _ => rfl)
  | getReadLock j =>
    split
    · exact Or.inl (hmodify _ _ fun _ => rfl)
    · exact Or.inl ⟨rfl, fun _ => rfl⟩
  | linkLeft j data hl hr hm => exact Or.inr ⟨j, data, _, _, _, rfl, hl, hr, hm, rfl⟩
  | linkRight => exact Or.inl (hmodify _ _ fun _ => rfl)
  | setAbandoned => exact Or.inl (hmodify _ _ fun _ => rfl)
  | releaseLeaf => exact Or.inl (hmodify _ _ fun _ => rfl)
  | releaseLeft => exact Or.inl (hmodify _ _ fun _ => rfl)
  | releaseRight => exact Or.inl (hmodify _ _ fun _ => rfl)
  | _ => exact Or.inl ⟨rfl, fun _ => rfl⟩

omit [Arith D] in
/-- つなぎ替えた後も、外された leaf の次は右隣である。 -/
theorem Published.follows {left leaf right last : LeafId} {new : List (Link D)} {A B : List LeafId}
    {i j : LeafId} (h : Published m m' left right last new) (hne : left ≠ leaf)
    (hnext : nextOf m leaf = some right) (hj : j ∈ A ++ left :: leaf :: right :: B)
    (hfollows : Follows m i j) :
    ∃ j' ∈ A ++ left :: (new.map Prod.fst ++ right :: B), Follows m' i j' := by
  induction hfollows using Relation.ReflTransGen.head_induction_on with
  | refl =>
    by_cases hleaf : j = leaf
    · subst hleaf
      refine ⟨right, by simp, .single ?_⟩
      exact (h.nextOf_old (lt_of_nextOf hnext) hne).trans hnext
    · refine ⟨j, ?_, .refl⟩
      simp only [List.mem_append, List.mem_cons] at hj ⊢
      tauto
  | @head a b hab _ ih =>
    by_cases hleft : left = a
    · -- 左隣は連鎖に残る
      exact ⟨a, by simp [hleft], .refl⟩
    · obtain ⟨j', hj', hb⟩ := ih
      exact ⟨j', hj', .head ((h.nextOf_old (lt_of_nextOf hab) hleft).trans hab) hb⟩

end Step

/-- heap に在るどの leaf からも、連鎖に戻れる。 -/
structure LeadInv {T : Type} (c : ChainState T D) (ids : List LeafId) : Prop where
  chain : ChainInv c ids
  leads : ∀ i < c.shared.length, ∃ j ∈ ids, Follows c.shared i j

theorem LeadInv.step {T : Type} [DecidableEq T] {f : Fitter D} {c c' : ChainState T D}
    {ids : List LeafId} {e : Option T} (h : LeadInv c ids) (hfresh : c.Fresh e)
    (hs : c.Step f e c') : ∃ ids', LeadInv c' ids' ∧ ids'.head? = ids.head? := by
  have hchain := h.chain.step hfresh hs
  -- `next` の変わらない一歩では、連鎖もたどり方も変わらない
  have hstill : c'.shared.length = c.shared.length →
      (∀ i, nextOf c'.shared i = nextOf c.shared i) →
      ∃ ids', LeadInv c' ids' ∧ ids'.head? = ids.head? := by
    intro hlen hnext
    rcases hchain with hI | ⟨ids', hrep, -⟩
    · refine ⟨ids, ⟨hI, fun i hi => ?_⟩, rfl⟩
      obtain ⟨j, hj, hfollows⟩ := h.leads i (hlen ▸ hi)
      exact ⟨j, hj, hfollows.congr hnext⟩
    · cases hrep with
      | intro hpc hm => exact absurd hlen hm.lt_length.ne'
  cases hs with
  | env hm =>
    obtain ⟨x, blocks, n, hm⟩ := hm
    subst hm
    exact hstill (List.length_modify ..) fun i => bind_modify fun _ => rfl
  | @thread t m l hs =>
    rcases hs.link_cases with ⟨hlen, hnext⟩ | ⟨j, data, left, right, last, hpc, hl, hr, hm, rfl⟩
    · exact hstill hlen hnext
    · have hlt : left < c.shared.length :=
        h.chain.lt_of_held (t := t) (Or.inl (by rw [hpc]; exact Or.inr (Or.inl hl)))
      obtain ⟨new, hpub, -⟩ := publish_eq hlt hm
      obtain ⟨A, B, rfl, hI⟩ := h.chain.linkLeft hpc hl hr hpub
      refine ⟨_, ⟨hI, fun i hi => ?_⟩, by cases A <;> rfl⟩
      by_cases hold : i < c.shared.length
      · obtain ⟨k, hk, hfollows⟩ := h.leads i hold
        have hwoven := h.chain.woven
        rw [List.append_cons] at hwoven
        exact hpub.follows h.chain.woven.ne_neighbors.1 hwoven.next_eq hk hfollows
      · refine ⟨i, ?_, .refl⟩
        have hnew : i ∈ new.map Prod.fst := hpub.mem_ids.mpr ⟨Nat.not_lt.mp hold, hi⟩
        simp only [List.mem_append, List.mem_cons]
        tauto

/--
**heap に在るどの leaf からも、`next` をたどれば今の連鎖に戻り、右端に着く。** 初めの heap がそうなら、捨てられた
leaf の lock を誰も取らない実行では、分割と書き込みをどう交錯させてもそうである。
-/
theorem chain_leads {D : Type} [Arith D] {T : Type} [DecidableEq T] {f : Fitter D}
    {m : List (LeafNode D)} {ids : List LeafId}
    (hm : Intact (ChainState.initial m : ChainState T D) ids)
    (hleads : ∀ i < m.length, ∃ j ∈ ids, Follows m i j) {c : ChainState T D}
    (h : Reach (ChainState.Step f) ChainState.Fresh (ChainState.initial m) c) :
    ∃ ids', Intact c ids' ∧ ids'.head? = ids.head? ∧ ∀ i < c.shared.length,
      ∃ j ∈ ids', Follows c.shared i j ∧ ∃ a ∈ ids'.getLast?, Follows c.shared j a := by
  obtain ⟨ids', hI, hhead⟩ := h.invariant
    (fun c => ∃ ids', LeadInv c ids' ∧ ids'.head? = ids.head?)
    ⟨ids, ⟨hm.initial, hleads⟩, rfl⟩ (by
    rintro s e s' ⟨ids₁, hI, hhead⟩ hfresh hs
    obtain ⟨ids₂, hI', hhead'⟩ := hI.step hfresh hs
    exact ⟨ids₂, hI', hhead'.trans hhead⟩)
  refine ⟨ids', hI.chain.intact, hhead, fun i hi => ?_⟩
  obtain ⟨j, hj, hfollows⟩ := hI.leads i hi
  exact ⟨j, hj, hfollows, follows_getLast hI.chain.woven.forward hj⟩

/-- 分割の途中の heap でも、どの leaf からも左端から始まる連鎖に戻れる。 -/
theorem chain_leads_middle :
    ∃ m last ids, Intact (twoSplitters m (.linkRight middleJob last) .idle) ids ∧
      ids.head? = some 0 ∧ ∀ i < m.length,
        ∃ j ∈ ids, Follows m i j ∧ ∃ a ∈ ids.getLast?, Follows m j a := by
  obtain ⟨m, last, h⟩ := exists_linkRight
  refine ⟨m, last, chain_leads intact_threeLeaves (fun i hi => ⟨i, ?_, .refl⟩)
    (h.mono fun _ _ h => h.2)⟩
  refine (intact_threeLeaves.mem i).mpr ⟨hi, ?_⟩
  rintro (hab | ⟨t, ht⟩)
  · exact not_abandonedAt_threeLeaves i hab
  · exact ht

end Plin
