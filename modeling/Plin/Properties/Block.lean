import Plin.Index.LeafNode

/-!
# block の性質

block は slot の列と overflow tree の二箇所に鍵を置く。中身を一つの写像 `Block.get` と見て、
`find` / `upsert` / `remove` / `place` がその写像に何をするかを示す。

要になるのは **同じ鍵が slot と overflow tree の両方に入らない** こと（`Block.Inv`）である。
`remove` の残す番兵が `FREE_FLAG` と同じ値なので、`upsert` はこれを保つとは限らない。
保たれる条件が `Block.UpsertSafe` である。
-/

namespace Plin

open Infra

/-! ## `updateFirst` -/

theorem updateFirst_eq_none {key : Key} {f : DataSlot → DataSlot} {l : List DataSlot} :
    updateFirst key f l = none ↔ ∀ s ∈ l, s.key ≠ key := by
  induction l with
  | nil => simp [updateFirst]
  | cons s l ih =>
    rw [updateFirst]
    split
    · next h => simp [h]
    · next h => simp [ih, h]

/-- 書き換わるのは、鍵が一致する最初の slot だけである。 -/
theorem updateFirst_eq_some {key : Key} {f : DataSlot → DataSlot} {l l' : List DataSlot}
    (h : updateFirst key f l = some l') :
    ∃ a s b, l = a ++ s :: b ∧ l' = a ++ f s :: b ∧ s.key = key ∧ ∀ t ∈ a, t.key ≠ key := by
  induction l generalizing l' with
  | nil => simp [updateFirst] at h
  | cons s l ih =>
    rw [updateFirst] at h
    split at h
    · next hs =>
      refine ⟨[], s, l, rfl, ?_, hs, by simp⟩
      simpa using h.symm
    · next hs =>
      obtain ⟨r, hr, hl'⟩ := Option.map_eq_some_iff.mp h
      obtain ⟨a, t, b, rfl, rfl, ht, ha⟩ := ih hr
      refine ⟨s :: a, t, b, rfl, hl'.symm, ht, ?_⟩
      intro u hu
      rcases List.mem_cons.mp hu with rfl | hu
      · exact hs
      · exact ha u hu

/-! ## slot の列の写像 -/

/-- slot の列を写像と見て引く。 -/
def slotGet (slots : List DataSlot) (k : Key) : Option Payload :=
  (slots.find? (fun s => k = s.key)).map (·.payload)

theorem slotGet_cons (s : DataSlot) (l : List DataSlot) (k : Key) :
    slotGet (s :: l) k = if k = s.key then some s.payload else slotGet l k := by
  unfold slotGet
  by_cases h : k = s.key <;> simp [h]

theorem slotGet_append (a b : List DataSlot) (k : Key) :
    slotGet (a ++ b) k = (slotGet a k).or (slotGet b k) := by
  induction a with
  | nil => simp [slotGet]
  | cons s a ih =>
    rw [List.cons_append, slotGet_cons, slotGet_cons, ih]
    split <;> simp

theorem slotGet_eq_none {slots : List DataSlot} {k : Key} :
    slotGet slots k = none ↔ ∀ s ∈ slots, s.key ≠ k := by
  simp only [slotGet, Option.map_eq_none_iff, List.find?_eq_none, decide_eq_true_eq]
  exact forall₂_congr fun s _ => not_congr eq_comm

/-- 番兵の他に同じ鍵の slot は二つ無い。 -/
def SlotsUnique (slots : List DataSlot) : Prop :=
  slots.Pairwise (fun s t => s.key = t.key → s.key = freeFlag)

theorem slotsUnique_replace {a b : List DataSlot} {s t : DataSlot}
    (h : SlotsUnique (a ++ s :: b)) (ht : t.key = freeFlag ∨ ∀ u ∈ a ++ b, u.key ≠ t.key) :
    SlotsUnique (a ++ t :: b) := by
  unfold SlotsUnique at h ⊢
  rw [List.pairwise_append, List.pairwise_cons] at h ⊢
  obtain ⟨ha, ⟨hsb, hb⟩, hab⟩ := h
  refine ⟨ha, ⟨?_, hb⟩, ?_⟩
  · intro u hu he
    rcases ht with ht | ht
    · exact ht
    · exact absurd he.symm (ht u (by simp [hu]))
  · intro u hu v hv he
    rcases List.mem_cons.mp hv with rfl | hv
    · rcases ht with ht | ht
      · rw [he]; exact ht
      · exact absurd he (ht u (by simp [hu]))
    · exact hab u hu v (by simp [hv]) he

/-! ## block の写像 -/

namespace Block

variable {b : Block} {k k' : Key} {p : Payload}

/-- overflow tree を引く。 -/
def treeGet (b : Block) (k : Key) : Option Payload := b.overflowTree.bind (·.find k)

/-- block の中身。slot が先で、無ければ overflow tree を見る。 -/
def get (b : Block) (k : Key) : Option Payload := (slotGet b.slots k).or (b.treeGet k)

theorem find_eq (b : Block) (k : Key) (p : Payload) :
    b.find k p = match b.get k with
      | some v => (1, v)
      | none => (0, p) := by
  unfold find get slotGet treeGet
  cases b.slots.find? (fun s => k = s.key) with
  | some s => rfl
  | none => cases b.overflowTree.bind (·.find k) <;> rfl

/-- slot に同じ鍵は二つ無く、slot と overflow tree に同じ鍵は無い。 -/
structure Inv (b : Block) : Prop where
  unique : SlotsUnique b.slots
  disjoint : ∀ k, k ≠ freeFlag → slotGet b.slots k ≠ none → b.treeGet k = none

theorem inv_init : Inv init where
  unique := by
    unfold SlotsUnique init
    exact List.pairwise_replicate.mpr (Or.inr fun _ => rfl)
  disjoint := fun _ _ _ => rfl

theorem get_init (hk : k ≠ freeFlag) : init.get k = none := by
  have : slotGet init.slots k = none := by
    refine slotGet_eq_none.mpr fun s hs => ?_
    rw [show s = ⟨freeFlag, 0⟩ from List.eq_of_mem_replicate hs]
    exact Ne.symm hk
  rw [get, this]
  rfl

/--
`upsert` が二重の記録を作らない条件。

壊れるのは、鍵が overflow tree にだけ在り、しかも block に空きの印の slot が在るときに限る。
-/
def UpsertSafe (b : Block) (k : Key) : Prop :=
  b.treeGet k ≠ none → slotGet b.slots k ≠ none ∨ slotGet b.slots freeFlag = none

instance (b : Block) (k : Key) : Decidable (b.UpsertSafe k) :=
  inferInstanceAs (Decidable (_ → _))

/-! ### `upsert` の三つの枝 -/

/-- `upsert` は slot の更新、空き slot への挿入、overflow tree への書き込みのどれか一つをする。 -/
theorem upsert_cases (b : Block) (k : Key) (p : Payload) :
    (∃ x s y, b.slots = x ++ s :: y ∧ s.key = k ∧ (∀ t ∈ x, t.key ≠ k) ∧
      b.upsert k p = (1, { b with slots := x ++ { s with payload := p } :: y })) ∨
    (slotGet b.slots k = none ∧ ∃ x s y, b.slots = x ++ s :: y ∧ s.key = freeFlag ∧
      (∀ t ∈ x, t.key ≠ freeFlag) ∧
      b.upsert k p = (2, { b with slots := x ++ ⟨k, p⟩ :: y })) ∨
    (slotGet b.slots k = none ∧ slotGet b.slots freeFlag = none ∧
      b.upsert k p = (if (b.treeGet k).isSome then 3 else 4,
        { b with overflowTree := some ((b.overflowTree.getD SortedMap.empty).upsert k p) })) := by
  unfold upsert
  cases hu : updateFirst k (fun s => { s with payload := p }) b.slots with
  | some slots =>
    obtain ⟨x, s, y, hb, rfl, hs, hx⟩ := updateFirst_eq_some hu
    exact Or.inl ⟨x, s, y, hb, hs, hx, rfl⟩
  | none =>
    have hk : slotGet b.slots k = none := slotGet_eq_none.mpr (updateFirst_eq_none.mp hu)
    refine Or.inr ?_
    cases hf : updateFirst freeFlag (fun _ => (⟨k, p⟩ : DataSlot)) b.slots with
    | some slots =>
      obtain ⟨x, s, y, hb, rfl, hs, hx⟩ := updateFirst_eq_some hf
      exact Or.inl ⟨hk, x, s, y, hb, hs, hx, rfl⟩
    | none =>
      refine Or.inr ⟨hk, slotGet_eq_none.mpr (updateFirst_eq_none.mp hf), ?_⟩
      cases ht : b.overflowTree with
      | none => simp [treeGet, ht]
      | some t => simp [treeGet, ht]

theorem treeGet_upsertTree (b : Block) (k k' : Key) (p : Payload) (slots : List DataSlot) :
    ({ overflowTree := some ((b.overflowTree.getD SortedMap.empty).upsert k p), slots := slots } :
      Block).treeGet k' = if k' = k then some p else b.treeGet k' := by
  unfold treeGet
  cases b.overflowTree <;> simp

/-- 二重に記録されていない block への `upsert` は、写像の一点だけを書き換える。 -/
theorem get_upsert (hk : k ≠ freeFlag) (hk' : k' ≠ freeFlag) :
    (b.upsert k p).2.get k' = if k' = k then some p else b.get k' := by
  rcases upsert_cases b k p with ⟨x, s, y, hb, hs, hx, he⟩ | ⟨hn, x, s, y, hb, hs, hx, he⟩ |
    ⟨hn, hf, he⟩
  · rw [he]
    show (slotGet (x ++ _ :: y) k').or (b.treeGet k') = _
    have hxk : slotGet x k = none := slotGet_eq_none.mpr hx
    by_cases h : k' = k
    · subst h
      simp [slotGet_append, slotGet_cons, hxk, hs]
    · have : k' ≠ s.key := by rw [hs]; exact h
      simp [get, hb, slotGet_append, slotGet_cons, h, this]
  · rw [he]
    show (slotGet (x ++ _ :: y) k').or (b.treeGet k') = _
    rw [hb] at hn
    rw [slotGet_append, slotGet_cons, Option.or_eq_none_iff] at hn
    by_cases h : k' = k
    · subst h
      simp [slotGet_append, slotGet_cons, hn.1]
    · have : k' ≠ s.key := by rw [hs]; exact hk'
      simp [get, hb, slotGet_append, slotGet_cons, h, this]
  · rw [he]
    show (slotGet b.slots k').or (treeGet _ k') = _
    rw [treeGet_upsertTree]
    by_cases h : k' = k
    · subst h; simp [hn]
    · simp [h, get]

/-- 安全な `upsert` は二重の記録を作らない。 -/
theorem inv_upsert (hk : k ≠ freeFlag) (hi : b.Inv) (hsafe : b.UpsertSafe k) :
    (b.upsert k p).2.Inv := by
  rcases upsert_cases b k p with ⟨x, s, y, hb, hs, hx, he⟩ | ⟨hn, x, s, y, hb, hs, hx, he⟩ |
    ⟨hn, hf, he⟩
  · have hu := hi.unique
    rw [hb] at hu
    rw [he]
    refine ⟨?_, ?_⟩
    -- 同じ鍵の slot は一つだけなので、書き換えても重複しない
    · have hsep : s.key = freeFlag ∨ ∀ u ∈ x ++ y, u.key ≠ s.key := by
        refine Or.inr ?_
        intro u hu' hc
        rcases List.mem_append.mp hu' with hu' | hu'
        · exact hx u hu' (hc.trans hs)
        · have hp := (List.pairwise_cons.mp (List.pairwise_append.mp hu).2.1).1 u hu' hc.symm
          exact hk (hs.symm.trans hp)
      exact slotsUnique_replace hu hsep
    · intro q hq hne
      refine hi.disjoint q hq ?_
      rw [hb]
      by_cases h : q = s.key
      · intro hc
        have := slotGet_eq_none.mp hc s (by simp)
        exact this h.symm
      · simpa [slotGet_append, slotGet_cons, h] using hne
  · have hfree : slotGet b.slots freeFlag ≠ none := by
      intro hc
      exact slotGet_eq_none.mp hc s (by simp [hb]) hs
    -- slot に無い鍵は、空きが在る限り溢れの木にも無い
    have htree : b.treeGet k = none := by
      by_contra hc
      rcases hsafe hc with h | h
      · exact h hn
      · exact hfree h
    have hu := hi.unique
    rw [hb] at hu
    rw [he]
    refine ⟨?_, ?_⟩
    · refine slotsUnique_replace hu (Or.inr ?_)
      intro u hu'
      refine slotGet_eq_none.mp hn u ?_
      rw [hb]
      rcases List.mem_append.mp hu' with hu' | hu' <;> simp [hu']
    · intro q hq hne
      show b.treeGet q = none
      by_cases h : q = k
      · rw [h]; exact htree
      · refine hi.disjoint q hq ?_
        have : q ≠ s.key := by rw [hs]; exact hq
        rw [hb]
        simpa [slotGet_append, slotGet_cons, h, this] using hne
  · rw [he]
    refine ⟨hi.unique, ?_⟩
    intro q hq hne
    rw [treeGet_upsertTree]
    have : q ≠ k := by rintro rfl; exact hne hn
    rw [if_neg this]
    exact hi.disjoint q hq hne

/-- 安全でない `upsert` の後は、鍵が slot と overflow tree の両方に在る。 -/
theorem upsert_unsafe (h : ¬ b.UpsertSafe k) :
    slotGet (b.upsert k p).2.slots k ≠ none ∧ (b.upsert k p).2.treeGet k ≠ none := by
  unfold UpsertSafe at h
  push Not at h
  obtain ⟨htree, hn, hfree⟩ := h
  rcases upsert_cases b k p with ⟨x, s, y, hb, hs, hx, he⟩ | ⟨_, x, s, y, hb, hs, hx, he⟩ |
    ⟨_, hf, he⟩
  · exfalso
    exact slotGet_eq_none.mp hn s (by simp [hb]) hs
  · rw [he]
    refine ⟨?_, htree⟩
    intro hc
    exact slotGet_eq_none.mp hc ⟨k, p⟩ (by simp) rfl
  · exact absurd hf hfree

/-! ### `remove` -/

/-- `remove` の三つの枝。番兵はどちらを選んでも `FREE_FLAG` である。 -/
theorem remove_cases (b : Block) (k : Key) :
    (∃ x s y, b.slots = x ++ s :: y ∧ s.key = k ∧ (∀ t ∈ x, t.key ≠ k) ∧
      b.remove k = (1, { b with slots := x ++ { s with key := freeFlag } :: y })) ∨
    (slotGet b.slots k = none ∧ ∃ t, b.overflowTree = some t ∧ b.treeGet k ≠ none ∧
      b.remove k = (2, { b with overflowTree := some (t.erase k) })) ∨
    (slotGet b.slots k = none ∧ b.treeGet k = none ∧ b.remove k = (0, b)) := by
  have hflag : (if b.overflowTree.isSome then deleteFlag else freeFlag) = freeFlag := by
    rw [deleteFlag_eq, ite_self]
  unfold remove
  simp only [hflag]
  cases hu : updateFirst k (fun s => { s with key := freeFlag }) b.slots with
  | some slots =>
    obtain ⟨x, s, y, hb, rfl, hs, hx⟩ := updateFirst_eq_some hu
    exact Or.inl ⟨x, s, y, hb, hs, hx, rfl⟩
  | none =>
    have hk : slotGet b.slots k = none := slotGet_eq_none.mpr (updateFirst_eq_none.mp hu)
    refine Or.inr ?_
    cases ht : b.overflowTree with
    | none => exact Or.inr ⟨hk, by simp [treeGet, ht], rfl⟩
    | some t =>
      cases hf : t.find k with
      | none => exact Or.inr ⟨hk, by simp [treeGet, ht, hf], by simp [hf]⟩
      | some v => exact Or.inl ⟨hk, t, rfl, by simp [treeGet, ht, hf], by simp [hf]⟩

/-- 二重に記録されていない block からの `remove` は、写像の一点だけを消す。 -/
theorem get_remove (hk : k ≠ freeFlag) (hk' : k' ≠ freeFlag) (hi : b.Inv) :
    (b.remove k).2.get k' = if k' = k then none else b.get k' := by
  rcases remove_cases b k with ⟨x, s, y, hb, hs, hx, he⟩ | ⟨hn, t, ht, _, he⟩ | ⟨hn, ht, he⟩
  · rw [he]
    show (slotGet (x ++ _ :: y) k').or (b.treeGet k') = _
    by_cases h : k' = k
    · subst h
      have htree : b.treeGet k' = none := by
        refine hi.disjoint k' hk ?_
        rw [hb]
        intro hc
        exact slotGet_eq_none.mp hc s (by simp) hs
      have hy : slotGet y k' = none := by
        refine slotGet_eq_none.mpr ?_
        intro u hu hc
        have hp := hi.unique
        rw [hb] at hp
        have := (List.pairwise_cons.mp (List.pairwise_append.mp hp).2.1).1 u hu (hs.trans hc.symm)
        exact hk (hs.symm.trans this)
      simp [slotGet_append, slotGet_cons, slotGet_eq_none.mpr hx, hk', hy, htree]
    · have : k' ≠ s.key := by rw [hs]; exact h
      simp [get, hb, slotGet_append, slotGet_cons, h, this, hk']
  · rw [he]
    show (slotGet b.slots k').or (treeGet _ k') = _
    by_cases h : k' = k
    · subst h; simp [hn, treeGet]
    · simp [h, get, treeGet, ht]
  · rw [he]
    by_cases h : k' = k
    · subst h; simp [get, hn, ht]
    · simp [h]

theorem inv_remove (hi : b.Inv) : (b.remove k).2.Inv := by
  rcases remove_cases b k with ⟨x, s, y, hb, hs, hx, he⟩ | ⟨hn, t, ht, _, he⟩ | ⟨hn, ht, he⟩
  · have hu := hi.unique
    rw [hb] at hu
    rw [he]
    refine ⟨slotsUnique_replace hu (Or.inl rfl), ?_⟩
    intro q hq hne
    refine hi.disjoint q hq ?_
    rw [hb]
    intro hc
    apply hne
    rw [slotGet_append, slotGet_cons, Option.or_eq_none_iff] at hc ⊢
    refine ⟨hc.1, ?_⟩
    have hqs : q ≠ s.key := by
      intro h
      simp [h] at hc
    simpa [hq, hqs] using hc.2
  · rw [he]
    refine ⟨hi.unique, ?_⟩
    intro q hq hne
    have := hi.disjoint q hq hne
    simp only [treeGet, ht, Option.bind_some] at this ⊢
    simp [this]
  · rw [he]; exact hi

/-! ### `place` -/

/-- `place` は、まだ入っていない鍵の `upsert` と同じ block を作る。 -/
theorem place_eq_upsert (h : slotGet b.slots k = none) : (b.place k p).2 = (b.upsert k p).2 := by
  have hu : updateFirst k (fun s => { s with payload := p }) b.slots = none :=
    updateFirst_eq_none.mpr (slotGet_eq_none.mp h)
  unfold place upsert
  rw [hu]
  cases updateFirst freeFlag (fun _ => (⟨k, p⟩ : DataSlot)) b.slots <;> rfl

end Block

end Plin
