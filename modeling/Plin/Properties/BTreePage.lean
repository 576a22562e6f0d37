import Plin.Infra.SortedMap
import Plin.BTree.Page

/-!
# page の操作の仕様

page の操作を、record の列に対する操作として述べ直す。null の `val` が無い page では
`count()` と `record_num` が一致し、`lower_bound` と `upper_bound` は探索の位置を返す。

`inner_lookup` は鍵の整列を使わない。選ばれた子の区切りが鍵以下であること（先頭の子を除く）と
次の区切りが鍵より大きいことだけが言え、木の探索の正しさはこれで足りる。
-/

namespace Plin

open Infra

namespace Page

variable {p : Page} {k : Key}

/-- null の `val` が無い。 -/
def Solid (p : Page) : Prop := ∀ r ∈ p.records, r.val ≠ 0

theorem Solid.count_eq (h : p.Solid) : p.count = p.recordNum := by
  unfold count recordNum
  rw [List.filter_eq_self.mpr]
  intro r hr
  exact decide_eq_true (h r hr)

theorem Solid.lowerBound_eq (h : p.Solid) (k : Key) :
    p.lowerBound k = .ok (p.records.findIdx fun r => k ≤ r.key) := by
  unfold lowerBound
  rw [if_neg (by rw [h.count_eq]; simp)]

theorem Solid.upperBound_eq (h : p.Solid) (k : Key) :
    p.upperBound k = .ok (1 + p.records.tail.findIdx fun r => k < r.key) := by
  unfold upperBound
  rw [if_neg (by rw [h.count_eq]; simp)]

theorem read_eq {i : Nat} {r : Record} (hi : i < cardinality) (h : p.records[i]? = some r) :
    p.read i = .ok r := by
  unfold read
  rw [if_pos hi, List.getD_eq_getElem?_getD, h, Option.getD_some]

end Page

/-- `findIdx` の位置で列を切る。 -/
theorem findIdx_split {α : Type} (q : α → Bool) (l : List α) :
    ∃ a b, l = a ++ b ∧ l.findIdx q = a.length ∧ (∀ x ∈ a, q x = false) ∧
      ∀ y, b.head? = some y → q y = true := by
  induction l with
  | nil => exact ⟨[], [], rfl, rfl, by simp, by simp⟩
  | cons x l ih =>
    by_cases hx : q x = true
    · exact ⟨[], x :: l, rfl, by simp [List.findIdx_cons, hx], by simp, by simpa using hx⟩
    · obtain ⟨a, b, rfl, hi, ha, hb⟩ := ih
      refine ⟨x :: a, b, rfl, by simp [List.findIdx_cons, hx, hi], ?_, hb⟩
      intro y hy
      rcases List.mem_cons.mp hy with rfl | hy
      · simpa using hx
      · exact ha y hy

/-- 一致する要素が一つだけなら、`findIdx?` はその位置を返す。 -/
theorem findIdx?_middle {α : Type} {q : α → Bool} {a b : List α} {x : α}
    (ha : ∀ y ∈ a, q y = false) (hx : q x = true) : (a ++ x :: b).findIdx? q = some a.length := by
  induction a with
  | nil => simp [List.findIdx?_cons, hx]
  | cons y a ih =>
    rw [List.cons_append, List.findIdx?_cons, ha y (by simp)]
    simp only [Bool.false_eq_true, if_false, ih fun z hz => ha z (by simp [hz]), Option.map_some,
      List.length_cons]

/-- record を有限写像の組と読む。 -/
def Record.entry (r : Record) : Key × Payload := (r.key, UInt64.ofNat r.val)

@[simp] theorem Record.entry_fst (r : Record) : r.entry.1 = r.key := rfl

namespace Page

variable {p : Page} {k : Key}

/-- `inner_lookup` は、区切りが鍵以下の最後の子に降りる。 -/
theorem Solid.innerLookup_spec (h : p.Solid) (hne : p.records ≠ [])
    (hc : p.records.length ≤ cardinality) (k : Key) :
    ∃ a c b, p.records = a ++ c :: b ∧ p.innerLookup k = .ok c.val ∧
      (a ≠ [] → c.key ≤ k) ∧ ∀ d, b.head? = some d → k < d.key := by
  obtain ⟨r, rs, hr⟩ := List.exists_cons_of_ne_nil hne
  obtain ⟨a, b, hab, hi, ha, hb⟩ := findIdx_split (fun r : Record => decide (k < r.key)) rs
  have hup : p.upperBound k = .ok (1 + a.length) := by
    rw [h.upperBound_eq, hr, List.tail_cons, hi]
  have hlook : ∀ c, p.records[a.length]? = some c → p.innerLookup k = .ok c.val := by
    intro c hget
    have hlt : a.length < cardinality :=
      Nat.lt_of_lt_of_le (List.getElem?_eq_some_iff.mp hget).1 hc
    unfold innerLookup
    rw [hup]
    show (p.read (1 + a.length - 1)).bind _ = _
    rw [Nat.add_sub_cancel_left, read_eq hlt hget]
    rfl
  have hb' : ∀ d, b.head? = some d → k < d.key := fun d hd => of_decide_eq_true (hb d hd)
  rcases List.eq_nil_or_concat a with rfl | ⟨a', c, rfl⟩
  · exact ⟨[], r, b, by rw [hr, hab]; rfl, hlook r (by rw [hr]; rfl), by simp, hb'⟩
  · refine ⟨r :: a', c, b, by rw [hr, hab]; simp, hlook c ?_, fun _ => ?_, hb'⟩
    · rw [hr, hab]
      simp
    · exact not_lt.mp (of_decide_eq_false (ha c (by simp)))

/-! ## leaf の操作 -/

/-- 鍵が狭義に増える。 -/
def Ascending (p : Page) : Prop := p.records.Pairwise fun a b => a.key < b.key

/-- `lower_bound` の位置で切ると、前は鍵より小さく後ろは鍵以上である。 -/
theorem lowerBound_split (h : p.Ascending) (k : Key) :
    ∃ a b, p.records = a ++ b ∧ p.records.findIdx (fun r => decide (k ≤ r.key)) = a.length ∧
      (∀ r ∈ a, r.key < k) ∧ ∀ r ∈ b, k ≤ r.key := by
  obtain ⟨a, b, hab, hi, ha, hb⟩ := findIdx_split (fun r : Record => decide (k ≤ r.key)) p.records
  refine ⟨a, b, hab, hi, fun r hr => not_le.mp (of_decide_eq_false (ha r hr)), ?_⟩
  cases b with
  | nil => simp
  | cons c b =>
    have hc : k ≤ c.key := of_decide_eq_true (hb c rfl)
    have hs : (a ++ c :: b).Pairwise fun a b => a.key < b.key := by rw [← hab]; exact h
    intro r hr
    rcases List.mem_cons.mp hr with rfl | hr
    · exact hc
    · exact le_of_lt (lt_of_le_of_lt hc
        ((List.pairwise_cons.mp (List.pairwise_append.mp hs).2.1).1 r hr))

/-- `leaf_lookup` は record の列を有限写像として引く。 -/
theorem Solid.leafLookup_eq (h : p.Solid) (ha : p.Ascending) (hc : p.records.length < cardinality)
    (k : Key) : p.leafLookup k = .ok (lookupEntries k (p.records.map Record.entry)) := by
  obtain ⟨a, b, hab, hi, hlt, hge⟩ := lowerBound_split ha k
  have hnone : lookupEntries k (a.map Record.entry) = none := by
    refine lookupEntries_eq_none fun e he => ?_
    obtain ⟨r, hr, rfl⟩ := List.mem_map.mp he
    exact ne_of_lt (hlt r hr)
  unfold leafLookup
  rw [h.lowerBound_eq, hi, h.count_eq, recordNum, hab, List.map_append, lookupEntries_append,
    hnone, Option.none_or]
  cases b with
  | nil =>
    show (if a.length ≠ (a ++ []).length then _ else _) = _
    rw [if_neg (by simp)]
    rfl
  | cons c b =>
    have hget : p.records[a.length]? = some c := by rw [hab]; simp
    have hlt' : a.length < cardinality :=
      Nat.lt_of_lt_of_le (List.getElem?_eq_some_iff.mp hget).1 (Nat.le_of_lt hc)
    have hs : (a ++ c :: b).Pairwise fun a b => a.key < b.key := by rw [← hab]; exact ha
    have hbk : ∀ r ∈ b, c.key < r.key :=
      (List.pairwise_cons.mp (List.pairwise_append.mp hs).2.1).1
    show (if a.length ≠ (a ++ c :: b).length then _ else _) = _
    rw [if_pos (by simp)]
    show (p.read a.length).bind _ = _
    rw [read_eq hlt' hget]
    show Except.ok (if c.key = k then _ else _) = Except.ok (if k = c.key then _ else _)
    by_cases hk : c.key = k
    · rw [if_pos hk, if_pos hk.symm]
    · rw [if_neg hk, if_neg (Ne.symm hk), lookupEntries_eq_none]
      intro e he
      obtain ⟨r, hr, rfl⟩ := List.mem_map.mp he
      exact ne_of_gt (lt_of_le_of_lt (hge c (by simp)) (hbk r hr))

/-- page の record 以外は同じである。 -/
def withRecords (p : Page) (rs : List Record) : Page := { p with records := rs }

@[simp] theorem withRecords_records (p : Page) (rs : List Record) :
    (p.withRecords rs).records = rs := rfl

@[simp] theorem withRecords_withRecords (p : Page) (rs rs' : List Record) :
    (p.withRecords rs).withRecords rs' = p.withRecords rs' := rfl

@[simp] theorem withRecords_isLeaf (p : Page) (rs : List Record) :
    (p.withRecords rs).isLeaf = p.isLeaf := rfl

@[simp] theorem withRecords_parent (p : Page) (rs : List Record) :
    (p.withRecords rs).parent = p.parent := rfl

@[simp] theorem withRecords_nextLeaf (p : Page) (rs : List Record) :
    (p.withRecords rs).nextLeaf = p.nextLeaf := rfl

@[simp] theorem withRecords_prevLeaf (p : Page) (rs : List Record) :
    (p.withRecords rs).prevLeaf = p.prevLeaf := rfl

theorem insertPair_middle {a b : List Record} (h : p.records = a ++ b)
    (hc : p.records.length < cardinality) (k : Key) (v : Nat) :
    p.insertPair a.length k v = .ok (p.withRecords (a ++ ⟨k, v⟩ :: b)) := by
  have hins : ∀ a : List Record, (a ++ b).insertIdx a.length ⟨k, v⟩ = a ++ ⟨k, v⟩ :: b := by
    intro a
    induction a with
    | nil => rfl
    | cons r a ih => rw [List.cons_append, List.length_cons, List.insertIdx_succ_cons, ih]; rfl
  unfold insertPair recordNum
  rw [if_neg (by rw [h]; simp), if_pos hc, h, hins]
  rfl

/-- 鍵がすでに在れば値の差し替え、無ければ挿入である。 -/
theorem Solid.insertInNode_spec (h : p.Solid) (ha : p.Ascending)
    (hc : p.records.length < cardinality) (k : Key) {v : Payload} (hv : v ≠ 0) :
    ∃ rs q, p.insertInNode k v = .ok (p.withRecords rs, q) ∧
      rs.map Record.entry = insertEntries k v (p.records.map Record.entry) ∧
      (∀ r ∈ rs, r.val ≠ 0) ∧ (rs.Pairwise fun a b => a.key < b.key) ∧
      ((k ∈ p.records.map Record.key ∧ rs.length = p.records.length ∧ q = int64Max) ∨
        (k ∉ p.records.map Record.key ∧ rs.length = p.records.length + 1)) := by
  obtain ⟨a, b, hab, hi, hlt, hge⟩ := lowerBound_split ha k
  have hv' : v.toNat ≠ 0 := fun hc => hv (UInt64.toNat_inj.mp hc)
  have hlen : a.length < cardinality := by
    rw [hab, List.length_append] at hc
    omega
  have hins : insertEntries k v (p.records.map Record.entry)
      = a.map Record.entry ++ insertEntries k v (b.map Record.entry) := by
    rw [hab, List.map_append, insertEntries_append_left]
    intro e he
    obtain ⟨r, hr, rfl⟩ := List.mem_map.mp he
    exact hlt r hr
  have hs : (a ++ b).Pairwise fun a b => a.key < b.key := by rw [← hab]; exact ha
  have hsolid : ∀ r ∈ a ++ b, r.val ≠ 0 := by rw [← hab]; exact h
  have hent : (⟨k, v.toNat⟩ : Record).entry = (k, v) := by simp [Record.entry]
  -- 鍵が在るのは、`lower_bound` の位置の record が一致するときに限る
  by_cases hk : ∃ c b', b = c :: b' ∧ c.key = k
  · obtain ⟨c, b', rfl, rfl⟩ := hk
    have hget : p.records[a.length]? = some c := by rw [hab]; simp
    have hcv : c.val ≠ 0 := hsolid c (by simp)
    refine ⟨a ++ ⟨c.key, v.toNat⟩ :: b', int64Max, ?_, ?_, ?_, ?_, Or.inl ⟨?_, ?_, rfl⟩⟩
    · unfold insertInNode
      rw [h.lowerBound_eq, hi]
      show (p.read a.length).bind _ = _
      rw [read_eq hlen hget]
      show (if c.key = c.key ∧ c.val ≠ 0 then _ else _) = _
      rw [if_pos ⟨rfl, hcv⟩, hab]
      simp [withRecords]
      rfl
    · rw [hins, List.map_append, List.map_cons, hent, List.map_cons]
      show _ = _ ++ insertEntries c.key v ((c.key, _) :: _)
      rw [insertEntries, if_neg (lt_irrefl _), if_pos rfl]
    · intro r hr
      rcases List.mem_append.mp hr with hr | hr
      · exact hsolid r (by simp [hr])
      · rcases List.mem_cons.mp hr with rfl | hr
        · exact hv'
        · exact hsolid r (by simp [hr])
    · simpa [List.pairwise_append] using hs
    · rw [hab]; simp
    · rw [hab]; simp
  · have hgt : ∀ r ∈ b, k < r.key := by
      intro r hr
      cases b with
      | nil => simp at hr
      | cons c b =>
        have hck : k < c.key := lt_of_le_of_ne (hge c (by simp)) fun he =>
          hk ⟨c, b, rfl, he.symm⟩
        rcases List.mem_cons.mp hr with rfl | hr
        · exact hck
        · exact lt_trans hck ((List.pairwise_cons.mp (List.pairwise_append.mp hs).2.1).1 r hr)
    refine ⟨a ++ ⟨k, v.toNat⟩ :: b, v, ?_, ?_, ?_, ?_, Or.inr ⟨?_, ?_⟩⟩
    · have hr : ∃ r, p.read a.length = .ok r ∧ ¬ (r.key = k ∧ r.val ≠ 0) := by
        cases b with
        | nil =>
          refine ⟨⟨freeFlag, 0⟩, ?_, by simp⟩
          unfold read
          rw [if_pos hlen, hab]
          simp
        | cons c b =>
          refine ⟨c, read_eq hlen (by rw [hab]; simp), fun hc => hk ⟨c, b, rfl, hc.1⟩⟩
      obtain ⟨r, hr, hne⟩ := hr
      unfold insertInNode
      rw [h.lowerBound_eq, hi]
      show (p.read a.length).bind _ = _
      rw [hr]
      show (if r.key = k ∧ r.val ≠ 0 then _ else _) = _
      rw [if_neg hne, insertPair_middle hab hc]
      rfl
    · rw [hins, List.map_append, List.map_cons, hent, insertEntries_of_lt]
      intro e he
      obtain ⟨r, hr, rfl⟩ := List.mem_map.mp he
      exact hgt r hr
    · intro r hr
      rcases List.mem_append.mp hr with hr | hr
      · exact hsolid r (by simp [hr])
      · rcases List.mem_cons.mp hr with rfl | hr
        · exact hv'
        · exact hsolid r (by simp [hr])
    · rw [List.pairwise_append, List.pairwise_cons]
      obtain ⟨h1, h2, h3⟩ := List.pairwise_append.mp hs
      refine ⟨h1, ⟨hgt, h2⟩, fun r hr r' hr' => ?_⟩
      rcases List.mem_cons.mp hr' with rfl | hr'
      · exact hlt r hr
      · exact h3 r hr r' hr'
    · intro hm
      obtain ⟨r, hr, hrk⟩ := List.mem_map.mp hm
      rw [hab] at hr
      rcases List.mem_append.mp hr with hr | hr
      · exact absurd hrk (ne_of_lt (hlt r hr))
      · exact absurd hrk (ne_of_gt (hgt r hr))
    · rw [hab]; simp; omega

/-- `remove` は、`lower_bound` の位置に在る record を消す。 -/
theorem Solid.remove_middle {a b : List Record} {c : Record} (h : p.Solid)
    (hc : p.records.length ≤ cardinality) (hab : p.records = a ++ c :: b)
    (ha : ∀ r ∈ a, r.key < c.key) : p.remove c.key = .ok (p.withRecords (a ++ b)) := by
  have hi : p.records.findIdx (fun r => decide (c.key ≤ r.key)) = a.length := by
    rw [hab]
    clear hab
    induction a with
    | nil => simp [List.findIdx_cons]
    | cons r a ih =>
      rw [List.cons_append, List.findIdx_cons,
        decide_eq_false (not_le.mpr (ha r (by simp)))]
      simp only [cond_false, List.length_cons, ih fun r hr => ha r (by simp [hr])]
  have hget : p.records[a.length]? = some c := by rw [hab]; simp
  have hlt : a.length < p.recordNum := (List.getElem?_eq_some_iff.mp hget).1
  unfold remove
  rw [h.lowerBound_eq, hi]
  show (if p.recordNum ≤ a.length then _ else _) = _
  rw [if_neg (Nat.not_le.mpr hlt), read_eq (Nat.lt_of_lt_of_le hlt hc) hget]
  show (if c.key = c.key ∧ c.val ≠ 0 then _ else _) = _
  rw [if_pos ⟨rfl, h c (by rw [hab]; simp)⟩]
  show Except.ok _ = _
  unfold erasePair withRecords
  rw [hab, List.eraseIdx_append_of_length_le (Nat.le_refl _)]
  simp

end Page

end Plin
