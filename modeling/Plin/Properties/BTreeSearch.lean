import Mathlib.Data.List.Perm.Subperm
import Mathlib.Data.List.Range
import Plin.Properties.BTreeLevels

/-!
# B+ 木の探索と走査

段の積み重ねの上で、`find_leaf_page` は鍵の在るべき leaf に降り、`get_data` は leaf の段を左から
右へたどる。どちらも段の個数だけの loop で終わり、段の個数は割り当てた page の個数より小さい。
-/

namespace Plin

open Infra Level

variable {t : BTree} {leaf : Bool} {lower up : Level} {uppers rest : List Level}

/-! ## 高さ -/

theorem Linked.lower_ne_nil {root : Nat} (h : Linked root leaf lower uppers)
    (hs : Sized leaf lower uppers) : lower ≠ [] := by
  induction uppers generalizing leaf lower with
  | nil =>
    obtain ⟨p, rfl, -⟩ := h
    simp
  | cons up rest ih =>
    obtain ⟨x, up', rfl⟩ := List.exists_cons_of_ne_nil (ih h.2.2 hs.2)
    have hx := hs.upper_nonempty x (by simp)
    obtain ⟨r, rs, hr⟩ := List.exists_cons_of_ne_nil hx
    rintro rfl
    have := h.1
    rw [kids_cons, hr] at this
    simp at this

/-- 割り当てた範囲に収まる相異なる番地の個数は、その範囲の大きさを超えない。 -/
theorem length_lt_of_nodup {l : List Nat} {n : Nat} (hd : l.Nodup) (hn : 0 < n)
    (hb : ∀ i ∈ l, 0 < i ∧ i < n) : l.length < n := by
  have hsub : (0 :: l) ⊆ List.range n := by
    intro i hi
    rcases List.mem_cons.mp hi with rfl | hi
    · exact List.mem_range.mpr hn
    · exact List.mem_range.mpr (hb i hi).2
  have hnd : (0 :: l).Nodup :=
    List.nodup_cons.mpr ⟨fun h => absurd (hb 0 h).1 (Nat.lt_irrefl 0), hd⟩
  have := (hnd.subperm hsub).length_le
  rw [List.length_range, List.length_cons] at this
  omega

theorem Linked.height_le {root : Nat} (h : Linked root leaf lower uppers)
    (hs : Sized leaf lower uppers) :
    uppers.length + lower.length ≤ (lower ++ uppers.flatten).length := by
  induction uppers generalizing leaf lower with
  | nil => simp
  | cons up rest ih =>
    have := ih h.2.2 hs.2
    have hne := List.length_pos_iff.mpr (h.2.2.lower_ne_nil hs.2)
    rw [List.length_append, List.flatten_cons]
    rw [List.length_cons]
    omega

theorem Stack.length_lt_fresh (h : Stack t leaf lower uppers) (hs : Sized leaf lower uppers) :
    uppers.length + lower.length < t.fresh := by
  have hb : ∀ i ∈ ids (lower ++ uppers.flatten), 0 < i ∧ i < t.fresh := by
    intro i hi
    obtain ⟨x, hx, rfl⟩ := List.mem_map.mp hi
    exact h.bound x hx
  obtain ⟨p, hp, -⟩ := h.linked.root_mem
  have h0 : 0 < t.fresh := Nat.lt_of_le_of_lt (Nat.zero_le _) (h.bound _ hp).2
  have hlt := length_lt_of_nodup h.nodup h0 hb
  have hle := h.linked.height_le hs
  rw [ids, List.length_map] at hlt
  omega

/-! ## 降下 -/

/-- 鍵 `k` の探索が `A` の次の page に降りたとき、その前後の区切りが鍵を挟んでいる。 -/
def Routed (k : Key) (A : Level) : List Level → Prop
  | [] => True
  | up :: _ => ∃ σ₁ s σ₂, up.recs.map Record.key = σ₁ ++ s :: σ₂ ∧ σ₁.length = A.length ∧
      (A ≠ [] → s ≤ k) ∧ ∀ s', σ₂.head? = some s' → k < s'

theorem kids_length (l : Level) : (kids l).length = (recs l).length := by
  simp [kids, recs, List.length_flatMap]

theorem parents_length (l : Level) : (parents l).length = l.length := List.length_map ..

theorem zip_cons_middle {α β : Type} {a₁ a₂ : List α} {b₁ b₂ : List β} {x : α} {y : β}
    (h : a₁.length = b₁.length) :
    (a₁ ++ x :: a₂).zip (b₁ ++ y :: b₂) = a₁.zip b₁ ++ (x, y) :: a₂.zip b₂ := by
  rw [List.zip_append h, List.zip_cons_cons]

/-- 根から `uppers` の段を降りると、`lower` の段の page に着く。 -/
theorem descend (k : Key) (h : Stack t leaf lower uppers) (hs : Sized leaf lower uppers) :
    ∃ A x B, lower = A ++ x :: B ∧ Routed k A uppers ∧
      ∀ n, t.findLeafFrom k (n + uppers.length) t.root = t.findLeafFrom k n x.1 := by
  induction uppers generalizing leaf lower with
  | nil =>
    obtain ⟨p, rfl, -⟩ := h.linked
    exact ⟨[], (t.root, p), [], rfl, trivial, fun n => rfl⟩
  | cons up rest ih =>
    obtain ⟨U₁, x, U₂, hup, hr, hf⟩ := ih h.upper hs.2
    have hxm : x ∈ up := by rw [hup]; simp
    have hok := h.upperOk x (by simp [hxm])
    obtain ⟨a, c, b, habc, hlook, hcle, hclt⟩ := hok.solid.innerLookup_spec
      (hs.upper_nonempty x hxm) (Nat.le_of_lt (hs.2.room x hxm)) k
    -- 降りた page の前後の page の 0 番目の鍵が、鍵を挟んでいる
    have hbounds : (U₁ ≠ [] → ∀ r rs, x.2.records = r :: rs → r.key ≤ k) ∧
        ∀ y, U₂.head? = some y → ∀ r rs, y.2.records = r :: rs → k < r.key := by
      cases rest with
      | nil =>
        obtain ⟨p, hp, -⟩ := h.linked.2.2
        rw [hup] at hp
        obtain ⟨rfl, rfl, -⟩ := singleton_middle hp
        simp
      | cons u rest =>
        obtain ⟨σ₁, s, σ₂, hσ, hlen, hle, hlt⟩ := hr
        have hsep := h.linked.2.2.2.1
        unfold Sep at hsep
        rw [hσ, hup, List.map_append, List.map_cons, zip_cons_middle (by simpa using hlen)] at hsep
        obtain ⟨-, hx, hcross⟩ := List.pairwise_append.mp hsep
        constructor
        · intro hne r rs hrs
          obtain ⟨y, U, rfl⟩ := List.exists_cons_of_ne_nil hne
          obtain ⟨s₀, σ, rfl⟩ := List.exists_cons_of_length_pos (l := σ₁) (by simp [hlen])
          obtain ⟨r', rs', hrs', hk⟩ := hcross (s₀, y.2.records) (by simp) _ List.mem_cons_self
          rw [hrs] at hrs'
          rw [(List.cons.inj hrs').1, hk]
          exact hle (by simp)
        · intro y hy r rs hrs
          obtain ⟨U, rfl⟩ : ∃ U, U₂ = y :: U := List.head?_eq_some_iff.mp hy
          have hlen₂ : σ₂.length = (y :: U).length := by
            have h1 := congrArg List.length hσ
            have h2 := congrArg List.length h.linked.2.2.1
            rw [List.length_map, ← kids_length, List.length_append, List.length_cons] at h1
            rw [parents_length, hup, List.length_append, List.length_cons] at h2
            omega
          obtain ⟨s', σ, rfl⟩ := List.exists_cons_of_length_pos (l := σ₂) (by simp [hlen₂])
          rw [List.map_cons, List.zip_cons_cons] at hx
          obtain ⟨r', rs', hrs', hk⟩ := (List.pairwise_cons.mp hx).1 (s', y.2.records) (by simp)
          rw [hrs] at hrs'
          rw [(List.cons.inj hrs').1, hk]
          exact hlt s' rfl
    -- 下の段を、降りた page の子を境に切る
    have hkids := h.linked.1
    rw [hup, kids_append, kids_cons, habc, List.map_append, List.map_cons] at hkids
    obtain ⟨L₁, L', rfl, h₁, h'⟩ := split_parents hkids
    rw [List.append_assoc] at h'
    obtain ⟨L₂, L'', rfl, h₂, h''⟩ := split_parents h'
    rw [List.cons_append] at h''
    obtain ⟨y, L₃, rfl, hy, h₃⟩ := List.map_eq_cons_iff.mp h''.symm
    refine ⟨L₁ ++ L₂, y, L₃, by simp, ?_, fun n => ?_⟩
    · refine ⟨(recs U₁ ++ a).map Record.key, c.key, (b ++ recs U₂).map Record.key, ?_, ?_, ?_, ?_⟩
      · rw [hup, recs_append, recs_cons, habc]
        simp
      · have e1 := congrArg List.length h₁
        have e2 := congrArg List.length h₂
        rw [kids_length, parents_length] at e1
        rw [List.length_map, parents_length] at e2
        rw [List.length_map, List.length_append, List.length_append, e1, e2]
      · intro hne
        cases a with
        | cons r a => exact hcle (by simp)
        | nil =>
          refine hbounds.1 ?_ c b habc
          rintro rfl
          have e1 := congrArg List.length h₁
          have e2 := congrArg List.length h₂
          rw [parents_length] at e1 e2
          refine hne (List.append_eq_nil_iff.mpr ⟨?_, ?_⟩)
          · exact List.length_eq_zero_iff.mp (by simpa using e1.symm)
          · exact List.length_eq_zero_iff.mp (by simpa using e2.symm)
      · intro s' hs'
        cases b with
        | cons d b =>
          rw [List.cons_append, List.map_cons, List.head?_cons] at hs'
          rw [← Option.some.inj hs']
          exact hclt d rfl
        | nil =>
          cases U₂ with
          | nil => simp at hs'
          | cons y U =>
            obtain ⟨r, rs, hrs⟩ := List.exists_cons_of_ne_nil
              (hs.upper_nonempty y (by rw [hup]; simp))
            rw [List.nil_append, recs_cons, hrs, List.cons_append, List.map_cons,
              List.head?_cons] at hs'
            rw [← Option.some.inj hs']
            exact hbounds.2 y rfl r rs hrs
    · have hstep : t.findLeafFrom k (n + 1) x.1 = t.findLeafFrom k n c.val := by
        rw [BTree.findLeafFrom, BTree.page, h.heap x (List.mem_append_right _ (by simp [hxm]))]
        show (if x.2.isLeaf = true then _ else _) = _
        rw [hok.isLeaf, if_neg (by simp), hlook]
        rfl
      have hc : c.val = y.1 := by simpa using (congrArg Prod.fst hy).symm
      rw [← hc, ← hstep, ← hf (n + 1), List.length_cons]
      congr 1
      omega

/-! ## 木全体の不変条件 -/

/-- leaf の連鎖。`prev` は直前の leaf の番地である。 -/
def Chained (prev : Nat) : Level → Prop
  | [] => True
  | x :: l => x.2.prevLeaf = prev ∧ x.2.nextLeaf = (l.head?.map Prod.fst).getD 0 ∧ Chained x.1 l

/-- 木が有限写像 `m` を表している。 -/
structure BTree.Holds (t : BTree) (m : SortedMap Key Payload) (leaves : Level)
    (uppers : List Level) : Prop where
  stack : Stack t true leaves uppers
  sized : Sized true leaves uppers
  chained : Chained 0 leaves
  data : leaves.recs.map Record.entry = m.entries
  small : ∀ id p, t.pages id = some p → p.records.length < cardinality
  addr : t.addr = t.root

variable {m : SortedMap Key Payload} {leaves A B : Level} {x : Nat × Page} {k : Key}

theorem BTree.Holds.keys_sorted (h : t.Holds m leaves uppers) :
    leaves.recs.Pairwise fun a b => a.key < b.key := by
  have hs := m.sorted
  rw [← h.data, List.pairwise_map] at hs
  exact hs

/-- 着いた leaf より左の鍵は小さく、右の鍵は大きい。 -/
theorem Routed.outside (hr : Routed k A uppers) (h : t.Holds m (A ++ x :: B) uppers) :
    (∀ r ∈ A.recs, r.key < k) ∧ ∀ r ∈ B.recs, k < r.key := by
  cases uppers with
  | nil =>
    obtain ⟨p, hp, -⟩ := h.stack.linked
    obtain ⟨rfl, rfl, -⟩ := singleton_middle hp
    simp
  | cons up rest =>
    obtain ⟨σ₁, s, σ₂, hσ, hlen, hle, hlt⟩ := hr
    have hsep := h.stack.linked.2.1
    unfold Sep at hsep
    rw [hσ, List.map_append, List.map_cons, zip_cons_middle (by simpa using hlen)] at hsep
    obtain ⟨-, hx, hcross⟩ := List.pairwise_append.mp hsep
    constructor
    · intro r hr
      obtain ⟨y, hy, hry⟩ := List.mem_flatMap.mp hr
      have hne : A ≠ [] := List.ne_nil_of_mem hy
      obtain ⟨i, hi, hyi⟩ := List.getElem_of_mem hy
      have hmem : (σ₁.get ⟨i, by omega⟩, y.2.records) ∈ σ₁.zip (A.map fun x => x.2.records) := by
        rw [List.mem_iff_getElem]
        exact ⟨i, by simp; omega, by simp [hyi]⟩
      exact lt_of_lt_of_le ((hcross _ hmem _ List.mem_cons_self).1 r hry) (hle hne)
    · -- 右隣の leaf は空でないので、その先頭の鍵を越えれば後は整列から従う
      have hsorted := h.keys_sorted
      rw [recs_append, recs_cons] at hsorted
      have hB := (List.pairwise_append.mp (List.pairwise_append.mp hsorted).2.1).2.1
      cases B with
      | nil => simp
      | cons y B =>
        have hy := (h.sized.1 y (by simp)).1
        obtain ⟨d, ds, hd⟩ := List.exists_cons_of_length_pos (l := y.2.records) (by omega)
        have hlen₂ : 0 < σ₂.length := by
          have h1 := congrArg List.length hσ
          have h2 := congrArg List.length h.stack.linked.1
          rw [List.length_map, ← kids_length, List.length_append, List.length_cons] at h1
          rw [parents_length, List.length_append, List.length_cons, List.length_cons] at h2
          omega
        obtain ⟨s', σ, rfl⟩ := List.exists_cons_of_length_pos hlen₂
        rw [List.map_cons, List.zip_cons_cons] at hx
        have hkd : k < d.key := lt_of_lt_of_le (hlt s' rfl)
          (((List.pairwise_cons.mp hx).1 _ List.mem_cons_self).2 d (by rw [hd]; simp))
        rw [recs_cons, hd, List.cons_append] at hB ⊢
        intro r hr
        rcases List.mem_cons.mp hr with rfl | hr
        · exact hkd
        · exact lt_trans hkd ((List.pairwise_cons.mp hB).1 r hr)

/-- `find_leaf_page` は、鍵の在るべき leaf を返す。 -/
theorem BTree.Holds.findLeafPage (h : t.Holds m leaves uppers) (k : Key) :
    ∃ A x B, leaves = A ++ x :: B ∧ t.findLeafPage k = .ok x.1 ∧ Routed k A uppers := by
  obtain ⟨A, x, B, rfl, hr, hf⟩ := descend k h.stack h.sized
  refine ⟨A, x, B, rfl, ?_, hr⟩
  have hlt := h.stack.length_lt_fresh h.sized
  obtain ⟨n, hn⟩ : ∃ n, t.fresh = n + 1 + uppers.length :=
    ⟨t.fresh - uppers.length - 1, by omega⟩
  have hx : t.pages x.1 = some x.2 := h.stack.heap x (by simp)
  rw [BTree.findLeafPage, hn, hf (n + 1), BTree.findLeafFrom, BTree.page, hx]
  show (if x.2.isLeaf = true then _ else _) = _
  rw [if_pos (h.stack.lowerOk x (by simp)).isLeaf]
  rfl

theorem BTree.Holds.ascending (h : t.Holds m leaves uppers) (hx : x ∈ leaves) : x.2.Ascending := by
  obtain ⟨A, B, rfl⟩ := List.append_of_mem hx
  have := h.keys_sorted
  rw [recs_append, recs_cons] at this
  exact (List.pairwise_append.mp (List.pairwise_append.mp this).2.1).1

/-- **`find` は有限写像を引く。** -/
theorem BTree.Holds.find (h : t.Holds m leaves uppers) (k : Key) : t.find k = .ok (m.find k) := by
  obtain ⟨A, x, B, rfl, hf, hr⟩ := h.findLeafPage k
  obtain ⟨hA, hB⟩ := hr.outside h
  have hok := h.stack.lowerOk x (by simp)
  have hnone : ∀ l : Level, (∀ r ∈ l.recs, r.key ≠ k) →
      lookupEntries k (l.recs.map Record.entry) = none := by
    intro l hl
    refine lookupEntries_eq_none fun e he => ?_
    obtain ⟨r, hr, rfl⟩ := List.mem_map.mp he
    exact hl r hr
  unfold BTree.find
  rw [hf]
  show (t.page x.1).bind _ = _
  rw [BTree.page, h.stack.heap x (by simp)]
  show x.2.leafLookup k = _
  rw [hok.solid.leafLookup_eq (h.ascending (by simp)) (h.sized.room x (by simp)), SortedMap.find,
    ← h.data,
    recs_append, recs_cons, List.map_append, List.map_append, lookupEntries_append,
    lookupEntries_append, hnone A fun r hr => ne_of_lt (hA r hr),
    hnone B fun r hr => ne_of_gt (hB r hr), Option.none_or, Option.or_none]

/-! ## 走査 -/

theorem leftmost (h : Stack t leaf lower uppers) (hs : Sized leaf lower uppers) :
    ∃ x B, lower = x :: B ∧
      ∀ n, t.leftmostFrom (n + uppers.length) t.root = t.leftmostFrom n x.1 := by
  induction uppers generalizing leaf lower with
  | nil =>
    obtain ⟨p, rfl, -⟩ := h.linked
    exact ⟨(t.root, p), [], rfl, fun n => rfl⟩
  | cons up rest ih =>
    obtain ⟨x, U, rfl, hf⟩ := ih h.upper hs.2
    obtain ⟨r, rs, hrs⟩ := List.exists_cons_of_ne_nil (hs.upper_nonempty x (by simp))
    have hok := h.upperOk x (by simp)
    have hkids := h.linked.1
    rw [kids_cons, hrs, List.map_cons, List.cons_append] at hkids
    obtain ⟨y, B, rfl, hy, -⟩ := List.map_eq_cons_iff.mp hkids.symm
    refine ⟨y, B, rfl, fun n => ?_⟩
    have hstep : t.leftmostFrom (n + 1) x.1 = t.leftmostFrom n r.val := by
      rw [BTree.leftmostFrom, BTree.page, h.heap x (by simp)]
      show (if x.2.isLeaf = true then _ else _) = _
      rw [hok.isLeaf, if_neg (by simp), Page.read_eq (r := r) (by decide) (by rw [hrs]; rfl)]
      rfl
    have hr : r.val = y.1 := by simpa using (congrArg Prod.fst hy).symm
    rw [← hr, ← hstep, ← hf (n + 1), List.length_cons]
    congr 1
    omega

theorem chainFrom_eq {l : Level} {prev : Nat} (hc : Chained prev l)
    (hp : ∀ x ∈ l, t.pages x.1 = some x.2) (h0 : ∀ x ∈ l, x.1 ≠ 0) (n : Nat) :
    t.chainFrom (n + l.length + 1) ((l.head?.map Prod.fst).getD 0) = .ok (ids l) := by
  induction l generalizing prev with
  | nil => simp [BTree.chainFrom]
  | cons x l ih =>
    have := ih hc.2.2 (fun y hy => hp y (by simp [hy])) (fun y hy => h0 y (by simp [hy]))
    show t.chainFrom (n + l.length + 1 + 1) x.1 = _
    rw [BTree.chainFrom, if_neg (h0 x (by simp)), BTree.page, hp x (by simp)]
    show (t.chainFrom (n + l.length + 1) x.2.nextLeaf).bind _ = _
    rw [hc.2.1, this]
    rfl

theorem mapM_page {l : Level} (hp : ∀ x ∈ l, t.pages x.1 = some x.2) :
    (ids l).mapM t.page = .ok (l.map Prod.snd) := by
  induction l with
  | nil => rfl
  | cons x l ih =>
    rw [ids_cons, List.mapM_cons, BTree.page, hp x (by simp), ih fun y hy => hp y (by simp [hy])]
    rfl

/-- 左端の leaf から始まる連鎖は、leaf の段そのものである。 -/
theorem BTree.Holds.chain (h : t.Holds m leaves uppers) :
    ∃ first, t.leftmostFrom t.fresh t.root = .ok first ∧
      t.chainFrom t.fresh first = .ok (ids leaves) := by
  obtain ⟨x, B, rfl, hf⟩ := leftmost h.stack h.sized
  have hlt := h.stack.length_lt_fresh h.sized
  rw [List.length_cons] at hlt
  have hx : t.pages x.1 = some x.2 := h.stack.heap x (by simp)
  refine ⟨x.1, ?_, ?_⟩
  · obtain ⟨n, hn⟩ : ∃ n, t.fresh = n + 1 + uppers.length :=
      ⟨t.fresh - uppers.length - 1, by omega⟩
    rw [hn, hf (n + 1), BTree.leftmostFrom, BTree.page, hx]
    show (if x.2.isLeaf = true then _ else _) = _
    rw [if_pos (h.stack.lowerOk x (by simp)).isLeaf]
    rfl
  · obtain ⟨n, hn⟩ : ∃ n, t.fresh = n + (x :: B).length + 1 :=
      ⟨t.fresh - (B.length + 1) - 1, by rw [List.length_cons]; omega⟩
    rw [hn]
    refine chainFrom_eq h.chained (fun y hy => h.stack.heap y (List.mem_append_left _ hy))
      (fun y hy => ?_) n
    exact Nat.ne_of_gt (h.stack.bound y (List.mem_append_left _ hy)).1

/-- **`get_data` は有限写像を昇順に並べる。** -/
theorem BTree.Holds.getData (h : t.Holds m leaves uppers) : t.getData = .ok m.entries := by
  obtain ⟨first, h₁, h₂⟩ := h.chain
  unfold BTree.getData
  rw [h₁]
  show (t.chainFrom t.fresh first).bind _ = _
  rw [h₂]
  show ((ids leaves).mapM t.page).bind _ = _
  rw [mapM_page fun y hy => h.stack.heap y (List.mem_append_left _ hy)]
  show Except.ok _ = _
  rw [← h.data]
  congr 1
  simp only [recs, List.map_flatMap, List.flatMap_map]
  rfl

/-- 途中の leaf から始まる連鎖は、leaf の段の残りである。 -/
theorem BTree.Holds.chain_from (h : t.Holds m (A ++ x :: B) uppers) :
    t.chainFrom t.fresh x.1 = .ok (ids (x :: B)) := by
  have hlt := h.stack.length_lt_fresh h.sized
  rw [List.length_append, List.length_cons] at hlt
  obtain ⟨n, hn⟩ : ∃ n, t.fresh = n + (x :: B).length + 1 :=
    ⟨t.fresh - (B.length + 1) - 1, by rw [List.length_cons]; omega⟩
  obtain ⟨prev, hc⟩ : ∃ prev, Chained prev (x :: B) := by
    have hc := h.chained
    generalize 0 = prev at hc
    clear h hlt hn
    induction A generalizing prev with
    | nil => exact ⟨prev, hc⟩
    | cons y A ih => exact ih y.1 hc.2.2
  rw [hn]
  refine chainFrom_eq hc (fun y hy => h.stack.heap y ?_) (fun y hy => ?_) n
  · exact List.mem_append_left _ (List.mem_append_right _ hy)
  · exact Nat.ne_of_gt
      (h.stack.bound y (List.mem_append_left _ (List.mem_append_right _ hy))).1

/-- **`range_query` は、区間の組を昇順に足す。** -/
theorem BTree.Holds.rangeQuery (h : t.Holds m leaves uppers) (lower upper : Key)
    (answers : List (Key × Payload)) :
    t.rangeQuery lower upper answers =
      .ok (answers ++ m.entries.filter fun e => decide (lower ≤ e.1 ∧ e.1 ≤ upper)) := by
  obtain ⟨A, x, B, rfl, hf, hr⟩ := h.findLeafPage lower
  have hleft : (A.recs.map Record.entry).filter (fun e => decide (lower ≤ e.1 ∧ e.1 ≤ upper)) =
      [] := by
    refine List.filter_eq_nil_iff.mpr fun e he => ?_
    obtain ⟨r, hrA, rfl⟩ := List.mem_map.mp he
    have hlt := (hr.outside h).1 r hrA
    simp [not_le.mpr hlt]
  have hpages : ∀ y ∈ x :: B, t.pages y.1 = some y.2 := fun y hy =>
    h.stack.heap y (List.mem_append_left _ (List.mem_append_right _ hy))
  have hsolid : ∀ y ∈ x :: B, y.2.Solid := fun y hy =>
    (h.stack.lowerOk y (List.mem_append_right _ hy)).solid
  unfold BTree.rangeQuery
  rw [hf]
  show (t.chainFrom t.fresh x.1).bind _ = _
  rw [h.chain_from]
  show ((ids (x :: B)).mapM t.page).bind _ = _
  rw [mapM_page hpages]
  show Except.ok _ = _
  rw [← h.data, recs_append, List.map_append, List.filter_append, hleft, List.nil_append]
  congr 2
  rw [recs, List.map_flatMap, List.filter_flatMap, List.flatMap_map]
  refine List.flatMap_congr fun y hy => ?_
  rw [List.filter_map]
  congr 1
  refine List.filter_congr fun r hr => decide_eq_decide.mpr ?_
  simp [hsolid y hy r hr]

end Plin
