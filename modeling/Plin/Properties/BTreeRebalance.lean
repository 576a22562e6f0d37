import Plin.Properties.BTreeUpsert

/-!
# 隣り合う page の貸し借りと併合

削除で page の record が減ると、隣の page から一つ借りる（`redistribute`）か、隣の page と
一つにする（`coalesce`）。どちらも段の record の列を変えず、切り方だけを変える。

page の段 `L` のほかに、その子の段 `C` を持ち歩く（leaf の段では `C` は空である）。借りた record
や併合した record の子は、親の pointer が付け替わる。
-/

namespace Plin

open Infra Level

/-! ## 隣り合う page と親の record -/

/-- 父 `g` の record `ri`, `rj` が、隣り合う page `(i, p)`, `(j, q)` を指している。 -/
structure Adjacent (A : Level) (i : Nat) (p : Page) (j : Nat) (q : Page) (B V₁ : Level) (g : Nat)
    (ra : List Record) (ri rj : Record) (rb : List Record) (V₂ : Level) : Prop where
  left : kids V₁ ++ (ra.map fun r => (r.val, g)) = parents A
  right : (rb.map fun r => (r.val, g)) ++ kids V₂ = parents B
  vali : ri.val = i
  valj : rj.val = j
  parenti : p.parent = g
  parentj : q.parent = g

section Adjacent

variable {root : Nat} {leaf : Bool} {A B V₁ V₂ : Level} {i j g : Nat} {p q p' q' pg : Page}
  {ra rb : List Record} {ri rj : Record} {rest : List Level}

theorem Adjacent.length (h : Adjacent A i p j q B V₁ g ra ri rj rb V₂) :
    ((recs V₁ ++ ra).map Record.key).length = A.length := by
  have := congrArg List.length h.left
  rw [List.length_append, kids_length, List.length_map, parents_length] at this
  rw [List.length_map, List.length_append, this]

/-- 父の record が二つ以上あれば、page には右か左に同じ父を持つ隣がある。 -/
theorem Linked.beside {x : Nat × Page} {up : Level}
    (h : Linked root leaf (A ++ x :: B) (up :: rest))
    (h2 : ∀ y ∈ up, 2 ≤ y.2.records.length) :
    (∃ y B' V₁ g pg V₂ r r' rb, B = y :: B' ∧ up = V₁ ++ (g, pg) :: V₂ ∧
      pg.records = r :: r' :: rb ∧ Adjacent A x.1 x.2 y.1 y.2 B' V₁ g [] r r' rb V₂) ∨
    ∃ A' y V₁ g pg V₂ ra r' r rb, A = A' ++ [y] ∧ up = V₁ ++ (g, pg) :: V₂ ∧
      pg.records = ra ++ r' :: r :: rb ∧ Adjacent A' y.1 y.2 x.1 x.2 B V₁ g ra r' r rb V₂ := by
  obtain ⟨V₁, g, pg, V₂, ra, r, rb, A₁, A₂, B₁, B₂, rfl, hr, rfl, rfl, hv, hf, h₁, h₂, h₃, h₄⟩ :=
    h.focus
  rcases List.eq_nil_or_concat ra with rfl | ⟨ra, r', rfl⟩
  · refine Or.inl ?_
    have hlen := h2 (g, pg) (by simp)
    rw [hr, List.nil_append, List.length_cons] at hlen
    obtain ⟨r', rb, rfl⟩ := List.exists_cons_of_length_pos (l := rb) (by omega)
    rw [List.map_cons] at h₃
    obtain ⟨y, B₁, rfl, hy, h₅⟩ := List.map_eq_cons_iff.mp h₃.symm
    obtain ⟨hy₁, hy₂⟩ := Prod.mk.inj hy
    refine ⟨y, B₁ ++ B₂, V₁, g, pg, V₂, r, r', rb, rfl, rfl, hr, ⟨?_, ?_, hv, hy₁.symm, hf, hy₂⟩⟩
    · rw [parents_append, h₁, ← h₂]
    · rw [parents_append, ← h₄]
      exact congrArg (· ++ kids V₂) h₅.symm
  · refine Or.inr ?_
    rw [List.concat_eq_append, List.map_append] at h₂
    obtain ⟨A₂, Y, rfl, h₅, h₆⟩ := split_parents h₂
    obtain ⟨y, Y', rfl, hy, hY⟩ := List.map_eq_cons_iff.mp h₆.symm
    obtain rfl : Y' = [] := List.map_eq_nil_iff.mp hY
    obtain ⟨hy₁, hy₂⟩ := Prod.mk.inj hy
    refine ⟨A₁ ++ A₂, y, V₁, g, pg, V₂, ra, r', r, rb, by simp, rfl, by rw [hr]; simp,
      ⟨?_, ?_, hy₁.symm, hv, hy₂, hf⟩⟩
    · rw [parents_append, h₁, h₅]
    · rw [parents_append, h₃, h₄]

/-- 父の二番目の record だけを書き換えても、父の 0 番目の record は変わらない。 -/
theorem exists_head (ra : List Record) (ri rj : Record) (rb rb' : List Record) :
    ∃ c cs cs', ra ++ ri :: rj :: rb = c :: cs ∧ ra ++ ri :: rb' = c :: cs' := by
  cases ra with
  | nil => exact ⟨ri, _, _, rfl, rfl⟩
  | cons c ra => exact ⟨c, _, _, rfl, rfl⟩

/-- 貸し借り。二つの page の record の切り方を変え、右の page の区切りを書き直す。 -/
theorem Linked.redistribute (hadj : Adjacent A i p j q B V₁ g ra ri rj rb V₂)
    (hg : pg.records = ra ++ ri :: rj :: rb)
    (h : Linked root leaf (A ++ (i, p) :: (j, q) :: B) ((V₁ ++ (g, pg) :: V₂) :: rest))
    {d : Record} {ds : List Record} (hp : p.records ≠ []) (hp' : p'.records ≠ [])
    (hq' : q'.records = d :: ds) (hpq : p.records ++ q.records = p'.records ++ q'.records)
    (hpar : p'.parent = p.parent) (hqar : q'.parent = q.parent)
    (ho : leaf = true → (p.records ++ q.records).Pairwise fun a b => a.key < b.key) :
    Linked root leaf (A ++ (i, p') :: (j, q') :: B)
      ((V₁ ++ (g, pg.withRecords (ra ++ ri :: { rj with key := d.key } :: rb)) :: V₂) :: rest) := by
  refine ⟨?_, ?_, ?_⟩
  · have := h.1
    simp only [kids_append, kids_cons, hg, parents_append, parents_cons, List.map_append,
      List.map_cons, Page.withRecords_records, hpar, hqar] at this ⊢
    exact this
  · have hs := h.2.1
    rw [recs_append, recs_cons, hg] at hs
    rw [recs_append, recs_cons, Page.withRecords_records]
    have hs' : Sep leaf ((recs V₁ ++ ra).map Record.key ++ ri.key :: rj.key ::
        (rb ++ recs V₂).map Record.key) (A ++ (i, p) :: (j, q) :: B) := by simpa using hs
    have hmerge := Sep.merge (x := (i, p.withRecords (p.records ++ q.records))) hadj.length rfl hp
      hs'
    have hsplit : Sep leaf _ (A ++ (i, p') :: (j, q') :: B) := Sep.split hadj.length
      (show p.records ++ q.records = p'.records ++ d :: ds by rw [hpq, hq']) rfl hq' hp' ho hmerge
    simpa using hsplit
  · obtain ⟨c, cs, cs', h1, h2⟩ := exists_head ra ri rj rb ({ rj with key := d.key } :: rb)
    exact h.2.2.congr_head rfl (hg.trans h1) h2

/-- 併合。右の page を左の page に足し、父の二番目の record を消す。 -/
theorem Linked.coalesce (hadj : Adjacent A i p j q B V₁ g ra ri rj rb V₂)
    (hg : pg.records = ra ++ ri :: rj :: rb)
    (h : Linked root leaf (A ++ (i, p) :: (j, q) :: B) ((V₁ ++ (g, pg) :: V₂) :: rest))
    (hp : p.records ≠ []) (hpq : p'.records = p.records ++ q.records)
    (hpar : p'.parent = p.parent) :
    Linked root leaf (A ++ (i, p') :: B)
      ((V₁ ++ (g, pg.withRecords (ra ++ ri :: rb)) :: V₂) :: rest) := by
  refine ⟨?_, ?_, ?_⟩
  · simp only [kids_append, kids_cons, Page.withRecords_records, List.map_append, List.map_cons,
      parents_append, parents_cons, hpar, hadj.vali, hadj.parenti, List.append_assoc,
      List.cons_append]
    rw [← List.append_assoc, hadj.left, hadj.right]
  · have hs := h.2.1
    rw [recs_append, recs_cons, hg] at hs
    rw [recs_append, recs_cons, Page.withRecords_records]
    have hs' : Sep leaf ((recs V₁ ++ ra).map Record.key ++ ri.key :: rj.key ::
        (rb ++ recs V₂).map Record.key) (A ++ (i, p) :: (j, q) :: B) := by simpa using hs
    have hmerge := Sep.merge (x := (i, p')) hadj.length hpq hp hs'
    simpa using hmerge
  · obtain ⟨c, cs, cs', h1, h2⟩ := exists_head ra ri rj rb rb
    exact h.2.2.congr_head rfl (hg.trans h1) h2

end Adjacent

/-! ## 子の段 -/

/-- page `i` の record の並び `rs` に対応する子の並び。leaf には子の段が無い。 -/
def Owned (leaf : Bool) (i : Nat) (rs : List Record) (C : Level) : Prop :=
  match leaf with
  | true => C = []
  | false => (rs.map fun r => (r.val, i)) = parents C

/-- 段 `L` に対応する子の段。 -/
def Below (leaf : Bool) (L C : Level) : Prop :=
  match leaf with
  | true => C = []
  | false => kids L = parents C

section Below

variable {leaf : Bool} {i j : Nat} {rs rs' : List Record} {C L L' : Level} {x : Nat × Page}

theorem Owned.append_iff : Owned leaf i (rs ++ rs') C ↔
    ∃ C₁ C₂, C = C₁ ++ C₂ ∧ Owned leaf i rs C₁ ∧ Owned leaf i rs' C₂ := by
  cases leaf with
  | true =>
    constructor
    · rintro rfl
      exact ⟨[], [], rfl, rfl, rfl⟩
    · rintro ⟨C₁, C₂, rfl, rfl, rfl⟩
      rfl
  | false =>
    constructor
    · intro h
      unfold Owned at h
      rw [List.map_append] at h
      obtain ⟨C₁, C₂, rfl, h₁, h₂⟩ := split_parents h
      exact ⟨C₁, C₂, rfl, h₁, h₂⟩
    · rintro ⟨C₁, C₂, rfl, h₁, h₂⟩
      unfold Owned at h₁ h₂ ⊢
      rw [List.map_append, parents_append, h₁, h₂]

theorem Below.append_iff : Below leaf (L ++ L') C ↔
    ∃ C₁ C₂, C = C₁ ++ C₂ ∧ Below leaf L C₁ ∧ Below leaf L' C₂ := by
  cases leaf with
  | true =>
    constructor
    · rintro rfl
      exact ⟨[], [], rfl, rfl, rfl⟩
    · rintro ⟨C₁, C₂, rfl, rfl, rfl⟩
      rfl
  | false =>
    constructor
    · intro h
      unfold Below at h
      rw [kids_append] at h
      obtain ⟨C₁, C₂, rfl, h₁, h₂⟩ := split_parents h
      exact ⟨C₁, C₂, rfl, h₁, h₂⟩
    · rintro ⟨C₁, C₂, rfl, h₁, h₂⟩
      unfold Below at h₁ h₂ ⊢
      rw [kids_append, parents_append, h₁, h₂]

theorem Below.cons_iff : Below leaf (x :: L) C ↔
    ∃ C₁ C₂, C = C₁ ++ C₂ ∧ Owned leaf x.1 x.2.records C₁ ∧ Below leaf L C₂ := by
  rw [← List.singleton_append, Below.append_iff]
  have : ∀ C, Below leaf [x] C ↔ Owned leaf x.1 x.2.records C := by
    intro C
    cases leaf with
    | true => exact Iff.rfl
    | false =>
      unfold Below Owned
      rw [kids_cons, kids_nil, List.append_nil]
  simp only [this]

/-- 子の親を付け替えれば、別の page の子になる。 -/
theorem Owned.adopt (h : Owned leaf i rs C) (j : Nat) : Owned leaf j rs (setParent j C) := by
  cases leaf with
  | true =>
    obtain rfl : C = [] := h
    rfl
  | false => exact parents_setParent h

theorem Owned.vals (h : Owned false i rs C) : rs.map (fun r => r.val) = ids C := by
  have := congrArg (List.map Prod.fst) h
  simpa [parents, ids, List.map_map, Function.comp_def] using this

end Below

/-- 段 `L` とその子の段 `C`、その上に積まれた段。 -/
structure Zone (t : BTree) (leaf : Bool) (C L : Level) (uppers : List Level) : Prop where
  linked : Linked t.root leaf L uppers
  below : Below leaf L C
  heap : Agrees t.pages (C ++ (L ++ uppers.flatten))
  nodup : (ids (C ++ (L ++ uppers.flatten))).Nodup
  bound : ∀ i ∈ ids (C ++ (L ++ uppers.flatten)), 0 < i ∧ i < t.fresh
  lowerOk : ∀ x ∈ L, PageOk leaf x.2
  upperOk : ∀ x ∈ uppers.flatten, PageOk false x.2

/-- 移した record の子の親を付け替える。leaf では何もしない。 -/
theorem adopt_spec {t : BTree} {leaf : Bool} {i : Nat} {s : List Record} {c m R : Level}
    (node : Nat) (ho : Owned leaf i s m) (h : Agrees t.pages (c ++ m ++ R))
    (hd : (ids (c ++ m ++ R)).Nodup) :
    ∃ t', t.maintainChildren leaf node s = .ok t' ∧
      Agrees t'.pages (c ++ setParent node m ++ R) ∧ Kept t t' (ids m) := by
  cases leaf with
  | true =>
    obtain rfl : m = [] := ho
    refine ⟨t, ?_, h, .refl t _⟩
    induction s with
    | nil => rfl
    | cons r s ih => exact ih
  | false => exact maintainChildren_spec node h hd ho.vals

theorem maintainChildren_single (t : BTree) (leaf : Bool) (node : Nat) (d : Record) :
    t.maintainChildren leaf node [d] = t.maintainChild leaf node d.val := by
  rw [BTree.maintainChildren]
  cases t.maintainChild leaf node d.val <;> rfl

theorem modify_second (ra : List Record) (ri rj : Record) (rb : List Record) (f : Record → Record) :
    (ra ++ ri :: rj :: rb).modify (ra.length + 1) f = ra ++ ri :: f rj :: rb := by
  induction ra with
  | nil => rfl
  | cons r ra ih =>
    rw [List.cons_append, List.length_cons, List.modify_succ_cons, ih]
    rfl

/-! ## 貸し借り -/

section Redistribute

variable {t t' : BTree} {leaf : Bool} {C C' A B V₁ V₂ : Level} {i j g : Nat} {p q pg : Page}
  {ra rb : List Record} {ri rj d : Record} {ps ds : List Record} {rest : List Level}

/-- 二つの page の record を切り直した段。 -/
theorem Zone.redistribute
    (z : Zone t leaf C (A ++ (i, p) :: (j, q) :: B) ((V₁ ++ (g, pg) :: V₂) :: rest))
    (hadj : Adjacent A i p j q B V₁ g ra ri rj rb V₂) (hg : pg.records = ra ++ ri :: rj :: rb)
    (hp : p.records ≠ []) (hps : ps ≠ []) (hpq : p.records ++ q.records = ps ++ d :: ds)
    (ho : leaf = true → (p.records ++ q.records).Pairwise fun a b => a.key < b.key)
    (hC : strip C' = strip C)
    (hb : Below leaf (A ++ (i, p.withRecords ps) :: (j, q.withRecords (d :: ds)) :: B) C')
    (hag : Agrees t'.pages (C' ++ ((A ++ (i, p.withRecords ps) :: (j, q.withRecords (d :: ds)) :: B)
      ++ ((V₁ ++ (g, pg.withRecords (ra ++ ri :: { rj with key := d.key } :: rb)) :: V₂)
        :: rest).flatten)))
    (hroot : t'.root = t.root) (hfresh : t'.fresh = t.fresh) :
    Zone t' leaf C' (A ++ (i, p.withRecords ps) :: (j, q.withRecords (d :: ds)) :: B)
      ((V₁ ++ (g, pg.withRecords (ra ++ ri :: { rj with key := d.key } :: rb)) :: V₂) :: rest) := by
  -- 番地の並びは変わらない
  have hids : ids (C' ++ ((A ++ (i, p.withRecords ps) :: (j, q.withRecords (d :: ds)) :: B)
      ++ ((V₁ ++ (g, pg.withRecords (ra ++ ri :: { rj with key := d.key } :: rb)) :: V₂)
        :: rest).flatten))
      = ids (C ++ ((A ++ (i, p) :: (j, q) :: B) ++ ((V₁ ++ (g, pg) :: V₂) :: rest).flatten)) := by
    simp [ids_eq_of_strip hC]
  have hmem : ∀ r, r ∈ ps ∨ r ∈ d :: ds → r ∈ p.records ∨ r ∈ q.records := by
    intro r hr
    rw [← List.mem_append, hpq, List.mem_append]
    exact hr
  have hpo := z.lowerOk (i, p) (by simp)
  have hqo := z.lowerOk (j, q) (by simp)
  have hsolid : ∀ r, r ∈ ps ∨ r ∈ d :: ds → r.val ≠ 0 := by
    intro r hr
    rcases hmem r hr with h | h
    · exact hpo.solid r h
    · exact hqo.solid r h
  refine ⟨?_, hb, hag, by rw [hids]; exact z.nodup, ?_, ?_, ?_⟩
  · rw [hroot]
    exact z.linked.redistribute hadj hg hp hps rfl hpq rfl rfl ho
  · rw [hids, hfresh]
    exact z.bound
  · intro x hx
    rw [List.mem_append, List.mem_cons, List.mem_cons] at hx
    rcases hx with hx | rfl | rfl | hx
    · exact z.lowerOk x (by simp [hx])
    · exact ⟨hpo.isLeaf, fun r hr => hsolid r (Or.inl hr)⟩
    · exact ⟨hqo.isLeaf, fun r hr => hsolid r (Or.inr hr)⟩
    · exact z.lowerOk x (by simp [hx])
  · refine PageOk.withRecords_flatten z.upperOk fun hgo r hr => ?_
    rw [List.mem_append, List.mem_cons, List.mem_cons] at hr
    rcases hr with hr | rfl | rfl | hr
    · exact hgo r (by rw [hg]; simp [hr])
    · exact hgo r (by rw [hg]; simp)
    · exact hgo rj (by rw [hg]; simp)
    · exact hgo r (by rw [hg]; simp [hr])

/-- 右の page の先頭の record を借りる。 -/
theorem redistribute_right
    (z : Zone t leaf C (A ++ (i, p) :: (j, q) :: B) ((V₁ ++ (g, pg) :: V₂) :: rest))
    (hadj : Adjacent A i p j q B V₁ g [] ri rj rb V₂) (hg : pg.records = ri :: rj :: rb)
    {e : Record} (hq : q.records = e :: d :: ds) (hp : p.records ≠ [])
    (hpl : p.records.length < cardinality) (hql : q.records.length ≤ cardinality)
    (ho : leaf = true → (p.records ++ q.records).Pairwise fun a b => a.key < b.key) :
    ∃ t' C', t.redistribute j i g 0 = .ok t' ∧ strip C' = strip C ∧
      Zone t' leaf C' (A ++ (i, p.withRecords (p.records ++ [e])) ::
          (j, q.withRecords (d :: ds)) :: B)
        ((V₁ ++ (g, pg.withRecords (ri :: { rj with key := d.key } :: rb)) :: V₂) :: rest) ∧
      Kept t t' (ids (C ++ ((A ++ (i, p) :: (j, q) :: B)
        ++ ((V₁ ++ (g, pg) :: V₂) :: rest).flatten))) := by
  -- 子の段を、借りる record の子を境に切る
  obtain ⟨C₁, C₀, rfl, hbA, h₀⟩ := Below.append_iff.mp z.below
  obtain ⟨Cp, C₀, rfl, hbp, h₀⟩ := Below.cons_iff.mp h₀
  obtain ⟨Cq, C₂, rfl, hbq, hbB⟩ := Below.cons_iff.mp h₀
  rw [show (j, q).2.records = [e] ++ d :: ds from hq] at hbq
  obtain ⟨Ce, Cq, rfl, hbe, hbq⟩ := Owned.append_iff.mp hbq
  have hheap := z.heap
  have hnd := z.nodup
  have hpo := z.lowerOk (i, p) (by simp)
  have hqo := z.lowerOk (j, q) (by simp)
  have hpi : t.pages i = some p := hheap (i, p) (by simp)
  have hpj : t.pages j = some q := hheap (j, q) (by simp)
  let p' := p.withRecords (p.records ++ [e])
  let q' := q.withRecords (d :: ds)
  let pg' := pg.withRecords (ri :: { rj with key := d.key } :: rb)
  have h₁ := Agrees.set (t := t) (l := C₁ ++ (Cp ++ ((Ce ++ Cq) ++ C₂)) ++ A) (i := i) (p := p)
    (r := (j, q) :: B ++ ((V₁ ++ (g, pg) :: V₂) :: rest).flatten)
    (by simpa using hheap) (by simpa using hnd) p'
  obtain ⟨t₂, ht₂, h₂, hk₂⟩ := adopt_spec (t := t.setPage i p') (s := [e]) (c := C₁ ++ Cp)
    (m := Ce) (R := Cq ++ C₂ ++ A ++ (i, p') :: (j, q) :: B
      ++ ((V₁ ++ (g, pg) :: V₂) :: rest).flatten) i hbe (by simpa using h₁) (by simpa using hnd)
  have h₃ := Agrees.set (t := t₂)
    (l := C₁ ++ Cp ++ setParent i Ce ++ Cq ++ C₂ ++ A ++ [(i, p')]) (i := j) (p := q)
    (r := B ++ ((V₁ ++ (g, pg) :: V₂) :: rest).flatten) (by simpa using h₂) (by simpa using hnd) q'
  have h₄ := Agrees.set (t := t₂.setPage j q')
    (l := C₁ ++ Cp ++ setParent i Ce ++ Cq ++ C₂ ++ A ++ (i, p') :: (j, q') :: B ++ V₁) (i := g)
    (p := pg) (r := V₂ ++ rest.flatten) (by simpa using h₃) (by simpa using hnd) pg'
  refine ⟨(t₂.setPage j q').setPage g pg', C₁ ++ (Cp ++ setParent i Ce) ++ (Cq ++ C₂), ?_, ?_, ?_,
    ?_⟩
  · have hins : p.insertPair p.recordNum e.key e.val = .ok p' := by
      have := Page.insertPair_middle (p := p) (a := p.records) (b := []) (by simp) hpl e.key e.val
      exact this
    have hrem : q.remove e.key = .ok q' :=
      hqo.solid.remove_middle (a := []) hql hq (by simp)
    have hchild : (t.setPage i p').maintainChild p.isLeaf i e.val = .ok t₂ := by
      rw [← ht₂, maintainChildren_single, hpo.isLeaf]
    unfold BTree.redistribute
    rw [BTree.page_eq hpj]
    show (t.page i).bind _ = _
    rw [BTree.page_eq hpi]
    dsimp only [Except.bind]
    rw [if_pos rfl, Page.read_eq (r := e) (by decide) (by rw [hq]; rfl)]
    show (p.insertPair p.recordNum e.key e.val).bind _ = _
    rw [hins]
    show ((t.setPage i p').maintainChild p.isLeaf i e.val).bind _ = _
    rw [hchild]
    show (q.remove e.key).bind _ = _
    rw [hrem]
    dsimp only [Except.bind]
    rw [Page.read_eq (p := q') (r := d) (by decide) rfl]
    show (t₂.setPage j q').modifyPage g _ = _
    rw [BTree.modifyPage_eq (h₃ (g, pg) (by simp))]
    simp only [hg]
    rfl
  · simp [strip_setParent]
  · have hg' : pg.records = [] ++ ri :: rj :: rb := hg
    refine z.redistribute hadj hg' hp (by simp) (by rw [hq]; simp) ho
      (by simp [strip_setParent]) ?_ (by simpa using h₄) hk₂.root hk₂.fresh
    have hbp' : Owned leaf i (p.records ++ [e]) (Cp ++ setParent i Ce) :=
      Owned.append_iff.mpr ⟨_, _, rfl, hbp, hbe.adopt i⟩
    refine Below.append_iff.mpr ⟨C₁, (Cp ++ setParent i Ce) ++ (Cq ++ C₂), by simp, hbA, ?_⟩
    exact Below.cons_iff.mpr ⟨_, _, rfl, hbp', Below.cons_iff.mpr ⟨_, _, rfl, hbq, hbB⟩⟩
  · refine ((((Kept.refl t _).setPage ?_ p').trans hk₂ fun k hk => ?_).setPage ?_ q').setPage ?_ pg'
    · simp
    · simp [hk]
    · simp
    · simp

/-- 左の page の末尾の record を借りる。`remove` が末尾に当たることを仮定する。 -/
theorem redistribute_left
    (z : Zone t leaf C (A ++ (i, p) :: (j, q) :: B) ((V₁ ++ (g, pg) :: V₂) :: rest))
    (hadj : Adjacent A i p j q B V₁ g ra ri rj rb V₂) (hg : pg.records = ra ++ ri :: rj :: rb)
    (hp : p.records = ps ++ [d]) (hps : ps ≠ []) (hlast : ∀ r ∈ ps, r.key < d.key)
    (hpl : p.records.length ≤ cardinality) (hql : q.records.length < cardinality)
    (ho : leaf = true → (p.records ++ q.records).Pairwise fun a b => a.key < b.key) :
    ∃ t' C', t.redistribute i j g (ra.length + 1) = .ok t' ∧ strip C' = strip C ∧
      Zone t' leaf C' (A ++ (i, p.withRecords ps) :: (j, q.withRecords (d :: q.records)) :: B)
        ((V₁ ++ (g, pg.withRecords (ra ++ ri :: { rj with key := d.key } :: rb)) :: V₂) :: rest) ∧
      Kept t t' (ids (C ++ ((A ++ (i, p) :: (j, q) :: B)
        ++ ((V₁ ++ (g, pg) :: V₂) :: rest).flatten))) := by
  -- 子の段を、借りる record の子を境に切る
  obtain ⟨C₁, C₀, rfl, hbA, h₀⟩ := Below.append_iff.mp z.below
  obtain ⟨Cp, C₀, rfl, hbp, h₀⟩ := Below.cons_iff.mp h₀
  obtain ⟨Cq, C₂, rfl, hbq, hbB⟩ := Below.cons_iff.mp h₀
  rw [show (i, p).2.records = ps ++ [d] from hp] at hbp
  obtain ⟨Cp, Cd, rfl, hbp, hbd⟩ := Owned.append_iff.mp hbp
  have hheap := z.heap
  have hnd := z.nodup
  have hpo := z.lowerOk (i, p) (by simp)
  have hqo := z.lowerOk (j, q) (by simp)
  have hpi : t.pages i = some p := hheap (i, p) (by simp)
  have hpj : t.pages j = some q := hheap (j, q) (by simp)
  let p' := p.withRecords ps
  let q' := q.withRecords (d :: q.records)
  let pg' := pg.withRecords (ra ++ ri :: { rj with key := d.key } :: rb)
  have h₁ := Agrees.set (t := t) (l := C₁ ++ ((Cp ++ Cd) ++ (Cq ++ C₂)) ++ A ++ [(i, p)]) (i := j)
    (p := q) (r := B ++ ((V₁ ++ (g, pg) :: V₂) :: rest).flatten)
    (by simpa using hheap) (by simpa using hnd) q'
  obtain ⟨t₂, ht₂, h₂, hk₂⟩ := adopt_spec (t := t.setPage j q') (s := [d]) (c := C₁ ++ Cp)
    (m := Cd) (R := Cq ++ C₂ ++ A ++ (i, p) :: (j, q') :: B
      ++ ((V₁ ++ (g, pg) :: V₂) :: rest).flatten) j hbd (by simpa using h₁) (by simpa using hnd)
  have h₃ := Agrees.set (t := t₂) (l := C₁ ++ Cp ++ setParent j Cd ++ Cq ++ C₂ ++ A) (i := i)
    (p := p) (r := (j, q') :: B ++ ((V₁ ++ (g, pg) :: V₂) :: rest).flatten) (by simpa using h₂)
    (by simpa using hnd) p'
  have h₄ := Agrees.set (t := t₂.setPage i p')
    (l := C₁ ++ Cp ++ setParent j Cd ++ Cq ++ C₂ ++ A ++ (i, p') :: (j, q') :: B ++ V₁) (i := g)
    (p := pg) (r := V₂ ++ rest.flatten) (by simpa using h₃) (by simpa using hnd) pg'
  refine ⟨(t₂.setPage i p').setPage g pg', C₁ ++ Cp ++ (setParent j Cd ++ Cq) ++ C₂, ?_, ?_, ?_, ?_⟩
  · have hins : q.insertPair 0 d.key d.val = .ok q' :=
      Page.insertPair_middle (p := q) (a := []) (b := q.records) rfl hql d.key d.val
    have hrem : p.remove d.key = .ok p' := by
      have := hpo.solid.remove_middle hpl (b := []) hp hlast
      rwa [List.append_nil] at this
    have hget : p.records[p.recordNum - 1]? = some d := by
      rw [Page.recordNum, hp]
      simp
    have hidx : p.recordNum - 1 < cardinality :=
      Nat.lt_of_lt_of_le (List.getElem?_eq_some_iff.mp hget).1 hpl
    have hchild : (t.setPage j q').maintainChild q.isLeaf j d.val = .ok t₂ := by
      rw [← ht₂, maintainChildren_single, hqo.isLeaf]
    unfold BTree.redistribute
    rw [BTree.page_eq hpi]
    show (t.page j).bind _ = _
    rw [BTree.page_eq hpj]
    dsimp only [Except.bind]
    rw [if_neg (Nat.succ_ne_zero _), Page.read_eq hidx hget]
    show (q.insertPair 0 d.key d.val).bind _ = _
    rw [hins]
    show ((t.setPage j q').maintainChild q.isLeaf j d.val).bind _ = _
    rw [hchild]
    show (p.remove d.key).bind _ = _
    rw [hrem]
    show (t₂.setPage i p').modifyPage g _ = _
    rw [BTree.modifyPage_eq (h₃ (g, pg) (by simp))]
    simp only [hg, modify_second]
    rfl
  · simp [strip_setParent]
  · refine z.redistribute hadj hg (by rw [hp]; simp) hps (by rw [hp]; simp) ho
      (by simp [strip_setParent]) ?_ (by simpa using h₄) hk₂.root hk₂.fresh
    have hbq' : Owned leaf j ([d] ++ q.records) (setParent j Cd ++ Cq) :=
      Owned.append_iff.mpr ⟨_, _, rfl, hbd.adopt j, hbq⟩
    refine Below.append_iff.mpr ⟨C₁, Cp ++ ((setParent j Cd ++ Cq) ++ C₂), by simp, hbA, ?_⟩
    exact Below.cons_iff.mpr ⟨_, _, rfl, hbp, Below.cons_iff.mpr ⟨_, _, rfl, hbq', hbB⟩⟩
  · refine ((((Kept.refl t _).setPage ?_ q').trans hk₂ fun k hk => ?_).setPage ?_ p').setPage ?_ pg'
    · simp
    · simp [hk]
    · simp
    · simp

end Redistribute

/-! ## 併合 -/

section Coalesce

variable {t : BTree} {leaf : Bool} {C A B V₁ V₂ : Level} {i j g : Nat} {p q pg : Page}
  {ra rb : List Record} {ri rj : Record} {rest : List Level}

/-- 右の page の record を一つずつ左の page の後ろに足す。 -/
theorem appendRecords_spec {rs : List Record} {c m u v : Level} {t : BTree} {p : Page}
    (hl : p.isLeaf = leaf) (ho : Owned leaf j rs m)
    (h : Agrees t.pages (c ++ m ++ (u ++ (i, p) :: v)))
    (hd : (ids (c ++ m ++ (u ++ (i, p) :: v))).Nodup)
    (hlen : p.records.length + rs.length ≤ cardinality) :
    ∃ t', t.appendRecords i rs = .ok t' ∧
      Agrees t'.pages (c ++ setParent i m
        ++ (u ++ (i, p.withRecords (p.records ++ rs)) :: v)) ∧
      Kept t t' (i :: ids m) := by
  induction rs generalizing c m t p with
  | nil =>
    have hm : m = [] := by
      cases leaf with
      | true => exact ho
      | false => exact List.map_eq_nil_iff.mp ho.symm
    subst hm
    refine ⟨t, rfl, ?_, .refl t _⟩
    rw [List.append_nil]
    exact h
  | cons r rs ih =>
    -- 先頭の record を移し、その子の親を付け替えてから残りを移す
    have ho' : Owned leaf j ([r] ++ rs) m := ho
    obtain ⟨Cr, m, rfl, hor, hos⟩ := Owned.append_iff.mp ho'
    rw [List.length_cons] at hlen
    have hins : p.insertPair p.recordNum r.key r.val = .ok (p.withRecords (p.records ++ [r])) :=
      Page.insertPair_middle (p := p) (a := p.records) (b := []) (by simp) (by omega) r.key r.val
    have h₁ := Agrees.set (t := t) (l := c ++ (Cr ++ m) ++ u) (r := v) (by simpa using h)
      (by simpa using hd) (p.withRecords (p.records ++ [r]))
    obtain ⟨t₂, ht₂, h₂, hk₂⟩ := adopt_spec (t := t.setPage i (p.withRecords (p.records ++ [r])))
      (c := c) (R := m ++ (u ++ (i, p.withRecords (p.records ++ [r])) :: v)) i hor
      (by simpa using h₁) (by simpa using hd)
    obtain ⟨t₃, ht₃, h₃, hk₃⟩ := @ih (c ++ setParent i Cr) m t₂
      (p.withRecords (p.records ++ [r])) hl hos (by simpa using h₂) (by simpa using hd)
      (by rw [Page.withRecords_records, List.length_append, List.length_singleton]; omega)
    refine ⟨t₃, ?_, ?_, ?_⟩
    · rw [BTree.appendRecords, BTree.page_eq (h (i, p) (by simp))]
      show (p.insertPair p.recordNum r.key r.val).bind _ = _
      rw [hins]
      show ((t.setPage i (p.withRecords (p.records ++ [r]))).maintainChild p.isLeaf i r.val).bind _
        = _
      rw [hl, ← maintainChildren_single, ht₂]
      exact ht₃
    · have : p.records ++ [r] ++ rs = p.records ++ r :: rs := by simp
      rw [Page.withRecords_records, this, Page.withRecords_withRecords] at h₃
      simpa [setParent] using h₃
    · refine ((((Kept.refl t _).setPage ?_ _).trans hk₂ fun k hk => ?_).trans hk₃) fun k hk => ?_
      · exact List.mem_cons_self
      · simp [hk]
      · rw [ids_append, List.mem_cons, List.mem_append]
        exact (List.mem_cons.mp hk).imp_right Or.inr

/-- 併合した page。leaf なら連鎖の次も引き継ぐ。 -/
def mergedPage (leaf : Bool) (p q : Page) : Page :=
  { p with
    records := p.records ++ q.records
    nextLeaf := if leaf then q.nextLeaf else p.nextLeaf }

/-- 併合した page の右側の段。leaf なら直後の leaf の `prev_leaf` が変わる。 -/
def mergedRest (leaf : Bool) (i : Nat) (B : Level) : Level :=
  if leaf then setPrev i B else B

@[simp] theorem ids_mergedRest (leaf : Bool) (i : Nat) (B : Level) :
    ids (mergedRest leaf i B) = ids B := by
  unfold mergedRest
  split <;> simp

@[simp] theorem recs_mergedRest (leaf : Bool) (i : Nat) (B : Level) :
    recs (mergedRest leaf i B) = recs B := by
  unfold mergedRest
  split <;> simp

theorem forall_mergedRest {P : Page → Prop} (leaf : Bool) (i : Nat) (h : ∀ x ∈ B, P x.2)
    (hP : ∀ p, P p → P { p with prevLeaf := i }) : ∀ x ∈ mergedRest leaf i B, P x.2 := by
  unfold mergedRest
  split
  · exact forall_setPrev i B h hP
  · exact h

theorem Agrees.free {l r : Level} (h : Agrees t.pages (l ++ (j, q) :: r))
    (hd : (ids (l ++ (j, q) :: r)).Nodup) : Agrees (t.free j).pages (l ++ r) := by
  rw [ids_append, ids_cons, List.nodup_middle] at hd
  intro x hx
  show (if x.1 = j then none else t.pages x.1) = _
  rw [if_neg, h x]
  · rw [List.mem_append] at hx
    rw [List.mem_append, List.mem_cons]
    tauto
  · intro hxj
    refine (List.nodup_cons.mp hd).1 ?_
    have hm := mem_ids_of_mem hx
    rwa [hxj, ids_append] at hm

/-- `erase_node`。leaf なら連鎖から外す。 -/
theorem eraseNode_spec {u v : Level} (hl : q.isLeaf = leaf)
    (hc : leaf = true → q.prevLeaf = i ∧ q.nextLeaf = (B.head?.map Prod.fst).getD 0)
    (h : Agrees t.pages (u ++ (i, p) :: (j, q) :: B ++ v))
    (hd : (ids (u ++ (i, p) :: (j, q) :: B ++ v)).Nodup)
    (h0 : ∀ k ∈ ids B, k ≠ 0) :
    ∃ t', t.eraseNode j = .ok t' ∧
      Agrees t'.pages (u ++ (i, { p with nextLeaf := if leaf then q.nextLeaf else p.nextLeaf }) ::
        mergedRest leaf i B ++ v) ∧
      t'.pages j = none ∧ Kept t t' (i :: j :: ids B) := by
  have hj : t.pages j = some q := h (j, q) (by simp)
  have hi : t.pages i = some p := h (i, p) (by simp)
  cases leaf with
  | false =>
    refine ⟨t.free j, ?_, ?_, if_pos rfl, (Kept.refl t _).free (by simp)⟩
    · unfold BTree.eraseNode
      rw [BTree.page_eq hj]
      dsimp only [bind, Except.bind]
      rw [hl, if_neg (by simp)]
      rfl
    · have := Agrees.free (t := t) (l := u ++ [(i, p)]) (j := j) (q := q) (r := B ++ v)
        (by simpa using h) (by simpa using hd)
      simpa [mergedRest] using this
  | true =>
    -- leaf は連鎖から外し、左右の leaf を繋ぐ
    obtain ⟨hprev, hnext⟩ := hc rfl
    have h₁ := Agrees.set (t := t) (l := u) (i := i) (p := p) (r := (j, q) :: B ++ v)
      (by simpa using h) (by simpa using hd) { p with nextLeaf := q.nextLeaf }
    cases B with
    | nil =>
      have h₂ := Agrees.free (t := t.setPage i { p with nextLeaf := q.nextLeaf })
        (l := u ++ [(i, { p with nextLeaf := q.nextLeaf })]) (j := j) (q := q) (r := v)
        (by simpa using h₁) (by simpa using hd)
      refine ⟨(t.setPage i { p with nextLeaf := q.nextLeaf }).free j, ?_,
        by simpa [mergedRest, setPrev] using h₂, if_pos rfl,
        ((Kept.refl t _).setPage (by simp) _).free (by simp)⟩
      · have hn0 : q.nextLeaf = 0 := hnext
        unfold BTree.eraseNode
        rw [BTree.page_eq hj]
        dsimp only [bind, Except.bind]
        rw [if_pos hl, if_pos hn0, hprev, BTree.modifyPage_eq hi, hn0]
        rfl
    | cons y B =>
      obtain ⟨n, pn⟩ := y
      have hn : q.nextLeaf = n := hnext
      have hn0 : q.nextLeaf ≠ 0 := by
        rw [hn]
        exact h0 n (by simp)
      have h₂ := Agrees.set (t := t.setPage i { p with nextLeaf := q.nextLeaf })
        (l := u ++ [(i, { p with nextLeaf := q.nextLeaf }), (j, q)]) (i := n) (p := pn)
        (r := B ++ v) (by simpa using h₁) (by simpa using hd) { pn with prevLeaf := i }
      have h₃ := Agrees.free (l := u ++ [(i, { p with nextLeaf := q.nextLeaf })]) (j := j)
        (q := q) (r := (n, { pn with prevLeaf := i }) :: B ++ v) (by simpa using h₂)
        (by simpa using hd)
      refine ⟨((t.setPage i { p with nextLeaf := q.nextLeaf }).setPage n
        { pn with prevLeaf := i }).free j, ?_, by simpa [mergedRest, setPrev] using h₃, if_pos rfl,
        (((Kept.refl t _).setPage (by simp) _).setPage (by simp) _).free (by simp)⟩
      · unfold BTree.eraseNode
        rw [BTree.page_eq hj]
        dsimp only [bind, Except.bind]
        rw [if_pos hl, if_neg hn0, hprev, BTree.modifyPage_eq hi]
        dsimp only
        rw [hn, BTree.modifyPage_eq (p := pn) (hn ▸ h₁ (n, pn) (by simp))]
        rfl

theorem erase_second (ra : List Record) (ri rj : Record) (rb : List Record) :
    (ra ++ ri :: rj :: rb).eraseIdx (ra.length + 1) = ra ++ ri :: rb := by
  induction ra with
  | nil => rfl
  | cons r ra ih =>
    rw [List.cons_append, List.length_cons, List.eraseIdx_cons_succ, ih]
    rfl

/-- 右の page を左の page に合わせ、父の record を一つ消す。 -/
theorem coalesce_spec
    (z : Zone t leaf C (A ++ (i, p) :: (j, q) :: B) ((V₁ ++ (g, pg) :: V₂) :: rest))
    (hadj : Adjacent A i p j q B V₁ g ra ri rj rb V₂) (hg : pg.records = ra ++ ri :: rj :: rb)
    (hp : p.records ≠ []) (hlen : p.records.length + q.records.length ≤ cardinality)
    (hc : leaf = true → q.prevLeaf = i ∧ q.nextLeaf = (B.head?.map Prod.fst).getD 0) :
    ∃ t₁ t₂ t' C', t.appendRecords i q.records = .ok t₁ ∧ t₁.eraseNode j = .ok t₂ ∧
      t₂.modifyPage g (fun f => f.erasePair (ra.length + 1)) = .ok t' ∧ strip C' = strip C ∧
      Zone t' leaf C' (A ++ (i, mergedPage leaf p q) :: mergedRest leaf i B)
        ((V₁ ++ (g, pg.withRecords (ra ++ ri :: rb)) :: V₂) :: rest) ∧
      t'.pages j = none ∧
      Kept t t' (ids (C ++ ((A ++ (i, p) :: (j, q) :: B)
        ++ ((V₁ ++ (g, pg) :: V₂) :: rest).flatten))) := by
  -- 子の段を、移す record の子を境に切る
  obtain ⟨C₁, C₀, rfl, hbA, h₀⟩ := Below.append_iff.mp z.below
  obtain ⟨Cp, C₀, rfl, hbp, h₀⟩ := Below.cons_iff.mp h₀
  obtain ⟨Cq, C₂, rfl, hbq, hbB⟩ := Below.cons_iff.mp h₀
  have hheap := z.heap
  have hnd := z.nodup
  have hpo := z.lowerOk (i, p) (by simp)
  have hqo := z.lowerOk (j, q) (by simp)
  let p₁ := p.withRecords (p.records ++ q.records)
  obtain ⟨t₁, ht₁, h₁, hk₁⟩ := appendRecords_spec (t := t) (j := j) (i := i) (c := C₁ ++ Cp)
    (m := Cq) (u := C₂ ++ A)
    (v := (j, q) :: B ++ ((V₁ ++ (g, pg) :: V₂) :: rest).flatten) hpo.isLeaf hbq
    (by simpa using hheap) (by simpa using hnd) hlen
  have h0 : ∀ k ∈ ids B, k ≠ 0 := by
    intro k hk
    exact Nat.ne_of_gt (z.bound k (by simp [hk])).1
  obtain ⟨t₂, ht₂, h₂, hnone, hk₂⟩ := eraseNode_spec (t := t₁) (i := i) (j := j) (p := p₁) (q := q)
    (B := B) (u := C₁ ++ Cp ++ setParent i Cq ++ C₂ ++ A)
    (v := ((V₁ ++ (g, pg) :: V₂) :: rest).flatten) hqo.isLeaf hc (by simpa using h₁)
    (by simpa using hnd) h0
  -- 消えるのは `j` だけである
  have hsub : (ids (C₁ ++ ((Cp ++ setParent i Cq) ++ C₂)
      ++ ((A ++ (i, mergedPage leaf p q) :: mergedRest leaf i B)
        ++ ((V₁ ++ (g, pg.withRecords (ra ++ ri :: rb)) :: V₂) :: rest).flatten))).Sublist
      (ids (C₁ ++ (Cp ++ (Cq ++ C₂)) ++ ((A ++ (i, p) :: (j, q) :: B)
        ++ ((V₁ ++ (g, pg) :: V₂) :: rest).flatten))) := by
    simp only [ids_append, ids_cons, ids_setParent, ids_mergedRest, List.flatten_cons,
      List.append_assoc, List.cons_append]
    refine List.Sublist.append_left (List.Sublist.append_left (List.Sublist.append_left
      (List.Sublist.append_left (List.Sublist.append_left
        (List.Sublist.cons_cons _ ?_) _) _) _) _) _
    exact List.sublist_cons_self _ _
  have hnd₂ : (ids (C₁ ++ Cp ++ setParent i Cq ++ C₂ ++ A ++ (i, mergedPage leaf p q) ::
      mergedRest leaf i B ++ (V₁ ++ (g, pg) :: (V₂ ++ rest.flatten)))).Nodup := by
    simpa using hnd.sublist hsub
  have h₂' : Agrees t₂.pages (C₁ ++ Cp ++ setParent i Cq ++ C₂ ++ A ++ (i, mergedPage leaf p q) ::
      mergedRest leaf i B ++ (V₁ ++ (g, pg) :: (V₂ ++ rest.flatten))) := by
    simpa [mergedPage, p₁, Page.withRecords] using h₂
  have h₃ := Agrees.set (t := t₂) (l := C₁ ++ Cp ++ setParent i Cq ++ C₂ ++ A
      ++ (i, mergedPage leaf p q) :: mergedRest leaf i B ++ V₁) (i := g) (p := pg)
    (r := V₂ ++ rest.flatten) (by simpa using h₂') (by simpa using hnd₂)
    (pg.withRecords (ra ++ ri :: rb))
  have hroot : t₂.root = t.root := by rw [hk₂.root, hk₁.root]
  have hfresh : t₂.fresh = t.fresh := by rw [hk₂.fresh, hk₁.fresh]
  refine ⟨t₁, t₂, t₂.setPage g (pg.withRecords (ra ++ ri :: rb)),
    C₁ ++ ((Cp ++ setParent i Cq) ++ C₂), ht₁, ht₂, ?_, by simp [strip_setParent], ?_, ?_, ?_⟩
  · rw [BTree.modifyPage_eq (h₂ (g, pg) (by simp))]
    simp only [Page.erasePair, hg, erase_second]
    rfl
  · refine ⟨?_, ?_, by simpa using h₃, ?_, ?_, ?_, ?_⟩
    · show Linked t₂.root _ _ _
      rw [hroot]
      have hlink : Linked t.root leaf (A ++ (i, mergedPage leaf p q) :: B) _ :=
        z.linked.coalesce hadj hg hp rfl rfl
      refine hlink.congr_lower ?_ ?_
      · unfold mergedRest
        split <;> simp
      · unfold mergedRest
        split <;> simp
    · have hbp' : Owned leaf i (p.records ++ q.records) (Cp ++ setParent i Cq) :=
        Owned.append_iff.mpr ⟨_, _, rfl, hbp, hbq.adopt i⟩
      have hbB' : Below leaf (mergedRest leaf i B) C₂ := by
        cases leaf with
        | true => exact hbB
        | false => exact hbB
      exact Below.append_iff.mpr ⟨C₁, _, rfl, hbA, Below.cons_iff.mpr ⟨_, _, rfl, hbp', hbB'⟩⟩
    · simpa using hnd₂
    · intro k hk
      show 0 < k ∧ k < t₂.fresh
      rw [hfresh]
      exact z.bound k (hsub.subset hk)
    · intro x hx
      rw [List.mem_append, List.mem_cons] at hx
      rcases hx with hx | rfl | hx
      · exact z.lowerOk x (by simp [hx])
      · refine ⟨hpo.isLeaf, fun r hr => ?_⟩
        rcases List.mem_append.mp hr with hr | hr
        · exact hpo.solid r hr
        · exact hqo.solid r hr
      · exact forall_mergedRest (P := PageOk leaf) leaf i
          (fun y hy => z.lowerOk y (by simp [hy])) (fun q hq => ⟨hq.isLeaf, hq.solid⟩) x hx
    · refine PageOk.withRecords_flatten z.upperOk fun hgo r hr => hgo r ?_
      rw [List.mem_append, List.mem_cons] at hr
      rw [hg, List.mem_append, List.mem_cons, List.mem_cons]
      exact hr.imp_right (Or.imp_right Or.inr)
  · rw [BTree.setPage_pages, if_neg, hnone]
    rintro rfl
    have := h₂' (j, pg) (by simp)
    rw [hnone] at this
    simp at this
  · refine ((hk₁.mono fun k hk => ?_).trans hk₂ fun k hk => ?_).setPage (by simp) _
    · rcases List.mem_cons.mp hk with rfl | hk
      · simp
      · simp [hk]
    · simp only [List.mem_cons] at hk
      rcases hk with rfl | rfl | hk
      · simp
      · simp
      · simp [hk]

end Coalesce

end Plin
