import Plin.Properties.BTreePage
import Plin.BTree.Tree

/-!
# 木を段の列として見る

木の page を深さごとの段（`Level`）に分けて見る。段は左から右への page の列であり、
**上の段の record を左から並べたものが、下の段の page の列とちょうど対応する**。
親への pointer も同じ対応で書けるので、条件は一本の等式 `kids up = parents lower` になる。

区切りの鍵についての条件（`SepRel`）は、leaf の段では「前の leaf の鍵より大きく、後の leaf の鍵
以下」、inner の段では「子の 0 番目の鍵と等しい」である。**左端の page の 0 番目の鍵には
何も言えない**。`maintain_parent` が鍵を書き戻さないので、そこには古い鍵が残りうる。

page の分割、貸し借り、併合は、どれも一つの段の中で record の列の切り方を変えるだけである。
-/

namespace Plin

open Infra

/-- 段。番地と page の列。 -/
abbrev Level := List (Nat × Page)

namespace Level

/-- page の番地の列。 -/
def ids (l : Level) : List Nat := l.map Prod.fst

/-- page とその親の番地の列。 -/
def parents (l : Level) : List (Nat × Nat) := l.map fun x => (x.1, x.2.parent)

/-- 段の record を左から並べたもの。 -/
def recs (l : Level) : List Record := l.flatMap fun x => x.2.records

/-- 段の record の指す子と、その record を持つ page の番地の列。 -/
def kids (l : Level) : List (Nat × Nat) := l.flatMap fun x => x.2.records.map fun r => (r.val, x.1)

/-- 親への pointer を忘れたもの。 -/
def strip (l : Level) : Level := l.map fun x => (x.1, { x.2 with parent := 0 })

/-- 親への pointer を書き換える。 -/
def setParent (f : Nat) (l : Level) : Level := l.map fun x => (x.1, { x.2 with parent := f })

variable {l l₁ l₂ : Level} {x : Nat × Page}

@[simp] theorem ids_nil : ids [] = [] := rfl

@[simp] theorem ids_cons : ids (x :: l) = x.1 :: ids l := rfl

@[simp] theorem ids_append : ids (l₁ ++ l₂) = ids l₁ ++ ids l₂ := List.map_append ..

@[simp] theorem parents_nil : parents [] = [] := rfl

@[simp] theorem parents_cons : parents (x :: l) = (x.1, x.2.parent) :: parents l := rfl

@[simp] theorem parents_append : parents (l₁ ++ l₂) = parents l₁ ++ parents l₂ :=
  List.map_append ..

@[simp] theorem recs_nil : recs [] = [] := rfl

@[simp] theorem recs_cons : recs (x :: l) = x.2.records ++ recs l := rfl

@[simp] theorem recs_append : recs (l₁ ++ l₂) = recs l₁ ++ recs l₂ := List.flatMap_append ..

@[simp] theorem kids_nil : kids [] = [] := rfl

@[simp] theorem kids_cons : kids (x :: l) = x.2.records.map (fun r => (r.val, x.1)) ++ kids l := rfl

@[simp] theorem kids_append : kids (l₁ ++ l₂) = kids l₁ ++ kids l₂ := List.flatMap_append ..

@[simp] theorem strip_nil : strip [] = [] := rfl

@[simp] theorem strip_append : strip (l₁ ++ l₂) = strip l₁ ++ strip l₂ := List.map_append ..

@[simp] theorem strip_cons : strip (x :: l) = (x.1, { x.2 with parent := 0 }) :: strip l := rfl

theorem strip_setParent (f : Nat) (l : Level) : strip (setParent f l) = strip l := by
  unfold strip setParent
  rw [List.map_map]
  rfl

theorem ids_eq_of_strip (h : strip l₁ = strip l₂) : ids l₁ = ids l₂ := by
  have := congrArg (List.map Prod.fst) h
  simpa [strip, ids, List.map_map, Function.comp_def] using this

theorem kids_eq_of_strip (h : strip l₁ = strip l₂) : kids l₁ = kids l₂ := by
  have := congrArg kids h
  simpa [strip, kids, List.flatMap_map] using this

theorem recs_eq_of_strip (h : strip l₁ = strip l₂) : recs l₁ = recs l₂ := by
  have := congrArg recs h
  simpa [strip, recs, List.flatMap_map] using this

theorem records_eq_of_strip (h : strip l₁ = strip l₂) :
    (l₁.map fun x => x.2.records) = l₂.map fun x => x.2.records := by
  have := congrArg (List.map fun x => x.2.records) h
  simpa [strip, List.map_map, Function.comp_def] using this

/-- 親の pointer によらない page の性質は、親だけが違う段に移る。 -/
theorem forall_of_strip {P : Page → Prop} (hP : ∀ p q : Page,
    ({ p with parent := 0 } : Page) = { q with parent := 0 } → P p → P q)
    (hs : strip l₁ = strip l₂) (h : ∀ x ∈ l₁, P x.2) : ∀ x ∈ l₂, P x.2 := by
  intro x hx
  have hm : (x.1, { x.2 with parent := 0 }) ∈ strip l₁ := by
    rw [hs]
    exact List.mem_map_of_mem hx
  obtain ⟨y, hy, hye⟩ := List.mem_map.mp hm
  exact hP y.2 x.2 (Prod.mk.inj hye).2 (h y hy)

@[simp] theorem ids_setParent (f : Nat) (l : Level) : ids (setParent f l) = ids l :=
  ids_eq_of_strip (strip_setParent f l)

theorem mem_ids_of_mem (h : x ∈ l) : x.1 ∈ ids l := List.mem_map_of_mem h

/-- 対応する等式を、page ごとの区間に分ける。 -/
theorem split_parents {l : Level} {a b : List (Nat × Nat)} (h : a ++ b = parents l) :
    ∃ l₁ l₂, l = l₁ ++ l₂ ∧ a = parents l₁ ∧ b = parents l₂ := by
  obtain ⟨l₁, l₂, rfl, h₁, h₂⟩ := List.map_eq_append_iff.mp h.symm
  exact ⟨l₁, l₂, rfl, h₁.symm, h₂.symm⟩

theorem parents_setParent {rs : List Record} {f g : Nat}
    (h : rs.map (fun r => (r.val, f)) = parents l) :
    rs.map (fun r => (r.val, g)) = parents (setParent g l) := by
  have hv : rs.map (fun r => r.val) = ids l := by
    have := congrArg (List.map Prod.fst) h
    simpa [parents, ids, List.map_map, Function.comp_def] using this
  have : parents (setParent g l) = (ids l).map fun i => (i, g) := by
    simp [parents, setParent, ids, List.map_map, Function.comp_def]
  rw [this, ← hv, List.map_map]
  rfl

end Level

open Level

/-! ## 区切りの鍵 -/

/-- 前の page と、後の page の区切りとの関係。 -/
def SepRel (leaf : Bool) (a b : Key × List Record) : Prop :=
  match leaf with
  | true => (∀ r ∈ a.2, r.key < b.1) ∧ ∀ r ∈ b.2, b.1 ≤ r.key
  | false => ∃ r rs, b.2 = r :: rs ∧ r.key = b.1

/-- 区切りの列 `σ` が段 `l` を正しく区切っている。 -/
def Sep (leaf : Bool) (σ : List Key) (l : Level) : Prop :=
  (σ.zip (l.map fun x => x.2.records)).Pairwise (SepRel leaf)

theorem Sep.of_strip {leaf : Bool} {σ : List Key} {l₁ l₂ : Level} (h : Sep leaf σ l₁)
    (hs : strip l₁ = strip l₂) : Sep leaf σ l₂ := by
  unfold Sep at h ⊢
  rwa [← records_eq_of_strip hs]

/-- 分割。後ろ半分の区切りは、その 0 番目の鍵である。 -/
theorem SepRel.split {leaf : Bool} {P Q : List (Key × List Record)} {s : Key}
    {x₁ x₂ : List Record} {r : Record} (h₁ : x₁ ≠ [])
    (ho : leaf = true → (x₁ ++ r :: x₂).Pairwise fun a b => a.key < b.key)
    (h : (P ++ [(s, x₁ ++ r :: x₂)] ++ Q).Pairwise (SepRel leaf)) :
    (P ++ [(s, x₁), (r.key, r :: x₂)] ++ Q).Pairwise (SepRel leaf) := by
  simp only [List.append_assoc, List.cons_append, List.nil_append, List.pairwise_append,
    List.pairwise_cons, List.mem_cons] at h ⊢
  obtain ⟨hP, ⟨hQ₁, hQ⟩, hPQ⟩ := h
  cases leaf with
  | true =>
    obtain ⟨-, ho₂, ho₃⟩ := List.pairwise_append.mp (ho rfl)
    have hr := (List.pairwise_cons.mp ho₂).1
    refine ⟨hP, ⟨?_, ?_, hQ⟩, ?_⟩
    · rintro b (rfl | hb)
      · refine ⟨fun a ha => ho₃ a ha r (by simp), fun a ha => ?_⟩
        rcases List.mem_cons.mp ha with rfl | ha
        · exact le_refl _
        · exact le_of_lt (hr a ha)
      · exact ⟨fun a ha => (hQ₁ b hb).1 a (by simp [ha]), (hQ₁ b hb).2⟩
    · intro b hb
      exact ⟨fun a ha => (hQ₁ b hb).1 a (List.mem_append_right _ ha), (hQ₁ b hb).2⟩
    · rintro a ha b (rfl | rfl | hb)
      · have := hPQ a ha _ (Or.inl rfl)
        exact ⟨this.1, fun c hc => this.2 c (by simp [hc])⟩
      · have := hPQ a ha _ (Or.inl rfl)
        refine ⟨fun c hc => lt_of_lt_of_le (this.1 c hc) (this.2 r (by simp)), fun c hc => ?_⟩
        rcases List.mem_cons.mp hc with rfl | hc
        · exact le_refl _
        · exact le_of_lt (hr c hc)
      · exact hPQ a ha b (Or.inr hb)
  | false =>
    refine ⟨hP, ⟨?_, hQ₁, hQ⟩, ?_⟩
    · rintro b (rfl | hb)
      · exact ⟨r, x₂, rfl, rfl⟩
      · exact hQ₁ b hb
    · rintro a ha b (rfl | rfl | hb)
      · obtain ⟨c, cs, hc, hck⟩ := hPQ a ha _ (Or.inl rfl)
        obtain ⟨d, ds, rfl⟩ := List.exists_cons_of_ne_nil h₁
        exact ⟨d, ds, rfl, by rw [← hck, (List.cons.inj hc).1]⟩
      · exact ⟨r, x₂, rfl, rfl⟩
      · exact hPQ a ha b (Or.inr hb)

/-- 併合。 -/
theorem SepRel.merge {leaf : Bool} {P Q : List (Key × List Record)} {s s₂ : Key}
    {x₁ x₂ : List Record} (h₁ : x₁ ≠ [])
    (h : (P ++ [(s, x₁), (s₂, x₂)] ++ Q).Pairwise (SepRel leaf)) :
    (P ++ [(s, x₁ ++ x₂)] ++ Q).Pairwise (SepRel leaf) := by
  simp only [List.append_assoc, List.cons_append, List.nil_append, List.pairwise_append,
    List.pairwise_cons, List.mem_cons] at h ⊢
  obtain ⟨hP, ⟨h12, hQ₂, hQ⟩, hPQ⟩ := h
  obtain ⟨d, ds, rfl⟩ := List.exists_cons_of_ne_nil h₁
  cases leaf with
  | true =>
    refine ⟨hP, ⟨?_, hQ⟩, ?_⟩
    · intro b hb
      refine ⟨fun a ha => ?_, (hQ₂ b hb).2⟩
      rcases List.mem_append.mp ha with ha | ha
      · exact (h12 b (Or.inr hb)).1 a ha
      · exact (hQ₂ b hb).1 a ha
    · rintro a ha b (rfl | hb)
      · have ha₁ := hPQ a ha _ (Or.inl rfl)
        have ha₂ := hPQ a ha _ (Or.inr (Or.inl rfl))
        refine ⟨ha₁.1, fun c hc => ?_⟩
        rcases List.mem_append.mp hc with hc | hc
        · exact ha₁.2 c hc
        · -- 左の page は空でないので、その鍵を挟んで比べる
          have hd : d.key < s₂ := (h12 _ (Or.inl rfl)).1 d (by simp)
          exact le_of_lt (lt_of_le_of_lt (ha₁.2 d (by simp)) (lt_of_lt_of_le hd (ha₂.2 c hc)))
      · exact hPQ a ha b (Or.inr (Or.inr hb))
  | false =>
    refine ⟨hP, ⟨fun b hb => hQ₂ b hb, hQ⟩, ?_⟩
    rintro a ha b (rfl | hb)
    · obtain ⟨c, cs, hc, hck⟩ := hPQ a ha _ (Or.inl rfl)
      exact ⟨d, ds ++ x₂, rfl, by rw [← hck, (List.cons.inj hc).1]⟩
    · exact hPQ a ha b (Or.inr (Or.inr hb))

section SepLevel

variable {leaf : Bool} {σ₁ σ₂ : List Key} {s s₂ : Key} {A B : Level} {x x₁ x₂ : Nat × Page}

/-- 段の page を二つに分ける。 -/
theorem Sep.split {ra rb : List Record} {r : Record} (hσ : σ₁.length = A.length)
    (hx : x.2.records = ra ++ r :: rb) (h₁ : x₁.2.records = ra) (h₂ : x₂.2.records = r :: rb)
    (hne : ra ≠ [])
    (ho : leaf = true → x.2.records.Pairwise fun a b => a.key < b.key)
    (h : Sep leaf (σ₁ ++ s :: σ₂) (A ++ x :: B)) :
    Sep leaf (σ₁ ++ s :: r.key :: σ₂) (A ++ x₁ :: x₂ :: B) := by
  unfold Sep at h ⊢
  rw [List.map_append, List.map_cons, hx] at h
  rw [List.map_append, List.map_cons, List.map_cons, h₁, h₂]
  rw [List.zip_append (by simpa using hσ)] at h ⊢
  rw [hx] at ho
  have := SepRel.split (Q := σ₂.zip (B.map fun x => x.2.records)) hne ho (by simpa using h)
  simpa using this

/-- 段の隣り合う二つの page を一つにする。 -/
theorem Sep.merge (hσ : σ₁.length = A.length) (hx : x.2.records = x₁.2.records ++ x₂.2.records)
    (hne : x₁.2.records ≠ []) (h : Sep leaf (σ₁ ++ s :: s₂ :: σ₂) (A ++ x₁ :: x₂ :: B)) :
    Sep leaf (σ₁ ++ s :: σ₂) (A ++ x :: B) := by
  unfold Sep at h ⊢
  rw [List.map_append, List.map_cons, List.map_cons] at h
  rw [List.map_append, List.map_cons, hx]
  rw [List.zip_append (by simpa using hσ)] at h ⊢
  have := SepRel.merge (Q := σ₂.zip (B.map fun x => x.2.records)) hne (by simpa using h)
  simpa using this

/-- inner の段では、0 番目の record が変わらなければ区切りも変わらない。 -/
theorem Sep.congr_head {r : Record} {ra rb : List Record} (hσ : σ₁.length = A.length)
    (hx : x₁.2.records = r :: ra) (hx₂ : x₂.2.records = r :: rb)
    (h : Sep false (σ₁ ++ s :: σ₂) (A ++ x₁ :: B)) :
    Sep false (σ₁ ++ s :: σ₂) (A ++ x₂ :: B) := by
  unfold Sep at h ⊢
  rw [List.map_append, List.map_cons, List.zip_append (by simpa using hσ), List.zip_cons_cons,
    List.pairwise_append, List.pairwise_cons] at h ⊢
  obtain ⟨hP, ⟨hQ₁, hQ⟩, hPQ⟩ := h
  refine ⟨hP, ⟨fun b hb => hQ₁ b hb, hQ⟩, fun a ha b hb => ?_⟩
  rcases List.mem_cons.mp hb with rfl | hb
  · obtain ⟨c, cs, hc, hck⟩ := hPQ a ha _ List.mem_cons_self
    rw [hx] at hc
    exact ⟨r, rb, hx₂, by rw [← hck, (List.cons.inj hc).1]⟩
  · exact hPQ a ha b (by simp [hb])

end SepLevel

/-! ## 段の積み重ね -/

/-- page が一つだけの段では、その左にも右にも page は無い。 -/
theorem singleton_middle {A B : Level} {x y : Nat × Page} (h : A ++ x :: B = [y]) :
    A = [] ∧ B = [] ∧ x = y := by
  cases A with
  | nil => exact ⟨rfl, (List.cons.inj h).2, (List.cons.inj h).1⟩
  | cons a A => simp at h

/-- 下の段 `lower` の上に段 `uppers` が正しく積まれている。 -/
def Linked (root : Nat) (leaf : Bool) (lower : Level) : List Level → Prop
  | [] => ∃ p, lower = [(root, p)] ∧ p.parent = 0
  | up :: rest => kids up = parents lower ∧ Sep leaf (up.recs.map Record.key) lower ∧
      Linked root false up rest

/-- 一つの page が満たす条件。 -/
structure PageOk (leaf : Bool) (p : Page) : Prop where
  isLeaf : p.isLeaf = leaf
  solid : p.Solid

/-- heap に段が載っている。 -/
def Agrees (pages : Nat → Option Page) (L : Level) : Prop := ∀ x ∈ L, pages x.1 = some x.2

/-- 段の積み重ねと、それを載せた heap。 -/
structure Stack (t : BTree) (leaf : Bool) (lower : Level) (uppers : List Level) : Prop where
  linked : Linked t.root leaf lower uppers
  heap : Agrees t.pages (lower ++ uppers.flatten)
  nodup : (ids (lower ++ uppers.flatten)).Nodup
  bound : ∀ x ∈ lower ++ uppers.flatten, 0 < x.1 ∧ x.1 < t.fresh
  lowerOk : ∀ x ∈ lower, PageOk leaf x.2
  upperOk : ∀ x ∈ uppers.flatten, PageOk false x.2

/-- 根でない page の record の個数。 -/
def Page.Filled (p : Page) : Prop := 6 ≤ p.records.length ∧ p.records.length < cardinality

/-- 根の record の個数。 -/
def Page.RootFilled (leaf : Bool) (p : Page) : Prop :=
  (leaf = false → 2 ≤ p.records.length) ∧ p.records.length < cardinality

/-- どの page の record の個数も範囲に収まっている。 -/
def Sized (leaf : Bool) (lower : Level) : List Level → Prop
  | [] => ∀ x ∈ lower, x.2.RootFilled leaf
  | up :: rest => (∀ x ∈ lower, x.2.Filled) ∧ Sized false up rest

theorem PageOk.of_strip {leaf : Bool} {l₁ l₂ : Level} (hs : strip l₁ = strip l₂)
    (h : ∀ x ∈ l₁, PageOk leaf x.2) : ∀ x ∈ l₂, PageOk leaf x.2 := by
  refine forall_of_strip (fun p q hpq hp => ?_) hs h
  cases p
  cases q
  cases hpq
  exact ⟨hp.isLeaf, hp.solid⟩

theorem Page.Filled.of_strip {l₁ l₂ : Level} (hs : strip l₁ = strip l₂)
    (h : ∀ x ∈ l₁, x.2.Filled) : ∀ x ∈ l₂, x.2.Filled := by
  refine forall_of_strip (P := Page.Filled) (fun p q hpq hp => ?_) hs h
  cases p
  cases q
  cases hpq
  exact hp

theorem Sized.room {leaf : Bool} {lower : Level} {uppers : List Level}
    (h : Sized leaf lower uppers) : ∀ x ∈ lower, x.2.records.length < cardinality := by
  intro x hx
  cases uppers with
  | nil => exact (h x hx).2
  | cons up rest => exact (h.1 x hx).2

theorem Sized.room_all {leaf : Bool} {lower : Level} {uppers : List Level}
    (h : Sized leaf lower uppers) :
    ∀ x ∈ lower ++ uppers.flatten, x.2.records.length < cardinality := by
  induction uppers generalizing leaf lower with
  | nil => simpa using h.room
  | cons up rest ih =>
    intro x hx
    rcases List.mem_append.mp hx with hx | hx
    · exact h.room x hx
    · exact ih h.2 x (by simpa using hx)

/-- 上の段の page は空でない。 -/
theorem Sized.nonempty_upper {leaf : Bool} {lower : Level} {uppers : List Level}
    (h : Sized leaf lower uppers) : ∀ x ∈ uppers.flatten, x.2.records ≠ [] := by
  induction uppers generalizing leaf lower with
  | nil => simp
  | cons up rest ih =>
    intro x hx
    rw [List.flatten_cons, List.mem_append] at hx
    rcases hx with hx | hx
    · have : 2 ≤ x.2.records.length := by
        cases rest with
        | nil => exact (h.2 x hx).1 rfl
        | cons u rest => exact Nat.le_trans (by decide) (h.2.1 x hx).1
      exact List.ne_nil_of_length_pos (Nat.zero_lt_of_lt this)
    · exact ih h.2 x hx

/-- 段の一枚を替えても、どの page も満たす条件は保たれる。 -/
theorem forall_mem_replace {α : Type} {P : α → Prop} {a b : List α} {x y : α}
    (h : ∀ z ∈ a ++ x :: b, P z) (hxy : P x → P y) : ∀ z ∈ a ++ y :: b, P z := by
  obtain ⟨ha, hxb⟩ := List.forall_mem_append.mp h
  obtain ⟨hx, hb⟩ := List.forall_mem_cons.mp hxb
  exact List.forall_mem_append.mpr ⟨ha, List.forall_mem_cons.mpr ⟨hxy hx, hb⟩⟩

/-- 上の段の一枚の record を替えても、null を指す record が無ければ上の段の条件は保たれる。 -/
theorem PageOk.withRecords_flatten {leaf : Bool} {U₁ U₂ : Level} {f : Nat} {p : Page}
    {rest : List Level} (h : ∀ x ∈ ((U₁ ++ (f, p) :: U₂) :: rest).flatten, PageOk leaf x.2)
    {rs : List Record} (hrs : p.Solid → ∀ r ∈ rs, r.val ≠ 0) :
    ∀ x ∈ ((U₁ ++ (f, p.withRecords rs) :: U₂) :: rest).flatten, PageOk leaf x.2 := by
  rw [List.flatten_cons, List.append_assoc, List.cons_append] at h ⊢
  exact forall_mem_replace h fun hp => ⟨hp.isLeaf, hrs hp.solid⟩

/-- record が増えても、あふれなければ個数の条件は保たれる。 -/
theorem Sized.grow {leaf : Bool} {U₁ U₂ : Level} {f : Nat} {p p' : Page} {rest : List Level}
    (h : Sized leaf (U₁ ++ (f, p) :: U₂) rest) (hle : p.records.length ≤ p'.records.length)
    (hlt : p'.records.length < cardinality) : Sized leaf (U₁ ++ (f, p') :: U₂) rest := by
  cases rest with
  | nil =>
    exact forall_mem_replace h fun hp => ⟨fun hl => Nat.le_trans (hp.1 hl) hle, hlt⟩
  | cons u rest =>
    exact ⟨forall_mem_replace h.1 fun hp => ⟨Nat.le_trans hp.1 hle, hlt⟩, h.2⟩

/-- 根でない page の隣の page も根でない。 -/
theorem Linked.filled_beside {root : Nat} {leaf : Bool} {U₁ U₂ : Level} {y : Nat × Page}
    {rest : List Level} (h : Linked root leaf (U₁ ++ y :: U₂) rest)
    (hs : Sized leaf (U₁ ++ y :: U₂) rest) : ∀ x ∈ U₁ ++ U₂, x.2.Filled := by
  cases rest with
  | nil =>
    obtain ⟨p, hp, -⟩ := h
    obtain ⟨rfl, rfl, -⟩ := singleton_middle hp
    simp
  | cons u rest =>
    intro x hx
    refine hs.1 x ?_
    rw [List.mem_append] at hx
    rw [List.mem_append, List.mem_cons]
    tauto

theorem Stack.upper {t : BTree} {leaf : Bool} {lower up : Level} {rest : List Level}
    (h : Stack t leaf lower (up :: rest)) : Stack t false up rest where
  linked := h.linked.2.2
  heap := fun x hx => h.heap x (List.mem_append_right _ (by simpa using hx))
  nodup := by
    have := h.nodup
    rw [ids_append] at this
    simpa using (List.nodup_append.mp this).2.1
  bound := fun x hx => h.bound x (List.mem_append_right _ (by simpa using hx))
  lowerOk := fun x hx => h.upperOk x (by simp [hx])
  upperOk := fun x hx => h.upperOk x (by simp only [List.flatten_cons, List.mem_append]
                                         exact Or.inr hx)

theorem Sized.upper_nonempty {leaf : Bool} {lower up : Level} {rest : List Level}
    (h : Sized leaf lower (up :: rest)) : ∀ x ∈ up, x.2.records ≠ [] :=
  fun x hx => h.nonempty_upper x (by simp [hx])

/-- 根は一番上の段に在る。 -/
theorem Linked.root_mem {root : Nat} {leaf : Bool} {lower : Level} {uppers : List Level}
    (h : Linked root leaf lower uppers) :
    ∃ p, (root, p) ∈ lower ++ uppers.flatten ∧ p.parent = 0 ∧
      (uppers ≠ [] → (root, p) ∈ uppers.flatten) := by
  induction uppers generalizing leaf lower with
  | nil =>
    obtain ⟨p, rfl, hp⟩ := h
    exact ⟨p, by simp, hp, by simp⟩
  | cons up rest ih =>
    obtain ⟨p, hm, hp, -⟩ := ih h.2.2
    refine ⟨p, List.mem_append_right _ (by simpa using hm), hp, fun _ => by simpa using hm⟩

/-- 上に段が在れば、下の段に根は無い。 -/
theorem Linked.ne_root {root i : Nat} {leaf : Bool} {lower L up : Level} {rest : List Level}
    (h : Linked root leaf lower (up :: rest)) (hd : (ids (L ++ (up :: rest).flatten)).Nodup)
    (hi : i ∈ ids L) : i ≠ root := by
  obtain ⟨p, -, -, hm⟩ := h.root_mem
  rintro rfl
  rw [ids_append] at hd
  exact (List.nodup_append.mp hd).2.2 i hi i (mem_ids_of_mem (hm (by simp))) rfl

theorem Linked.length_eq {root : Nat} {leaf : Bool} {lower up : Level} {rest : List Level}
    (h : Linked root leaf lower (up :: rest)) : (up.recs.map Record.key).length = lower.length := by
  have := congrArg List.length h.1
  simpa [kids, recs, parents, List.length_flatMap] using this

theorem exists_middle {α β : Type} {σ : List α} {A B : List β} {x : β}
    (h : σ.length = (A ++ x :: B).length) :
    ∃ σ₁ s σ₂, σ = σ₁ ++ s :: σ₂ ∧ σ₁.length = A.length := by
  rw [List.length_append, List.length_cons] at h
  refine ⟨σ.take A.length, σ.get ⟨A.length, by omega⟩, σ.drop (A.length + 1), ?_, ?_⟩
  · rw [List.get_eq_getElem, ← List.drop_eq_getElem_cons, List.take_append_drop]
  · rw [List.length_take]
    omega

/-- 親と 0 番目の record を変えなければ、上の段との関係は変わらない。 -/
theorem Linked.congr_head {root f : Nat} {U₁ U₂ : Level} {pf pf' : Page} {rest : List Level}
    {c : Record} {cs cs' : List Record} (h : Linked root false (U₁ ++ (f, pf) :: U₂) rest)
    (hp : pf'.parent = pf.parent) (hr : pf.records = c :: cs) (hr' : pf'.records = c :: cs') :
    Linked root false (U₁ ++ (f, pf') :: U₂) rest := by
  cases rest with
  | nil =>
    obtain ⟨p, hl, hp₀⟩ := h
    obtain ⟨rfl, rfl, he⟩ := singleton_middle hl
    obtain ⟨rfl, rfl⟩ := Prod.mk.inj he
    exact ⟨pf', rfl, by rw [hp, hp₀]⟩
  | cons u rest =>
    obtain ⟨σ₁, s, σ₂, hσ, hlen⟩ := exists_middle h.length_eq
    refine ⟨?_, ?_, h.2.2⟩
    · rw [h.1]
      simp [hp]
    · have hsep := h.2.1
      rw [hσ] at hsep ⊢
      exact hsep.congr_head hlen hr hr'

/-- 段の page の親は、上の段のちょうど一つの record に対応する。 -/
theorem Linked.focus {root : Nat} {leaf : Bool} {A B up : Level} {x : Nat × Page}
    {rest : List Level} (h : Linked root leaf (A ++ x :: B) (up :: rest)) :
    ∃ U₁ f pf U₂ ra r rb A₁ A₂ B₁ B₂, up = U₁ ++ (f, pf) :: U₂ ∧ pf.records = ra ++ r :: rb ∧
      A = A₁ ++ A₂ ∧ B = B₁ ++ B₂ ∧ r.val = x.1 ∧ x.2.parent = f ∧
      kids U₁ = parents A₁ ∧ (ra.map fun r => (r.val, f)) = parents A₂ ∧
      (rb.map fun r => (r.val, f)) = parents B₁ ∧ kids U₂ = parents B₂ := by
  have hk := h.1
  rw [parents_append, parents_cons] at hk
  clear h
  induction up generalizing A with
  | nil => simp at hk
  | cons u up ih =>
    rw [kids_cons] at hk
    rcases List.append_eq_append_iff.mp hk with ⟨c, hc₁, hc₂⟩ | ⟨c, hc₁, hc₂⟩
    · -- この page の record は `A` の中で終わる
      obtain ⟨A₁, A₂, rfl, h₁, h₂⟩ := split_parents hc₁.symm
      rw [h₂] at hc₂
      obtain ⟨U₁, f, pf, U₂, ra, r, rb, A₃, A₄, B₁, B₂, rfl, hr, rfl, rfl, hv, hf, h3, h4, h5,
        h6⟩ :=
        ih hc₂
      refine ⟨u :: U₁, f, pf, U₂, ra, r, rb, A₁ ++ A₃, A₄, B₁, B₂, rfl, hr, by simp, rfl, hv, hf,
        ?_, h4, h5, h6⟩
      rw [kids_cons, h₁, h3, parents_append]
    · cases c with
      | nil =>
        -- 境目がちょうど page の境目に当たる
        rw [List.append_nil] at hc₁
        have hk' : kids up = parents [] ++ (x.1, x.2.parent) :: parents B := by simpa using hc₂.symm
        obtain ⟨U₁, f, pf, U₂, ra, r, rb, A₃, A₄, B₁, B₂, rfl, hr, hA, rfl, hv, hf, h3, h4, h5,
          h6⟩ :=
          ih hk'
        obtain ⟨rfl, rfl⟩ := List.append_eq_nil_iff.mp hA.symm
        refine ⟨u :: U₁, f, pf, U₂, ra, r, rb, A, [], B₁, B₂, rfl, hr, by simp, rfl, hv, hf, ?_, h4,
          h5, h6⟩
        rw [kids_cons, hc₁, h3]
        simp
      | cons d c =>
        rw [List.cons_append] at hc₂
        obtain ⟨hd, hc₃⟩ := List.cons.inj hc₂
        obtain ⟨ra, rb', hr, h₁, h₂⟩ := List.map_eq_append_iff.mp hc₁
        obtain ⟨r, rb, rfl, hr', h₃⟩ := List.map_eq_cons_iff.mp h₂
        obtain ⟨B₁, B₂, rfl, h₄, h₅⟩ := split_parents hc₃.symm
        rw [← hd] at hr'
        obtain ⟨hv, hf⟩ := Prod.mk.inj hr'
        exact ⟨[], u.1, u.2, up, ra, r, rb, [], A, B₁, B₂, rfl, hr, rfl, rfl, hv, hf.symm, rfl, h₁,
          h₃.trans h₄, h₅⟩

end Plin
