import Mathlib.Data.List.Nodup
import Plin.Properties.BTreeSearch

/-!
# B+ 木への挿入

あふれた page を分けるたびに、新しい page を指す record が上の段に一つ増える。
`insert_into_parent` の再帰は段を一つずつ上がるので、上に積まれた段についての帰納法で示す。

帰納法の仮定に現れるのは、**下の段では page を分け終えたが、上の段はまだ新しい page を
知らない** 状態である（`Pending`）。再帰から戻れば、親の pointer だけが違う段の上に
正しい段が積まれている（`Settled`）。
-/

namespace Plin

open Infra Level

/-! ## heap の書き換え -/

section Heap

variable {t t' : BTree} {i j : Nat} {p q : Page} {L L₁ L₂ L₃ : Level}

theorem BTree.page_eq (h : t.pages i = some p) : t.page i = .ok p := by
  rw [BTree.page, h]

theorem BTree.modifyPage_eq (h : t.pages i = some p) (f : Page → Page) :
    t.modifyPage i f = .ok (t.setPage i (f p)) := by
  rw [BTree.modifyPage, BTree.page_eq h]
  rfl

@[simp] theorem BTree.setPage_pages :
    (t.setPage i p).pages j = if j = i then some p else t.pages j := rfl

@[simp] theorem BTree.setPage_fresh : (t.setPage i p).fresh = t.fresh := rfl

@[simp] theorem BTree.setPage_root : (t.setPage i p).root = t.root := rfl

@[simp] theorem BTree.setPage_addr : (t.setPage i p).addr = t.addr := rfl

theorem Agrees.set {l r : Level} (h : Agrees t.pages (l ++ (i, p) :: r))
    (hd : (ids (l ++ (i, p) :: r)).Nodup) (q : Page) :
    Agrees (t.setPage i q).pages (l ++ (i, q) :: r) := by
  have hne : ∀ x ∈ l ++ r, x.1 ≠ i := by
    intro x hx hxi
    rw [ids_append, ids_cons, List.nodup_middle] at hd
    have hm := mem_ids_of_mem hx
    rw [hxi, ids_append] at hm
    exact (List.nodup_cons.mp hd).1 hm
  intro x hx
  rw [BTree.setPage_pages]
  rcases List.mem_append.mp hx with hx | hx
  · rw [if_neg (hne x (by simp [hx]))]
    exact h x (by simp [hx])
  · rcases List.mem_cons.mp hx with rfl | hx
    · rw [if_pos rfl]
    · rw [if_neg (hne x (by simp [hx]))]
      exact h x (by simp [hx])

theorem Agrees.set_other (h : Agrees t.pages L) (hi : i ∉ ids L) (q : Page) :
    Agrees (t.setPage i q).pages L := by
  intro x hx
  rw [BTree.setPage_pages, if_neg]
  · exact h x hx
  · intro hxi
    exact hi (hxi ▸ mem_ids_of_mem hx)

/-- 根と割り当ての位置を変えず、`touched` の外の page も変えない。 -/
structure Kept (t t' : BTree) (touched : List Nat) : Prop where
  pages : ∀ i ∉ touched, t'.pages i = t.pages i
  fresh : t'.fresh = t.fresh
  root : t'.root = t.root
  addr : t'.addr = t.addr

namespace Kept

variable {t₁ : BTree} {T T₁ T₂ : List Nat}

theorem refl (t : BTree) (T : List Nat) : Kept t t T := ⟨fun _ _ => rfl, rfl, rfl, rfl⟩

theorem setPage (h : Kept t t' T) (hi : i ∈ T) (p : Page) : Kept t (t'.setPage i p) T := by
  refine ⟨fun k hk => ?_, h.fresh, h.root, h.addr⟩
  rw [BTree.setPage_pages, if_neg, h.pages k hk]
  rintro rfl
  exact hk hi

theorem free (h : Kept t t' T) (hi : i ∈ T) : Kept t (t'.free i) T := by
  refine ⟨fun k hk => ?_, h.fresh, h.root, h.addr⟩
  refine (if_neg ?_).trans (h.pages k hk)
  rintro rfl
  exact hk hi

theorem trans (h₁ : Kept t t₁ T) (h₂ : Kept t₁ t' T₂) (hsub : ∀ k ∈ T₂, k ∈ T) : Kept t t' T :=
  ⟨fun k hk => (h₂.pages k fun hm => hk (hsub k hm)).trans (h₁.pages k hk),
    h₂.fresh.trans h₁.fresh, h₂.root.trans h₁.root, h₂.addr.trans h₁.addr⟩

theorem mono (h : Kept t t' T₁) (hsub : ∀ k ∈ T₁, k ∈ T) : Kept t t' T := (refl t T).trans h hsub

end Kept

/-- 並んだ子の親を順に書き換える。 -/
theorem maintainChildren_spec (node : Nat) {rs : List Record} {L₁ L₂ L₃ : Level} {t : BTree}
    (h : Agrees t.pages (L₁ ++ L₂ ++ L₃)) (hd : (ids (L₁ ++ L₂ ++ L₃)).Nodup)
    (hids : rs.map (fun r => r.val) = ids L₂) :
    ∃ t', t.maintainChildren false node rs = .ok t' ∧
      Agrees t'.pages (L₁ ++ setParent node L₂ ++ L₃) ∧ Kept t t' (ids L₂) := by
  induction L₂ generalizing L₁ rs t with
  | nil =>
    obtain rfl : rs = [] := by simpa using hids
    exact ⟨t, rfl, h, .refl t _⟩
  | cons x L₂ ih =>
    obtain ⟨i, p⟩ := x
    obtain ⟨r, rs, rfl, hr, hrs⟩ := List.map_eq_cons_iff.mp hids
    have hp : t.pages i = some p := h (i, p) (by simp)
    have h' : Agrees t.pages (L₁ ++ (i, p) :: (L₂ ++ L₃)) := by simpa using h
    have hset := h'.set (by simpa using hd) { p with parent := node }
    obtain ⟨t', ht', hag, hk⟩ := @ih rs (L₁ ++ [(i, { p with parent := node })])
      (t.setPage i { p with parent := node }) (by simpa using hset) (by simpa using hd) hrs
    refine ⟨t', ?_, by simpa [setParent] using hag, ?_⟩
    · rw [BTree.maintainChildren, BTree.maintainChild, if_neg (by simp), hr,
        BTree.modifyPage_eq hp]
      exact ht'
    · refine ((Kept.refl t _).setPage ?_ _).trans hk fun j hj => ?_
      · rw [ids_cons]
        exact List.mem_cons_self
      · rw [ids_cons]
        exact List.mem_cons_of_mem _ hj

end Heap

/-! ## 分割 -/

/-- 大きさの条件を満たす heap。 -/
def Small (t : BTree) : Prop := ∀ id p, t.pages id = some p → p.records.length < cardinality

theorem Small.of_agrees {t t' : BTree} {L : Level} (h : Small t) (ha : Agrees t'.pages L)
    (hL : ∀ x ∈ L, x.2.records.length < cardinality)
    (hf : ∀ i ∉ ids L, t'.pages i = t.pages i ∨ t'.pages i = none) : Small t' := by
  intro id p hp
  by_cases hi : id ∈ ids L
  · obtain ⟨x, hx, rfl⟩ := List.mem_map.mp hi
    rw [ha x hx] at hp
    rw [← Option.some.inj hp]
    exact hL x hx
  · rcases hf id hi with h' | h'
    · exact h id p (by rw [← h']; exact hp)
    · rw [h'] at hp
      simp at hp

/-- 一杯の record の列を切る位置。 -/
theorem split_records {rs : List Record} (h : rs.length = cardinality) :
    ∃ ra r rb, rs = ra ++ r :: rb ∧ ra.length = 7 ∧ rb.length = 5 ∧
      rs.drop (rs.length - rs.length / 2) = r :: rb ∧ rs.take (rs.length - rs.length / 2) = ra := by
  have hc : cardinality = 13 := rfl
  have hd : (rs.drop 7).length = 6 := by rw [List.length_drop, h, hc]
  obtain ⟨r, rb, hr⟩ := List.exists_cons_of_length_pos (l := rs.drop 7) (by omega)
  rw [hr, List.length_cons] at hd
  refine ⟨rs.take 7, r, rb, ?_, ?_, by omega, ?_, ?_⟩
  · rw [← hr, List.take_append_drop]
  · rw [List.length_take, h, hc]; decide
  · rw [h, ← hr]; rfl
  · rw [h]; rfl

/-- inner page の `split`。後ろ半分の子の親を新しい page に付け替える。 -/
theorem split_inner {t : BTree} {f : Nat} {pf : Page} {ra rb : List Record} {r : Record}
    {l m u : Level} (hf : t.pages f = some pf) (hi : pf.isLeaf = false)
    (hra : pf.records.take (pf.records.length - pf.records.length / 2) = ra)
    (hrb : pf.records.drop (pf.records.length - pf.records.length / 2) = r :: rb)
    (h : Agrees t.pages (l ++ m ++ u)) (hd : (ids (l ++ m ++ u)).Nodup)
    (hfL : f ∉ ids (l ++ m ++ u)) (hft : f < t.fresh)
    (hb : ∀ i ∈ ids (l ++ m ++ u), i < t.fresh)
    (hids : (r :: rb).map (fun r => r.val) = ids m) :
    ∃ t', t.split f = .ok (t', t.fresh) ∧
      Agrees t'.pages (l ++ setParent t.fresh m ++ u) ∧
      t'.pages f = some (pf.withRecords ra) ∧
      t'.pages t.fresh = some { isLeaf := false, records := r :: rb } ∧
      (∀ i, i ≠ f → i ≠ t.fresh → i ∉ ids m → t'.pages i = t.pages i) ∧
      t'.fresh = t.fresh + 1 ∧ t'.root = t.root ∧ t'.addr = t.addr := by
  let t₁ : BTree := ({ t with fresh := t.fresh + 1 } : BTree).setPage t.fresh
    { isLeaf := false, records := r :: rb }
  let t₂ := t₁.setPage f (pf.withRecords ra)
  have hs : t.fresh ∉ ids (l ++ m ++ u) := fun hm => Nat.lt_irrefl _ (hb _ hm)
  have h₁ : Agrees t₁.pages (l ++ m ++ u) :=
    Agrees.set_other (t := { t with fresh := t.fresh + 1 }) h hs _
  have h₂ : Agrees t₂.pages (l ++ m ++ u) := h₁.set_other hfL _
  obtain ⟨t', ht', hag, hk⟩ := maintainChildren_spec t.fresh h₂ hd hids
  have hfm : f ∉ ids m := fun hm => hfL (by simp [hm])
  have hsm : t.fresh ∉ ids m := fun hm => hs (by simp [hm])
  refine ⟨t', ?_, hag, ?_, ?_, fun i h1 h2 h3 => ?_, hk.fresh, hk.root, hk.addr⟩
  · unfold BTree.split
    rw [BTree.page_eq hf]
    show (if pf.isLeaf = true then _ else _) = _
    rw [if_neg (by rw [hi]; simp)]
    show ((BTree.setPage _ f _).maintainChildren false t.fresh _).bind _ = _
    unfold Page.recordNum
    rw [hra, hrb]
    show (t₂.maintainChildren false t.fresh (r :: rb)).bind _ = _
    rw [ht']
    rfl
  · rw [hk.pages f hfm]
    exact if_pos rfl
  · rw [hk.pages _ hsm]
    show (if t.fresh = f then _ else if t.fresh = t.fresh then _ else _) = _
    rw [if_neg (Nat.ne_of_gt hft), if_pos rfl]
  · rw [hk.pages i h3]
    show (if i = f then _ else if i = t.fresh then _ else _) = _
    rw [if_neg h1, if_neg h2]

/-- 上の段の上に、対応する下の段を置く。 -/
theorem Stack.push {t : BTree} {leaf : Bool} {lower up : Level} {rest : List Level}
    (h : Stack t false up rest) (hk : kids up = parents lower)
    (hsep : Sep leaf (up.recs.map Record.key) lower) (ha : Agrees t.pages lower)
    (hd : (ids lower).Nodup) (hdis : ∀ i ∈ ids lower, i ∉ ids (up ++ rest.flatten))
    (hb : ∀ x ∈ lower, 0 < x.1 ∧ x.1 < t.fresh) (hok : ∀ x ∈ lower, PageOk leaf x.2) :
    Stack t leaf lower (up :: rest) where
  linked := ⟨hk, hsep, h.linked⟩
  heap := by
    intro x hx
    rcases List.mem_append.mp hx with hx | hx
    · exact ha x hx
    · exact h.heap x (by simpa using hx)
  nodup := by
    rw [ids_append, List.flatten_cons, List.nodup_append]
    refine ⟨hd, h.nodup, fun i hi j hj hij => ?_⟩
    exact hdis i hi (by rw [hij]; exact hj)
  bound := by
    intro x hx
    rcases List.mem_append.mp hx with hx | hx
    · exact hb x hx
    · exact h.bound x (by simpa using hx)
  lowerOk := hok
  upperOk := by
    intro x hx
    rw [List.flatten_cons] at hx
    rcases List.mem_append.mp hx with hx | hx
    · exact h.lowerOk x hx
    · exact h.upperOk x hx

/-! ## 親への挿入 -/

/-- page `(o, p₀)` を `(o, po)` と `(n, pn)` に分け終え、上の段には `n` がまだ無い状態。 -/
structure Pending (t : BTree) (leaf : Bool) (A : Level) (o : Nat) (p₀ po : Page) (n : Nat)
    (pn : Page) (B : Level) (uppers : List Level) (key : Key) : Prop where
  linked : Linked t.root leaf (A ++ (o, p₀) :: B) uppers
  heap : Agrees t.pages (A ++ (o, po) :: (n, pn) :: B ++ uppers.flatten)
  nodup : (ids (A ++ (o, po) :: (n, pn) :: B ++ uppers.flatten)).Nodup
  bound : ∀ x ∈ A ++ (o, po) :: (n, pn) :: B ++ uppers.flatten, 0 < x.1 ∧ x.1 < t.fresh
  lowerOk : ∀ x ∈ A ++ (o, po) :: (n, pn) :: B, PageOk leaf x.2
  upperOk : ∀ x ∈ uppers.flatten, PageOk false x.2
  parent : po.parent = p₀.parent
  records : p₀.records = po.records ++ pn.records
  head : ∃ r rs, pn.records = r :: rs ∧ r.key = key
  ordered : leaf = true → p₀.records.Pairwise fun a b => a.key < b.key
  lowerSized : ∀ x ∈ A ++ (o, po) :: (n, pn) :: B, x.2.Filled
  upperSized : ∀ up rest, uppers = up :: rest → Sized false up rest

/-- 段 `lower` と `uppers` の上の操作が終わり、`lower` は親の pointer だけが変わった。 -/
structure Settled (t t' : BTree) (leaf : Bool) (lower : Level) (uppers : List Level)
    (lower' : Level) (uppers' : List Level) : Prop where
  stack : Stack t' leaf lower' uppers'
  sized : Sized leaf lower' uppers'
  strip : strip lower' = strip lower
  frame : ∀ i < t.fresh, i ∉ ids (lower ++ uppers.flatten) → t'.pages i = t.pages i
  newIds : ∀ i ∈ ids (lower' ++ uppers'.flatten), i ∈ ids (lower ++ uppers.flatten) ∨ t.fresh ≤ i
  fresh : t.fresh ≤ t'.fresh
  addr : t.addr = t.root → t'.addr = t'.root
  small : Small t → Small t'

section Parent

variable {t : BTree} {leaf : Bool} {A B : Level} {o n : Nat} {p₀ po pn : Page}
  {uppers : List Level} {key : Key}

/-- 新しい page を指す record を加えた区切りは、分けた段を正しく区切る。 -/
theorem Pending.sep (h : Pending t leaf A o p₀ po n pn B uppers key) {σ₁ σ₂ : List Key} {s : Key}
    (hσ : σ₁.length = A.length) (hs : Sep leaf (σ₁ ++ s :: σ₂) (A ++ (o, p₀) :: B)) :
    Sep leaf (σ₁ ++ s :: key :: σ₂) (A ++ (o, po) :: (n, pn) :: B) := by
  obtain ⟨r, rs, hr, rfl⟩ := h.head
  have hne : po.records ≠ [] := by
    have := (h.lowerSized (o, po) (by simp)).1
    intro hc
    simp [hc] at this
  exact Sep.split hσ (by rw [h.records, hr]) rfl hr hne (fun hl => h.ordered hl) hs

/-- 何も起こらなければ、片付いている。 -/
theorem Settled.refl {lower : Level} (h : Stack t leaf lower uppers)
    (hs : Sized leaf lower uppers) : Settled t t leaf lower uppers lower uppers :=
  ⟨h, hs, rfl, fun _ _ _ => rfl, fun _ hi => Or.inl hi, Nat.le_refl _, id, id⟩

/-- 上の段が片付けば、その下に段 `lower'` を積んだものも片付く。 -/
theorem Settled.push {t₂ t' : BTree} {lower lower' up up' : Level} {rest rest' : List Level}
    (h : Settled t₂ t' false up rest up' rest') (hk : kids up = parents lower')
    (hsep : Sep leaf (up.recs.map Record.key) lower') (hstrip : lower'.strip = lower.strip)
    (hag : Agrees t₂.pages (lower' ++ (up ++ rest.flatten))) (hd : (ids lower').Nodup)
    (hdis : ∀ i ∈ ids lower', i ∉ ids (up ++ rest.flatten))
    (hb : ∀ x ∈ lower', 0 < x.1 ∧ x.1 < t₂.fresh) (hok : ∀ x ∈ lower', PageOk leaf x.2)
    (hfilled : ∀ x ∈ lower', x.2.Filled)
    (hroom : ∀ x ∈ up ++ rest.flatten, x.2.records.length < cardinality)
    (hids : ∀ i, i ∈ ids (up ++ rest.flatten) ↔ i ∈ ids uppers.flatten ∨ t.fresh ≤ i ∧ i < t₂.fresh)
    (hframe : ∀ i, i ∉ ids (lower' ++ (up ++ rest.flatten)) → t₂.pages i = t.pages i)
    (hfresh : t.fresh ≤ t₂.fresh) (haddr : t.addr = t.root → t₂.addr = t₂.root) :
    Settled t t' leaf lower uppers lower' (up' :: rest') where
  stack := by
    -- 上の段の操作は、下の段の page に触れない
    refine h.stack.push (by rw [kids_eq_of_strip h.strip, hk])
      (by rw [recs_eq_of_strip h.strip]; exact hsep) (fun x hx => ?_) hd (fun i hi hm => ?_)
      (fun x hx => ⟨(hb x hx).1, Nat.lt_of_lt_of_le (hb x hx).2 h.fresh⟩) hok
    · rw [h.frame x.1 (hb x hx).2 (hdis x.1 (mem_ids_of_mem hx))]
      exact hag x (List.mem_append_left _ hx)
    · obtain ⟨x, hx, rfl⟩ := List.mem_map.mp hi
      rcases h.newIds _ hm with hm | hm
      · exact hdis _ hi hm
      · exact absurd (hb x hx).2 (Nat.not_lt_of_le hm)
  sized := ⟨hfilled, h.sized⟩
  strip := hstrip
  frame := by
    intro i hi hni
    rw [ids_append, List.mem_append, not_or] at hni
    have hup : i ∉ ids (up ++ rest.flatten) := by
      rw [hids]
      rintro (hm | ⟨hm, -⟩)
      · exact hni.2 hm
      · exact Nat.not_lt_of_le hm hi
    rw [h.frame i (Nat.lt_of_lt_of_le hi hfresh) hup]
    refine hframe i fun hm => ?_
    rw [ids_append, List.mem_append, ids_eq_of_strip hstrip] at hm
    exact hm.elim hni.1 hup
  newIds := by
    intro i hi
    rw [ids_append, List.flatten_cons, List.mem_append, ids_eq_of_strip hstrip] at hi
    rw [ids_append, List.mem_append]
    rcases hi with hi | hi
    · exact Or.inl (Or.inl hi)
    · rcases h.newIds i hi with hi | hi
      · exact ((hids i).mp hi).imp Or.inr And.left
      · exact Or.inr (Nat.le_trans hfresh hi)
  fresh := Nat.le_trans hfresh h.fresh
  addr ha := h.addr (haddr ha)
  small hs := by
    refine h.small (hs.of_agrees hag (fun x hx => ?_) fun i hi => Or.inl (hframe i hi))
    rcases List.mem_append.mp hx with hx | hx
    · exact (hfilled x hx).2
    · exact hroom x hx

/-- 根が分かれたときは、二つの page を子に持つ新しい根を置く。 -/
theorem insertIntoParent_root (h : Pending t leaf A o p₀ po n pn B [] key) (fuel : Nat) :
    ∃ t' lower' uppers', BTree.insertIntoParent (fuel + 1) t o key n = .ok t' ∧
      Settled t t' leaf (A ++ (o, po) :: (n, pn) :: B) [] lower' uppers' := by
  obtain ⟨p, hp, -⟩ := h.linked
  obtain ⟨rfl, rfl, he⟩ := singleton_middle hp
  obtain ⟨rfl, rfl⟩ := Prod.mk.inj he
  have hpo : t.pages t.root = some po := h.heap (t.root, po) (by simp)
  have hpn : t.pages n = some pn := h.heap (n, pn) (by simp)
  have hbo := (h.bound (t.root, po) (by simp)).2
  have hbn := (h.bound (n, pn) (by simp)).2
  have hon : t.root ≠ n := by
    have := h.nodup
    simpa using this
  have hpos := (h.lowerSized (t.root, po) (by simp)).1
  obtain ⟨r₀, rs₀, hr₀⟩ := List.exists_cons_of_length_pos (l := po.records)
    (Nat.lt_of_lt_of_le (by decide) hpos)
  obtain ⟨r, rs, hr, hrk⟩ := h.head
  -- 新しい根は、分けた二つの page だけを子に持つ
  let nr : Page := { isLeaf := false, records := [⟨r₀.key, t.root⟩, ⟨key, n⟩] }
  let t₁ := (((({ t with fresh := t.fresh + 1 } : BTree).setPage t.fresh nr).setPage t.root
    { po with parent := t.fresh }).setPage n { pn with parent := t.fresh }).setNewRoot t.fresh
  have hpages : t₁.pages = fun i => if i = n then some { pn with parent := t.fresh }
      else if i = t.root then some { po with parent := t.fresh }
      else if i = t.fresh then some nr else t.pages i := rfl
  have hag : Agrees t₁.pages [(t.root, { po with parent := t.fresh }),
      (n, { pn with parent := t.fresh }), (t.fresh, nr)] := by
    intro x hx
    rw [hpages]
    simp only [List.mem_cons, List.not_mem_nil, or_false] at hx
    rcases hx with rfl | rfl | rfl
    · simp [hon]
    · simp
    · have h1 : t.fresh ≠ n := Nat.ne_of_gt hbn
      have h2 : t.fresh ≠ t.root := Nat.ne_of_gt hbo
      simp [h1, h2]
  have hone : Sep leaf ([] ++ r₀.key :: []) ([] ++ (t.root, p₀) :: []) :=
    List.pairwise_singleton _ _
  have hsep := h.sep rfl hone
  refine ⟨t₁, [(t.root, { po with parent := t.fresh }), (n, { pn with parent := t.fresh })],
    [[(t.fresh, nr)]], ?_, ?_⟩
  · rw [BTree.insertIntoParent, BTree.page_eq hpo]
    show (if t.root = t.root then _ else _) = _
    rw [if_pos rfl, Page.read_eq (r := r₀) (by decide) (by rw [hr₀]; rfl)]
    show (BTree.modifyPage _ t.root _).bind _ = _
    rw [BTree.modifyPage_eq (p := po)
      (by rw [BTree.setPage_pages, if_neg (Nat.ne_of_lt hbo)]; exact hpo)]
    show (BTree.modifyPage _ n _).bind _ = _
    rw [BTree.modifyPage_eq (p := pn)
      (by rw [BTree.setPage_pages, if_neg (Ne.symm hon), BTree.setPage_pages,
            if_neg (Nat.ne_of_lt hbn)]
          exact hpn)]
    rfl
  · have hpo' := h.lowerOk (t.root, po) (by simp)
    have hpn' := h.lowerOk (n, pn) (by simp)
    have hzo := (h.bound (t.root, po) (by simp)).1
    have hzn := (h.bound (n, pn) (by simp)).1
    have hnr : PageOk false nr := by
      refine ⟨rfl, ?_⟩
      intro x hx
      simp only [nr, List.mem_cons, List.not_mem_nil, or_false] at hx
      rcases hx with rfl | rfl
      · exact Nat.ne_of_gt hzo
      · exact Nat.ne_of_gt hzn
    -- 根だけの段の下に、親を付け替えた二つの page を積む
    have hbase : Settled t₁ t₁ false [(t.fresh, nr)] [] [(t.fresh, nr)] [] := by
      refine .refl ⟨⟨nr, rfl, rfl⟩, fun x hx => hag x ?_, List.nodup_singleton _, fun x hx => ?_,
        fun x hx => ?_, fun x hx => absurd hx List.not_mem_nil⟩ fun x hx => ?_
      · exact List.mem_append_right [_, _] hx
      · obtain rfl := List.mem_singleton.mp hx
        exact ⟨Nat.lt_of_le_of_lt (Nat.zero_le _) hbo, Nat.lt_succ_self _⟩
      · obtain rfl := List.mem_singleton.mp hx
        exact hnr
      · obtain rfl := List.mem_singleton.mp hx
        exact ⟨fun _ => Nat.le_refl 2, show 2 < cardinality by decide⟩
    have hpair {P : Nat × Page → Prop} (h₁ : P (t.root, { po with parent := t.fresh }))
        (h₂ : P (n, { pn with parent := t.fresh })) :
        ∀ x ∈ [(t.root, { po with parent := t.fresh }), (n, { pn with parent := t.fresh })], P x :=
      List.forall_mem_cons.mpr ⟨h₁, List.forall_mem_singleton.mpr h₂⟩
    refine hbase.push rfl (hsep.of_strip rfl) rfl hag (by simp [hon]) (fun i hi hm => ?_)
      (hpair ⟨hzo, Nat.lt_succ_of_lt hbo⟩ ⟨hzn, Nat.lt_succ_of_lt hbn⟩)
      (hpair ⟨hpo'.isLeaf, hpo'.solid⟩ ⟨hpn'.isLeaf, hpn'.solid⟩)
      (hpair (h.lowerSized (t.root, po) (by simp)) (h.lowerSized (n, pn) (by simp)))
      (fun x hx => ?_) (fun i => ?_) (fun i hi => ?_) (Nat.le_succ _) fun _ => rfl
    · obtain rfl := List.mem_singleton.mp hm
      rcases List.mem_pair.mp hi with hi | hi
      · exact Nat.ne_of_gt hbo hi
      · exact Nat.ne_of_gt hbn hi
    · obtain rfl := List.mem_singleton.mp hx
      exact (show 2 < cardinality by decide)
    · show i ∈ [t.fresh] ↔ i ∈ ([] : List Nat) ∨ t.fresh ≤ i ∧ i < t.fresh + 1
      rw [List.mem_singleton]
      simp only [List.not_mem_nil, false_or]
      omega
    · have hi' : i ∉ [t.root, n, t.fresh] := hi
      simp only [List.mem_cons, List.not_mem_nil, or_false, not_or] at hi'
      rw [hpages]
      simp [hi'.1, hi'.2.1, hi'.2.2]

/-- 子を指す record の位置。 -/
theorem findChildRank_eq {pf : Page} {ra rb : List Record} {r : Record} {L : Level} {f o : Nat}
    (hr : pf.records = ra ++ r :: rb) (ho : r.val = o)
    (hra : (ra.map fun r => (r.val, f)) = parents L) (hn : o ∉ ids L) :
    pf.findChildRank o = some ra.length := by
  unfold Page.findChildRank
  rw [hr]
  refine findIdx?_middle (fun c hc => ?_) (by simpa using ho)
  refine decide_eq_false fun hco => hn ?_
  have hm : (c.val, f) ∈ parents L := by
    rw [← hra]
    exact List.mem_map_of_mem hc
  obtain ⟨y, hy, hye⟩ := List.mem_map.mp hm
  rw [← hco, ← (Prod.mk.inj hye).1]
  exact mem_ids_of_mem hy

theorem BTree.setPage_self {i : Nat} {p : Page} (h : t.pages i = some p) : t.setPage i p = t := by
  have : (fun j => if j = i then some p else t.pages j) = t.pages := by
    funext j
    by_cases hj : j = i
    · rw [if_pos hj, hj, h]
    · rw [if_neg hj]
  show { t with pages := _ } = t
  rw [this]

/-- 父の page に新しい record を加えると、段の対応は元に戻る（父があふれることはありうる）。 -/
theorem Pending.join {up : Level} {rest : List Level}
    (h : Pending t leaf A o p₀ po n pn B (up :: rest) key) :
    ∃ U₁ f pf U₂ ra r rb, up = U₁ ++ (f, pf) :: U₂ ∧ pf.records = ra ++ r :: rb ∧
      po.parent = f ∧ t.pages f = some pf ∧ pf.findChildRank o = some ra.length ∧
      n ≠ f ∧
      Stack ((t.setPage n { pn with parent := f }).setPage f
          (pf.withRecords (ra ++ r :: ⟨key, n⟩ :: rb))) leaf
        (A ++ (o, po) :: (n, { pn with parent := f }) :: B)
        ((U₁ ++ (f, pf.withRecords (ra ++ r :: ⟨key, n⟩ :: rb)) :: U₂) :: rest) := by
  obtain ⟨U₁, f, pf, U₂, ra, r, rb, A₁, A₂, B₁, B₂, rfl, hr, rfl, rfl, hv, hf, h₁, h₂, h₃, h₄⟩ :=
    h.linked.focus
  have hpf : t.pages f = some pf := h.heap (f, pf) (by simp)
  have hd := h.nodup
  have hoA : o ∉ ids A₂ := by
    intro hm
    simp only [ids_append, ids_cons, List.flatten_cons, List.append_assoc, List.cons_append] at hd
    have hd' := (List.nodup_append.mp (List.nodup_append.mp hd).2.1).2.2
    exact hd' o hm o (by simp) rfl
  have hnf : n ≠ f := by
    rintro rfl
    rw [ids_append, List.flatten_cons] at hd
    exact (List.nodup_append.mp hd).2.2 n (by simp) n (by simp) rfl
  have hc : ∃ c cs cs', pf.records = c :: cs ∧ ra ++ r :: ⟨key, n⟩ :: rb = c :: cs' := by
    cases ra with
    | nil => exact ⟨r, rb, _, hr, rfl⟩
    | cons c ra => exact ⟨c, _, _, hr, rfl⟩
  obtain ⟨c, cs, cs', hc, hc'⟩ := hc
  have hzn := (h.bound (n, pn) (by simp)).1
  refine ⟨U₁, f, pf, U₂, ra, r, rb, rfl, hr, by rw [h.parent]; exact hf, hpf,
    findChildRank_eq hr hv h₂ hoA, hnf, ⟨⟨?_, ?_, ?_⟩, ?_, ?_, ?_, ?_, ?_⟩⟩
  · have hpo : po.parent = f := by rw [h.parent]; exact hf
    simp [h₁, h₂, h₃, h₄, hv, hpo]
  · have hlen : (recs U₁ ++ ra).length = (A₁ ++ A₂).length := by
      have e1 := congrArg List.length h₁
      have e2 := congrArg List.length h₂
      rw [kids_length, parents_length] at e1
      rw [List.length_map, parents_length] at e2
      rw [List.length_append, List.length_append, e1, e2]
    have hsep := h.linked.2.1
    rw [recs_append, recs_cons] at hsep ⊢
    have hsep' : Sep leaf
        ((recs U₁ ++ ra).map Record.key ++ r.key :: (rb ++ recs U₂).map Record.key)
        ((A₁ ++ A₂) ++ (o, p₀) :: (B₁ ++ B₂)) := by simpa [hr] using hsep
    have hnew := h.sep (by rw [List.length_map]; exact hlen) hsep'
    have hstrip : strip ((A₁ ++ A₂) ++ (o, po) :: (n, pn) :: (B₁ ++ B₂))
        = strip ((A₁ ++ A₂) ++ (o, po) :: (n, { pn with parent := f }) :: (B₁ ++ B₂)) := by simp
    simpa using hnew.of_strip hstrip
  · exact h.linked.2.2.congr_head rfl hc hc'
  · have h1 := Agrees.set (l := A₁ ++ A₂ ++ [(o, po)]) (p := pn)
      (r := B₁ ++ B₂ ++ ((U₁ ++ (f, pf) :: U₂) ++ rest.flatten))
      (by simpa using h.heap) (by simpa using h.nodup) { pn with parent := f }
    have h2 := Agrees.set (t := t.setPage n { pn with parent := f })
      (l := A₁ ++ A₂ ++ (o, po) :: (n, { pn with parent := f }) :: (B₁ ++ B₂) ++ U₁) (p := pf)
      (r := U₂ ++ rest.flatten) (by simpa using h1) (by simpa using h.nodup)
      (pf.withRecords (ra ++ r :: ⟨key, n⟩ :: rb))
    intro x hx
    exact h2 x (by simpa using hx)
  · simpa using h.nodup
  · intro x hx
    show 0 < x.1 ∧ x.1 < t.fresh
    have hb : ∀ i ∈ ids (A₁ ++ A₂ ++ (o, po) :: (n, pn) :: (B₁ ++ B₂)
        ++ ((U₁ ++ (f, pf) :: U₂) :: rest).flatten), 0 < i ∧ i < t.fresh := by
      intro i hi
      obtain ⟨y, hy, rfl⟩ := List.mem_map.mp hi
      exact h.bound y hy
    refine hb x.1 ?_
    have := mem_ids_of_mem hx
    simpa using this
  · intro x hx
    rw [List.mem_append, List.mem_cons, List.mem_cons] at hx
    rcases hx with hx | rfl | rfl | hx
    · exact h.lowerOk x (by simp only [List.mem_append] at hx ⊢; exact Or.inl hx)
    · exact h.lowerOk _ (by simp)
    · have := h.lowerOk (n, pn) (by simp)
      exact ⟨this.isLeaf, this.solid⟩
    · exact h.lowerOk x (List.mem_append_right _
        (List.mem_cons_of_mem _ (List.mem_cons_of_mem _ hx)))
  · refine PageOk.withRecords_flatten h.upperOk fun hsolid c hc => ?_
    rw [List.mem_append, List.mem_cons, List.mem_cons] at hc
    rcases hc with hc | rfl | rfl | hc
    · exact hsolid c (by rw [hr]; simp [hc])
    · exact hsolid c (by rw [hr]; simp)
    · exact Nat.ne_of_gt hzn
    · exact hsolid c (by rw [hr]; simp [hc])

/-- あふれた inner page を分ける。下の段は、後ろ半分の子の親だけが変わる。 -/
theorem Stack.splitUpper {lower U₁ U₂ : Level} {f : Nat} {pf : Page} {rest : List Level}
    (h : Stack t leaf lower ((U₁ ++ (f, pf) :: U₂) :: rest))
    (hlen : pf.records.length = cardinality) :
    ∃ t' ra r rb lower', t.split f = .ok (t', t.fresh) ∧ pf.records = ra ++ r :: rb ∧
      ra.length = 7 ∧ rb.length = 5 ∧ strip lower' = strip lower ∧
      kids (U₁ ++ (f, pf.withRecords ra) ::
        (t.fresh, { isLeaf := false, records := r :: rb }) :: U₂) = parents lower' ∧
      Agrees t'.pages (lower' ++ (U₁ ++ (f, pf.withRecords ra) ::
        (t.fresh, { isLeaf := false, records := r :: rb }) :: U₂) ++ rest.flatten) ∧
      (∀ i, i ≠ t.fresh → i ∉ ids (lower ++ (U₁ ++ (f, pf) :: U₂) ++ rest.flatten) →
        t'.pages i = t.pages i) ∧
      t'.fresh = t.fresh + 1 ∧ t'.root = t.root ∧ t'.addr = t.addr := by
  obtain ⟨ra, r, rb, hr, hla, hlb, hdrop, htake⟩ := split_records hlen
  -- 下の段を、分ける page の子の前半と後半を境に切る
  have hk := h.linked.1
  rw [kids_append, kids_cons, hr, List.map_append] at hk
  obtain ⟨L₁, L', rfl, h₁, h'⟩ := split_parents hk
  rw [List.append_assoc] at h'
  obtain ⟨La, L'', rfl, h₂, h''⟩ := split_parents h'
  obtain ⟨Lb, L₃, rfl, h₃, h₄⟩ := split_parents h''
  have hpf : t.pages f = some pf := h.heap (f, pf) (by simp)
  have hd := h.nodup
  have hids : (r :: rb).map (fun r => r.val) = ids Lb := by
    have := congrArg (List.map Prod.fst) h₃
    simpa [parents, ids, List.map_map, Function.comp_def] using this
  have hsub : ∀ i, i ∈ ids (L₁ ++ La ++ Lb ++ (L₃ ++ (U₁ ++ (U₂ ++ rest.flatten)))) →
      i ≠ f ∧ i < t.fresh := by
    intro i hi
    have hmem : i ∈ ids ((L₁ ++ (La ++ (Lb ++ L₃)))
        ++ ((U₁ ++ (f, pf) :: U₂) :: rest).flatten) := by
      simp only [ids_append, ids_cons, List.flatten_cons, List.mem_append, List.mem_cons] at hi ⊢
      tauto
    obtain ⟨y, hy, rfl⟩ := List.mem_map.mp hmem
    refine ⟨?_, (h.bound y hy).2⟩
    intro hyf
    have hd' : (f :: ids (L₁ ++ La ++ Lb ++ (L₃ ++ (U₁ ++ (U₂ ++ rest.flatten))))).Nodup := by
      have hsplit : ids ((L₁ ++ (La ++ (Lb ++ L₃))) ++ ((U₁ ++ (f, pf) :: U₂) :: rest).flatten)
          = ids (L₁ ++ La ++ Lb ++ (L₃ ++ U₁)) ++ f :: ids (U₂ ++ rest.flatten) := by simp
      rw [hsplit, List.nodup_middle] at hd
      simpa using hd
    rw [hyf] at hi
    exact (List.nodup_cons.mp hd').1 hi
  obtain ⟨t', ht', hag, hpf', hps', hframe, hfr, hroot, haddr⟩ := split_inner (t := t) (f := f)
    (l := L₁ ++ La) (m := Lb) (u := L₃ ++ (U₁ ++ (U₂ ++ rest.flatten))) hpf
    (h.upperOk (f, pf) (by simp)).isLeaf htake hdrop
    (fun x hx => h.heap x (by
      simp only [List.mem_append, List.flatten_cons, List.mem_cons] at hx ⊢
      tauto))
    (by
      refine hd.sublist ?_
      simp only [ids_append, ids_cons, List.flatten_cons, List.append_assoc, List.cons_append]
      refine List.Sublist.append_left (List.Sublist.append_left (List.Sublist.append_left
        (List.Sublist.append_left (List.Sublist.append_left ?_ _) _) _) _) _
      exact List.sublist_cons_self _ _)
    (fun hm => (hsub f hm).1 rfl) (h.bound (f, pf) (by simp)).2 (fun i hi => (hsub i hi).2) hids
  refine ⟨t', ra, r, rb, L₁ ++ La ++ setParent t.fresh Lb ++ L₃, ht', hr, hla, hlb, ?_, ?_, ?_, ?_,
    hfr, hroot, haddr⟩
  · simp [strip_setParent]
  · rw [kids_append, kids_cons, kids_cons, parents_append, parents_append, parents_append,
      ← parents_setParent h₃, ← h₁, ← h₄]
    simp only [Page.withRecords_records, h₂, List.append_assoc]
  · intro x hx
    simp only [List.mem_append, List.mem_cons] at hx
    rcases hx with (((((hx | hx) | hx) | hx)) | (hx | rfl | rfl | hx)) | hx
    · exact hag x (by simp [hx])
    · exact hag x (by simp [hx])
    · exact hag x (by simp [hx])
    · exact hag x (by simp [hx])
    · exact hag x (by simp [hx])
    · exact hpf'
    · exact hps'
    · exact hag x (by simp [hx])
    · exact hag x (by simp only [List.mem_append]; tauto)
  · intro i hi hni
    refine hframe i ?_ hi ?_
    · rintro rfl
      exact hni (by simp)
    · intro hm
      exact hni (by simp [hm])

/-- あふれた page を分けた後の木は、新しい page を親に知らせる前の状態である。 -/
theorem Stack.pending {t₂ : BTree} {B' : Level} {p : Page} {ra rb : List Record} {r : Record}
    (h : Stack t leaf (A ++ (o, p) :: B) uppers)
    (hlinked : Linked t₂.root leaf (A ++ (o, p) :: B') uppers)
    (hag : Agrees t₂.pages (A ++ (o, po) :: (t.fresh, pn) :: B' ++ uppers.flatten))
    (hids : ids B' = ids B) (hfresh : t₂.fresh = t.fresh + 1)
    (hr : p.records = ra ++ r :: rb) (hla : ra.length = 7) (hlb : rb.length = 5)
    (hpo : po.parent = p.parent ∧ po.isLeaf = leaf ∧ po.records = ra)
    (hpn : pn.isLeaf = leaf ∧ pn.records = r :: rb)
    (hord : leaf = true → p.records.Pairwise fun a b => a.key < b.key)
    (hA : ∀ x ∈ A, x.2.Filled) (hB : ∀ x ∈ B', PageOk leaf x.2 ∧ x.2.Filled)
    (hup : ∀ up rest, uppers = up :: rest → Sized false up rest) :
    Pending t₂ leaf A o p po t.fresh pn B' uppers r.key := by
  have hfr : t.fresh ∉ ids (A ++ (o, p) :: B ++ uppers.flatten) := by
    intro hm
    obtain ⟨y, hy, hyf⟩ := List.mem_map.mp hm
    have := (h.bound y hy).2
    omega
  have hmid : ids (A ++ (o, po) :: (t.fresh, pn) :: B' ++ uppers.flatten)
      = (ids A ++ [o]) ++ t.fresh :: (ids B ++ ids uppers.flatten) := by
    simp [hids]
  have hsolid := (h.lowerOk (o, p) (by simp)).solid
  have hroom : 6 ≤ 7 ∧ 7 < cardinality := by decide
  refine ⟨hlinked, hag, ?_, fun x hx => ?_, fun x hx => ?_, h.upperOk, hpo.1, ?_,
    ⟨r, rb, hpn.2, rfl⟩, hord, fun x hx => ?_, hup⟩
  · have := List.nodup_cons.mpr ⟨hfr, h.nodup⟩
    rw [hmid, List.nodup_middle]
    simpa using this
  · have hold : ∀ i ∈ ids (A ++ (o, p) :: B ++ uppers.flatten), 0 < i ∧ i < t.fresh := by
      intro i hi
      obtain ⟨y, hy, rfl⟩ := List.mem_map.mp hi
      exact h.bound y hy
    -- 新しい page の他は、分ける前から載っている
    have ho := hold o (by simp)
    have hx' := mem_ids_of_mem hx
    rw [hmid, List.mem_append, List.mem_cons] at hx'
    rw [hfresh]
    rcases hx' with hx' | hx' | hx'
    · have := hold x.1 (by simpa using Or.imp_right Or.inl (List.mem_append.mp hx'))
      omega
    · omega
    · have := hold x.1 (by simpa using Or.inr (Or.inr (List.mem_append.mp hx')))
      omega
  · rw [List.mem_append, List.mem_cons, List.mem_cons] at hx
    rcases hx with hx | rfl | rfl | hx
    · exact h.lowerOk x (by simp [hx])
    · exact ⟨hpo.2.1, fun c hc => hsolid c (by rw [hr, ← hpo.2.2]; exact List.mem_append_left _ hc)⟩
    · exact ⟨hpn.1, fun c hc => hsolid c (by rw [hr, ← hpn.2]; exact List.mem_append_right _ hc)⟩
    · exact (hB x hx).1
  · rw [hr, hpo.2.2, hpn.2]
  · rw [List.mem_append, List.mem_cons, List.mem_cons] at hx
    rcases hx with hx | rfl | rfl | hx
    · exact hA x hx
    · exact ⟨by rw [hpo.2.2, hla]; exact hroom.1, by rw [hpo.2.2, hla]; exact hroom.2⟩
    · refine ⟨by rw [hpn.2, List.length_cons, hlb], ?_⟩
      rw [hpn.2, List.length_cons, hlb]
      exact Nat.lt_trans (Nat.lt_succ_self 6) hroom.2
    · exact (hB x hx).2

/-- **`insert_into_parent` は、根まで上がって段の積み重ねを直す。** -/
theorem insertIntoParent_spec {uppers : List Level} :
    ∀ {t : BTree} {leaf : Bool} {A B : Level} {o n : Nat} {p₀ po pn : Page} {key : Key}
      {fuel : Nat}, Pending t leaf A o p₀ po n pn B uppers key → uppers.length < fuel →
      ∃ t' lower' uppers', BTree.insertIntoParent fuel t o key n = .ok t' ∧
        Settled t t' leaf (A ++ (o, po) :: (n, pn) :: B) uppers lower' uppers' := by
  induction uppers with
  | nil =>
    intro t leaf A B o n p₀ po pn key fuel h hfuel
    obtain ⟨fuel, rfl⟩ := Nat.exists_eq_succ_of_ne_zero (Nat.ne_of_gt hfuel)
    exact insertIntoParent_root h fuel
  | cons up rest ih =>
    intro t leaf A B o n p₀ po pn key fuel h hfuel
    obtain ⟨fuel, rfl⟩ := Nat.exists_eq_succ_of_ne_zero (Nat.ne_of_gt (Nat.zero_lt_of_lt hfuel))
    obtain ⟨U₁, f, pf, U₂, ra, r, rb, rfl, hr, hpar, hpf, hrank, hnf, hst⟩ := h.join
    have hsz := h.upperSized _ _ rfl
    have hpo : t.pages o = some po := h.heap (o, po) (by simp)
    have hpn : t.pages n = some pn := h.heap (n, pn) (by simp)
    -- 根は上の段に在るので、下の段の page ではない
    have hroot : o ≠ t.root := h.linked.ne_root h.nodup (by simp)
    have hroom : pf.records.length < cardinality := hsz.room (f, pf) (by simp)
    have hins : pf.insertPair (ra.length + 1) key n
        = .ok (pf.withRecords (ra ++ r :: ⟨key, n⟩ :: rb)) := by
      have := Page.insertPair_middle (p := pf) (a := ra ++ [r]) (b := rb) (by simp [hr]) hroom key n
      simpa using this
    have hstep : BTree.insertIntoParent (fuel + 1) t o key n
        = (let t₂ := (t.setPage n { pn with parent := f }).setPage f
            (pf.withRecords (ra ++ r :: ⟨key, n⟩ :: rb))
          if cardinality ≤ (ra ++ r :: ⟨key, n⟩ :: rb).length then do
            let s ← t₂.split f
            let sib ← s.1.page s.2
            let first ← sib.read 0
            BTree.insertIntoParent fuel s.1 f first.key s.2
          else t₂.modifyPage n fun q => { q with parent := f }) := by
      rw [BTree.insertIntoParent, BTree.page_eq hpo]
      show (if o = t.root then _ else _) = _
      rw [if_neg hroot, hpar, BTree.page_eq hpf]
      show (t.modifyPage n _).bind _ = _
      rw [BTree.modifyPage_eq hpn, hrank]
      show (pf.insertPair (ra.length + 1) key n).bind _ = _
      rw [hins]
      rfl
    have hpages : ∀ i, i ≠ n → i ≠ f → ((t.setPage n { pn with parent := f }).setPage f
        (pf.withRecords (ra ++ r :: ⟨key, n⟩ :: rb))).pages i = t.pages i := by
      intro i hi hif
      rw [BTree.setPage_pages, if_neg hif, BTree.setPage_pages, if_neg hi]
    rw [hstep]
    clear hstep
    generalize ht₂ : (t.setPage n { pn with parent := f }).setPage f
      (pf.withRecords (ra ++ r :: ⟨key, n⟩ :: rb)) = t₂ at hst hpages
    have hf₂ : t₂.fresh = t.fresh := by rw [← ht₂]; rfl
    have hr₂ : t₂.root = t.root := by rw [← ht₂]; rfl
    have ha₂ : t₂.addr = t.addr := by rw [← ht₂]; rfl
    dsimp only
    have hlow : ∀ x ∈ A ++ (o, po) :: (n, { pn with parent := f }) :: B, x.2.Filled := by
      intro x hx
      rw [List.mem_append, List.mem_cons, List.mem_cons] at hx
      rcases hx with hx | rfl | rfl | hx
      · exact h.lowerSized x (by simp [hx])
      · exact h.lowerSized _ (by simp)
      · exact h.lowerSized (n, pn) (by simp)
      · exact h.lowerSized x (by simp [hx])
    have hrecs : pf.records.length + 1 = (ra ++ r :: ⟨key, n⟩ :: rb).length := by
      rw [hr]
      simp
      omega
    have hout : ∀ i, i ∉ ids (A ++ (o, po) :: (n, pn) :: B
        ++ ((U₁ ++ (f, pf) :: U₂) :: rest).flatten) → t₂.pages i = t.pages i := by
      intro i hi
      refine hpages i ?_ ?_
      · rintro rfl
        exact hi (by simp)
      · rintro rfl
        exact hi (by simp)
    by_cases hfull : cardinality ≤ (ra ++ r :: ⟨key, n⟩ :: rb).length
    · obtain ⟨t₃, ra', r', rb', lower', hsplit, hr', hla, hlb, hstrip, hkids, hag, hframe, hf₃, hr₃,
        ha₃⟩ := hst.splitUpper (Nat.le_antisymm (by rw [Page.withRecords_records]; omega) hfull)
      generalize hpf' : pf.withRecords (ra ++ r :: ⟨key, n⟩ :: rb) = pf' at *
      have hup := hst.upper
      have hbeside := h.linked.2.2.filled_beside hsz
      have hag' := List.append_assoc lower' _ rest.flatten ▸ hag
      have hpend := hup.pending (by rw [hr₃]; exact hup.linked)
        (fun x hx => hag' x (List.mem_append_right _ hx)) rfl hf₃ hr' hla hlb
        ⟨rfl, (hup.lowerOk (f, pf') (by simp)).isLeaf, rfl⟩ ⟨rfl, rfl⟩
        (fun hl => absurd hl Bool.false_ne_true)
        (fun x hx => hbeside x (List.mem_append_left _ hx))
        (fun x hx => ⟨hup.lowerOk x (by simp [hx]), hbeside x (List.mem_append_right _ hx)⟩)
        fun u rest' hrest => by rw [hrest] at hsz; exact hsz.2
      obtain ⟨t', up', rest', hcall, hset⟩ := ih hpend (Nat.lt_of_succ_lt_succ hfuel)
      have hids' := ids_eq_of_strip hstrip
      have hd := hst.nodup
      rw [ids_append, ← hids'] at hd
      have hbound : ∀ i ∈ ids lower', 0 < i ∧ i < t₂.fresh := by
        intro i hi
        rw [hids'] at hi
        obtain ⟨y, hy, rfl⟩ := List.mem_map.mp hi
        exact hst.bound y (List.mem_append_left _ hy)
      -- 上の段に増えた page は `t₂.fresh` だけである
      have hnew : ∀ i, i ∈ ids ((U₁ ++ (f, pf'.withRecords ra') ::
          (t₂.fresh, { isLeaf := false, records := r' :: rb' }) :: U₂) ++ rest.flatten) ↔
          i ∈ ids ((U₁ ++ (f, pf) :: U₂) :: rest).flatten ∨ i = t₂.fresh := by
        intro i
        simp only [ids_append, ids_cons, List.flatten_cons, List.mem_append, List.mem_cons]
        tauto
      refine ⟨t', lower', up' :: rest', ?_, hset.push hkids ?_ ?_ hag'
        (List.nodup_append.mp hd).1 ?_ (fun x hx => ?_) (PageOk.of_strip hstrip.symm hst.lowerOk)
        (Page.Filled.of_strip hstrip.symm hlow) ?_ ?_ ?_ (by omega) fun ha => ?_⟩
      · rw [if_pos hfull, hsplit]
        show (t₃.page t₂.fresh).bind _ = _
        rw [BTree.page_eq (hag (t₂.fresh, { isLeaf := false, records := r' :: rb' }) (by simp))]
        exact hcall
      · have hrecs : recs (U₁ ++ (f, pf'.withRecords ra') ::
            (t₂.fresh, { isLeaf := false, records := r' :: rb' }) :: U₂)
            = recs (U₁ ++ (f, pf') :: U₂) := by
          simp [hr']
        rw [hrecs]
        exact hst.linked.2.1.of_strip hstrip.symm
      · rw [hstrip]
        simp
      · intro i hi hm
        rcases (hnew i).mp hm with hm | rfl
        · exact (List.nodup_append.mp hd).2.2 i hi i (by simpa using hm) rfl
        · exact Nat.lt_irrefl _ (hbound _ hi).2
      · have := hbound x.1 (mem_ids_of_mem hx)
        omega
      · intro x hx
        rcases List.mem_append.mp hx with hx | hx
        · exact (hpend.lowerSized x hx).2
        · cases rest with
          | nil => simp at hx
          | cons u rest => exact hsz.2.room_all x (by simpa using hx)
      · intro i
        rw [hnew]
        refine or_congr_right ?_
        omega
      · intro i hi
        rw [ids_append, List.mem_append, hnew, hids', not_or, not_or] at hi
        rw [hframe i hi.2.2 ?_, hout i ?_]
        · rw [ids_append, List.mem_append, not_or]
          exact ⟨by simpa using hi.1, hi.2.1⟩
        · rw [List.append_assoc, ids_append, List.mem_append, not_or]
          exact ⟨hi.1, by simpa using hi.2.1⟩
      · rw [ha₃, hr₃, ha₂, hr₂, ha]
    · rw [if_neg hfull, BTree.modifyPage_eq (hst.heap (n, { pn with parent := f }) (by simp)),
        BTree.setPage_self (hst.heap (n, { pn with parent := f }) (by simp))]
      have hsz' : Sized false (U₁ ++ (f, pf.withRecords (ra ++ r :: ⟨key, n⟩ :: rb)) :: U₂) rest :=
        hsz.grow (by rw [Page.withRecords_records]; omega) (Nat.lt_of_not_le hfull)
      refine ⟨t₂, _, _, rfl, hst, ⟨hlow, hsz'⟩, by simp, fun i _ hi => hout i hi, ?_,
        Nat.le_of_eq hf₂.symm, ?_, ?_⟩
      · intro i hi
        exact Or.inl (by simpa using hi)
      · intro ha
        rw [ha₂, hr₂, ha]
      · intro hsmall
        have hsized : Sized leaf (A ++ (o, po) :: (n, { pn with parent := f }) :: B)
            ((U₁ ++ (f, pf.withRecords (ra ++ r :: ⟨key, n⟩ :: rb)) :: U₂) :: rest) := ⟨hlow, hsz'⟩
        refine hsmall.of_agrees hst.heap hsized.room_all fun i hi => ?_
        exact Or.inl (hout i (by simpa using hi))

end Parent

end Plin
