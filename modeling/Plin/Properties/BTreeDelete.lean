import Plin.Properties.BTreeRebalance

/-!
# B+ 木からの削除

`delete_entry` の後始末 `coalesce_or_redistribute` は、減った page から親へと上がっていく。
段についての帰納法で、段の積み重ねが保たれることを示す。

ただし無条件ではない。source の再配置には二つの穴がある。

* 併合は合計が `cardinality` **以下**なら行われるので、ちょうど `cardinality` 個の page ができる。
* 左隣の inner page から借りるとき、末尾の record を鍵で探して消す。左端の page の 0 番目の
  鍵は古いことがあるので、探索が 0 番目で止まりうる。

どちらも起きないという条件を、操作の前の木の上の述語 `rebalanceSafe` として述べる。
-/

namespace Plin

open Infra Level

/-! ## 条件 -/

/--
page `node` の record が `n` 個になった後の再配置で、上の二つの穴に落ちない。

併合が起きる段では、父についても同じことを求める。
-/
def BTree.rebalanceSafe (t : BTree) : Nat → Nat → Nat → Bool
  | 0, _, _ => false
  | fuel + 1, node, n =>
    if node = t.root then true
    else if (cardinality + 1) / 2 ≤ n then true
    else
      match t.pages node with
      | none => false
      | some p =>
        match t.pages p.parent with
        | none => false
        | some f =>
          match f.findChildRank node with
          | none => false
          | some index =>
            match (f.records[if index = 0 then 1 else index - 1]?).bind fun r => t.pages r.val with
            | none => false
            | some nb =>
              if cardinality + 1 ≤ n + nb.recordNum then
                index = 0 || nb.isLeaf ||
                  match nb.records.head?, nb.records.getLast? with
                  | some a, some b => decide (a.key < b.key)
                  | _, _ => false
              else decide (n + nb.recordNum < cardinality) &&
                t.rebalanceSafe fuel p.parent (f.recordNum - 1)

/-- 鍵を一つ消した後の再配置が安全である。 -/
def BTree.deleteSafe (t : BTree) (key : Key) : Bool :=
  match t.findLeafPage key with
  | .error _ => false
  | .ok id =>
    match t.pages id with
    | none => false
    | some leaf => t.rebalanceSafe t.fresh id (leaf.recordNum - 1)

/-- 同じ条件を段の上で述べたもの。隣の page と父は、この中で選ばれている。 -/
def RebOk (leaf : Bool) (n : Nat) (A : Level) (x : Nat × Page) (B : Level) : List Level → Prop
  | [] => True
  | up :: rest => (cardinality + 1) / 2 ≤ n ∨
    (∃ y B' V₁ g pg V₂ r r' rb, B = y :: B' ∧ up = V₁ ++ (g, pg) :: V₂ ∧
      pg.records = r :: r' :: rb ∧ Adjacent A x.1 x.2 y.1 y.2 B' V₁ g [] r r' rb V₂ ∧
      (n + y.2.records.length < cardinality + 1 → n + y.2.records.length < cardinality ∧
        RebOk false (pg.records.length - 1) V₁ (g, pg) V₂ rest)) ∨
    ∃ A' y V₁ g pg V₂ ra r' r rb, A = A' ++ [y] ∧ up = V₁ ++ (g, pg) :: V₂ ∧
      pg.records = ra ++ r' :: r :: rb ∧ Adjacent A' y.1 y.2 x.1 x.2 B V₁ g ra r' r rb V₂ ∧
      (cardinality + 1 ≤ n + y.2.records.length → leaf = true ∨
        ∃ c cs d, y.2.records = c :: cs ++ [d] ∧ c.key < d.key) ∧
      (n + y.2.records.length < cardinality + 1 → n + y.2.records.length < cardinality ∧
        RebOk false (pg.records.length - 1) V₁ (g, pg) V₂ rest)

theorem RebOk.congr {leaf : Bool} {n : Nat} {A B : Level} {x x' : Nat × Page}
    {uppers : List Level} (h : RebOk leaf n A x B uppers) (hi : x.1 = x'.1)
    (hp : x.2.parent = x'.2.parent) : RebOk leaf n A x' B uppers := by
  cases uppers with
  | nil => trivial
  | cons up rest =>
    rcases h with h | ⟨y, B', V₁, g, pg, V₂, r, r', rb, hB, hup, hpg, hadj, hr⟩ |
      ⟨A', y, V₁, g, pg, V₂, ra, r', r, rb, hA, hup, hpg, hadj, hr⟩
    · exact Or.inl h
    · refine Or.inr (Or.inl ⟨y, B', V₁, g, pg, V₂, r, r', rb, hB, hup, hpg, ?_, hr⟩)
      exact ⟨hadj.left, hadj.right, hi ▸ hadj.vali, hadj.valj, hp ▸ hadj.parenti, hadj.parentj⟩
    · refine Or.inr (Or.inr ⟨A', y, V₁, g, pg, V₂, ra, r', r, rb, hA, hup, hpg, ?_, hr⟩)
      exact ⟨hadj.left, hadj.right, hadj.vali, hi ▸ hadj.valj, hadj.parenti, hp ▸ hadj.parentj⟩

/-! ## 区切りの整列 -/

/-- 先頭を除いて鍵が狭義に増える。先頭の鍵は古いことがある。 -/
def TailSorted (rs : List Record) : Prop := (rs.tail.map Record.key).Pairwise (· < ·)

theorem pairwise_fst_of_sep {l : List (Key × List Record)} (h : l.Pairwise (SepRel true))
    (h₁ : ∀ a ∈ l, a.2 ≠ [] ∧ ∀ r ∈ a.2, a.1 ≤ r.key) : (l.map Prod.fst).Pairwise (· < ·) := by
  rw [List.pairwise_map]
  refine h.imp_of_mem fun {a b} ha _ hab => ?_
  obtain ⟨r, rs, hr⟩ := List.exists_cons_of_ne_nil (h₁ a ha).1
  have hm : r ∈ a.2 := by rw [hr]; simp
  exact lt_of_le_of_lt ((h₁ a ha).2 r hm) (hab.1 r hm)

theorem sublist_of_sep {σ : List Key} {L : Level} (hlen : σ.length = L.length)
    (h : ∀ a ∈ σ.zip (L.map fun x => x.2.records), ∃ r rs, a.2 = r :: rs ∧ r.key = a.1) :
    σ.Sublist ((recs L).map Record.key) := by
  induction L generalizing σ with
  | nil =>
    obtain rfl : σ = [] := List.length_eq_zero_iff.mp hlen
    exact List.Sublist.refl _
  | cons x L ih =>
    cases σ with
    | nil => simp at hlen
    | cons s σ =>
      rw [List.map_cons, List.zip_cons_cons] at h
      obtain ⟨r, rs, hr, hk⟩ := h _ List.mem_cons_self
      rw [recs_cons, show x.2.records = r :: rs from hr, List.cons_append, List.map_cons, hk]
      refine List.Sublist.cons_cons _ ?_
      rw [List.map_append]
      refine (ih (by simpa using hlen) fun a ha => h a (List.mem_cons_of_mem _ ha)).trans ?_
      exact List.sublist_append_right _ _

/-- 上の段の区切りは、先頭を除いて狭義に増える。 -/
theorem Linked.tailSorted {root : Nat} {leaf : Bool} {L up : Level} {rest : List Level}
    (h : Linked root leaf L (up :: rest)) (hne : ∀ x ∈ L, x.2.records ≠ [])
    (ht : leaf = false → TailSorted (recs L)) : TailSorted (recs up) := by
  have hlen := h.length_eq
  have hsep := h.2.1
  unfold TailSorted
  rw [List.map_tail]
  generalize (recs up).map Record.key = σ at hlen hsep
  cases L with
  | nil =>
    obtain rfl : σ = [] := List.length_eq_zero_iff.mp hlen
    exact List.Pairwise.nil
  | cons x L =>
    cases σ with
    | nil => simp at hlen
    | cons s σ =>
      rw [List.tail_cons]
      unfold Sep at hsep
      rw [List.map_cons, List.zip_cons_cons] at hsep
      obtain ⟨hx, hL⟩ := List.pairwise_cons.mp hsep
      have hlen' : σ.length = (L.map fun x => x.2.records).length := by simpa using hlen
      cases leaf with
      | true =>
        have := pairwise_fst_of_sep hL fun a ha => by
          refine ⟨?_, (hx a ha).2⟩
          obtain ⟨y, hy, hya⟩ := List.mem_map.mp (List.of_mem_zip ha).2
          rw [← hya]
          exact hne y (by simp [hy])
        rwa [List.map_fst_zip (Nat.le_of_eq hlen')] at this
      | false =>
        have hsub := sublist_of_sep (by simpa using hlen) fun a ha => hx a ha
        have hs := ht rfl
        obtain ⟨c, cs, hc⟩ := List.exists_cons_of_ne_nil (hne x (by simp))
        unfold TailSorted at hs
        rw [recs_cons, hc, List.cons_append, List.tail_cons, List.map_append] at hs
        exact (List.pairwise_append.mp hs).2.1.sublist hsub

/-- 段の途中の page の、先頭を除く部分も狭義に増える。 -/
theorem TailSorted.page {A B : Level} {x : Nat × Page} (h : TailSorted (recs (A ++ x :: B))) :
    TailSorted x.2.records := by
  unfold TailSorted at h ⊢
  rw [recs_append, recs_cons] at h
  refine h.sublist (List.Sublist.map _ ?_)
  cases hA : recs A with
  | nil =>
    cases hx : x.2.records with
    | nil => exact List.nil_sublist _
    | cons c cs => exact List.sublist_append_left _ _
  | cons a as =>
    rw [List.cons_append, List.tail_cons]
    refine List.Sublist.trans (List.tail_sublist _) ?_
    exact (List.sublist_append_left _ _).trans (List.sublist_append_right _ _)

/-! ## 再配置 -/

/-- `S` の外の page に触れない変化。 -/
structure Calm (t t' : BTree) (S : List Nat) : Prop where
  pages : ∀ i ∉ S, t'.pages i = t.pages i
  fresh : t'.fresh = t.fresh
  addr : t.addr = t.root → t'.addr = t'.root
  small : Small t → Small t'

theorem Calm.trans {t t₁ t₂ : BTree} {S S' : List Nat} (h : Calm t t₁ S) (h' : Calm t₁ t₂ S')
    (hs : ∀ i ∈ S', i ∈ S) : Calm t t₂ S where
  pages i hi := by rw [h'.pages i fun hm => hi (hs i hm), h.pages i hi]
  fresh := by rw [h'.fresh, h.fresh]
  addr ha := h'.addr (h.addr ha)
  small hm := h'.small (h.small hm)

theorem Calm.refl (t : BTree) (S : List Nat) : Calm t t S := ⟨fun _ _ => rfl, rfl, id, id⟩

/-- page `x` の record が足りないかもしれない段。 -/
structure Lacking (t : BTree) (leaf : Bool) (C A : Level) (x : Nat × Page) (B : Level)
    (uppers : List Level) : Prop where
  zone : Zone t leaf C (A ++ x :: B) uppers
  room : x.2.records.length < cardinality
  rootMin : uppers = [] → leaf = false → 1 ≤ x.2.records.length
  min : uppers ≠ [] → 5 ≤ x.2.records.length
  side : ∀ y ∈ A ++ B, y.2.Filled
  upper : ∀ up rest, uppers = up :: rest → Sized false up rest
  safe : RebOk leaf x.2.records.length A x B uppers
  ordered : leaf = true → (recs (A ++ x :: B)).Pairwise fun a b => a.key < b.key
  tail : leaf = false → TailSorted (recs (A ++ x :: B))
  chained : leaf = true → Chained 0 (A ++ x :: B)

/-- 再配置の結果。根の段が一つ減ることがあり、そのとき子の段が根の段になる。 -/
def Outcome (t' : BTree) (leaf : Bool) (L : Level) (uppers : List Level) (C' : Level) : Prop :=
  (∃ L' uppers', Zone t' leaf C' L' uppers' ∧ Sized leaf L' uppers' ∧ recs L' = recs L ∧
    (leaf = true → Chained 0 L') ∧
    ∀ i ∈ ids (L' ++ uppers'.flatten), i ∈ ids (L ++ uppers.flatten)) ∨
  (leaf = false ∧ ∃ c q, C' = [(c, q)] ∧ t'.root = c ∧ q.parent = 0 ∧ t'.pages c = some q)

section Rebalance

variable {t t' : BTree} {leaf : Bool} {C C' A B L L' up : Level} {x : Nat × Page}
  {uppers rest : List Level}

theorem Zone.ne_root {i : Nat} (z : Zone t leaf C L (up :: rest)) (hi : i ∈ ids L) :
    i ≠ t.root := by
  have hd := z.nodup
  rw [ids_append] at hd
  exact z.linked.ne_root (List.nodup_append.mp hd).2.1 hi

theorem Zone.upward (z : Zone t leaf C L (up :: rest)) : Zone t false L up rest where
  linked := z.linked.2.2
  below := z.linked.1
  heap := fun x hx => z.heap x (List.mem_append_right _ (by simpa using hx))
  nodup := by
    have := z.nodup
    rw [ids_append] at this
    simpa using (List.nodup_append.mp this).2.1
  bound := fun i hi => z.bound i (by
    rw [ids_append]
    exact List.mem_append_right _ (by simpa using hi))
  lowerOk := fun x hx => z.upperOk x (by simp [hx])
  upperOk := fun x hx => z.upperOk x (by
    rw [List.flatten_cons]
    exact List.mem_append_right _ hx)

/-- 父の段の再配置を終えてから、元の段の積み重ねに戻す。 -/
theorem Zone.reassemble {t₁ : BTree} {L₁ : Level} (z : Zone t leaf C L (up :: rest))
    (hsz : ∀ x ∈ L, x.2.Filled) (hstrip : strip L₁ = strip L)
    (hcalm : Calm t t₁ (ids (L ++ (up ++ rest.flatten))))
    (ho : Outcome t₁ false up rest L₁) :
    ∃ uppers', Zone t₁ leaf C L₁ uppers' ∧ Sized leaf L₁ uppers' ∧
      ∀ i ∈ ids (L₁ ++ uppers'.flatten), i ∈ ids (L ++ (up :: rest).flatten) := by
  have hids := ids_eq_of_strip hstrip
  have hL₁ok := PageOk.of_strip hstrip.symm z.lowerOk
  have hL₁sz := Page.Filled.of_strip hstrip.symm hsz
  have hbelow : Below leaf L₁ C := by
    cases leaf with
    | true => exact z.below
    | false =>
      show kids L₁ = parents C
      rw [kids_eq_of_strip hstrip]
      exact z.below
  have hnd := z.nodup
  rw [ids_append] at hnd
  obtain ⟨hndC, -, hdis⟩ := List.nodup_append.mp hnd
  -- 子の段には触れていない
  have hC : Agrees t₁.pages C := by
    intro y hy
    rw [hcalm.pages y.1]
    · exact z.heap y (List.mem_append_left _ hy)
    · intro hm
      exact hdis y.1 (mem_ids_of_mem hy) y.1 (by simpa using hm) rfl
  have build : ∀ uppers', Linked t₁.root leaf L₁ uppers' →
      Agrees t₁.pages (L₁ ++ uppers'.flatten) → (ids (L₁ ++ uppers'.flatten)).Nodup →
      (∀ i ∈ ids (L₁ ++ uppers'.flatten), i ∈ ids (L ++ (up :: rest).flatten)) →
      (∀ y ∈ uppers'.flatten, PageOk false y.2) → Zone t₁ leaf C L₁ uppers' := by
    intro uppers' hlink hag hnd' hsub hok
    refine ⟨hlink, hbelow, ?_, ?_, ?_, hL₁ok, hok⟩
    · intro y hy
      rcases List.mem_append.mp hy with hy | hy
      · exact hC y hy
      · exact hag y hy
    · rw [ids_append, List.nodup_append]
      exact ⟨hndC, hnd', fun i hi j hj hij => hdis i hi j (hsub j hj) hij⟩
    · intro i hi
      rw [hcalm.fresh]
      refine z.bound i ?_
      rw [ids_append, List.mem_append] at hi ⊢
      exact hi.imp id (hsub i)
  rcases ho with ⟨up', rest', z', hs', hrecs, -, hsub⟩ | ⟨-, c, q, rfl, hroot, hpar, hpage⟩
  · refine ⟨up' :: rest', build _ ?_ ?_ ?_ ?_ ?_, ⟨hL₁sz, hs'⟩, ?_⟩
    · refine ⟨z'.below, ?_, z'.linked⟩
      rw [hrecs]
      exact z.linked.2.1.of_strip hstrip.symm
    · intro y hy
      exact z'.heap y (by simpa using hy)
    · simpa using z'.nodup
    · intro i hi
      rw [ids_append, List.mem_append, hids, List.flatten_cons] at hi
      rw [ids_append, List.mem_append, List.flatten_cons]
      exact hi.imp id (hsub i)
    · intro y hy
      rw [List.flatten_cons, List.mem_append] at hy
      rcases hy with hy | hy
      · exact z'.lowerOk y hy
      · exact z'.upperOk y hy
    · intro i hi
      rw [ids_append, List.mem_append, hids, List.flatten_cons] at hi
      rw [ids_append, List.mem_append, List.flatten_cons]
      exact hi.imp id (hsub i)
  · have hsub : ∀ i ∈ ids ([(c, q)] ++ ([] : List Level).flatten),
        i ∈ ids (L ++ (up :: rest).flatten) := by
      intro i hi
      have : i ∈ ids [(c, q)] := by simpa using hi
      rw [hids] at this
      rw [ids_append]
      exact List.mem_append_left _ this
    refine ⟨[], build [] ⟨q, by rw [hroot], hpar⟩ ?_ (by simp) hsub (by simp), ?_, hsub⟩
    · intro y hy
      obtain rfl : y = (c, q) := by simpa using hy
      exact hpage
    · intro y hy
      have := hL₁sz y hy
      exact ⟨fun _ => Nat.le_trans (by decide) this.1, this.2⟩

/-- 大きさの条件は、触れなかった page から引き継がれる。 -/
theorem Small.room {L : Level} (h : Small t) (ha : Agrees t.pages L) :
    ∀ x ∈ L, x.2.records.length < cardinality := fun x hx => h x.1 x.2 (ha x hx)

/-- 何もしなくてよい場合。 -/
theorem Lacking.done (h : Lacking t leaf C A x B uppers)
    (hs : Sized leaf (A ++ x :: B) uppers) : Outcome t leaf (A ++ x :: B) uppers C :=
  Or.inl ⟨_, _, h.zone, hs, rfl, h.chained, fun _ hi => hi⟩

/-- 根では `adjust_root` を行う。 -/
theorem rebalance_root (h : Lacking t leaf C A x B []) (fuel : Nat) :
    ∃ t' C', BTree.coalesceOrRedistribute (fuel + 1) t x.1 = .ok t' ∧ strip C' = strip C ∧
      Calm t t' (ids (C ++ ((A ++ x :: B) ++ ([] : List Level).flatten))) ∧
      Outcome t' leaf (A ++ x :: B) [] C' := by
  obtain ⟨p, hp, hpar⟩ := h.zone.linked
  obtain ⟨rfl, rfl, rfl⟩ := singleton_middle hp
  have hpage : t.pages t.root = some p := h.zone.heap (t.root, p) (by simp)
  have hok : PageOk leaf p := h.zone.lowerOk (t.root, p) (by simp)
  have hcall : BTree.coalesceOrRedistribute (fuel + 1) t t.root = t.adjustRoot t.root := by
    rw [BTree.coalesceOrRedistribute, if_pos rfl]
  have hadj : t.adjustRoot t.root = (if p.isLeaf ∧ p.recordNum = 0 then
      t.modifyPage t.root fun q => { q with isDeleted := true }
    else if ¬ p.isLeaf ∧ p.recordNum = 1 then do
      let r ← p.read 0
      let t ← t.modifyPage r.val fun q => { q with parent := 0 }
      return t.setNewRoot r.val
    else return t) := by
    unfold BTree.adjustRoot
    rw [BTree.page_eq hpage]
    rfl
  rw [hcall, hadj]
  cases leaf with
  | true =>
    have hsz : ∀ q : Page, q.records = p.records → Sized true [(t.root, q)] [] := by
      intro q hq y hy
      obtain rfl : y = (t.root, q) := by simpa using hy
      exact ⟨by simp, by rw [hq]; exact h.room⟩
    -- 空になった根の leaf は、印を付けて残す
    by_cases h0 : p.recordNum = 0
    · let p' : Page := { p with isDeleted := true }
      have hag := Agrees.set (t := t) (l := C) (r := []) (by simpa using h.zone.heap)
        (by simpa using h.zone.nodup) p'
      refine ⟨t.setPage t.root p', C, by rw [if_pos ⟨hok.isLeaf, h0⟩, BTree.modifyPage_eq hpage],
        rfl, ⟨fun i hi => ?_, rfl, fun ha => ha, fun hm => ?_⟩,
        Or.inl ⟨[(t.root, p')], [], ⟨⟨p', rfl, hpar⟩, h.zone.below, by simpa using hag,
          by simpa using h.zone.nodup, ?_, ?_, by simp⟩, hsz p' rfl, rfl, ?_, ?_⟩⟩
      · rw [BTree.setPage_pages, if_neg]
        rintro rfl
        exact hi (by simp)
      · intro i q hq
        rw [BTree.setPage_pages] at hq
        split at hq
        · rw [← Option.some.inj hq]
          exact h.room
        · exact hm i q hq
      · intro i hi
        exact h.zone.bound i (by simpa using hi)
      · intro y hy
        obtain rfl : y = (t.root, p') := by simpa using hy
        exact ⟨hok.isLeaf, hok.solid⟩
      · intro _
        have := h.chained rfl
        exact ⟨this.1, this.2.1, trivial⟩
      · intro i hi
        simpa using hi
    · refine ⟨t, C, ?_, rfl, Calm.refl _ _, h.done (hsz p rfl)⟩
      rw [if_neg (fun hc => h0 hc.2), if_neg (fun hc => hc.1 hok.isLeaf)]
      rfl
  | false =>
    have hl : ¬ p.isLeaf = true := by rw [hok.isLeaf]; simp
    rw [if_neg (fun hc => hl hc.1)]
    -- 子が一つだけの根は捨て、その子を根にする
    by_cases h1 : p.recordNum = 1
    · obtain ⟨r, hr⟩ := List.length_eq_one_iff.mp h1
      have hk : kids [(t.root, p)] = parents C := h.zone.below
      rw [kids_cons, kids_nil, List.append_nil, hr] at hk
      obtain ⟨⟨c, q⟩, C₀, rfl, hc, hC₀⟩ := List.map_eq_cons_iff.mp hk.symm
      obtain rfl : C₀ = [] := List.map_eq_nil_iff.mp hC₀
      obtain ⟨rfl, -⟩ := Prod.mk.inj hc
      have hq : t.pages r.val = some q := h.zone.heap (r.val, q) (by simp)
      refine ⟨(t.setPage r.val { q with parent := 0 }).setNewRoot r.val,
        [(r.val, { q with parent := 0 })], ?_, rfl,
        ⟨fun i hi => ?_, rfl, fun _ => rfl, fun hm => ?_⟩,
        Or.inr ⟨rfl, r.val, { q with parent := 0 }, rfl, rfl, rfl, if_pos rfl⟩⟩
      · rw [if_pos ⟨hl, h1⟩, Page.read_eq (r := r) (by decide) (by rw [hr]; rfl)]
        show (t.modifyPage r.val _).bind _ = _
        rw [BTree.modifyPage_eq hq]
        rfl
      · show (if i = r.val then _ else t.pages i) = _
        rw [if_neg]
        rintro rfl
        exact hi (by simp)
      · intro i q' hq'
        change (if i = r.val then _ else t.pages i) = _ at hq'
        split at hq'
        · rw [← Option.some.inj hq']
          exact hm r.val q hq
        · exact hm i q' hq'
    · refine ⟨t, C, ?_, rfl, Calm.refl _ _, h.done ?_⟩
      · rw [if_neg (fun hc => h1 hc.2)]
        rfl
      · intro y hy
        obtain rfl : y = (t.root, p) := by simpa using hy
        have h1' : 1 ≤ p.records.length := h.rootMin rfl rfl
        have hne : p.records.length ≠ 1 := h1
        exact ⟨fun _ => show 2 ≤ p.records.length by omega, h.room⟩

/-- 根でない page の `coalesce_or_redistribute` の一段。 -/
theorem coalesceOrRedistribute_step (fuel : Nat) {node index : Nat} {p f nb : Page} {nr : Record}
    (hroot : node ≠ t.root) (hp : t.pages node = some p)
    (hlt : p.records.length < (cardinality + 1) / 2) (hf : t.pages p.parent = some f)
    (hrank : f.findChildRank node = some index)
    (hnr : f.records[if index = 0 then 1 else index - 1]? = some nr)
    (hfl : f.records.length ≤ cardinality) (hnb : t.pages nr.val = some nb) :
    BTree.coalesceOrRedistribute (fuel + 1) t node
      = (if cardinality + 1 ≤ p.records.length + nb.records.length then
          t.redistribute nr.val node p.parent index
        else do
          let rp ← t.page (if index = 0 then nr.val else node)
          let t ← t.appendRecords (if index = 0 then node else nr.val) rp.records
          let t ← t.eraseNode (if index = 0 then nr.val else node)
          let t ← t.modifyPage p.parent fun f => f.erasePair (if index = 0 then 1 else index)
          BTree.coalesceOrRedistribute fuel t p.parent) := by
  have hidx : (if index = 0 then 1 else index - 1) < cardinality :=
    Nat.lt_of_lt_of_le (List.getElem?_eq_some_iff.mp hnr).1 hfl
  rw [BTree.coalesceOrRedistribute, if_neg hroot, BTree.page_eq hp]
  dsimp only [bind, Except.bind]
  rw [if_neg (show ¬ (cardinality + 1) / 2 ≤ p.recordNum from Nat.not_le.mpr hlt), BTree.page_eq hf]
  dsimp only
  rw [hrank]
  dsimp only
  rw [Page.read_eq hidx hnr]
  dsimp only
  rw [BTree.page_eq hnb]
  dsimp only
  unfold Page.recordNum
  split
  · rfl
  · by_cases h0 : index = 0
    · simp only [h0, if_true]
    · simp only [h0, if_false]

/-- 子の段の record は変わらないので、大きさの条件も変わらない。 -/
theorem small_of_strip {L : Level} (h : Small t) (hC : Agrees t.pages C)
    (hs : strip C' = strip C) (ha : Agrees t'.pages (C' ++ L))
    (hL : ∀ x ∈ L, x.2.records.length < cardinality)
    (hf : ∀ i ∉ ids (C' ++ L), t'.pages i = t.pages i ∨ t'.pages i = none) : Small t' := by
  refine h.of_agrees ha (fun y hy => ?_) hf
  rcases List.mem_append.mp hy with hy | hy
  · refine forall_of_strip (P := fun p => p.records.length < cardinality) ?_ hs.symm
      (h.room hC) y hy
    rintro ⟨⟩ ⟨⟩ h
    cases h
    exact id
  · exact hL y hy

/-- 併合で消えるのは右の page の番地だけである。 -/
theorem mem_ids_merged {i j g k : Nat} {p q p' pg pg' : Page} {V₁ V₂ : Level} (hkj : k ≠ j)
    (hk : k ∈ ids (C ++ ((A ++ (i, p) :: (j, q) :: B)
      ++ ((V₁ ++ (g, pg) :: V₂) :: rest).flatten))) :
    k ∈ ids (C ++ ((A ++ (i, p') :: mergedRest leaf i B)
      ++ ((V₁ ++ (g, pg') :: V₂) :: rest).flatten)) := by
  simp only [ids_append, ids_cons, ids_mergedRest, List.flatten_cons, List.mem_append,
    List.mem_cons] at hk ⊢
  simp only [hkj, false_or] at hk
  exact hk

theorem mem_ids_of_merged {i j g : Nat} {p q p' pg pg' : Page} {V₁ V₂ : Level} :
    ∀ k ∈ ids ((A ++ (i, p') :: mergedRest leaf i B) ++ ((V₁ ++ (g, pg') :: V₂) :: rest).flatten),
      k ∈ ids ((A ++ (i, p) :: (j, q) :: B) ++ ((V₁ ++ (g, pg) :: V₂) :: rest).flatten) := by
  intro k hk
  simp only [ids_append, ids_cons, ids_mergedRest, List.flatten_cons, List.mem_append,
    List.mem_cons] at hk ⊢
  rcases hk with (hk | hk | hk) | hk
  · exact Or.inl (Or.inl hk)
  · exact Or.inl (Or.inr (Or.inl hk))
  · exact Or.inl (Or.inr (Or.inr (Or.inr hk)))
  · exact Or.inr hk

/-- `uppers` の下の段の再配置は、必ず終わって段の積み重ねを直す。 -/
def Rebalances (uppers : List Level) : Prop :=
  ∀ {t : BTree} {leaf : Bool} {C A B : Level} {x : Nat × Page} {fuel : Nat},
    Lacking t leaf C A x B uppers → uppers.length < fuel →
    ∃ t' C', BTree.coalesceOrRedistribute fuel t x.1 = .ok t' ∧ strip C' = strip C ∧
      Calm t t' (ids (C ++ ((A ++ x :: B) ++ uppers.flatten))) ∧
      Outcome t' leaf (A ++ x :: B) uppers C'

/-- 併合した後、父の段の再配置を続ける。 -/
theorem rebalance_coalesce {i j g fuel : Nat} {p q pg : Page} {V₁ V₂ : Level} {ra rb : List Record}
    {ri rj : Record}
    (ih : Rebalances rest)
    (z : Zone t leaf C (A ++ (i, p) :: (j, q) :: B) ((V₁ ++ (g, pg) :: V₂) :: rest))
    (hadj : Adjacent A i p j q B V₁ g ra ri rj rb V₂) (hg : pg.records = ra ++ ri :: rj :: rb)
    (hsz : Sized false (V₁ ++ (g, pg) :: V₂) rest) (hside : ∀ y ∈ A ++ B, y.2.Filled)
    (hp : p.records ≠ []) (hmin : 6 ≤ p.records.length + q.records.length)
    (hmax : p.records.length + q.records.length < cardinality)
    (hsafe : RebOk false (pg.records.length - 1) V₁ (g, pg) V₂ rest)
    (htail : leaf = false → TailSorted (recs (A ++ (i, p) :: (j, q) :: B)))
    (hch : leaf = true → Chained 0 (A ++ (i, p) :: (j, q) :: B)) (hfuel : rest.length < fuel) :
    ∃ t₁ t₂ t₃ t' C', t.appendRecords i q.records = .ok t₁ ∧ t₁.eraseNode j = .ok t₂ ∧
      t₂.modifyPage g (fun f => f.erasePair (ra.length + 1)) = .ok t₃ ∧
      BTree.coalesceOrRedistribute fuel t₃ g = .ok t' ∧ strip C' = strip C ∧
      Calm t t' (ids (C ++ ((A ++ (i, p) :: (j, q) :: B)
        ++ ((V₁ ++ (g, pg) :: V₂) :: rest).flatten))) ∧
      Outcome t' leaf (A ++ (i, p) :: (j, q) :: B) ((V₁ ++ (g, pg) :: V₂) :: rest) C' := by
  have hlink : leaf = true → q.prevLeaf = i ∧ q.nextLeaf = (B.head?.map Prod.fst).getD 0 := by
    intro hl
    have hc : Chained 0 ((A ++ [(i, p)]) ++ (j, q) :: B) := by simpa using hch hl
    exact ⟨(hch hl).prev_eq, hc.next_eq⟩
  obtain ⟨t₁, t₂, t₃, C', h₁, h₂, h₃, hstrip, z', hnone, hk⟩ :=
    coalesce_spec z hadj hg hp (Nat.le_of_lt hmax) hlink
  generalize hL' : A ++ (i, mergedPage leaf p q) :: mergedRest leaf i B = L' at z'
  have hrecs : recs L' = recs (A ++ (i, p) :: (j, q) :: B) := by
    rw [← hL']
    simp [mergedPage]
  have hL'sz : ∀ y ∈ L', y.2.Filled := by
    rw [← hL']
    intro y hy
    rw [List.mem_append, List.mem_cons] at hy
    rcases hy with hy | rfl | hy
    · exact hside y (by simp [hy])
    · have : (mergedPage leaf p q).records.length = p.records.length + q.records.length :=
        List.length_append
      exact ⟨by rw [this]; exact hmin, by rw [this]; exact hmax⟩
    · exact forall_mergedRest (P := Page.Filled) leaf i (fun y hy => hside y (by simp [hy]))
        (fun _ hq => hq) y hy
  -- 父の段に渡す条件を揃える。父は record を一つ失う
  have hne : ∀ y ∈ L', y.2.records ≠ [] := by
    intro y hy hc
    have := (hL'sz y hy).1
    rw [hc] at this
    simp at this
  have hglen : pg.records.length = ra.length + rb.length + 2 := by
    rw [hg]
    simp
    omega
  have hg'len : (pg.withRecords (ra ++ ri :: rb)).records.length = pg.records.length - 1 := by
    rw [hglen, Page.withRecords_records]
    simp
    omega
  have hsz' : ∀ x ∈ (V₁ ++ (g, pg.withRecords (ra ++ ri :: rb)) :: V₂) ++ rest.flatten,
      x.2.records.length < cardinality := by
    intro y hy
    have hroom := hsz.room_all
    simp only [List.mem_append, List.mem_cons] at hy hroom
    rcases hy with (hy | rfl | hy) | hy
    · exact hroom y (Or.inl (Or.inl hy))
    · show (pg.withRecords (ra ++ ri :: rb)).records.length < cardinality
      rw [hg'len]
      exact Nat.lt_of_le_of_lt (Nat.sub_le _ _) (hroom (g, pg) (Or.inl (Or.inr (Or.inl rfl))))
    · exact hroom y (Or.inl (Or.inr (Or.inr hy)))
    · exact hroom y (Or.inr hy)
  have hlack : Lacking t₃ false L' V₁ (g, pg.withRecords (ra ++ ri :: rb)) V₂ rest := by
    refine ⟨z'.upward, ?_, ?_, ?_, z.linked.2.2.filled_beside hsz, ?_, ?_, by simp, ?_, by simp⟩
    · exact hsz' (g, _) (by simp)
    · intro _ _
      show 1 ≤ (pg.withRecords (ra ++ ri :: rb)).records.length
      omega
    · intro hr
      cases rest with
      | nil => exact absurd rfl hr
      | cons u rest =>
        have := (hsz.1 (g, pg) (by simp)).1
        show 5 ≤ (pg.withRecords (ra ++ ri :: rb)).records.length
        have h6 : 6 ≤ pg.records.length := this
        omega
    · rintro u rest' rfl
      exact hsz.2
    · show RebOk false (pg.withRecords (ra ++ ri :: rb)).records.length _ _ _ _
      rw [hg'len]
      exact hsafe.congr rfl rfl
    · intro _
      exact z'.linked.tailSorted hne fun hl => by rw [hrecs]; exact htail hl
  obtain ⟨t', L'', hcall, hstrip', hcalm, hout⟩ := ih hlack hfuel
  obtain ⟨uppers', z'', hs'', hsub⟩ := z'.reassemble hL'sz hstrip' hcalm hout
  have hsub' : ∀ k ∈ ids (L' ++ ((V₁ ++ (g, pg.withRecords (ra ++ ri :: rb)) :: V₂)
      :: rest).flatten), k ∈ ids ((A ++ (i, p) :: (j, q) :: B)
        ++ ((V₁ ++ (g, pg) :: V₂) :: rest).flatten) := by
    rw [← hL']
    exact mem_ids_of_merged
  -- 下の段から消えた page は `j` だけで、残りは載ったままである
  have hcalm₃ : Calm t t₃ (ids (C ++ ((A ++ (i, p) :: (j, q) :: B)
      ++ ((V₁ ++ (g, pg) :: V₂) :: rest).flatten))) := by
    refine ⟨hk.pages, hk.fresh, fun ha => by rw [hk.addr, hk.root, ha], fun hm => ?_⟩
    refine small_of_strip hm (fun y hy => z.heap y (List.mem_append_left _ hy)) hstrip z'.heap ?_
      fun k hk' => ?_
    · intro y hy
      rcases List.mem_append.mp hy with hy | hy
      · exact (hL'sz y hy).2
      · exact hsz' y (by rwa [List.flatten_cons] at hy)
    · by_cases hkj : k = j
      · exact Or.inr (by rw [hkj]; exact hnone)
      · refine Or.inl (hk.pages k fun hm' => hk' ?_)
        rw [ids_append, ids_eq_of_strip hstrip, ← ids_append, ← hL']
        exact mem_ids_merged hkj hm'
  refine ⟨t₁, t₂, t₃, t', C', h₁, h₂, h₃, hcall, hstrip, hcalm₃.trans hcalm ?_,
    Or.inl ⟨L'', uppers', z'', hs'', ?_, ?_, fun k hk => hsub' k (hsub k hk)⟩⟩
  · intro k hk
    rw [ids_append]
    exact List.mem_append_right _ (hsub' k (by simpa using hk))
  · rw [recs_eq_of_strip hstrip', hrecs]
  · intro hl
    refine Chained.of_strip ?_ hstrip'.symm
    rw [← hL', hl]
    refine (hch hl).replace rfl fun prev hc => ⟨hc.1, ?_, hc.2.2.2.2.setPrev⟩
    show q.nextLeaf = _
    rw [(hlink hl).2]
    cases B <;> rfl

/-- 父の中での page の位置。右の page は左の page の次にある。 -/
theorem Adjacent.rank_right {i j g : Nat} {p q pg : Page} {V₁ V₂ R : Level} {ra rb : List Record}
    {ri rj : Record} (hadj : Adjacent A i p j q B V₁ g ra ri rj rb V₂)
    (hg : pg.records = ra ++ ri :: rj :: rb)
    (hnd : (ids (C ++ ((A ++ (i, p) :: (j, q) :: B) ++ R))).Nodup) :
    pg.findChildRank j = some (ra.length + 1) := by
  rw [ids_append, ids_append] at hnd
  have hndL := (List.nodup_append.mp (List.nodup_append.mp hnd).2.1).1
  unfold Page.findChildRank
  have hsplit : pg.records = (ra ++ [ri]) ++ rj :: rb := by rw [hg]; simp
  rw [hsplit]
  have := findIdx?_middle (q := fun r : Record => decide (r.val = j)) (a := ra ++ [ri]) (x := rj)
    (b := rb) (fun c hc => ?_) (by simpa using hadj.valj)
  · simpa using this
  · refine decide_eq_false fun hcj => ?_
    rw [ids_append, ids_cons, ids_cons, List.nodup_append] at hndL
    rcases List.mem_append.mp hc with hc | hc
    · have hm : (c.val, g) ∈ parents A := by
        rw [← hadj.left]
        exact List.mem_append_right _ (List.mem_map_of_mem hc)
      obtain ⟨y, hy, hyc⟩ := List.mem_map.mp hm
      refine hndL.2.2 j ?_ j (by simp) rfl
      rw [← hcj, ← (Prod.mk.inj hyc).1]
      exact mem_ids_of_mem hy
    · obtain rfl : c = ri := by simpa using hc
      have : i = j := by rw [← hadj.vali, hcj]
      have hij := (List.nodup_cons.mp hndL.2.1).1
      exact hij (by rw [this]; simp)

theorem Adjacent.rank_left {i j g : Nat} {p q pg : Page} {V₁ V₂ : Level} {rb : List Record}
    {ri rj : Record} (hadj : Adjacent A i p j q B V₁ g [] ri rj rb V₂)
    (hg : pg.records = ri :: rj :: rb) : pg.findChildRank i = some 0 := by
  unfold Page.findChildRank
  rw [hg, List.findIdx?_cons]
  simp [hadj.vali]

/-- 貸し借りを終えた段。 -/
theorem Zone.settled {i j g : Nat} {p q p' q' pg pg' : Page} {V₁ V₂ : Level}
    (z : Zone t leaf C (A ++ (i, p) :: (j, q) :: B) ((V₁ ++ (g, pg) :: V₂) :: rest))
    (z' : Zone t' leaf C' (A ++ (i, p') :: (j, q') :: B) ((V₁ ++ (g, pg') :: V₂) :: rest))
    (hstrip : strip C' = strip C)
    (hk : Kept t t' (ids (C ++ ((A ++ (i, p) :: (j, q) :: B)
      ++ ((V₁ ++ (g, pg) :: V₂) :: rest).flatten))))
    (hsz : Sized false (V₁ ++ (g, pg) :: V₂) rest) (hside : ∀ y ∈ A ++ B, y.2.Filled)
    (hp : p'.Filled) (hq : q'.Filled) (hg : pg'.records.length = pg.records.length)
    (hrecs : p'.records ++ q'.records = p.records ++ q.records)
    (hch : leaf = true → Chained 0 (A ++ (i, p') :: (j, q') :: B)) :
    Calm t t' (ids (C ++ ((A ++ (i, p) :: (j, q) :: B)
        ++ ((V₁ ++ (g, pg) :: V₂) :: rest).flatten))) ∧
      Outcome t' leaf (A ++ (i, p) :: (j, q) :: B) ((V₁ ++ (g, pg) :: V₂) :: rest) C' := by
  have hids : ids ((A ++ (i, p') :: (j, q') :: B) ++ ((V₁ ++ (g, pg') :: V₂) :: rest).flatten)
      = ids ((A ++ (i, p) :: (j, q) :: B) ++ ((V₁ ++ (g, pg) :: V₂) :: rest).flatten) := by simp
  -- 二つの page の他は変わらない
  have hlow : ∀ y ∈ A ++ (i, p') :: (j, q') :: B, y.2.Filled := by
    intro y hy
    rw [List.mem_append, List.mem_cons, List.mem_cons] at hy
    rcases hy with hy | rfl | rfl | hy
    · exact hside y (by simp [hy])
    · exact hp
    · exact hq
    · exact hside y (by simp [hy])
  have hsz' : Sized leaf (A ++ (i, p') :: (j, q') :: B) ((V₁ ++ (g, pg') :: V₂) :: rest) := by
    refine ⟨hlow, hsz.grow (Nat.le_of_eq hg.symm) ?_⟩
    rw [hg]
    exact hsz.room (g, pg) (by simp)
  refine ⟨⟨hk.pages, hk.fresh, fun ha => by rw [hk.addr, hk.root, ha], fun hm => ?_⟩,
    Or.inl ⟨_, _, z', hsz', ?_, hch, fun k hk => by rwa [hids] at hk⟩⟩
  · refine small_of_strip hm (fun y hy => z.heap y (List.mem_append_left _ hy)) hstrip z'.heap
      hsz'.room_all fun k hk' => Or.inl (hk.pages k fun hm' => hk' ?_)
    rw [ids_append, hids, ids_eq_of_strip hstrip, ← ids_append]
    exact hm'
  · have := congrArg (fun l => recs A ++ (l ++ recs B)) hrecs
    simpa using this

/-- 隣り合う二つの page の record も、段の順に並んでいる。 -/
theorem pairwise_adjacent {r : Record → Record → Prop} {x y : Nat × Page}
    (h : (recs (A ++ x :: y :: B)).Pairwise r) : (x.2.records ++ y.2.records).Pairwise r := by
  rw [recs_append, recs_cons, recs_cons, ← List.append_assoc x.2.records] at h
  exact (List.pairwise_append.mp (List.pairwise_append.mp h).2.1).1

/-- 右隣との再配置。 -/
theorem rebalance_right {i j g fuel : Nat} {p q pg : Page} {V₁ V₂ : Level} {rb : List Record}
    {ri rj : Record}
    (ih : Rebalances rest)
    (h : Lacking t leaf C A (i, p) ((j, q) :: B) ((V₁ ++ (g, pg) :: V₂) :: rest))
    (hroot : i ≠ t.root) (hlt : p.records.length < (cardinality + 1) / 2)
    (hadj : Adjacent A i p j q B V₁ g [] ri rj rb V₂) (hg : pg.records = ri :: rj :: rb)
    (hsafe : p.records.length + q.records.length < cardinality + 1 →
      p.records.length + q.records.length < cardinality ∧
        RebOk false (pg.records.length - 1) V₁ (g, pg) V₂ rest)
    (hfuel : rest.length < fuel) :
    ∃ t' C', BTree.coalesceOrRedistribute (fuel + 1) t i = .ok t' ∧ strip C' = strip C ∧
      Calm t t' (ids (C ++ ((A ++ (i, p) :: (j, q) :: B)
        ++ ((V₁ ++ (g, pg) :: V₂) :: rest).flatten))) ∧
      Outcome t' leaf (A ++ (i, p) :: (j, q) :: B) ((V₁ ++ (g, pg) :: V₂) :: rest) C' := by
  have hsz := h.upper _ _ rfl
  have h5 : 5 ≤ p.records.length := h.min (by simp)
  have hq : q.Filled := h.side (j, q) (by simp)
  have hq6 := hq.1
  have hside : ∀ y ∈ A ++ B, y.2.Filled := fun y hy => h.side y (by
    rw [List.mem_append] at hy
    rw [List.mem_append, List.mem_cons]
    tauto)
  have hp : p.records ≠ [] := fun hc => by rw [hc] at h5; simp at h5
  have h7 : (cardinality + 1) / 2 = 7 := rfl
  have hc : cardinality = 13 := rfl
  have hnr : pg.records[if 0 = 0 then 1 else 0 - 1]? = some rj := by rw [hg]; rfl
  have hpg : t.pages p.parent = some pg := by
    rw [hadj.parenti]
    exact h.zone.heap (g, pg) (by simp)
  have hnb : t.pages rj.val = some q := by
    rw [hadj.valj]
    exact h.zone.heap (j, q) (by simp)
  have hstep := coalesceOrRedistribute_step fuel hroot (h.zone.heap (i, p) (by simp)) hlt hpg
    (hadj.rank_left hg) hnr (Nat.le_of_lt (hsz.room (g, pg) (by simp))) hnb
  rw [hstep, hadj.parenti, hadj.valj]
  -- 合わせて一枚に収まらなければ一つ借り、収まれば併合する
  by_cases hsum : cardinality + 1 ≤ p.records.length + q.records.length
  · rw [if_pos hsum]
    have hql := hq.2
    obtain ⟨e, qs, he⟩ := List.exists_cons_of_length_pos (l := q.records) (by omega)
    have hqs : q.records.length = qs.length + 1 := by rw [he]; rfl
    obtain ⟨d, ds, rfl⟩ := List.exists_cons_of_length_pos (l := qs) (by omega)
    rw [List.length_cons] at hqs
    obtain ⟨t', C', hcall, hstrip, z', hk⟩ := redistribute_right h.zone hadj hg he hp h.room
      (Nat.le_of_lt hql) fun hl => pairwise_adjacent (x := (i, p)) (y := (j, q)) (h.ordered hl)
    obtain ⟨hcalm, hout⟩ := h.zone.settled z' hstrip hk hsz hside
      (by unfold Page.Filled; rw [Page.withRecords_records, List.length_append]; simp; omega)
      (by unfold Page.Filled; rw [Page.withRecords_records, List.length_cons]; omega)
      (by rw [Page.withRecords_records, hg]; rfl)
      (by rw [Page.withRecords_records, Page.withRecords_records, he]; simp)
      fun hl => (h.chained hl).replace rfl fun prev hc => ⟨hc.1, hc.2.1, hc.2.2.1, hc.2.2.2⟩
    exact ⟨t', C', hcall, hstrip, hcalm, hout⟩
  · rw [if_neg hsum]
    obtain ⟨hmax, hreb⟩ := hsafe (Nat.lt_of_not_le hsum)
    have hg' : pg.records = [] ++ ri :: rj :: rb := hg
    obtain ⟨t₁, t₂, t₃, t', C', h₁, h₂, h₃, h₄, hstrip, hcalm, hout⟩ := rebalance_coalesce
      ih h.zone hadj hg' hsz hside hp (by omega) hmax hreb h.tail h.chained hfuel
    refine ⟨t', C', ?_, hstrip, hcalm, hout⟩
    simp only [if_true]
    rw [BTree.page_eq (h.zone.heap (j, q) (by simp))]
    show (t.appendRecords i q.records).bind _ = _
    rw [h₁]
    show (t₁.eraseNode j).bind _ = _
    rw [h₂]
    show (t₂.modifyPage g _).bind _ = _
    rw [show (t₂.modifyPage g fun f => f.erasePair 1) = .ok t₃ from h₃]
    exact h₄

/-- 借りてよい page では、末尾の record の鍵が他のどの鍵よりも大きい。 -/
theorem exists_last_above {p : Page} (hlen : 2 ≤ p.records.length)
    (hord : leaf = true → p.records.Pairwise fun a b => a.key < b.key)
    (htail : leaf = false → TailSorted p.records)
    (hborrow : leaf = true ∨ ∃ c cs d, p.records = c :: cs ++ [d] ∧ c.key < d.key) :
    ∃ ps d, p.records = ps ++ [d] ∧ ps ≠ [] ∧ ∀ r ∈ ps, r.key < d.key := by
  have hsorted : leaf = true →
      ∃ ps d, p.records = ps ++ [d] ∧ ps ≠ [] ∧ ∀ r ∈ ps, r.key < d.key := by
    intro hl
    rcases List.eq_nil_or_concat p.records with hnil | ⟨ps, d, hps⟩
    · rw [hnil] at hlen
      simp at hlen
    · rw [List.concat_eq_append] at hps
      have hpair := hord hl
      rw [hps] at hpair hlen
      refine ⟨ps, d, hps, fun hc => by rw [hc] at hlen; simp at hlen, fun r hr => ?_⟩
      exact (List.pairwise_append.mp hpair).2.2 r hr d (by simp)
  cases hl : leaf with
  | true => exact hsorted hl
  | false =>
    rcases hborrow with hb | ⟨c, cs, d, hcs, hcd⟩
    · exact hsorted hb
    · refine ⟨c :: cs, d, hcs, List.cons_ne_nil _ _, fun r hr => ?_⟩
      rcases List.mem_cons.mp hr with rfl | hr
      · exact hcd
      · have hpair := htail hl
        unfold TailSorted at hpair
        rw [hcs, List.cons_append, List.tail_cons, List.map_append] at hpair
        exact (List.pairwise_append.mp hpair).2.2 r.key (List.mem_map_of_mem hr) d.key (by simp)

/-- 左隣との再配置。 -/
theorem rebalance_left {i j g fuel : Nat} {p q pg : Page} {V₁ V₂ : Level} {ra rb : List Record}
    {ri rj : Record}
    (ih : Rebalances rest)
    (h : Lacking t leaf C (A ++ [(i, p)]) (j, q) B ((V₁ ++ (g, pg) :: V₂) :: rest))
    (hroot : j ≠ t.root) (hlt : q.records.length < (cardinality + 1) / 2)
    (hadj : Adjacent A i p j q B V₁ g ra ri rj rb V₂) (hg : pg.records = ra ++ ri :: rj :: rb)
    (hborrow : cardinality + 1 ≤ q.records.length + p.records.length → leaf = true ∨
      ∃ c cs d, p.records = c :: cs ++ [d] ∧ c.key < d.key)
    (hsafe : q.records.length + p.records.length < cardinality + 1 →
      q.records.length + p.records.length < cardinality ∧
        RebOk false (pg.records.length - 1) V₁ (g, pg) V₂ rest)
    (hfuel : rest.length < fuel) :
    ∃ t' C', BTree.coalesceOrRedistribute (fuel + 1) t j = .ok t' ∧ strip C' = strip C ∧
      Calm t t' (ids (C ++ (((A ++ [(i, p)]) ++ (j, q) :: B)
        ++ ((V₁ ++ (g, pg) :: V₂) :: rest).flatten))) ∧
      Outcome t' leaf ((A ++ [(i, p)]) ++ (j, q) :: B) ((V₁ ++ (g, pg) :: V₂) :: rest) C' := by
  have hsz := h.upper _ _ rfl
  have h5 : 5 ≤ q.records.length := h.min (by simp)
  have hp : p.Filled := h.side (i, p) (by simp)
  have hp6 := hp.1
  have hpne : p.records ≠ [] := fun hc => by rw [hc] at hp6; simp at hp6
  have hside : ∀ y ∈ A ++ B, y.2.Filled := fun y hy => h.side y (by
    simp only [List.mem_append] at hy ⊢
    tauto)
  have h7 : (cardinality + 1) / 2 = 7 := rfl
  have hc : cardinality = 13 := rfl
  -- 段を左の page から見た形に書き直す
  have hassoc : (A ++ [(i, p)]) ++ (j, q) :: B = A ++ (i, p) :: (j, q) :: B := by simp
  have hz := h.zone
  have hord := h.ordered
  have htail := h.tail
  have hchain := h.chained
  rw [hassoc] at hz hord htail hchain ⊢
  have hrank := hadj.rank_right hg hz.nodup
  have hnr : pg.records[if ra.length + 1 = 0 then 1 else ra.length + 1 - 1]? = some ri := by
    rw [if_neg (Nat.succ_ne_zero _), hg]
    simp
  have hpg : t.pages q.parent = some pg := by
    rw [hadj.parentj]
    exact hz.heap (g, pg) (by simp)
  have hnb : t.pages ri.val = some p := by
    rw [hadj.vali]
    exact hz.heap (i, p) (by simp)
  have hstep := coalesceOrRedistribute_step fuel hroot (hz.heap (j, q) (by simp)) hlt hpg hrank hnr
    (Nat.le_of_lt (hsz.room (g, pg) (by simp))) hnb
  rw [hstep, hadj.parentj, hadj.vali]
  simp only [if_neg (Nat.succ_ne_zero ra.length)]
  -- 右隣のときと同じく、借りるか併合する
  by_cases hsum : cardinality + 1 ≤ q.records.length + p.records.length
  · rw [if_pos hsum]
    have hpl := hp.2
    have hord' : leaf = true → (p.records ++ q.records).Pairwise fun a b => a.key < b.key :=
      fun hl => pairwise_adjacent (x := (i, p)) (y := (j, q)) (hord hl)
    obtain ⟨ps, d, hpd, hps, hlast⟩ := exists_last_above (by omega)
      (fun hl => (List.pairwise_append.mp (hord' hl)).1)
      (fun hl => TailSorted.page (x := (i, p)) (htail hl)) (hborrow hsum)
    have hplen : p.records.length = ps.length + 1 := by rw [hpd]; simp
    obtain ⟨t', C', hcall, hstrip, z', hk⟩ := redistribute_left hz hadj hg hpd hps hlast
      (Nat.le_of_lt hpl) h.room hord'
    obtain ⟨hcalm, hout⟩ := hz.settled z' hstrip hk hsz hside
      (by unfold Page.Filled; rw [Page.withRecords_records]; omega)
      (by unfold Page.Filled; rw [Page.withRecords_records, List.length_cons]; omega)
      (by rw [Page.withRecords_records, hg]; simp)
      (by rw [Page.withRecords_records, Page.withRecords_records, hpd]; simp)
      fun hl => (hchain hl).replace rfl fun prev hc => ⟨hc.1, hc.2.1, hc.2.2.1, hc.2.2.2⟩
    exact ⟨t', C', hcall, hstrip, hcalm, hout⟩
  · rw [if_neg hsum]
    obtain ⟨hmax, hreb⟩ := hsafe (Nat.lt_of_not_le hsum)
    obtain ⟨t₁, t₂, t₃, t', C', h₁, h₂, h₃, h₄, hstrip, hcalm, hout⟩ := rebalance_coalesce
      ih hz hadj hg hsz hside hpne (by omega) (by omega) hreb htail hchain hfuel
    refine ⟨t', C', ?_, hstrip, hcalm, hout⟩
    rw [BTree.page_eq (hz.heap (j, q) (by simp))]
    show (t.appendRecords i q.records).bind _ = _
    rw [h₁]
    show (t₁.eraseNode j).bind _ = _
    rw [h₂]
    show (t₂.modifyPage g _).bind _ = _
    rw [h₃]
    exact h₄

/-- **`coalesce_or_redistribute` は、根まで上がって段の積み重ねを直す。** -/
theorem rebalance_spec {uppers : List Level} : Rebalances uppers := by
  induction uppers with
  | nil =>
    intro t leaf C A B x fuel h hfuel
    obtain ⟨fuel, rfl⟩ := Nat.exists_eq_succ_of_ne_zero (Nat.ne_of_gt hfuel)
    exact rebalance_root h fuel
  | cons up rest ih =>
    intro t leaf C A B x fuel h hfuel
    obtain ⟨fuel, rfl⟩ := Nat.exists_eq_succ_of_ne_zero (Nat.ne_of_gt (Nat.zero_lt_of_lt hfuel))
    have hfuel' : rest.length < fuel := Nat.lt_of_succ_lt_succ hfuel
    have hroot : x.1 ≠ t.root := h.zone.ne_root (by simp)
    by_cases h7 : (cardinality + 1) / 2 ≤ x.2.records.length
    · refine ⟨t, C, ?_, rfl, Calm.refl _ _, h.done ⟨fun y hy => ?_, h.upper _ _ rfl⟩⟩
      · rw [BTree.coalesceOrRedistribute, if_neg hroot,
          BTree.page_eq (h.zone.heap x (by simp))]
        dsimp only [bind, Except.bind]
        rw [if_pos (show (cardinality + 1) / 2 ≤ x.2.recordNum from h7)]
        rfl
      · rw [List.mem_append, List.mem_cons] at hy
        rcases hy with hy | rfl | hy
        · exact h.side y (by simp [hy])
        · exact ⟨Nat.le_trans (by decide) h7, h.room⟩
        · exact h.side y (by simp [hy])
    · rcases h.safe with hn | ⟨⟨j, q⟩, B', V₁, g, pg, V₂, r, r', rb, rfl, rfl, hg, hadj, hs⟩ |
        ⟨A', ⟨i, p⟩, V₁, g, pg, V₂, ra, r', r, rb, rfl, rfl, hg, hadj, hb, hs⟩
      · exact absurd hn h7
      · exact rebalance_right ih h hroot (Nat.lt_of_not_le h7) hadj hg hs hfuel'
      · exact rebalance_left ih h hroot (Nat.lt_of_not_le h7) hadj hg hb hs hfuel'

/-- 操作の前の木の上の条件から、段の上の条件が従う。 -/
theorem rebOk_of_safe {uppers : List Level} :
    ∀ {leaf : Bool} {C A B : Level} {x : Nat × Page} {fuel n : Nat},
      Zone t leaf C (A ++ x :: B) uppers →
      (∀ up rest, uppers = up :: rest → Sized false up rest) →
      (∀ y ∈ A ++ B, y.2.records ≠ []) →
      t.rebalanceSafe fuel x.1 n = true → RebOk leaf n A x B uppers := by
  induction uppers with
  | nil => exact fun _ _ _ _ => trivial
  | cons up rest ih =>
    intro leaf C A B x fuel n z hup hside hs
    have hsz := hup _ _ rfl
    have hroot : x.1 ≠ t.root := z.ne_root (by simp)
    cases fuel with
    | zero => simp [BTree.rebalanceSafe] at hs
    | succ fuel =>
      rw [BTree.rebalanceSafe, if_neg hroot] at hs
      by_cases h7 : (cardinality + 1) / 2 ≤ n
      · exact Or.inl h7
      · rw [if_neg h7, z.heap x (by simp)] at hs
        dsimp only at hs
        have h2 : ∀ y ∈ up, 2 ≤ y.2.records.length := by
          intro y hy
          cases rest with
          | nil => exact (hsz y hy).1 rfl
          | cons u rest => exact Nat.le_trans (by decide) (hsz.1 y hy).1
        -- 父から先の条件
        have upward : ∀ {V₁ V₂ : Level} {g fuel : Nat} {pg : Page}, up = V₁ ++ (g, pg) :: V₂ →
            t.rebalanceSafe fuel g (pg.records.length - 1) = true →
            RebOk false (pg.records.length - 1) V₁ (g, pg) V₂ rest := by
          rintro V₁ V₂ g fuel pg rfl hg
          refine ih z.upward ?_ ?_ hg
          · rintro u rest' rfl
            exact hsz.2
          · intro y hy hc
            have := h2 y (by
              rw [List.mem_append] at hy
              rw [List.mem_append, List.mem_cons]
              tauto)
            rw [hc] at this
            simp at this
        rcases z.linked.beside h2 with ⟨y, B', V₁, g, pg, V₂, r, r', rb, rfl, rfl, hg, hadj⟩ |
          ⟨A', y, V₁, g, pg, V₂, ra, r', r, rb, rfl, rfl, hg, hadj⟩
        · refine Or.inr (Or.inl ⟨y, B', V₁, g, pg, V₂, r, r', rb, rfl, rfl, hg, hadj,
            fun hlt => ?_⟩)
          rw [hadj.parenti, z.heap (g, pg) (by simp)] at hs
          dsimp only at hs
          rw [hadj.rank_left hg] at hs
          dsimp only at hs
          rw [if_pos rfl, hg, show (r :: r' :: rb)[1]? = some r' from rfl, Option.bind_some,
            hadj.valj, z.heap y (by simp)] at hs
          dsimp only at hs
          rw [if_neg (show ¬ cardinality + 1 ≤ n + y.2.recordNum from Nat.not_le.mpr hlt)] at hs
          simp only [Bool.and_eq_true, decide_eq_true_eq] at hs
          exact ⟨hs.1, upward rfl hs.2⟩
        · have hassoc : (A' ++ [y]) ++ x :: B = A' ++ (y.1, y.2) :: (x.1, x.2) :: B := by simp
          have hnd := z.nodup
          rw [hassoc] at hnd
          rw [hadj.parentj, z.heap (g, pg) (by simp)] at hs
          dsimp only at hs
          rw [hadj.rank_right hg hnd] at hs
          dsimp only at hs
          rw [if_neg (Nat.succ_ne_zero _), Nat.add_sub_cancel,
            show pg.records[ra.length]? = some r' by rw [hg]; simp, Option.bind_some, hadj.vali,
            z.heap y (by simp)] at hs
          dsimp only at hs
          refine Or.inr (Or.inr ⟨A', y, V₁, g, pg, V₂, ra, r', r, rb, rfl, rfl, hg, hadj,
            fun hle => ?_, fun hlt => ?_⟩)
          · rw [if_pos (show cardinality + 1 ≤ n + y.2.recordNum from hle),
              (z.lowerOk y (by simp)).isLeaf] at hs
            cases leaf with
            | true => exact Or.inl rfl
            | false =>
              refine Or.inr ?_
              obtain ⟨c, cs, hc⟩ := List.exists_cons_of_ne_nil (hside y (by simp))
              rcases List.eq_nil_or_concat cs with rfl | ⟨cs, d, rfl⟩
              · rw [hc] at hs
                simp at hs
              · refine ⟨c, cs, d, by rw [hc]; simp, ?_⟩
                rw [hc, List.concat_eq_append, List.head?_cons, ← List.cons_append,
                  List.getLast?_concat] at hs
                simpa using hs
          · rw [if_neg (show ¬ cardinality + 1 ≤ n + y.2.recordNum from Nat.not_le.mpr hlt)] at hs
            simp only [Bool.and_eq_true, decide_eq_true_eq] at hs
            exact ⟨hs.1, upward rfl hs.2⟩

/-! ## `delete_entry` -/

/-- `maintain_parent` は何も書かずに終わる。 -/
theorem maintainParent_ok {uppers : List Level} :
    ∀ {leaf : Bool} {A B : Level} {x : Nat × Page} {fuel : Nat},
      Stack t leaf (A ++ x :: B) uppers →
      (∀ y ∈ uppers.flatten, y.2.records ≠ [] ∧ y.2.records.length < cardinality) →
      (uppers ≠ [] → x.2.records ≠ []) → uppers.length < fuel →
      t.maintainParent fuel x.1 = .ok () := by
  induction uppers with
  | nil =>
    intro leaf A B x fuel h _ _ hfuel
    obtain ⟨fuel, rfl⟩ := Nat.exists_eq_succ_of_ne_zero (Nat.ne_of_gt hfuel)
    obtain ⟨p, hp, hpar⟩ := h.linked
    obtain ⟨rfl, rfl, rfl⟩ := singleton_middle hp
    rw [BTree.maintainParent, BTree.page_eq (h.heap (t.root, p) (by simp))]
    dsimp only [bind, Except.bind]
    rw [if_pos hpar]
    rfl
  | cons up rest ih =>
    intro leaf A B x fuel h hup hne hfuel
    obtain ⟨fuel, rfl⟩ := Nat.exists_eq_succ_of_ne_zero (Nat.ne_of_gt (Nat.zero_lt_of_lt hfuel))
    obtain ⟨U₁, f, pf, U₂, ra, r, rb, A₁, A₂, B₁, B₂, rfl, hr, rfl, rfl, hv, hpf, -, hA, -, -⟩ :=
      h.linked.focus
    obtain ⟨d, ds, hd⟩ := List.exists_cons_of_ne_nil (hne (by simp))
    have hrank : pf.findChildRank x.1 = some ra.length := by
      refine findChildRank_eq hr hv hA fun hm => ?_
      have hnd := h.nodup
      rw [ids_append, ids_append, ids_append, ids_cons] at hnd
      exact (List.nodup_append.mp (List.nodup_append.mp hnd).1).2.2 x.1
        (List.mem_append_right _ hm) x.1 List.mem_cons_self rfl
    have hroom : ra.length < cardinality := by
      have := (hup (f, pf) (by simp)).2
      rw [hr, List.length_append, List.length_cons] at this
      omega
    have hzero : f ≠ 0 := Nat.ne_of_gt (h.bound (f, pf) (by simp)).1
    rw [BTree.maintainParent, BTree.page_eq (h.heap x (by simp))]
    dsimp only [bind, Except.bind]
    rw [hpf, if_neg hzero, BTree.page_eq (h.heap (f, pf) (by simp))]
    dsimp only
    rw [hrank]
    dsimp only
    rw [Page.read_eq hroom (r := r) (by rw [hr]; simp)]
    dsimp only
    rw [Page.read_eq (r := d) (by decide) (by rw [hd]; rfl)]
    dsimp only
    split
    · rfl
    · refine ih (x := (f, pf)) h.upper (fun y hy => hup y ?_) (fun _ => ?_)
        (Nat.lt_of_succ_lt_succ hfuel)
      · rw [List.flatten_cons]
        exact List.mem_append_right _ hy
      · exact (hup (f, pf) (by simp)).1

variable {m : SortedMap Key Payload} {leaves : Level} {o : Nat} {p : Page} {k : Key}

/-- 着いた leaf から record を消すことは、全体の写像から鍵を消すことである。 -/
theorem BTree.Holds.entries_erase (h : t.Holds m (A ++ (o, p) :: B) uppers) {a b : List Record}
    {c : Record} (hp : p.records = a ++ c :: b) :
    (recs A ++ (a ++ b ++ recs B)).map Record.entry = (m.erase c.key).entries := by
  have hs := h.keys_sorted
  have hsplit : recs (A ++ (o, p) :: B) = (recs A ++ a) ++ c :: (b ++ recs B) := by simp [hp]
  rw [hsplit] at hs
  obtain ⟨-, hc, hcross⟩ := List.pairwise_append.mp hs
  show _ = eraseEntries c.key m.entries
  have hmap : (recs A ++ a ++ c :: (b ++ recs B)).map Record.entry
      = (recs A ++ a).map Record.entry ++ ([c.entry] ++ (b ++ recs B).map Record.entry) := by simp
  rw [← h.data, hsplit, hmap, eraseEntries_append, eraseEntries_append, eraseEntries_eq_self,
    eraseEntries_eq_self (l := (b ++ recs B).map Record.entry)]
  · simp [eraseEntries]
  · intro e he
    obtain ⟨r, hr, rfl⟩ := List.mem_map.mp he
    exact ne_of_gt ((List.pairwise_cons.mp hc).1 r hr)
  · intro e he
    obtain ⟨r, hr, rfl⟩ := List.mem_map.mp he
    exact ne_of_lt (hcross r hr c List.mem_cons_self)

theorem BTree.Holds.zone (h : t.Holds m leaves uppers) : Zone t true [] leaves uppers where
  linked := h.stack.linked
  below := rfl
  heap := h.stack.heap
  nodup := h.stack.nodup
  bound := by
    intro i hi
    obtain ⟨y, hy, rfl⟩ := List.mem_map.mp hi
    exact h.stack.bound y hy
  lowerOk := h.stack.lowerOk
  upperOk := h.stack.upperOk

/-- **`delete_entry` は写像から鍵を消し、木の不変条件を保つ。** -/
theorem BTree.Holds.delete (h : t.Holds m leaves uppers) (hk : (m.find k).isSome)
    (hsafe : t.deleteSafe k = true) :
    ∃ t' leaves' uppers', t.deleteEntry k = .ok (t', true) ∧
      t'.Holds (m.erase k) leaves' uppers' := by
  obtain ⟨A, ⟨o, p⟩, B, rfl, hf, hr⟩ := h.findLeafPage k
  have hok : PageOk true p := h.stack.lowerOk (o, p) (by simp)
  have hroom : p.records.length < cardinality := h.sized.room (o, p) (by simp)
  have hp : t.pages o = some p := h.stack.heap (o, p) (by simp)
  obtain ⟨c, hc, rfl⟩ := List.mem_map.mp ((h.mem_leaf_iff hr).mpr hk)
  obtain ⟨a, b, hab⟩ := List.append_of_mem hc
  have hasc : (a ++ c :: b).Pairwise fun a b => a.key < b.key := by
    have : p.Ascending := h.ascending (x := (o, p)) (by simp)
    unfold Page.Ascending at this
    rwa [hab] at this
  have hlt : ∀ r ∈ a, r.key < c.key := fun r hr =>
    (List.pairwise_append.mp hasc).2.2 r hr c List.mem_cons_self
  have hrm := hok.solid.remove_middle (Nat.le_of_lt hroom) hab hlt
  have hmem : ∀ r ∈ a ++ b, r ∈ p.records := by
    intro r hr
    rw [hab, List.mem_append, List.mem_cons]
    rw [List.mem_append] at hr
    tauto
  have hlen : (p.withRecords (a ++ b)).records.length = p.records.length - 1 := by
    rw [Page.withRecords_records, hab, List.length_append, List.length_append, List.length_cons]
    omega
  obtain ⟨hs, hch, hd⟩ := h.write hr (fun r hr => hok.solid r (hmem r hr))
    (fun r hr => Or.inr ⟨r, hmem r hr, rfl⟩) (h.entries_erase hab)
  have hside := h.stack.linked.filled_beside h.sized
  have hfresh := h.stack.length_lt_fresh h.sized
  have hmin : uppers ≠ [] → 6 ≤ p.records.length := by
    intro hne
    cases uppers with
    | nil => exact absurd rfl hne
    | cons up rest => exact (h.sized.1 (o, p) (by simp)).1
  -- 空でない上の段
  have hup : ∀ y ∈ uppers.flatten, y.2.records ≠ [] ∧ y.2.records.length < cardinality :=
    fun y hy => ⟨h.sized.nonempty_upper y hy, h.sized.room_all y (List.mem_append_right _ hy)⟩
  have hmp : (t.setPage o (p.withRecords (a ++ b))).maintainParent t.fresh o = .ok () := by
    refine maintainParent_ok (x := (o, p.withRecords (a ++ b))) hs hup (fun hne hc => ?_)
      (by omega)
    have := hmin hne
    rw [← List.length_eq_zero_iff, hlen] at hc
    omega
  have hlack : Lacking (t.setPage o (p.withRecords (a ++ b))) true [] A
      (o, p.withRecords (a ++ b)) B uppers := by
    refine ⟨?_, ?_, fun _ hc => by simp at hc, fun hne => ?_, hside, ?_, ?_, fun _ => ?_,
      fun hc => by simp at hc, fun _ => hch⟩
    · refine ⟨hs.linked, rfl, hs.heap, hs.nodup, fun i hi => ?_, hs.lowerOk, hs.upperOk⟩
      obtain ⟨y, hy, rfl⟩ := List.mem_map.mp hi
      exact hs.bound y hy
    · show (p.withRecords (a ++ b)).records.length < cardinality
      omega
    · have := hmin hne
      show 5 ≤ (p.withRecords (a ++ b)).records.length
      omega
    · rintro up rest rfl
      exact h.sized.2
    · show RebOk true (p.withRecords (a ++ b)).records.length A _ B uppers
      rw [hlen]
      have hsafe' : t.rebalanceSafe t.fresh o (p.records.length - 1) = true := by
        unfold BTree.deleteSafe at hsafe
        rw [hf] at hsafe
        dsimp only at hsafe
        rwa [hp] at hsafe
      refine RebOk.congr (x := (o, p))
        (rebOk_of_safe h.zone ?_ (fun y hy hc => ?_) hsafe') rfl rfl
      · rintro up rest rfl
        exact h.sized.2
      · have := (hside y hy).1
        rw [hc] at this
        simp at this
    · have := (m.erase c.key).sorted
      rw [← hd, List.pairwise_map] at this
      exact this
  obtain ⟨t', C', hcall, hstrip, hcalm, hout⟩ := rebalance_spec hlack
    (show uppers.length < (t.setPage o (p.withRecords (a ++ b))).fresh by
      rw [BTree.setPage_fresh]; omega)
  obtain rfl : C' = [] := List.map_eq_nil_iff.mp hstrip
  rcases hout with ⟨L', uppers', z', hsz', hrecs, hch', -⟩ | ⟨hc, -⟩
  · refine ⟨t', L', uppers', ?_, ⟨⟨z'.linked, z'.heap, z'.nodup, fun y hy => ?_, z'.lowerOk,
      z'.upperOk⟩, hsz', hch' rfl, by rw [hrecs, hd], ?_, ?_⟩⟩
    · unfold BTree.deleteEntry
      rw [hf]
      dsimp only [bind, Except.bind]
      rw [BTree.page_eq hp]
      dsimp only
      rw [hrm]
      dsimp only
      rw [BTree.setPage_fresh, hmp]
      dsimp only
      rw [if_pos, show t.fresh = (t.setPage o (p.withRecords (a ++ b))).fresh from rfl, hcall]
      · rfl
      · show (p.withRecords (a ++ b)).records.length ≠ p.records.length
        rw [hab, Page.withRecords_records, List.length_append, List.length_append, List.length_cons]
        omega
    · exact z'.bound y.1 (mem_ids_of_mem hy)
    · refine hcalm.small fun i q hq => ?_
      by_cases hi : i = o
      · rw [BTree.setPage_pages, if_pos hi] at hq
        rw [← Option.some.inj hq, hlen]
        omega
      · rw [BTree.setPage_pages, if_neg hi] at hq
        exact h.small i q hq
    · exact hcalm.addr h.addr
  · simp at hc

end Rebalance

end Plin
