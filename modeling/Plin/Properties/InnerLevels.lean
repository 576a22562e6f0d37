import Plin.Properties.InnerNode
import Plin.Properties.Segmentation
import Plin.Index.PlinIndex

/-!
# inner node の段

inner node は段をなす。**上の段の子を左から並べたものが、下の段の node の親 slot の列である**
（`Stacked`）。一番下の段の子の列 `bottom` は leaf を指す slot の列で、一番上の段の親 slot の列が
根である。

- 根からの探索は、`bottom` の中で鍵以下の最後の slot に着く（`descends_bottom`）。
- `upsert_node` と lock が書き換えるのは一番下の段だけで、上の段は動かない（`Stacked.setBottom`）。
- `bulk_load` と `rebuild_inner_nodes` の loop は、渡された slot の列を `bottom` とする段を作る
  （`buildLevels_spec`）。
-/

namespace Plin

open Infra

variable {D : Type} [Arith D]

/-- 親 slot の持つ鍵と model。 -/
def InnerSlot.model (a : InnerSlot D) : Key × D × D := (a.minKey, a.slope, a.intercept)

/-- `parameter` の行が持つ鍵と model。 -/
def Param.model (p : Param D) : Key × D × D := (p.firstKey, p.slope, p.intercept)

/-- 段。番地と inner node の列。 -/
abbrev Tier (D : Type) := List (InnerId × InnerNode D)

namespace Tier

/-- 段の子を左から並べたもの。 -/
def entries (t : Tier D) : List (InnerSlot D) := t.flatMap fun x => x.2.entries

/-- 段の node の親 slot の列。 -/
def accelerators (t : Tier D) : List (InnerSlot D) := t.map fun x => x.2.accelerator x.1

/-- 段の node の `first_key` の列。 -/
def firstKeys (t : Tier D) : List Key := t.accelerators.map InnerSlot.minKey

/-- 段の node の `first_key` と model の列。 -/
def models (t : Tier D) : List (Key × D × D) := t.accelerators.map InnerSlot.model

/-- 親 slot `a` は、段の中で鍵が向かう node のものである。 -/
def Covers (key : Key) (t : Tier D) (a : InnerSlot D) : Prop :=
  ∃ A B, IsPred InnerSlot.minKey key t.accelerators A a B

/-- node が heap にあり、`first_key` は最初の子の鍵である。 -/
structure NodeOk (inners : List (InnerNode D)) (x : InnerId × InnerNode D) : Prop where
  stored : inners[x.1]? = some x.2
  packed : x.2.Packed
  head : x.2.entries.head?.map InnerSlot.minKey = some x.2.firstKey

omit [Arith D] in
@[simp] theorem entries_append (s t : Tier D) : entries (s ++ t) = entries s ++ entries t :=
  List.flatMap_append ..

omit [Arith D] in
@[simp] theorem entries_cons (x : InnerId × InnerNode D) (t : Tier D) :
    entries (x :: t) = x.2.entries ++ entries t := rfl

/-- 鍵の順に並んだ段では、親 slot も鍵の順に並ぶ。 -/
theorem sorted_accelerators {inners : List (InnerNode D)} {t : Tier D}
    (hok : ∀ x ∈ t, NodeOk inners x)
    (hs : (entries t).Pairwise fun a b => a.minKey < b.minKey) :
    (accelerators t).Pairwise fun a b => a.minKey < b.minKey := by
  induction t with
  | nil => exact List.Pairwise.nil
  | cons x t ih =>
    rw [entries_cons, List.pairwise_append] at hs
    refine List.pairwise_cons.mpr ⟨?_, ih (fun y hy => hok y (by simp [hy])) hs.2.1⟩
    intro a ha
    obtain ⟨y, hy, rfl⟩ := List.mem_map.mp ha
    obtain ⟨s, hs₁, hs₂⟩ := Option.map_eq_some_iff.mp (hok x (by simp)).head
    obtain ⟨u, hu₁, hu₂⟩ := Option.map_eq_some_iff.mp (hok y (by simp [hy])).head
    show x.2.firstKey < y.2.firstKey
    rw [← hs₂, ← hu₂]
    exact hs.2.2 s (List.mem_of_mem_head? hs₁) u
      (List.mem_flatMap.mpr ⟨y, hy, List.mem_of_mem_head? hu₁⟩)

/-- 親 slot の鍵は、段の子のどれかの鍵である。 -/
theorem exists_entry_of_mem {inners : List (InnerNode D)} {t : Tier D}
    (hok : ∀ x ∈ t, NodeOk inners x) {a : InnerSlot D} (ha : a ∈ accelerators t) :
    ∃ s ∈ entries t, s.minKey = a.minKey := by
  obtain ⟨x, hx, rfl⟩ := List.mem_map.mp ha
  obtain ⟨s, hs₁, hs₂⟩ := Option.map_eq_some_iff.mp (hok x hx).head
  exact ⟨s, List.mem_flatMap.mpr ⟨x, hx, List.mem_of_mem_head? hs₁⟩, hs₂⟩

end Tier

/-- 段を下から積む。`bottom` は一番下の段の子の列、`top` は一番上の段の親 slot の列である。 -/
def Stacked (inners : List (InnerNode D)) :
    List (Tier D) → List (InnerSlot D) → List (InnerSlot D) → Prop
  | [], bottom, top => bottom = top
  | t :: rest, bottom, top =>
    t.entries = bottom ∧ (∀ x ∈ t, Tier.NodeOk inners x) ∧ Stacked inners rest t.accelerators top

/-- slot の列が鍵の順に並び、範囲に収まっている。 -/
structure SlotsOk (lo hi : Key) (slots : List (InnerSlot D)) : Prop where
  sorted : slots.Pairwise fun a b => a.minKey < b.minKey
  within : ∀ s ∈ slots, lo ≤ s.minKey ∧ s.minKey ≤ hi

namespace Stacked

variable {inners : List (InnerNode D)} {lo hi key : Key} {t : Tier D} {rest : List (Tier D)}
  {bottom top : List (InnerSlot D)}

/-- 一段上の親 slot の列も、鍵の順に並んで範囲に収まる。 -/
theorem slotsOk_up (hok : ∀ x ∈ t, Tier.NodeOk inners x) (h : SlotsOk lo hi t.entries) :
    SlotsOk lo hi t.accelerators where
  sorted := Tier.sorted_accelerators hok h.sorted
  within := by
    intro a ha
    obtain ⟨s, hs, he⟩ := Tier.exists_entry_of_mem hok ha
    rw [← he]
    exact h.within s hs

theorem slotsOk_top : ∀ {rest : List (Tier D)} {bottom : List (InnerSlot D)},
    Stacked inners rest bottom top → SlotsOk lo hi bottom → SlotsOk lo hi top
  | [], _, h, hb => by rw [← h]; exact hb
  | t :: rest, _, ⟨he, hok, hrest⟩, hb => by
    rw [← he] at hb
    exact slotsOk_top hrest (slotsOk_up hok hb)

/-- 段の node は番地だけで決まるので、段の外の書き換えは影響しない。 -/
theorem frame {inners' : List (InnerNode D)} :
    ∀ {rest : List (Tier D)} {bottom : List (InnerSlot D)}, Stacked inners rest bottom top →
      (∀ t ∈ rest, ∀ x ∈ t, inners'[x.1]? = inners[x.1]?) → Stacked inners' rest bottom top
  | [], _, h, _ => h
  | t :: rest, _, ⟨he, hok, hrest⟩, hsame => by
    refine ⟨he, fun x hx => ?_, hrest.frame fun u hu => hsame u (by simp [hu])⟩
    have := hok x hx
    exact ⟨(hsame t (by simp) x hx).trans this.stored, this.packed, this.head⟩

/-! ## 探索 -/

/-- 一つの node での一歩。親 slot `a` の指す node を探すと子 `e` が見つかる。 -/
def Step (inners : List (InnerNode D)) (key : Key) (a e : InnerSlot D) (slot : Nat) : Prop :=
  ∃ nd, inners[a.ptr]? = some nd ∧ nd.search key a = some slot ∧ nd.slots[slot]? = some e

/-- 親 slot `a` から inner node に入っていくと、`path` の親 slot を順に通って親 slot `e` に着く。 -/
inductive Descends (inners : List (InnerNode D)) (key : Key) (a : InnerSlot D) :
    List (InnerSlot D) → InnerSlot D → Prop where
  | refl : Descends inners key a [] a
  | step {path : List (InnerSlot D)} {e e' : InnerSlot D} {slot : Nat}
      (h : Descends inners key a path e) (hs : Step inners key e e' slot) (ht : e'.type = true) :
      Descends inners key a (path ++ [e]) e'

theorem Descends.findLeafNode {a e : InnerSlot D} {path : List (InnerSlot D)}
    (h : Descends inners key a path e) :
    ∀ fuel, InnerNode.findLeafNode inners key (fuel + path.length) a.ptr a =
      InnerNode.findLeafNode inners key fuel e.ptr e := by
  induction h with
  | refl => exact fun _ => rfl
  | @step path _ _ _ _ hs ht ih =>
    intro fuel
    obtain ⟨nd, h1, h2, h3⟩ := hs
    rw [List.length_append, List.length_singleton,
      show fuel + (path.length + 1) = fuel + 1 + path.length by omega, ih (fuel + 1),
      InnerNode.findLeafNode, h1]
    simp only [Option.bind_eq_bind, Option.bind_some, h2, h3, ht, if_true]

theorem Descends.upsertNode {a e node : InnerSlot D} {path : List (InnerSlot D)}
    (h : Descends inners node.minKey a path e) :
    ∀ fuel, InnerNode.upsertNode node (fuel + path.length) inners a.ptr a =
      InnerNode.upsertNode node fuel inners e.ptr e := by
  induction h with
  | refl => exact fun _ => rfl
  | @step path _ _ _ _ hs ht ih =>
    intro fuel
    obtain ⟨nd, h1, h2, h3⟩ := hs
    rw [List.length_append, List.length_singleton,
      show fuel + (path.length + 1) = fuel + 1 + path.length by omega, ih (fuel + 1),
      InnerNode.upsertNode, h1]
    simp only [Option.bind_eq_bind, Option.bind_some, h2, h3, ht, if_true]

omit [Arith D] in
theorem models_accelerator (x : InnerId × InnerNode D) :
    (x.2.accelerator x.1).Models x.2 := ⟨rfl, rfl, rfl⟩

/-- 親 slot `a` の node で、探索を始める slot が読める。 -/
def Readable (inners : List (InnerNode D)) (key : Key) (a : InnerSlot D) : Prop :=
  ∀ nd, inners[a.ptr]? = some nd → a.Models nd → nd.Packed → nd.startSlot key < nd.slots.length

/-- 親 slot `a` から `m` 段を下りる間に会うどの node でも、探索を始める slot が読める。 -/
def PathReadable (inners : List (InnerNode D)) (key : Key) (a : InnerSlot D) (m : Nat) : Prop :=
  ∀ path e, path.length < m → Descends inners key a path e → Readable inners key e

theorem pathReadable_of_regular (hr : ∀ nd ∈ inners, nd.Regular lo hi) (hlo : lo ≤ key)
    (hhi : key ≤ hi) (a : InnerSlot D) (m : Nat) : PathReadable inners key a m := by
  intro path e _ _ nd hnd _ hp
  have hin := hr nd (List.mem_of_getElem? hnd)
  have hlt := Nat.mul_lt_mul_of_pos_right (hin.inside key hlo hhi)
    (show 0 < innerSlotsPerBlock by decide)
  exact lt_of_lt_of_le hlt hp.length

/-- 探索が成功したなら、始める slot は読めている。 -/
theorem readable_of_search {a : InnerSlot D} {nd : InnerNode D} {slot : Nat}
    (hnd : inners[a.ptr]? = some nd) (h : nd.search key a = some slot) :
    Readable inners key a := by
  intro nd' hnd' ha _
  obtain rfl := Option.some.inj (hnd.symm.trans hnd')
  unfold InnerNode.search at h
  rw [InnerNode.startSlot_of_models ha] at h
  obtain ⟨s, hs, -⟩ := Option.bind_eq_some_iff.mp h
  exact (List.getElem?_eq_some_iff.mp hs).1

/-- leaf に着いた探索は、途中の node をすべて読めている。 -/
theorem pathReadable_of_findLeafNode {a : InnerSlot D} {m fuel : Nat} {r : InnerId × Nat}
    (h : InnerNode.findLeafNode inners key (fuel + m) a.ptr a = some r) :
    PathReadable inners key a m := by
  intro path e hn hdesc
  obtain ⟨k, hk⟩ : ∃ k, fuel + m = k + 1 + path.length := ⟨fuel + m - 1 - path.length, by omega⟩
  rw [hk, hdesc.findLeafNode, InnerNode.findLeafNode] at h
  obtain ⟨nd, hnd, h⟩ := Option.bind_eq_some_iff.mp h
  obtain ⟨slot, hslot, -⟩ := Option.bind_eq_some_iff.mp h
  exact readable_of_search hnd hslot

theorem pathReadable_of_upsertNode {a node : InnerSlot D} {m fuel : Nat}
    {r : Nat × List (InnerNode D)}
    (h : InnerNode.upsertNode node (fuel + m) inners a.ptr a = some r) :
    PathReadable inners node.minKey a m := by
  intro path e hn hdesc
  obtain ⟨k, hk⟩ : ∃ k, fuel + m = k + 1 + path.length := ⟨fuel + m - 1 - path.length, by omega⟩
  rw [hk, hdesc.upsertNode, InnerNode.upsertNode] at h
  obtain ⟨nd, hnd, h⟩ := Option.bind_eq_some_iff.mp h
  obtain ⟨slot, hslot, -⟩ := Option.bind_eq_some_iff.mp h
  exact readable_of_search hnd hslot

/-- 親 slot `a` の node での探索は正しい。始める slot が読め、予測は子の鍵と探す鍵の上で単調である。 -/
def Guided (K : Set Key) (inners : List (InnerNode D)) (key : Key) (a : InnerSlot D) : Prop :=
  ∀ nd, inners[a.ptr]? = some nd → a.Models nd → nd.Packed →
    nd.startSlot key < nd.slots.length ∧ nd.Tame (insert key (K ∩ nd.children))

/-- 親 slot `a` から段を下りる間、鍵が向かう node での探索はどれも正しい。 -/
def PathGuided (K : Set Key) (inners : List (InnerNode D)) (key : Key) (tiers : List (Tier D))
    (a : InnerSlot D) : Prop :=
  ∀ path e, path.length < tiers.length → Descends inners key a path e →
    (∃ t ∈ tiers, t.Covers key e) → Guided K inners key e

theorem PathReadable.guided {tiers : List (Tier D)} {a : InnerSlot D}
    (h : PathReadable inners key a tiers.length) (hr : ∀ nd ∈ inners, nd.Tame (Set.Icc lo hi))
    (hlo : lo ≤ key) (hhi : key ≤ hi) : PathGuided (Set.Icc lo hi) inners key tiers a := by
  intro path e hlen hdesc _ nd hnd ha hp
  refine ⟨h path e hlen hdesc nd hnd ha hp, (hr nd (List.mem_of_getElem? hnd)).anti ?_⟩
  exact Set.insert_subset ⟨hlo, hhi⟩ Set.inter_subset_left

/-- 親 slot の列で鍵の直前の node を選べば、その中の探索は段の子の列での直前の子を見つける。 -/
theorem step_tier (hok : ∀ x ∈ t, Tier.NodeOk inners x) (hb : SlotsOk lo hi t.entries)
    (hk : key < freeFlag) {A B : List (InnerSlot D)} {a : InnerSlot D}
    (hg : Guided (Set.Icc lo hi) inners key a)
    (h : IsPred InnerSlot.minKey key t.accelerators A a B) :
    ∃ X x Y P e Q, t = X ++ x :: Y ∧ a = x.2.accelerator x.1 ∧
      IsPred InnerSlot.minKey key x.2.slots P e Q ∧ Step inners key a e P.length ∧
      IsPred InnerSlot.minKey key t.entries (Tier.entries X ++ InnerNode.occupied P) e
        (InnerNode.occupied Q ++ Tier.entries Y) := by
  obtain ⟨X, T, rfl, rfl, hT⟩ := List.map_eq_append_iff.mp h.eq
  obtain ⟨x, Y, rfl, rfl, rfl⟩ := List.map_eq_cons_iff.mp hT
  have hx := hok x (by simp)
  obtain ⟨s, hs₁, hs₂⟩ := Option.map_eq_some_iff.mp hx.head
  have hsx : s ∈ x.2.entries := List.mem_of_mem_head? hs₁
  obtain ⟨P, e, Q, hpred⟩ : ∃ P e Q, IsPred InnerSlot.minKey key x.2.slots P e Q :=
    exists_isPred ⟨s, (InnerNode.mem_occupied.mp hsx).1, by rw [hs₂]; exact h.le⟩
  obtain ⟨hin, htame⟩ := hg x.2 hx.stored (models_accelerator x) hx.packed
  have hwithin : x.2.Within (insert key (Set.Icc lo hi ∩ x.2.children)) := by
    intro u hu
    exact Set.mem_insert_of_mem _
      ⟨hb.within u (List.mem_flatMap.mpr ⟨x, by simp, hu⟩), u, hu, rfl⟩
  have hsearch := InnerNode.search_eq hx.packed htame hwithin hk (Set.mem_insert ..) hin hpred
    (models_accelerator x)
  refine ⟨X, x, Y, P, e, Q, rfl, rfl, hpred, ⟨x.2, hx.stored, hsearch, ?_⟩, ?_⟩
  · rw [hpred.eq]
    simp
  · have hent : IsPred InnerSlot.minKey key x.2.entries (InnerNode.occupied P) e
        (InnerNode.occupied Q) := InnerNode.isPred_occupied hk hpred
    refine IsPred.flatMap (f := fun x : InnerId × InnerNode D => x.2.entries) hent ?_
    intro y hy u hu
    -- 後ろの node の子は、その node の `first_key` 以上なので鍵より大きい
    have hky : key < y.2.firstKey := h.gt (y.2.accelerator y.1) (List.mem_map_of_mem hy)
    have hyok := hok y (by simp [hy])
    obtain ⟨v, hv₁, hv₂⟩ := Option.map_eq_some_iff.mp hyok.head
    refine lt_of_lt_of_le (hv₂ ▸ hky) ?_
    have hsorted := hyok.packed.sorted_entries
    cases hent : y.2.entries with
    | nil =>
      rw [hent] at hv₁
      cases hv₁
    | cons w es =>
      rw [hent] at hv₁ hu hsorted
      obtain rfl : w = v := by simpa using hv₁
      rcases List.mem_cons.mp hu with rfl | hu
      · exact le_refl _
      · exact le_of_lt ((List.pairwise_cons.mp hsorted).1 u hu)

theorem PathGuided.tail {K : Set Key} {a : InnerSlot D}
    (h : PathGuided K inners key (t :: rest) a) : PathGuided K inners key rest a := by
  rintro path e hlen hdesc ⟨u, hu, hcover⟩
  exact h path e (Nat.lt_succ_of_lt hlen) hdesc ⟨u, List.mem_cons_of_mem _ hu, hcover⟩

/-- 上の段を下りる道は、段ごとに鍵が向かう node を通る。 -/
theorem descends (hk : key < freeFlag) {A B : List (InnerSlot D)} {a : InnerSlot D}
    (h : IsPred InnerSlot.minKey key top A a B) :
    ∀ {rest : List (Tier D)} {bottom : List (InnerSlot D)}, Stacked inners rest bottom top →
      SlotsOk lo hi bottom → (∀ s ∈ bottom, s.type = true) →
      PathGuided (Set.Icc lo hi) inners key rest a →
      ∃ path A' a' B', IsPred InnerSlot.minKey key bottom A' a' B' ∧
        Descends inners key a path a' ∧ List.Forall₂ (Tier.Covers key) rest.reverse path
  | [], _, hst, _, _, _ => ⟨[], A, a, B, by rw [hst]; exact h, .refl, .nil⟩
  | t :: rest, _, ⟨he, hok, hst⟩, hb, htype, hg => by
    subst he
    obtain ⟨path, A', a', B', hpred, hdesc, hcovers⟩ :=
      descends hk h hst (slotsOk_up hok hb) (by
        intro s hs
        obtain ⟨x, _, rfl⟩ := List.mem_map.mp hs
        rfl) hg.tail
    have hlen : path.length < (t :: rest).length := by
      rw [← hcovers.length_eq, List.length_reverse, List.length_cons]
      exact Nat.lt_succ_self _
    obtain ⟨X, x, Y, P, e, Q, _, _, _, hstep, hpred'⟩ :=
      step_tier hok hb hk (hg path a' hlen hdesc ⟨t, List.mem_cons_self, A', B', hpred⟩) hpred
    refine ⟨path ++ [a'], _, e, _, hpred', hdesc.step hstep (htype e hpred'.mem), ?_⟩
    rw [List.reverse_cons]
    exact List.rel_append hcovers (.cons ⟨A', B', hpred⟩ .nil)

/--
**根からの探索は、leaf を指す slot の列の中で鍵以下の最後の slot に着く。**

一番下の段での位置（node の前後と、その node の slot の列の切り方）も言う。
-/
theorem descends_bottom (hk : key < freeFlag) {A B : List (InnerSlot D)} {a : InnerSlot D}
    (h : IsPred InnerSlot.minKey key top A a B) (hst : Stacked inners (t :: rest) bottom top)
    (hb : SlotsOk lo hi bottom) (hg : PathGuided (Set.Icc lo hi) inners key (t :: rest) a) :
    ∃ path X x Y P e Q, t = X ++ x :: Y ∧ Descends inners key a path (x.2.accelerator x.1) ∧
      List.Forall₂ (Tier.Covers key) (t :: rest).reverse (path ++ [x.2.accelerator x.1]) ∧
      IsPred InnerSlot.minKey key x.2.slots P e Q ∧
      Step inners key (x.2.accelerator x.1) e P.length ∧
      IsPred InnerSlot.minKey key bottom (Tier.entries X ++ InnerNode.occupied P) e
        (InnerNode.occupied Q ++ Tier.entries Y) := by
  obtain ⟨rfl, hok, hst⟩ := hst
  obtain ⟨path, A', a', B', hpred, hdesc, hcovers⟩ := descends hk h hst (slotsOk_up hok hb) (by
    intro s hs
    obtain ⟨x, _, rfl⟩ := List.mem_map.mp hs
    rfl) hg.tail
  have hlen : path.length < (t :: rest).length := by
    rw [← hcovers.length_eq, List.length_reverse, List.length_cons]
    exact Nat.lt_succ_self _
  obtain ⟨X, x, Y, P, e, Q, ht, rfl, hp, hstep, hpred'⟩ :=
    step_tier hok hb hk (hg path a' hlen hdesc ⟨t, List.mem_cons_self, A', B', hpred⟩) hpred
  refine ⟨path, X, x, Y, P, e, Q, ht, hdesc, ?_, hp, hstep, hpred'⟩
  rw [List.reverse_cons]
  exact List.rel_append hcovers (.cons ⟨A', B', hpred⟩ .nil)

/-! ## 一番下の段の書き換え -/

/-- 一番下の段の node の子を書き換えても、`first_key` と model が同じなら上の段は動かない。 -/
theorem setBottom {X Y : Tier D} {x : InnerId × InnerNode D} {slots : List (InnerSlot D)}
    (hst : Stacked inners ((X ++ x :: Y) :: rest) bottom top)
    (hnodup : (((X ++ x :: Y) :: rest).flatten.map Prod.fst).Nodup)
    (hpacked : InnerNode.Packed { x.2 with slots := slots })
    (hhead : (InnerNode.occupied slots).head?.map InnerSlot.minKey = some x.2.firstKey) :
    Stacked (inners.set x.1 { x.2 with slots := slots })
      ((X ++ (x.1, { x.2 with slots := slots }) :: Y) :: rest)
      (Tier.entries X ++ InnerNode.occupied slots ++ Tier.entries Y) top := by
  obtain ⟨_, hok, hst⟩ := hst
  have hx := hok x (by simp)
  have hlt : x.1 < inners.length := (List.getElem?_eq_some_iff.mp hx.stored).1
  simp only [List.flatten_cons, List.map_append, List.map_cons, List.append_assoc,
    List.cons_append] at hnodup
  obtain ⟨_, hY, hXY⟩ := List.nodup_append.mp hnodup
  have hYx := (List.nodup_cons.mp hY).1
  have hne : ∀ y : InnerId × InnerNode D, y ∈ X ∨ y ∈ Y ∨ (∃ u ∈ rest, y ∈ u) → y.1 ≠ x.1 := by
    rintro y (hy | hy | ⟨u, hu, hy⟩) hc
    · exact hXY y.1 (List.mem_map_of_mem hy) x.1 (by simp) hc
    · exact hYx (by rw [← hc]; simp only [List.mem_append]; exact Or.inl (List.mem_map_of_mem hy))
    · refine hYx ?_
      rw [← hc, List.mem_append]
      exact Or.inr (List.mem_map_of_mem (List.mem_flatten.mpr ⟨u, hu, hy⟩))
  have hkeep : ∀ y, y.1 ≠ x.1 → Tier.NodeOk inners y →
      Tier.NodeOk (inners.set x.1 { x.2 with slots := slots }) y := by
    intro y hy h
    exact ⟨by rw [List.getElem?_set_ne (Ne.symm hy)]; exact h.stored, h.packed, h.head⟩
  refine ⟨by simp [Tier.entries, InnerNode.entries], ?_, ?_⟩
  · intro y hy
    rcases List.mem_append.mp hy with hy | hy
    · exact hkeep y (hne y (Or.inl hy)) (hok y (by simp [hy]))
    · rcases List.mem_cons.mp hy with rfl | hy
      · exact ⟨List.getElem?_set_self hlt, hpacked, hhead⟩
      · exact hkeep y (hne y (Or.inr (Or.inl hy))) (hok y (by simp [hy]))
  · have hacc : Tier.accelerators (X ++ (x.1, { x.2 with slots := slots }) :: Y) =
        Tier.accelerators (X ++ x :: Y) := by
      simp [Tier.accelerators, InnerNode.accelerator]
    rw [hacc]
    refine hst.frame fun u hu y hy => ?_
    exact List.getElem?_set_ne (Ne.symm (hne y (Or.inr (Or.inr ⟨u, hu, hy⟩))))

/-! ## 左端の leaf -/

theorem exists_head {x : InnerId × InnerNode D} (h : Tier.NodeOk inners x) :
    ∃ e, x.2.entries.head? = some e := by
  obtain ⟨e, he, _⟩ := Option.map_eq_some_iff.mp h.head
  exact ⟨e, he⟩

/-- 段の最初の子は、最初の node の最初の子である。 -/
theorem head_tier (hok : ∀ x ∈ t, Tier.NodeOk inners x) {e : InnerSlot D}
    (he : t.entries.head? = some e) :
    ∃ x t', t = x :: t' ∧ x.2.slots.find? (fun s => !s.isFree) = some e := by
  cases t with
  | nil => simp [Tier.entries] at he
  | cons x t =>
    refine ⟨x, t, rfl, ?_⟩
    obtain ⟨e', he'⟩ := exists_head (hok x (by simp))
    rw [Tier.entries_cons, List.head?_append, he'] at he
    rw [← List.head?_filter]
    exact he'.trans he

/-- 根の列の先頭の鍵は、`bottom` の先頭の鍵である。 -/
theorem head_top {k : Key} : ∀ {rest : List (Tier D)} {bottom : List (InnerSlot D)},
    Stacked inners rest bottom top → bottom.head?.map InnerSlot.minKey = some k →
      top.head?.map InnerSlot.minKey = some k
  | [], _, hst, hb => by rw [← hst]; exact hb
  | t :: rest, _, ⟨hent, hok, hst⟩, hb => by
    subst hent
    refine head_top hst ?_
    obtain ⟨e, he, hek⟩ := Option.map_eq_some_iff.mp hb
    obtain ⟨x, t', rfl, _⟩ := head_tier hok he
    obtain ⟨e', he', hek'⟩ := Option.map_eq_some_iff.mp (hok x (by simp)).head
    rw [Tier.entries_cons, List.head?_append, he'] at he
    obtain rfl : e' = e := by simpa using he
    exact congrArg some (hek'.symm.trans hek)

/-- inner node が一段でもあれば、根は inner node を指す。 -/
theorem type_top : ∀ {rest : List (Tier D)} {bottom : List (InnerSlot D)},
    Stacked inners rest bottom top → (∀ a ∈ bottom, a.type = true) → ∀ a ∈ top, a.type = true
  | [], _, hst, hb => by rw [← hst]; exact hb
  | t :: rest, _, ⟨_, _, hst⟩, _ => by
    refine type_top hst fun a ha => ?_
    obtain ⟨x, _, rfl⟩ := List.mem_map.mp ha
    rfl

/-- 左端へ下りる探索は、`bottom` の先頭の slot に着く。 -/
theorem getLeftmostLeaf_eq {e : InnerSlot D} :
    ∀ {rest : List (Tier D)} {bottom : List (InnerSlot D)}, Stacked inners rest bottom top →
      bottom.head? = some e → ∃ a, top.head? = some a ∧ ∀ fuel,
        InnerNode.getLeftmostLeaf inners (fuel + 1 + rest.length) a.ptr =
          if rest = [] ∨ e.type then InnerNode.getLeftmostLeaf inners (fuel + 1) e.ptr
          else some e.ptr
  | [], _, hst, he => ⟨e, by rw [← hst]; exact he, fun fuel => by simp⟩
  | t :: rest, _, ⟨hent, hok, hst⟩, he => by
    subst hent
    obtain ⟨x, t', rfl, hfind⟩ := head_tier hok he
    obtain ⟨a, ha, hgo⟩ := getLeftmostLeaf_eq hst rfl
    refine ⟨a, ha, fun fuel => ?_⟩
    have hone : InnerNode.getLeftmostLeaf inners (fuel + 2) (x.2.accelerator x.1).ptr =
        if e.type then InnerNode.getLeftmostLeaf inners (fuel + 1) e.ptr else some e.ptr := by
      rw [InnerNode.getLeftmostLeaf, show (x.2.accelerator x.1).ptr = x.1 from rfl,
        (hok x (by simp)).stored]
      simp only [Option.bind_eq_bind, Option.bind_some, hfind]
    have htype : (x.2.accelerator x.1).type = true := rfl
    rw [List.length_cons, show fuel + 1 + (rest.length + 1) = fuel + 1 + 1 + rest.length by omega,
      hgo (fuel + 1), if_pos (Or.inr htype), hone]
    simp

/-! ## 段の高さ -/

/-- どの段にも node がある。 -/
theorem tier_ne_nil : ∀ {rest : List (Tier D)} {bottom : List (InnerSlot D)},
    Stacked inners rest bottom top → bottom ≠ [] → ∀ t ∈ rest, t ≠ []
  | [], _, _, _ => by simp
  | t :: rest, _, ⟨hent, hok, hst⟩, hb => by
    subst hent
    have ht : t ≠ [] := by
      rintro rfl
      exact hb rfl
    intro u hu
    rcases List.mem_cons.mp hu with rfl | hu
    · exact ht
    · exact tier_ne_nil hst (by simpa [Tier.accelerators] using ht) u hu

theorem mem_inners : ∀ {rest : List (Tier D)} {bottom : List (InnerSlot D)},
    Stacked inners rest bottom top → ∀ t ∈ rest, ∀ x ∈ t, inners[x.1]? = some x.2
  | [], _, _ => by simp
  | t :: rest, _, ⟨_, hok, hst⟩ => by
    intro u hu x hx
    rcases List.mem_cons.mp hu with rfl | hu
    · exact (hok x hx).stored
    · exact mem_inners hst u hu x hx

/-- 段の数は heap の node の数を超えない。 -/
theorem length_le (hst : Stacked inners rest bottom top) (hb : bottom ≠ [])
    (hnodup : (rest.flatten.map Prod.fst).Nodup) : rest.length ≤ inners.length := by
  have h1 : rest.length ≤ rest.flatten.length := by
    have hne := tier_ne_nil hst hb
    clear hst hnodup
    induction rest with
    | nil => simp
    | cons t rest ih =>
      have := ih fun u hu => hne u (by simp [hu])
      have hpos := List.length_pos_iff.mpr (hne t (by simp))
      rw [List.flatten_cons, List.length_append, List.length_cons]
      omega
  have h2 : (rest.flatten.map Prod.fst).length ≤ (List.range inners.length).length := by
    refine (List.subperm_of_subset hnodup ?_).length_le
    intro i hi
    obtain ⟨x, hx, rfl⟩ := List.mem_map.mp hi
    obtain ⟨t, ht, hxt⟩ := List.mem_flatten.mp hx
    exact List.mem_range.mpr (List.getElem?_eq_some_iff.mp (mem_inners hst t ht x hxt)).1
  rw [List.length_map, List.length_range] at h2
  omega

end Stacked

/-! ## 段の構築 -/

section Build

variable {lo hi : Key}

omit [Arith D] in
/-- heap の末尾に足した node は、足した順の番地で読める。 -/
theorem getElem?_of_range {t : Tier D} {heap : List (InnerNode D)}
    (h : t.map Prod.fst = List.range' heap.length t.length) {x : InnerId × InnerNode D}
    (hx : x ∈ t) : (heap ++ t.map Prod.snd)[x.1]? = some x.2 := by
  obtain ⟨i, hi, rfl⟩ := List.mem_iff_getElem.mp hx
  have hid : t[i].1 = heap.length + i := by
    have := congrArg (fun l => l[i]?) h
    simpa [List.getElem?_range', hi] using this
  rw [hid, List.getElem?_append_right (by omega), Nat.add_sub_cancel_left]
  simp [hi]

/-- 一段の構築。失敗は `InnerNode` の `assert` だけである。 -/
theorem buildInners_outcome (bnf : Nat → Nat) (segs : List (Segment D)) :
    ∀ (data : List (Key × InnerSlot D)) (startPos : Nat) (heap : List (InnerNode D)),
      (∃ r, buildInners bnf segs data startPos heap = .ok r) ∨
        buildInners bnf segs data startPos heap = .error .innerAssert := by
  induction segs with
  | nil => exact fun _ _ _ => Or.inl ⟨_, rfl⟩
  | cons seg segs ih =>
    intro data startPos heap
    rw [buildInners]
    cases InnerNode.new (bnf seg.number) (data.take seg.number) startPos seg.slope
      seg.intercept with
    | none => exact Or.inr rfl
    | some nd =>
      dsimp only
      rcases ih (data.drop seg.number) (startPos + seg.number) (heap ++ [nd]) with ⟨r, hr⟩ | hr
      · rw [hr]
        exact Or.inl ⟨_, rfl⟩
      · rw [hr]
        exact Or.inr rfl

/-- 区分に分けて作った node の子を並べると、渡した子の列に戻る。 -/
theorem buildInners_spec {bnf : Nat → Nat} {segs : List (Segment D)} :
    ∀ {data : List (Key × InnerSlot D)} {startPos : Nat} {heap : List (InnerNode D)}
      {r : List (InnerNode D) × List (InnerSlot D) × List (Param D)},
      buildInners bnf segs data startPos heap = .ok r → Covers segs (data.map Prod.fst) →
      (segs.map (·.number)).sum = data.length → InnerNode.SortedData (Set.Icc lo hi) data →
      (∀ nd ∈ r.1, nd.Tame (Set.Icc lo hi ∩ nd.children)) →
      ∃ t : Tier D, r.1 = heap ++ t.map Prod.snd ∧
        t.map Prod.fst = List.range' heap.length t.length ∧ r.2.1 = t.accelerators ∧
        t.entries = data.map Prod.snd ∧
        t.accelerators.map InnerSlot.minKey = segs.map (·.firstKey) ∧
        r.2.2.map Param.model = t.models ∧
        ∀ x ∈ t, x.2.Packed ∧ x.2.entries.head?.map InnerSlot.minKey = some x.2.firstKey := by
  induction segs with
  | nil =>
    intro data startPos heap r h _ hsum _ _
    obtain rfl := Except.ok.inj h
    have hdata : data = [] := List.length_eq_zero_iff.mp (by simpa using hsum.symm)
    exact ⟨[], by simp, rfl, rfl, by simp [hdata, Tier.entries], rfl, rfl, by simp⟩
  | cons seg segs ih =>
    intro data startPos heap r h hcov hsum hd hreg
    obtain ⟨hpos, hle, hhead, _, hcov'⟩ := hcov
    rw [List.length_map] at hle
    rw [buildInners] at h
    dsimp only at h
    split at h
    · cases h
    · next nd hnew =>
      cases hrec : buildInners bnf segs (data.drop seg.number) (startPos + seg.number)
          (heap ++ [nd]) with
      | error e =>
        rw [hrec] at h
        cases h
      | ok r' =>
        rw [hrec] at h
        obtain rfl := Except.ok.inj h
        have hdrop : InnerNode.SortedData (Set.Icc lo hi) (data.drop seg.number) :=
          ⟨by rw [List.map_drop]; exact hd.sorted.sublist (List.drop_sublist ..),
            fun e he => hd.within e (List.mem_of_mem_drop he)⟩
        have htake : InnerNode.SortedData (Set.Icc lo hi) (data.take seg.number) :=
          ⟨by rw [List.map_take]; exact hd.sorted.sublist (List.take_sublist ..),
            fun e he => hd.within e (List.mem_of_mem_take he)⟩
        rw [← List.map_drop] at hcov'
        obtain ⟨t, h1, h2, h3, h4, h5, hrow, h6⟩ := ih hrec hcov' (by
          rw [List.map_cons, List.sum_cons] at hsum
          rw [List.length_drop]
          omega) hdrop hreg
        have hndreg : nd.Tame (Set.Icc lo hi ∩ nd.children) := hreg nd (by rw [h1]; simp)
        have hchild := InnerNode.mem_children_new hnew fun e he => (htake.within e he).2
        obtain ⟨hpk, hent, hfirst⟩ := InnerNode.new_spec hnew hndreg
          ⟨htake.sorted, fun e he =>
            ⟨⟨(htake.within e he).1, hchild e he⟩, (htake.within e he).2⟩⟩
        -- 部分の先頭の組
        obtain ⟨e, es, htk⟩ : ∃ e es, data.take seg.number = e :: es := by
          refine List.exists_cons_of_ne_nil ?_
          rw [← List.length_pos_iff, List.length_take]
          omega
        have hekey : e.1 = seg.firstKey := by
          have : data.head? = some e := by
            have hcut := List.take_append_drop seg.number data
            rw [htk] at hcut
            rw [← hcut]
            rfl
          rw [List.head?_map, this] at hhead
          simpa using hhead
        have hfk : nd.firstKey = seg.firstKey := by
          rw [hfirst, htk, ← hekey]
          rfl
        have hemin : e.2.minKey = e.1 := (htake.within e (by simp [htk])).2.2
        refine ⟨(heap.length, nd) :: t, ?_, ?_, ?_, ?_, ?_, ?_, ?_⟩
        · rw [h1]
          simp
        · show heap.length :: t.map Prod.fst = List.range' heap.length (t.length + 1)
          rw [h2, List.range'_succ]
          simp
        · show nd.accelerator heap.length :: r'.2.1 = _
          rw [h3]
          rfl
        · rw [Tier.entries_cons, h4, hent, ← List.map_append, List.take_append_drop]
        · show nd.firstKey :: t.accelerators.map InnerSlot.minKey = _
          rw [h5, hfk]
          rfl
        · show (seg.firstKey, nd.slope, nd.intercept) :: r'.2.2.map Param.model = _
          rw [hrow, ← hfk]
          rfl
        · intro x hx
          rcases List.mem_cons.mp hx with rfl | hx
          · refine ⟨hpk, ?_⟩
            rw [hent, htk]
            simp [hfk, hemin, hekey]
          · exact h6 x hx

/-- 段を積む loop の一回り。`offset` はいつも貯めた区分の数に等しい。 -/
theorem buildLevels_succ (f : Fitter D) (bnf : Nat → Nat) (fuel : Nat)
    (segments : List (Segment D)) (firstKeys : List Key) (accelerators : List (InnerSlot D))
    (heap : List (InnerNode D)) (params : List (List (Param D))) :
    buildLevels f bnf (fuel + 1) segments segments.length firstKeys accelerators heap params =
      match buildInners bnf (makeSegmentation f epsilonInnerNode firstKeys)
        (firstKeys.zip accelerators) 0 heap with
      | .error e => .error e
      | .ok r =>
        let segments' := segments ++ makeSegmentation f epsilonInnerNode firstKeys
        if rootSize < (makeSegmentation f epsilonInnerNode firstKeys).length then
          buildLevels f bnf fuel segments' segments'.length
            ((makeSegmentation f epsilonInnerNode firstKeys).map (·.firstKey)) r.2.1 r.1
            (params ++ [r.2.2])
        else .ok { inners := r.1, roots := r.2.1, parameter := params ++ [r.2.2] } := by
  have hdrop : (segments ++ makeSegmentation f epsilonInnerNode firstKeys).drop segments.length =
      makeSegmentation f epsilonInnerNode firstKeys := by simp
  rw [buildLevels]
  simp only [hdrop, List.length_append]
  cases buildInners bnf (makeSegmentation f epsilonInnerNode firstKeys)
    (firstKeys.zip accelerators) 0 heap with
  | error e => rfl
  | ok r => rfl

/-- 段を積む loop は終わる。失敗は `InnerNode` の `assert` だけである。 -/
theorem buildLevels_outcome (f : Fitter D) (bnf : Nat → Nat) :
    ∀ (fuel : Nat) (segments : List (Segment D)) (firstKeys : List Key)
      (accelerators : List (InnerSlot D)) (heap : List (InnerNode D))
      (params : List (List (Param D))), firstKeys.length < fuel →
      (∃ b, buildLevels f bnf fuel segments segments.length firstKeys accelerators heap params =
        .ok b) ∨
      buildLevels f bnf fuel segments segments.length firstKeys accelerators heap params =
        .error .innerAssert := by
  intro fuel
  induction fuel with
  | zero => intros; omega
  | succ fuel ih =>
    intro segments firstKeys accelerators heap params hlen
    rw [buildLevels_succ]
    rcases buildInners_outcome bnf (makeSegmentation f epsilonInnerNode firstKeys)
      (firstKeys.zip accelerators) 0 heap with ⟨r, hr⟩ | hr
    · rw [hr]
      dsimp only
      split
      · next hroot =>
        have hle : 2 * (makeSegmentation f epsilonInnerNode firstKeys).length ≤
          firstKeys.length + 1 := length_makeSegmentation_le f epsilonInnerNode
        have h8 : rootSize = 8 := rfl
        refine ih _ _ _ _ _ ?_
        rw [List.length_map]
        omega
      · exact Or.inl ⟨_, rfl⟩
    · rw [hr]
      exact Or.inr rfl

/-- 段の構築は heap の後ろに足すだけである。 -/
theorem buildInners_grown {bnf : Nat → Nat} {segs : List (Segment D)} :
    ∀ {data : List (Key × InnerSlot D)} {startPos : Nat} {heap : List (InnerNode D)}
      {r : List (InnerNode D) × List (InnerSlot D) × List (Param D)},
      buildInners bnf segs data startPos heap = .ok r → heap <+: r.1 := by
  induction segs with
  | nil =>
    intro data startPos heap r h
    obtain rfl := Except.ok.inj h
    exact List.prefix_rfl
  | cons seg segs ih =>
    intro data startPos heap r h
    rw [buildInners] at h
    dsimp only at h
    split at h
    · cases h
    · next nd _ =>
      cases hrec : buildInners bnf segs (data.drop seg.number) (startPos + seg.number)
          (heap ++ [nd]) with
      | error e =>
        rw [hrec] at h
        cases h
      | ok r' =>
        rw [hrec] at h
        obtain rfl := Except.ok.inj h
        have hgrown : heap ++ [nd] <+: r'.1 := ih hrec
        exact (List.prefix_append ..).trans hgrown

theorem buildLevels_grown {f : Fitter D} {bnf : Nat → Nat} :
    ∀ {fuel : Nat} {segments : List (Segment D)} {firstKeys : List Key}
      {slots : List (InnerSlot D)} {heap : List (InnerNode D)} {params : List (List (Param D))}
      {b : Built D}, buildLevels f bnf fuel segments segments.length firstKeys slots heap params =
        .ok b → heap <+: b.inners := by
  intro fuel
  induction fuel with
  | zero =>
    intro segments firstKeys slots heap params b h
    cases h
  | succ fuel ih =>
    intro segments firstKeys slots heap params b h
    rw [buildLevels_succ] at h
    split at h
    · cases h
    · next r hr =>
      dsimp only at h
      split at h
      · exact (buildInners_grown hr).trans (ih h)
      · obtain rfl := Except.ok.inj h
        exact buildInners_grown hr

/-- 段を積んだ結果。新しい node は heap の後ろに足され、番地は重ならない。 -/
structure BuiltOn (heap : List (InnerNode D)) (accelerators : List (InnerSlot D)) (b : Built D)
    (tiers : List (Tier D)) : Prop where
  stacked : Stacked b.inners tiers accelerators b.roots
  nodup : (tiers.flatten.map Prod.fst).Nodup
  fresh : ∀ x ∈ tiers.flatten, heap.length ≤ x.1
  grown : heap <+: b.inners

/-- 一段を作り、その上に残りの段を積む。 -/
theorem BuiltOn.cons {heap : List (InnerNode D)} {b : Built D} {tiers : List (Tier D)} {t : Tier D}
    (hid : t.map Prod.fst = List.range' heap.length t.length)
    (hok : ∀ x ∈ t, x.2.Packed ∧ x.2.entries.head?.map InnerSlot.minKey = some x.2.firstKey)
    (h : BuiltOn (heap ++ t.map Prod.snd) t.accelerators b tiers) :
    BuiltOn heap t.entries b (t :: tiers) := by
  have hrange : ∀ x ∈ t, heap.length ≤ x.1 ∧ x.1 < heap.length + t.length := by
    intro x hx
    rw [← List.mem_range'_1, ← hid]
    exact List.mem_map_of_mem hx
  have hfresh : ∀ x ∈ tiers.flatten, heap.length + t.length ≤ x.1 := by
    intro x hx
    have := h.fresh x hx
    rwa [List.length_append, List.length_map] at this
  refine ⟨⟨rfl, ?_, h.stacked⟩, ?_, ?_, (List.prefix_append ..).trans h.grown⟩
  · intro x hx
    obtain ⟨tail, htail⟩ := h.grown
    refine ⟨?_, (hok x hx).1, (hok x hx).2⟩
    rw [← htail, List.getElem?_append_left, getElem?_of_range hid hx]
    rw [List.length_append, List.length_map]
    exact (hrange x hx).2
  · rw [List.flatten_cons, List.map_append, List.nodup_append]
    refine ⟨by rw [hid]; exact List.nodup_range', h.nodup, ?_⟩
    intro i hi j hj hij
    obtain ⟨x, hx, rfl⟩ := List.mem_map.mp hi
    obtain ⟨y, hy, rfl⟩ := List.mem_map.mp hj
    exact absurd hij (Nat.ne_of_lt (Nat.lt_of_lt_of_le (hrange x hx).2 (hfresh y hy)))
  · intro x hx
    rw [List.flatten_cons] at hx
    rcases List.mem_append.mp hx with hx | hx
    · exact (hrange x hx).1
    · have := hfresh x hx
      omega

omit [Arith D] in
/-- 鍵と組にした親 slot の列は、`InnerNode` に渡せる形をしている。 -/
theorem sortedData_zip {slots : List (InnerSlot D)} (hs : SlotsOk lo hi slots)
    (hfree : ∀ s ∈ slots, s.minKey < freeFlag) :
    InnerNode.SortedData (Set.Icc lo hi) ((slots.map InnerSlot.minKey).zip slots) := by
  refine ⟨?_, ?_⟩
  · rw [List.map_fst_zip (by simp)]
    exact List.pairwise_map.mpr hs.sorted
  · intro e he
    obtain ⟨i, hi, rfl⟩ := List.mem_iff_getElem.mp he
    simp only [List.length_zip, List.length_map, min_self] at hi
    have hmem : slots[i] ∈ slots := List.getElem_mem hi
    simp only [List.getElem_zip, List.getElem_map, and_true]
    exact ⟨hs.within _ hmem, hfree _ hmem⟩

/--
**段を積む loop は、渡された slot の列を一番下の子の列とする段を作る。** `parameter` に足される行は、
段の node の `first_key` と model を持つ。
-/
theorem buildLevels_rows {f : Fitter D} {bnf : Nat → Nat} :
    ∀ {fuel : Nat} {segments : List (Segment D)} {slots : List (InnerSlot D)}
      {heap : List (InnerNode D)} {params : List (List (Param D))} {b : Built D},
      buildLevels f bnf fuel segments segments.length (slots.map InnerSlot.minKey) slots heap
        params = .ok b →
      SlotsOk lo hi slots → (∀ s ∈ slots, s.minKey < freeFlag) →
      (∀ nd ∈ b.inners, nd.Tame (Set.Icc lo hi ∩ nd.children)) →
      ∃ t tiers, BuiltOn heap slots b (t :: tiers) ∧
        b.parameter.map (List.map Param.model) =
          params.map (List.map Param.model) ++ (t :: tiers).map Tier.models := by
  intro fuel
  induction fuel with
  | zero =>
    intro segments slots heap params b h
    cases h
  | succ fuel ih =>
    intro segments slots heap params b h hs hfree hreg
    have hsorted : (slots.map InnerSlot.minKey).Pairwise (· < ·) :=
      List.pairwise_map.mpr hs.sorted
    have hcov := covers_makeSegmentation f epsilonInnerNode (hsorted.imp fun hab => le_of_lt hab)
    have hsum := sum_number_makeSegmentation f epsilonInnerNode hsorted
    have hfst : ((slots.map InnerSlot.minKey).zip slots).map Prod.fst =
        slots.map InnerSlot.minKey := List.map_fst_zip (by simp)
    have hsnd : ((slots.map InnerSlot.minKey).zip slots).map Prod.snd = slots :=
      List.map_snd_zip (by simp)
    rw [buildLevels_succ] at h
    split at h
    · cases h
    · next r hr =>
      dsimp only at h
      -- 一段分の構築。node の列は heap の後ろに足される
      have hgo : (∀ nd ∈ r.1, nd.Tame (Set.Icc lo hi ∩ nd.children)) →
          ∃ t : Tier D, r.1 = heap ++ t.map Prod.snd ∧
          t.map Prod.fst = List.range' heap.length t.length ∧ r.2.1 = t.accelerators ∧
          t.entries = slots ∧ t.accelerators.map InnerSlot.minKey =
            (makeSegmentation f epsilonInnerNode (slots.map InnerSlot.minKey)).map (·.firstKey) ∧
          r.2.2.map Param.model = t.models ∧ ∀ x ∈ t, x.2.Packed ∧
            x.2.entries.head?.map InnerSlot.minKey = some x.2.firstKey := by
        intro hr1
        have := buildInners_spec hr (by rw [hfst]; exact hcov) (by rw [hsum]; simp)
          (sortedData_zip hs hfree) hr1
        rwa [hsnd] at this
      split at h
      · obtain ⟨t, h1, h2, h3, h4, h5, hrow, h6⟩ :=
          hgo fun nd hnd => hreg nd ((buildLevels_grown h).subset hnd)
        have hok : ∀ x ∈ t, Tier.NodeOk r.1 x := by
          intro x hx
          exact ⟨by rw [h1]; exact getElem?_of_range h2 hx, (h6 x hx).1, (h6 x hx).2⟩
        rw [h3, ← h5] at h
        -- 親 slot の鍵は、どれかの子の鍵である
        have hfree' : ∀ s ∈ t.accelerators, s.minKey < freeFlag := by
          intro s hs'
          obtain ⟨e, he, hes⟩ := Tier.exists_entry_of_mem hok hs'
          rw [← hes]
          exact hfree e (h4 ▸ he)
        obtain ⟨u, tiers, hb, hrows⟩ := ih h (Stacked.slotsOk_up hok (h4 ▸ hs)) hfree' hreg
        rw [h1] at hb
        refine ⟨t, u :: tiers, h4 ▸ BuiltOn.cons h2 h6 hb, ?_⟩
        rw [hrows, List.map_append, List.append_assoc]
        simp only [List.map_cons, List.map_nil, List.singleton_append, hrow]
      · obtain rfl := Except.ok.inj h
        obtain ⟨t, h1, h2, h3, h4, h5, hrow, h6⟩ := hgo hreg
        refine ⟨t, [], ?_, ?_⟩
        · rw [← h4]
          exact BuiltOn.cons h2 h6 ⟨h3.symm, by simp, by simp, h1 ▸ List.prefix_rfl⟩
        · rw [List.map_append]
          simp only [List.map_cons, List.map_nil, hrow]

theorem buildLevels_spec {f : Fitter D} {bnf : Nat → Nat} {fuel : Nat}
    {segments : List (Segment D)} {slots : List (InnerSlot D)} {heap : List (InnerNode D)}
    {params : List (List (Param D))} {b : Built D}
    (h : buildLevels f bnf fuel segments segments.length (slots.map InnerSlot.minKey) slots heap
      params = .ok b)
    (hs : SlotsOk lo hi slots) (hfree : ∀ s ∈ slots, s.minKey < freeFlag)
    (hreg : ∀ nd ∈ b.inners, nd.Tame (Set.Icc lo hi ∩ nd.children)) :
    ∃ t tiers, BuiltOn heap slots b (t :: tiers) := by
  obtain ⟨t, tiers, hb, -⟩ := buildLevels_rows h hs hfree hreg
  exact ⟨t, tiers, hb⟩

end Build

end Plin
