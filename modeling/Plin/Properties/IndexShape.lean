import Plin.Properties.InnerLevels
import Plin.Properties.LeafBuild

/-!
# 索引の形

索引の状態が保つ形（`PlinIndex.Shape`）をまとめ、その上で `find` が何を返すかを示す。

- leaf は連鎖をなし、`local_table` は連鎖を左から並べたものである。
- inner node の段の一番下の子の列 `slots` は、連鎖の leaf の親 slot の **部分列** である。
  親 slot を持たない leaf（orphan）は、左隣から `next` をたどって見つかる。
-/

namespace Plin

open Infra

variable {D : Type} [Arith D]

namespace PlinIndex

/-- `local_table` の一行。 -/
def record (x : Link D) : TRecord := ⟨x.firstKey, x.1⟩

/--
索引の形。`c` は leaf の連鎖、`t :: rest` は inner node の段、`slots` は一番下の子の列である。
-/
structure Shape (s : PlinIndex D) (c : List (Link D)) (t : Tier D) (rest : List (Tier D))
    (slots : List (InnerSlot D)) : Prop where
  bound : s.maxKey < freeFlag
  chain : Chain s.minKey s.maxKey s.leaves c
  head : (c.map Link.firstKey).head? = some s.minKey
  stacked : Stacked s.inners (t :: rest) slots s.roots
  ids : ((t :: rest).flatten.map Prod.fst).Nodup
  known : slots.Sublist (c.map Link.info)
  first : slots.head? = (c.map Link.info).head?
  table : s.localTable = c.map record

/-- inner node の予測器の性質。 -/
def InnersRegular (s : PlinIndex D) : Prop := ∀ nd ∈ s.inners, nd.Regular s.minKey s.maxKey

/-- 予測器の性質と、番地が `uint32_t` に収まること。 -/
structure Regular (s : PlinIndex D) : Prop where
  inners : s.InnersRegular
  leaves : ∀ l ∈ s.leaves, l.Regular s.minKey s.maxKey
  heap : s.leaves.length < 2 ^ 32

/-- 根から段を下りる間、鍵が向かう node での探索はどれも正しい。 -/
def Guides (s : PlinIndex D) (tiers : List (Tier D)) (key : Key) : Prop :=
  ∀ i a, s.selectRoot key = some i → s.roots[i]? = some a →
    Stacked.PathGuided (Set.Icc s.minKey s.maxKey) s.inners key tiers a

/-! ## 根からの探索 -/

/-- inner node の段の形。`slots` は一番下の子の列で、鍵の順に並び、先頭は `min_key` である。 -/
structure Rooted (s : PlinIndex D) (t : Tier D) (rest : List (Tier D))
    (slots : List (InnerSlot D)) : Prop where
  bound : s.maxKey < freeFlag
  stacked : Stacked s.inners (t :: rest) slots s.roots
  ids : ((t :: rest).flatten.map Prod.fst).Nodup
  slotsOk : SlotsOk s.minKey s.maxKey slots
  low : slots.head?.map InnerSlot.minKey = some s.minKey
  leafSlots : ∀ e ∈ slots, e.type = false

/-- 根からの探索が着く場所。 -/
structure Landing (t : Tier D) (slots : List (InnerSlot D)) (key : Key)
    (X : Tier D) (x : InnerId × InnerNode D) (Y : Tier D) (P : List (InnerSlot D))
    (e : InnerSlot D) (Q : List (InnerSlot D)) : Prop where
  tier : t = X ++ x :: Y
  node : IsPred InnerSlot.minKey key x.2.slots P e Q
  pred : IsPred InnerSlot.minKey key slots (Tier.entries X ++ InnerNode.occupied P) e
    (InnerNode.occupied Q ++ Tier.entries Y)

namespace Rooted

variable {s : PlinIndex D} {t : Tier D} {rest : List (Tier D)} {slots : List (InnerSlot D)}
  {key : Key}

/-- 根の列は鍵の順に並び、先頭は `min_key` である。 -/
theorem exists_root (h : s.Rooted t rest slots) (hlo : s.minKey ≤ key) :
    ∃ i a, s.selectRoot key = some i ∧ s.roots[i]? = some a ∧
      IsPred InnerSlot.minKey key s.roots (s.roots.take i) a (s.roots.drop (i + 1)) := by
  have htop := Stacked.slotsOk_top h.stacked h.slotsOk
  have hroot : s.roots.head?.map InnerSlot.minKey = some s.minKey :=
    Stacked.head_top h.stacked h.low
  obtain ⟨a, ha, hamin⟩ := Option.map_eq_some_iff.mp hroot
  cases hroots : s.roots with
  | nil =>
    rw [hroots] at ha
    cases ha
  | cons r rs =>
    obtain rfl : r = a := by
      rw [hroots] at ha
      simpa using ha
    have hle : decide (r.minKey ≤ key) = true := by
      rw [hamin]
      simpa using hlo
    obtain ⟨i, hi⟩ : ∃ i, (s.roots.takeWhile fun r => decide (r.minKey ≤ key)).length = i + 1 := by
      rw [hroots, List.takeWhile_cons, if_pos hle, List.length_cons]
      exact ⟨_, rfl⟩
    obtain ⟨e, he, hp⟩ := isPred_takeWhile htop.sorted hi
    rw [hroots] at he hp hi
    refine ⟨i, e, ?_, he, hp⟩
    unfold selectRoot
    rw [hroots, hi]

theorem min_le_max (h : s.Rooted t rest slots) : s.minKey ≤ s.maxKey := by
  obtain ⟨e, he, hek⟩ := Option.map_eq_some_iff.mp h.low
  rw [← hek]
  exact (h.slotsOk.within e (List.mem_of_mem_head? he)).2

/-- 段の高さは heap の大きさを超えない。 -/
theorem height_le (h : s.Rooted t rest slots) : rest.length + 1 ≤ s.inners.length := by
  refine Stacked.length_le h.stacked (fun hnil => ?_) h.ids
  have hlow := h.low
  rw [hnil] at hlow
  cases hlow

theorem type_root (h : s.Rooted t rest slots) {a : InnerSlot D} (ha : a ∈ s.roots) :
    a.type = true := by
  refine Stacked.type_top h.stacked.2.2 (fun b hb => ?_) a ha
  obtain ⟨y, _, rfl⟩ := List.mem_map.mp hb
  rfl

/-- 鍵が向かう node での探索がどれも正しければ、選んだ根から段を下りた先は決まる。 -/
theorem exists_landing (h : s.Rooted t rest slots) (hlo : s.minKey ≤ key) (hhi : key ≤ s.maxKey)
    (hg : s.Guides (t :: rest) key) :
    ∃ i a path X x Y P e Q, s.selectRoot key = some i ∧ s.roots[i]? = some a ∧
      Landing t slots key X x Y P e Q ∧
      Stacked.Descends s.inners key a path (x.2.accelerator x.1) ∧
      List.Forall₂ (Tier.Covers key) (t :: rest).reverse (path ++ [x.2.accelerator x.1]) ∧
      s.inners[x.1]? = some x.2 ∧ x.2.search key (x.2.accelerator x.1) = some P.length ∧
      x.2.slots[P.length]? = some e := by
  have hk : key < freeFlag := lt_of_le_of_lt hhi h.bound
  obtain ⟨i, a, hsel, hget, hp⟩ := h.exists_root hlo
  obtain ⟨path, X, x, Y, P, e, Q, ht, hdesc, hcovers, hnode, hstep, hpred⟩ :=
    Stacked.descends_bottom hk hp h.stacked h.slotsOk (hg i a hsel hget)
  obtain ⟨nd, hnd, hsearch, hslot⟩ := hstep
  have hx : s.inners[x.1]? = some x.2 := (h.stacked.2.1 x (by rw [ht]; simp)).stored
  obtain rfl : x.2 = nd := Option.some.inj (hx.symm.trans hnd)
  exact ⟨i, a, path, X, x, Y, P, e, Q, hsel, hget, ⟨ht, hnode, hpred⟩, hdesc, hcovers, hx, hsearch,
    hslot⟩

omit [Arith D] in
/-- 通った親 slot の数は、一番下の段より上の段の数である。 -/
theorem length_path {path : List (InnerSlot D)} {a : InnerSlot D}
    (h : List.Forall₂ (Tier.Covers key) (t :: rest).reverse (path ++ [a])) :
    path.length = rest.length := by
  have hlen := h.length_eq
  rw [List.length_reverse, List.length_cons, List.length_append, List.length_singleton] at hlen
  omega

/-- 探索は、親 slot の列の中で鍵以下の最後の slot に着く。 -/
theorem descend_of_guided (h : s.Rooted t rest slots) (hlo : s.minKey ≤ key)
    (hhi : key ≤ s.maxKey) (hg : s.Guides (t :: rest) key) :
    ∃ X x Y P e Q, Landing t slots key X x Y P e Q ∧
      s.descend key = some (.inner x.1 P.length) ∧
      s.readSlot (.inner x.1 P.length) = some e := by
  obtain ⟨i, a, path, X, x, Y, P, e, Q, hsel, hget, hland, hdesc, hcovers, hx, hsearch, hslot⟩ :=
    h.exists_landing hlo hhi hg
  have hetype := h.leafSlots e hland.pred.mem
  have hheight := h.height_le
  have hlen := length_path hcovers
  refine ⟨X, x, Y, P, e, Q, hland, ?_, ?_⟩
  · have htype := h.type_root (List.mem_of_getElem? hget)
    obtain ⟨n, hn⟩ : ∃ n, s.inners.length + 1 = n + 1 + path.length :=
      ⟨s.inners.length - path.length, by omega⟩
    have hfind : InnerNode.findLeafNode s.inners key (s.inners.length + 1) a.ptr a =
        some (x.1, P.length) := by
      rw [hn, hdesc.findLeafNode, InnerNode.findLeafNode]
      simp only [Option.bind_eq_bind]
      rw [show (x.2.accelerator x.1).ptr = x.1 from rfl, hx, Option.bind_some, hsearch,
        Option.bind_some, hslot, Option.bind_some, hetype]
      rfl
    unfold descend
    simp only [Option.bind_eq_bind]
    rw [hsel, Option.bind_some, hget, Option.bind_some, htype, if_pos rfl, hfind]
    rfl
  · show (s.inners[x.1]?).bind (fun nd => nd.slots[P.length]?) = some e
    rw [hx]
    exact hslot

theorem descend_eq (h : s.Rooted t rest slots)
    (hr : ∀ nd ∈ s.inners, nd.Tame (Set.Icc s.minKey s.maxKey)) (hlo : s.minKey ≤ key)
    (hhi : key ≤ s.maxKey)
    (hin : ∀ i a, s.selectRoot key = some i → s.roots[i]? = some a →
      Stacked.PathReadable s.inners key a (rest.length + 1)) :
    ∃ X x Y P e Q, Landing t slots key X x Y P e Q ∧
      s.descend key = some (.inner x.1 P.length) ∧
      s.readSlot (.inner x.1 P.length) = some e :=
  h.descend_of_guided hlo hhi fun i a hsel hget => (hin i a hsel hget).guided hr hlo hhi

/-- 成功した探索が着いた場所。 -/
theorem of_descend (h : s.Rooted t rest slots)
    (hr : ∀ nd ∈ s.inners, nd.Tame (Set.Icc s.minKey s.maxKey)) (hlo : s.minKey ≤ key)
    (hhi : key ≤ s.maxKey) {addr : SlotAddr} (hd : s.descend key = some addr) :
    ∃ X x Y P e Q, Landing t slots key X x Y P e Q ∧ addr = .inner x.1 P.length ∧
      s.readSlot addr = some e := by
  have hheight := h.height_le
  obtain ⟨X, x, Y, P, e, Q, hland, hdesc, hread⟩ := h.descend_eq hr hlo hhi fun i a hsel hget => by
    unfold descend at hd
    simp only [Option.bind_eq_bind] at hd
    rw [hsel, Option.bind_some, hget, Option.bind_some,
      h.type_root (List.mem_of_getElem? hget), if_pos rfl] at hd
    obtain ⟨r, hfind, -⟩ := Option.bind_eq_some_iff.mp hd
    obtain ⟨n, hn⟩ : ∃ n, s.inners.length + 1 = n + (rest.length + 1) :=
      ⟨s.inners.length - rest.length, by omega⟩
    rw [hn] at hfind
    exact Stacked.pathReadable_of_findLeafNode hfind
  rw [hd] at hdesc
  obtain rfl := Option.some.inj hdesc
  exact ⟨X, x, Y, P, e, Q, hland, rfl, hread⟩

end Rooted

namespace Shape

variable {s : PlinIndex D} {c : List (Link D)} {t : Tier D} {rest : List (Tier D)}
  {slots : List (InnerSlot D)} {key : Key} {payload : Payload}

/-- 親 slot は連鎖の leaf のものである。 -/
theorem exists_link (h : s.Shape c t rest slots) {e : InnerSlot D} (he : e ∈ slots) :
    ∃ x ∈ c, e = x.info := by
  obtain ⟨x, hx, hxe⟩ := List.mem_map.mp (h.known.subset he)
  exact ⟨x, hx, hxe.symm⟩

theorem slotsOk (h : s.Shape c t rest slots) : SlotsOk s.minKey s.maxKey slots where
  sorted := by
    refine List.Pairwise.sublist h.known ?_
    rw [List.pairwise_map]
    exact h.chain.firstKey_sorted
  within := by
    intro e he
    obtain ⟨x, hx, rfl⟩ := h.exists_link he
    exact (h.chain.sound x hx).first

/-- 連鎖と `slots` の先頭。 -/
theorem exists_first (h : s.Shape c t rest slots) :
    ∃ x c' slots', c = x :: c' ∧ slots = x.info :: slots' ∧ x.firstKey = s.minKey := by
  have hhead := h.head
  have hfirst := h.first
  cases c with
  | nil => simp at hhead
  | cons x c' =>
    cases slots with
    | nil => simp at hfirst
    | cons e slots' =>
      obtain rfl : e = x.info := by simpa using hfirst
      exact ⟨x, c', slots', rfl, rfl, by simpa using hhead⟩

theorem rooted (h : s.Shape c t rest slots) : s.Rooted t rest slots where
  bound := h.bound
  stacked := h.stacked
  ids := h.ids
  slotsOk := h.slotsOk
  low := by
    obtain ⟨x, c', slots', -, hslots, hx⟩ := h.exists_first
    rw [hslots]
    exact congrArg some hx
  leafSlots := by
    intro e he
    obtain ⟨y, -, rfl⟩ := h.exists_link he
    rfl

theorem guides (_ : s.Shape c t rest slots) (hr : s.InnersRegular) (hlo : s.minKey ≤ key)
    (hhi : key ≤ s.maxKey) : s.Guides (t :: rest) key := fun _ a _ _ =>
  (Stacked.pathReadable_of_regular hr hlo hhi a _).guided (fun nd hnd => (hr nd hnd).tame) hlo hhi

/-- **内側の鍵の探索は、親 slot の列の中で鍵以下の最後の slot に着く。** -/
theorem descend_eq (h : s.Shape c t rest slots) (hr : s.InnersRegular) (hlo : s.minKey ≤ key)
    (hhi : key ≤ s.maxKey) :
    ∃ X x Y P e Q, Landing t slots key X x Y P e Q ∧
      s.descend key = some (.inner x.1 P.length) ∧
      s.readSlot (.inner x.1 P.length) = some e :=
  h.rooted.descend_of_guided hlo hhi (h.guides hr hlo hhi)

/-- 着いた slot の leaf から始めた `locate` は、連鎖の中で鍵以下の最後の leaf に着く。 -/
theorem locate_eq (h : s.Shape c t rest slots) (hr : ∀ x ∈ c, x.2.Regular s.minKey s.maxKey)
    (hhi : key ≤ s.maxKey) {U V : List (InnerSlot D)} {e : InnerSlot D}
    (he : IsPred InnerSlot.minKey key slots U e V) :
    ∃ A z B acc, IsPred Link.firstKey key c A z B ∧
      LeafNode.locate s.leaves key (s.leaves.length + 1) e.ptr (some e) =
        some (.at z.1 acc (z.2.predict key)) ∧ (acc = some e ∧ e = z.info ∨ acc = none) := by
  obtain ⟨y, hy, rfl⟩ := h.exists_link he.mem
  obtain ⟨X, W, rfl⟩ := List.append_of_mem hy
  have hlen := Chain.length_le h.chain.stored h.chain.nodup
  rw [List.length_append, List.length_cons] at hlen
  obtain ⟨A, z, B, hpred, hloc⟩ := @Chain.locate_eq D _ _ _ _ _ _ h.chain hr hhi W X y
    (s.leaves.length + 1) (some y.info) rfl he.le (by omega)
    (fun s hs => (Option.some.inj hs).symm)
  refine ⟨X ++ A, z, B, _, ⟨by rw [hpred.eq]; simp, hpred.le, hpred.gt⟩, hloc, ?_⟩
  by_cases hA : A = []
  · have heq := hpred.eq
    rw [hA, List.nil_append] at heq
    rw [if_pos hA, (List.cons.inj heq).1]
    exact Or.inl ⟨rfl, rfl⟩
  · rw [if_neg hA]
    exact Or.inr rfl

/-- どの leaf にも親 slot が在れば、`locate` は着いた leaf に留まる。 -/
theorem locate_full (h : s.Shape c t rest (c.map Link.info)) {U V : List (InnerSlot D)}
    {e : InnerSlot D} (he : IsPred InnerSlot.minKey key (c.map Link.info) U e V) :
    ∃ A z B, IsPred Link.firstKey key c A z B ∧ e = z.info ∧
      LeafNode.locate s.leaves key (s.leaves.length + 1) e.ptr (some e) =
        some (.at z.1 (some e) (z.2.predict key)) := by
  obtain ⟨A, C, hc, rfl, hC⟩ := List.map_eq_append_iff.mp he.eq
  obtain ⟨z, B, rfl, rfl, rfl⟩ := List.map_eq_cons_iff.mp hC
  have hB : ∀ w ∈ B, key < w.firstKey := fun w hw => he.gt w.info (List.mem_map_of_mem hw)
  refine ⟨A, z, B, ⟨hc, he.le, hB⟩, rfl, ?_⟩
  exact h.chain.locate_stay hc hB (fun s hs => (Option.some.inj hs).symm) _

end Shape

/-! ## `find` -/

variable {s : PlinIndex D} {key : Key} {payload : Payload}

/-- 区間の外の鍵は buffer を引く。 -/
theorem find_outside (s : PlinIndex D) (h : ¬ (s.minKey ≤ key ∧ key ≤ s.maxKey))
    (payload : Payload) :
    s.find key payload =
      match (if key < s.minKey then s.leftBuffer.find key else s.rightBuffer.find key) with
      | some p => .ok (true, p)
      | none => .ok (false, payload) := by
  unfold find
  rw [if_neg h]
  cases (if key < s.minKey then s.leftBuffer.find key else s.rightBuffer.find key) <;> rfl

/-- 区間の中の鍵は、探索と `locate` が選んだ block を引く。 -/
theorem find_inside (hlo : s.minKey ≤ key) (hhi : key ≤ s.maxKey) {addr : SlotAddr}
    {a : InnerSlot D} (hdesc : s.descend key = some addr) (hread : s.readSlot addr = some a)
    (hlock : a.readLock = false) {this : LeafId} {acc : Option (InnerSlot D)} {block : Nat}
    (hloc : LeafNode.locate s.leaves key (s.leaves.length + 1) a.ptr (some a) =
      some (.at this acc block)) {l : LeafNode D} (hl : s.leaves[this]? = some l) {b : Block}
    (hb : l.blocks[LeafNode.slotBlock block]? = some b) :
    s.find key payload = .ok (match b.get key with
      | some v => (true, v)
      | none => (false, payload)) := by
  have hfind : LeafNode.find s.leaves a.ptr key payload (some a) = some (b.find key payload) :=
    LeafNode.find_of_locate hloc hl hb
  unfold find
  rw [if_pos ⟨hlo, hhi⟩, hdesc]
  show (do
    let a ← orFault (s.readSlot addr)
    if a.readLock then .error .retryForever
    else
      let r ← orFault (LeafNode.find s.leaves a.ptr key payload (some a))
      if r.1 = 2 then .error .retryForever else return (r.1 == 1, r.2)) = _
  rw [hread]
  show (if a.readLock then Except.error IndexFault.retryForever
    else do
      let r ← orFault (LeafNode.find s.leaves a.ptr key payload (some a))
      if r.1 = 2 then .error .retryForever else return (r.1 == 1, r.2)) = _
  rw [hlock, hfind, Block.find_eq]
  cases b.get key <;> rfl

end PlinIndex

/-! ## 中身を引く -/

variable {lo hi key : Key} {leaves : List (LeafNode D)} {c : List (Link D)}

/-- 鍵を持つ leaf は、連鎖の中で鍵以下の最後の leaf である。 -/
theorem Chain.eq_of_stores (h : Chain lo hi leaves c) {A B : List (Link D)} {z x : Link D}
    (hp : IsPred Link.firstKey key c A z B) (hx : x ∈ c) (hs : x.2.Stores key) : x = z := by
  have hsorted := h.sorted
  rw [hp.eq] at hx hsorted
  rcases List.mem_append.mp hx with hxA | hxB
  · have hb := (List.pairwise_append.mp hsorted).2.2 x hxA z (by simp)
    exact absurd hp.le (not_le_of_gt (hb.keys key hs))
  · rcases List.mem_cons.mp hxB with rfl | hxB
    · rfl
    · have hxc : x ∈ c := by rw [hp.eq]; exact hx
      exact absurd ((h.sound x hxc).keys key hs).1 (not_le_of_gt (hp.gt x hxB))

/-- 予測した block を引くと、写像の値が出る。 -/
theorem Chain.get_eq (h : Chain lo hi leaves c) {m : Key → Option Payload} (hm : Contents c m)
    {A B : List (Link D)} {z : Link D} (hp : IsPred Link.firstKey key c A z B)
    (hk : key ≠ freeFlag) {b : Block} (hb : z.2.blocks[z.2.predict key]? = some b) :
    b.get key = m key := by
  cases hget : b.get key with
  | some v => exact (hm.sound z hp.mem b (List.mem_of_getElem? hb) key v hk hget).symm
  | none =>
    cases hmk : m key with
    | none => rfl
    | some v =>
      obtain ⟨_, x, hx, b', hb', hv⟩ := hm.complete key v hmk
      obtain rfl := h.eq_of_stores hp hx ⟨hk, b', hb', by simp [hv]⟩
      obtain ⟨i, hi⟩ := List.mem_iff_getElem?.mp hb'
      have := hm.home x hx i b' key hi hk (by simp [hv])
      rw [this, hb] at hi
      obtain rfl := Option.some.inj hi
      rw [hget] at hv
      cases hv

namespace PlinIndex

/--
どの leaf にも親 slot が在り、根からの探索が正しければ、`find` は鍵以下の最後の leaf の、予測した block を引く。
-/
theorem Shape.find_full {s : PlinIndex D} {t : Tier D} {rest : List (Tier D)}
    (h : s.Shape c t rest (c.map Link.info)) (hlo : s.minKey ≤ key) (hhi : key ≤ s.maxKey)
    (hg : s.Guides (t :: rest) key) :
    ∃ A z B b, IsPred Link.firstKey key c A z B ∧
      z.2.blocks[LeafNode.slotBlock (z.2.predict key)]? = some b ∧
      ∀ payload, s.find key payload = .ok (match b.get key with
        | some v => (true, v)
        | none => (false, payload)) := by
  obtain ⟨X, x, Y, P, e, Q, hland, hdesc, hread⟩ := h.rooted.descend_of_guided hlo hhi hg
  obtain ⟨A, z, B, hp, rfl, hloc⟩ := h.locate_full hland.pred
  have hlt : LeafNode.slotBlock (z.2.predict key) < z.2.blocks.length :=
    lt_of_le_of_lt (LeafNode.slotBlock_le _) ((h.chain.sound z hp.mem).room key)
  have hb := List.getElem?_eq_getElem hlt
  refine ⟨A, z, B, _, hp, hb, fun payload => ?_⟩
  exact find_inside hlo hhi hdesc hread rfl hloc (h.chain.stored z hp.mem) hb

/-- **予測器が正しければ、`find` は連鎖の中身を引く。** -/
theorem Shape.find_eq {s : PlinIndex D} {t : Tier D} {rest : List (Tier D)}
    {slots : List (InnerSlot D)} {m : Key → Option Payload} (h : s.Shape c t rest slots)
    (hr : s.Regular) (hm : Contents c m) (hlo : s.minKey ≤ key) (hhi : key ≤ s.maxKey)
    (payload : Payload) :
    s.find key payload = .ok (match m key with
      | some v => (true, v)
      | none => (false, payload)) := by
  obtain ⟨X, x, Y, P, e, Q, hland, hdesc, hread⟩ := h.descend_eq hr.inners hlo hhi
  have hleaf : ∀ x ∈ c, x.2.Regular s.minKey s.maxKey :=
    fun x hx => hr.leaves x.2 (List.mem_of_getElem? (h.chain.stored x hx))
  obtain ⟨A, z, B, acc, hp, hloc, _⟩ := h.locate_eq hleaf hhi hland.pred
  have hz : z ∈ c := hp.mem
  have haddr : LeafNode.slotBlock (z.2.predict key) = z.2.predict key :=
    (LeafNode.slotBlock_eq_iff (LeafNode.predictBlock_lt_two_pow ..)).mpr
      ((hleaf z hz).addressable key hlo hhi)
  have hb := List.getElem?_eq_getElem ((h.chain.sound z hz).room key)
  have hlock : e.readLock = false := by
    obtain ⟨y, _, rfl⟩ := h.exists_link hland.pred.mem
    rfl
  rw [find_inside hlo hhi hdesc hread hlock hloc (h.chain.stored z hz) (by rw [haddr]; exact hb),
    h.chain.get_eq hm hp (ne_of_lt (lt_of_le_of_lt hhi h.bound)) hb]

end PlinIndex

end Plin
