import Plin.Properties.IndexShape

/-!
# 親 slot の列の書き換え

`split` は新しい leaf を `upsert_node` で一つずつ親に知らせ、分割の間だけ元の親 slot に lock を掛ける。
orphan が増えすぎると、連鎖から inner node の段を作り直す（`rebuild_inner_nodes`）。

どれも段の形（`PlinIndex.Rooted`）を保つ。`upsert_node` が slot の列にすることは三通りしかない
（`Placed`）。slot の列の外を読む探索は続けられないので、成功した操作についてだけ述べる。
-/

namespace Plin

open Infra

variable {D : Type} [Arith D]

namespace InnerNode

/-- 予測器が鍵の範囲の上で単調である。 -/
def Nondecreasing (lo hi : Key) (nd : InnerNode D) : Prop :=
  ∀ a b, lo ≤ a → a ≤ b → b ≤ hi →
    predictBlock a nd.slope nd.intercept nd.blockNumber ≤
      predictBlock b nd.slope nd.intercept nd.blockNumber

/-- slot の列の長さは block 数で決まる。 -/
def Full (nd : InnerNode D) : Prop := nd.slots.length = nd.blockNumber * innerSlotsPerBlock

theorem Nondecreasing.tame {lo hi : Key} {nd : InnerNode D} (h : nd.Nondecreasing lo hi)
    (hf : nd.Full) : nd.Tame (Set.Icc lo hi) := by
  refine ⟨fun a ha b hb hab => h a b ha.1 hab hb.2, fun k _ hin => ?_⟩
  rw [hf] at hin
  exact Nat.lt_of_mul_lt_mul_right hin

end InnerNode

/-! ## heap の変わらない部分 -/

/-- inner node の heap で変わったのは、slot の中身だけである。 -/
structure SameInners (inners inners' : List (InnerNode D)) : Prop where
  length : inners'.length = inners.length
  header : ∀ nd' ∈ inners', ∃ nd ∈ inners,
    nd' = { nd with slots := nd'.slots } ∧ nd'.slots.length = nd.slots.length

namespace SameInners

variable {inners inners' inners'' : List (InnerNode D)} {lo hi : Key}

omit [Arith D] in
theorem refl (inners : List (InnerNode D)) : SameInners inners inners :=
  ⟨rfl, fun nd hnd => ⟨nd, hnd, rfl, rfl⟩⟩

omit [Arith D] in
theorem trans (h : SameInners inners inners') (h' : SameInners inners' inners'') :
    SameInners inners inners'' := by
  refine ⟨h'.length.trans h.length, fun nd'' hnd'' => ?_⟩
  obtain ⟨nd', hnd', heq', hlen'⟩ := h'.header nd'' hnd''
  obtain ⟨nd, hnd, heq, hlen⟩ := h.header nd' hnd'
  refine ⟨nd, hnd, ?_, hlen'.trans hlen⟩
  rw [heq', heq]

omit [Arith D] in
theorem set {i : InnerId} {nd nd' : InnerNode D} (hi : inners[i]? = some nd)
    (hnd : nd' = { nd with slots := nd'.slots }) (hlen : nd'.slots.length = nd.slots.length) :
    SameInners inners (inners.set i nd') := by
  refine ⟨List.length_set, fun m hm => ?_⟩
  rcases List.mem_or_eq_of_mem_set hm with hm | rfl
  · exact ⟨m, hm, rfl, rfl⟩
  · exact ⟨nd, List.mem_of_getElem? hi, hnd, hlen⟩

theorem tame (h : SameInners inners inners') (ht : ∀ nd ∈ inners, nd.Tame (Set.Icc lo hi)) :
    ∀ nd ∈ inners', nd.Tame (Set.Icc lo hi) := by
  intro nd' hnd'
  obtain ⟨nd, hnd, heq, hlen⟩ := h.header nd' hnd'
  rw [heq]
  exact (ht nd hnd).withSlots hlen

theorem regular (h : SameInners inners inners') (hr : ∀ nd ∈ inners, nd.Regular lo hi) :
    ∀ nd ∈ inners', nd.Regular lo hi := by
  intro nd' hnd'
  obtain ⟨nd, hnd, heq, -⟩ := h.header nd' hnd'
  rw [heq]
  exact ⟨(hr nd hnd).mono, (hr nd hnd).inside⟩

omit [Arith D] in
theorem full (h : SameInners inners inners') (hf : ∀ nd ∈ inners, nd.Full) :
    ∀ nd ∈ inners', nd.Full := by
  intro nd' hnd'
  obtain ⟨nd, hnd, heq, hlen⟩ := h.header nd' hnd'
  rw [InnerNode.Full, hlen, hf nd hnd, heq]

end SameInners

/-! ## `upsert_node` -/

/-- `upsert_node` が親 slot の列にする三通りのこと。番号は返り値である。 -/
inductive Placed (node : InnerSlot D) : Nat → List (InnerSlot D) → List (InnerSlot D) → Prop
  | updated (U : List (InnerSlot D)) (e : InnerSlot D) (V : List (InnerSlot D))
      (hkey : e.minKey = node.minKey) : Placed node 1 (U ++ e :: V) (U ++ node :: V)
  | inserted (U : List (InnerSlot D)) (e : InnerSlot D) (V : List (InnerSlot D))
      (hlt : e.minKey < node.minKey) (hgt : ∀ v ∈ V, node.minKey < v.minKey) :
      Placed node 2 (U ++ e :: V) (U ++ e :: node :: V)
  | failed (slots : List (InnerSlot D)) (hne : ∀ e ∈ slots, e.minKey ≠ node.minKey) :
      Placed node 3 slots slots

namespace Placed

variable {node : InnerSlot D} {ret : Nat} {slots slots' : List (InnerSlot D)} {lo hi : Key}

omit [Arith D] in
theorem mem (h : Placed node ret slots slots') {e : InnerSlot D} (he : e ∈ slots') :
    e = node ∨ e ∈ slots := by
  cases h with
  | updated U x V hkey =>
    rcases List.mem_append.mp he with he | he
    · exact Or.inr (by simp [he])
    · rcases List.mem_cons.mp he with he | he
      · exact Or.inl he
      · exact Or.inr (by simp [he])
  | inserted U x V hlt hgt =>
    rcases List.mem_append.mp he with he | he
    · exact Or.inr (by simp [he])
    · rcases List.mem_cons.mp he with he | he
      · exact Or.inr (by simp [he])
      · rcases List.mem_cons.mp he with he | he
        · exact Or.inl he
        · exact Or.inr (by simp [he])
  | failed => exact Or.inr he

omit [Arith D] in
theorem slotsOk (h : Placed node ret slots slots') (hs : SlotsOk lo hi slots)
    (hnode : lo ≤ node.minKey ∧ node.minKey ≤ hi) : SlotsOk lo hi slots' := by
  refine ⟨?_, fun e he => ?_⟩
  · cases h with
    | updated U x V hkey =>
      have hsorted := hs.sorted
      rw [List.pairwise_append, List.pairwise_cons] at hsorted ⊢
      obtain ⟨hU, ⟨hxV, hV⟩, hUx⟩ := hsorted
      refine ⟨hU, ⟨fun v hv => hkey ▸ hxV v hv, hV⟩, fun u hu v hv => ?_⟩
      rcases List.mem_cons.mp hv with rfl | hv
      · exact hkey ▸ hUx u hu x (by simp)
      · exact hUx u hu v (by simp [hv])
    | inserted U x V hlt hgt =>
      have hsorted := hs.sorted
      rw [List.pairwise_append, List.pairwise_cons] at hsorted ⊢
      obtain ⟨hU, ⟨hxV, hV⟩, hUx⟩ := hsorted
      refine ⟨hU, ⟨?_, List.pairwise_cons.mpr ⟨hgt, hV⟩⟩, fun u hu v hv => ?_⟩
      · intro v hv
        rcases List.mem_cons.mp hv with rfl | hv
        · exact hlt
        · exact hxV v hv
      · rcases List.mem_cons.mp hv with rfl | hv
        · exact hUx u hu v (by simp)
        · rcases List.mem_cons.mp hv with rfl | hv
          · exact lt_trans (hUx u hu x (by simp)) hlt
          · exact hUx u hu v (by simp [hv])
    | failed => exact hs.sorted
  · rcases h.mem he with rfl | he
    · exact hnode
    · exact hs.within e he

omit [Arith D] in
/-- 先頭の鍵は変わらない。 -/
theorem head_minKey (h : Placed node ret slots slots') :
    slots'.head?.map InnerSlot.minKey = slots.head?.map InnerSlot.minKey := by
  cases h with
  | updated U x V hkey => cases U <;> simp [hkey]
  | inserted U x V => cases U <;> rfl
  | failed => rfl

omit [Arith D] in
/-- 先頭より大きい鍵の子は、先頭を変えない。 -/
theorem head (h : Placed node ret slots slots') {e : InnerSlot D} (he : slots.head? = some e)
    (hlt : e.minKey < node.minKey) : slots'.head? = some e := by
  cases h with
  | updated U x V hkey =>
    cases U with
    | nil =>
      obtain rfl : x = e := by simpa using he
      exact absurd hkey (ne_of_lt hlt)
    | cons u U => simpa using he
  | inserted U x V => cases U <;> simpa using he
  | failed => exact he

omit [Arith D] in
/-- どの子の鍵も残る。 -/
theorem exists_minKey (h : Placed node ret slots slots') {e : InnerSlot D} (he : e ∈ slots) :
    ∃ e' ∈ slots', e'.minKey = e.minKey := by
  cases h with
  | updated U x V hkey =>
    rcases List.mem_append.mp he with he | he
    · exact ⟨e, by simp [he], rfl⟩
    · rcases List.mem_cons.mp he with rfl | he
      · exact ⟨node, by simp, hkey.symm⟩
      · exact ⟨e, by simp [he], rfl⟩
  | inserted U x V hlt hgt =>
    refine ⟨e, ?_, rfl⟩
    simp only [List.mem_append, List.mem_cons] at he ⊢
    tauto
  | failed => exact ⟨e, he, rfl⟩

omit [Arith D] in
/-- 鍵の同じ子が在れば、それを置き換える。 -/
theorem eq_updated {U V : List (InnerSlot D)} {e : InnerSlot D}
    (h : Placed node ret (U ++ e :: V) slots')
    (hs : (U ++ e :: V).Pairwise fun a b => a.minKey < b.minKey) (hkey : e.minKey = node.minKey) :
    ret = 1 ∧ slots' = U ++ node :: V := by
  have hpred : IsPred InnerSlot.minKey node.minKey (U ++ e :: V) U e V := by
    refine ⟨rfl, hkey.le, fun v hv => ?_⟩
    rw [← hkey]
    exact (List.pairwise_cons.mp (List.pairwise_append.mp hs).2.1).1 v hv
  generalize hslots : U ++ e :: V = slots at h hs hpred
  cases h with
  | updated U' e' V' hkey' =>
    have hpred' : IsPred InnerSlot.minKey node.minKey (U' ++ e' :: V') U' e' V' := by
      refine ⟨rfl, hkey'.le, fun v hv => ?_⟩
      rw [← hkey']
      exact (List.pairwise_cons.mp (List.pairwise_append.mp hs).2.1).1 v hv
    obtain ⟨rfl, -, rfl⟩ := hpred.unique hpred'
    exact ⟨rfl, rfl⟩
  | inserted U' e' V' hlt hgt =>
    obtain ⟨-, rfl, -⟩ := hpred.unique ⟨rfl, hlt.le, hgt⟩
    exact absurd hkey (ne_of_lt hlt)
  | failed _ hne =>
    rw [← hslots] at hne
    exact absurd hkey (hne e (by simp))

omit [Arith D] in
/-- 鍵の同じ子が無ければ、置き換えは起こらない。 -/
theorem one_lt (h : Placed node ret slots slots') (hne : ∀ e ∈ slots, e.minKey ≠ node.minKey) :
    1 < ret := by
  cases h with
  | updated U e V hkey => exact absurd hkey (hne e (by simp))
  | inserted => decide
  | failed => decide

end Placed

namespace PlinIndex

/-! ## 一番下の段の node の書き換え -/

/-- 一つの node の書き換えを索引に戻す。 -/
def withUpserted (s : PlinIndex D) (id : InnerId) (r : Nat × InnerNode D) : PlinIndex D :=
  { s with
    inners := s.inners.set id r.2
    leafNumber := if 1 < r.1 then (s.leafNumber + 1) % 2 ^ 32 else s.leafNumber
    orphanNumber := if 2 < r.1 then (s.orphanNumber + 1) % 2 ^ 32 else s.orphanNumber }

/-- `upsert_node` が書き換える node `x` と、その中の直前の子 `e`。 -/
structure Target (s : PlinIndex D) (t : Tier D) (slots : List (InnerSlot D)) (node : InnerSlot D)
    (X : Tier D) (x : InnerId × InnerNode D) (Y : Tier D) (P : List (InnerSlot D))
    (e : InnerSlot D) (Q : List (InnerSlot D)) : Prop where
  landing : Landing t slots node.minKey X x Y P e Q
  ok : Tier.NodeOk s.inners x
  start : x.2.startSlot node.minKey < x.2.slots.length
  upsert : s.upsertNode node =
    (x.2.upsertHere node (x.2.accelerator x.1) P.length).map (withUpserted s x.1)

namespace Rooted

variable {s : PlinIndex D} {t : Tier D} {rest : List (Tier D)} {slots : List (InnerSlot D)}

/-- 一番下の段の node の slot を書き換える。 -/
theorem setNode (h : s.Rooted t rest slots) {X Y : Tier D} {x : InnerId × InnerNode D}
    (ht : t = X ++ x :: Y) {new : List (InnerSlot D)}
    (hpacked : InnerNode.Packed { x.2 with slots := new })
    (hhead : (InnerNode.occupied new).head?.map InnerSlot.minKey = some x.2.firstKey)
    (hok : SlotsOk s.minKey s.maxKey (Tier.entries X ++ InnerNode.occupied new ++ Tier.entries Y))
    (hlow : (Tier.entries X ++ InnerNode.occupied new ++ Tier.entries Y).head?.map
      InnerSlot.minKey = some s.minKey)
    (hleaf : ∀ e ∈ InnerNode.occupied new, e.type = false) :
    PlinIndex.Rooted { s with inners := s.inners.set x.1 { x.2 with slots := new } }
      (X ++ (x.1, { x.2 with slots := new }) :: Y) rest
      (Tier.entries X ++ InnerNode.occupied new ++ Tier.entries Y) := by
  subst ht
  refine ⟨h.bound, Stacked.setBottom h.stacked h.ids hpacked hhead, ?_, hok, hlow, fun e he => ?_⟩
  · have hids := h.ids
    rw [List.flatten_cons, List.map_append, List.map_append, List.map_cons] at hids ⊢
    exact hids
  · rw [List.mem_append, List.mem_append] at he
    have hent : slots = Tier.entries X ++ x.2.entries ++ Tier.entries Y := by
      rw [← h.stacked.1]
      simp
    rcases he with (he | he) | he
    · exact h.leafSlots e (by rw [hent]; simp [he])
    · exact hleaf e he
    · exact h.leafSlots e (by rw [hent]; simp [he])

omit [Arith D] in
theorem set_of_getElem? {inners : List (InnerNode D)} {i : InnerId} {nd : InnerNode D}
    (h : inners[i]? = some nd) : inners.set i nd = inners := by
  obtain ⟨hlt, hval⟩ := List.getElem?_eq_some_iff.mp h
  rw [← hval]
  exact List.set_getElem_self hlt

omit [Arith D] in
/-- node の slot の書き換えは、一つの node を書き直すことである。 -/
theorem modifySlot_inner {i : InnerId} {nd : InnerNode D} (h : s.inners[i]? = some nd)
    (g : InnerSlot D → InnerSlot D) (j : Nat) : s.modifySlot g (.inner i j) =
      { s with inners := s.inners.set i { nd with slots := nd.slots.modify j g } } := by
  have hmod : s.inners.modify i (fun nd => { nd with slots := nd.slots.modify j g }) =
      s.inners.set i { nd with slots := nd.slots.modify j g } := by
    obtain ⟨hlt, hval⟩ := List.getElem?_eq_some_iff.mp h
    rw [List.modify_eq_set_get _ hlt, List.get_eq_getElem, hval]
  exact congrArg (fun inners => { s with inners := inners }) hmod

omit [Arith D] in
theorem readSlot_inner {i : InnerId} {nd : InnerNode D} (h : s.inners[i]? = some nd) (j : Nat) :
    s.readSlot (.inner i j) = nd.slots[j]? := by
  show (s.inners[i]?).bind (fun nd => nd.slots[j]?) = _
  rw [h]
  rfl

section ModifySlot

variable {g : InnerSlot D → InnerSlot D} {X Y : Tier D} {x : InnerId × InnerNode D}
  {U V : List (InnerSlot D)} {e : InnerSlot D}

/-- 空きの slot を書き換えても、子の列は変わらない。 -/
theorem modifySlot_free (h : s.Rooted t rest slots) (hkey : ∀ e, (g e).minKey = e.minKey)
    (ht : t = X ++ x :: Y) (hslots : x.2.slots = U ++ e :: V) (hfree : e.isFree = true) :
    PlinIndex.Rooted
      { s with inners := s.inners.set x.1 { x.2 with slots := U ++ g e :: V } }
      (X ++ (x.1, { x.2 with slots := U ++ g e :: V }) :: Y) rest slots := by
  have hxok := h.stacked.2.1 x (by rw [ht]; simp)
  have hent : Tier.entries X ++ x.2.entries ++ Tier.entries Y = slots := by
    rw [← h.stacked.1, ht]
    simp
  have hfree' : (g e).isFree = true := by
    rw [← hfree]
    simp [InnerSlot.isFree, hkey]
  have hocc : InnerNode.occupied (U ++ g e :: V) = x.2.entries := by
    rw [InnerNode.entries, hslots, InnerNode.occupied_append, InnerNode.occupied_append,
      InnerNode.occupied_cons_of_free hfree', InnerNode.occupied_cons_of_free hfree]
  have hroot := h.setNode ht (hxok.packed.replace hslots (hkey e)) (by rw [hocc]; exact hxok.head)
    (by rw [hocc, hent]; exact h.slotsOk) (by rw [hocc, hent]; exact h.low) fun u hu => ?_
  · rwa [hocc, hent] at hroot
  · rw [hocc] at hu
    exact h.leafSlots u (by rw [← hent]; simp [hu])

/-- 子の slot を書き換えれば、子の列でもそれだけが変わる。 -/
theorem modifySlot_occupied (h : s.Rooted t rest slots) (hkey : ∀ e, (g e).minKey = e.minKey)
    (htype : ∀ e, (g e).type = e.type) (ht : t = X ++ x :: Y)
    (hslots : x.2.slots = U ++ e :: V) (hfree : e.isFree = false) :
    ∃ U' V', slots = U' ++ e :: V' ∧
      PlinIndex.Rooted
        { s with inners := s.inners.set x.1 { x.2 with slots := U ++ g e :: V } }
        (X ++ (x.1, { x.2 with slots := U ++ g e :: V }) :: Y) rest (U' ++ g e :: V') := by
  have hxok := h.stacked.2.1 x (by rw [ht]; simp)
  have hfree' : (g e).isFree = false := by
    rw [← hfree]
    simp [InnerSlot.isFree, hkey]
  have hocc : InnerNode.occupied (U ++ g e :: V) =
      InnerNode.occupied U ++ g e :: InnerNode.occupied V := by
    rw [InnerNode.occupied_append, InnerNode.occupied_cons_of_not_free hfree']
  have hold : x.2.entries = InnerNode.occupied U ++ e :: InnerNode.occupied V := by
    rw [InnerNode.entries, hslots, InnerNode.occupied_append,
      InnerNode.occupied_cons_of_not_free hfree]
  -- node の子の列の左右に、隣の node の子が並ぶ
  have hcut : slots = (Tier.entries X ++ InnerNode.occupied U) ++ e ::
      (InnerNode.occupied V ++ Tier.entries Y) := by
    rw [← h.stacked.1, ht, Tier.entries_append, Tier.entries_cons, hold]
    simp
  have hnew : Tier.entries X ++ InnerNode.occupied (U ++ g e :: V) ++ Tier.entries Y =
      (Tier.entries X ++ InnerNode.occupied U) ++ g e ::
        (InnerNode.occupied V ++ Tier.entries Y) := by
    rw [hocc]
    simp
  have hplaced : Placed (g e) 1 slots
      (Tier.entries X ++ InnerNode.occupied (U ++ g e :: V) ++ Tier.entries Y) := by
    rw [hnew, hcut]
    exact .updated _ e _ (hkey e).symm
  have he : e ∈ slots := by
    rw [hcut]
    simp
  have hroot := h.setNode ht (hxok.packed.replace hslots (hkey e)) ?_
    (hplaced.slotsOk h.slotsOk (by rw [hkey]; exact h.slotsOk.within e he))
    (hplaced.head_minKey.trans h.low) fun u hu => ?_
  · rw [hnew] at hroot
    exact ⟨_, _, hcut, hroot⟩
  · rw [hocc, ← hxok.head, hold]
    exact (Placed.updated _ e _ (hkey e).symm).head_minKey
  · rw [hocc, List.mem_append, List.mem_cons] at hu
    rcases hu with hu | rfl | hu
    · exact h.leafSlots u (by rw [hcut]; simp [hu])
    · rw [htype]
      exact h.leafSlots e he
    · exact h.leafSlots u (by rw [hcut]; simp [hu])

end ModifySlot

/-- **lock の書き換えは段の形を保つ。** 書き換わる子は高々一つである。 -/
theorem modifySlot (h : s.Rooted t rest slots) {g : InnerSlot D → InnerSlot D}
    (hkey : ∀ e, (g e).minKey = e.minKey) (htype : ∀ e, (g e).type = e.type) {i : InnerId}
    {j : Nat} (hi : i ∈ t.map Prod.fst) :
    ∃ t' slots', (s.modifySlot g (.inner i j)).Rooted t' rest slots' ∧
      t'.map Prod.fst = t.map Prod.fst ∧
      SameInners s.inners (s.modifySlot g (.inner i j)).inners ∧
      ((slots' = slots ∧ ∀ e, s.readSlot (.inner i j) = some e → e.isFree = true) ∨
        ∃ U e V, s.readSlot (.inner i j) = some e ∧ slots = U ++ e :: V ∧
          slots' = U ++ g e :: V) := by
  obtain ⟨x, hx, rfl⟩ := List.mem_map.mp hi
  obtain ⟨X, Y, ht⟩ := List.append_of_mem hx
  have hxok := h.stacked.2.1 x hx
  have hsame : SameInners s.inners
      (s.inners.set x.1 { x.2 with slots := x.2.slots.modify j g }) :=
    SameInners.set hxok.stored rfl (List.length_modify ..)
  have hids : (X ++ (x.1, { x.2 with slots := x.2.slots.modify j g }) :: Y).map Prod.fst =
      t.map Prod.fst := by
    rw [ht, List.map_append, List.map_append]
    rfl
  rw [modifySlot_inner hxok.stored, readSlot_inner hxok.stored]
  cases hj : x.2.slots[j]? with
  | none =>
    have hid : x.2.slots.modify j g = x.2.slots := by
      rw [List.modify_eq_set_getElem?, hj]
      rfl
    rw [hid, set_of_getElem? hxok.stored] at hsame ⊢
    exact ⟨t, slots, h, rfl, hsame, Or.inl ⟨rfl, fun e he => by cases he⟩⟩
  | some e =>
    obtain ⟨hlt, hval⟩ := List.getElem?_eq_some_iff.mp hj
    have hcut : x.2.slots = x.2.slots.take j ++ e :: x.2.slots.drop (j + 1) := by
      rw [← hval, ← List.drop_eq_getElem_cons hlt, List.take_append_drop]
    have hmodify : x.2.slots.modify j g =
        x.2.slots.take j ++ g e :: x.2.slots.drop (j + 1) := by
      rw [List.modify_eq_take_cons_drop hlt, hval]
    rw [hmodify] at hids hsame ⊢
    by_cases hfree : e.isFree = true
    · exact ⟨_, _, h.modifySlot_free hkey ht hcut hfree, hids, hsame,
        Or.inl ⟨rfl, fun u hu => Option.some.inj hu ▸ hfree⟩⟩
    · obtain ⟨U, V, hslots, hroot⟩ := h.modifySlot_occupied hkey htype ht hcut
        (Bool.eq_false_iff.mpr hfree)
      exact ⟨_, _, hroot, hids, hsame, Or.inr ⟨U, e, V, rfl, hslots, rfl⟩⟩

/-- 読める道の先の node に対して `upsert_node` をする。 -/
theorem exists_target (h : s.Rooted t rest slots)
    (hr : ∀ nd ∈ s.inners, nd.Tame (Set.Icc s.minKey s.maxKey)) {node : InnerSlot D}
    (hlo : s.minKey < node.minKey) (hhi : node.minKey ≤ s.maxKey)
    (hpath : ∀ i a, s.selectRoot node.minKey = some i → s.roots[i]? = some a →
      Stacked.PathReadable s.inners node.minKey a (rest.length + 1)) :
    ∃ X x Y P e Q, s.Target t slots node X x Y P e Q := by
  have hheight := h.height_le
  obtain ⟨i, a, path, X, x, Y, P, e, Q, hsel, hget, hland, hdesc, hcovers, hx, hsearch, hslot⟩ :=
    h.exists_landing hlo.le hhi fun i a hsel hget =>
      (hpath i a hsel hget).guided hr hlo.le hhi
  have hlen := length_path hcovers
  obtain ⟨n, hn⟩ : ∃ n, s.inners.length + 1 = n + 1 + path.length :=
    ⟨s.inners.length - path.length, by omega⟩
  have hxok := h.stacked.2.1 x (by rw [hland.tier]; simp)
  refine ⟨X, x, Y, P, e, Q, hland, hxok, hpath i a hsel hget _ _ (by omega) hdesc x.2 hx
    (Stacked.models_accelerator x) hxok.packed, ?_⟩
  unfold PlinIndex.upsertNode
  rw [hsel, Option.bind_eq_bind, Option.bind_some, hget, Option.bind_eq_bind, Option.bind_some, hn,
    hdesc.upsertNode, InnerNode.upsertNode]
  simp only [Option.bind_eq_bind]
  rw [show (x.2.accelerator x.1).ptr = x.1 from rfl, hx, Option.bind_some, hsearch,
    Option.bind_some, hslot, Option.bind_some, h.leafSlots e hland.pred.mem, if_neg (by decide)]
  cases x.2.upsertHere node (x.2.accelerator x.1) P.length with
  | none => rfl
  | some r => rfl

/-- 成功した `upsert_node` が書き換えた node。 -/
theorem target_of_upsertNode (h : s.Rooted t rest slots)
    (hr : ∀ nd ∈ s.inners, nd.Tame (Set.Icc s.minKey s.maxKey)) {node : InnerSlot D}
    (hlo : s.minKey < node.minKey) (hhi : node.minKey ≤ s.maxKey) {s' : PlinIndex D}
    (hup : s.upsertNode node = some s') : ∃ X x Y P e Q, s.Target t slots node X x Y P e Q := by
  have hheight := h.height_le
  obtain ⟨n, hn⟩ : ∃ n, s.inners.length + 1 = n + (rest.length + 1) :=
    ⟨s.inners.length - rest.length, by omega⟩
  refine h.exists_target hr hlo hhi fun i a hsel hget => ?_
  unfold PlinIndex.upsertNode at hup
  rw [hsel, Option.bind_eq_bind, Option.bind_some, hget, Option.bind_eq_bind,
    Option.bind_some] at hup
  obtain ⟨r, hnode, -⟩ := Option.bind_eq_some_iff.mp hup
  rw [hn] at hnode
  exact Stacked.pathReadable_of_upsertNode hnode

/-- **`upsert_node` は段の形を保ち、slot の列には三通りのことしかしない。** -/
theorem upsertNode (h : s.Rooted t rest slots)
    (hr : ∀ nd ∈ s.inners, nd.Tame (Set.Icc s.minKey s.maxKey)) {node : InnerSlot D}
    (hlo : s.minKey < node.minKey) (hhi : node.minKey ≤ s.maxKey) (htype : node.type = false)
    {s' : PlinIndex D} (hup : s.upsertNode node = some s') :
    ∃ ret t' slots', s'.Rooted t' rest slots' ∧ Placed node ret slots slots' ∧
      t'.map Prod.fst = t.map Prod.fst ∧ SameInners s.inners s'.inners ∧ s' = { s with
        inners := s'.inners
        leafNumber := if 1 < ret then (s.leafNumber + 1) % 2 ^ 32 else s.leafNumber
        orphanNumber := if 2 < ret then (s.orphanNumber + 1) % 2 ^ 32 else s.orphanNumber } := by
  have hk : node.minKey < freeFlag := lt_of_le_of_lt hhi h.bound
  obtain ⟨X, x, Y, P, e, Q, hland, hxok, hslt, hnode⟩ := h.target_of_upsertNode hr hlo hhi hup
  have hx := hxok.stored
  have hent : slots = Tier.entries X ++ x.2.entries ++ Tier.entries Y := by
    rw [← h.stacked.1, hland.tier]
    simp
  have hwithin : x.2.Within (Set.Icc s.minKey s.maxKey) := by
    intro u hu
    exact h.slotsOk.within u (by rw [hent]; simp [hu])
  obtain ⟨r, hres, hpacked, hlength, hout⟩ := InnerNode.upsertHere_spec hxok.packed
    (hr x.2 (List.mem_of_getElem? hx)) hwithin hk ⟨hlo.le, hhi⟩ hslt hland.node
    (Stacked.models_accelerator x)
  rw [hnode, hres] at hup
  obtain rfl := Option.some.inj hup
  rw [withUpserted]
  -- 見つけた子の前後で切れば、node の中の変化がそのまま列全体の変化になる
  have hsame : SameInners s.inners (s.inners.set x.1 r.2) := by
    refine SameInners.set hx ?_ hlength
    cases hout <;> rfl
  have hfinish : ∀ {ret : Nat} {new : List (InnerSlot D)},
      r = (ret, { x.2 with slots := new }) →
      Placed node ret (InnerNode.occupied P ++ e :: InnerNode.occupied Q)
        (InnerNode.occupied new) →
      Placed node ret slots (Tier.entries X ++ InnerNode.occupied new ++ Tier.entries Y) →
      PlinIndex.Rooted { s with inners := s.inners.set x.1 r.2 }
        (X ++ (x.1, { x.2 with slots := new }) :: Y) rest
        (Tier.entries X ++ InnerNode.occupied new ++ Tier.entries Y) := by
    intro ret new hres' hlocal hplaced
    rw [hres'] at hpacked ⊢
    have hcut : x.2.entries = InnerNode.occupied P ++ e :: InnerNode.occupied Q :=
      (InnerNode.isPred_occupied hk hland.node).eq
    refine h.setNode hland.tier hpacked ?_ (hplaced.slotsOk h.slotsOk ⟨hlo.le, hhi⟩)
      (hplaced.head_minKey.trans h.low) fun u hu => ?_
    · rw [hlocal.head_minKey, ← hcut]
      exact hxok.head
    · rcases hlocal.mem hu with rfl | hu
      · exact htype
      · exact h.leafSlots u (by rw [hent, hcut]; simp only [List.mem_append] at hu ⊢; tauto)
  have hids (nd : InnerNode D) : (X ++ (x.1, nd) :: Y).map Prod.fst = t.map Prod.fst := by
    rw [hland.tier, List.map_append, List.map_append]
    rfl
  have hslots := hland.pred.eq
  have hgt : ∀ v ∈ InnerNode.occupied Q ++ Tier.entries Y, node.minKey < v.minKey := hland.pred.gt
  cases hout with
  | updated new hkey hentries =>
    have hnew : Tier.entries X ++ InnerNode.occupied new ++ Tier.entries Y =
        (Tier.entries X ++ InnerNode.occupied P) ++ node ::
          (InnerNode.occupied Q ++ Tier.entries Y) := by
      rw [hentries]
      simp
    have hplaced : Placed node 1 slots
        (Tier.entries X ++ InnerNode.occupied new ++ Tier.entries Y) := by
      rw [hslots, hnew]
      exact .updated _ e _ hkey
    have hroot := hfinish rfl (hentries ▸ .updated _ e _ hkey) hplaced
    exact ⟨1, _, _, ⟨hroot.bound, hroot.stacked, hroot.ids, hroot.slotsOk, hroot.low,
      hroot.leafSlots⟩, hplaced, hids _, hsame, rfl⟩
  | inserted new hkey hentries =>
    have hlt : e.minKey < node.minKey := lt_of_le_of_ne hland.pred.le hkey
    have hnew : Tier.entries X ++ InnerNode.occupied new ++ Tier.entries Y =
        (Tier.entries X ++ InnerNode.occupied P) ++ e :: node ::
          (InnerNode.occupied Q ++ Tier.entries Y) := by
      rw [hentries]
      simp
    have hplaced : Placed node 2 slots
        (Tier.entries X ++ InnerNode.occupied new ++ Tier.entries Y) := by
      rw [hslots, hnew]
      exact .inserted _ e _ hlt hgt
    have hroot := hfinish rfl (hentries ▸ .inserted _ e _ hlt
      fun v hv => hgt v (List.mem_append_left _ hv)) hplaced
    exact ⟨2, _, _, ⟨hroot.bound, hroot.stacked, hroot.ids, hroot.slotsOk, hroot.low,
      hroot.leafSlots⟩, hplaced, hids _, hsame, rfl⟩
  | failed hkey =>
    have hne : ∀ u ∈ slots, u.minKey ≠ node.minKey := by
      have hsorted := h.slotsOk.sorted
      rw [hslots] at hsorted ⊢
      intro u hu
      rcases List.mem_append.mp hu with hu | hu
      · have hlt := (List.pairwise_append.mp hsorted).2.2 u hu e (by simp)
        exact ne_of_lt (lt_of_lt_of_le hlt hland.pred.le)
      · rcases List.mem_cons.mp hu with rfl | hu
        · exact hkey
        · exact (hgt u hu).ne'
    rw [set_of_getElem? hx] at hsame ⊢
    exact ⟨3, t, slots, ⟨h.bound, h.stacked, h.ids, h.slotsOk, h.low, h.leafSlots⟩,
      .failed slots hne, rfl, hsame, rfl⟩

/-- `upsert_node` は終わる。子が一つの block を埋める数に足りなければ、失敗もしない。 -/
theorem exists_upsertNode (h : s.Rooted t rest slots) (hr : s.InnersRegular) {node : InnerSlot D}
    (hlo : s.minKey < node.minKey) (hhi : node.minKey ≤ s.maxKey) :
    ∃ s', s.upsertNode node = some s' ∧
      (slots.length < innerSlotsPerBlock → s'.orphanNumber = s.orphanNumber) := by
  have ht : ∀ nd ∈ s.inners, nd.Tame (Set.Icc s.minKey s.maxKey) := fun nd hnd => (hr nd hnd).tame
  obtain ⟨X, x, Y, P, e, Q, hland, hxok, hslt, hnode⟩ := h.exists_target ht hlo hhi
    fun i a _ _ => Stacked.pathReadable_of_regular hr hlo.le hhi a _
  have hent : slots = Tier.entries X ++ x.2.entries ++ Tier.entries Y := by
    rw [← h.stacked.1, hland.tier]
    simp
  have hwithin : x.2.Within (Set.Icc s.minKey s.maxKey) := by
    intro u hu
    exact h.slotsOk.within u (by rw [hent]; simp [hu])
  obtain ⟨r, hres, -, -, hout⟩ := InnerNode.upsertHere_spec hxok.packed
    (ht x.2 (List.mem_of_getElem? hxok.stored)) hwithin (lt_of_le_of_lt hhi h.bound)
    ⟨hlo.le, hhi⟩ hslt hland.node (Stacked.models_accelerator x)
  rw [hres] at hnode
  refine ⟨_, hnode, fun hfew => ?_⟩
  have hshort : x.2.entries.length < innerSlotsPerBlock := by
    rw [hent, List.length_append, List.length_append] at hfew
    omega
  have hthree :=
    InnerNode.upsertHere_ne_three hxok.packed (Stacked.models_accelerator x) hshort hres
  cases hout with
  | updated => rfl
  | inserted => rfl
  | failed => exact absurd rfl hthree

end Rooted

end PlinIndex

/-! ## 続けて知らせる -/

/-- `upsert_node` を続けて行う。`rets` は返り値の列である。 -/
inductive PlacedAll : List (InnerSlot D) → List Nat → List (InnerSlot D) → List (InnerSlot D) → Prop
  | nil (slots : List (InnerSlot D)) : PlacedAll [] [] slots slots
  | cons {node : InnerSlot D} {nodes : List (InnerSlot D)} {ret : Nat} {rets : List Nat}
      {slots mid slots' : List (InnerSlot D)} (h : Placed node ret slots mid)
      (hrest : PlacedAll nodes rets mid slots') :
      PlacedAll (node :: nodes) (ret :: rets) slots slots'

namespace PlacedAll

variable {nodes : List (InnerSlot D)} {rets : List Nat} {slots slots' : List (InnerSlot D)}

omit [Arith D] in
theorem mem (h : PlacedAll nodes rets slots slots') {e : InnerSlot D} (he : e ∈ slots') :
    e ∈ nodes ∨ e ∈ slots := by
  induction h with
  | nil => exact Or.inr he
  | cons hp _ ih =>
    rcases ih he with he | he
    · exact Or.inl (by simp [he])
    · rcases hp.mem he with rfl | he
      · exact Or.inl (by simp)
      · exact Or.inr he

omit [Arith D] in
theorem head (h : PlacedAll nodes rets slots slots') {e : InnerSlot D}
    (he : slots.head? = some e) (hlt : ∀ node ∈ nodes, e.minKey < node.minKey) :
    slots'.head? = some e := by
  induction h with
  | nil => exact he
  | cons hp _ ih =>
    rw [List.forall_mem_cons] at hlt
    exact ih (hp.head he hlt.1) hlt.2

omit [Arith D] in
theorem exists_minKey (h : PlacedAll nodes rets slots slots') :
    ∀ e ∈ slots, ∃ e' ∈ slots', e'.minKey = e.minKey := by
  induction h with
  | nil => exact fun e he => ⟨e, he, rfl⟩
  | cons hp _ ih =>
    intro e he
    obtain ⟨mid, hmid, hkey⟩ := hp.exists_minKey he
    obtain ⟨e', he', hkey'⟩ := ih mid hmid
    exact ⟨e', he', hkey'.trans hkey⟩

omit [Arith D] in
theorem length (h : PlacedAll nodes rets slots slots') : rets.length = nodes.length := by
  induction h with
  | nil => rfl
  | cons _ _ ih => rw [List.length_cons, List.length_cons, ih]

omit [Arith D] in
theorem first_updated {U V : List (InnerSlot D)} {e node : InnerSlot D}
    (h : PlacedAll (node :: nodes) rets (U ++ e :: V) slots')
    (hs : (U ++ e :: V).Pairwise fun a b => a.minKey < b.minKey) (hkey : e.minKey = node.minKey) :
    ∃ rets', rets = 1 :: rets' ∧ PlacedAll nodes rets' (U ++ node :: V) slots' := by
  cases h with
  | cons hp hrest =>
    obtain ⟨rfl, rfl⟩ := hp.eq_updated hs hkey
    exact ⟨_, rfl, hrest⟩

omit [Arith D] in
/-- 新しい鍵の子ばかりなら、返り値はどれも 1 より大きい。 -/
theorem countP_eq (h : PlacedAll nodes rets slots slots')
    (hnew : ∀ node ∈ nodes, ∀ e ∈ slots, e.minKey ≠ node.minKey)
    (hnd : nodes.Pairwise fun a b => a.minKey ≠ b.minKey) :
    rets.countP (1 < ·) = nodes.length := by
  induction h with
  | nil => rfl
  | cons hp _ ih =>
    rw [List.forall_mem_cons] at hnew
    obtain ⟨hhead, hnd⟩ := List.pairwise_cons.mp hnd
    rw [List.countP_cons_of_pos (by simpa using hp.one_lt hnew.1), List.length_cons, ih ?_ hnd]
    intro node hnode e he
    rcases hp.mem he with rfl | he
    · exact hhead node hnode
    · exact hnew.2 node hnode e he

end PlacedAll

namespace PlinIndex

namespace Rooted

variable {t : Tier D} {rest : List (Tier D)}

/-- 折り返しが無ければ、`leaf_number` は挿入と失敗の回数だけ増える。 -/
theorem upsertNodes {nodes : List (InnerSlot D)} : ∀ {s s' : PlinIndex D} {t : Tier D}
    {slots : List (InnerSlot D)}, s.Rooted t rest slots →
      (∀ nd ∈ s.inners, nd.Tame (Set.Icc s.minKey s.maxKey)) →
      (∀ node ∈ nodes, s.minKey < node.minKey ∧ node.minKey ≤ s.maxKey ∧ node.type = false) →
      s.leafNumber + nodes.length < 2 ^ 32 → s.upsertNodes nodes = some s' →
      ∃ rets t' slots' m, s'.Rooted t' rest slots' ∧ PlacedAll nodes rets slots slots' ∧
        t'.map Prod.fst = t.map Prod.fst ∧ SameInners s.inners s'.inners ∧
        s' = { s with
          inners := s'.inners
          leafNumber := s.leafNumber + rets.countP (1 < ·)
          orphanNumber := m } := by
  induction nodes with
  | nil =>
    intro s s' t slots h _ _ _ hup
    obtain rfl := Option.some.inj hup
    exact ⟨[], t, slots, s.orphanNumber, h, .nil slots, rfl, SameInners.refl _, rfl⟩
  | cons node nodes ih =>
    intro s s' t slots h hr hnodes hlen hup
    rw [PlinIndex.upsertNodes] at hup
    obtain ⟨mid, hmid, hup⟩ := Option.bind_eq_some_iff.mp hup
    rw [List.forall_mem_cons] at hnodes
    obtain ⟨⟨hlo, hhi, htype⟩, hnodes⟩ := hnodes
    obtain ⟨ret, t₁, slots₁, hroot, hplaced, hids, hsame, heq⟩ :=
      h.upsertNode hr hlo hhi htype hmid
    rw [List.length_cons] at hlen
    have hnum : mid.leafNumber = s.leafNumber + (if 1 < ret then 1 else 0) := by
      rw [heq]
      dsimp only
      split
      · exact Nat.mod_eq_of_lt (by omega)
      · rfl
    have hmin : mid.minKey = s.minKey := by rw [heq]
    have hmax : mid.maxKey = s.maxKey := by rw [heq]
    have hlen' : mid.leafNumber + nodes.length < 2 ^ 32 := by
      rw [hnum]
      split <;> omega
    obtain ⟨rets, t₂, slots₂, m, hroot', hall, hids', hsame', heq'⟩ := ih hroot
      (by rw [hmin, hmax]; exact hsame.tame hr) (by rw [hmin, hmax]; exact hnodes) hlen' hup
    refine ⟨ret :: rets, t₂, slots₂, m, hroot', .cons hplaced hall, hids'.trans hids,
      hsame.trans hsame', ?_⟩
    have hcount : s.leafNumber + (ret :: rets).countP (1 < ·) =
        mid.leafNumber + rets.countP (1 < ·) := by
      rw [hnum, List.countP_cons]
      by_cases hret : 1 < ret
      · simp only [hret, decide_true, if_true]
        omega
      · simp only [hret, decide_false, if_false, Bool.false_eq_true, Nat.add_zero]
    rw [hcount]
    rw [heq', heq]

end Rooted

end PlinIndex

end Plin
