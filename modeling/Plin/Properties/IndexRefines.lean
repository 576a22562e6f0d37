import Plin.Properties.LoadExact

/-!
# 索引は有限写像を実装する

`bulk_load` と内側の鍵の `upsert` だけの実行では、索引の中身は写像 `m` を一点ずつ書き換えたものである
（`PlinIndex.Refines`）。**どこで分割や作り直しが起きても、`find` は `m` を引く**（`Implements.find_eq`）。

どの leaf も `first_key` を持ち続けるので、分割は必ず親 slot を引き継ぐ。親 slot を持たない leaf は、左隣から
`next` をたどって見つかる。
-/

namespace Plin

open Infra

variable {D : Type} [Arith D]

/-- 要求が写像にすること。 -/
def IndexOp.apply (m : Key → Option Payload) : IndexOp → Key → Option Payload
  | .upsert key payload, k => if k = key then some payload else m k
  | .remove key, k => if k = key then none else m k

/-- 要求の列を順に実行した写像。 -/
def IndexOp.applyAll (m : Key → Option Payload) (ops : List IndexOp) : Key → Option Payload :=
  ops.foldl IndexOp.apply m

section Stores

variable {lo hi key : Key} {leaves : List (LeafNode D)} {c A B : List (Link D)}
  {m : Key → Option Payload} {z : Link D}

/-- leaf は、自分から次の leaf の手前までの、写像にある鍵をちょうど持っている。 -/
theorem Chain.stores_iff (h : Chain lo hi leaves (A ++ z :: B)) (hm : Contents (A ++ z :: B) m) :
    z.2.Stores key ↔ m key ≠ none ∧ z.firstKey ≤ key ∧ ∀ y ∈ B, key < y.firstKey := by
  have hz : z ∈ A ++ z :: B := by simp
  constructor
  · intro hs
    have ⟨hne, b, hb, hget⟩ := hs
    obtain ⟨v, hv⟩ := Option.ne_none_iff_exists'.mp hget
    have hbefore := (List.pairwise_cons.mp (List.pairwise_append.mp h.sorted).2.1).1
    exact ⟨by simp [hm.sound z hz b hb key v hne hv], ((h.sound z hz).keys key hs).1,
      fun y hy => (hbefore y hy).keys key hs⟩
  · rintro ⟨hk, hle, hgt⟩
    obtain ⟨v, hv⟩ := Option.ne_none_iff_exists'.mp hk
    obtain ⟨hne, x, hx, b, hb, hget⟩ := hm.complete _ v hv
    have hstores : x.2.Stores key := ⟨hne, b, hb, by simp [hget]⟩
    obtain rfl : x = z := h.eq_of_stores ⟨rfl, hle, hgt⟩ hx hstores
    exact hstores

/-- 写像にある `first_key` は、その leaf が持っている。 -/
theorem Chain.stores_firstKey (h : Chain lo hi leaves c) (hm : Contents c m) (hz : z ∈ c)
    (hk : m z.firstKey ≠ none) : z.2.Stores z.firstKey := by
  obtain ⟨A, B, rfl⟩ := List.append_of_mem hz
  have hB := (List.pairwise_cons.mp (List.pairwise_append.mp h.firstKey_sorted).2.1).1
  exact (h.stores_iff hm).mpr ⟨hk, le_refl _, hB⟩

/-- 持っている鍵の列が分かれば、`get_data` の鍵の列も分かる。 -/
theorem Chain.getData_keys (h : Chain lo hi leaves c) (hm : Contents c m) (hhi : hi < freeFlag)
    (hz : z ∈ c) {keys : List Key} (hsorted : keys.Pairwise (· < ·))
    (hkeys : ∀ k, z.2.Stores k ↔ k ∈ keys) : z.2.getData.1.map Prod.fst = keys := by
  have hbelow := h.keysBelow hhi hz
  have hnd := hm.nodup_getData hz hbelow
  have hmem : ∀ k, k ∈ z.2.getData.1.map Prod.fst ↔ k ∈ keys := by
    intro k
    rw [← hkeys k, LeafNode.stores_iff]
    exact ((LeafNode.getData_perm hbelow).map Prod.fst).mem_iff
  have hperm := (List.perm_ext_iff_of_nodup hnd (hsorted.imp ne_of_lt)).mpr hmem
  exact hperm.eq_of_pairwise (fun a b _ _ => le_antisymm) z.2.getData_sorted
    (hsorted.imp le_of_lt)

end Stores

/-- 予測の決め手が等しい。 -/
structure LeafNode.SameModel (l l' : LeafNode D) : Prop where
  slope : l'.slope = l.slope
  intercept : l'.intercept = l.intercept
  blockNumber : l'.blockNumber = l.blockNumber
  lastBuildKey : l'.lastBuildKey = l.lastBuildKey

omit [Arith D] in
theorem LeafNode.SameHeader.sameModel {l l' : LeafNode D} (h : LeafNode.SameHeader l l') :
    LeafNode.SameModel l l' := by
  rw [h.header]
  exact ⟨rfl, rfl, rfl, rfl⟩

theorem LeafNode.Regular.congr {lo hi : Key} {l l' : LeafNode D} (h : l.Regular lo hi)
    (hmodel : LeafNode.SameModel l l') : l'.Regular lo hi := by
  have hpredict (k : Key) : l'.predict k = l.predict k := by
    rw [predict, predict, hmodel.slope, hmodel.intercept, hmodel.blockNumber]
  refine ⟨fun k => ?_, fun k => ?_⟩
  · rw [hpredict, hmodel.lastBuildKey, hmodel.blockNumber]
    exact h.tail k
  · rw [hpredict]
    exact h.addressable k

namespace PlinIndex

/-- 索引の内側の中身が写像 `m` である。 -/
structure Implements (s : PlinIndex D) (m : Key → Option Payload) (c : List (Link D)) (t : Tier D)
    (rest : List (Tier D)) (slots : List (InnerSlot D)) : Prop where
  wired : s.Wired c t rest slots
  live : Live c slots
  contents : Contents c m

/-- 中身が写像 `m` で、これからの書き込みも写像の一点だけを書き換える。 -/
structure Refines (s : PlinIndex D) (m : Key → Option Payload) (c : List (Link D)) (t : Tier D)
    (rest : List (Tier D)) (slots : List (InnerSlot D)) : Prop
    extends s.Implements m c t rest slots where
  packed : ∀ x ∈ c, x.2.Packed
  kept : ∀ x ∈ c, m x.firstKey ≠ none

variable {f : Fitter D} {data : List (Key × Payload)} {ops : List IndexOp} {s s' : PlinIndex D}
  {m : Key → Option Payload} {c A B : List (Link D)} {t : Tier D} {rest : List (Tier D)}
  {slots : List (InnerSlot D)} {z : Link D} {l : LeafNode D} {key : Key} {payload : Payload}

/-- 番号が折り返さなければ、読み書きする block は予測した block である。 -/
theorem Regular.home_eq (h : s.Regular) (hl : l ∈ s.leaves) (hlo : s.minKey ≤ key)
    (hhi : key ≤ s.maxKey) : l.home key = l.predict key :=
  (LeafNode.slotBlock_eq_iff (LeafNode.predictBlock_lt_two_pow ..)).mpr
    ((h.leaves l hl).addressable key hlo hhi)

/-- leaf の block を書き換えても、予測器の性質は変わらない。 -/
theorem Regular.set (h : s.Regular) {id : LeafId} {l' : LeafNode D} (hl : s.leaves[id]? = some l)
    (hhead : LeafNode.SameHeader l l') : (s.withLeaves (s.leaves.set id l')).Regular where
  inners := h.inners
  leaves u hu := by
    rcases List.mem_or_eq_of_mem_set hu with hu | rfl
    · exact h.leaves u hu
    · exact (h.leaves l (List.mem_of_getElem? hl)).congr hhead.sameModel
  heap := by
    show (s.leaves.set id l').length < 2 ^ 32
    rw [List.length_set]
    exact h.heap

theorem Plausible.set (h : s.Plausible) {id : LeafId} {l' : LeafNode D}
    (hl : s.leaves[id]? = some l) (hhead : LeafNode.SameHeader l l') :
    (s.withLeaves (s.leaves.set id l')).Plausible where
  inners := h.inners
  tail u hu := by
    rcases List.mem_or_eq_of_mem_set hu with hu | rfl
    · exact h.tail u hu
    · intro k
      rw [hhead.predict, hhead.header]
      exact h.tail l (List.mem_of_getElem? hl) k
  heap := by
    show (s.leaves.set id l').length < 2 ^ 32
    rw [List.length_set]
    exact h.heap

/-- 番号が折り返さなければ、着く leaf でも読み書きする block は予測した block である。 -/
theorem Regular.home_pred (h : s.Regular) (hw : s.Wired c t rest slots) (hlo : s.minKey ≤ key)
    (hhi : key ≤ s.maxKey) (hpred : IsPred Link.firstKey key c A z B) :
    z.2.home key = z.2.predict key :=
  h.home_eq (List.mem_of_getElem? (hw.chain.stored z hpred.mem)) hlo hhi

omit [Arith D] in
theorem live_iff : Live c slots ↔ ∀ e ∈ slots, e ∈ c.map Link.info := by
  simp only [Live, List.mem_map, eq_comm]

omit [Arith D] in
/-- 親 slot の列が同じ連鎖に替えてもよい。 -/
theorem Live.congr {c' : List (Link D)} (h : Live c slots)
    (hinfo : c'.map Link.info = c.map Link.info) : Live c' slots := by
  rw [live_iff, hinfo]
  exact live_iff.mp h

/-! ## `bulk_load` の直後 -/

theorem Loaded.refines (h : Loaded f data s) (hd : LoadData data) (hp : s.Plausible) :
    ∃ t rest, s.Refines (fun k => data.lookup k) (loadChain f data) t rest
      ((loadChain f data).map Link.info) := by
  obtain ⟨t, rest, hwired⟩ := h.wired hd hp
  refine ⟨t, rest, ⟨hwired, ?_, h.contents hd⟩, packed_linkLeaves, ?_⟩
  · intro e he
    obtain ⟨x, hx, rfl⟩ := List.mem_map.mp he
    exact ⟨x, hx, rfl⟩
  · intro x hx
    have hmem : x.firstKey ∈ (loadSegments f data).map (·.firstKey) := by
      rw [← (h.freshChain hd).firstKeys]
      exact List.mem_map_of_mem hx
    obtain ⟨seg, hseg, hkey⟩ := List.mem_map.mp hmem
    obtain ⟨e, he, hek⟩ := List.mem_map.mp ((h.covers hd).firstKey_mem seg hseg)
    have hlookup := (lookup_eq_some_iff_mem hd.nodup (v := e.2)).mpr he
    rw [← hkey, ← hek, hlookup]
    exact Option.some_ne_none _

/-! ## `upsert` -/

/-- 鍵以下の最後の leaf に書くと、写像の一点が書き換わる。 -/
theorem Refines.wrote (h : s.Refines m c t rest slots) (hhi : key ≤ s.maxKey)
    (hpred : IsPred Link.firstKey key c A z B) (hhome : z.2.home key = z.2.predict key)
    (hwrote : Wrote key payload z l) :
    (s.withLeaves (s.leaves.set z.1 l)).Refines (IndexOp.apply m (.upsert key payload))
      (A ++ (z.1, l) :: B) t rest slots := by
  have hwired := h.wired.wrote hhi hpred hwrote
  obtain ⟨b, hb⟩ := hwrote
  have hz := hpred.mem
  have hkey : key ≠ freeFlag := ne_of_lt (lt_of_le_of_lt hhi h.wired.rooted.bound)
  have hbm := hb.mem_block
  have hpacked := h.packed z hz b hbm
  have hother : ∀ x ∈ A ++ (z.1, l) :: B, x = (z.1, l) ∨ x ∈ c := fun x hx => hpred.mem_set hx
  refine ⟨⟨hwired, h.live.congr (by rw [hpred.eq, map_info_eq hb.header]), ?_⟩, ?_, ?_⟩
  · rw [hhome] at hb
    exact h.contents.rewritten h.wired.chain hpred hkey hb
      (Block.inv_upsert hkey (h.contents.inv z hz b hbm) (hpacked.upsertSafe key))
      fun k hk => Block.get_upsert hkey hk
  · intro x hx u hu
    rcases hother x hx with rfl | hx
    · rw [hb.blocks] at hu
      rcases List.mem_or_eq_of_mem_set hu with hu | rfl
      · exact h.packed z hz u hu
      · exact hpacked.upsert hkey payload
    · exact h.packed x hx u hu
  · intro x hx
    have hold : m x.firstKey ≠ none := by
      rcases hother x hx with rfl | hx
      · have hfirst : Link.firstKey (z.1, l) = z.firstKey := by
          show l.firstKey = z.2.firstKey
          rw [hb.header.header]
        rw [hfirst]
        exact h.kept z hz
      · exact h.kept x hx
    show (if x.firstKey = key then some payload else m x.firstKey) ≠ none
    split
    · exact Option.some_ne_none _
    · exact hold

/-- 写像の鍵を持つ leaf は、分割できる。 -/
theorem Refines.segments_ne_nil (h : s.Refines m c t rest slots) (hz : z ∈ c) (f : Fitter D) :
    splitSegments f z.2 ≠ [] := by
  obtain ⟨hne, b, hb, hget⟩ := h.wired.chain.stores_firstKey h.contents hz (h.kept z hz)
  obtain ⟨v, hv⟩ := Option.ne_none_iff_exists'.mp hget
  have hmem := (h.contents.mem_getData hz
    (h.wired.chain.keysBelow h.wired.rooted.bound hz)).mpr ⟨hne, b, hb, hv⟩
  intro hnil
  rw [splitSegments, makeSegmentation_eq_nil, List.map_eq_nil_iff] at hnil
  rw [hnil] at hmem
  cases hmem

/-- 分割で leaf が減ることは無い。 -/
theorem Resplit.length_le {n : Nat} {c' : List (Link D)} (h : Resplit f n z c c')
    (hne : splitSegments f z.2 ≠ []) : c.length ≤ c'.length := by
  cases h with
  | edge => exact le_refl _
  | middle A l r B =>
    have hpos := List.length_pos_iff.mpr hne
    rw [length_spliced, splitChain, length_linkLeaves, length_freshLeaves, List.length_append,
      List.length_cons, List.length_cons, List.length_cons]
    omega

/--
分割しても写像は変わらない。`first_key` を持つ leaf の分割なので、親 slot は引き継がれる。

`leaf_number` は、連鎖の長さより多くは増えない。
-/
theorem Refines.split (h : s.Refines m c t rest slots) (hz : z ∈ c) {acc : Option SlotAddr}
    (hent : s.Entered t slots z acc) (hp : s.Plausible) (hp' : s'.Plausible)
    (hs : s.split f z.1 acc = .ok s') :
    ∃ c' t' rest' slots', s'.Refines m c' t' rest' slots' ∧ SameBounds s s' ∧
      (s.leafNumber ≤ c.length → s'.leafNumber ≤ c'.length) ∧
      ((∀ x ∈ c, x.2.Sized) → ∀ x ∈ c', x.2.Sized) := by
  have hbound := h.wired.rooted.bound
  obtain ⟨c', t', rest', slots', hwired, hsplit, hbounds, hlive⟩ :=
    h.wired.split hz hent hp.inners hp'.inners hp'.heap hs
  have hstores := h.wired.chain.stores_firstKey h.contents hz (h.kept z hz)
  obtain ⟨hlive', hnumber⟩ := hlive h.live fun _ _ _ => hstores
  have hlen := hsplit.length_le (h.segments_ne_nil hz f)
  have hle : s.leafNumber ≤ c.length → s'.leafNumber ≤ c'.length := by
    intro hle
    split at hnumber
    · omega
    · omega
  refine ⟨c', t', rest', slots', ⟨⟨hwired, hlive', h.contents.resplit h.wired.chain hbound hsplit⟩,
    packed_resplit h.packed hsplit, ?_⟩, hbounds, hle,
    fun hsized => sized_resplit hsized hsplit⟩
  intro x hx
  rcases firstKey_resplit h.wired.chain hbound hsplit hx with ⟨y, hy, hkey⟩ | ⟨-, hk, b, hb, hget⟩
  · rw [hkey]
    exact h.kept y hy
  · obtain ⟨v, hv⟩ := Option.ne_none_iff_exists'.mp hget
    rw [h.contents.sound z hz b hb _ v hk hv]
    exact Option.some_ne_none _

/-- **`upsert` は、予測した block に書く限り、写像の一点を書き換える。** -/
theorem Refines.upsert (h : s.Refines m c t rest slots) (hp : s.Plausible) (hp' : s'.Plausible)
    (hlo : s.minKey < key) (hhi : key < s.maxKey)
    (hhome : ∀ {A B : List (Link D)} {z : Link D}, IsPred Link.firstKey key c A z B →
      z.2.home key = z.2.predict key) {fuel : Nat}
    (hs : s.upsert f fuel key payload = .ok s') :
    ∃ c' t' rest' slots',
      s'.Refines (IndexOp.apply m (.upsert key payload)) c' t' rest' slots' ∧ SameBounds s s' ∧
      (s.leafNumber ≤ c.length → s'.leafNumber ≤ c'.length) ∧
      ((∀ x ∈ c, x.2.Sized) → ∀ x ∈ c', x.2.Sized) := by
  rw [PlinIndex.upsert, if_pos ⟨hlo, hhi⟩] at hs
  obtain ⟨A, z, B, l, acc, hpred, hwrote, hent, -, hcases⟩ :=
    h.wired.upsertInner_cases hp hlo.le hhi.le hs
  have href := h.wrote hhi.le hpred (hhome hpred) hwrote
  obtain ⟨b, hb⟩ := hwrote
  have hset : (∀ x ∈ c, x.2.Sized) → ∀ x ∈ A ++ (z.1, l) :: B, x.2.Sized := by
    rintro hsized x hx
    rcases hpred.mem_set hx with rfl | hx
    · exact (hsized z hpred.mem).of_header hb.header
    · exact hsized x hx
  have hlen : (A ++ (z.1, l) :: B).length = c.length := by
    rw [hpred.eq]
    simp
  rcases hcases with ⟨-, rfl⟩ | ⟨-, hsplit⟩
  · exact ⟨_, t, rest, slots, href, ⟨rfl, rfl, rfl, rfl⟩, fun hle => hle.trans_eq hlen.symm, hset⟩
  · have hp := hp.set (h.wired.chain.stored z hpred.mem) hb.header
    obtain ⟨c', t', rest', slots', href', hbounds, hnumber, hsized⟩ :=
      href.split (z := (z.1, l)) (by simp) (hent.withLeaves hb.header _) hp hp' hsplit
    exact ⟨c', t', rest', slots', href',
      ⟨hbounds.min, hbounds.max, hbounds.left, hbounds.right⟩,
      fun hle => hnumber (hle.trans_eq hlen.symm), fun h => hsized (hset h)⟩

/-! ## 読み書きする leaf -/

/-- 内側の鍵は、親 slot の指す leaf `y` から、連鎖の中で鍵以下の最後の leaf `z` に着く。 -/
structure Routed (s : PlinIndex D) (c : List (Link D)) (key : Key) (addr : SlotAddr) (y : Link D)
    (A : List (Link D)) (z : Link D) (B : List (Link D)) (acc : Option (InnerSlot D)) : Prop where
  descend : s.descend key = some addr
  read : s.readSlot addr = some y.info
  stored : s.leaves[z.1]? = some z.2
  pred : IsPred Link.firstKey key c A z B
  locate : LeafNode.locate s.leaves key (s.leaves.length + 1) y.1 (some y.info) =
    some (.at z.1 acc (z.2.predict key))
  acc : acc = some y.info ∧ y = z ∨ acc = none

theorem Implements.route (h : s.Implements m c t rest slots) (hi : s.InnersRegular)
    (hp : s.Plausible) (hlo : s.minKey ≤ key) (hhi : key ≤ s.maxKey) :
    ∃ addr y A z B acc, s.Routed c key addr y A z B acc := by
  obtain ⟨X, x, Y, P, e, Q, hland, hdesc, hread⟩ := h.wired.rooted.descend_eq
    (fun nd hnd => (hi nd hnd).tame) hlo hhi
    fun i a _ _ => Stacked.pathReadable_of_regular hi hlo hhi a _
  obtain ⟨y, hy, rfl⟩ := h.live e hland.pred.mem
  obtain ⟨A, z, B, acc, hpred, hloc, hacc⟩ := h.wired.locate hp hhi hy hland.pred
  exact ⟨_, y, A, z, B, acc, hdesc, hread, h.wired.chain.stored z hpred.mem, hpred, hloc,
    hacc.imp_right fun hnone => hnone.1⟩

/-! ## `find` -/

/-- 内側の鍵の `find` は、連鎖の中で鍵以下の最後の leaf の block を一つ引く。 -/
theorem Implements.find_block (h : s.Implements m c t rest slots) (hi : s.InnersRegular)
    (hp : s.Plausible) (hlo : s.minKey ≤ key) (hhi : key ≤ s.maxKey) :
    ∃ A z B b, IsPred Link.firstKey key c A z B ∧ z.2.blocks[z.2.home key]? = some b ∧
      ∀ payload, s.find key payload = .ok (match b.get key with
        | some v => (true, v)
        | none => (false, payload)) := by
  obtain ⟨addr, y, A, z, B, acc, hroute⟩ := h.route hi hp hlo hhi
  have hroom : z.2.home key < z.2.blocks.length :=
    lt_of_le_of_lt (LeafNode.slotBlock_le _) ((h.wired.chain.sound z hroute.pred.mem).room key)
  refine ⟨A, z, B, _, hroute.pred, List.getElem?_eq_getElem hroom, fun payload => ?_⟩
  exact find_inside hlo hhi hroute.descend hroute.read rfl hroute.locate hroute.stored
    (List.getElem?_eq_getElem hroom)

/-- **`find` は、予測した block を読む限り、写像を引く。** -/
theorem Implements.find_home (h : s.Implements m c t rest slots) (hi : s.InnersRegular)
    (hp : s.Plausible) (hlo : s.minKey ≤ key) (hhi : key ≤ s.maxKey)
    (hhome : ∀ {A B : List (Link D)} {z : Link D}, IsPred Link.firstKey key c A z B →
      z.2.home key = z.2.predict key) (payload : Payload) :
    s.find key payload = .ok (match m key with
      | some v => (true, v)
      | none => (false, payload)) := by
  obtain ⟨A, z, B, b, hpred, hb, hfind⟩ := h.find_block hi hp hlo hhi
  rw [hhome hpred] at hb
  rw [hfind, h.wired.chain.get_eq h.contents hpred
    (ne_of_lt (lt_of_le_of_lt hhi h.wired.rooted.bound)) hb]

/-- **`find` は写像を引く。** -/
theorem Implements.find_eq (h : s.Implements m c t rest slots) (hr : s.Regular)
    (hlo : s.minKey ≤ key) (hhi : key ≤ s.maxKey) (payload : Payload) :
    s.find key payload = .ok (match m key with
      | some v => (true, v)
      | none => (false, payload)) :=
  h.find_home hr.inners hr.toPlausible hlo hhi (hr.home_pred h.wired hlo hhi) payload

/-- 写像の鍵は区間の中にある。 -/
theorem Implements.within (h : s.Implements m c t rest slots) (hk : m key ≠ none) :
    s.minKey ≤ key ∧ key ≤ s.maxKey := by
  obtain ⟨v, hv⟩ := Option.ne_none_iff_exists'.mp hk
  obtain ⟨hne, x, hx, b, hb, hget⟩ := h.contents.complete key v hv
  have hx' := h.wired.chain.sound x hx
  have hkeys := hx'.keys key ⟨hne, b, hb, by simp [hget]⟩
  exact ⟨le_trans hx'.first.1 hkeys.1, hkeys.2⟩

/-! ## 実行 -/

/-- `bulk_load` の直後は、`leaf_number` は連鎖の長さである。 -/
theorem Loaded.leafNumber_eq (h : Loaded f data s) (hheap : s.leaves.length < 2 ^ 32) :
    s.leafNumber = (loadChain f data).length := by
  have hlen : (loadChain f data).length = s.leaves.length := by rw [h.leaves, List.length_map]
  have hsegs : (loadChain f data).length = (loadSegments f data).length := by
    rw [loadChain, length_linkLeaves, length_loadLeaves]
  rw [h.number, hsegs]
  exact Nat.mod_eq_of_lt (by omega)

/-- 内側の鍵の `upsert`。 -/
def InteriorUpsert (s : PlinIndex D) (op : IndexOp) : Prop :=
  ∃ key payload, op = .upsert key payload ∧ s.minKey < key ∧ key < s.maxKey

theorem Reached.refines (hd : LoadData data) (h : Reached f data Regular InteriorUpsert ops s) :
    s.Regular ∧ s.leftBuffer = .empty ∧ s.rightBuffer = .empty ∧ ∃ c t rest slots,
      s.leafNumber ≤ c.length ∧
      s.Refines (IndexOp.applyAll (fun k => data.lookup k) ops) c t rest slots := by
  induction h with
  | load h hok =>
    have hload := bulkLoad_loaded h
    obtain ⟨t, rest, href⟩ := hload.refines hd hok.toPlausible
    exact ⟨hok, hload.left, hload.right, _, t, rest, _, (hload.leafNumber_eq hok.heap).le, href⟩
  | @step ops s s' fuel op _ hallow hs hok ih =>
    obtain ⟨hr, hleft, hright, c, t, rest, slots, hle, href⟩ := ih
    obtain ⟨key, payload, rfl, hlo, hhi⟩ := hallow
    obtain ⟨c', t', rest', slots', href', hbounds, hnumber, -⟩ := href.upsert hr.toPlausible
      hok.toPlausible hlo hhi (hr.home_pred href.wired hlo.le hhi.le) hs
    refine ⟨hok, hbounds.left.trans hleft, hbounds.right.trans hright, c', t', rest', slots',
      hnumber hle, ?_⟩
    rw [IndexOp.applyAll, List.foldl_append]
    exact href'

end PlinIndex

end Plin
