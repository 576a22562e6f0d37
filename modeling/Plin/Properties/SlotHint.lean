import Plin.Cloud.CrossEdge
import Plin.Properties.BulkLoad
import Plin.Properties.HotUpdate

/-!
# 予測の slot は答えを変えない

`find_through_net` は End の送った slot の leaf から探し始める。着く leaf は連鎖のどれかであり、鍵を
持つ leaf は一つしか無いので、**見つかれば `find` と同じ leaf で見つかっている**。見つからなければ
`handle_end` は `find` をやり直す。
-/

namespace Plin

open Infra

variable {D : Type} [Arith D]

namespace PlinIndex.Loaded

variable {f : Fitter D} {data : List (Key × Payload)} {s : PlinIndex D}

/-- slot を収めた行は `local_table` に在り、連鎖の leaf を指す。 -/
theorem exists_record (h : Loaded f data s) (hd : LoadData data) (id : Int) :
    ∃ y ∈ loadChain f data,
      s.localTable[if sub32 s.leafNumber 1 < (if id < 0 then 0 else id).toNat then
        sub32 s.leafNumber 1 else (if id < 0 then 0 else id).toNat]? = some (record y) := by
  have hpos : 0 < (loadSegments f data).length := List.length_pos_iff.mpr h.segments_ne_nil
  have hlen : (loadChain f data).length = (loadSegments f data).length := by
    rw [loadChain, length_linkLeaves, length_loadLeaves]
  have hlast : sub32 s.leafNumber 1 < (loadSegments f data).length := by
    rw [h.number, sub32]
    omega
  have hlt : (if sub32 s.leafNumber 1 < (if id < 0 then 0 else id).toNat then
      sub32 s.leafNumber 1 else (if id < 0 then 0 else id).toNat) < (loadChain f data).length := by
    rw [hlen]
    generalize (if id < 0 then 0 else id).toNat = n
    split <;> omega
  refine ⟨_, List.getElem_mem hlt, ?_⟩
  rw [h.localTable_eq hd, List.getElem?_map, List.getElem?_eq_getElem hlt]
  rfl

/-- `find` が返れば、`find_through_net` も返る。区間の中の鍵は、連鎖のどれかの leaf の block を引く。 -/
theorem findThroughNet_inside (h : Loaded f data s) (hd : LoadData data) {key : Key}
    {payload : Payload} {r : Bool × Payload} (hfind : s.find key payload = .ok r)
    (hin : s.minKey ≤ key ∧ key ≤ s.maxKey) (id : Int) :
    ∃ z ∈ loadChain f data, ∃ b, z.2.blocks[LeafNode.slotBlock (z.2.predict key)]? = some b ∧
      s.findThroughNet key payload id = .ok (b.find key r.2) := by
  have hchain := h.chain hd
  obtain ⟨y, hy, hrec⟩ := h.exists_record hd id
  obtain ⟨X, W, hc⟩ := List.append_of_mem hy
  have hlen := Chain.length_le hchain.stored hchain.nodup
  rw [hc, List.length_append, List.length_cons] at hlen
  have hfuel : W.length < s.leaves.length + 1 := by omega
  obtain ⟨z, hz, acc, hloc⟩ := hchain.locate_total key (a := none) hc hfuel
    (fun s hs => by cases hs)
  have hlt : LeafNode.slotBlock (z.2.predict key) < z.2.blocks.length :=
    lt_of_le_of_lt (LeafNode.slotBlock_le _) ((hchain.sound z hz).room key)
  have hb := List.getElem?_eq_getElem hlt
  have hleaf := LeafNode.find_of_locate (p := r.2) hloc (hchain.stored z hz) hb
  have hread : y.2.checkReadLock none = true := by
    simp [LeafNode.checkReadLock, (hchain.sound y hy).unlocked]
  refine ⟨z, hz, _, hb, ?_⟩
  unfold findThroughNet
  rw [hfind]
  simp only [bind, Except.bind]
  rw [hrec]
  simp only [orFault, if_pos hin]
  rw [show (record y).addr = y.1 from rfl, hchain.stored y hy]
  simp only [hread, Bool.not_true, Bool.false_eq_true, if_false]
  rw [hleaf]

/-- 区間の外の鍵は引かれない。 -/
theorem findThroughNet_outside (h : Loaded f data s) (hd : LoadData data) {key : Key}
    {payload : Payload} {r : Bool × Payload} (hfind : s.find key payload = .ok r)
    (hout : ¬ (s.minKey ≤ key ∧ key ≤ s.maxKey)) (id : Int) :
    s.findThroughNet key payload id = .ok (0, r.2) := by
  obtain ⟨y, hy, hrec⟩ := h.exists_record hd id
  unfold findThroughNet
  rw [hfind]
  simp only [bind, Except.bind]
  rw [hrec]
  simp only [orFault]
  rw [if_neg hout]
  rfl

/-- `find` が返れば、`find_through_net` も返り、見つけた payload は data の payload である。 -/
theorem findThroughNet_sound (h : Loaded f data s) (hd : LoadData data) {key : Key}
    {payload : Payload} {r : Bool × Payload} (hfind : s.find key payload = .ok r) (id : Int) :
    ∃ ret v, s.findThroughNet key payload id = .ok (ret, v) ∧
      (ret = 1 → data.lookup key = some v) ∧ (ret ≠ 1 → v = r.2) := by
  by_cases hin : s.minKey ≤ key ∧ key ≤ s.maxKey
  · have hk : key ≠ freeFlag := ne_of_lt (lt_of_le_of_lt hin.2 (h.maxKey_lt hd))
    obtain ⟨z, hz, b, hb, hnet⟩ := h.findThroughNet_inside hd hfind hin id
    rw [Block.find_eq] at hnet
    cases hget : b.get key with
    | none =>
      rw [hget] at hnet
      exact ⟨0, r.2, hnet, nofun, fun _ => rfl⟩
    | some v =>
      rw [hget] at hnet
      refine ⟨1, v, hnet, fun _ => ?_, fun hc => absurd rfl hc⟩
      exact (h.contents hd).sound z hz b (List.mem_of_getElem? hb) key v hk hget
  · exact ⟨0, r.2, h.findThroughNet_outside hd hfind hin id, nofun, fun _ => rfl⟩

/-- 区間の外の鍵は見つからない。 -/
theorem find_outside (h : Loaded f data s) {key : Key}
    (hout : ¬ (s.minKey ≤ key ∧ key ≤ s.maxKey)) (payload : Payload) :
    s.find key payload = .ok (false, payload) := by
  rw [PlinIndex.find_outside s hout, h.left, h.right, ite_self]
  rfl

/--
**`find_through_net` が見つければ、`find` も同じ payload を見つける。**

`m` は `find` の見つける payload である。見つからなければ、`find_through_net` は `find` の書いた
payload をそのまま残す。
-/
theorem findThroughNet_eq (h : Loaded f data s) (hd : LoadData data) {t : Tier D}
    {rest : List (Tier D)} (hr : s.Steered (loadChain f data) t rest) (key : Key) :
    ∃ m : Option Payload,
      (∀ payload, s.find key payload = .ok (match m with
        | some v => (true, v)
        | none => (false, payload))) ∧
      ∀ payload id, ∃ ret, s.findThroughNet key payload id = .ok (ret, m.getD payload) ∧
        (ret = 1 → m ≠ none) := by
  have hshape := hr.shape
  by_cases hin : s.minKey ≤ key ∧ key ≤ s.maxKey
  · have hk : key ≠ freeFlag := ne_of_lt (lt_of_le_of_lt hin.2 hshape.bound)
    obtain ⟨A, z, B, b, hp, hb, hfind⟩ := hshape.find_full hin.1 hin.2 (hr.guides key hin.1 hin.2)
    refine ⟨b.get key, hfind, fun payload id => ?_⟩
    obtain ⟨z', hz', b', hb', hnet⟩ := h.findThroughNet_inside hd (hfind payload) hin id
    replace hnet : s.findThroughNet key payload id =
        .ok (b'.find key ((b.get key).getD payload)) := by
      rw [hnet]
      cases b.get key <;> rfl
    rw [Block.find_eq] at hnet
    cases hget : b'.get key with
    | none =>
      rw [hget] at hnet
      exact ⟨0, hnet, nofun⟩
    | some v =>
      -- 鍵を持つ leaf は一つなので、`find` と同じ block で見つかっている
      have hstore : z'.2.Stores key := ⟨hk, b', List.mem_of_getElem? hb', by simp [hget]⟩
      obtain rfl := hshape.chain.eq_of_stores hp hz' hstore
      obtain rfl := Option.some.inj (hb.symm.trans hb')
      rw [hget] at hnet ⊢
      exact ⟨1, hnet, fun _ => by simp⟩
  · refine ⟨none, fun payload => h.find_outside hin payload, fun payload id => ⟨0, ?_, nofun⟩⟩
    exact h.findThroughNet_outside hd (h.find_outside hin payload) hin id

end PlinIndex.Loaded

/-! ## 要求を読む -/

theorem body_edgeFetchReq (key : Key) (slot : Int32) :
    (edgeFetchReq key slot).body = leBytes 8 key.bits ++ leBytes 4 slot.toUInt32.toNat := rfl

theorem readDouble_edgeFetchReq (key : Key) (slot : Int32) :
    readDouble (edgeFetchReq key slot).body 0 = some (some key) := by
  rw [readDouble, body_edgeFetchReq, if_pos (by simp), List.drop_zero,
    List.take_left' (length_leBytes 8 _), Key.ofBits_ofLeBytes]

theorem predictedSlot_edgeFetchReq (key : Key) (slot : Int32) :
    predictedSlot (edgeFetchReq key slot) = slot := by
  have hlt : slot.toUInt32.toNat < 256 ^ 4 := slot.toUInt32.toNat_lt
  rw [predictedSlot, readU32, body_edgeFetchReq, if_pos (by simp),
    List.drop_left' (length_leBytes 8 _), List.take_of_length_le (by simp), ofLeBytes_leBytes,
    Nat.mod_eq_of_lt hlt]
  simp

/-! ## Edge の索引 -/

section EdgeIndex

variable {D : Type} [Arith D] {s : PlinIndex D} {key : Key} {payload : Payload}

/-- 索引の `find` が返れば、Edge の `find` も同じものを返す。 -/
theorem PlinIndex.edgeIndex_find_of_ok {r : Bool × Payload} (h : s.find key payload = .ok r) :
    s.edgeIndex.find (some key) payload = r := by
  simp only [PlinIndex.edgeIndex, h]

/-- `find_through_net` も同じである。 -/
theorem PlinIndex.edgeIndex_findThroughNet_of_ok {slot : Int32} {r : Nat × Payload}
    (h : s.findThroughNet key payload slot.toInt = .ok r) :
    s.edgeIndex.findThroughNet (some key) payload slot = r := by
  simp only [PlinIndex.edgeIndex, h]

end EdgeIndex

/-! ## 応答 -/

/--
`slot` を添えた `EDGE_FETCH_REQ` への応答は `find` の答えである。

見つからなければ payload は 0 である。`find_through_net` は必ず返る。
-/
def HintExact (s : PlinIndex D) (key : Key) (slot : Int32) : Prop :=
  ∃ found payload, s.find key 0 = .ok (found, payload) ∧ (found = false → payload = 0) ∧
    (∃ r, s.findThroughNet key 0 slot.toInt = .ok r) ∧
    handleEdgeFetchReq s.edgeIndex (edgeFetchReq key slot) =
      some (makeFetchResp (if found then .ok else .notFound) payload)

/-- **探索が正しければ、どの slot を添えても応答は `find` の答えである。** -/
theorem PlinIndex.Loaded.hintExact {f : Fitter D} {data : List (Key × Payload)} {s : PlinIndex D}
    (h : PlinIndex.Loaded f data s) (hd : PlinIndex.LoadData data) {t : Tier D}
    {rest : List (Tier D)} (hr : s.Steered (PlinIndex.loadChain f data) t rest) (key : Key)
    (slot : Int32) : HintExact s key slot := by
  obtain ⟨m, hfind, hnet⟩ := h.findThroughNet_eq hd hr key
  obtain ⟨ret, hret, hm⟩ := hnet 0 slot.toInt
  have hfetch : fetchFromIndex s.edgeIndex (some key) slot = (m.isSome, m.getD 0) := by
    have hidx : ∀ p, s.edgeIndex.find (some key) p = (m.isSome, m.getD p) := by
      intro p
      rw [PlinIndex.edgeIndex_find_of_ok (hfind p)]
      cases m <;> rfl
    have hhint : s.edgeIndex.findThroughNet (some key) 0 slot = (ret, m.getD 0) :=
      PlinIndex.edgeIndex_findThroughNet_of_ok hret
    unfold fetchFromIndex
    split
    · rw [hhint]
      dsimp only
      by_cases h1 : ret = 1
      · rw [if_pos h1]
        have := hm h1
        cases m with
        | none => exact absurd rfl this
        | some v => rfl
      · rw [if_neg h1, hidx]
        cases m <;> rfl
    · exact hidx 0
  refine ⟨m.isSome, m.getD 0, ?_, ?_, ⟨_, hret⟩, ?_⟩
  · rw [hfind]
    cases m <;> rfl
  · cases m with
    | none => exact fun _ => rfl
    | some v =>
      intro hv
      cases hv
  · rw [handleEdgeFetchReq, readDouble_edgeFetchReq]
    dsimp only
    rw [predictedSlot_edgeFetchReq, hfetch]

end Plin
