import Plin.Properties.IndexRun
import Plin.Properties.InnerCapacity
import Plin.Properties.Orphan

/-!
# `bulk_load` した鍵を引く

`data_placement` は `uint64_t` の番号で block を選び、`find` は `uint32_t` の番号で選ぶ。`2 ^ 28` 番目から
先の block では二つが食い違う。探索が正しければ、**`find` は `2 ^ 28` 番目より前の block に予測した鍵を見つけ
（`Loaded.find_of_addressable`）、それより後の block の鍵を見つけない**（`Loaded.find_of_wrapped`）。

食い違いは起こり得る。一つの leaf に `2 ^ 31` 個の鍵があれば、最後の鍵の block は `2 ^ 28` 番目より後ろで
ある（`exists_wideIndex`）。
-/

namespace Plin

open Infra

variable {D : Type} [Arith D]

namespace PlinIndex

namespace Loaded

variable {f : Fitter D} {data : List (Key × Payload)} {s : PlinIndex D} {t : Tier D}
  {rest : List (Tier D)}

theorem mem_leaves (h : Loaded f data s) {l : LeafNode D} :
    l ∈ s.leaves ↔ ∃ x ∈ loadChain f data, x.2 = l := by
  rw [h.leaves, List.mem_map]

/-- **`2 ^ 28` 番目から先の block に置かれた鍵は見つからない。** -/
theorem find_of_wrapped (h : Loaded f data s) (hd : LoadData data)
    (hr : s.Steered (loadChain f data) t rest) {l : LeafNode D} (hl : l ∈ s.leaves) {k : Key}
    (hk : l.Stores k) (hwrap : 2 ^ 28 ≤ l.predict k) (payload : Payload) :
    s.find k payload = .ok (false, payload) := by
  have hshape := hr.shape
  obtain ⟨x, hx, rfl⟩ := h.mem_leaves.mp hl
  have hx' := hshape.chain.sound x hx
  have hkeys := hx'.keys k hk
  have hlo := le_trans hx'.first.1 hkeys.1
  obtain ⟨A, z, B, b, hp, hb, hrun⟩ := hshape.find_full hlo hkeys.2 (hr.guides k hlo hkeys.2)
  obtain rfl := hshape.chain.eq_of_stores hp hx hk
  have hget : b.get k = none := by
    by_contra hsome
    -- 鍵は予測した block にしか無いので、引いた block が予測した block になる
    have hhome := (h.contents hd).home x hx _ b k hb hk.1 hsome
    have hlt : x.2.predict k < 2 ^ 28 :=
      (LeafNode.slotBlock_eq_iff (LeafNode.predictBlock_lt_two_pow ..)).mp hhome
    exact absurd hwrap (not_le_of_gt hlt)
  rw [hrun, hget]

/-- どの鍵も `2 ^ 28` 番目より前の block に予測されていれば、`find` は渡された組を引く。 -/
theorem find_of_addressable (h : Loaded f data s) (hd : LoadData data)
    (hr : s.Steered (loadChain f data) t rest)
    (haddr : ∀ l ∈ s.leaves, ∀ k, l.Stores k → l.predict k < 2 ^ 28) (key : Key)
    (payload : Payload) :
    s.find key payload = .ok (match data.lookup key with
      | some v => (true, v)
      | none => (false, payload)) := by
  have hshape := hr.shape
  have hm := h.contents hd
  by_cases hin : s.minKey ≤ key ∧ key ≤ s.maxKey
  · have hk : key ≠ freeFlag := ne_of_lt (lt_of_le_of_lt hin.2 hshape.bound)
    obtain ⟨A, z, B, b, hp, hb, hrun⟩ := hshape.find_full hin.1 hin.2 (hr.guides key hin.1 hin.2)
    -- 引いた block は、鍵を持つただ一つの leaf の、予測した block である
    have hget : b.get key = data.lookup key := by
      cases hlookup : data.lookup key with
      | none =>
        cases hbk : b.get key with
        | none => rfl
        | some v =>
          have := hm.sound z hp.mem b (List.mem_of_getElem? hb) key v hk hbk
          rw [hlookup] at this
          cases this
      | some v =>
        obtain ⟨-, x, hx, u, hu, huv⟩ := hm.complete key v hlookup
        have hstores : x.2.Stores key := ⟨hk, u, hu, by simp [huv]⟩
        obtain rfl := hshape.chain.eq_of_stores hp hx hstores
        have hblock : LeafNode.slotBlock (x.2.predict key) = x.2.predict key :=
          (LeafNode.slotBlock_eq_iff (LeafNode.predictBlock_lt_two_pow ..)).mpr
            (haddr x.2 (h.mem_leaves.mpr ⟨x, hx, rfl⟩) key hstores)
        rw [hblock] at hb
        rw [hshape.chain.get_eq hm hp hk hb, hlookup]
    cases hlookup : data.lookup key <;> rw [hrun, hget, hlookup]
  · have hnone : data.lookup key = none := by
      rw [List.lookup_eq_none_iff]
      intro e he
      by_contra hke
      obtain rfl : key = e.1 := by simpa using hke
      exact hin (h.within hd e.1 (List.mem_map_of_mem he))
    rw [h.find_outside hin, hnone]

end Loaded

end PlinIndex

/-! ## 大きい leaf -/

/-- `0` から `n - 1` までの鍵。 -/
def wideData (n : Nat) : List (Key × Payload) := (List.range n).map fun i => (Key.ofNat i, 1)

/--
`0` から `n - 1` までの鍵に対する `OptimalPiecewiseLinearModel`。どの点も帯に収まり、leaf の区分の傾きは 1 である。鍵が
一つの区分の傾きは 0 である。
-/
def evenFitter : Fitter ℚ where
  State := Nat
  start epsilon _ _ := epsilon
  second state _ _ := state
  extend state _ _ := some state
  line state _ := if state = epsilonLeafNode then (1, 0) else (0, 0)

theorem map_fst_wideData (n : Nat) : (wideData n).map Prod.fst = (List.range n).map Key.ofNat := by
  rw [wideData, List.map_map]
  rfl

theorem loadData_wideData {n : Nat} (h : n ≤ 2 ^ 52) : PlinIndex.LoadData (wideData n) where
  strict := by
    rw [map_fst_wideData, List.pairwise_map]
    refine List.pairwise_lt_range.imp_of_mem fun {i j} _ hj hij => ?_
    exact Key.ofNat_lt hij (by have := List.mem_range.mp hj; omega)
  below := by
    intro e he
    obtain ⟨i, hi, rfl⟩ := List.mem_map.mp he
    have hlt : i < 2 ^ 52 := lt_of_lt_of_le (List.mem_range.mp hi) h
    exact lt_trans (Key.ofNat_lt hlt (by decide)) (by decide +kernel)

/-! ### 区分 -/

/-- どの点も断られないので、区分は一つである。 -/
theorem segmentLoop_even (epsilon : Nat) {keys : List Key} :
    ∀ {i start count : Nat} {first p : Key} {state : evenFitter.State},
      (p :: keys).Pairwise (· < ·) →
      ∃ number, segmentLoop evenFitter epsilon keys i start first p count state =
        [evenFitter.segment state first number] := by
  induction keys with
  | nil =>
    intro i start count first p state _
    exact ⟨_, rfl⟩
  | cons k keys ih =>
    intro i start count first p state h
    obtain ⟨hp, htail⟩ := List.pairwise_cons.mp h
    have hadd : evenFitter.addPoint count state k i = some state := by
      unfold Fitter.addPoint
      split <;> rfl
    obtain ⟨number, hloop⟩ := @ih (i + 1) start (count + 1) first k state htail
    refine ⟨number, ?_⟩
    rw [segmentLoop, if_neg (hp k (by simp)).ne', hadd]
    exact hloop

theorem makeSegmentation_even (epsilon : Nat) {keys : List Key} {k : Key}
    (hsorted : (k :: keys).Pairwise (· < ·)) :
    makeSegmentation evenFitter epsilon (k :: keys) =
      [evenFitter.segment epsilon k (k :: keys).length] := by
  obtain ⟨number, hloop⟩ := @segmentLoop_even epsilon keys 1 0 1 k k epsilon hsorted
  have heq : makeSegmentation evenFitter epsilon (k :: keys) =
      [evenFitter.segment epsilon k number] := hloop
  have hsum := sum_number_makeSegmentation evenFitter epsilon hsorted
  rw [heq] at hsum ⊢
  have hnumber : number = (k :: keys).length := by simpa [Fitter.segment] using hsum
  rw [hnumber]

/-! ### inner node -/

/-- 子が一つの inner node は作れて、傾きは 0 である。 -/
theorem exists_flatInner (k : Key) (node : InnerSlot ℚ) :
    ∃ nd, InnerNode.new (innerBlocksForLoad 1) [(k, node)] 0 (0 : ℚ) 0 = some nd ∧ nd.slope = 0 ∧
      nd.blockNumber = 4 := by
  have hblocks : innerBlocksForLoad 1 = 4 := by decide
  rw [hblocks]
  have hplace : ((InnerNode.initial 4 [k] 0 (0 : ℚ) 0).placeAll [(k, node)]).isSome = true := by
    refine @InnerNode.placeAll_isSome ℚ _ [(k, node)] _ 0 ?_ ?_ ?_ ?_
    · rintro i ⟨u, hu, hfree⟩
      rw [List.eq_of_mem_replicate (List.mem_of_getElem? hu)] at hfree
      exact absurd hfree (by decide +kernel)
    · show 4 * innerSlotsPerBlock ≤ (List.replicate (8 * 4) InnerSlot.free).length
      rw [List.length_replicate, innerSlotsPerBlock]
    · show 0 + 1 ≤ 4 * innerSlotsPerBlock
      rw [innerSlotsPerBlock]
      omega
    · intro pre e post hcut
      have hlen := congrArg List.length hcut
      rw [List.length_append, List.length_cons, List.length_cons, List.length_nil] at hlen
      have hlt : InnerNode.predictBlock e.1 (InnerNode.initial 4 [k] 0 (0 : ℚ) 0).slope
          (InnerNode.initial 4 [k] 0 (0 : ℚ) 0).intercept 4 < 4 :=
        InnerNode.predictBlock_lt _ _ _ (by omega) (by omega)
      show InnerNode.predictBlock e.1 _ _ 4 * innerSlotsPerBlock + _ ≤ 4 * innerSlotsPerBlock
      rw [innerSlotsPerBlock]
      omega
  obtain ⟨nd, hnd⟩ := Option.isSome_iff_exists.mp hplace
  obtain ⟨hheader, -⟩ := InnerNode.placeAll_header hnd
  have hblock : nd.blockNumber = 4 := by rw [hheader]; rfl
  refine ⟨nd, ?_, ?_, hblock⟩
  · unfold InnerNode.new
    rw [show ([(k, node)] : List (Key × InnerSlot ℚ)).map Prod.fst = [k] from rfl, hnd,
      Option.bind_some, hblock]
    rfl
  · -- 鍵が一つなので、引き伸ばす幅は 0 である
    rw [hheader]
    show (modelCorrection ((0 : ℚ) / 0.2) _ (sub32 (4 % 2 ^ 32) 3 * innerSlotsPerBlock) k k).1 = 0
    unfold modelCorrection
    simp only [sub_self, div_zero, zero_div]
    split_ifs <;> rfl

/-- leaf が一つなら、inner node も一つである。 -/
theorem buildLevels_even (seg : Segment ℚ) (k : Key) (node : InnerSlot ℚ) :
    ∃ nd roots params, buildLevels evenFitter innerBlocksForLoad 2 [seg] 1 [k] [node] [] [] =
      .ok ⟨[nd], roots, params⟩ ∧ nd.slope = 0 ∧ nd.blockNumber = 4 := by
  obtain ⟨nd, hnew, hslope, hblock⟩ := exists_flatInner k node
  have hseg : makeSegmentation evenFitter epsilonInnerNode [k] =
      [evenFitter.segment epsilonInnerNode k 1] :=
    makeSegmentation_even epsilonInnerNode (List.pairwise_singleton _ _)
  have hline : evenFitter.line epsilonInnerNode k = (0, 0) := rfl
  refine ⟨nd, [nd.accelerator 0], [[{
    firstKey := k, slope := (nd.accelerator 0).slope, intercept := (nd.accelerator 0).intercept
    blockNum := innerBlocksForLoad 1 }]], ?_, hslope, hblock⟩
  rw [buildLevels, hseg]
  simp only [List.singleton_append, List.drop_succ_cons, List.drop_zero, List.zip_cons_cons,
    List.zip_nil_right, buildInners, Fitter.segment, hline, List.take_succ_cons, List.take_zero,
    hnew]
  rfl

/-! ### 索引 -/

section Wide

variable {n : Nat}

/-- `0` から `n - 1` までの鍵の leaf の構築。 -/
def wideBuild (n : Nat) (hmany : 2 ≤ n) (hn : n ≤ 2 ^ 52)
    (hsmall : LeafNode.blockNumberFor n < 2 ^ 29) : LeafBuild where
  blockNumber := LeafNode.blockNumberFor n
  data := wideData n
  startPos := 0
  slope := 1
  intercept := 0
  prev := none
  wide := by
    unfold LeafNode.blockNumberFor
    omega
  small := hsmall
  many := by
    rw [wideData, List.length_map, List.length_range]
    exact hmany
  sorted := (loadData_wideData hn).strict
  upward := zero_le_one

theorem length_wideData (n : Nat) : (wideData n).length = n := by
  rw [wideData, List.length_map, List.length_range]

theorem loadSegments_wideData (hpos : 0 < n) (hn : n ≤ 2 ^ 52) :
    PlinIndex.loadSegments evenFitter (wideData n) =
      [evenFitter.segment epsilonLeafNode (Key.ofNat 0) n] := by
  obtain ⟨keys, hkeys⟩ : ∃ keys, (wideData n).map Prod.fst = Key.ofNat 0 :: keys := by
    rw [map_fst_wideData]
    obtain ⟨n, rfl⟩ : ∃ j, n = j + 1 := ⟨n - 1, by omega⟩
    exact ⟨_, by rw [List.range_succ_eq_map, List.map_cons]⟩
  have hlen : (Key.ofNat 0 :: keys).length = n := by
    rw [← hkeys, List.length_map, length_wideData]
  have hsorted := (loadData_wideData hn).strict
  rw [hkeys] at hsorted
  rw [PlinIndex.loadSegments, hkeys, makeSegmentation_even epsilonLeafNode hsorted, hlen]

/-- leaf は一つで、全ての鍵から構築される。 -/
theorem loadChain_wideData (hpos : 0 < n) (hn : n ≤ 2 ^ 52) :
    PlinIndex.loadChain evenFitter (wideData n) =
      [(0, { LeafNode.new (LeafNode.blockNumberFor n) (wideData n) 0 (1 : ℚ) 0 none with
        next := none })] := by
  have htake : (wideData n).take n = wideData n := List.take_of_length_le (length_wideData n).le
  rw [PlinIndex.loadChain, PlinIndex.loadLeaves, loadSegments_wideData hpos hn]
  show linkLeaves 0 none [LeafNode.new (LeafNode.blockNumberFor n) ((wideData n).take n) 0 1 0
    none] = _
  rw [htake]
  rfl

/-- `0` から `n - 1` までの鍵の `bulk_load` は終わる。 -/
theorem exists_bulkLoad_wideData (hpos : 0 < n) (hn : n ≤ 2 ^ 52)
    (hsmall : LeafNode.blockNumberFor n < 2 ^ 29) :
    ∃ s, PlinIndex.bulkLoad evenFitter (wideData n) = .ok s ∧
      ∀ nd ∈ s.inners, nd.slope = 0 ∧ nd.blockNumber = 4 := by
  have hsegs := loadSegments_wideData hpos hn
  have hchain := loadChain_wideData hpos hn
  have hblocks : ∀ l ∈ PlinIndex.loadLeaves evenFitter (wideData n), l.blockNumber < 2 ^ 29 := by
    intro l hl
    rw [PlinIndex.loadLeaves, hsegs, freshLeaves, freshLeaves, List.mem_singleton] at hl
    rw [hl, (LeafNode.new_header _ _ _ _ _ _).header]
    show LeafNode.blockNumberFor n % 2 ^ 32 < 2 ^ 29
    omega
  obtain ⟨nd, roots, params, hlevels, hslope, hblock⟩ := buildLevels_even
    (evenFitter.segment epsilonLeafNode (Key.ofNat 0) n) (Key.ofNat 0)
    (Link.info (0, { LeafNode.new (LeafNode.blockNumberFor n) (wideData n) 0 (1 : ℚ) 0 none with
      next := none }))
  have hlevels' : buildLevels evenFitter innerBlocksForLoad
      ((PlinIndex.loadSegments evenFitter (wideData n)).length + 1)
      (PlinIndex.loadSegments evenFitter (wideData n))
      (PlinIndex.loadSegments evenFitter (wideData n)).length
      ((PlinIndex.loadSegments evenFitter (wideData n)).map (·.firstKey))
      ((PlinIndex.loadChain evenFitter (wideData n)).map Link.info) [] [] =
        .ok ⟨[nd], roots, params⟩ := by
    rw [hsegs, hchain]
    exact hlevels
  have hne : wideData n ≠ [] := by
    intro hnil
    have := length_wideData n
    rw [hnil, List.length_nil] at this
    omega
  obtain ⟨s, hs, hinners, -⟩ := PlinIndex.exists_bulkLoad hne hblocks hlevels'
  refine ⟨s, hs, fun nd' hnd' => ?_⟩
  rw [hinners] at hnd'
  rw [List.mem_singleton.mp hnd']
  exact ⟨hslope, hblock⟩

/-- 最後の鍵の block が `2 ^ 28` 番目から先になる大きさの索引。 -/
theorem wideData_lost (hn : n ≤ 2 ^ 52) (hsmall : LeafNode.blockNumberFor n < 2 ^ 29)
    (hbig : 2 ^ 28 + 2 ≤ LeafNode.blockNumberFor n) :
    ∃ s, PlinIndex.bulkLoad evenFitter (wideData n) = .ok s ∧ s.InnersRegular ∧ s.Plausible ∧
      (∀ l ∈ s.leaves, ∀ a b, a ≤ b → l.predict a ≤ l.predict b) ∧
      (∀ l ∈ s.leaves, 3 ≤ l.blockNumber) ∧
      ¬ ∀ e ∈ wideData n, ∀ payload, s.find e.1 payload = .ok (true, e.2) := by
  have hmany : 2 ≤ n := by
    unfold LeafNode.blockNumberFor at hbig
    omega
  have hd := loadData_wideData hn
  obtain ⟨s, hs, hinners⟩ := exists_bulkLoad_wideData (by omega) hn hsmall
  have hload := PlinIndex.bulkLoad_loaded hs
  -- 内部 node の傾きは 0 なので、どの鍵も同じ子に向かう
  have hr : s.InnersRegular := by
    intro nd hnd
    obtain ⟨hslope, hblock⟩ := hinners nd hnd
    refine ⟨fun a b _ _ _ => ?_, fun k _ _ => ?_⟩
    · have hflat : position a nd.slope nd.intercept = position b nd.slope nd.intercept := by
        rw [hslope, position, position, mul_zero, mul_zero]
      rw [InnerNode.predictBlock, InnerNode.predictBlock, hflat]
    · exact InnerNode.predictBlock_lt k nd.slope nd.intercept (by omega) (by omega)
  have hbuilt : ∀ l ∈ s.leaves, l.BuiltBy (wideBuild n hmany hn hsmall) := by
    intro l hl
    rw [hload.leaves, loadChain_wideData (by omega) hn, List.map_singleton,
      List.mem_singleton] at hl
    rw [hl]
    exact ⟨rfl, rfl⟩
  have hlen : s.leaves.length = 1 := by
    rw [hload.leaves, loadChain_wideData (by omega) hn]
    rfl
  obtain ⟨l, hl⟩ := List.exists_mem_of_length_pos (by omega : 0 < s.leaves.length)
  have hlast : (wideBuild n hmany hn hsmall).last ∈ (wideData n).map Prod.fst :=
    (wideBuild n hmany hn hsmall).last_mem
  obtain ⟨e, he, hek⟩ := List.mem_map.mp hlast
  have hlookup := (PlinIndex.lookup_eq_some_iff_mem hd.nodup (v := e.2)).mpr he
  refine ⟨s, hs, hr, ⟨fun nd hnd => (hr nd hnd).mono, ?_, by omega⟩, ?_, ?_, fun hexact => ?_⟩
  · intro l hl k hk _
    rw [(hbuilt l hl).lastBuildKey] at hk
    exact (hbuilt l hl).tail hk
  · intro l hl a b hab
    have hblock := (hbuilt l hl).blockNumber
    have hwide := (wideBuild n hmany hn hsmall).wide
    have hsmall' := (wideBuild n hmany hn hsmall).small
    exact LeafNode.predictBlock_mono (hbuilt l hl).model.1 (by omega) (by omega) hab
  · intro l hl
    rw [(hbuilt l hl).blockNumber]
    exact three_le_blockNumberFor n
  · -- 最後の鍵は末尾の block に予測される
    obtain ⟨hne, x, hx, b, hb, hget⟩ := (hload.contents hd).complete e.1 e.2 hlookup
    have hxl := hload.mem_leaves.mpr ⟨x, hx, rfl⟩
    have htail := (hbuilt x.2 hxl).tail hek.ge
    have hblock : x.2.blockNumber = LeafNode.blockNumberFor n := (hbuilt x.2 hxl).blockNumber
    rw [hblock, sub32_eq (by omega) (by omega)] at htail
    obtain ⟨t, rest, hsteered⟩ := hload.steered hd hr
    have hlost := hload.find_of_wrapped hd hsteered hxl ⟨hne, b, hb, by simp [hget]⟩ (by omega) 0
    rw [hexact e he] at hlost
    cases hlost

end Wide

/-- **`0` から `2 ^ 31 - 1` までの鍵を `bulk_load` すると、最後の鍵が見つからない。** -/
theorem exists_wideIndex :
    ∃ s : PlinIndex ℚ, PlinIndex.bulkLoad evenFitter (wideData (2 ^ 31)) = .ok s ∧
      s.InnersRegular ∧ s.Plausible ∧
      (∀ l ∈ s.leaves, ∀ a b, a ≤ b → l.predict a ≤ l.predict b) ∧
      (∀ l ∈ s.leaves, 3 ≤ l.blockNumber) ∧
      ¬ ∀ e ∈ wideData (2 ^ 31), ∀ payload, s.find e.1 payload = .ok (true, e.2) :=
  wideData_lost (by decide) (by decide) (by decide)

/-- 予測器がどれも単調でも、`bulk_load` した鍵が見つからないことがある。 -/
theorem bulkLoad_find_lost :
    ∃ s : PlinIndex ℚ, PlinIndex.LoadData (wideData (2 ^ 31)) ∧
      PlinIndex.bulkLoad evenFitter (wideData (2 ^ 31)) = .ok s ∧ s.InnersRegular ∧
      ¬ ∀ e ∈ wideData (2 ^ 31), ∀ payload, s.find e.1 payload = .ok (true, e.2) := by
  obtain ⟨s, hs, hr, -, -, -, hlost⟩ := exists_wideIndex
  exact ⟨s, loadData_wideData (by decide), hs, hr, hlost⟩

end Plin
