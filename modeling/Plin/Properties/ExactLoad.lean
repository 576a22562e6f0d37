import Plin.Index.Correction
import Plin.Properties.LoadExact
import Plin.Properties.SegmentationFit

/-!
# 丸めの無い `bulk_load`

幾何と model の計算に丸めが無ければ、`bulk_load` はどの `assert` にも掛からずに終わり、`find` は渡した組を
そのまま引く（`bulkLoad_exact`）。model についての仮定は残らない。

- 区分の誤差は ε 以内なので、inner node の構築で子はあふれない（`InnerNode.exists_new`）。
- 区分の傾きは負にならないので、inner node の予測は単調で、探索の条件を満たす（`Upright`）。

鍵が一つの区分では `model_correction` が 0 で割るので、どの区分にも鍵が二つ以上あるとする（`LoadPlural`）。
-/

namespace Plin

open Infra

/-- どの区分にも鍵が二つ以上ある。 -/
def Plural (epsilon : Nat) (keys : List Key) : Prop :=
  ∀ seg ∈ makeSegmentation exactFitter epsilon keys, 2 ≤ seg.number

/-- `bulk_load` の leaf の区分にも、どの段の区分にも、鍵が二つ以上ある。 -/
structure LoadPlural (keys : List Key) : Prop where
  leaf : Plural epsilonLeafNode keys
  levels : ∀ level ∈ levelKeys exactFitter ((leafFirstKeys exactFitter keys).length + 1)
    (leafFirstKeys exactFitter keys), Plural epsilonInnerNode level

/-! ## inner node -/

/-- 傾きが負でなく、block が四つ以上ある inner node。 -/
structure Upright (nd : InnerNode ℚ) : Prop where
  slope : 0 ≤ nd.slope
  wide : 4 ≤ nd.blockNumber
  small : nd.blockNumber < 2 ^ 29

theorem Upright.regular {nd : InnerNode ℚ} (h : Upright nd) (lo hi : Key) : nd.Regular lo hi :=
  InnerNode.regular_of_slope h.slope h.wide (by have := h.small; omega) lo hi

namespace InnerNode

variable {data : List (Key × InnerSlot ℚ)} {startPos : Nat} {seg : Segment ℚ}

theorem headD_lt_getLastD {l : List Key} (h : l.Pairwise (· < ·)) (hlen : 2 ≤ l.length) (d : Key) :
    l.headD d < l.getLastD d := by
  obtain ⟨k, keys, rfl⟩ := List.exists_cons_of_length_pos (by omega : 0 < l.length)
  exact lt_getLastD h (i := 0) rfl (by omega) d

/-- 区分の誤差が `EPSILON_INNER_NODE` 以内なら、どの子の予測も残りの子の数だけ右端から離れている。 -/
theorem room_of_fits (hn : 2 ≤ data.length) (hsorted : (data.map Prod.fst).Pairwise (· < ·))
    {slope intercept : ℚ} (hfit : Fits (data.map Prod.fst) startPos slope intercept) {bn : Nat}
    (hbn : bn = innerBlocksForLoad data.length) (h32 : bn < 2 ^ 32)
    {pre post : List (Key × InnerSlot ℚ)} {e : Key × InnerSlot ℚ} (hcut : data = pre ++ e :: post) :
    (initial bn (data.map Prod.fst) startPos slope intercept).startSlot e.1 + (post.length + 1) ≤
      bn * innerSlotsPerBlock := by
  have hslots := slots_enough (Or.inl hbn)
  have h4 : 4 ≤ bn := by
    rw [innerSlotsPerBlock] at hslots
    omega
  have hlen : data.length = pre.length + 1 + post.length := by
    rw [hcut, List.length_append, List.length_cons]
    omega
  have hget : (data.map Prod.fst)[pre.length]? = some e.1 := by simp [hcut]
  have hne : data.map Prod.fst ≠ [] := by simp [hcut]
  have hgetLast := getElem?_getLastD hne freeFlag
  rw [List.length_map] at hgetLast
  have hkeys := headD_lt_getLastD hsorted (by rw [List.length_map]; exact hn) freeFlag
  have hmax : e.1 ≤ (data.map Prod.fst).getLastD freeFlag := by
    by_cases hpost : pre.length + 1 < data.length
    · exact (lt_getLastD hsorted hget (by rw [List.length_map]; exact hpost) freeFlag).le
    · rw [show data.length - 1 = pre.length by omega, hget] at hgetLast
      exact (Option.some.inj hgetLast).le
  have hlast := hfit.looseModel_near hgetLast
  rw [Nat.cast_sub (by omega), Nat.cast_one] at hlast
  have hsize : 1 ≤ (bn - 3) * innerSlotsPerBlock := by
    rw [innerSlotsPerBlock]
    omega
  have hs := predictSlot_bounds e.1 (initial bn (data.map Prod.fst) startPos slope intercept).slope
    (initial bn (data.map Prod.fst) startPos slope intercept).intercept h4 h32
  have hheader : (initial bn (data.map Prod.fst) startPos slope intercept).blockNumber = bn :=
    Nat.mod_eq_of_lt h32
  refine slot_room hlen hslots (?_ : SlotBounds bn _ _) (hfit.looseModel_near hget) hlast
    ((initial_corrected h4 h32).line_le hkeys hsize hmax)
  rw [startSlot, hheader]
  exact hs

theorem fits_of_describes {keys : List Key}
    (h : Describes epsilonInnerNode seg (keys.zipIdx startPos)) :
    Fits keys startPos seg.slope seg.intercept := by
  intro i k hk
  have hfirst : keys.headD freeFlag = seg.firstKey := by
    have hhead := h.first
    cases keys with
    | nil => cases hhead
    | cons a keys => exact Option.some.inj hhead
  have hnear := h.near (k, startPos + i) (List.mk_add_mem_zipIdx_iff_getElem?.mpr hk)
  rw [hfirst]
  push_cast at hnear
  exact hnear

/-- **区分から inner node を作れる。** -/
theorem exists_new (hn : 2 ≤ data.length) (hsorted : (data.map Prod.fst).Pairwise (· < ·))
    (hseg : Describes epsilonInnerNode seg ((data.map Prod.fst).zipIdx startPos))
    (hsmall : innerBlocksForLoad data.length < 2 ^ 29) :
    ∃ nd, new (innerBlocksForLoad data.length) data startPos seg.slope seg.intercept = some nd ∧
      Upright nd := by
  obtain ⟨bn, hbn⟩ : ∃ bn, bn = innerBlocksForLoad data.length := ⟨_, rfl⟩
  rw [← hbn] at hsmall ⊢
  have hslots := slots_enough (Or.inl hbn)
  have h4 : 4 ≤ bn := by
    rw [innerSlotsPerBlock] at hslots
    omega
  have hheader : (initial bn (data.map Prod.fst) startPos seg.slope seg.intercept).blockNumber =
      bn := Nat.mod_eq_of_lt (by omega)
  have hplace : ((initial bn (data.map Prod.fst) startPos seg.slope seg.intercept).placeAll
      data).isSome = true := by
    refine @placeAll_isSome ℚ _ data _ 0 ?_ ?_ ?_ fun pre e post hcut => ?_
    · rintro i ⟨u, hu, hfree⟩
      have hmem : u ∈ List.replicate (8 * bn) InnerSlot.free := List.mem_of_getElem? hu
      rw [List.eq_of_mem_replicate hmem] at hfree
      exact absurd hfree (by simp [InnerSlot.isFree, InnerSlot.free])
    · rw [hheader, innerSlotsPerBlock, Nat.mul_comm]
      exact (List.length_replicate ..).ge
    · rw [hheader]
      omega
    · rw [hheader]
      exact room_of_fits hn hsorted (fits_of_describes hseg) hbn (by omega) hcut
  obtain ⟨nd, hnd⟩ := Option.isSome_iff_exists.mp hplace
  have hhead := (placeAll_header hnd).1
  have hblock : nd.blockNumber = bn := by rw [hhead, hheader]
  rw [← hblock] at h4 hsmall
  refine ⟨nd, by rw [new, hnd, Option.bind_some, if_pos hsmall], ?_, h4, hsmall⟩
  -- 引き伸ばしても傾きの符号は変わらない
  have hkeys := headD_lt_getLastD hsorted (by rw [List.length_map]; exact hn) freeFlag
  have hslope : 0 ≤ seg.slope / (0.2 : ℚ) := div_nonneg hseg.upward (by norm_num)
  have hsize : 1 ≤ (bn - 3) * innerSlotsPerBlock := by
    rw [innerSlotsPerBlock]
    omega
  rw [hhead]
  exact ((initial_corrected (hblock ▸ h4) (by omega)).last hslope hkeys hsize).1

end InnerNode

/-! ## 段の構築 -/

/-- **鍵が一つの区分が無ければ、段を作れる。** -/
theorem exists_buildInners {segs : List (Segment ℚ)} :
    ∀ {data : List (Key × InnerSlot ℚ)} {startPos : Nat} {heap : List (InnerNode ℚ)},
      Modelled epsilonInnerNode segs (data.map Prod.fst) startPos →
      (data.map Prod.fst).Pairwise (· < ·) → (∀ seg ∈ segs, 2 ≤ seg.number) →
      data.length < 2 ^ 29 → (∀ nd ∈ heap, Upright nd) →
      ∃ r, buildInners innerBlocksForLoad segs data startPos heap = .ok r ∧
        r.2.1.length = segs.length ∧ ∀ nd ∈ r.1, Upright nd := by
  induction segs with
  | nil =>
    intro data startPos heap _ _ _ _ hheap
    exact ⟨(heap, [], []), rfl, rfl, hheap⟩
  | cons seg segs ih =>
    intro data startPos heap hmod hsorted hplural hsmall hheap
    obtain ⟨hseg, hrest⟩ := hmod
    have hnumber : seg.number = (data.take seg.number).length := by
      have := hseg.number
      rwa [List.length_zipIdx, ← List.map_take, List.length_map] at this
    have hlen : seg.number ≤ data.length := by
      rw [hnumber]
      exact List.length_take_le' ..
    rw [← List.map_take] at hseg
    rw [← List.map_drop] at hrest
    obtain ⟨nd, hnew, hup⟩ := @InnerNode.exists_new (data.take seg.number) startPos seg
      (hnumber ▸ hplural seg List.mem_cons_self)
      (by rw [List.map_take]; exact hsorted.sublist (List.take_sublist ..)) hseg (by
        rw [← hnumber]
        simp only [innerBlocksForLoad, epsilonInnerNode, innerSlotsPerBlock]
        omega)
    rw [← hnumber] at hnew
    obtain ⟨r, hr, hacc, hall⟩ := @ih (data.drop seg.number) (startPos + seg.number) (heap ++ [nd])
      hrest (by rw [List.map_drop]; exact hsorted.sublist (List.drop_sublist ..))
      (fun s hs => hplural s (List.mem_cons_of_mem _ hs)) (by rw [List.length_drop]; omega) (by
        intro m hm
        rcases List.mem_append.mp hm with hm | hm
        · exact hheap m hm
        · rw [List.mem_singleton.mp hm]
          exact hup)
    have hbuilt : ∃ params, buildInners innerBlocksForLoad (seg :: segs) data startPos heap =
        .ok (r.1, nd.accelerator heap.length :: r.2.1, params) := by
      rw [buildInners, hnew]
      dsimp only
      rw [hr]
      exact ⟨_, rfl⟩
    obtain ⟨params, hbuilt⟩ := hbuilt
    exact ⟨_, hbuilt, congrArg (· + 1) hacc, hall⟩

/-- **段を根まで積める。** -/
theorem exists_buildLevels {fuel : Nat} :
    ∀ {segments : List (Segment ℚ)} {firstKeys : List Key} {slots : List (InnerSlot ℚ)}
      {heap : List (InnerNode ℚ)} {params : List (List (Param ℚ))}, firstKeys.length < fuel →
      slots.length = firstKeys.length → firstKeys.Pairwise (· < ·) → firstKeys.length < 2 ^ 29 →
      (∀ level ∈ levelKeys exactFitter fuel firstKeys, Plural epsilonInnerNode level) →
      (∀ nd ∈ heap, Upright nd) →
      ∃ b, buildLevels exactFitter innerBlocksForLoad fuel segments segments.length firstKeys slots
        heap params = .ok b ∧ ∀ nd ∈ b.inners, Upright nd := by
  induction fuel with
  | zero => intros; omega
  | succ fuel ih =>
    intro segments firstKeys slots heap params hfuel hlen hsorted hsmall hplural hheap
    have hfst : (firstKeys.zip slots).map Prod.fst = firstKeys := List.map_fst_zip hlen.ge
    have hcov := covers_makeSegmentation exactFitter epsilonInnerNode (hsorted.imp fun h => h.le)
    have hlevel := hplural firstKeys (by rw [levelKeys]; exact List.mem_cons_self)
    obtain ⟨r, hr, hacc, hall⟩ := @exists_buildInners
      (makeSegmentation exactFitter epsilonInnerNode firstKeys) (firstKeys.zip slots) 0 heap
      (by rw [hfst]; exact modelled_makeSegmentation (by decide) hsorted)
      (by rw [hfst]; exact hsorted)
      hlevel (by rw [List.length_zip]; omega) hheap
    rw [buildLevels_succ, hr]
    dsimp only
    split
    · next hroot =>
      have hhalf := @length_makeSegmentation_le _ exactFitter epsilonInnerNode firstKeys
      have h8 : rootSize = 8 := rfl
      refine @ih _ _ r.2.1 r.1 _ (by rw [List.length_map]; omega) (by rw [hacc, List.length_map])
        hcov.sorted (by rw [List.length_map]; omega) (fun level hmem => hplural level ?_) hall
      rw [levelKeys, if_pos hroot]
      exact List.mem_cons_of_mem _ hmem
    · exact ⟨_, rfl, hall⟩

/-! ## 索引 -/

namespace PlinIndex

variable {data : List (Key × Payload)}

theorem blockNumber_loadLeaves (hd : LoadData data) (hsmall : data.length < 2 ^ 29) :
    ∀ l ∈ loadLeaves exactFitter data, 3 ≤ l.blockNumber ∧ l.blockNumber < 2 ^ 28 := by
  intro l hl
  obtain ⟨seg, hseg, hbn⟩ := blockNumber_freshLeaves _ _ _ _ _ l hl
  have hle := (covers_makeSegmentation exactFitter epsilonLeafNode
    (hd.strict.imp fun h => h.le)).number_le seg hseg
  rw [List.length_map] at hle
  have hsize : LeafNode.blockNumberFor seg.number < 2 ^ 28 := by
    rw [LeafNode.blockNumberFor]
    omega
  rw [hbn, Nat.mod_eq_of_lt (hsize.trans (by decide))]
  exact ⟨three_le_blockNumberFor _, hsize⟩

/-- 鍵が `2 ^ 29` 個より少なければ、leaf の予測する block は `2 ^ 28` 番目より前にある。 -/
theorem Loaded.predict_lt {s : PlinIndex ℚ} (h : Loaded exactFitter data s) (hd : LoadData data)
    (hsmall : data.length < 2 ^ 29) : ∀ l ∈ s.leaves, ∀ k, l.predict k < 2 ^ 28 := by
  intro l hl k
  obtain ⟨x, hx, rfl⟩ := h.mem_leaves.mp hl
  -- 連鎖をつないでも block の数は変わらない
  obtain ⟨i, hi⟩ := List.mem_iff_getElem?.mp hx
  rw [loadChain, getElem?_linkLeaves] at hi
  obtain ⟨l, hl', rfl⟩ := Option.map_eq_some_iff.mp hi
  obtain ⟨h3, h28⟩ := blockNumber_loadLeaves hd hsmall l (List.mem_of_getElem? hl')
  exact (LeafNode.predictBlock_lt k _ _ h3 (h28.trans (by decide))).trans h28

/--
**丸めの無い `bulk_load` は必ず終わり、`find` は渡した組をそのまま引く。** どの鍵でもよく、渡していない鍵は
見つからない。
-/
theorem bulkLoad_exact (hd : LoadData data) (hne : data ≠ []) (hsmall : data.length < 2 ^ 29)
    (hplural : LoadPlural (data.map Prod.fst)) :
    ∃ s, bulkLoad exactFitter data = .ok s ∧ s.InnersRegular ∧
      ∀ key payload,
        s.find key payload = .ok ((data.lookup key).isSome, (data.lookup key).getD payload) := by
  have hblocks := blockNumber_loadLeaves hd hsmall
  have hhalf := @length_makeSegmentation_le _ exactFitter epsilonLeafNode (data.map Prod.fst)
  rw [List.length_map] at hhalf
  have hcov := covers_makeSegmentation exactFitter epsilonLeafNode (hd.strict.imp fun h => h.le)
  have hlen : ((loadSegments exactFitter data).map (·.firstKey)).length < 2 ^ 29 := by
    rw [List.length_map, loadSegments]
    omega
  obtain ⟨b, hb, hup⟩ := @exists_buildLevels ((loadSegments exactFitter data).length + 1)
    (loadSegments exactFitter data) ((loadSegments exactFitter data).map (·.firstKey))
    ((loadChain exactFitter data).map Link.info) [] [] (by rw [List.length_map]; omega)
    (by rw [List.length_map, List.length_map, loadChain, length_linkLeaves, length_loadLeaves])
    hcov.sorted hlen (by have := hplural.levels; rwa [leafFirstKeys, List.length_map] at this)
    (by simp)
  obtain ⟨s, hs, hinners, -⟩ := exists_bulkLoad hne
    (fun l hl => lt_trans (hblocks l hl).2 (by decide)) hb
  have hload := bulkLoad_loaded hs
  have hr : s.InnersRegular := fun nd hnd => (hup nd (hinners ▸ hnd)).regular _ _
  obtain ⟨t, rest, hsteered⟩ := hload.steered hd hr
  refine ⟨s, hs, hr, fun key payload => ?_⟩
  rw [hload.find_of_addressable hd hsteered (fun l hl k _ => hload.predict_lt hd hsmall l hl k) key
    payload]
  cases data.lookup key <;> rfl

/-! ## leaf が二つの索引 -/

/-- 等間隔の 514 個の鍵の後に、遠く離れた鍵が二つ続く。 -/
def jumpData (last : Key) : List (Key × Payload) :=
  wideData 514 ++ [(Key.ofNat (2 ^ 40), 1), (last, 1)]

section Jump

variable {last : Key}

theorem length_jumpData : (jumpData last).length = 516 := by
  rw [jumpData, List.length_append, length_wideData]
  rfl

theorem map_fst_jumpData : (jumpData last).map Prod.fst =
    (List.range 514).map Key.ofNat ++ [Key.ofNat (2 ^ 40), last] := by
  rw [jumpData, List.map_append, map_fst_wideData]
  rfl

theorem loadData_jumpData (hlast : Key.ofNat (2 ^ 40) < last) (hfree : last < freeFlag) :
    LoadData (jumpData last) where
  strict := by
    have hwide := (loadData_wideData (n := 514) (by norm_num)).strict
    rw [map_fst_wideData] at hwide
    rw [map_fst_jumpData]
    refine List.pairwise_append.mpr ⟨hwide, by simpa using hlast, fun a ha b hb => ?_⟩
    obtain ⟨i, hi, rfl⟩ := List.mem_map.mp ha
    have hi' := List.mem_range.mp hi
    have hfar : Key.ofNat i < Key.ofNat (2 ^ 40) := Key.ofNat_lt (by omega) (by norm_num)
    rcases List.mem_cons.mp hb with rfl | hb
    · exact hfar
    · rw [List.mem_singleton.mp hb]
      exact hfar.trans hlast
  below := by
    intro e he
    rcases List.mem_append.mp he with he | he
    · exact (loadData_wideData (n := 514) (by norm_num)).below e he
    · rcases List.mem_cons.mp he with rfl | he
      · exact hlast.trans hfree
      · rw [List.mem_singleton.mp he]
        exact hfree

theorem toRat_ofNat {n : Nat} (hn : n < 2 ^ 53) : (Key.ofNat n).toRat = n := by
  rw [Key.toRat, Key.toUnits_ofNat hn, Int.cast_mul, Int.cast_natCast, Int.cast_pow, Int.cast_ofNat]
  exact mul_div_cancel_right₀ _ (pow_ne_zero _ two_ne_zero)

theorem mem_zipIdx_ofNat {n : Nat} {e : Sample} (he : e ∈ ((List.range n).map Key.ofNat).zipIdx) :
    e.2 < n ∧ e.1 = Key.ofNat e.2 := by
  have hget := List.mem_zipIdx_iff_getElem?.mp he
  rw [List.getElem?_map] at hget
  obtain ⟨i, hi, hk⟩ := Option.map_eq_some_iff.mp hget
  obtain ⟨hlt, rfl⟩ := List.getElem?_eq_some_iff.mp hi
  rw [List.length_range] at hlt
  rw [List.getElem_range] at hk
  exact ⟨hlt, hk.symm⟩

/-- 遠い鍵は、等間隔の 514 個の鍵と同じ区分に入らない。 -/
theorem not_fitted_far :
    ¬Fitted epsilonLeafNode
      (((List.range 514).map Key.ofNat).zipIdx ++ [(Key.ofNat (2 ^ 40), 514)]) := by
  rintro ⟨f, hf⟩
  have hnear {i : Nat} (hi : i < 514) : |f.slope * i + f.intercept - i| ≤ epsilonLeafNode := by
    have h := hf (Key.ofNat i, i) (List.mem_append_left _ (List.mk_mem_zipIdx_iff_getElem?.mpr (by
      rw [List.getElem?_map, List.getElem?_range hi]
      rfl)))
    rwa [Line.eval, toRat_ofNat (by omega)] at h
  obtain ⟨h0, -⟩ := abs_le.mp (hnear (i := 0) (by omega))
  obtain ⟨h513, -⟩ := abs_le.mp (hnear (i := 513) (by omega))
  obtain ⟨-, h0'⟩ := abs_le.mp (hnear (i := 0) (by omega))
  have hfar := hf (Key.ofNat (2 ^ 40), 514) (by simp)
  rw [Line.eval, toRat_ofNat (by norm_num)] at hfar
  obtain ⟨-, hfar⟩ := abs_le.mp hfar
  norm_num [epsilonLeafNode] at h0 h513 h0' hfar
  linarith

/-- 区分は、等間隔の鍵と遠い鍵の二つになる。 -/
theorem segments_jump (hlast : Key.ofNat (2 ^ 40) < last) (hfree : last < freeFlag) :
    ∃ s t : Segment ℚ,
      makeSegmentation exactFitter epsilonLeafNode ((jumpData last).map Prod.fst) = [s, t] ∧
        s.number = 514 ∧ t.number = 2 ∧ s.firstKey = Key.ofNat 0 ∧
        t.firstKey = Key.ofNat (2 ^ 40) := by
  obtain ⟨runs, hg, hd⟩ := @exists_greedy epsilonLeafNode (by decide) _
    (loadData_jumpData hlast hfree).strict
  have hzip : ((jumpData last).map Prod.fst).zipIdx = ((List.range 514).map Key.ofNat).zipIdx ++
      (Key.ofNat (2 ^ 40), 514) :: [(last, 515)] := by
    rw [map_fst_jumpData, List.zipIdx_append, List.length_map, List.length_range]
    rfl
  rw [hzip] at hg
  have heven : Fitted epsilonLeafNode ((List.range 514).map Key.ofNat).zipIdx := by
    refine ⟨⟨1, 0⟩, fun e he => ?_⟩
    obtain ⟨hlt, hk⟩ := mem_zipIdx_ofNat he
    rw [Line.eval, hk, toRat_ofNat (by omega), one_mul, add_zero, sub_self, abs_zero]
    exact Nat.cast_nonneg _
  have hfar : Fitted epsilonLeafNode [(Key.ofNat (2 ^ 40), 514), (last, 515)] := by
    refine ⟨⟨0, 514⟩, fun e he => ?_⟩
    rcases List.mem_cons.mp he with rfl | he
    · norm_num [Line.eval, epsilonLeafNode]
    · rw [List.mem_singleton.mp he]
      norm_num [Line.eval, epsilonLeafNode]
  obtain ⟨rs, rfl, hg'⟩ := hg.eq_cons Fitted.of_infix heven not_fitted_far
  obtain rfl := hg'.eq_of_ok Fitted.of_infix hfar (by simp)
  have hlen : ((List.range 514).map Key.ofNat).zipIdx.length = 514 := by
    rw [List.length_zipIdx, List.length_map, List.length_range]
  have hhead : ((List.range 514).map Key.ofNat).zipIdx.head?.map Prod.fst = some (Key.ofNat 0) := by
    rw [List.range_succ_eq_map]
    rfl
  generalize ((List.range 514).map Key.ofNat).zipIdx = even at hd hlen hhead
  obtain ⟨s, segs, hs, hd, hsegs⟩ := List.forall₂_cons_right_iff.mp hd
  obtain ⟨t, segs', ht, hrest, rfl⟩ := List.forall₂_cons_right_iff.mp hd
  obtain rfl := List.forall₂_nil_right_iff.mp hrest
  refine ⟨s, t, hsegs, hs.number.trans hlen, ht.number, ?_, (Option.some.inj ht.first).symm⟩
  exact (Option.some.inj (hhead.symm.trans hs.first)).symm

theorem loadPlural_jumpData (hlast : Key.ofNat (2 ^ 40) < last) (hfree : last < freeFlag) :
    LoadPlural ((jumpData last).map Prod.fst) := by
  obtain ⟨s, t, hsegs, hs, ht, hsk, htk⟩ := segments_jump hlast hfree
  refine ⟨fun seg hseg => ?_, ?_⟩
  · rw [hsegs] at hseg
    rcases List.mem_cons.mp hseg with rfl | hseg
    · omega
    · rw [List.mem_singleton.mp hseg]
      omega
  · rw [leafFirstKeys, hsegs]
    simp only [List.map_cons, List.map_nil, hsk, htk]
    unfold Plural
    decide +kernel

end Jump

/-- leaf が二つになる 516 個の鍵を引く。 -/
theorem bulkLoad_exact_jump :
    ∃ s, bulkLoad exactFitter (jumpData (Key.ofNat (2 ^ 40 + 1))) = .ok s ∧ s.InnersRegular ∧
      ∀ key payload, s.find key payload =
        .ok (((jumpData (Key.ofNat (2 ^ 40 + 1))).lookup key).isSome,
          ((jumpData (Key.ofNat (2 ^ 40 + 1))).lookup key).getD payload) := by
  have hlast : Key.ofNat (2 ^ 40) < Key.ofNat (2 ^ 40 + 1) := by decide +kernel
  have hfree : Key.ofNat (2 ^ 40 + 1) < freeFlag := by decide +kernel
  have hlen := @length_jumpData (Key.ofNat (2 ^ 40 + 1))
  refine @bulkLoad_exact _ (loadData_jumpData hlast hfree) ?_ ?_ (loadPlural_jumpData hlast hfree)
  · rw [← List.length_pos_iff, hlen]
    omega
  · rw [hlen]
    omega

end PlinIndex

end Plin
