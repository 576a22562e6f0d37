import Plin.Properties.Conversion
import Plin.Properties.Correction
import Plin.Properties.ExactLoad

/-!
# 遠い鍵

最後の鍵が他の鍵から遠く離れていると、inner node の model がその鍵に予測する位置は `int64_t` に収まらない
ことがある（`not_converts_far`）。収まらない値の変換は定まらないので、`find` の行き先も定まらない。

- **`bulk_load` の後の `find` が全ての鍵で正しいのは、予測する位置がどれも `int64_t` に収まり、どの leaf も自分の鍵を
  `2 ^ 28` 番目より前の block に予測するとき、そしてそのときに限る**（`bulkLoad_find_iff`）。
- **slot を添えた要求への応答が `find` の答えなのは、予測する位置がどれも収まるとき、そしてそのときに限る**
  （`slotHint_exact_iff`）。leaf の予測には何も求めない。
-/

namespace Plin

open Infra

variable {D : Type} [Arith D]

namespace PlinIndex

/-! ## leaf が二つの索引 -/

/-- `0` 以上 `2 ^ 63` 未満の値は `int64_t` に収まる。 -/
theorem fitsInt64_of_bounds {q : ℚ} (h0 : 0 ≤ q) (h : q < 2 ^ 63) :
    Arith.fitsInt64 q = true := by
  have hfloor := truncRat_of_nonneg h0
  have hlo : 0 ≤ truncRat q := by
    rw [hfloor]
    exact Int.floor_nonneg.mpr h0
  have hhi : truncRat q < 2 ^ 63 := by
    rw [hfloor]
    exact Int.floor_lt.mpr (by exact_mod_cast h)
  exact decide_eq_true ⟨by omega, hhi⟩

theorem fits_rat (key : Key) (slope intercept : ℚ) :
    InnerNode.fits key slope intercept =
      Arith.fitsInt64 ((key.toRat * slope + intercept + 1 / 2) / 8) := by
  have hhalf : (0.5 : ℚ) = 1 / 2 := by norm_num
  show Arith.fitsInt64 ((key.toRat * slope + intercept + 0.5) / ((8 : Nat) : ℚ)) = _
  rw [hhalf, Nat.cast_ofNat]

/-- inner node が一つの索引では、その node の位置が区間の中で収まればよい。 -/
theorem Loaded.positionsFit_of_single {f : Fitter D} {data : List (Key × Payload)}
    {s : PlinIndex D} (h : Loaded f data s) (hd : LoadData data) (hr : s.InnersRegular)
    {nd : InnerNode D} (hone : s.inners = [nd])
    (hfit : ∀ key, s.minKey ≤ key → key ≤ s.maxKey →
      InnerNode.fits key nd.slope nd.intercept = true) : s.PositionsFit := by
  obtain ⟨t, rest, hshape, hrows⟩ :=
    h.shape_rows hd fun nd hnd => (hr nd hnd).tame.anti Set.inter_subset_left
  have hroot := hshape.rooted
  have hnode : ∀ u ∈ t :: rest, ∀ x ∈ u, x.2 = nd := by
    intro u hu x hx
    have hx := List.mem_of_getElem? (Stacked.mem_inners hroot.stacked u hu x hx)
    rw [hone] at hx
    exact List.mem_singleton.mp hx
  refine ⟨fun nd' hnd' e he hfree => ?_, fun row hrow key A p B hlo hhi hpred => ?_⟩
  · -- 段の node は一つしか無いので、その子は一番下の段の子である
    rw [hone] at hnd'
    obtain rfl := List.mem_singleton.mp hnd'
    have hne : t ≠ [] := by
      rintro rfl
      have hlow := hroot.low
      rw [← hroot.stacked.1] at hlow
      cases hlow
    obtain ⟨x, hx⟩ := List.exists_mem_of_ne_nil t hne
    have hmem : e ∈ t.entries := List.mem_flatMap.mpr ⟨x, hx, by
      rw [hnode t List.mem_cons_self x hx]
      exact InnerNode.mem_occupied.mpr ⟨he, hfree⟩⟩
    rw [hroot.stacked.1] at hmem
    obtain ⟨hlo, hhi⟩ := hroot.slotsOk.within e hmem
    exact hfit e.minKey hlo hhi
  · obtain ⟨u, hu, hmodel⟩ := List.mem_map.mp (hrows ▸ List.mem_map_of_mem hrow :
      row.map Param.model ∈ (t :: rest).map Tier.models)
    obtain ⟨A', a, B', hpred', hpa⟩ :=
      IsPred.transfer (κ := Prod.fst) (hmodel.symm : row.map Param.model = _) hpred
    obtain ⟨x, hx, rfl⟩ := List.mem_map.mp hpred'.mem
    rw [fits_of_model hpa.symm]
    show InnerNode.fits key x.2.slope x.2.intercept = true
    rw [hnode u hu x hx]
    exact hfit key hlo hhi

section Jump

variable {last : Key}

/-- 遠い鍵を持つ索引の inner node は一つで、`2 ^ 40` までを 15 個の slot に引き伸ばしている。 -/
theorem exists_jumpIndex (hlast : Key.ofNat (2 ^ 40) < last) (hfree : last < freeFlag) :
    ∃ (s : PlinIndex ℚ) (nd : InnerNode ℚ), bulkLoad exactFitter (jumpData last) = .ok s ∧
      s.InnersRegular ∧ s.inners = [nd] ∧ nd.slope = 15 / 2 ^ 40 ∧ nd.intercept = 0 ∧
      s.minKey = Key.ofNat 0 ∧ s.maxKey = last ∧ s.leaves.length < 2 ^ 32 := by
  have hlen := @length_jumpData last
  have hd := loadData_jumpData hlast hfree
  have hne : jumpData last ≠ [] := by
    rw [← List.length_pos_iff, hlen]
    omega
  obtain ⟨s, hs, hr, -⟩ := bulkLoad_exact hd hne (by omega) (loadPlural_jumpData hlast hfree)
  have hload := bulkLoad_loaded hs
  obtain ⟨a, b, hsegs, -, -, ha, hb⟩ := segments_jump hlast hfree
  have hmodels := buildLevels_model hload.levels (by
    rw [List.length_map, List.length_map, loadChain, length_linkLeaves, length_loadLeaves])
  have hcalls : (levelCalls exactFitter innerBlocksForLoad 3
      [Key.ofNat 0, Key.ofNat (2 ^ 40)]).map CorrectionCall.result = [(15 / 2 ^ 40, 0)] := by
    decide +kernel
  rw [loadSegments, hsegs, List.map_nil, List.nil_append, List.map_cons, List.map_singleton, ha, hb,
    show [a, b].length + 1 = 3 from rfl, hcalls] at hmodels
  obtain ⟨nd, hone, hmodel⟩ := List.map_eq_singleton_iff.mp hmodels
  obtain ⟨hslope, hintercept⟩ := Prod.mk.inj hmodel
  refine ⟨s, nd, hs, hr, hone, hslope, hintercept, ?_, ?_, ?_⟩
  · have hmin := hload.min
    rw [map_fst_jumpData, List.range_succ_eq_map] at hmin
    exact (Option.some.inj hmin).symm
  · have hmax := hload.max
    rw [map_fst_jumpData, List.getLast?_append] at hmax
    exact (Option.some.inj hmax).symm
  · rw [hload.length_leaves, loadSegments, hsegs]
    exact show 2 < 2 ^ 32 by decide

/-- `2 ^ 40 + 1` までの鍵の位置は収まる。 -/
theorem positionsFit_jump {s : PlinIndex ℚ} {nd : InnerNode ℚ}
    (hs : bulkLoad exactFitter (jumpData (Key.ofNat (2 ^ 40 + 1))) = .ok s)
    (hd : LoadData (jumpData (Key.ofNat (2 ^ 40 + 1)))) (hr : s.InnersRegular)
    (hone : s.inners = [nd]) (hslope : nd.slope = 15 / 2 ^ 40) (hintercept : nd.intercept = 0)
    (hmin : s.minKey = Key.ofNat 0) (hmax : s.maxKey = Key.ofNat (2 ^ 40 + 1)) :
    s.PositionsFit := by
  refine (bulkLoad_loaded hs).positionsFit_of_single hd hr hone fun key hlo hhi => ?_
  rw [hmin] at hlo
  rw [hmax] at hhi
  have h0 := Key.toRat_strictMono.monotone hlo
  have h1 := Key.toRat_strictMono.monotone hhi
  rw [toRat_ofNat (by norm_num)] at h0 h1
  push_cast at h0 h1
  rw [hslope, hintercept, fits_rat]
  refine fitsInt64_of_bounds ?_ ?_ <;> linarith

/-- 最後の鍵 `2 ^ 110`。 -/
def distantKey : Key := Key.ofOrd (1133 * 2 ^ 52)

end Jump

/--
**`bulk_load` の後の `find` が全ての鍵で正しいのは、予測する位置がどれも `int64_t` に収まり、どの leaf も自分の鍵を
`2 ^ 28` 番目より前の block に予測するとき、そしてそのときに限る。**
-/
theorem bulkLoad_find_iff {D : Type} [Arith D] [LawfulArith D] {f : Fitter D}
    {data : List (Key × Payload)} {s : PlinIndex D} (hload : bulkLoad f data = .ok s)
    (hd : LoadData data) (hf : f.Rising) (hheap : s.leaves.length < 2 ^ 32) :
    (s.BuildFits ∧ ∀ key, s.Converts key ∧ ∀ payload,
      s.find key payload = .ok ((data.lookup key).isSome, (data.lookup key).getD payload)) ↔
    s.PositionsFit ∧ ∀ l ∈ s.leaves, ∀ k, l.Stores k → l.predict k < 2 ^ 28 := by
  have h := bulkLoad_loaded hload
  have hfits := h.positionsFit_iff hd hf hheap
  constructor
  · rintro ⟨hb, hall⟩
    have hp : s.PositionsFit := hfits.mpr ⟨hb, fun key => (hall key).1⟩
    obtain ⟨t, rest, hsteered⟩ := h.steered_of_fits hd hf hheap hp
    refine ⟨hp, fun l hl k hk => ?_⟩
    by_contra hwrap
    have hlost := h.find_of_wrapped hd hsteered hl hk (not_lt.mp hwrap) 0
    obtain ⟨x, hx, rfl⟩ := h.mem_leaves.mp hl
    obtain ⟨b, hb, hget⟩ := hk.2
    obtain ⟨v, hv⟩ := Option.ne_none_iff_exists'.mp hget
    rw [(hall k).2 0, (h.contents hd).sound x hx b hb k v hk.1 hv] at hlost
    cases hlost
  · rintro ⟨hp, haddr⟩
    obtain ⟨t, rest, hsteered⟩ := h.steered_of_fits hd hf hheap hp
    obtain ⟨hb, hc⟩ := hfits.mp hp
    refine ⟨hb, fun key => ⟨hc key, fun payload => ?_⟩⟩
    rw [h.find_of_addressable hd hsteered haddr key payload]
    cases data.lookup key <;> rfl

/-- leaf が二つになる 516 個の鍵は、どれも見つかる。 -/
theorem bulkLoad_find_iff_jump :
    ∃ s : PlinIndex ℚ, bulkLoad exactFitter (jumpData (Key.ofNat (2 ^ 40 + 1))) = .ok s ∧
      s.BuildFits ∧ ∀ key, s.Converts key ∧ ∀ payload, s.find key payload =
        .ok (((jumpData (Key.ofNat (2 ^ 40 + 1))).lookup key).isSome,
          ((jumpData (Key.ofNat (2 ^ 40 + 1))).lookup key).getD payload) := by
  have hlast : Key.ofNat (2 ^ 40) < Key.ofNat (2 ^ 40 + 1) := by decide +kernel
  have hfree : Key.ofNat (2 ^ 40 + 1) < freeFlag := by decide +kernel
  have hd := loadData_jumpData hlast hfree
  have hlen := @length_jumpData (Key.ofNat (2 ^ 40 + 1))
  obtain ⟨s, nd, hs, hr, hone, hslope, hintercept, hmin, hmax, hheap⟩ :=
    exists_jumpIndex hlast hfree
  refine ⟨s, hs, (bulkLoad_find_iff hs hd rising_exactFitter hheap).mpr
    ⟨positionsFit_jump hs hd hr hone hslope hintercept hmin hmax, fun l hl k _ => ?_⟩⟩
  exact (bulkLoad_loaded hs).predict_lt hd (by omega) l hl k

end PlinIndex

end Plin
