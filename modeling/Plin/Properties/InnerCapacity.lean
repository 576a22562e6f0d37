import Plin.Properties.InnerNode
import Plin.Properties.ModelCorrection
import Plin.Index.PlinIndex

/-!
# inner node の構築で子はあふれない

`data_placement` は予測した block から後ろの最初の空き slot に子を置く。予測が末尾に寄ると後ろの slot が
足りなくなりうるが、**model の誤差が `EPSILON_INNER_NODE` 以内なら必ず空きが見つかる**
（`innerNode_places_all`）。

子を一つ置くごとに、埋まった範囲は「予測した slot の次」か「一つ先」までしか伸びない。そこで、どの子についても
予測した slot と残りの子の数の和が slot の数を超えないことを示せばよい（`placeAll_isSome`）。末尾の 15 個は
切り詰めた予測の後ろの 16 slot に収まり、それより前の子は誤差の分だけ左に予測される。
-/

namespace Plin

namespace InnerNode

/-! ## 置く loop -/

section Loop

variable {D : Type} [Arith D]

/-- 埋まった slot が `filled` より左にしか無ければ、`filled` か予測した slot までに空きがある。 -/
theorem dataPlacement_filled {nd : InnerNode D} {filled : Nat} (key : Key) (node : InnerSlot D)
    (hfilled : ∀ i, OccupiedAt nd.slots i → i < filled)
    (hlen : nd.blockNumber * innerSlotsPerBlock ≤ nd.slots.length)
    (hroom : max filled (nd.startSlot key) < nd.blockNumber * innerSlotsPerBlock) :
    ∃ nd', nd.dataPlacement key node = some nd' ∧ nd' = { nd with slots := nd'.slots } ∧
      nd'.slots.length = nd.slots.length ∧
      ∀ i, OccupiedAt nd'.slots i → i < max filled (nd.startSlot key) + 1 := by
  have hinside : max filled (nd.startSlot key) < nd.slots.length := by omega
  have hfree : (nd.slots[max filled (nd.startSlot key)]).isFree = true := by
    by_contra h
    have := hfilled _ ⟨_, List.getElem?_eq_getElem hinside, Bool.eq_false_iff.mpr h⟩
    omega
  rw [dataPlacement_eq_map]
  have hlt : max filled (nd.startSlot key) - nd.startSlot key <
      ((nd.slots.take (max (nd.startSlot key + innerSlotsPerBlock)
        (nd.blockNumber * innerSlotsPerBlock))).drop (nd.startSlot key)).length := by
    rw [List.length_drop, List.length_take]
    omega
  have hget : (((nd.slots.take (max (nd.startSlot key + innerSlotsPerBlock)
      (nd.blockNumber * innerSlotsPerBlock))).drop (nd.startSlot key)).get ⟨_, hlt⟩).isFree =
        true := by
    have hidx : nd.startSlot key + (max filled (nd.startSlot key) - nd.startSlot key) =
        max filled (nd.startSlot key) := by omega
    simpa [hidx] using hfree
  -- `max filled start` は空いているので、それより右は探さない
  cases hfind : ((nd.slots.take (max (nd.startSlot key + innerSlotsPerBlock)
      (nd.blockNumber * innerSlotsPerBlock))).drop (nd.startSlot key)).findIdx?
        InnerSlot.isFree with
  | none =>
    have := List.findIdx?_eq_none_iff.mp hfind _ (List.get_mem _ ⟨_, hlt⟩)
    rw [hget] at this
    cases this
  | some i =>
    obtain ⟨hi', -, hbefore⟩ := List.findIdx?_eq_some_iff_getElem.mp hfind
    have hle : i ≤ max filled (nd.startSlot key) - nd.startSlot key := by
      by_contra h
      exact hbefore _ (by omega) hget
    refine ⟨_, rfl, rfl, List.length_set, fun j hj => ?_⟩
    by_cases hji : j = nd.startSlot key + i
    · omega
    · obtain ⟨s, hs, hfree'⟩ := hj
      rw [List.getElem?_set_ne (Ne.symm hji)] at hs
      have := hfilled j ⟨s, hs, hfree'⟩
      omega

/-- **どの子の予測も残りの子の数だけ右端から離れていれば、すべての子を置ける。** -/
theorem placeAll_isSome {data : List (Key × InnerSlot D)} :
    ∀ {nd : InnerNode D} {filled : Nat}, (∀ i, OccupiedAt nd.slots i → i < filled) →
      nd.blockNumber * innerSlotsPerBlock ≤ nd.slots.length →
      filled + data.length ≤ nd.blockNumber * innerSlotsPerBlock →
      (∀ pre e post, data = pre ++ e :: post →
        nd.startSlot e.1 + (post.length + 1) ≤ nd.blockNumber * innerSlotsPerBlock) →
      (nd.placeAll data).isSome = true := by
  induction data with
  | nil =>
    intro nd filled _ _ _ _
    rfl
  | cons e data ih =>
    intro nd filled hfilled hlen hrest hslots
    have hhead := hslots [] e data rfl
    rw [List.length_cons] at hrest
    obtain ⟨nd', hplace, hsame, hlen', hfilled'⟩ :=
      dataPlacement_filled e.1 e.2 hfilled hlen (by omega)
    have hbn : nd'.blockNumber = nd.blockNumber := by rw [hsame]
    have hstart (k : Key) : nd'.startSlot k = nd.startSlot k := by
      rw [hsame]
      rfl
    rw [placeAll, hplace, Option.bind_some]
    refine ih hfilled' (by rw [hbn, hlen']; exact hlen) (by rw [hbn]; omega) ?_
    intro pre e' post hcut
    rw [hstart, hbn]
    exact hslots (e :: pre) e' post (by rw [hcut, List.cons_append])

/-- どの子の予測も、残りの子の数だけ右端から離れている。 -/
def roomy (nd : InnerNode D) : List Key → Bool
  | [] => true
  | k :: keys =>
    decide (nd.startSlot k + (keys.length + 1) ≤ nd.blockNumber * innerSlotsPerBlock) &&
      nd.roomy keys

theorem roomy_append {nd : InnerNode D} {keys : List Key} {k : Key} :
    ∀ {pre : List Key}, nd.roomy (pre ++ k :: keys) = true →
      nd.startSlot k + (keys.length + 1) ≤ nd.blockNumber * innerSlotsPerBlock
  | [], h => by
    rw [List.nil_append, roomy, Bool.and_eq_true] at h
    exact of_decide_eq_true h.1
  | _ :: pre, h => by
    rw [List.cons_append, roomy, Bool.and_eq_true] at h
    exact roomy_append h.2

/-- 構築の前半で定めた model に余裕があれば、構築子は終わり、model はそのまま残る。 -/
theorem exists_new_of_roomy {bn startPos : Nat} {data : List (Key × InnerSlot D)}
    {slope intercept : D} (hbn : bn < 2 ^ 29) (hlen : data.length ≤ bn * innerSlotsPerBlock)
    (hroom : (initial bn (data.map Prod.fst) startPos slope intercept).roomy
      (data.map Prod.fst) = true) :
    ∃ nd, new bn data startPos slope intercept = some nd ∧ nd.blockNumber = bn ∧
      nd.slope = (initial bn (data.map Prod.fst) startPos slope intercept).slope ∧
      nd.firstKey = (data.map Prod.fst).headD freeFlag := by
  have hheader : (initial bn (data.map Prod.fst) startPos slope intercept).blockNumber = bn :=
    Nat.mod_eq_of_lt (by omega)
  have hplace : ((initial bn (data.map Prod.fst) startPos slope intercept).placeAll
      data).isSome = true := by
    refine @placeAll_isSome D _ data _ 0 ?_ ?_ ?_ ?_
    · rintro i ⟨u, hu, hfree⟩
      have hmem : u ∈ List.replicate (8 * bn) InnerSlot.free := List.mem_of_getElem? hu
      rw [List.eq_of_mem_replicate hmem] at hfree
      exact absurd hfree (by simp [InnerSlot.isFree, InnerSlot.free])
    · rw [hheader, innerSlotsPerBlock, Nat.mul_comm]
      exact (List.length_replicate ..).ge
    · rw [hheader, zero_add]
      exact hlen
    · intro pre e post hcut
      rw [hcut, List.map_append, List.map_cons] at hroom
      have := roomy_append hroom
      rw [List.length_map] at this
      rw [hcut, List.map_append, List.map_cons]
      exact this
  obtain ⟨nd, hnd⟩ := Option.isSome_iff_exists.mp hplace
  have hhead := (placeAll_header hnd).1
  have hblock : nd.blockNumber = bn := by rw [hhead, hheader]
  refine ⟨nd, ?_, hblock, by rw [hhead], by rw [hhead]; rfl⟩
  rw [new, hnd, Option.bind_some, if_pos (by omega)]

end Loop

/-! ## 予測した slot -/

/-- 傾きが負でなければ、予測は単調である。 -/
theorem predictBlock_mono {slope intercept : ℚ} (hslope : 0 ≤ slope) {bn : Nat} (h4 : 4 ≤ bn)
    (h32 : bn < 2 ^ 32) {a b : Key} (hab : a ≤ b) :
    predictBlock a slope intercept bn ≤ predictBlock b slope intercept bn := by
  have hpos : position a slope intercept / (innerSlotsPerBlock : Nat) ≤
      position b slope intercept / ((innerSlotsPerBlock : Nat) : ℚ) := by
    have hkey := mul_le_mul_of_nonneg_right (Key.toRat_strictMono.monotone hab) hslope
    refine div_le_div_of_nonneg_right ?_ (Nat.cast_nonneg _)
    show a.toRat * slope + intercept + 0.5 ≤ b.toRat * slope + intercept + 0.5
    linarith
  exact predictBlock_le h4 h32 (truncRat_mono hpos)

/-- 傾きが負でなく block が四つ以上あれば、探索の予測器の条件を満たす。 -/
theorem regular_of_slope {nd : InnerNode ℚ} (hslope : 0 ≤ nd.slope) (h4 : 4 ≤ nd.blockNumber)
    (h32 : nd.blockNumber < 2 ^ 32) (lo hi : Key) : nd.Regular lo hi where
  mono := fun _ _ _ hab _ => predictBlock_mono hslope h4 h32 hab
  inside := fun k _ _ => predictBlock_lt k _ _ h4 h32

/-- 予測した slot の上限。位置より一つ分の block だけ右にずれ、末尾の二つの block の前で切り詰められる。 -/
structure SlotBounds (bn slot : Nat) (pos : ℚ) : Prop where
  clamped : slot + 2 * innerSlotsPerBlock ≤ bn * innerSlotsPerBlock
  shifted : slot ≤ innerSlotsPerBlock ∨ (slot : ℚ) ≤ pos + 17 / 2
  inner : pos + 1 ≤ ((bn - 3) * innerSlotsPerBlock : Nat) → slot ≤ (bn - 3) * innerSlotsPerBlock

theorem predictSlot_bounds (key : Key) (slope intercept : ℚ) {bn : Nat} (h4 : 4 ≤ bn)
    (h32 : bn < 2 ^ 32) :
    SlotBounds bn (predictSlot key slope intercept bn) (line (slope, intercept) key) := by
  have hx : position key slope intercept / ((innerSlotsPerBlock : Nat) : ℚ) =
      (line (slope, intercept) key + 1 / 2) / 8 := by
    unfold position line innerSlotsPerBlock
    show (key.toRat * slope + intercept + 0.5) / ((8 : Nat) : ℚ) = _
    norm_num
  -- block の大きさで割った位置 `x` の符号と大きさで場合を分ける
  obtain ⟨x, hxdef⟩ : ∃ x, x = (line (slope, intercept) key + 1 / 2) / 8 := ⟨_, rfl⟩
  have hpos : line (slope, intercept) key = 8 * x - 1 / 2 := by
    rw [hxdef]
    ring
  have hpredict : predictSlot key slope intercept bn =
      (if truncRat x < 0 then 0 else if ((bn - 4 : Nat) : Int) < truncRat x then bn - 2
        else (truncRat x + 1).toNat % 2 ^ 32) * 8 := by
    unfold predictSlot predictBlock
    rw [show Arith.toInt64 (position key slope intercept / Arith.ofNat innerSlotsPerBlock) =
      truncRat (position key slope intercept / ((innerSlotsPerBlock : Nat) : ℚ)) from rfl, hx,
      ← hxdef, sub32_eq h4 h32, sub32_eq (by omega) h32]
    rfl
  rw [hpredict, hpos]
  by_cases hneg : x < 0
  · -- 0 の方向に切り捨てるので、予測は先頭の二つの block のどちらかである
    have htrunc : truncRat x ≤ 0 := truncRat_nonpos hneg.le
    have hslot : (if truncRat x < 0 then 0 else if ((bn - 4 : Nat) : Int) < truncRat x then bn - 2
        else (truncRat x + 1).toNat % 2 ^ 32) ≤ 1 := by
      split_ifs <;> omega
    refine ⟨?_, Or.inl ?_, fun _ => ?_⟩ <;> simp only [innerSlotsPerBlock] <;> omega
  · have hfloor := truncRat_of_nonneg (not_lt.mp hneg)
    have hnonneg : 0 ≤ truncRat x := by
      rw [hfloor]
      exact Int.floor_nonneg.mpr (not_lt.mp hneg)
    have hle : (truncRat x : ℚ) ≤ x := by
      rw [hfloor]
      exact Int.floor_le x
    rw [if_neg (by omega)]
    obtain ⟨q, hq⟩ := Int.eq_ofNat_of_zero_le hnonneg
    rw [hq] at hle ⊢
    have hle' : (q : ℚ) ≤ x := by exact_mod_cast hle
    by_cases hclamp : ((bn - 4 : Nat) : Int) < q
    · -- 切り詰められるのは、位置が `size` に届いたときだけである
      have hbn : ((bn - 3 : Nat) : ℚ) ≤ q := by exact_mod_cast (show bn - 3 ≤ q by omega)
      have hcast : (((bn - 2) * 8 : Nat) : ℚ) = ((bn - 3 : Nat) : ℚ) * 8 + 8 := by
        rw [show bn - 2 = bn - 3 + 1 by omega]
        push_cast
        ring
      rw [if_pos hclamp]
      refine ⟨by simp only [innerSlotsPerBlock]; omega, Or.inr ?_, fun hlt => ?_⟩
      · rw [hcast]
        linarith
      · rw [innerSlotsPerBlock] at hlt
        push_cast at hlt
        linarith
    · have hmod : ((q : Int) + 1).toNat % 2 ^ 32 = q + 1 := by omega
      rw [if_neg hclamp, hmod]
      refine ⟨by simp only [innerSlotsPerBlock]; omega, Or.inr ?_, fun _ => ?_⟩
      · push_cast
        linarith
      · rw [innerSlotsPerBlock]
        omega

/-! ## 構築 -/

/-- 区分の model は、どの鍵でも元の番号から `EPSILON_INNER_NODE` 以内の値を返す。 -/
def Fits (keys : List Key) (startPos : Nat) (slope intercept : ℚ) : Prop :=
  ∀ (i : Nat) (k : Key), keys[i]? = some k →
    |slope * (k.toRat - (keys.headD freeFlag).toRat) + intercept - (startPos + i)| ≤
      epsilonInnerNode

section Capacity

variable {n bn j d slot size : Nat} {pos old last : ℚ}

/-- block の数は、子の数の五倍の slot と余りの三つの block に足りる。 -/
theorem slots_enough (hbn : bn = innerBlocksForLoad n ∨ bn = innerBlocksForRebuild n) :
    5 * n + 17 ≤ bn * innerSlotsPerBlock := by
  simp only [innerBlocksForLoad, innerBlocksForRebuild, epsilonInnerNode, innerSlotsPerBlock]
    at hbn ⊢
  omega

/--
**予測した slot の右には、残りの子の数だけの slot がある。** `j` は子の番号、`d` はその後の子の数、`old` と
`last` は引き伸ばす前の位置である。
-/
theorem slot_room (hn : n = j + 1 + d) (hslots : 5 * n + 17 ≤ bn * innerSlotsPerBlock)
    (hs : SlotBounds bn slot pos) (hold : |old - 5 * j| ≤ 40) (hlast : |last - 5 * (n - 1)| ≤ 40)
    (hpos : pos ≤ old + 1 ∨ pos ≤ ((bn - 3) * innerSlotsPerBlock : Nat) - 1 ∧
      pos ≤ ((bn - 3) * innerSlotsPerBlock : Nat) - 1 - (last - old)) :
    slot + (d + 1) ≤ bn * innerSlotsPerBlock := by
  have hclamped := hs.clamped
  simp only [innerSlotsPerBlock] at *
  by_cases hd : d ≤ 15
  · omega
  · rcases hs.shifted with hsmall | hshift
    · simp only [innerSlotsPerBlock] at hsmall
      omega
    · obtain ⟨-, hold⟩ := abs_le.mp hold
      obtain ⟨hlast, -⟩ := abs_le.mp hlast
      have hnq : (n : ℚ) = j + 1 + d := by exact_mod_cast hn
      rcases hpos with hpos | ⟨hedge, hpos⟩
      · have hbound : (slot : ℚ) + 5 * d ≤ 5 * n + 89 / 2 := by linarith
        have : 2 * slot + 10 * d ≤ 10 * n + 89 := by exact_mod_cast (by linarith :
          (2 * slot + 10 * d : ℚ) ≤ 10 * n + 89)
        omega
      · have hinner := hs.inner (by simp only [innerSlotsPerBlock]; linarith)
        simp only [innerSlotsPerBlock] at hinner
        by_cases hd' : d ≤ 23
        · omega
        · have hbound : (slot : ℚ) + 5 * d ≤ ((bn - 3) * 8 : Nat) + 175 / 2 := by linarith
          have : 2 * slot + 10 * d ≤ 2 * ((bn - 3) * 8) + 175 := by exact_mod_cast (by linarith :
            (2 * slot + 10 * d : ℚ) ≤ 2 * ((bn - 3) * 8 : Nat) + 175)
          omega

end Capacity

section Build

variable {keys : List Key} {startPos bn : Nat} {slope intercept : ℚ}

/-- 引き伸ばす前の model。一つの子に五つの slot を割り当てる。 -/
def looseModel (keys : List Key) (startPos : Nat) (slope intercept : ℚ) : ℚ × ℚ :=
  (slope / 0.2, (intercept - startPos - (keys.headD freeFlag).toRat * slope) / 0.2)

theorem Fits.looseModel_near (h : Fits keys startPos slope intercept) {i : Nat} {k : Key}
    (hk : keys[i]? = some k) :
    |line (looseModel keys startPos slope intercept) k - 5 * i| ≤ 40 := by
  have hfit := h i k hk
  have hline : line (looseModel keys startPos slope intercept) k - 5 * i =
      5 * (slope * (k.toRat - (keys.headD freeFlag).toRat) + intercept - (startPos + i)) := by
    unfold line looseModel
    norm_num
    ring
  rw [hline, abs_mul]
  norm_num [epsilonInnerNode] at hfit ⊢
  linarith

/-- 構築の前半は `model_correction` の四つの場合に分かれる。 -/
theorem initial_corrected (h4 : 4 ≤ bn) (h32 : bn < 2 ^ 32) :
    Corrected (looseModel keys startPos slope intercept).1
      (looseModel keys startPos slope intercept).2 ((bn - 3) * innerSlotsPerBlock)
      (keys.headD freeFlag) (keys.getLastD freeFlag)
      ((initial bn keys startPos slope intercept).slope,
        (initial bn keys startPos slope intercept).intercept) := by
  have hmodel : ((initial bn keys startPos slope intercept).slope,
      (initial bn keys startPos slope intercept).intercept) =
        modelCorrection (looseModel keys startPos slope intercept).1
          (looseModel keys startPos slope intercept).2
          (sub32 (bn % 2 ^ 32) 3 * innerSlotsPerBlock) (keys.headD freeFlag)
          (keys.getLastD freeFlag) := rfl
  rw [Nat.mod_eq_of_lt h32, sub32_eq (by omega) h32] at hmodel
  rw [hmodel]
  refine modelCorrection_cases ?_ ?_ <;> rw [innerSlotsPerBlock] <;> omega

theorem getElem?_getLastD {l : List Key} (h : l ≠ []) (d : Key) :
    l[l.length - 1]? = some (l.getLastD d) := by
  rw [← List.getLast?_eq_getElem?, List.getLastD_eq_getLast?]
  obtain ⟨k, hk⟩ := Option.isSome_iff_exists.mp (List.getLast?_isSome.mpr h)
  rw [hk]
  rfl

/-- 昇順の列では、最後でない鍵は最後の鍵より小さい。 -/
theorem lt_getLastD {l : List Key} (h : l.Pairwise (· < ·)) {i : Nat} {k : Key}
    (hk : l[i]? = some k) (hi : i + 1 < l.length) (d : Key) : k < l.getLastD d := by
  have hlast := getElem?_getLastD (l := l) (by rintro rfl; simp at hi) d
  obtain ⟨hi', rfl⟩ := List.getElem?_eq_some_iff.mp hk
  obtain ⟨hj, hlast⟩ := List.getElem?_eq_some_iff.mp hlast
  rw [← hlast]
  exact List.pairwise_iff_getElem.mp h i (l.length - 1) hi' hj (by omega)

end Build

/-- **構築子は子を落とさない。** `block_number` は `uint32_t` の field に収まるとする。 -/
theorem innerNode_places_all {data : List (Key × InnerSlot ℚ)} (hn : 2 ≤ data.length)
    (hsorted : (data.map Prod.fst).Pairwise (· < ·)) {startPos : Nat} {slope intercept : ℚ}
    (hfit : Fits (data.map Prod.fst) startPos slope intercept) {bn : Nat}
    (hbn : bn = innerBlocksForLoad data.length ∨ bn = innerBlocksForRebuild data.length)
    (h32 : bn < 2 ^ 32) :
    ((initial bn (data.map Prod.fst) startPos slope intercept).placeAll data).isSome = true := by
  have hslots := slots_enough hbn
  have h4 : 4 ≤ bn := by
    rw [innerSlotsPerBlock] at hslots
    omega
  have hcorrected := @initial_corrected (data.map Prod.fst) startPos bn slope intercept h4 h32
  have hheader : (initial bn (data.map Prod.fst) startPos slope intercept).blockNumber = bn :=
    Nat.mod_eq_of_lt h32
  have hnew : (initial bn (data.map Prod.fst) startPos slope intercept).slots =
      List.replicate (8 * bn) InnerSlot.free := rfl
  refine @placeAll_isSome ℚ _ data _ 0 ?_ ?_ ?_ ?_
  · rintro i ⟨s, hs, hfree⟩
    rw [hnew] at hs
    rw [(List.mem_replicate.mp (List.mem_of_getElem? hs)).2] at hfree
    exact absurd hfree (by decide +kernel)
  · rw [hheader, hnew, List.length_replicate, innerSlotsPerBlock]
    omega
  · rw [hheader]
    omega
  · intro pre e post hcut
    rw [hheader]
    have hlen : data.length = pre.length + 1 + post.length := by
      rw [hcut, List.length_append, List.length_cons]
      omega
    -- 子 `e` の予測と最後の子の予測の差が、残りの子の数より小さくない
    have hget : (data.map Prod.fst)[pre.length]? = some e.1 := by
      rw [hcut]
      simp
    have hne : data.map Prod.fst ≠ [] := by
      intro h
      rw [List.map_eq_nil_iff.mp h] at hn
      simp at hn
    have hgetLast := getElem?_getLastD hne freeFlag
    rw [List.length_map] at hgetLast
    have hkeys : (data.map Prod.fst).headD freeFlag < (data.map Prod.fst).getLastD freeFlag := by
      obtain ⟨x, xs, hx⟩ := List.exists_cons_of_ne_nil hne
      refine lt_getLastD hsorted (i := 0) ?_ (by rw [List.length_map]; omega) freeFlag
      rw [hx]
      rfl
    have hmax : e.1 ≤ (data.map Prod.fst).getLastD freeFlag := by
      by_cases hpost : pre.length + 1 < data.length
      · exact (lt_getLastD hsorted hget (by rw [List.length_map]; exact hpost) freeFlag).le
      · rw [show data.length - 1 = pre.length by omega, hget] at hgetLast
        exact (Option.some.inj hgetLast).le
    have hlast := hfit.looseModel_near hgetLast
    rw [Nat.cast_sub (by omega), Nat.cast_one] at hlast
    have hs := predictSlot_bounds e.1
      (initial bn (data.map Prod.fst) startPos slope intercept).slope
      (initial bn (data.map Prod.fst) startPos slope intercept).intercept h4 h32
    refine slot_room hlen hslots (?_ : SlotBounds bn _ _) (hfit.looseModel_near hget) hlast
      (hcorrected.line_le hkeys ?_ hmax)
    · rw [startSlot, hheader]
      exact hs
    · rw [innerSlotsPerBlock]
      omega

/-- 水平な model でも、四つの leaf は残らず置ける。 -/
theorem innerNode_places_all_four :
    ((initial (innerBlocksForLoad 4) ([0, 1, 2, 3].map Key.ofNat) 0 (0 : ℚ) 0).placeAll
      ([0, 1, 2, 3].map fun n => (Key.ofNat n,
        { InnerSlot.free with minKey := Key.ofNat n, ptr := n }))).isSome = true := by
  refine @innerNode_places_all ([0, 1, 2, 3].map fun n => (Key.ofNat n,
      { InnerSlot.free with minKey := Key.ofNat n, ptr := n })) (by decide) ?_ 0 0 0 ?_ _
    (Or.inl rfl) (by decide)
  · decide +kernel
  · intro i k hk
    have hi : i < 4 := (List.getElem?_eq_some_iff.mp hk).1
    have hcast : (i : ℚ) ≤ 8 := by exact_mod_cast (show i ≤ 8 by omega)
    simpa [epsilonInnerNode] using hcast

end InnerNode

end Plin
