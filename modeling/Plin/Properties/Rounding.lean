import Plin.Properties.BulkLoad
import Plin.Properties.ModelCorrection
import Plin.Properties.Rebuild
import Plin.Properties.SegmentationFit

/-!
# 丸めのある演算

`double` の和・積・商と整数への変換は、丸めても大小を入れ替えない。`LawfulArith` はその事実だけを並べる。

区分の傾きが負でなければ（`Fitter.Rising`）、`model_correction` の後の傾きも負にならず
（`modelCorrection_slope`）、鍵の位置は鍵について減らない。**ただし位置が `int64_t` に収まらない鍵では変換の結果が
定まらないので、予測が単調なのは位置の収まる鍵の上に限る**（`InnerNode.Rising.tame`）。
-/

namespace Plin

open Infra

/--
丸めのある演算の性質。大小は `lt` が偽であることで述べるので、NaN については何も求めない。
-/
class LawfulArith (D : Type) [Arith D] : Prop where
  mul_mono {a b : Key} {c : D} (hab : a ≤ b) (hc : Arith.lt c (Arith.ofNat 0) = false) :
    Arith.lt (Arith.ofKey b * c) (Arith.ofKey a * c) = false
  add_mono {x y : D} (h : Arith.lt y x = false) (c : D) : Arith.lt (y + c) (x + c) = false
  div_mono {x y : D} (h : Arith.lt y x = false) {n : Nat} (hn : 0 < n) :
    Arith.lt (y / Arith.ofNat n) (x / Arith.ofNat n) = false
  toInt64_mono {x y : D} (hx : Arith.fitsInt64 x = true) (hy : Arith.fitsInt64 y = true)
    (h : Arith.lt y x = false) : Arith.toInt64 x ≤ Arith.toInt64 y
  ofNat_nonneg (n : Nat) : Arith.lt (Arith.ofNat n : D) (Arith.ofNat 0) = false
  /-- 鍵の差で割る。差が 0 のときの商は負の数ではない。 -/
  div_range {a b : Key} {x : D} (hab : a ≤ b) (hx : Arith.lt x (Arith.ofNat 0) = false) :
    Arith.lt (x / (Arith.ofKey b - Arith.ofKey a)) (Arith.ofNat 0) = false
  div_ratio {x : D} (hx : Arith.lt x (Arith.ofNat 0) = false) :
    Arith.lt (x / (0.2 : D)) (Arith.ofNat 0) = false
  add_one_nonneg {x y : D} (hx : Arith.lt (Arith.ofNat 0) x = true) (h : Arith.lt y x = false) :
    Arith.lt (y + Arith.ofNat 1) (Arith.ofNat 0) = false
  room_nonneg {x : D} (hx : Arith.lt (Arith.ofNat 0) x = false) {n : Nat} (hn : 0 < n) :
    Arith.lt (Arith.ofNat n - x - Arith.ofNat 1) (Arith.ofNat 0) = false

theorem not_lt_rat {p q : ℚ} : Arith.lt p q = false ↔ q ≤ p := by
  rw [← not_lt]
  exact decide_eq_false_iff_not

theorem nonneg_rat {q : ℚ} : Arith.lt q (Arith.ofNat 0) = false ↔ 0 ≤ q := by
  rw [not_lt_rat]
  simp [Arith.ofNat]

/-- 丸めの無い演算も、この性質を持つ。 -/
instance : LawfulArith ℚ where
  mul_mono hab hc := not_lt_rat.mpr
    (mul_le_mul_of_nonneg_right (Key.toRat_strictMono.monotone hab) (nonneg_rat.mp hc))
  add_mono h c := not_lt_rat.mpr (add_le_add_left (not_lt_rat.mp h) c)
  div_mono h n _ := not_lt_rat.mpr (div_le_div_of_nonneg_right (not_lt_rat.mp h) n.cast_nonneg)
  toInt64_mono _ _ h := truncRat_mono (not_lt_rat.mp h)
  ofNat_nonneg n := nonneg_rat.mpr n.cast_nonneg
  div_range hab hx := nonneg_rat.mpr
    (div_nonneg (nonneg_rat.mp hx) (sub_nonneg.mpr (Key.toRat_strictMono.monotone hab)))
  div_ratio hx := nonneg_rat.mpr (div_nonneg (nonneg_rat.mp hx) (by norm_num))
  add_one_nonneg {x y} hx h := by
    have hx' : ((0 : Nat) : ℚ) < x := of_decide_eq_true hx
    have h' := not_lt_rat.mp h
    refine nonneg_rat.mpr ?_
    show (0 : ℚ) ≤ y + ((1 : Nat) : ℚ)
    push_cast at hx' ⊢
    linarith
  room_nonneg {x} hx {n} hn := by
    have hx' : x ≤ ((0 : Nat) : ℚ) := not_lt_rat.mp hx
    have hn' : (1 : ℚ) ≤ n := by exact_mod_cast hn
    refine nonneg_rat.mpr ?_
    show (0 : ℚ) ≤ (n : ℚ) - x - ((1 : Nat) : ℚ)
    push_cast at hx' ⊢
    linarith

variable {D : Type} [Arith D]

section Lawful

variable [LawfulArith D] {slope intercept : D} {a b : Key}

/-- 傾きが負でなければ、位置は鍵について減らない。 -/
theorem position_mono (hslope : Arith.lt slope (Arith.ofNat 0) = false) (hab : a ≤ b) :
    Arith.lt (position b slope intercept) (position a slope intercept) = false :=
  LawfulArith.add_mono (LawfulArith.add_mono (LawfulArith.mul_mono hab hslope) _) _

/-- **引き伸ばした後の傾きも負にならない。** -/
theorem modelCorrection_slope (hslope : Arith.lt slope (Arith.ofNat 0) = false) (hab : a ≤ b)
    {size : Nat} (hsize : 0 < size) :
    Arith.lt (modelCorrection slope intercept size a b).1 (Arith.ofNat 0) = false := by
  unfold modelCorrection
  dsimp only
  split
  · exact LawfulArith.div_range hab (LawfulArith.ofNat_nonneg _)
  · split
    · next hmin =>
      refine LawfulArith.div_range hab (LawfulArith.add_one_nonneg hmin ?_)
      exact LawfulArith.add_mono (LawfulArith.mul_mono hab hslope) _
    · next hmin =>
      split
      · exact LawfulArith.div_range hab
          (LawfulArith.room_nonneg (Bool.eq_false_iff.mpr hmin) hsize)
      · exact hslope

end Lawful

/-! ## inner node -/

namespace InnerNode

/-- 傾きが負でなく、block が四つ以上ある inner node。 -/
structure Rising (nd : InnerNode D) : Prop where
  slope : Arith.lt nd.slope (Arith.ofNat 0) = false
  wide : 4 ≤ nd.blockNumber
  small : nd.blockNumber < 2 ^ 32
  full : nd.Full

variable [LawfulArith D] {nd : InnerNode D} {K : Set Key} {slope intercept : D}

/-- **位置の収まる鍵の上では、予測は単調で、block の列からはみ出さない。** -/
theorem Rising.tame (h : nd.Rising) (hK : ∀ k ∈ K, fits k nd.slope nd.intercept = true) :
    nd.Tame K where
  mono a ha b hb hab := by
    refine predictBlock_le h.wide h.small (LawfulArith.toInt64_mono (hK a ha) (hK b hb) ?_)
    exact LawfulArith.div_mono (position_mono h.slope hab) (by decide)
  inside k _ _ := predictBlock_lt k nd.slope nd.intercept h.wide h.small

theorem headD_le_getLastD {l : List Key} (h : l.Pairwise (· < ·)) (d : Key) :
    l.headD d ≤ l.getLastD d := by
  cases l with
  | nil => exact le_rfl
  | cons k keys =>
    rcases List.eq_nil_or_concat keys with rfl | ⟨front, last, rfl⟩
    · exact le_rfl
    · rw [List.getLastD_cons, List.concat_eq_append, List.getLastD_concat]
      exact ((List.pairwise_cons.mp h).1 last (by simp)).le

/-- 負でない傾きの区分から作った node。 -/
theorem rising_of_new {bn startPos : Nat} {data : List (Key × InnerSlot D)} (h4 : 4 ≤ bn)
    (h32 : bn < 2 ^ 32) (hslope : Arith.lt slope (Arith.ofNat 0) = false)
    (hsort : (data.map Prod.fst).Pairwise (· < ·))
    (h : new bn data startPos slope intercept = some nd) : nd.Rising := by
  have hfull := new_full h32 h
  obtain ⟨nd', hplace, hcheck⟩ := Option.bind_eq_some_iff.mp h
  split at hcheck
  · obtain rfl := Option.some.inj hcheck
    have hhead := (placeAll_header hplace).1
    have hbn : nd'.blockNumber = bn := by
      rw [hhead]
      exact Nat.mod_eq_of_lt h32
    refine ⟨?_, by omega, by omega, hfull⟩
    rw [hhead]
    refine modelCorrection_slope (LawfulArith.div_ratio hslope) (headD_le_getLastD hsort _) ?_
    rw [Nat.mod_eq_of_lt h32, sub32_eq (by omega) h32, innerSlotsPerBlock]
    omega
  · cases hcheck

end InnerNode

/-- `make_segmentation` の区分の傾きは負でない。 -/
def Fitter.Rising (f : Fitter D) : Prop :=
  ∀ epsilon keys, 0 < epsilon → keys.Pairwise (· < ·) →
    ∀ seg ∈ makeSegmentation f epsilon keys, Arith.lt seg.slope (Arith.ofNat 0) = false

/-- 対応する列では、どの要素にも相手がいる。 -/
theorem exists_of_mem_forall₂ {α β : Type} {R : α → β → Prop} {l : List α} {m : List β}
    (h : List.Forall₂ R l m) {a : α} (ha : a ∈ l) : ∃ b ∈ m, R a b := by
  obtain ⟨i, rfl⟩ := List.mem_iff_get.mp ha
  have hi : i < m.length := h.length_eq ▸ i.isLt
  exact ⟨m.get ⟨i, hi⟩, List.get_mem m _, h.get i.isLt hi⟩

/-- 丸めの無い幾何の区分の傾きは負でない。 -/
theorem rising_exactFitter : exactFitter.Rising := by
  intro epsilon keys hpos hsort seg hseg
  obtain ⟨runs, -, hd⟩ := exists_greedy hpos hsort
  obtain ⟨run, -, hrun⟩ := exists_of_mem_forall₂ hd hseg
  exact nonneg_rat.mpr hrun.upward

namespace PlinIndex

variable [LawfulArith D] {f : Fitter D} {data : List (Key × Payload)} {s : PlinIndex D}

omit [LawfulArith D] in
theorem Loaded.length_leaves (h : Loaded f data s) :
    s.leaves.length = (loadSegments f data).length := by
  rw [h.leaves, List.length_map, loadChain, length_linkLeaves, length_loadLeaves]

omit [LawfulArith D] in
theorem Loaded.sorted_firstKeys (h : Loaded f data s) (hd : LoadData data) :
    ((loadSegments f data).map (·.firstKey)).Pairwise (· < ·) := by
  rw [← (h.freshChain hd).firstKeys, List.pairwise_map]
  exact (h.chain hd).firstKey_sorted

/-- **`bulk_load` の作る inner node の傾きは負でない。** -/
theorem Loaded.rising (h : Loaded f data s) (hd : LoadData data) (hf : f.Rising)
    (hheap : s.leaves.length < 2 ^ 32) : ∀ nd ∈ s.inners, nd.Rising := by
  rw [h.length_leaves] at hheap
  refine buildLevels_forall (fun keys hkeys hsmall seg hseg part pos nd hpart hnd => ?_) h.levels
    (h.sorted_firstKeys hd) (by rwa [List.length_map]) (by simp)
  have hle := (covers_makeSegmentation f epsilonInnerNode
    (hkeys.imp fun hab => le_of_lt hab)).number_le seg hseg
  refine InnerNode.rising_of_new ?_ ?_ (hf _ keys (by decide) hkeys seg hseg) hpart hnd
  all_goals
    unfold innerBlocksForLoad epsilonInnerNode innerSlotsPerBlock
    omega

end PlinIndex

end Plin
