import Mathlib.Data.Int.ConditionallyCompleteOrder
import Mathlib.Data.Rat.Floor
import Mathlib.Order.Monotone.Basic
import Mathlib.Tactic.FieldSimp
import Mathlib.Tactic.Linarith
import Mathlib.Tactic.LinearCombination
import Mathlib.Tactic.Positivity
import Mathlib.Tactic.Ring
import Plin.Index.Exact

/-!
# 引き伸ばした一次式（`model_correction`）

丸めの無い演算では、鍵の値は順序を保つ（`Key.toRat_strictMono`）。

`model_correction` は四つの場合に分かれるが、**どの場合も最後の鍵の位置は `size - 1` 以上になり、傾きは
負にならない**（`modelCorrection_last`）。一つ分足りないのに末尾の block に届くのは、予測が `0.5` を足して
から block の幅で割るからである。
-/

namespace Plin

/-! ## 鍵の値 -/

namespace Key

/-- 符号の無い bit 列の値。 -/
def magnitude (p : Nat) : Nat :=
  if p < 2 ^ 52 then p else (2 ^ 52 + p % 2 ^ 52) * 2 ^ (p / 2 ^ 52 - 1)

theorem magnitude_lt_succ (p : Nat) : magnitude p < magnitude (p + 1) := by
  unfold magnitude
  by_cases hp : p + 1 < 2 ^ 52
  · rw [if_pos hp, if_pos (by omega)]
    omega
  · rw [if_neg hp]
    by_cases hp' : p < 2 ^ 52
    · -- 正規化数に移るところでは、指数部が 1 から始まる
      rw [if_pos hp', show p + 1 = 2 ^ 52 by omega]
      norm_num
      omega
    · rw [if_neg hp']
      by_cases hr : p % 2 ^ 52 + 1 < 2 ^ 52
      · rw [show (p + 1) % 2 ^ 52 = p % 2 ^ 52 + 1 by omega,
          show (p + 1) / 2 ^ 52 = p / 2 ^ 52 by omega]
        exact Nat.mul_lt_mul_of_pos_right (by omega) (Nat.two_pow_pos _)
      · rw [show (p + 1) % 2 ^ 52 = 0 by omega,
          show (p + 1) / 2 ^ 52 - 1 = p / 2 ^ 52 - 1 + 1 by omega]
        calc (2 ^ 52 + p % 2 ^ 52) * 2 ^ (p / 2 ^ 52 - 1)
            < (2 ^ 52 * 2) * 2 ^ (p / 2 ^ 52 - 1) :=
              Nat.mul_lt_mul_of_pos_right (by omega) (Nat.two_pow_pos _)
          _ = (2 ^ 52 + 0) * 2 ^ (p / 2 ^ 52 - 1 + 1) := by ring

theorem magnitude_strictMono : StrictMono magnitude := strictMono_nat_of_lt_succ magnitude_lt_succ

theorem toUnits_eq (k : Key) :
    k.toUnits = if 0 ≤ k.ord then (magnitude k.ord.natAbs : Int) else -magnitude k.ord.natAbs := rfl

theorem toUnits_strictMono : StrictMono toUnits := by
  intro a b h
  rw [lt_def] at h
  rw [toUnits_eq, toUnits_eq]
  by_cases ha : 0 ≤ a.ord
  · rw [if_pos ha, if_pos (by omega)]
    exact_mod_cast magnitude_strictMono (by omega)
  · rw [if_neg ha]
    by_cases hb : 0 ≤ b.ord
    · have hpos : 0 < magnitude a.ord.natAbs :=
        lt_of_le_of_lt (Nat.zero_le _) (@magnitude_strictMono 0 a.ord.natAbs (by omega))
      rw [if_pos hb]
      omega
    · have := @magnitude_strictMono b.ord.natAbs a.ord.natAbs (by omega)
      rw [if_neg hb]
      omega

/-- 整数の鍵の値は、その整数である。 -/
theorem toUnits_ofNat {n : Nat} (hn : n < 2 ^ 53) : (ofNat n).toUnits = n * 2 ^ 1074 := by
  rcases Nat.eq_zero_or_pos n with rfl | hpos
  · rw [show (ofNat 0).toUnits = 0 by decide +kernel, Nat.cast_zero, zero_mul]
  · obtain ⟨hord, hmin, hmax⟩ := ord_ofNat hpos hn
    have hlog : n.log2 < 53 := (Nat.log2_lt hpos.ne').mpr hn
    have habs : (ofNat n).ord.natAbs = (n.log2 + 1022) * 2 ^ 52 + n * 2 ^ (52 - n.log2) := by
      rw [hord, Int.natAbs_natCast]
    have hpow : n * 2 ^ (52 - n.log2) * 2 ^ (n.log2 + 1022) = n * 2 ^ 1074 := by
      rw [mul_assoc, ← pow_add, show 52 - n.log2 + (n.log2 + 1022) = 1074 by omega]
    have hvalue : magnitude (ofNat n).ord.natAbs = n * 2 ^ 1074 := by
      rw [habs, ← hpow]
      generalize n * 2 ^ (52 - n.log2) = m at hmin hmax
      rw [magnitude, if_neg (by omega),
        show 2 ^ 52 + ((n.log2 + 1022) * 2 ^ 52 + m) % 2 ^ 52 = m by omega,
        show ((n.log2 + 1022) * 2 ^ 52 + m) / 2 ^ 52 - 1 = n.log2 + 1022 by omega]
    rw [toUnits_eq, if_pos (by omega), hvalue, Nat.cast_mul, Nat.cast_pow]
    rfl

/-- **鍵の値は順序を保つ。** -/
theorem toRat_strictMono : StrictMono toRat := by
  intro a b h
  have hu : (a.toUnits : ℚ) < b.toUnits := by exact_mod_cast toUnits_strictMono h
  exact div_lt_div_of_pos_right hu (by positivity)

end Key

/-! ## 切り捨て -/

theorem truncRat_of_nonneg {q : ℚ} (h : 0 ≤ q) : truncRat q = ⌊q⌋ := by
  unfold truncRat
  rw [Int.tdiv_eq_ediv_of_nonneg (Rat.num_nonneg.mpr h), Rat.floor_def']

theorem truncRat_nonpos {q : ℚ} (h : q ≤ 0) : truncRat q ≤ 0 := by
  have hnum : 0 ≤ -q.num := Int.neg_nonneg.mpr (Rat.num_nonpos.mpr h)
  have := Int.tdiv_nonneg hnum (Int.natCast_nonneg q.den)
  rw [Int.neg_tdiv] at this
  unfold truncRat
  omega

theorem le_truncRat {q : ℚ} {n : Nat} (h : (n : ℚ) ≤ q) : (n : Int) ≤ truncRat q := by
  have h0 : 0 ≤ q := le_trans (Nat.cast_nonneg n) h
  rw [truncRat_of_nonneg h0]
  exact Int.le_floor.mpr (by exact_mod_cast h)

theorem truncRat_neg (q : ℚ) : truncRat (-q) = -truncRat q := by
  unfold truncRat
  rw [Rat.num_neg_eq_neg_num, Rat.den_neg_eq_den, Int.neg_tdiv]

theorem truncRat_mono {p q : ℚ} (h : p ≤ q) : truncRat p ≤ truncRat q := by
  rcases le_total 0 p with hp | hp
  · rw [truncRat_of_nonneg hp, truncRat_of_nonneg (hp.trans h)]
    exact Int.floor_le_floor h
  · rcases le_total 0 q with hq | hq
    · have hnonneg : 0 ≤ truncRat q := le_truncRat (n := 0) (by simpa using hq)
      exact (truncRat_nonpos hp).trans hnonneg
    · rw [← neg_le_neg_iff, ← truncRat_neg, ← truncRat_neg, truncRat_of_nonneg (neg_nonneg.mpr hq),
        truncRat_of_nonneg (neg_nonneg.mpr hp)]
      exact Int.floor_le_floor (neg_le_neg h)

/-! ## 四つの場合 -/

/-- 一次式の値。 -/
def line (model : ℚ × ℚ) (k : Key) : ℚ := k.toRat * model.1 + model.2

theorem line_mono {model : ℚ × ℚ} (h : 0 ≤ model.1) {a b : Key} (hab : a ≤ b) :
    line model a ≤ line model b := by
  have := mul_le_mul_of_nonneg_right (Key.toRat_strictMono.monotone hab) h
  unfold line
  linarith

section Correction

variable {slope intercept : ℚ} {size : Nat} {minKey maxKey : Key}

/-- `model_correction` の四つの場合。 -/
inductive Corrected (slope intercept : ℚ) (size : Nat) (minKey maxKey : Key) : ℚ × ℚ → Prop
  /-- 両端とも内側にある。 -/
  | stretched (hmin : 0 < line (slope, intercept) minKey)
      (hmax : line (slope, intercept) maxKey + 1 < (size : ℚ) - 1) :
      Corrected slope intercept size minKey maxKey
        (((size : ℚ) - 1) / (maxKey.toRat - minKey.toRat),
          0 - ((size : ℚ) - 1) / (maxKey.toRat - minKey.toRat) * minKey.toRat)
  /-- 左端だけが内側にある。 -/
  | leftward (hmin : 0 < line (slope, intercept) minKey)
      (hmax : (size : ℚ) - 1 ≤ line (slope, intercept) maxKey + 1) :
      Corrected slope intercept size minKey maxKey
        ((line (slope, intercept) maxKey + 1) / (maxKey.toRat - minKey.toRat),
          0 - (line (slope, intercept) maxKey + 1) / (maxKey.toRat - minKey.toRat) * minKey.toRat)
  /-- 右端だけが内側にある。 -/
  | rightward (hmin : line (slope, intercept) minKey ≤ 0)
      (hmax : line (slope, intercept) maxKey + 1 < size) :
      Corrected slope intercept size minKey maxKey
        (((size : ℚ) - line (slope, intercept) minKey - 1) / (maxKey.toRat - minKey.toRat),
          (size : ℚ) - 1 - ((size : ℚ) - line (slope, intercept) minKey - 1) /
            (maxKey.toRat - minKey.toRat) * maxKey.toRat)
  /-- 両端とも外側にある。 -/
  | kept (hmin : line (slope, intercept) minKey ≤ 0)
      (hmax : (size : ℚ) ≤ line (slope, intercept) maxKey + 1) :
      Corrected slope intercept size minKey maxKey (slope, intercept)

theorem modelCorrection_cases (hsize : 1 ≤ size) (hsize' : size < 2 ^ 64) :
    Corrected slope intercept size minKey maxKey
      (modelCorrection slope intercept size minKey maxKey) := by
  have hsub : ((sub64 size 1 : Nat) : ℚ) = (size : ℚ) - 1 := by
    rw [show sub64 size 1 = size - 1 by unfold sub64; omega]
    push_cast [hsize]
    rfl
  unfold modelCorrection
  simp only [Arith.ofNat, Arith.ofKey, Arith.lt, Arith.toFloat, hsub, Bool.and_eq_true,
    decide_eq_true_eq, Nat.cast_zero, Nat.cast_one]
  split
  · next h => exact .stretched h.1 h.2
  · next h =>
    split
    · next hmin => exact .leftward hmin (not_lt.mp fun hmax => h ⟨hmin, hmax⟩)
    · next hmin =>
      split
      · next hmax => exact .rightward (not_lt.mp hmin) hmax
      · next hmax => exact .kept (not_lt.mp hmin) (not_lt.mp hmax)

/-- **引き伸ばした後は傾きが負にならず、最後の鍵の位置は `size - 1` 以上になる。** -/
theorem Corrected.last {model : ℚ × ℚ} (h : Corrected slope intercept size minKey maxKey model)
    (hslope : 0 ≤ slope) (hkeys : minKey < maxKey) (hsize : 1 ≤ size) :
    0 ≤ model.1 ∧ (size : ℚ) - 1 ≤ line model maxKey := by
  have hrange : 0 < maxKey.toRat - minKey.toRat := sub_pos.mpr (Key.toRat_strictMono hkeys)
  have hone : (1 : ℚ) ≤ size := by exact_mod_cast hsize
  have hle := @line_mono (slope, intercept) hslope _ _ hkeys.le
  cases h with
  | stretched hmin hmax =>
    refine ⟨div_nonneg (by linarith) hrange.le, le_of_eq ?_⟩
    unfold line
    field_simp
    ring
  | leftward hmin hmax =>
    refine ⟨div_nonneg (by linarith) hrange.le, hmax.trans (le_of_eq ?_)⟩
    unfold line
    field_simp
    ring
  | rightward hmin hmax =>
    refine ⟨div_nonneg (by linarith) hrange.le, le_of_eq ?_⟩
    unfold line
    ring
  | kept hmin hmax => exact ⟨hslope, by linarith⟩

/--
**引き伸ばした後の位置の上限。** 元の位置を一つしか超えないか、`size - 1` を超えず、右端からの距離も元より
縮まない。傾きの符号は問わない。
-/
theorem Corrected.line_le {model : ℚ × ℚ} (h : Corrected slope intercept size minKey maxKey model)
    (hkeys : minKey < maxKey) (hsize : 1 ≤ size) {k : Key} (hmax : k ≤ maxKey) :
    line model k ≤ line (slope, intercept) k + 1 ∨
      line model k ≤ (size : ℚ) - 1 ∧ line model k ≤ (size : ℚ) - 1 -
        (line (slope, intercept) maxKey - line (slope, intercept) k) := by
  have hrange : 0 < maxKey.toRat - minKey.toRat := sub_pos.mpr (Key.toRat_strictMono hkeys)
  have hone : (1 : ℚ) ≤ size := by exact_mod_cast hsize
  -- 両端の間での割合
  obtain ⟨f, hf⟩ : ∃ f, f = (k.toRat - minKey.toRat) / (maxKey.toRat - minKey.toRat) := ⟨_, rfl⟩
  have hf₁ : 0 ≤ 1 - f := by
    rw [hf, sub_nonneg, div_le_one hrange]
    have := Key.toRat_strictMono.monotone hmax
    linarith
  have hk : k.toRat = minKey.toRat + f * (maxKey.toRat - minKey.toRat) := by
    rw [hf]
    field_simp
    ring
  have hline : line (slope, intercept) k = line (slope, intercept) maxKey -
      (line (slope, intercept) maxKey - line (slope, intercept) minKey) * (1 - f) := by
    unfold line
    rw [hk]
    ring
  have hscale (c : ℚ) : c / (maxKey.toRat - minKey.toRat) * (maxKey.toRat - minKey.toRat) = c :=
    div_mul_cancel₀ c hrange.ne'
  cases h with
  | stretched hleft hright =>
    have hnew : line (((size : ℚ) - 1) / (maxKey.toRat - minKey.toRat),
        0 - ((size : ℚ) - 1) / (maxKey.toRat - minKey.toRat) * minKey.toRat) k =
          ((size : ℚ) - 1) * f := by
      unfold line
      rw [hk]
      linear_combination f * hscale ((size : ℚ) - 1)
    have h₁ := mul_nonneg hf₁ (show (0 : ℚ) ≤ (size : ℚ) - 1 by linarith)
    have h₂ := mul_nonneg hf₁ (show (0 : ℚ) ≤ (size : ℚ) - 1 -
      (line (slope, intercept) maxKey - line (slope, intercept) minKey) by linarith)
    rw [hnew, hline]
    exact Or.inr ⟨by linarith, by linarith⟩
  | leftward hleft hright =>
    have hnew : line ((line (slope, intercept) maxKey + 1) / (maxKey.toRat - minKey.toRat),
        0 - (line (slope, intercept) maxKey + 1) / (maxKey.toRat - minKey.toRat) *
          minKey.toRat) k = (line (slope, intercept) maxKey + 1) * f := by
      rw [line, hk]
      linear_combination f * hscale (line (slope, intercept) maxKey + 1)
    have h₁ := mul_nonneg hf₁ (show (0 : ℚ) ≤ line (slope, intercept) minKey + 1 by linarith)
    rw [hnew, hline]
    exact Or.inl (by linarith)
  | rightward hleft hright =>
    have hnew : line (((size : ℚ) - line (slope, intercept) minKey - 1) /
        (maxKey.toRat - minKey.toRat), (size : ℚ) - 1 -
          ((size : ℚ) - line (slope, intercept) minKey - 1) / (maxKey.toRat - minKey.toRat) *
            maxKey.toRat) k =
          (size : ℚ) - 1 - ((size : ℚ) - line (slope, intercept) minKey - 1) * (1 - f) := by
      rw [line, hk]
      linear_combination (f - 1) * hscale ((size : ℚ) - line (slope, intercept) minKey - 1)
    have h₁ := mul_nonneg hf₁
      (show (0 : ℚ) ≤ (size : ℚ) - line (slope, intercept) minKey - 1 by linarith)
    have h₂ := mul_nonneg hf₁
      (show (0 : ℚ) ≤ (size : ℚ) - 1 - line (slope, intercept) maxKey by linarith)
    rw [hnew, hline]
    exact Or.inr ⟨by linarith, by linarith⟩
  | kept hleft hright => exact Or.inl (by linarith)

end Correction

end Plin
