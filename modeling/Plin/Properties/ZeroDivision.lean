import Plin.Properties.Correction
import Plin.Properties.ModelCorrection

/-!
# `model_correction` は 0 で割るか

`model_correction` は四つの枝のうち三つで `max_key - min_key` で割る。鍵が一つの区分では両端が同じ鍵なので、
割る枝に入れば 0 で割る。区分に鍵が一つしか無いのは、各段の最後の区分だけで起きる。

* leaf と `bulk_load` の inner node では、鍵が一つの区分は必ず割る枝に入る。
* `rebuild_inner_nodes` の inner node では block 数が一つ少なく、鍵が一つの区分は割らない枝に入る。

0 で割らなくても、遠い鍵の位置は `int64_t` に収まるとは限らない。**傾きと切片が数で、node に向かうどの鍵の変換も
定まるのは、鍵が一つの区分が無く、両端の鍵の位置が収まるとき、またそのときに限る**
（`modelCorrection_defined_iff`）。0 で割った結果と、`double` の範囲を越えた結果を数でないとする演算 `Checked` の
上で述べる。
-/

namespace Plin

open Infra

/-! ## 範囲のある演算 -/

/--
有理数の演算に、数でない結果を加えたもの。0 で割った結果と、範囲を越えて無限大に丸められる結果は数でない。どの演算
も、数でない値を数でない値に写す。
-/
def Checked : Type := Option ℚ

namespace Checked

/-- 無限大に丸められる `double` の下限。 -/
def overflow : ℚ := 2 ^ 1024 - 2 ^ 970

/-- 無限大に丸められる `float` の下限。 -/
def overflowFloat : ℚ := 2 ^ 128 - 2 ^ 103

/-- 数。 -/
def num (q : ℚ) : Checked := some q

/-- 数でない値。 -/
def nan : Checked := (none : Option ℚ)

/-- 範囲の中の結果。 -/
def bounded (bound q : ℚ) : Checked := if |q| < bound then num q else nan

def quotient (x y : ℚ) : Checked := if y = 0 then nan else bounded overflow (x / y)

/-- 数である。 -/
def IsNum (c : Checked) : Prop := ∃ q, c = num q

/-- 二つの数の演算。 -/
def op (g : ℚ → ℚ → Checked) (a b : Checked) : Checked :=
  Option.bind a fun x => Option.bind b fun y => g x y

instance : Arith Checked where
  add := op fun x y => bounded overflow (x + y)
  sub := op fun x y => bounded overflow (x - y)
  mul := op fun x y => bounded overflow (x * y)
  div := op quotient
  ofScientific m sign e := num (OfScientific.ofScientific m sign e)
  ofKey k := bounded overflow k.toRat
  ofNat n := num n
  lt a b := match a, b with
    | some x, some y => decide (x < y)
    | _, _ => false
  toInt64
    | some q => truncRat q
    | none => -2 ^ 63
  fitsInt64 c := c.elim false fun q => Arith.fitsInt64 q
  toFloat c := Option.bind c (bounded overflowFloat)

variable {a b : Checked} {p q x bound : ℚ}

theorem num_injective : Function.Injective num := fun _ _ h => Option.some.inj h

theorem nan_ne_num : nan ≠ num q := fun h => by cases h

theorem bounded_eq (h : |q| < bound) : bounded bound q = num q := if_pos h

theorem bounded_eq_num : bounded bound q = num p ↔ |q| < bound ∧ q = p := by
  by_cases h : |q| < bound
  · rw [bounded_eq h]
    exact ⟨fun he => ⟨h, num_injective he⟩, fun he => congrArg num he.2⟩
  · rw [bounded, if_neg h]
    exact ⟨fun he => absurd he nan_ne_num, fun he => absurd he.1 h⟩

theorem quotient_eq_num : quotient p q = num x ↔ q ≠ 0 ∧ |p / q| < overflow ∧ p / q = x := by
  unfold quotient
  by_cases h : q = 0
  · rw [if_pos h]
    exact ⟨fun he => absurd he nan_ne_num, fun he => absurd h he.1⟩
  · rw [if_neg h, bounded_eq_num, ne_eq, and_iff_right h]

theorem op_eq_num {g : ℚ → ℚ → Checked} :
    op g a b = num q ↔ ∃ x y, a = num x ∧ b = num y ∧ g x y = num q := by
  constructor
  · intro h
    obtain ⟨x, hx, h⟩ := Option.bind_eq_some_iff.mp h
    obtain ⟨y, hy, h⟩ := Option.bind_eq_some_iff.mp h
    exact ⟨x, y, hx, hy, h⟩
  · rintro ⟨x, y, rfl, rfl, h⟩
    exact h

theorem op_num (g : ℚ → ℚ → Checked) : op g (num p) (num q) = g p q := rfl

theorem num_add : num p + num q = bounded overflow (p + q) := op_num _

theorem num_sub : num p - num q = bounded overflow (p - q) := op_num _

theorem num_mul : num p * num q = bounded overflow (p * q) := op_num _

theorem ofKey_eq (k : Key) : (Arith.ofKey k : Checked) = bounded overflow k.toRat := rfl

@[simp] theorem ofNat_eq (n : Nat) : (Arith.ofNat n : Checked) = num n := rfl

@[simp] theorem lt_num : Arith.lt (num p) (num q) = decide (p < q) := rfl

theorem isNum_num (q : ℚ) : (num q).IsNum := ⟨q, rfl⟩

/-- 変換の定まる値は数である。 -/
theorem fits_iff {c : Checked} :
    Arith.fitsInt64 c = true ↔ ∃ q, c = num q ∧ Arith.fitsInt64 q = true := by
  cases c with
  | none =>
    constructor
    · exact fun h => absurd h (by decide)
    · rintro ⟨q, hq, -⟩
      cases hq
  | some q =>
    constructor
    · exact fun h => ⟨q, rfl, h⟩
    · rintro ⟨p, hp, h⟩
      obtain rfl := num_injective hp
      exact h

end Checked

open Checked

/-! ## 位置の収まる鍵 -/

/-- 鍵と傾きの積が `u` のときの、`predict_block` の変換が定まる条件。 -/
structure Fits (t w u : ℚ) : Prop where
  product : |u| < overflow
  sum : |u + t| < overflow
  half : |u + t + 0.5| < overflow
  quotient : |(u + t + 0.5) / w| < overflow
  cast : Arith.fitsInt64 ((u + t + 0.5) / w) = true

theorem abs_lt_of_between {p q r bound : ℚ} (hp : |p| < bound) (hr : |r| < bound) (hpq : p ≤ q)
    (hqr : q ≤ r) : |q| < bound :=
  abs_lt.mpr ⟨(abs_lt.mp hp).1.trans_le hpq, hqr.trans_lt (abs_lt.mp hr).2⟩

theorem fitsInt64_of_between {p q r : ℚ} (hp : Arith.fitsInt64 p = true)
    (hr : Arith.fitsInt64 r = true) (hpq : p ≤ q) (hqr : q ≤ r) : Arith.fitsInt64 q = true := by
  have hlo := (of_decide_eq_true hp).1
  have hhi := (of_decide_eq_true hr).2
  exact decide_eq_true ⟨hlo.trans (truncRat_mono hpq), (truncRat_mono hqr).trans_lt hhi⟩

theorem Fits.between {t w p q r : ℚ} (hw : 0 ≤ w) (hp : Fits t w p) (hr : Fits t w r)
    (hpq : p ≤ q) (hqr : q ≤ r) : Fits t w q := by
  have hlo : (p + t + 0.5) / w ≤ (q + t + 0.5) / w := div_le_div_of_nonneg_right (by linarith) hw
  have hhi : (q + t + 0.5) / w ≤ (r + t + 0.5) / w := div_le_div_of_nonneg_right (by linarith) hw
  exact {
    product := abs_lt_of_between hp.product hr.product hpq hqr
    sum := abs_lt_of_between hp.sum hr.sum (by linarith) (by linarith)
    half := abs_lt_of_between hp.half hr.half (by linarith) (by linarith)
    quotient := abs_lt_of_between hp.quotient hr.quotient hlo hhi
    cast := fitsInt64_of_between hp.cast hr.cast hlo hhi }

namespace Duty

variable {r : Duty Checked} {key lo hi : Key}

/-- 変換が定まるのは、傾きも切片も数で、位置が収まるときである。 -/
theorem converts_iff : r.converts key = true ↔ ∃ s t, r.call.result.1 = num s ∧
    r.call.result.2 = num t ∧ |key.toRat| < overflow ∧ r.width ≠ 0 ∧
      Fits t r.width (key.toRat * s) := by
  have hsum {a b : Checked} {q : ℚ} : a + b = num q ↔
      ∃ x y, a = num x ∧ b = num y ∧ |x + y| < overflow ∧ x + y = q := by
    simp only [← bounded_eq_num]
    exact op_eq_num
  have hmul {a b : Checked} {q : ℚ} : a * b = num q ↔
      ∃ x y, a = num x ∧ b = num y ∧ |x * y| < overflow ∧ x * y = q := by
    simp only [← bounded_eq_num]
    exact op_eq_num
  have hdiv {a : Checked} {q : ℚ} : a / num (r.width : ℚ) = num q ↔
      ∃ x, a = num x ∧ r.width ≠ 0 ∧ |x / r.width| < overflow ∧ x / r.width = q := by
    constructor
    · intro h
      obtain ⟨x, y, rfl, hy, h⟩ := op_eq_num.mp h
      obtain rfl := num_injective hy
      obtain ⟨hw, h⟩ := quotient_eq_num.mp h
      exact ⟨x, rfl, by exact_mod_cast hw, h⟩
    · rintro ⟨x, rfl, hw, h⟩
      exact op_eq_num.mpr ⟨x, r.width, rfl, rfl, quotient_eq_num.mpr ⟨by exact_mod_cast hw, h⟩⟩
  unfold converts
  rw [fits_iff, ofNat_eq, position, ofKey_eq]
  constructor
  · rintro ⟨q, hq, hfit⟩
    obtain ⟨x, hx, hw, hquotient, rfl⟩ := hdiv.mp hq
    obtain ⟨y, half, hy, hhalf, hsum₁, rfl⟩ := hsum.mp hx
    obtain rfl : (0.5 : ℚ) = half := num_injective hhalf
    obtain ⟨u, t, hu, ht, hsum₂, rfl⟩ := hsum.mp hy
    obtain ⟨k, s, hk, hs, hproduct, rfl⟩ := hmul.mp hu
    obtain ⟨hkey, rfl⟩ := bounded_eq_num.mp hk
    exact ⟨s, t, hs, ht, hkey, hw, hproduct, hsum₂, hsum₁, hquotient, hfit⟩
  · rintro ⟨s, t, hs, ht, hk, hw, h⟩
    rw [hs, ht]
    refine ⟨_, hdiv.mpr ⟨_, hsum.mpr ⟨_, 0.5, hsum.mpr ⟨_, t, hmul.mpr ⟨_, s,
      bounded_eq hk, rfl, h.product, rfl⟩, rfl, h.sum, rfl⟩, rfl, h.half, rfl⟩, hw, h.quotient,
        rfl⟩, h.cast⟩

/-- **両端で定まる変換は、間の鍵でも定まる。** 傾きの符号には依らない。 -/
theorem converts_of_between (hlo : r.converts lo = true) (hhi : r.converts hi = true)
    (hle : lo ≤ key) (hge : key ≤ hi) : r.converts key = true := by
  obtain ⟨s, t, hs, ht, hklo, hw, hfitlo⟩ := converts_iff.mp hlo
  obtain ⟨s', t', hs', ht', hkhi, -, hfithi⟩ := converts_iff.mp hhi
  obtain rfl := num_injective (hs.symm.trans hs')
  obtain rfl := num_injective (ht.symm.trans ht')
  have hle := Key.toRat_strictMono.monotone hle
  have hge := Key.toRat_strictMono.monotone hge
  refine converts_iff.mpr ⟨s, t, hs, ht, abs_lt_of_between hklo hkhi hle hge, hw, ?_⟩
  have hwidth : (0 : ℚ) ≤ r.width := Nat.cast_nonneg _
  rcases le_total 0 s with hsign | hsign
  · exact hfitlo.between hwidth hfithi (mul_le_mul_of_nonneg_right hle hsign)
      (mul_le_mul_of_nonneg_right hge hsign)
  · exact hfithi.between hwidth hfitlo (mul_le_mul_of_nonpos_right hge hsign)
      (mul_le_mul_of_nonpos_right hle hsign)

/-- 0 で割らず、残る傾きと切片は数であり、node に向かうどの鍵の変換も定まる。 -/
structure Defined (r : Duty Checked) : Prop where
  safe : ¬ r.call.DividesByZero
  slope : r.call.result.1.IsNum
  intercept : r.call.result.2.IsNum
  converts : ∀ key, r.call.minKey ≤ key → key ≤ r.last → r.converts key = true

/-- node に向かう最初の鍵と最後の鍵の変換が定まる。 -/
def EndsFit (r : Duty Checked) : Prop :=
  r.converts r.call.minKey = true ∧ r.converts r.last = true

theorem defined_iff (hle : r.call.minKey ≤ r.last) :
    r.Defined ↔ ¬ r.call.DividesByZero ∧ r.EndsFit := by
  constructor
  · exact fun h => ⟨h.safe, h.converts _ le_rfl hle, h.converts _ hle le_rfl⟩
  · rintro ⟨hsafe, hlo, hhi⟩
    obtain ⟨s, t, hs, ht, -⟩ := converts_iff.mp hlo
    exact ⟨hsafe, ⟨s, hs⟩, ⟨t, ht⟩, fun _ => converts_of_between hlo hhi⟩

end Duty

/-! ## 区分の呼び出し -/

/--
`OptimalPiecewiseLinearModel` について仮定すること。一点だけの区分では、傾き 0 の一次式がその点の位置を返す。
-/
structure Fitter.Sound (f : Fitter Checked) : Prop where
  onePoint : ∀ epsilon k i, f.line (f.start epsilon k i) k = (num 0, num i)

/-- 無限大でない鍵。 -/
def Key.InRange (k : Key) : Prop := |k.toRat| < overflow

section Segments

variable {f : Fitter Checked} {c : CorrectionCall Checked} {first : Key}

theorem lt_overflow {q : ℚ} (h : |q| ≤ 16) : |q| < overflow := by
  have hpow : (2 : ℚ) ^ 1024 = 2 ^ 970 * 2 ^ 54 := by rw [← pow_add]
  have hone : (1 : ℚ) ≤ 2 ^ 970 := one_le_pow₀ (by norm_num)
  unfold overflow
  rw [hpow]
  generalize (2 : ℚ) ^ 970 = m at hone
  norm_num
  linarith

theorem bounded_zero {bound : ℚ} (h : 0 < bound) : bounded bound 0 = num 0 :=
  bounded_eq (by rwa [abs_zero])

theorem overflow_pos : 0 < overflow :=
  lt_of_le_of_lt (abs_nonneg 0) (lt_overflow (by norm_num))

theorem zero_mul_num (a : ℚ) : num 0 * num a = num 0 := by
  rw [num_mul, zero_mul, bounded_zero overflow_pos]

theorem zero_div_num {r : ℚ} (hr : r ≠ 0) : num 0 / num r = num 0 := by
  refine quotient_eq_num.mpr ⟨hr, ?_, zero_div r⟩
  rw [zero_div, abs_zero]
  exact overflow_pos

/-- 傾きも切片も 0 の呼び出しが割るのは、`size` が 2 以上のときである。 -/
theorem divides_flat (hs : c.slope = num 0) (hi : c.intercept = num 0) (hmin : c.minKey.InRange)
    (hmax : c.maxKey.InRange) : c.divides = decide (1 < c.size) := by
  have hone : num 0 + num ((1 : Nat) : ℚ) = num 1 := by
    rw [num_add, Nat.cast_one, zero_add]
    exact bounded_eq (lt_overflow (by norm_num))
  have hpos {k : Key} (hk : k.InRange) : Arith.ofKey k * num 0 + num 0 = num 0 := by
    rw [ofKey_eq, bounded_eq hk, num_mul, mul_zero, bounded_zero overflow_pos, num_add, add_zero,
      bounded_zero overflow_pos]
  unfold CorrectionCall.divides
  rw [hs, hi]
  simp only [hpos hmin, hpos hmax, ofNat_eq, hone, lt_num, Nat.cast_zero, lt_irrefl, decide_false,
    Bool.false_and, Bool.false_or, Nat.one_lt_cast]

/-- 切片が数でない呼び出しは割らず、切片は数でないまま残る。 -/
theorem result_nan (hi : c.intercept = nan) : c.divides = false ∧ c.result.2 = nan := by
  have hpos (k : Key) : Arith.ofKey k * c.slope + nan = nan := by
    cases Arith.ofKey k * c.slope with
    | none => rfl
    | some q => rfl
  have hone : nan + Arith.ofNat 1 = nan := rfl
  have hleft (b : Checked) : Arith.lt nan b = false := rfl
  have hright (b : Checked) : Arith.lt b nan = false := by
    cases b with
    | none => rfl
    | some q => rfl
  unfold CorrectionCall.divides CorrectionCall.result modelCorrection
  rw [hi]
  simp only [hpos, hone, hleft, hright, Bool.and_self, Bool.or_self, Bool.false_eq_true, if_false,
    and_self]

/-- 鍵が一つの区分の呼び出し。 -/
structure Single (c : CorrectionCall Checked) (first : Key) : Prop where
  minKey : c.minKey = first
  maxKey : c.maxKey = first
  slope : c.slope = num 0
  flat : first.InRange → c.intercept = num 0
  infinite : ¬ first.InRange → c.intercept = nan

/-- 一点だけの区分の切片は、鍵が無限大でなければ、その鍵で 0 になるように直される。 -/
theorem single_offset (pos : Nat) (first : Key) :
    let y : Checked := num (pos : ℚ) - Arith.ofNat pos - Arith.ofKey first * num 0
    (first.InRange → y = num 0) ∧ (¬ first.InRange → y = nan) := by
  have hsub : num (pos : ℚ) - Arith.ofNat pos = num 0 := by
    rw [ofNat_eq, num_sub, sub_self, bounded_zero overflow_pos]
  dsimp only
  rw [hsub, ofKey_eq]
  constructor
  · intro h
    rw [bounded_eq h, num_mul, mul_zero, bounded_zero overflow_pos, num_sub, sub_zero,
      bounded_zero overflow_pos]
  · intro h
    rw [show bounded overflow first.toRat = nan from if_neg h]
    rfl

theorem toFloat_zero : Arith.toFloat (num 0) = num 0 :=
  bounded_zero (by norm_num [overflowFloat])

theorem leafCall_single (hf : f.Sound) (epsilon : Nat) (first : Key) (pos : Nat) :
    Single (leafCall (f.segment (f.start epsilon first pos) first 1) [first] pos) first := by
  have hline := hf.onePoint epsilon first pos
  obtain ⟨hflat, hinf⟩ := single_offset pos first
  have hratio : (0.5 : Checked) * Arith.ofNat leafRealSlotsPerBlock = num 7.5 := by
    refine bounded_eq_num.mpr ⟨lt_overflow ?_, ?_⟩
    · norm_num [leafRealSlotsPerBlock, leafSlotsPerBlock]
    · norm_num [leafRealSlotsPerBlock, leafSlotsPerBlock]
  refine ⟨rfl, rfl, ?_, fun h => ?_, fun h => ?_⟩
  all_goals
    unfold leafCall Fitter.segment
    dsimp only
    rw [hline, hratio]
  · rw [ofNat_eq, zero_mul_num, zero_div_num (by norm_num)]
  · rw [List.headD_cons, hflat h, ofNat_eq, zero_mul_num, zero_div_num (by norm_num), toFloat_zero]
  · rw [List.headD_cons, hinf h]
    rfl

theorem innerCall_single (hf : f.Sound) (bnf : Nat → Nat) (epsilon : Nat) (first : Key)
    (pos : Nat) :
    Single (innerCall bnf (f.segment (f.start epsilon first pos) first 1) [first] pos) first := by
  have hline := hf.onePoint epsilon first pos
  obtain ⟨hflat, hinf⟩ := single_offset pos first
  have hratio : (0.2 : Checked) = num 0.2 := rfl
  refine ⟨rfl, rfl, ?_, fun h => ?_, fun h => ?_⟩
  all_goals
    unfold innerCall Fitter.segment
    dsimp only
    rw [hline, hratio]
  · exact zero_div_num (by norm_num)
  · rw [List.headD_cons, hflat h, zero_div_num (by norm_num), toFloat_zero]
  · rw [List.headD_cons, hinf h]
    rfl

/-- `size` が 2 以上なら、鍵が一つの区分は 0 で割るか、鍵が無限大で切片が数でない。 -/
theorem Single.divides (h : Single c first) (hsize : 1 < c.size) :
    (first.InRange → c.DividesByZero) ∧ ¬ (¬ c.DividesByZero ∧ c.result.2.IsNum) := by
  have hdiv (hfin : first.InRange) : c.DividesByZero :=
    ⟨(divides_flat h.slope (h.flat hfin) (h.minKey ▸ hfin) (h.maxKey ▸ hfin)).trans
      (decide_eq_true hsize), h.minKey.trans h.maxKey.symm⟩
  refine ⟨hdiv, ?_⟩
  rintro ⟨hsafe, hnum⟩
  by_cases hfin : first.InRange
  · exact hsafe (hdiv hfin)
  · rw [(result_nan (h.infinite hfin)).2] at hnum
    obtain ⟨q, hq⟩ := hnum
    exact nan_ne_num hq

/-- `size` が 1 以下なら、鍵が一つの区分は割らない。 -/
theorem Single.safe (h : Single c first) (hsize : ¬ 1 < c.size) : ¬ c.DividesByZero := by
  rintro ⟨hdiv, -⟩
  by_cases hfin : first.InRange
  · rw [divides_flat h.slope (h.flat hfin) (h.minKey ▸ hfin) (h.maxKey ▸ hfin),
      decide_eq_false hsize] at hdiv
    cases hdiv
  · rw [(result_nan (h.infinite hfin)).1] at hdiv
    cases hdiv

theorem getLastD_ne {first : Key} {more : List Key} (hmore : more ≠ [])
    (hsort : (first :: more).Pairwise (· < ·)) : first ≠ (first :: more).getLastD freeFlag := by
  rw [List.getLastD_cons, List.getLastD_eq_getLast?, List.getLast?_eq_some_getLast hmore]
  exact ((List.pairwise_cons.mp hsort).1 _ (List.getLast_mem hmore)).ne

end Segments

/-! ## 三つの構築 -/

/-- どの区分にも鍵が二つ以上ある。 -/
def NoSingleton (f : Fitter Checked) (epsilon : Nat) (keys : List Key) : Prop :=
  ∀ seg ∈ makeSegmentation f epsilon keys, 2 ≤ seg.number

/-- `bulk_load` の leaf の区分にも、どの段の区分にも、鍵が二つ以上ある。 -/
def LoadNoSingleton (f : Fitter Checked) (keys : List Key) : Prop :=
  NoSingleton f epsilonLeafNode keys ∧
    ∀ level ∈ levelKeys f ((leafFirstKeys f keys).length + 1) (leafFirstKeys f keys),
      NoSingleton f epsilonInnerNode level

section Build

variable {f : Fitter Checked} {keys : List Key} {last : Key}

theorem sorted_firstKeys (f : Fitter Checked) (epsilon : Nat) (hsort : keys.Pairwise (· < ·)) :
    ((makeSegmentation f epsilon keys).map (·.firstKey)).Pairwise (· < ·) :=
  (covers_makeSegmentation f epsilon (hsort.imp fun h => h.le)).sorted

theorem firstKeys_subset (f : Fitter Checked) (epsilon : Nat) (hsort : keys.Pairwise (· < ·)) :
    ∀ k ∈ (makeSegmentation f epsilon keys).map (·.firstKey), k ∈ keys := by
  intro k hk
  obtain ⟨seg, hseg, rfl⟩ := List.mem_map.mp hk
  exact (covers_makeSegmentation f epsilon (hsort.imp fun h => h.le)).firstKey_mem seg hseg

/-- どの段の鍵も、元の鍵から取り出したもので、狭義に増える。 -/
theorem levelKeys_spec (f : Fitter Checked) (fuel : Nat) :
    ∀ {keys : List Key}, keys.Pairwise (· < ·) →
      ∀ level ∈ levelKeys f fuel keys, level.Pairwise (· < ·) ∧ ∀ k ∈ level, k ∈ keys := by
  induction fuel with
  | zero => simp [levelKeys]
  | succ fuel ih =>
    intro keys hsort level hlevel
    rw [levelKeys] at hlevel
    rcases List.mem_cons.mp hlevel with rfl | hlevel
    · exact ⟨hsort, fun k hk => hk⟩
    · split at hlevel
      · obtain ⟨hs, hsub⟩ := ih (sorted_firstKeys f _ hsort) level hlevel
        exact ⟨hs, fun k hk => firstKeys_subset f _ hsort k (hsub k hk)⟩
      · cases hlevel

/-- 鍵が二つ以上の区分では 0 で割らない。 -/
theorem safe_of_ne {c : CorrectionCall Checked} {first : Key} {more : List Key} (hmore : more ≠ [])
    (hsort : (first :: more).Pairwise (· < ·)) (hmin : c.minKey = first)
    (hmax : c.maxKey = (first :: more).getLastD freeFlag) : ¬ c.DividesByZero := by
  rintro ⟨-, heq⟩
  rw [hmin, hmax] at heq
  exact getLastD_ne hmore hsort heq

section Calls

variable {epsilon : Nat} {call : Segment Checked → List Key → Nat → CorrectionCall Checked}

/-- `call` は、区分の両端の鍵を渡す。 -/
structure EndKeys (call : Segment Checked → List Key → Nat → CorrectionCall Checked) : Prop where
  minKey : ∀ seg first more pos, (call seg (first :: more) pos).minKey = first
  maxKey : ∀ seg keys pos, (call seg keys pos).maxKey = keys.getLastD freeFlag

/-- 鍵が一つの区分は割らないか、そういう区分が無ければ、どの呼び出しも 0 で割らない。 -/
theorem calls_safe (hends : EndKeys call) (hsort : keys.Pairwise (· < ·))
    (hone : NoSingleton f epsilon keys ∨ ∀ first pos, ¬ (call
      (f.segment (f.start epsilon first pos) first 1) [first] pos).DividesByZero) :
    ∀ c ∈ segmentCalls call (makeSegmentation f epsilon keys) keys 0, ¬ c.DividesByZero :=
  (cut_makeSegmentation f epsilon hsort).forall_calls hsort
    (fun _ first more _ hmore hpart =>
      safe_of_ne hmore hpart (hends.minKey _ first more _) (hends.maxKey _ _ _)) hone

/-- node に向かう鍵の範囲は空でない。 -/
theorem duties_nonempty (width : Nat) (hends : EndKeys call) (hsort : keys.Pairwise (· < ·))
    (hlast : ∀ k ∈ keys, k ≤ last) :
    ∀ r ∈ duties width last (segmentCalls call (makeSegmentation f epsilon keys) keys 0),
      r.call.minKey ≤ r.last := by
  have hkeys := (cut_makeSegmentation f epsilon hsort).minKeys hends.minKey
  refine minKey_le_last (hkeys ▸ sorted_firstKeys f epsilon hsort) fun c hc => ?_
  refine hlast _ (firstKeys_subset f epsilon hsort _ ?_)
  rw [← hkeys]
  exact List.mem_map_of_mem hc

/-- 鍵が一つの区分が必ず割る呼び出しでは、割らないのはそういう区分が無いときに限る。 -/
theorem calls_safe_iff (hends : EndKeys call) (hsort : keys.Pairwise (· < ·))
    (hsingle : ∀ first pos,
      Single (call (f.segment (f.start epsilon first pos) first 1) [first] pos) first)
    (hsize : ∀ first pos,
      1 < (call (f.segment (f.start epsilon first pos) first 1) [first] pos).size)
    (hfin : ∀ k ∈ keys, k.InRange) :
    (∀ c ∈ segmentCalls call (makeSegmentation f epsilon keys) keys 0, ¬ c.DividesByZero) ↔
      NoSingleton f epsilon keys :=
  ⟨(cut_makeSegmentation f epsilon hsort).two_le_of_calls fun first hfirst pos hsafe =>
      hsafe (((hsingle first pos).divides (hsize first pos)).1 (hfin first hfirst)),
    fun h => calls_safe hends hsort (.inl h)⟩

/-- 鍵が一つの区分が必ず割る呼び出しでは、変換がどれも定まるのは、そういう区分が無く、両端が収まるときである。 -/
theorem duties_defined_iff (hends : EndKeys call) (hsort : keys.Pairwise (· < ·))
    (hsingle : ∀ first pos,
      Single (call (f.segment (f.start epsilon first pos) first 1) [first] pos) first)
    (hsize : ∀ first pos,
      1 < (call (f.segment (f.start epsilon first pos) first 1) [first] pos).size)
    {rs : List (Duty Checked)}
    (hcalls : rs.map Duty.call = segmentCalls call (makeSegmentation f epsilon keys) keys 0)
    (hle : ∀ r ∈ rs, r.call.minKey ≤ r.last) :
    (∀ r ∈ rs, r.Defined) ↔ NoSingleton f epsilon keys ∧ ∀ r ∈ rs, r.EndsFit := by
  constructor
  · intro h
    refine ⟨?_, fun r hr => ((Duty.defined_iff (hle r hr)).mp (h r hr)).2⟩
    refine (cut_makeSegmentation f epsilon hsort).two_le_of_calls
      (P := fun c => ¬ c.DividesByZero ∧ c.result.2.IsNum)
      (fun first _ pos => ((hsingle first pos).divides (hsize first pos)).2) fun c hc => ?_
    rw [← hcalls] at hc
    obtain ⟨r, hr, rfl⟩ := List.mem_map.mp hc
    exact ⟨(h r hr).safe, (h r hr).intercept⟩
  · rintro ⟨hnone, hfit⟩ r hr
    refine (Duty.defined_iff (hle r hr)).mpr ⟨?_, hfit r hr⟩
    exact calls_safe hends hsort (.inl hnone) _ (hcalls ▸ List.mem_map_of_mem hr)

end Calls

theorem endKeys_leafCall : EndKeys (leafCall (D := Checked)) :=
  ⟨fun _ _ _ _ => rfl, fun _ _ _ => rfl⟩

theorem endKeys_innerCall (bnf : Nat → Nat) : EndKeys (innerCall (D := Checked) bnf) :=
  ⟨fun _ _ _ _ => rfl, fun _ _ _ => rfl⟩

/-- leaf の `size` は 16 である。 -/
theorem size_leafCall (epsilon : Nat) (first : Key) (pos : Nat) :
    1 < (leafCall (f.segment (f.start epsilon first pos) first 1) [first] pos).size :=
  (by decide : 1 < sub32 (LeafNode.blockNumberFor 1 % 2 ^ 32) 2 * leafSlotsPerBlock)

/-- `bulk_load` の inner node の `size` は 8 である。 -/
theorem size_loadCall (epsilon : Nat) (first : Key) (pos : Nat) :
    1 < (innerCall innerBlocksForLoad (f.segment (f.start epsilon first pos) first 1) [first]
      pos).size :=
  (by decide : 1 < sub32 (innerBlocksForLoad 1 % 2 ^ 32) 3 * innerSlotsPerBlock)

/-- `rebuild_inner_nodes` の inner node の `size` は 0 である。 -/
theorem size_rebuildCall (epsilon : Nat) (first : Key) (pos : Nat) :
    ¬ 1 < (innerCall innerBlocksForRebuild (f.segment (f.start epsilon first pos) first 1) [first]
      pos).size :=
  (by decide : ¬ 1 < sub32 (innerBlocksForRebuild 1 % 2 ^ 32) 3 * innerSlotsPerBlock)

theorem le_getLastD (hsort : keys.Pairwise (· < ·)) : ∀ k ∈ keys, k ≤ keys.getLastD freeFlag := by
  rcases List.eq_nil_or_concat keys with rfl | ⟨front, z, rfl⟩
  · simp
  · rw [List.concat_eq_append, List.getLastD_concat]
    intro k hk
    rcases List.mem_append.mp hk with hk | hk
    · rw [List.concat_eq_append, List.pairwise_append] at hsort
      exact (hsort.2.2 k hk z (by simp)).le
    · exact (List.mem_singleton.mp hk).le

/-- `bulk_load` の node の変換が定まる条件。 -/
theorem loadDuties_defined_iff (hf : f.Sound) (hsort : keys.Pairwise (· < ·)) :
    (∀ r ∈ loadDuties f keys, r.Defined) ↔
      LoadNoSingleton f keys ∧ ∀ r ∈ loadDuties f keys, r.EndsFit := by
  have hlast := le_getLastD hsort
  have hleaf := duties_defined_iff endKeys_leafCall hsort (leafCall_single hf epsilonLeafNode)
    (size_leafCall epsilonLeafNode) (map_call_duties _)
    (duties_nonempty leafSlotsPerBlock endKeys_leafCall hsort hlast)
  have hlevel : ∀ level ∈ levelKeys f ((leafFirstKeys f keys).length + 1) (leafFirstKeys f keys),
      _ := fun level hlevel => by
    obtain ⟨hs, hsub⟩ := levelKeys_spec f _ (sorted_firstKeys f epsilonLeafNode hsort) level hlevel
    exact duties_defined_iff (endKeys_innerCall innerBlocksForLoad) hs
      (innerCall_single hf innerBlocksForLoad epsilonInnerNode) (size_loadCall epsilonInnerNode)
      (map_call_duties _)
      (duties_nonempty innerSlotsPerBlock (endKeys_innerCall innerBlocksForLoad) hs fun k hk =>
        hlast k (firstKeys_subset f epsilonLeafNode hsort k (hsub k hk)))
  unfold loadDuties LoadNoSingleton
  simp only [List.forall_mem_append, List.forall_mem_flatMap]
  unfold leafCalls
  rw [hleaf]
  constructor
  · rintro ⟨⟨hnone, hfit⟩, h⟩
    exact ⟨⟨hnone, fun level hl => ((hlevel level hl).mp (h level hl)).1⟩, hfit,
      fun level hl => ((hlevel level hl).mp (h level hl)).2⟩
  · rintro ⟨⟨hnone, hnones⟩, hfit, h⟩
    exact ⟨⟨hnone, hfit⟩, fun level hl => (hlevel level hl).mpr ⟨hnones level hl, h level hl⟩⟩

/-- `bulk_load` が 0 で割らない条件。 -/
theorem loadCalls_safe_iff (hf : f.Sound) (hsort : keys.Pairwise (· < ·))
    (hfin : ∀ k ∈ keys, k.InRange) :
    (∀ c ∈ loadCalls f keys, ¬ c.DividesByZero) ↔ LoadNoSingleton f keys := by
  have hleaf := calls_safe_iff endKeys_leafCall hsort (leafCall_single hf epsilonLeafNode)
    (size_leafCall epsilonLeafNode) hfin
  have hlevel : ∀ level ∈ levelKeys f ((leafFirstKeys f keys).length + 1) (leafFirstKeys f keys),
      (∀ c ∈ innerCalls f innerBlocksForLoad level, ¬ c.DividesByZero) ↔
        NoSingleton f epsilonInnerNode level := fun level hlevel => by
    obtain ⟨hs, hsub⟩ := levelKeys_spec f _ (sorted_firstKeys f epsilonLeafNode hsort) level hlevel
    exact calls_safe_iff (endKeys_innerCall innerBlocksForLoad) hs
      (innerCall_single hf innerBlocksForLoad epsilonInnerNode) (size_loadCall epsilonInnerNode)
      fun k hk => hfin k (firstKeys_subset f epsilonLeafNode hsort k (hsub k hk))
  unfold loadCalls levelCalls LoadNoSingleton
  rw [List.forall_mem_append, List.forall_mem_flatMap]
  exact and_congr hleaf (forall₂_congr hlevel)

/-- `rebuild_inner_nodes` は 0 で割らない。 -/
theorem rebuildCalls_safe (hf : f.Sound) (hsort : keys.Pairwise (· < ·)) :
    ∀ c ∈ rebuildCalls f keys, ¬ c.DividesByZero := by
  intro c hc
  obtain ⟨level, hlevel, hc⟩ := List.mem_flatMap.mp hc
  obtain ⟨hs, -⟩ := levelKeys_spec f _ hsort level hlevel
  refine calls_safe (endKeys_innerCall innerBlocksForRebuild) hs (.inr fun first pos => ?_) c hc
  exact (innerCall_single hf innerBlocksForRebuild epsilonInnerNode first pos).safe
    (size_rebuildCall epsilonInnerNode first pos)

theorem map_call_loadDuties (f : Fitter Checked) (keys : List Key) :
    (loadDuties f keys).map Duty.call = loadCalls f keys := by
  simp [loadDuties, loadCalls, levelCalls, List.map_flatMap]

theorem map_call_rebuildDuties (f : Fitter Checked) (keys : List Key) (last : Key) :
    (rebuildDuties f keys last).map Duty.call = rebuildCalls f keys := by
  simp [rebuildDuties, rebuildCalls, levelCalls, List.map_flatMap]

theorem map_call_splitDuties (f : Fitter Checked) (keys : List Key) (last : Key) :
    (splitDuties f keys last).map Duty.call = leafCalls f keys := by
  rw [splitDuties, List.map_map]
  exact List.map_id _

/-- `rebuild_inner_nodes` の node の変換が定まる条件。 -/
theorem rebuildDuties_defined_iff (hf : f.Sound) (hsort : keys.Pairwise (· < ·))
    (hlast : ∀ k ∈ keys, k ≤ last) :
    (∀ r ∈ rebuildDuties f keys last, r.Defined) ↔ ∀ r ∈ rebuildDuties f keys last, r.EndsFit := by
  refine forall₂_congr fun r hr => ?_
  have hsafe := rebuildCalls_safe hf hsort r.call
    (map_call_rebuildDuties f keys last ▸ List.mem_map_of_mem hr)
  obtain ⟨level, hlevel, hr⟩ := List.mem_flatMap.mp hr
  obtain ⟨hs, hsub⟩ := levelKeys_spec f _ hsort level hlevel
  have hle := duties_nonempty innerSlotsPerBlock (endKeys_innerCall innerBlocksForRebuild) hs
    (fun k hk => hlast k (hsub k hk)) r hr
  rw [Duty.defined_iff hle, and_iff_right hsafe]

/-- `split` の新しい leaf の変換が定まる条件。 -/
theorem splitDuties_defined_iff (hf : f.Sound) (hsort : keys.Pairwise (· < ·))
    (hlast : ∀ k ∈ keys, k ≤ last) :
    (∀ r ∈ splitDuties f keys last, r.Defined) ↔
      NoSingleton f epsilonLeafNode keys ∧ ∀ r ∈ splitDuties f keys last, r.EndsFit := by
  refine duties_defined_iff endKeys_leafCall hsort (leafCall_single hf epsilonLeafNode)
    (size_leafCall epsilonLeafNode) (map_call_splitDuties f keys last) fun r hr => ?_
  obtain ⟨c, hc, rfl⟩ := List.mem_map.mp hr
  have hkeys := (cut_makeSegmentation f epsilonLeafNode hsort).minKeys endKeys_leafCall.minKey
  refine hlast _ (firstKeys_subset f epsilonLeafNode hsort _ ?_)
  rw [← hkeys]
  exact List.mem_map_of_mem hc

end Build

/-- 丸めの無い計算による `Fitter`。係数はいつも数である。 -/
def checkedFitter : Fitter Checked where
  State := Hull
  start := Hull.start
  second := Hull.second
  extend := Hull.extend
  line state first := (num (state.line first).1, num (state.line first).2)

theorem sound_checkedFitter : checkedFitter.Sound where
  onePoint epsilon k i := by
    have hone : (Hull.start epsilon k i).onePoint = true := by simp [Hull.onePoint, Hull.start]
    have hline : (Hull.start epsilon k i).line k = (0, (i : ℚ)) := by
      unfold Hull.line
      rw [if_pos hone]
      simp only [Hull.start, Hull.above, Hull.below, Prod.mk.injEq, true_and]
      push_cast
      ring
    show (num _, num _) = _
    rw [show (checkedFitter.start epsilon k i).line k = (0, (i : ℚ)) from hline]

instance (r : Duty Checked) : Decidable r.EndsFit := inferInstanceAs (Decidable (_ ∧ _))

instance (c : CorrectionCall Checked) : Decidable c.DividesByZero :=
  inferInstanceAs (Decidable (_ ∧ _))

end Plin
