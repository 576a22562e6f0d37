import Mathlib.Order.Basic
import Mathlib.Order.Defs.LinearOrder
import Mathlib.Algebra.Order.Ring.Rat
import Mathlib.Data.Int.Order.Basic

/-!
# 鍵と番兵

`parameters.h` の `_key_t`（`double`）と、空き slot と削除済み slot の印に使う二つの番兵を置く。

index が鍵にすることは大小と等値の比較だけなので、鍵は **NaN でない `double`** を
大小の順に並べた番号で持つ。IEEE 754 の binary64 は符号と絶対値の表現なので、
符号 bit を除いた 63 bit を整数と読み、符号を付ければ番号になる（`0.0` と `-0.0` は
比較では区別されないので同じ番号になる）。番号の最大 `infOrd` が無限大である。

番兵は source の式どおり Lean の `Float`（binary64）で計算してから番号に直す。
`max() - 1` は `max()` に丸められるので、**二つの番兵は同じ値である**（`deleteFlag_eq`）。
-/

namespace Plin

/-- 正の無限大の bit 列を整数と読んだもの。 -/
def infOrd : Int := 0x7FF0000000000000

/-- `_key_t` の値。NaN でない `double` を大小の順の番号で表す。 -/
structure Key where
  ord : Int
  lower : -infOrd ≤ ord
  upper : ord ≤ infOrd

namespace Key

@[ext] theorem ext {a b : Key} (h : a.ord = b.ord) : a = b := by
  cases a; cases b; cases h; rfl

instance : DecidableEq Key := fun a b => decidable_of_iff (a.ord = b.ord) ⟨ext, congrArg ord⟩

instance : LE Key := ⟨fun a b => a.ord ≤ b.ord⟩

instance : LT Key := ⟨fun a b => a.ord < b.ord⟩

instance (a b : Key) : Decidable (a ≤ b) := inferInstanceAs (Decidable (a.ord ≤ b.ord))

instance (a b : Key) : Decidable (a < b) := inferInstanceAs (Decidable (a.ord < b.ord))

theorem le_def {a b : Key} : a ≤ b ↔ a.ord ≤ b.ord := Iff.rfl

theorem lt_def {a b : Key} : a < b ↔ a.ord < b.ord := Iff.rfl

instance : LinearOrder Key where
  le_refl a := Int.le_refl a.ord
  le_trans a b c := Int.le_trans (a := a.ord)
  lt_iff_le_not_ge a b := by simp only [le_def, lt_def]; omega
  le_antisymm a b h₁ h₂ := ext (Int.le_antisymm h₁ h₂)
  le_total a b := Int.le_total a.ord b.ord
  toDecidableLE := inferInstance
  toDecidableEq := inferInstance
  toDecidableLT := inferInstance

/-- 番号から鍵を作る。範囲の外は無限大に潰す。 -/
def ofOrd (i : Int) : Key :=
  ⟨max (-infOrd) (min infOrd i), by omega, by have : 0 ≤ infOrd := by decide
                                              omega⟩

theorem ord_ofOrd {i : Int} (h₁ : -infOrd ≤ i) (h₂ : i ≤ infOrd) : (ofOrd i).ord = i := by
  show max (-infOrd) (min infOrd i) = i
  omega

/-- `double` の bit 列から鍵を作る。 -/
def ofFloat (x : Float) : Key :=
  let bits := x.toBits.toNat
  if bits < 2 ^ 63 then ofOrd bits else ofOrd (-(bits - 2 ^ 63 : Nat))

/-- 非負整数の値をもつ鍵。`2 ^ 53` より小さければ丸めは起きない。 -/
def ofNat (n : Nat) : Key :=
  if n = 0 then ofOrd 0
  else ofOrd (((n.log2 + 1022) * 2 ^ 52 + n * 2 ^ (52 - n.log2) : Nat) : Int)

/-- 正の整数の鍵の番号。指数部は `log2` で、仮数部の最上位 bit は立っている。 -/
theorem ord_ofNat {n : Nat} (hpos : 0 < n) (hn : n < 2 ^ 53) :
    (ofNat n).ord = ((n.log2 + 1022) * 2 ^ 52 + n * 2 ^ (52 - n.log2) : Nat) ∧
      2 ^ 52 ≤ n * 2 ^ (52 - n.log2) ∧ n * 2 ^ (52 - n.log2) < 2 ^ 53 := by
  have hne : n ≠ 0 := by omega
  have hlog : n.log2 < 53 := (Nat.log2_lt hne).mpr hn
  have hlow : 2 ^ n.log2 ≤ n := Nat.log2_self_le hne
  have hhigh : n < 2 ^ (n.log2 + 1) := Nat.lt_log2_self
  have hsplit : 2 ^ n.log2 * 2 ^ (52 - n.log2) = 2 ^ 52 := by
    rw [← Nat.pow_add]
    congr 1
    omega
  have hmin : 2 ^ 52 ≤ n * 2 ^ (52 - n.log2) := by
    rw [← hsplit]
    exact Nat.mul_le_mul_right _ hlow
  have hmax : n * 2 ^ (52 - n.log2) < 2 ^ 53 := by
    have := Nat.mul_lt_mul_of_pos_right hhigh (Nat.two_pow_pos (52 - n.log2))
    rw [Nat.pow_succ, Nat.mul_right_comm, hsplit] at this
    exact this
  have hinf : infOrd = 0x7FF0000000000000 := rfl
  refine ⟨?_, hmin, hmax⟩
  rw [ofNat, if_neg hne]
  exact ord_ofOrd (by rw [hinf]; omega) (by rw [hinf]; omega)

/-- `2 ^ 53` より小さい整数の鍵は、整数の順に並ぶ。 -/
theorem ofNat_lt {i j : Nat} (hij : i < j) (hj : j < 2 ^ 53) : ofNat i < ofNat j := by
  obtain ⟨hord, hmin, -⟩ := ord_ofNat (by omega : 0 < j) hj
  rw [lt_def, hord]
  rcases Nat.eq_zero_or_pos i with rfl | hi
  · rw [show (ofNat 0).ord = 0 by decide +kernel]
    omega
  · obtain ⟨hord', -, hmax⟩ := ord_ofNat hi (hij.trans hj)
    rw [hord']
    have hlog : i.log2 ≤ j.log2 :=
      (Nat.le_log2 (by omega)).mpr ((Nat.log2_self_le (by omega)).trans hij.le)
    rcases Nat.lt_or_eq_of_le hlog with hlt | heq
    · omega
    · have := Nat.mul_lt_mul_of_pos_right hij (Nat.two_pow_pos (52 - j.log2))
      rw [heq]
      omega

theorem ofNat_le {i j : Nat} (hij : i ≤ j) (hj : j < 2 ^ 53) : ofNat i ≤ ofNat j := by
  rcases Nat.eq_or_lt_of_le hij with rfl | hlt
  · exact le_rfl
  · exact (ofNat_lt hlt hj).le

/-- `memcpy` で写される `double` の bit 列。`-0.0` は `0.0` と同じ鍵なので、`0.0` の bit 列で代表する。 -/
def bits (k : Key) : Nat := if 0 ≤ k.ord then k.ord.toNat else 2 ^ 63 + (-k.ord).toNat

/-- bit 列を鍵に読む。NaN は鍵でない。 -/
def ofBits (b : Nat) : Option Key :=
  let magnitude : Int := (b % 2 ^ 63 : Nat)
  if infOrd < magnitude then none
  else if b < 2 ^ 63 then some (ofOrd magnitude) else some (ofOrd (-magnitude))

/-- **鍵の bit 列は、同じ鍵に読み戻される。** -/
theorem ofBits_bits (k : Key) : ofBits k.bits = some k := by
  have hinf : infOrd = 0x7FF0000000000000 := rfl
  have hl := k.lower
  have hu := k.upper
  rw [hinf] at hl hu
  by_cases h : 0 ≤ k.ord
  · have hb : k.bits = k.ord.toNat := if_pos h
    have hm : ((k.bits % 2 ^ 63 : Nat) : Int) = k.ord := by omega
    simp only [ofBits, hm]
    rw [if_neg (by omega), if_pos (by omega)]
    exact congrArg some (ext (ord_ofOrd k.lower k.upper))
  · have hb : k.bits = 2 ^ 63 + (-k.ord).toNat := if_neg h
    have hm : ((k.bits % 2 ^ 63 : Nat) : Int) = -k.ord := by omega
    simp only [ofBits, hm]
    rw [if_neg (by omega), if_neg (by omega)]
    refine congrArg some (ext ?_)
    rw [ord_ofOrd (by omega) (by omega)]
    omega

theorem bits_lt (k : Key) : k.bits < 2 ^ 64 := by
  have hinf : infOrd = 0x7FF0000000000000 := rfl
  have hl := k.lower
  have hu := k.upper
  rw [hinf] at hl hu
  rw [bits]
  split <;> omega

/-- 最小の非正規化数 `2 ^ (-1074)` を単位にした鍵の値。正規化数の仮数には暗黙の最上位 bit が付く。 -/
def toUnits (k : Key) : Int :=
  let p := k.ord.natAbs
  let v : Nat := if p < 2 ^ 52 then p else (2 ^ 52 + p % 2 ^ 52) * 2 ^ (p / 2 ^ 52 - 1)
  if 0 ≤ k.ord then v else -v

/-- 鍵の値。 -/
def toRat (k : Key) : ℚ := k.toUnits / 2 ^ 1074

end Key

/-! ## 番兵 -/

/-- `std::numeric_limits<_key_t>::max()`。 -/
def maxDouble : Float := Float.ofBits 0x7FEFFFFFFFFFFFFF

/-- `FREE_FLAG`。空き slot の印。 -/
def freeFlag : Key := Key.ofFloat maxDouble

/-- `DELETE_FLAG`。削除済み slot の印のつもりの値 `max() - 1`。 -/
def deleteFlag : Key := Key.ofFloat (maxDouble - 1)

/-- `1` は `max()` の ulp の半分より小さいので、`max() - 1` は `max()` に丸められる。 -/
theorem deleteFlag_eq : deleteFlag = freeFlag := by decide +kernel

/-- `_payload_t`。 -/
abbrev Payload := UInt64

end Plin
