import Mathlib.Data.Nat.Bitwise

/-!
# 最上位 bit を lock に使う 32 bit の語

最上位 bit が lock、残りの 31 bit が数である。語を読む側は lock の bit だけを見るか、数だけを見る。
**語の値が、lock の bit と数にどう分かれるか**を、`&`、`|`、加減算のそれぞれについて述べる。
-/

namespace Plin.Infra

/-- `lockSet`。 -/
def lockSet : UInt32 := 0x80000000

/-- `lockMask`。 -/
def lockMask : UInt32 := 0x7FFFFFFF

/-- lock の bit が立っているか。 -/
def Locked (w : UInt32) : Prop := w &&& lockSet ≠ 0

instance (w : UInt32) : Decidable (Locked w) := inferInstanceAs (Decidable (_ ≠ _))

/-- 下位 31 bit の数。 -/
def low (w : UInt32) : Nat := (w &&& lockMask).toNat

theorem low_eq (w : UInt32) : low w = w.toNat % 2 ^ 31 := by
  rw [low, UInt32.toNat_and]
  exact Nat.and_two_pow_sub_one_eq_mod w.toNat 31

theorem locked_iff {w : UInt32} : Locked w ↔ 2 ^ 31 ≤ w.toNat := by
  have hlt : w.toNat < 2 ^ 32 := w.toNat_lt
  have hbit : w.toNat.testBit 31 = decide (2 ^ 31 ≤ w.toNat) := by
    rw [Nat.testBit_eq_decide_div_mod_eq]
    refine decide_eq_decide.mpr ?_
    omega
  have hand : (w &&& lockSet).toNat = (w.toNat.testBit 31).toNat * 2 ^ 31 := by
    rw [UInt32.toNat_and]
    exact Nat.and_two_pow w.toNat 31
  rw [Locked, ne_eq, ← UInt32.toNat_inj, hand, hbit]
  simp

theorem not_locked_iff {w : UInt32} : ¬ Locked w ↔ w.toNat = low w := by
  have hlt : w.toNat < 2 ^ 32 := w.toNat_lt
  rw [locked_iff, low_eq]
  omega

theorem low_lt (w : UInt32) : low w < 2 ^ 31 := by
  rw [low_eq]
  exact Nat.mod_lt _ (by decide)

@[simp] theorem not_locked_zero : ¬ Locked 0 := by decide

@[simp] theorem low_zero : low 0 = 0 := by decide

/-- lock を掛けても数は変わらない。 -/
theorem toNat_or_lockSet {w : UInt32} (h : ¬ Locked w) :
    (w ||| lockSet).toNat = w.toNat + 2 ^ 31 := by
  have hlt : w.toNat < 2 ^ 31 := by
    rw [locked_iff] at h
    omega
  rw [UInt32.toNat_or, Nat.lor_comm]
  have := Nat.two_pow_add_eq_or_of_lt hlt 1
  rw [show lockSet.toNat = 2 ^ 31 * 1 from rfl, ← this]
  omega

theorem locked_or_lockSet {w : UInt32} (h : ¬ Locked w) : Locked (w ||| lockSet) := by
  rw [locked_iff, toNat_or_lockSet h]
  omega

theorem low_or_lockSet {w : UInt32} (h : ¬ Locked w) : low (w ||| lockSet) = low w := by
  rw [low_eq, low_eq, toNat_or_lockSet h]
  omega

/-- 数を一つ増やしても、31 bit に収まる限り lock の bit には触れない。 -/
theorem succ_spec {w : UInt32} (h : ¬ Locked w) (hlow : low w + 1 < 2 ^ 31) :
    ¬ Locked (w + 1) ∧ low (w + 1) = low w + 1 := by
  rw [not_locked_iff] at h
  have hn : (w + 1).toNat = w.toNat + 1 := by
    rw [UInt32.toNat_add]
    exact Nat.mod_eq_of_lt (by rw [show (1 : UInt32).toNat = 1 from rfl]; omega)
  rw [locked_iff, low_eq (w + 1), hn]
  omega

/-- 数を一つ減らしても、0 でない限り lock の bit には触れない。 -/
theorem pred_spec {w : UInt32} (hlow : 0 < low w) :
    (Locked (w - 1) ↔ Locked w) ∧ low (w - 1) + 1 = low w := by
  rw [low_eq] at hlow
  have hlt : w.toNat < 2 ^ 32 := w.toNat_lt
  have hle : (1 : UInt32) ≤ w := by
    rw [UInt32.le_iff_toNat_le, show (1 : UInt32).toNat = 1 from rfl]
    omega
  have hn : (w - 1).toNat = w.toNat - 1 := by
    rw [UInt32.toNat_sub_of_le _ _ hle, show (1 : UInt32).toNat = 1 from rfl]
  rw [locked_iff, locked_iff, low_eq, low_eq, hn]
  omega

theorem not_locked_and_lockMask (w : UInt32) : ¬ Locked (w &&& lockMask) := by
  have h : (w &&& lockMask).toNat = low w := rfl
  have := low_lt w
  rw [locked_iff, h]
  omega

end Plin.Infra
