import Plin.Properties.ParamCodec
import Plin.Index.Exact
import Plin.Index.PlinIndex

/-!
# 予測した block の範囲

三つの `predict_block` は、予測した block を `block_number - 3` や `block_number - 4` と比べて抑える。
引き算は `uint32_t` なので、`block_number` が小さいと折り返し、抑えが効かなくなる。

block 数の式は三つあり、最小の値が違う。leaf の式は 3 以上、`bulk_load` の inner node の式は 4 以上なので
抑えはいつも効く。`rebuild_inner_nodes` の式だけは、鍵が一つの区分で 3 になる。
**予測がはみ出しうるのは、この一つの場合だけである**（`predictBlock_inside_iff`）。
-/

namespace Plin

/-! ## 抑え -/

/-- inner node の抑え。`bn` は `uint32_t` に切り詰めて渡される。 -/
theorem innerClamp_lt {bn : Nat} (h4 : 4 ≤ bn) (predicted : Int) :
    (if predicted < 0 then 0
      else if (sub32 (bn % 2 ^ 32) 4 : Int) < predicted then sub32 (bn % 2 ^ 32) 2
      else (predicted + 1).toNat % 2 ^ 32) < bn := by
  unfold sub32
  by_cases h32 : bn < 2 ^ 32
  · split
    · omega
    · split <;> omega
  · -- 折り返した後でも `2 ^ 32` は超えない
    split
    · omega
    · split <;> omega

/-- leaf の抑え。 -/
theorem leafClamp_lt {bn : Nat} (h3 : 3 ≤ bn) (predicted : Int) :
    (if predicted < 0 then 0
      else if (sub32 (bn % 2 ^ 32) 3 : Int) < predicted then sub32 (bn % 2 ^ 32) 1
      else (predicted + 1).toNat % 2 ^ 32) < bn := by
  unfold sub32
  by_cases h32 : bn < 2 ^ 32
  · split
    · omega
    · split <;> omega
  · split
    · omega
    · split <;> omega

/-! ## 三つの式 -/

/-- node の種類。`split` の leaf は `bulk_load` の leaf と同じ式を使う。 -/
inductive NodeKind where
  | leaf
  | loadInner
  | rebuildInner
  deriving DecidableEq

/-- 鍵が `number` 個の区分から作る node の block 数。 -/
def NodeKind.blockNumber : NodeKind → Nat → Nat
  | .leaf => LeafNode.blockNumberFor
  | .loadInner => innerBlocksForLoad
  | .rebuildInner => innerBlocksForRebuild

section

variable (D : Type) [Arith D] [DoubleBits]

/-- どの鍵、傾き、切片でも、予測した block は `bn` より小さい。`bn` は `uint32_t` として渡される。 -/
def NodeKind.PredictsInside (kind : NodeKind) (bn : Nat) : Prop :=
  match kind with
  | .leaf => ∀ (key : Key) (slope intercept : D),
      LeafNode.predictBlock key slope intercept (bn % 2 ^ 32) < bn
  | .loadInner | .rebuildInner =>
      (∀ (key : Key) (slope intercept : D),
        InnerNode.predictBlock key slope intercept (bn % 2 ^ 32) < bn) ∧
      ∀ key slope intercept : UInt64, LocalModel.predictBlock key slope intercept bn < bn

/-- 位置 16 に届く一次式がある。`double` では `0 * 0 + 16 + 0.5` でよい。 -/
def Arith.ReachesSixteen : Prop :=
  ∃ (key : Key) (slope intercept : D),
    Arith.toInt64 (position key slope intercept / Arith.ofNat innerSlotsPerBlock) = 2

variable {D}

theorem leaf_predictsInside {bn : Nat} (h3 : 3 ≤ bn) : NodeKind.leaf.PredictsInside D bn :=
  fun _ _ _ => leafClamp_lt h3 _

theorem inner_predictsInside {kind : NodeKind} (hkind : kind ≠ .leaf) {bn : Nat} (h4 : 4 ≤ bn) :
    kind.PredictsInside D bn := by
  cases kind with
  | leaf => exact absurd rfl hkind
  | loadInner => exact ⟨fun _ _ _ => innerClamp_lt h4 _, fun _ _ _ => innerClamp_lt h4 _⟩
  | rebuildInner => exact ⟨fun _ _ _ => innerClamp_lt h4 _, fun _ _ _ => innerClamp_lt h4 _⟩

/-- block が三つの inner node では、位置 16 の鍵が外に出る。 -/
theorem not_predictsInside_three (hreach : Arith.ReachesSixteen D) :
    ¬ NodeKind.rebuildInner.PredictsInside D 3 := by
  rintro ⟨hinner, -⟩
  obtain ⟨key, slope, intercept, htwo⟩ := hreach
  have hlt := hinner key slope intercept
  have hblock : InnerNode.predictBlock key slope intercept (3 % 2 ^ 32) = 3 := by
    unfold InnerNode.predictBlock
    rw [htwo]
    decide
  omega

/--
**予測した block が `block_number` に収まるのは、`rebuild_inner_nodes` が鍵一つの区分から作った
inner node でないとき、またそのときに限る。**
-/
theorem predictBlock_inside_iff (hreach : Arith.ReachesSixteen D) (kind : NodeKind) {n : Nat}
    (hn : 1 ≤ n) :
    kind.PredictsInside D (kind.blockNumber n) ↔ ¬ (kind = .rebuildInner ∧ n = 1) := by
  constructor
  · rintro h ⟨rfl, rfl⟩
    exact not_predictsInside_three hreach h
  · intro h
    cases kind with
    | leaf => exact leaf_predictsInside (Nat.le_add_left 3 _)
    | loadInner =>
      have h4 : 4 ≤ innerBlocksForLoad n := by
        unfold innerBlocksForLoad epsilonInnerNode innerSlotsPerBlock
        omega
      exact inner_predictsInside (by decide) h4
    | rebuildInner =>
      have hn2 : n ≠ 1 := fun hc => h ⟨rfl, hc⟩
      have h4 : 4 ≤ innerBlocksForRebuild n := by
        unfold innerBlocksForRebuild epsilonInnerNode innerSlotsPerBlock
        omega
      exact inner_predictsInside (by decide) h4

end

/-- 有理数の演算は位置 16 に届く。 -/
theorem reachesSixteen_rat : Arith.ReachesSixteen ℚ :=
  ⟨Key.ofNat 0, 0, 16, by decide +kernel⟩

/-- 鍵が二つの区分から作り直した inner node では、予測ははみ出さない。 -/
theorem predictBlock_inside_iff_two :
    NodeKind.rebuildInner.PredictsInside ℚ (innerBlocksForRebuild 2) :=
  (predictBlock_inside_iff reachesSixteen_rat .rebuildInner (by decide)).mpr (by decide)

/-- 鍵が一つの区分から作り直した inner node は三つの block を持ち、位置 16 の鍵を block 3 に送る。 -/
theorem predictBlock_rebuild_single :
    innerBlocksForRebuild 1 = 3 ∧
      InnerNode.predictBlock (Key.ofNat 0) (0 : ℚ) 16 (innerBlocksForRebuild 1 % 2 ^ 32) = 3 := by
  decide +kernel

end Plin
