import Plin.Properties.ParamCodec

/-!
# 受け入れた表での予測

`load_from_push` は段の長さを調べない。`predict_pos` は段ごとに `size - 1` で添字を抑えるので、空の段では
`size_t` が折り返して列の外を読む。**どの鍵でも列の外を読まないのは、空の段が無いときに限る**
（`predictPos_inside_iff`）。読む段は鍵に依らないので、鍵を選んでも避けられない。
-/

namespace Plin

open Infra

namespace LocalModel

variable [DoubleBits]

/-- 空でない段では、抑えた添字は列の中にある。 -/
theorem predictLevel_isSome_iff (params : List ParamBits) (value : UInt64) :
    (predictLevel params value).isSome ↔ params ≠ [] := by
  unfold predictLevel
  dsimp only
  generalize (params.takeWhile fun p => DoubleBits.ge value p.firstKey).length = k
  constructor
  · rintro h rfl
    cases h
  · intro h
    have hpos := List.length_pos_iff.mpr h
    have hlt : (if params.length ≤ k then params.length - 1 else k) < params.length := by
      split <;> omega
    rw [List.getElem?_eq_getElem hlt]
    rfl

theorem foldlM_predictLevel_isSome_iff (levels : ParamTable) :
    ∀ value : UInt64, (levels.foldlM (fun value params => predictLevel params value) value).isSome ↔
      ∀ level ∈ levels, level ≠ [] := by
  induction levels with
  | nil => simp
  | cons level levels ih =>
    intro value
    rw [List.foldlM_cons, List.forall_mem_cons, ← predictLevel_isSome_iff level value]
    cases predictLevel level value with
    | none => simp
    | some next => simpa using ih next

end LocalModel

/-- 表の段の読み方は鍵に依らないので、列の外を読むかどうかは表だけで決まる。 -/
theorem ParentPlinCache.predictPos_isSome_iff [DoubleBits] (cache : ParentPlinCache)
    (key : UInt64) :
    (cache.predictPos key).isSome ↔ ∀ level ∈ cache.parameter, level ≠ [] := by
  unfold predictPos
  split
  · next h => simp [h]
  · rw [LocalModel.predictPos, Option.isSome_map, LocalModel.foldlM_predictLevel_isSome_iff]
    simp only [List.mem_reverse]

/--
**受け入れた表での予測が列の外を読まないのは、どの段も空でないとき、またそのときに限る。**

拒まれた本文では元の表が残るので、同じことがその表について言える。
-/
theorem predictPos_inside_iff [DoubleBits] (mem : Memory) (garbage : Nat → UInt64)
    (cache : ParentPlinCache) (data : Bytes) :
    (∀ key, ((cache.loadFromPush mem garbage data).2.predictPos key).isSome) ↔
      ∀ level ∈ (cache.loadFromPush mem garbage data).2.parameter, level ≠ [] := by
  generalize (cache.loadFromPush mem garbage data).2 = loaded
  constructor
  · exact fun h => (loaded.predictPos_isSome_iff 0).mp (h 0)
  · exact fun h key => (loaded.predictPos_isSome_iff key).mpr h

/-- 空の段を一つ持つ表は受け入れられ、どの鍵でも列の外を読む。 -/
theorem predictPos_emptyLevel :
    (ParentPlinCache.mk []).loadFromPush smallMemory (fun _ => 7) (makeParamPush [[]]).body =
        (none, ⟨[[]]⟩) ∧
      (ParentPlinCache.mk [[]]).predictPos (Float.toBits 5) = none := by
  decide +kernel

end Plin
