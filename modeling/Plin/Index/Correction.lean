import Plin.Index.PlinIndex

/-!
# `model_correction` の呼び出し

構築子が `model_correction` に渡す引数を、区分の列から取り出す。node を作る順に並べるので、構築が終われば
node の model はこの列の結果そのものである。`assert` で止まる構築でも、止まらなければ呼ばれるはずの分まで並べる。

できた node の `predict_block` は、その node に向かう鍵について計算される。その鍵の範囲を呼び出しに添える
（`Duty`）。
-/

namespace Plin

variable {D : Type}

/-- `model_correction` の引数。 -/
structure CorrectionCall (D : Type) where
  slope : D
  intercept : D
  size : Nat
  minKey : Key
  maxKey : Key

namespace CorrectionCall

variable [Arith D]

/-- 書き換えた後の傾きと切片。 -/
def result (c : CorrectionCall D) : D × D :=
  modelCorrection c.slope c.intercept c.size c.minKey c.maxKey

/-- `max_key - min_key` で割る枝に入るか。四つ目の枝だけは割らない。 -/
def divides (c : CorrectionCall D) : Bool :=
  let minPos := Arith.ofKey c.minKey * c.slope + c.intercept
  let maxPos := Arith.ofKey c.maxKey * c.slope + c.intercept + Arith.ofNat 1
  (Arith.lt (Arith.ofNat 0) minPos && Arith.lt maxPos (Arith.ofNat (sub64 c.size 1) : D)) ||
    Arith.lt (Arith.ofNat 0) minPos || Arith.lt maxPos (Arith.ofNat c.size)

/-- 0 で割る。有限の `double` の差が 0 になるのは、等しいときだけである。 -/
def DividesByZero (c : CorrectionCall D) : Prop := c.divides = true ∧ c.minKey = c.maxKey

end CorrectionCall

section Calls

variable [Arith D]

/-- leaf の構築子の呼び出し。 -/
def leafCall (seg : Segment D) (keys : List Key) (startPos : Nat) : CorrectionCall D :=
  let first := keys.headD freeFlag
  let ratio : D := (0.5 : D) * Arith.ofNat leafRealSlotsPerBlock
  { slope := seg.slope * Arith.ofNat leafSlotsPerBlock / ratio
    intercept := Arith.toFloat
      ((seg.intercept - Arith.ofNat startPos - Arith.ofKey first * seg.slope)
        * Arith.ofNat leafSlotsPerBlock / ratio)
    size := sub32 (LeafNode.blockNumberFor seg.number % 2 ^ 32) 2 * leafSlotsPerBlock
    minKey := first
    maxKey := keys.getLastD freeFlag }

/-- inner node の構築子の呼び出し。 -/
def innerCall (blockNumberFor : Nat → Nat) (seg : Segment D) (keys : List Key) (startPos : Nat) :
    CorrectionCall D :=
  let first := keys.headD freeFlag
  let ratio : D := (0.2 : D)
  { slope := seg.slope / ratio
    intercept := Arith.toFloat
      ((seg.intercept - Arith.ofNat startPos - Arith.ofKey first * seg.slope) / ratio)
    size := sub32 (blockNumberFor seg.number % 2 ^ 32) 3 * innerSlotsPerBlock
    minKey := first
    maxKey := keys.getLastD freeFlag }

/-- 区分を順にたどる呼び出しの列。 -/
def segmentCalls (call : Segment D → List Key → Nat → CorrectionCall D) :
    List (Segment D) → List Key → (startPos : Nat) → List (CorrectionCall D)
  | [], _, _ => []
  | seg :: segs, keys, startPos =>
    call seg (keys.take seg.number) startPos ::
      segmentCalls call segs (keys.drop seg.number) (startPos + seg.number)

/-- leaf を作る呼び出し。`bulk_load` と `split` に共通である。 -/
def leafCalls (f : Fitter D) (keys : List Key) : List (CorrectionCall D) :=
  segmentCalls leafCall (makeSegmentation f epsilonLeafNode keys) keys 0

/-- 段を積む loop が各段で読む鍵の列。 -/
def levelKeys (f : Fitter D) : Nat → List Key → List (List Key)
  | 0, _ => []
  | fuel + 1, keys =>
    let segments := makeSegmentation f epsilonInnerNode keys
    keys :: if rootSize < segments.length then levelKeys f fuel (segments.map (·.firstKey)) else []

/-- 一段の inner node を作る呼び出し。 -/
def innerCalls (f : Fitter D) (blockNumberFor : Nat → Nat) (keys : List Key) :
    List (CorrectionCall D) :=
  segmentCalls (innerCall blockNumberFor) (makeSegmentation f epsilonInnerNode keys) keys 0

/-- すべての段の inner node を作る呼び出し。 -/
def levelCalls (f : Fitter D) (blockNumberFor : Nat → Nat) (fuel : Nat) (keys : List Key) :
    List (CorrectionCall D) :=
  (levelKeys f fuel keys).flatMap (innerCalls f blockNumberFor)

/-- leaf の区分の `first_key`。一番下の段の鍵である。 -/
def leafFirstKeys (f : Fitter D) (keys : List Key) : List Key :=
  (makeSegmentation f epsilonLeafNode keys).map (·.firstKey)

/-- 一つ前の `double`。 -/
def Key.pred (k : Key) : Key := Key.ofOrd (k.ord - 1)

/-- node に向かう鍵の範囲。`call.minKey` から `last` までの鍵である。`width` は block の slot の数である。 -/
structure Duty (D : Type) where
  call : CorrectionCall D
  width : Nat
  last : Key

/-- `predict_block` の `int64_t` への変換が定まる。 -/
def Duty.converts (r : Duty D) (key : Key) : Bool :=
  Arith.fitsInt64 (position key r.call.result.1 r.call.result.2 / Arith.ofNat r.width)

/-- 次の node の鍵の手前まで、最後の node では `last` までの鍵が、その node に向かう。 -/
def duties (width : Nat) (last : Key) : List (CorrectionCall D) → List (Duty D)
  | [] => []
  | c :: calls =>
    ⟨c, width, (calls.head?.map fun d => d.minKey.pred).getD last⟩ :: duties width last calls

/-- `bulk_load` の呼び出し。 -/
def loadCalls (f : Fitter D) (keys : List Key) : List (CorrectionCall D) :=
  leafCalls f keys ++
    levelCalls f innerBlocksForLoad ((leafFirstKeys f keys).length + 1) (leafFirstKeys f keys)

/-- `bulk_load` の後に node に向かう鍵。 -/
def loadDuties (f : Fitter D) (keys : List Key) : List (Duty D) :=
  duties leafSlotsPerBlock (keys.getLastD freeFlag) (leafCalls f keys) ++
    (levelKeys f ((leafFirstKeys f keys).length + 1) (leafFirstKeys f keys)).flatMap fun level =>
      duties innerSlotsPerBlock (keys.getLastD freeFlag) (innerCalls f innerBlocksForLoad level)

/-- `split` の後に新しい leaf に向かう鍵。右の orphan に向かう鍵も、手前の leaf で予測される。 -/
def splitDuties (f : Fitter D) (keys : List Key) (last : Key) : List (Duty D) :=
  (leafCalls f keys).map fun c => ⟨c, leafSlotsPerBlock, last⟩

/-- `rebuild_inner_nodes` の呼び出し。`keys` は連鎖をたどった leaf の `first_key` である。 -/
def rebuildCalls (f : Fitter D) (keys : List Key) : List (CorrectionCall D) :=
  levelCalls f innerBlocksForRebuild (keys.length + 1) keys

/-- `rebuild_inner_nodes` の後に inner node に向かう鍵。 -/
def rebuildDuties (f : Fitter D) (keys : List Key) (last : Key) : List (Duty D) :=
  (levelKeys f (keys.length + 1) keys).flatMap fun level =>
    duties innerSlotsPerBlock last (innerCalls f innerBlocksForRebuild level)

end Calls

end Plin
