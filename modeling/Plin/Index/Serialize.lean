import Plin.Infra.Bytes

/-!
# parameter の直列化（`serialize.h` / `cache_model.h`）

Edge は inner node の model の表を byte 列にして End に送る。表は段の列、段は `Param` の列で、どちらも
8 byte の長さの後に中身が続く。`Param` は 8 byte の field 四つである。field は bit 列のまま写されるので、
ここでも 64 bit の値として持つ。

読む側の `std::istream` は、byte が足りなくても例外を投げない。**届いた分だけを書き、失敗の印を付け、
以後は何もしない**。読み先は、長さなら初期化されていない変数、`Param` なら `resize` が 0 にした field で
ある。初期化されていない値は読むたびに違ってよいので、読む回数の関数 `garbage` として受け取る。

`vector::resize` は大きすぎると例外を投げる。投げない長さの上限を `Memory` に持つ。
-/

namespace Plin

open Infra

/-- `Param`。field は 64 bit の列のまま持つ。 -/
structure ParamBits where
  firstKey : UInt64
  slope : UInt64
  intercept : UInt64
  blockNum : UInt64
  deriving DecidableEq

/-- `std::vector<std::vector<Param>>`。 -/
abbrev ParamTable := List (List ParamBits)

/-! ## 書く -/

namespace ParamBits

/-- `Param::serialize`。 -/
def serialize (p : ParamBits) : Bytes :=
  leBytes 8 p.firstKey.toNat ++ leBytes 8 p.slope.toNat ++ leBytes 8 p.intercept.toNat ++
    leBytes 8 p.blockNum.toNat

end ParamBits

/-- `serialize_vector_of_params`。 -/
def serializeVectorOfParams (vec : List ParamBits) : Bytes :=
  leBytes 8 vec.length ++ vec.flatMap ParamBits.serialize

/-- `serialize_parameter`。 -/
def serializeParameter (parameter : ParamTable) : Bytes :=
  leBytes 8 parameter.length ++ parameter.flatMap serializeVectorOfParams

/-! ## 読む -/

/-- `std::istringstream`。 -/
structure IStream where
  bytes : Bytes
  failed : Bool
  deriving DecidableEq

/-- `deserialize_parameter` の投げる例外。 -/
inductive ParamFault where
  /-- `outer_size > 100`。 -/
  | outerSize
  /-- `resize` の失敗。 -/
  | resize
  deriving DecidableEq

/-- `resize` が例外を投げない長さの上限。`vector<Param>::max_size()` を超えない。 -/
structure Memory where
  capacity : Nat
  bounded : capacity ≤ (2 ^ 63 - 1) / 32

namespace IStream

/-- 8 byte の変数への `read`。`old` は変数の元の値である。 -/
def readWord (old : Nat) (is : IStream) : Nat × IStream :=
  if is.failed then (old, is)
  else if 8 ≤ is.bytes.length then
    (ofLeBytes (is.bytes.take 8), { is with bytes := is.bytes.drop 8 })
  else (ofLeBytes (is.bytes ++ (leBytes 8 old).drop is.bytes.length), ⟨[], true⟩)

/-- 0 で初期化された field への `read`。 -/
def readField (is : IStream) : UInt64 × IStream :=
  let (w, is) := is.readWord 0
  (UInt64.ofNat w, is)

end IStream

/-- `Param::deserialize`。 -/
def ParamBits.deserialize (is : IStream) : ParamBits × IStream :=
  let (firstKey, is) := is.readField
  let (slope, is) := is.readField
  let (intercept, is) := is.readField
  let (blockNum, is) := is.readField
  (⟨firstKey, slope, intercept, blockNum⟩, is)

/-- `deserialize_vector_of_params` の loop。 -/
def deserializeParams : Nat → IStream → List ParamBits × IStream
  | 0, is => ([], is)
  | n + 1, is =>
    let (p, is) := ParamBits.deserialize is
    let (vec, is) := deserializeParams n is
    (p :: vec, is)

section Deserialize

variable (mem : Memory) (garbage : Nat → UInt64)

/-- `deserialize_vector_of_params`。`call` は長さを読む何回目かである。 -/
def deserializeVectorOfParams (call : Nat) (is : IStream) :
    Except ParamFault (List ParamBits × IStream) :=
  let (size, is) := is.readWord (garbage call).toNat
  if mem.capacity < size then .error .resize else .ok (deserializeParams size is)

/-- `deserialize_parameter` の loop。 -/
def deserializeLevels : Nat → (call : Nat) → IStream → Except ParamFault (ParamTable × IStream)
  | 0, _, is => .ok ([], is)
  | n + 1, call, is => do
    let (vec, is) ← deserializeVectorOfParams mem garbage call is
    let (rest, is) ← deserializeLevels n (call + 1) is
    return (vec :: rest, is)

/-- `deserialize_parameter`。 -/
def deserializeParameter (is : IStream) : Except ParamFault (ParamTable × IStream) :=
  let (outerSize, is) := is.readWord (garbage 0).toNat
  if 100 < outerSize then .error .outerSize else deserializeLevels mem garbage outerSize 1 is

end Deserialize

/-! ## 予測 -/

/-- `double` の bit 列の演算。値の意味は使わない。 -/
class DoubleBits where
  mul : UInt64 → UInt64 → UInt64
  add : UInt64 → UInt64 → UInt64
  div : UInt64 → UInt64 → UInt64
  ge : UInt64 → UInt64 → Bool
  half : UInt64
  ofNat : Nat → UInt64
  /-- `float` への丸め。 -/
  toFloat : UInt64 → UInt64
  toInt64 : UInt64 → Int
  toInt32 : UInt64 → Int32

namespace LocalModel

variable [DoubleBits]

/-- `local_model::predict_block`。`block_num` は `uint32_t` に切り詰められる。 -/
def predictBlock (key slope intercept : UInt64) (blockNumber : Nat) : Nat :=
  let bn := blockNumber % 2 ^ 32
  let position := DoubleBits.add (DoubleBits.add (DoubleBits.mul key slope)
    (DoubleBits.toFloat intercept)) DoubleBits.half
  let predicted := DoubleBits.toInt64 (DoubleBits.div position (DoubleBits.ofNat 8))
  if predicted < 0 then 0
  else if (((bn + 2 ^ 32 - 4) % 2 ^ 32 : Nat) : Int) < predicted then (bn + 2 ^ 32 - 2) % 2 ^ 32
  else (predicted + 1).toNat % 2 ^ 32

/-- 一つの段の予測。空の段では列の外を読むので `none` とする。 -/
def predictLevel (params : List ParamBits) (value : UInt64) : Option UInt64 := do
  let k := (params.takeWhile fun p => DoubleBits.ge value p.firstKey).length
  let p ← params[if params.length ≤ k then params.length - 1 else k]?
  some (DoubleBits.ofNat (predictBlock value p.slope p.intercept p.blockNum.toNat * 8))

/-- `local_model::predict_pos`。段を上から下へたどる。 -/
def predictPos (parameter : ParamTable) (key : UInt64) : Option Int32 :=
  (parameter.reverse.foldlM (fun value params => predictLevel params value) key).map
    DoubleBits.toInt32

end LocalModel

end Plin
