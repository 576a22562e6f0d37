import Plin.Index.Key

/-!
# model と親 slot（`utils.h`）

node は鍵から位置を一次式で予測する。その傾きと切片の計算は浮動小数点で行われるが、
索引の性質が使うのは予測の単調性のような粗い事実だけである。そこで `double` の演算は
型 class `Arith` に抽象し、式は source のとおりに書く。性質の側は必要な事実を
仮定として受け取る。

`size - 1` や `block_number - 2` は符号なし整数の引き算なので、source どおり
桁あふれを法で書く（`sub32` / `sub64`）。
-/

namespace Plin

/-- `double` の演算。鍵も `uint64_t` も同じ型に持ち上げて計算する。 -/
class Arith (D : Type) extends Add D, Sub D, Mul D, Div D, OfScientific D where
  ofKey : Key → D
  ofNat : Nat → D
  lt : D → D → Bool
  /-- `int64_t` への変換。0 の方向に切り捨てる。定まるのは `fitsInt64` の値だけである。 -/
  toInt64 : D → Int
  /-- 切り捨てた値が `int64_t` に収まるか。収まらない値の変換の結果は言語が定めない。 -/
  fitsInt64 : D → Bool
  /-- `float` への丸め。切片だけが `float` で保たれる。 -/
  toFloat : D → D

/-- `uint32_t` の引き算。 -/
def sub32 (a b : Nat) : Nat := (a + 2 ^ 32 - b) % 2 ^ 32

/-- `uint64_t` の引き算。 -/
def sub64 (a b : Nat) : Nat := (a + 2 ^ 64 - b) % 2 ^ 64

theorem sub32_eq {a b : Nat} (h : b ≤ a) (ha : a < 2 ^ 32) : sub32 a b = a - b := by
  unfold sub32
  omega

section Model

variable {D : Type} [Arith D]

/-- 予測位置の式 `key * slope + intercept + 0.5`。 -/
def position (key : Key) (slope intercept : D) : D :=
  Arith.ofKey key * slope + intercept + (0.5 : D)

/--
`model_correction`。両端の鍵が slot の範囲 `[0, size)` に届くように一次式を引き伸ばす。

四つの場合のうち最後（すでに両端からはみ出している）は何もしない。
-/
def modelCorrection (slope intercept : D) (size : Nat) (minKey maxKey : Key) : D × D :=
  let minPos := Arith.ofKey minKey * slope + intercept
  let maxPos := Arith.ofKey maxKey * slope + intercept + Arith.ofNat 1
  let range := Arith.ofKey maxKey - Arith.ofKey minKey
  if Arith.lt (Arith.ofNat 0) minPos && Arith.lt maxPos (Arith.ofNat (sub64 size 1) : D) then
    let slope' := Arith.ofNat (sub64 size 1) / range
    (slope', Arith.toFloat (Arith.ofNat 0 - slope' * Arith.ofKey minKey))
  else if Arith.lt (Arith.ofNat 0) minPos then
    let slope' := maxPos / range
    (slope', Arith.toFloat (Arith.ofNat 0 - slope' * Arith.ofKey minKey))
  else if Arith.lt maxPos (Arith.ofNat size) then
    let slope' := (Arith.ofNat size - minPos - Arith.ofNat 1) / range
    (slope', Arith.toFloat (Arith.ofNat (sub64 size 1) - slope' * Arith.ofKey maxKey))
  else (slope, intercept)

end Model

/--
`InnerSlot`。子 node の最小の鍵と、子の model の写し（accelerator）を持つ。

`ptr` は `type` が偽なら leaf、真なら inner node の番地である。`info` の bit 31 と bit 30 が
書き込み lock と読み出し lock、bit 28 から下が `block_number` である。
-/
structure InnerSlot (D : Type) where
  minKey : Key
  ptr : Nat
  slope : D
  intercept : D
  blockNumber : Nat
  type : Bool
  readLock : Bool
  writeLock : Bool

namespace InnerSlot

variable {D : Type}

/-- まだ何も置かれていない slot。`min_key` 以外の field は読まれない。 -/
def free [Arith D] : InnerSlot D :=
  { minKey := freeFlag, ptr := 0, slope := Arith.ofNat 0, intercept := Arith.ofNat 0,
    blockNumber := 0, type := false, readLock := false, writeLock := false }

def getWriteLock (s : InnerSlot D) : InnerSlot D := { s with writeLock := true }

def getReadLock (s : InnerSlot D) : InnerSlot D := { s with readLock := true }

def releaseLock (s : InnerSlot D) : InnerSlot D := { s with readLock := false, writeLock := false }

end InnerSlot

end Plin
