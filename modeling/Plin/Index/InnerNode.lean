import Plin.Index.LeafNode

/-!
# inner node（`inner_node.h`）

inner node は 8 slot の block の列である。子の slot は model が予測した block に置き、block が
いっぱいなら後ろの最初の空き slot にあふれさせる。探索は予測した block の先頭から始め、
**空きか鍵より大きければ左へ、そうでなければ右へ**進む。

slot の列の外を読むことと `assert` の失敗は `none` にする。探索は子の inner node へ再帰するので、
上限 `fuel` を渡す。`upsert_node` が親 slot に取る lock は同じ関数の中で放されるので持たない。
-/

namespace Plin

/-- `InnerSlotsPerBlock`。 -/
def innerSlotsPerBlock : Nat := 8

/-- inner node の番地。 -/
abbrev InnerId := Nat

/-- inner node の header と slot の列。 -/
structure InnerNode (D : Type) where
  slope : D
  intercept : D
  blockNumber : Nat
  firstKey : Key
  slots : List (InnerSlot D)

namespace InnerSlot

variable {D : Type}

/-- 空きの slot か。 -/
def isFree (s : InnerSlot D) : Bool := s.minKey = freeFlag

end InnerSlot

namespace InnerNode

variable {D : Type} [Arith D]

/-- `predict_block` が `int64_t` に変換する値が収まっているか。収まらなければ `predict_block` は定まらない。 -/
def fits (key : Key) (slope intercept : D) : Bool :=
  Arith.fitsInt64 (position key slope intercept / Arith.ofNat innerSlotsPerBlock)

/-- `predict_block`。比較と減算は `uint32_t` で行われる。 -/
def predictBlock (key : Key) (slope intercept : D) (blockNumber : Nat) : Nat :=
  let predicted := Arith.toInt64 (position key slope intercept / Arith.ofNat innerSlotsPerBlock)
  if predicted < 0 then 0
  else if (sub32 blockNumber 4 : Int) < predicted then sub32 blockNumber 2
  else (predicted + 1).toNat % 2 ^ 32

/-- 予測した block の先頭の slot の番号。 -/
def predictSlot (key : Key) (slope intercept : D) (blockNumber : Nat) : Nat :=
  predictBlock key slope intercept blockNumber * innerSlotsPerBlock

/-! ## 構築 -/

/--
`data_placement`。予測した block の先頭から見て最初の空き slot に置く。空きが無ければ `assert` に
失敗する。予測した block の 8 slot は `block_number` に関わらず調べられる。
-/
def dataPlacement (nd : InnerNode D) (key : Key) (node : InnerSlot D) : Option (InnerNode D) :=
  let slot := predictSlot key nd.slope nd.intercept nd.blockNumber
  let bound := max (slot + innerSlotsPerBlock) (nd.blockNumber * innerSlotsPerBlock)
  match ((nd.slots.take bound).drop slot).findIdx? InnerSlot.isFree with
  | none => none
  | some i => some { nd with slots := nd.slots.set (slot + i) node }

/-- 構築の前半。model を定め、空きの slot を並べる。 -/
def initial (blockNumber : Nat) (keys : List Key) (startPos : Nat) (slope intercept : D) :
    InnerNode D :=
  let first := keys.headD freeFlag
  let last := keys.getLastD freeFlag
  let ratio : D := (0.2 : D)
  let bn := blockNumber % 2 ^ 32
  let model := modelCorrection (slope / ratio)
    (Arith.toFloat
      ((intercept - Arith.ofNat startPos - Arith.ofKey first * slope) / ratio))
    (sub32 bn 3 * innerSlotsPerBlock) first last
  { slope := model.1
    intercept := model.2
    blockNumber := bn
    firstKey := first
    slots := List.replicate (8 * blockNumber) InnerSlot.free }

/-- 子を順に置く。 -/
def placeAll (nd : InnerNode D) : List (Key × InnerSlot D) → Option (InnerNode D)
  | [] => some nd
  | e :: rest => (nd.dataPlacement e.1 e.2).bind fun nd => nd.placeAll rest

/-- 構築子 `InnerNode`。`set_block_number` の `assert` もここで確かめる。 -/
def new (blockNumber : Nat) (data : List (Key × InnerSlot D)) (startPos : Nat)
    (slope intercept : D) : Option (InnerNode D) :=
  ((initial blockNumber (data.map Prod.fst) startPos slope intercept).placeAll data).bind fun nd =>
    if nd.blockNumber < 2 ^ 29 then some nd else none

/-- 構築子の最後に作る親 slot。 -/
def accelerator (nd : InnerNode D) (this : InnerId) : InnerSlot D :=
  { minKey := nd.firstKey, ptr := this, slope := nd.slope, intercept := nd.intercept
    blockNumber := nd.blockNumber, type := true, readLock := false, writeLock := false }

/-! ## 探索 -/

/-- 空きを飛ばして左へ進む loop。 -/
def searchLeft (slots : List (InnerSlot D)) : Nat → Option Nat
  | 0 => none
  | slot + 1 => do
    let s ← slots[slot]?
    if s.isFree then searchLeft slots slot else some slot

/-- 鍵以下の slot が続く間だけ右へ進み、最後の slot を返す loop。 -/
def searchRight (slots : List (InnerSlot D)) (slotNumber : Nat) (key : Key) (slot : Nat) : Nat :=
  slot + (((slots.take slotNumber).drop slot).takeWhile
    fun s => !s.isFree && decide (s.minKey ≤ key)).length - 1

/-- `find_leaf_node` と `upsert_node` に共通の、slot を選ぶ部分。 -/
def search (nd : InnerNode D) (key : Key) (a : InnerSlot D) : Option Nat := do
  let slot := predictSlot key a.slope a.intercept a.blockNumber
  let s ← nd.slots[slot]?
  if s.isFree || decide (key < s.minKey) then searchLeft nd.slots slot
  else some (searchRight nd.slots (a.blockNumber * innerSlotsPerBlock % 2 ^ 32) key slot)

/-- `find_leaf_node`。leaf を指す slot の番地（inner node と slot の番号）を返す。 -/
def findLeafNode (inners : List (InnerNode D)) (key : Key) :
    Nat → InnerId → InnerSlot D → Option (InnerId × Nat)
  | 0, _, _ => none
  | fuel + 1, this, a => do
    let nd ← inners[this]?
    let slot ← nd.search key a
    let s ← nd.slots[slot]?
    if s.type then findLeafNode inners key fuel s.ptr s else some (this, slot)

/-! ## 子の挿入 -/

/--
予測した block の中の空きに、一つずつずらして割り込ませる。

`slot` は探索の結果である。ずらす範囲の終わりは、block の最後の slot から左へ空きを飛ばして求める。
-/
def insertInBlock (nd : InnerNode D) (node : InnerSlot D) (predicted slot : Nat) :
    Option (InnerNode D) := do
  let target :=
    if predicted ≤ slot then
      predicted + 1 + ((nd.slots.drop (predicted + 1)).takeWhile
        fun s => decide (s.minKey ≤ node.minKey)).length
    else predicted
  let last ← searchLeft nd.slots (predicted + innerSlotsPerBlock - 1)
  -- `last + 1` から `target` までを右へ一つずらし、`target` に書く
  if last + 1 ≤ target then
    if target < nd.slots.length then some { nd with slots := nd.slots.set target node } else none
  else some { nd with slots := (nd.slots.eraseIdx (last + 1)).insertIdx target node }

/-- 一つの inner node に対する `upsert_node`。1 は置き換え、2 は挿入、3 は失敗。 -/
def upsertHere (nd : InnerNode D) (node a : InnerSlot D) (slot : Nat) :
    Option (Nat × InnerNode D) := do
  let s ← nd.slots[slot]?
  if s.minKey = node.minKey then some (1, { nd with slots := nd.slots.set slot node })
  else
    let predicted := predictSlot node.minKey a.slope a.intercept a.blockNumber
    let last ← nd.slots[predicted + innerSlotsPerBlock - 1]?
    if last.isFree then (nd.insertInBlock node predicted slot).map fun nd => (2, nd)
    else some (3, nd)

/-- `upsert_node`。 -/
def upsertNode (node : InnerSlot D) :
    Nat → List (InnerNode D) → InnerId → InnerSlot D → Option (Nat × List (InnerNode D))
  | 0, _, _, _ => none
  | fuel + 1, inners, this, a => do
    let nd ← inners[this]?
    let slot ← nd.search node.minKey a
    let s ← nd.slots[slot]?
    if s.type then upsertNode node fuel inners s.ptr s
    else
      let (ret, nd) ← nd.upsertHere node a slot
      some (ret, inners.set this nd)

/-- `get_leftmost_leaf`。 -/
def getLeftmostLeaf (inners : List (InnerNode D)) : Nat → InnerId → Option LeafId
  | 0, _ => none
  | fuel + 1, this => do
    let nd ← inners[this]?
    let s ← nd.slots.find? fun s => !s.isFree
    if s.type then getLeftmostLeaf inners fuel s.ptr else some s.ptr

end InnerNode

end Plin
