import Plin.Index.Key

/-!
# B+ 木の page（`b_plus.h` の `page`）

page は `cardinality` 個の record の固定長配列と、そのうち使っている個数 `record_num` を持つ。
model は使っている record だけの列 `records` を持ち、`record_num` はその長さとする。構築子、`split`、
`erase_pair` のどれもが使わない場所の `val` を null にするので、`count()` の数える record は
この列の中にしかない。配列の大きさを超える読み書きと `assert` の失敗は `Fault` にする。

`val` は `char *` であり、leaf では payload、inner page では子の番地を表す。0 が null である。
-/

namespace Plin

/-- 配列の大きさ `(256 - sizeof(header)) / sizeof(Record)`。`sizeof(header)` は 48 である。 -/
def cardinality : Nat := (256 - 48) / 16

/-- 実行が続けられなくなる理由。 -/
inductive Fault where
  /-- `assert` の失敗。 -/
  | assertFailed
  /-- `records[]` の範囲の外への読み書き。 -/
  | outOfBounds
  /-- null または解放済みの page への参照。 -/
  | nullDeref
  /-- 値を返さずに関数の終わりに達した。 -/
  | noReturn
  /-- `lower_bound` と `upper_bound` の検査による `exit(0)`。 -/
  | exit
  /-- loop の上限に達した。 -/
  | outOfFuel
  deriving DecidableEq

/-- `Record`。 -/
structure Record where
  key : Key
  val : Nat
  deriving DecidableEq

/-- `page`。番地は正の整数で表し、0 を null とする。 -/
structure Page where
  isLeaf : Bool
  nextLeaf : Nat := 0
  prevLeaf : Nat := 0
  parent : Nat := 0
  isDeleted : Bool := false
  records : List Record := []
  deriving DecidableEq

/-- `INT64_MAX`。更新だったことを呼び出し元に知らせる値。 -/
def int64Max : Payload := 0x7FFFFFFFFFFFFFFF

namespace Page

/-- `hdr.record_num`。 -/
def recordNum (p : Page) : Nat := p.records.length

/-- `count`。`val` が null でない record の個数。 -/
def count (p : Page) : Nat := (p.records.filter fun r => r.val ≠ 0).length

/-- `records[i]` の読み出し。使っていない場所の `val` は null である。 -/
def read (p : Page) (i : Nat) : Except Fault Record :=
  if i < cardinality then .ok (p.records.getD i ⟨freeFlag, 0⟩) else .error .outOfBounds

/-- `lower_bound`。鍵が `targetKey` 以上の最初の位置。 -/
def lowerBound (p : Page) (targetKey : Key) : Except Fault Nat :=
  if p.recordNum ≠ p.count then .error .exit
  else .ok (p.records.findIdx fun r => targetKey ≤ r.key)

/-- `upper_bound`。1 番目から見て、鍵が `targetKey` より大きい最初の位置。 -/
def upperBound (p : Page) (targetKey : Key) : Except Fault Nat :=
  if p.recordNum ≠ p.count then .error .exit
  else .ok (1 + p.records.tail.findIdx fun r => targetKey < r.key)

/-- `leaf_lookup`。 -/
def leafLookup (p : Page) (targetKey : Key) : Except Fault (Option Payload) := do
  let id ← p.lowerBound targetKey
  if id ≠ p.count then
    let r ← p.read id
    return if r.key = targetKey then some (UInt64.ofNat r.val) else none
  else return none

/-- `inner_lookup`。鍵を含む部分木の根の番地。 -/
def innerLookup (p : Page) (targetKey : Key) : Except Fault Nat := do
  let id ← p.upperBound targetKey
  let r ← p.read (id - 1)
  return r.val

/-- `insert_pair`。`id` より後ろを一つずつずらして置く。 -/
def insertPair (p : Page) (id : Nat) (key : Key) (val : Nat) : Except Fault Page :=
  if p.recordNum < id then .ok p
  else if p.recordNum < cardinality then
    .ok { p with records := p.records.insertIdx id ⟨key, val⟩ }
  else .error .assertFailed

/--
`insert_in_node`。同じ鍵があれば `val` を書き換え、出力引数の payload を `INT64_MAX` にする。
-/
def insertInNode (p : Page) (key : Key) (payload : Payload) : Except Fault (Page × Payload) := do
  let id ← p.lowerBound key
  let r ← p.read id
  if r.key = key ∧ r.val ≠ 0 then
    return ({ p with records := p.records.set id { r with val := payload.toNat } }, int64Max)
  else
    let p' ← p.insertPair id key payload.toNat
    return (p', payload)

/-- `find_child_rank`。見つからないときの `-1` を `none` とする。 -/
def findChildRank (p : Page) (child : Nat) : Option Nat :=
  p.records.findIdx? fun r => r.val = child

/-- `erase_pair`。 -/
def erasePair (p : Page) (idx : Nat) : Page := { p with records := p.records.eraseIdx idx }

/--
`remove`。`lower_bound` の位置に別の鍵があると、値を返さずに関数の終わりに達する。
-/
def remove (p : Page) (key : Key) : Except Fault Page := do
  let idx ← p.lowerBound key
  if p.recordNum ≤ idx then return p
  else
    let r ← p.read idx
    if r.key = key ∧ r.val ≠ 0 then return p.erasePair idx else .error .noReturn

end Page

end Plin
