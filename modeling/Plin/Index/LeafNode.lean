import Mathlib.Data.List.Sort
import Plin.Infra.SortedMap
import Plin.Index.Utils

/-!
# leaf node（`leaf_node.h`）

leaf は 16 slot の block の列である。各 block の先頭は header で、残りの 15 slot が
`(key, payload)` を持つ。あふれた鍵は header が指す overflow tree に入る。
overflow tree は有限写像として扱う（`btree_plus` の実装は `Plin/BTree/` にある）。

ここは一つの thread から呼ばれたときの意味である。block ごとの lock と version は
逐次実行では取ってすぐ放されるだけなので持たない。leaf 全体の lock 語 `locked` と
`is_abandoned` は分割の後始末に現れるので持つ。

`find` / `upsert` / `remove` は同じ手順で block を選ぶ。source では三度書かれているが、
ここでは `locate` にまとめる。block の先頭の番号は `uint32_t slot` に代入されるので
`2 ^ 32` で折り返す。`data_placement` だけは `uint64_t slot` なので折り返さない。
-/

namespace Plin

open Infra

/-- `LeafSlotsPerBlock`。 -/
def leafSlotsPerBlock : Nat := 16

/-- `LeafRealSlotsPerBlock`。 -/
def leafRealSlotsPerBlock : Nat := leafSlotsPerBlock - 1

/-- leaf の番地。 -/
abbrev LeafId := Nat

structure DataSlot where
  key : Key
  payload : Payload
deriving DecidableEq

/-- 番兵の入った slot。 -/
def DataSlot.isSentinel (s : DataSlot) : Bool := s.key = deleteFlag || s.key = freeFlag

/-- block。`overflow_tree` の `none` は null pointer である。 -/
structure Block where
  overflowTree : Option (SortedMap Key Payload)
  slots : List DataSlot
deriving DecidableEq

/-! ## block の操作 -/

/-- 鍵が `key` の最初の slot を書き換える。該当する slot が無ければ `none`。 -/
def updateFirst (key : Key) (f : DataSlot → DataSlot) : List DataSlot → Option (List DataSlot)
  | [] => none
  | s :: rest => if s.key = key then some (f s :: rest) else (updateFirst key f rest).map (s :: ·)

namespace Block

/-- 構築直後の block。15 slot とも空きで overflow tree は無い。 -/
def init : Block :=
  { overflowTree := none, slots := List.replicate leafRealSlotsPerBlock ⟨freeFlag, 0⟩ }

/-- `find` の block を読む部分。返すのは返り値と `payload` の値である。 -/
def find (b : Block) (key : Key) (payload : Payload) : Nat × Payload :=
  match b.slots.find? (fun s => key = s.key) with
  | some s => (1, s.payload)
  | none =>
    match b.overflowTree.bind (·.find key) with
    | some p => (1, p)
    | none => (0, payload)

/--
`upsert` の block を書く部分。slot の更新、空き slot への挿入、overflow tree の順に試す。

`btree_plus::upsert` は鍵が在れば 3、無ければ 4 を返す。`flag == 2` の枝はこの実装では
到達しないので書かない。
-/
def upsert (b : Block) (key : Key) (payload : Payload) : Nat × Block :=
  match updateFirst key (fun s => { s with payload := payload }) b.slots with
  | some slots => (1, { b with slots := slots })
  | none =>
    match updateFirst freeFlag (fun _ => ⟨key, payload⟩) b.slots with
    | some slots => (2, { b with slots := slots })
    | none =>
      let tree := b.overflowTree.getD SortedMap.empty
      (if (tree.find key).isSome then 3 else 4,
        { b with overflowTree := some (tree.upsert key payload) })

/-- `remove` の block を書く部分。overflow tree があれば番兵は `DELETE_FLAG` にする。 -/
def remove (b : Block) (key : Key) : Nat × Block :=
  let flag := if b.overflowTree.isSome then deleteFlag else freeFlag
  match updateFirst key (fun s => { s with key := flag }) b.slots with
  | some slots => (1, { b with slots := slots })
  | none =>
    match b.overflowTree with
    | none => (0, b)
    | some tree =>
      if (tree.find key).isSome then (2, { b with overflowTree := some (tree.erase key) })
      else (0, b)

/-- `data_placement` の block を書く部分。返す真偽は overflow tree に入れたかどうか。 -/
def place (b : Block) (key : Key) (payload : Payload) : Bool × Block :=
  match updateFirst freeFlag (fun _ => ⟨key, payload⟩) b.slots with
  | some slots => (false, { b with slots := slots })
  | none =>
    let tree := b.overflowTree.getD SortedMap.empty
    (true, { b with overflowTree := some (tree.upsert key payload) })

end Block

/-! ## leaf -/

/--
leaf の header と block の列。

`lastBuildKey` だけは source に無い。構築に使った鍵の最後のもので、
「予測器は最後の鍵より後ろを末尾の block に送る」という仮定を書くために残す。
-/
structure LeafNode (D : Type) where
  slope : D
  intercept : D
  blockNumber : Nat
  prev : Option LeafId
  next : Option LeafId
  firstKey : Key
  overflowNumber : Nat
  numberToSplit : Nat
  /-- bit 0 が split lock、bit 1 が write lock、bit 2 が read lock。 -/
  locked : Nat
  isAbandoned : Bool
  blocks : List Block
  lastBuildKey : Key

namespace LeafNode

variable {D : Type} [Arith D]

/-- `predict_block`。比較と減算は `uint32_t` で行われる。 -/
def predictBlock (key : Key) (slope intercept : D) (blockNumber : Nat) : Nat :=
  let predicted := Arith.toInt64 (position key slope intercept / Arith.ofNat leafSlotsPerBlock)
  if predicted < 0 then 0
  else if (sub32 blockNumber 3 : Int) < predicted then sub32 blockNumber 1
  else (predicted + 1).toNat % 2 ^ 32

/-- leaf 自身の model による予測。 -/
def predict (l : LeafNode D) (key : Key) : Nat :=
  predictBlock key l.slope l.intercept l.blockNumber

/-- block の先頭の番号 `uint32_t slot = block * LeafSlotsPerBlock` が指す block。 -/
def slotBlock (block : Nat) : Nat := block * leafSlotsPerBlock % 2 ^ 32 / leafSlotsPerBlock

/-- `data_placement`。番号は `uint64_t` なので折り返さない。 -/
def dataPlacement (l : LeafNode D) (key : Key) (payload : Payload) : LeafNode D :=
  let block := l.predict key
  match l.blocks[block]? with
  | none => l
  | some b =>
    let (overflowed, b') := b.place key payload
    { l with
      blocks := l.blocks.set block b'
      overflowNumber := if overflowed then l.overflowNumber + 1 else l.overflowNumber }

/-- leaf の block 数の式 `number / (LEAF_NODE_INIT_RATIO * LeafRealSlotsPerBlock) + 3`。 -/
def blockNumberFor (number : Nat) : Nat := number * 2 / 15 + 3

/-- `number_to_split`。`MAX_OVERFLOW_RATIO` は 0.3 である。 -/
def numberToSplitFor (blockNumber : Nat) : Nat := blockNumber * leafRealSlotsPerBlock * 3 / 10

/--
構築の前半。model を定め、空の block を並べる。

`keys` と `payloads` は元の配列の `start_pos` から `number` 個である。
-/
def initial (blockNumber : Nat) (keys : List Key) (startPos : Nat) (slope intercept : D)
    (prev : Option LeafId) : LeafNode D :=
  let first := keys.headD freeFlag
  let last := keys.getLastD freeFlag
  let ratio : D := (0.5 : D) * Arith.ofNat leafRealSlotsPerBlock
  let slope' := slope * Arith.ofNat leafSlotsPerBlock / ratio
  let intercept' := Arith.toFloat
    ((intercept - Arith.ofNat startPos - Arith.ofKey first * slope)
      * Arith.ofNat leafSlotsPerBlock / ratio)
  let bn := blockNumber % 2 ^ 32
  let model := modelCorrection slope' intercept' (sub32 bn 2 * leafSlotsPerBlock) first last
  { slope := model.1
    intercept := model.2
    blockNumber := bn
    prev := prev
    next := none
    firstKey := first
    overflowNumber := 0
    numberToSplit := numberToSplitFor blockNumber
    locked := 0
    isAbandoned := false
    blocks := List.replicate blockNumber Block.init
    lastBuildKey := last }

/-- 構築子 `LeafNode`。model が予測した block に鍵を一つずつ置く。 -/
def new (blockNumber : Nat) (data : List (Key × Payload)) (startPos : Nat) (slope intercept : D)
    (prev : Option LeafId) : LeafNode D :=
  data.foldl (fun l e => l.dataPlacement e.1 e.2)
    (initial blockNumber (data.map Prod.fst) startPos slope intercept prev)

/-- 構築子の最後と `get_info` が作る親 slot。`ptr` は leaf の番地である。 -/
def getInfo (l : LeafNode D) (this : LeafId) : InnerSlot D :=
  { minKey := l.firstKey, ptr := this, slope := l.slope, intercept := l.intercept,
    blockNumber := l.blockNumber % 2 ^ 29, type := false, readLock := false, writeLock := false }

/-! ## lock 語 -/

def checkSplitLock (l : LeafNode D) : Bool := !l.locked.testBit 0

def checkWriteLock (l : LeafNode D) : Option (InnerSlot D) → Bool
  | some accelerator => !accelerator.writeLock
  | none => !l.locked.testBit 1

def checkReadLock (l : LeafNode D) : Option (InnerSlot D) → Bool
  | some accelerator => !accelerator.readLock
  | none => !l.locked.testBit 2

/-- `try_get_split_lock`。取れなければ `none`。 -/
def tryGetSplitLock (l : LeafNode D) : Option (LeafNode D) :=
  if l.locked.testBit 0 then none else some { l with locked := l.locked ||| 1 }

def getWriteLock (l : LeafNode D) : LeafNode D := { l with locked := l.locked + 2 }

def getReadLock (l : LeafNode D) : LeafNode D := { l with locked := l.locked + 4 }

def releaseLock (l : LeafNode D) : LeafNode D := { l with locked := 0 }

/-! ## block を選ぶ -/

/-- `locate` の結果。 -/
inductive Located (D : Type) where
  /-- read lock が掛かっていた。 -/
  | locked
  /-- leaf `leaf` の block `block` を読み書きする。 -/
  | at (leaf : LeafId) (accelerator : Option (InnerSlot D)) (block : Nat)

/--
`find` / `upsert` / `remove` に共通の前半。

予測が末尾の二つの block に入り、隣の leaf の最小の鍵が `key` 以下なら隣に移る
（移った先では accelerator を使わない）。`fuel` が尽きるか、指す先の leaf が無ければ `none`。
-/
def locate (leaves : List (LeafNode D)) (key : Key) :
    Nat → LeafId → Option (InnerSlot D) → Option (Located D)
  | 0, _, _ => none
  | fuel + 1, this, accelerator => do
    let l ← leaves[this]?
    if !l.checkReadLock accelerator then some .locked
    else
      let bn := (accelerator.map (·.blockNumber)).getD l.blockNumber
      let block := match accelerator with
        | some a => predictBlock key a.slope a.intercept a.blockNumber
        | none => l.predict key
      if sub32 bn 2 ≤ block then
        match l.next with
        | none => some (.at this accelerator block)
        | some n => do
          let next ← leaves[n]?
          if next.firstKey ≤ key then locate leaves key fuel n none
          else some (.at this accelerator block)
      else some (.at this accelerator block)

/-- `find`。0 は無し、1 は有り、2 はやり直し。 -/
def find (leaves : List (LeafNode D)) (this : LeafId) (key : Key) (payload : Payload)
    (accelerator : Option (InnerSlot D)) : Option (Nat × Payload) := do
  match ← locate leaves key (leaves.length + 1) this accelerator with
  | .locked => some (2, payload)
  | .at leaf _ block =>
    let l ← leaves[leaf]?
    let b ← l.blocks[slotBlock block]?
    some (b.find key payload)

/-- leaf の書き換えの結果。返り値、書き換えた後の leaf の列、分割すべき leaf。 -/
structure UpsertResult (D : Type) where
  ret : Nat
  leaves : List (LeafNode D)
  leafToSplit : Option LeafId

/-- block を書いた後の後始末。overflow tree に新しく入ったときだけ数えて、分割の要否を決める。 -/
def finishUpsert (l : LeafNode D) (this : LeafId) (accelerator : Option (InnerSlot D))
    (flag : Nat) (blocks : List Block) : Nat × LeafNode D × Option LeafId :=
  let l' := { l with blocks := blocks }
  if flag = 4 then
    let l' := { l' with overflowNumber := l'.overflowNumber + 1 }
    if l'.numberToSplit < l'.overflowNumber then
      (if accelerator.isSome then 5 else 6, l', some this)
    else (4, l', none)
  else (flag, l', none)

/--
`upsert`。1 は slot の更新、2 は空き slot への挿入、3 と 4 は overflow tree の更新と挿入、
5 と 6 は挿入の後に分割が要ることを表す（6 は親 slot を持たない leaf）。7 はやり直し。

捨てられた leaf に書いてしまったときも 7 を返す。
-/
def upsert (leaves : List (LeafNode D)) (this : LeafId) (key : Key) (payload : Payload)
    (accelerator : Option (InnerSlot D)) : Option (UpsertResult D) := do
  match ← locate leaves key (leaves.length + 1) this accelerator with
  | .locked => some ⟨7, leaves, none⟩
  | .at leaf acc block =>
    let l ← leaves[leaf]?
    if !l.checkWriteLock acc then some ⟨7, leaves, none⟩
    else
      let b ← l.blocks[slotBlock block]?
      let (flag, b') := b.upsert key payload
      let (ret, l', split) := l.finishUpsert leaf acc flag (l.blocks.set (slotBlock block) b')
      some ⟨if l.isAbandoned then 7 else ret, leaves.set leaf l', split⟩

/-- `--overflow_number`。`uint64_t` なので 0 の下は `2 ^ 64 - 1` である。 -/
def decOverflow (n : Nat) : Nat := if n = 0 then 2 ^ 64 - 1 else n - 1

/-- `remove`。1 は slot から、2 は overflow tree から消した。0 は無し、3 はやり直し。 -/
def remove (leaves : List (LeafNode D)) (this : LeafId) (key : Key)
    (accelerator : Option (InnerSlot D)) : Option (Nat × List (LeafNode D)) := do
  match ← locate leaves key (leaves.length + 1) this accelerator with
  | .locked => some (3, leaves)
  | .at leaf acc block =>
    let l ← leaves[leaf]?
    if !l.checkWriteLock acc then some (3, leaves)
    else
      let b ← l.blocks[slotBlock block]?
      let (ret, b') := b.remove key
      let l' := { l with blocks := l.blocks.set (slotBlock block) b' }
      let l' := if ret = 2 then { l' with overflowNumber := decOverflow l'.overflowNumber } else l'
      some (ret, leaves.set leaf l')

/-! ## `get_data` -/

/--
整列した slot と overflow tree の中身を併合する loop。

slot の指が番兵に当たると残りの slot は読まれず、overflow tree の残りだけが続く。
-/
def mergeData : List DataSlot → List (Key × Payload) → List (Key × Payload)
  | [], os => os
  | s :: ss, os =>
    if s.isSentinel then os
    else os.takeWhile (fun o => o.1 < s.key)
      ++ (s.key, s.payload) :: mergeData ss (os.dropWhile (fun o => o.1 < s.key))

/-- block の slot をその場で整列する。 -/
def sortBlock (b : Block) : Block :=
  { b with slots := b.slots.insertionSort (fun x y => x.key ≤ y.key) }

/-- 一つの block から読み出す組。 -/
def blockData (b : Block) : List (Key × Payload) :=
  match b.overflowTree with
  | some tree => mergeData (b.slots.dropWhile DataSlot.isSentinel) tree.entries
  | none => (b.slots.filter (fun s => !s.isSentinel)).map fun s => (s.key, s.payload)

/-- `get_data`。整列した組の列と、slot を並べ替えた後の leaf を返す。 -/
def getData (l : LeafNode D) : List (Key × Payload) × LeafNode D :=
  let blocks := l.blocks.map sortBlock
  let temp := blocks.flatMap blockData
  let sorted := temp.insertionSort (fun a b => a.1 ≤ b.1)
  (sorted.filter (fun e => e.1 ≠ freeFlag), { l with blocks := blocks })

end LeafNode

end Plin
