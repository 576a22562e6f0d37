import Plin.Index.InnerNode
import Plin.Index.Segmentation

/-!
# 索引全体（`plin_index.h`）

leaf と inner node は heap に置き、番地（heap の中の番号）で互いを指す。捨てられた node も heap に
残る（source では解放が遅れるか、解放された後は触られない）。

ここは一つの thread から呼ばれたときの意味である。分割と再構築は、それを起こした `upsert` の中で
最後まで実行される。`smo_lock` / `rebuilding` / log / version は逐次実行では取ってすぐ放されるだけ
なので持たない。書き込みの lock と `is_abandoned` は分割の後始末に現れるので持つ。

`debug` と file への出力は状態を変えないので省く。`left_buffer_number` などの数えるだけの field、
`level`、`valid` も読まれないので省く。
-/

namespace Plin

open Infra

/-- 実行が続けられなくなる理由。 -/
inductive IndexFault where
  /-- `InnerNode` の構築の `assert` の失敗。 -/
  | innerAssert
  /-- `LeafNode` の構築の `assert`（`block_number < 2^29`）の失敗。 -/
  | leafAssert
  /-- 配列や heap の外への参照。 -/
  | outOfBounds
  /-- 終わらない再試行。 -/
  | retryForever
  deriving DecidableEq

/-- 参照に失敗したら `outOfBounds` とする。 -/
def orFault {α : Type} : Option α → Except IndexFault α
  | some a => .ok a
  | none => .error .outOfBounds

/-- `Param`。End に送る inner node の model。 -/
structure Param (D : Type) where
  firstKey : Key
  slope : D
  intercept : D
  blockNum : Nat

/-- `t_record`。 -/
structure TRecord where
  key : Key
  addr : LeafId
deriving DecidableEq

/-- `ROOT_SIZE`。 -/
def rootSize : Nat := 8

/-- slot の番地。 -/
inductive SlotAddr where
  | root (i : Nat)
  | inner (node : InnerId) (slot : Nat)
deriving DecidableEq

/-- `plin_metadata` と `meta_table`、それに heap。 -/
structure PlinIndex (D : Type) where
  leaves : List (LeafNode D)
  inners : List (InnerNode D)
  roots : List (InnerSlot D)
  minKey : Key
  maxKey : Key
  leftBuffer : SortedMap Key Payload
  rightBuffer : SortedMap Key Payload
  leafNumber : Nat
  orphanNumber : Nat
  localTable : List TRecord
  parameter : List (List (Param D))

/-! ## leaf の列の構築 -/

section Build

variable {D : Type} [Arith D]

/-- 区分ごとの leaf を順に作り、heap に足す。`bulk_load` と `split` に共通である。 -/
def buildLeaves : List (Segment D) → List (Key × Payload) → (startPos : Nat) →
    (prev : Option LeafId) → List (LeafNode D) → Except IndexFault (List (LeafNode D))
  | [], _, _, _, heap => .ok heap
  | seg :: segs, data, startPos, prev, heap =>
    let bn := LeafNode.blockNumberFor seg.number
    let leaf := LeafNode.new bn (data.take seg.number) startPos seg.slope seg.intercept prev
    if leaf.blockNumber < 2 ^ 29 then
      buildLeaves segs (data.drop seg.number) (startPos + seg.number) (some heap.length)
        (heap ++ [leaf])
    else .error .leafAssert

/-- `set_next`。 -/
def setNext (leaves : List (LeafNode D)) (id : LeafId) (next : Option LeafId) :
    List (LeafNode D) :=
  leaves.modify id fun l => { l with next := next }

/-- `set_prev`。 -/
def setPrevLeaf (leaves : List (LeafNode D)) (id : LeafId) (prev : Option LeafId) :
    List (LeafNode D) :=
  leaves.modify id fun l => { l with prev := prev }

/-- `leaf_nodes[i]->set_next(leaf_nodes[i + 1])` の loop。新しい leaf は heap の末尾に並んでいる。 -/
def linkNext (leaves : List (LeafNode D)) (first : LeafId) : Nat → List (LeafNode D)
  | 0 => leaves
  | count + 1 => setNext (linkNext leaves first count) (first + count) (some (first + count + 1))

/-! ## inner node の段の構築 -/

/-- 区分ごとの inner node を順に作り、heap に足す。 -/
def buildInners (blockNumberFor : Nat → Nat) :
    List (Segment D) → List (Key × InnerSlot D) → (startPos : Nat) → List (InnerNode D) →
    Except IndexFault (List (InnerNode D) × List (InnerSlot D) × List (Param D))
  | [], _, _, heap => .ok (heap, [], [])
  | seg :: segs, data, startPos, heap =>
    let bn := blockNumberFor seg.number
    match InnerNode.new bn (data.take seg.number) startPos seg.slope seg.intercept with
    | none => .error .innerAssert
    | some nd => do
      let (heap', accelerators, params) ← buildInners blockNumberFor segs (data.drop seg.number)
        (startPos + seg.number) (heap ++ [nd])
      let a := nd.accelerator heap.length
      let param : Param D :=
        { firstKey := seg.firstKey, slope := a.slope, intercept := a.intercept, blockNum := bn }
      return (heap', a :: accelerators, param :: params)

/-- 段の構築の結果。 -/
structure Built (D : Type) where
  inners : List (InnerNode D)
  roots : List (InnerSlot D)
  parameter : List (List (Param D))

/--
inner node の段を、根が `ROOT_SIZE` 個以下になるまで積む loop。`bulk_load` と
`rebuild_inner_nodes` に共通で、block 数の式だけが違う。

`segments` は全段の区分を貯める列であり、`offset` はこの段の区分の始まりである。
-/
def buildLevels (f : Fitter D) (blockNumberFor : Nat → Nat) :
    Nat → (segments : List (Segment D)) → (offset : Nat) → (firstKeys : List Key) →
    (accelerators : List (InnerSlot D)) → List (InnerNode D) → List (List (Param D)) →
    Except IndexFault (Built D)
  | 0, _, _, _, _, _, _ => .error .retryForever
  | fuel + 1, segments, offset, firstKeys, accelerators, heap, params => do
    let segments := segments ++ makeSegmentation f epsilonInnerNode firstKeys
    let level := segments.drop offset
    let (heap, accelerators', param) ←
      buildInners blockNumberFor level (firstKeys.zip accelerators) 0 heap
    let params := params ++ [param]
    if rootSize < level.length then
      buildLevels f blockNumberFor fuel segments (offset + level.length) (level.map (·.firstKey))
        accelerators' heap params
    else return { inners := heap, roots := accelerators', parameter := params }

/-- `bulk_load` の inner node の block 数。 -/
def innerBlocksForLoad (number : Nat) : Nat :=
  number * 5 / 8 + epsilonInnerNode / innerSlotsPerBlock + 3

/-- `rebuild_inner_nodes` の inner node の block 数。 -/
def innerBlocksForRebuild (number : Nat) : Nat :=
  number * 5 / 8 + epsilonInnerNode / innerSlotsPerBlock + 2

end Build

namespace PlinIndex

variable {D : Type} [Arith D]

/-- 作りたての索引に対する `bulk_load`。 -/
def bulkLoad (f : Fitter D) (data : List (Key × Payload)) : Except IndexFault (PlinIndex D) :=
  match data with
  | [] => .error .outOfBounds
  | first :: rest => do
    let keys := data.map Prod.fst
    let segments := makeSegmentation f epsilonLeafNode keys
    let lastN := segments.length
    let leaves ← buildLeaves segments data 0 none []
    let leaves := linkNext leaves 0 (lastN - 1)
    let firstKeys := segments.map (·.firstKey)
    let accelerators := leaves.mapIdx fun i l => l.getInfo i
    let built ← buildLevels f innerBlocksForLoad (lastN + 1) segments lastN firstKeys accelerators
      [] []
    return {
      leaves := leaves
      inners := built.inners
      roots := built.roots
      minKey := first.1
      maxKey := (rest.getLastD first).1
      leftBuffer := .empty
      rightBuffer := .empty
      leafNumber := lastN % 2 ^ 32
      orphanNumber := 0
      localTable := firstKeys.mapIdx fun i k => ⟨k, i⟩
      parameter := built.parameter }

/-! ## 探索 -/

/-- slot を読む。 -/
def readSlot (s : PlinIndex D) : SlotAddr → Option (InnerSlot D)
  | .root i => s.roots[i]?
  | .inner node slot => do (← s.inners[node]?).slots[slot]?

/-- slot を書き換える。 -/
def modifySlot (s : PlinIndex D) (f : InnerSlot D → InnerSlot D) : SlotAddr → PlinIndex D
  | .root i => { s with roots := s.roots.modify i f }
  | .inner node slot =>
    { s with inners := s.inners.modify node fun nd => { nd with slots := nd.slots.modify slot f } }

/-- 鍵以下の最後の根を選ぶ loop。 -/
def selectRoot (s : PlinIndex D) (key : Key) : Option Nat :=
  match (s.roots.takeWhile fun r => decide (r.minKey ≤ key)).length with
  | 0 => none
  | i + 1 => some i

/-- `find` / `upsert` / `remove` に共通の、leaf を指す slot を求める部分。 -/
def descend (s : PlinIndex D) (key : Key) : Option SlotAddr := do
  let i ← s.selectRoot key
  let a ← s.roots[i]?
  if a.type then
    let (node, slot) ← InnerNode.findLeafNode s.inners key (s.inners.length + 1) a.ptr a
    some (.inner node slot)
  else some (.root i)

/--
`find`。返り値と `payload` の値を返す。

状態を変えないので、やり直しになる場合（slot か leaf に read lock が掛かっている）は終わらない。
-/
def find (s : PlinIndex D) (key : Key) (payload : Payload) : Except IndexFault (Bool × Payload) :=
  if s.minKey ≤ key ∧ key ≤ s.maxKey then do
    let addr ← orFault (s.descend key)
    let a ← orFault (s.readSlot addr)
    if a.readLock then .error .retryForever
    else
      let (ret, payload) ← orFault (LeafNode.find s.leaves a.ptr key payload (some a))
      if ret = 2 then .error .retryForever else return (ret == 1, payload)
  else
    match (if key < s.minKey then s.leftBuffer.find key else s.rightBuffer.find key) with
    | some p => return (true, p)
    | none => return (false, payload)

/-- `find_through_net`。返すのは `find` の leaf の返り値と `payload` の値である。 -/
def findThroughNet (s : PlinIndex D) (key : Key) (payload : Payload) (logicId : Int) :
    Except IndexFault (Nat × Payload) := do
  let (_, payload) ← s.find key payload
  let logicId := if logicId < 0 then 0 else logicId
  -- 比較は `uint32_t` で行われる
  let last := sub32 s.leafNumber 1
  let logicId := if last < logicId.toNat then last else logicId.toNat
  let record ← orFault s.localTable[logicId]?
  if s.minKey ≤ key ∧ key ≤ s.maxKey then
    let leaf ← orFault s.leaves[record.addr]?
    if !leaf.checkReadLock none then .error .retryForever
    else orFault (LeafNode.find s.leaves record.addr key payload none)
  else return (0, payload)

/-! ## 分割 -/

/-- 索引全体の `upsert_node`。失敗した node は orphan になる。 -/
def upsertNode (s : PlinIndex D) (node : InnerSlot D) : Option (PlinIndex D) := do
  let i ← s.selectRoot node.minKey
  let a ← s.roots[i]?
  let (ret, inners) ← InnerNode.upsertNode node (s.inners.length + 1) s.inners a.ptr a
  some { s with
    inners := inners
    leafNumber := if 1 < ret then (s.leafNumber + 1) % 2 ^ 32 else s.leafNumber
    orphanNumber := if 2 < ret then (s.orphanNumber + 1) % 2 ^ 32 else s.orphanNumber }

/-- `get_leftmost_leaf`。 -/
def getLeftmostLeaf (s : PlinIndex D) : Option LeafId := do
  let a ← s.roots[0]?
  InnerNode.getLeftmostLeaf s.inners (s.inners.length + 1) a.ptr

/-- `rebuild_inner_nodes` の最初の loop。連鎖を `count` 個たどって leaf の番地を集める。 -/
def walkChain (leaves : List (LeafNode D)) : Nat → Option LeafId → Option (List LeafId)
  | 0, _ => some []
  | count + 1, id => do
    let id ← id
    let l ← leaves[id]?
    let rest ← walkChain leaves count l.next
    some (id :: rest)

/-- `rebuild_inner_nodes`。`leaf_number` 個の leaf から inner node の段を作り直す。 -/
def rebuildInnerNodes (f : Fitter D) (s : PlinIndex D) : Except IndexFault (PlinIndex D) := do
  let first ← orFault s.getLeftmostLeaf
  let ids ← orFault (walkChain s.leaves s.leafNumber (some first))
  let accelerators ← orFault (ids.mapM fun id => (s.leaves[id]?).map fun l => l.getInfo id)
  let built ← buildLevels f innerBlocksForRebuild (s.leafNumber + 1) [] 0
    (accelerators.map (·.minKey)) accelerators s.inners []
  return { s with
    inners := built.inners, roots := built.roots, orphanNumber := 0, parameter := built.parameter }

/-- `pess_insert_tabel` の挿入。鍵が小さくない最初の位置に入れる。 -/
def insertRecord (table : List TRecord) (r : TRecord) : List TRecord :=
  table.takeWhile (fun t => decide (t.key < r.key)) ++
    r :: table.dropWhile (fun t => decide (t.key < r.key))

/-- `pess_insert_tabel`。分割した leaf の行を消し、新しい leaf の行を入れる。 -/
def pessInsertTable (table : List TRecord) (addr : LeafId) (round : List TRecord) :
    List TRecord :=
  round.foldl insertRecord (table.eraseP fun t => t.addr = addr)

/-- 新しい leaf の slot を親に入れていく loop。 -/
def upsertNodes (s : PlinIndex D) : List (InnerSlot D) → Option (PlinIndex D)
  | [] => some s
  | node :: rest => do (← s.upsertNode node).upsertNodes rest

/-- leaf を書き換える。 -/
def setLeaf (s : PlinIndex D) (id : LeafId) (l : LeafNode D) : PlinIndex D :=
  { s with leaves := s.leaves.set id l }

/-- 番地の leaf の split lock を取る。 -/
def lockNeighbor (leaves : List (LeafNode D)) (id : Option LeafId) :
    Option (LeafId × LeafNode D) := do
  let id ← id
  let l ← leaves[id]?
  let l ← l.tryGetSplitLock
  some (id, l)

/--
分割する leaf と両隣の split lock を取る部分。一つでも取れなければ、取った lock を放して分割を
やめる。両端の leaf は隣が足りないので分割されない。
-/
def splitLocks (leaves : List (LeafNode D)) (x : LeafId) :
    List (LeafNode D) × Option (LeafId × LeafId) :=
  match lockNeighbor leaves (some x) with
  | none => (leaves, none)
  | some (_, leaf) =>
    match lockNeighbor leaves leaf.prev with
    | none => (leaves.set x leaf.releaseLock, none)
    | some (left, l) =>
      match lockNeighbor leaves leaf.next with
      | none => ((leaves.set left l.releaseLock).set x leaf.releaseLock, none)
      | some (right, r) => (((leaves.set x leaf).set left l).set right r, some (left, right))

/-- 分割する leaf、または親 slot に write lock と read lock を掛ける。 -/
def lockForSplit (s : PlinIndex D) (x : LeafId) : Option SlotAddr → PlinIndex D
  | some a => s.modifySlot (fun slot => slot.getWriteLock.getReadLock) a
  | none => { s with leaves := s.leaves.modify x fun l => l.getWriteLock.getReadLock }

/-- 分割の後の lock の解放。親 slot を持つ leaf の split lock は放されない。 -/
def unlockAfterSplit (s : PlinIndex D) (x : LeafId) : Option SlotAddr → PlinIndex D
  | some a => s.modifySlot InnerSlot.releaseLock a
  | none => { s with leaves := s.leaves.modify x LeafNode.releaseLock }

/-- heap の `first` 番目から後に足された leaf の slot。 -/
def newAccelerators (leaves : List (LeafNode D)) (first : LeafId) : List (InnerSlot D) :=
  (leaves.drop first).mapIdx fun i l => l.getInfo (first + i)

/-- `MAX_ORPHAN_RATIO`（0.05）を超えたか。 -/
def tooManyOrphans (s : PlinIndex D) : Bool := s.leafNumber < 20 * s.orphanNumber

/--
`split` のうち leaf を作る部分。`x` の中身を学習し直した leaf を heap に足し、両隣とつなぐ。
`x` は捨てられるが heap には残る。
-/
def retrain (f : Fitter D) (leaves : List (LeafNode D)) (x left right : LeafId) :
    Except IndexFault (List (LeafNode D)) := do
  let leaf ← orFault leaves[x]?
  let segments := makeSegmentation f epsilonLeafNode (leaf.getData.1.map Prod.fst)
  let lastN := segments.length
  if lastN = 0 then .error .outOfBounds
  else
    let first := leaves.length
    let leaves ← buildLeaves segments leaf.getData.1 0 (some left)
      (leaves.set x { leaf.getData.2 with isAbandoned := true })
    let leaves := linkNext leaves first (lastN - 1)
    let leaves := setNext leaves (first + lastN - 1) (some right)
    let leaves := setNext leaves left (some first)
    return setPrevLeaf leaves right (some (first + lastN - 1))

/-- 新しい leaf を親に知らせる部分。orphan の分割では、増えた個数を数えるだけである。 -/
def placeNodes (s : PlinIndex D) (nodes : List (InnerSlot D)) :
    Option SlotAddr → Option (PlinIndex D)
  | some _ => s.upsertNodes nodes
  | none => some { s with orphanNumber := (s.orphanNumber + (nodes.length - 1)) % 2 ^ 32 }

/--
`split`。leaf `x` を新しい leaf の列に置き換える。`accelerator` は `x` を指す親 slot の番地であり、
orphan では `none` である。
-/
def split (f : Fitter D) (s : PlinIndex D) (x : LeafId) (accelerator : Option SlotAddr) :
    Except IndexFault (PlinIndex D) :=
  match splitLocks s.leaves x with
  | (leaves, none) => .ok { s with leaves := leaves }
  | (leaves, some (left, right)) => do
    -- read lock は学習の後に掛かるが、逐次実行ではどこでも同じである
    let s := lockForSplit { s with leaves := leaves } x accelerator
    let leaves ← retrain f s.leaves x left right
    let nodes := newAccelerators leaves s.leaves.length
    let s ← orFault (placeNodes { s with leaves := leaves } nodes accelerator)
    let round := nodes.map fun a => TRecord.mk a.minKey a.ptr
    let s := { s with localTable := pessInsertTable s.localTable x round }
    let s := s.unlockAfterSplit x accelerator
    let leaves := (s.leaves.modify left LeafNode.releaseLock).modify right LeafNode.releaseLock
    let s := { s with leaves := leaves }
    if s.tooManyOrphans then s.rebuildInnerNodes f else return s

/-! ## 書き込み -/

/-- leaf の書き込みが分割を求めたときの後始末。 -/
def afterUpsert (f : Fitter D) (s : PlinIndex D) (addr : SlotAddr) (ret : Nat)
    (leafToSplit : Option LeafId) : Except IndexFault (PlinIndex D) :=
  match leafToSplit with
  | some x =>
    if ret = 5 then s.split f x (some addr)
    else if ret = 6 then s.split f x none
    else .ok s
  | none => .ok s

/--
区間の中の鍵に対する `upsert` の loop。leaf に split lock が掛かっているか、leaf が 7 を返すと
やり直す。`fuel` はやり直しの回数の上限である。
-/
def upsertInner (f : Fitter D) (key : Key) (payload : Payload) :
    Nat → PlinIndex D → Except IndexFault (PlinIndex D)
  | 0, _ => .error .retryForever
  | fuel + 1, s => do
    let addr ← orFault (s.descend key)
    let a ← orFault (s.readSlot addr)
    let leaf ← orFault s.leaves[a.ptr]?
    if !leaf.checkSplitLock then upsertInner f key payload fuel s
    else
      let r ← orFault (LeafNode.upsert s.leaves a.ptr key payload (some a))
      let s := { s with leaves := r.leaves }
      let s ← s.afterUpsert f addr r.ret r.leafToSplit
      if r.ret = 7 then upsertInner f key payload fuel s else return s

/-- `upsert`。 -/
def upsert (f : Fitter D) (fuel : Nat) (s : PlinIndex D) (key : Key) (payload : Payload) :
    Except IndexFault (PlinIndex D) :=
  if s.minKey < key ∧ key < s.maxKey then upsertInner f key payload fuel s
  else if key < s.minKey then .ok { s with leftBuffer := s.leftBuffer.upsert key payload }
  else .ok { s with rightBuffer := s.rightBuffer.upsert key payload }

/-- `remove`。leaf が 3（やり直し）を返すときは状態が変わっていないので終わらない。 -/
def remove (s : PlinIndex D) (key : Key) : Except IndexFault (PlinIndex D) :=
  if s.minKey < key ∧ key < s.maxKey then do
    let addr ← orFault (s.descend key)
    let a ← orFault (s.readSlot addr)
    let (ret, leaves) ← orFault (LeafNode.remove s.leaves a.ptr key (some a))
    if ret = 3 then .error .retryForever else return { s with leaves := leaves }
  else if key < s.minKey then .ok { s with leftBuffer := s.leftBuffer.erase key }
  else .ok { s with rightBuffer := s.rightBuffer.erase key }

end PlinIndex

end Plin
