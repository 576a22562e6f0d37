import Plin.Index.Key

/-!
# RDMA snapshot の組み立て（`rdma_snapshot.h` / `edge_server.cpp`）

Edge は data set の行を leaf の番号ごとに集めた配列 `records` と、各 leaf の区間を指す
`descs` を作り、二つの配列の番地を End に知らせる。End は番地を計算して直接読み出す。

集める手続きは三回の loop からなる。一回目で番号ごとの個数を数え、二回目で区間の始まりを
決め、**`count` を 0 に戻して書き込み位置に転用し**、三回目で行を置いていく。
-/

namespace Plin

/-- `kSnapshotMagic`。 -/
def kSnapshotMagic : Nat := 0x504c5244

/-- `kSnapshotVersion`。 -/
def kSnapshotVersion : Nat := 1

/-- `SnapshotInfo`。Edge が End に送る、二つの配列の番地と大きさ。 -/
structure SnapshotInfo where
  magic : Nat := kSnapshotMagic
  version : Nat := kSnapshotVersion
  descAddr : Nat := 0
  descRkey : Nat := 0
  leafCount : Nat := 0
  recordAddr : Nat := 0
  recordRkey : Nat := 0
  recordCount : Nat := 0
  deriving DecidableEq

/-- `LeafDescriptor`。leaf の行が `records` のどこにあるか。 -/
structure LeafDescriptor where
  offset : Nat := 0
  count : Nat := 0
  version : Nat := kSnapshotVersion
  firstKey : Key
  deriving DecidableEq

/-- `KeyPayloadRecord`。data set の一行でもある。 -/
structure KeyPayloadRecord where
  key : Key
  payload : Payload
  deriving DecidableEq

/-- `EdgeRdmaSnapshot`。 -/
structure EdgeRdmaSnapshot where
  descs : List LeafDescriptor
  records : List KeyPayloadRecord
  version : Nat := kSnapshotVersion
  deriving DecidableEq

/-- 予測を leaf の番号の範囲に収める。負なら最初、大きすぎれば最後の leaf にする。 -/
def clampLeaf (size : Nat) (predicted : Int32) : Nat :=
  let leaf := if predicted.toInt < 0 then 0 else predicted.toInt.toNat
  if size ≤ leaf then size - 1 else leaf

/-- `++snap.descs[leaf].count`。`count` は `uint32_t` である。 -/
def LeafDescriptor.bump (d : LeafDescriptor) : LeafDescriptor :=
  { d with count := (d.count + 1) % 2 ^ 32 }

/-- 二回目の loop。区間の始まりを積み上げ、`count` を 0 に戻す。 -/
def assignOffsets (offset : Nat) : List LeafDescriptor → List LeafDescriptor
  | [] => []
  | d :: rest =>
    { d with offset := offset, count := 0 } :: assignOffsets ((offset + d.count) % 2 ^ 64) rest

/--
三回目の loop の一回分。行をその leaf の書き込み位置に置く。

`descs` や `records` の範囲の外に触れれば未定義動作なので `none` とする。
-/
def fillRecord (snap : EdgeRdmaSnapshot) (leafId : Nat) (row : KeyPayloadRecord) :
    Option EdgeRdmaSnapshot := do
  let desc ← snap.descs[leafId]?
  let pos := (desc.offset + desc.count) % 2 ^ 64
  if pos < snap.records.length then
    some { snap with
      descs := snap.descs.modify leafId LeafDescriptor.bump
      records := snap.records.set pos row }
  else none

/--
`build_rdma_snapshot`。`table` は `meta_table.local_table` の鍵の列、`predictPos` は
`meta_table.predict_pos` である。`resize` で作られる `records` の初期値は最後まで残らない。
-/
def buildRdmaSnapshot (table : List Key) (predictPos : Key → Int32)
    (ds : List KeyPayloadRecord) : Option EdgeRdmaSnapshot :=
  if table = [] ∨ ds = [] then
    some { descs := List.replicate table.length { firstKey := Key.ofOrd 0 }, records := [] }
  else
    let descs := table.map fun key => { firstKey := key : LeafDescriptor }
    let leaves := ds.map fun row => clampLeaf table.length (predictPos row.key)
    let leafIds := leaves.map (· % 2 ^ 32)
    let counted := leaves.foldl (fun descs leaf => descs.modify leaf LeafDescriptor.bump) descs
    let snap : EdgeRdmaSnapshot :=
      { descs := assignOffsets 0 counted
        records := List.replicate ds.length ⟨Key.ofOrd 0, 0⟩ }
    (leafIds.zip ds).foldlM (fun snap p => fillRecord snap p.1 p.2) snap

/-- `RegisteredMemory`。RDMA に登録した配列の番地と鍵。 -/
structure RegisteredMemory where
  addr : Nat
  rkey : Nat

/-- `send_rdma_snapshot_info_if_supported` が組み立てる `SnapshotInfo`。 -/
def makeSnapshotInfo (snap : EdgeRdmaSnapshot) (descMem recordMem : RegisteredMemory) :
    SnapshotInfo :=
  { version := snap.version
    descAddr := descMem.addr
    descRkey := descMem.rkey
    leafCount := snap.descs.length % 2 ^ 32
    recordAddr := recordMem.addr
    recordRkey := recordMem.rkey
    recordCount := snap.records.length }

end Plin
