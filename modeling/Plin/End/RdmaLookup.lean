import Plin.Common.RdmaTransport
import Plin.Edge.Snapshot

/-!
# End からの RDMA 読み出し（`end_node.cpp`）

End は予測した leaf の descriptor を遠隔読み出しし、その区間の行を読んで鍵を探す。
遠隔読み出しは bytes を構造体に写すだけなので、`Transport` は構造体の単位で読む関数として持つ。
番地は source の式のとおりに `uint64_t` で計算する。
-/

namespace Plin

/-- `sizeof(LeafDescriptor)`。 -/
def sizeofDesc : Nat := 24

/-- `sizeof(KeyPayloadRecord)`。 -/
def sizeofRecord : Nat := 16

/-- `Transport` のうち遠隔読み出しに関わる部分。読み出しの失敗は `none` である。 -/
structure Transport where
  supportsRemoteRead : Bool
  /-- 一つの descriptor を、番地と rkey を指定して読む。 -/
  readDesc : Nat → Nat → Option LeafDescriptor
  /-- 並んだ行を、番地と rkey と個数を指定して読む。 -/
  readRecords : Nat → Nat → Nat → Option (List KeyPayloadRecord)

/-- 遠隔読み出しは、登録した二つの配列の中身を返す。 -/
structure Transport.Serves (edge : Transport) (snap : EdgeRdmaSnapshot)
    (descMem recordMem : RegisteredMemory) : Prop where
  supported : edge.supportsRemoteRead = true
  desc : ∀ i d, snap.descs[i]? = some d →
    edge.readDesc ((descMem.addr + i * sizeofDesc) % 2 ^ 64) descMem.rkey = some d
  records : ∀ offset count, offset + count ≤ snap.records.length →
    edge.readRecords ((recordMem.addr + offset * sizeofRecord) % 2 ^ 64) recordMem.rkey count
      = some ((snap.records.drop offset).take count)

/-- `EndRdmaSnapshot`。 -/
structure EndRdmaSnapshot where
  info : SnapshotInfo
  loaded : Bool

/-- `RDMALookupStatus`。 -/
inductive RDMALookupStatus where
  | hit
  | miss
  | unavailable
  deriving DecidableEq

/-- `apply_edge_control_frame` の `RDMA_SNAPSHOT_INFO` の枝。 -/
def EndRdmaSnapshot.load (info : SnapshotInfo) : EndRdmaSnapshot :=
  { info := info
    loaded := info.magic = kSnapshotMagic ∧ 0 < info.leafCount ∧ 0 < info.recordCount }

/-- End の側の leaf の番号。`uint32_t` に変換してから最後の leaf に収める。 -/
def lookupLeaf (leafCount : Nat) (predictedSlot : Int32) : Nat :=
  let leafId := predictedSlot.toUInt32.toNat
  if leafCount ≤ leafId then leafCount - 1 else leafId

/-- 読み出した行を前から見て、鍵が一致する最初の行の payload を返す。 -/
def scanRecords (key : Key) (out : Payload) :
    List KeyPayloadRecord → RDMALookupStatus × Payload
  | [] => (.miss, out)
  | rec :: rest => if rec.key = key then (.hit, rec.payload) else scanRecords key out rest

/-- `rdma_snapshot_lookup`。`out` は呼び出し前の出力引数の値で、HIT のときだけ書き換わる。 -/
def rdmaSnapshotLookup (edge : Transport) (snapshot : EndRdmaSnapshot) (key : Key)
    (predictedSlot : Int32) (out : Payload) : RDMALookupStatus × Payload :=
  let info := snapshot.info
  if !snapshot.loaded || !edge.supportsRemoteRead then (.unavailable, out)
  else if info.magic ≠ kSnapshotMagic ∨ info.leafCount = 0 ∨ predictedSlot.toInt < 0 then
    (.unavailable, out)
  else
    let leafId := lookupLeaf info.leafCount predictedSlot
    match edge.readDesc ((info.descAddr + leafId * sizeofDesc) % 2 ^ 64) info.descRkey with
    | none => (.unavailable, out)
    | some desc =>
      if desc.version ≠ info.version ∨ desc.count = 0 then (.unavailable, out)
      else if info.recordCount < (desc.offset + desc.count) % 2 ^ 64 then (.unavailable, out)
      else
        match edge.readRecords ((info.recordAddr + desc.offset * sizeofRecord) % 2 ^ 64)
            info.recordRkey desc.count with
        | none => (.unavailable, out)
        | some records => scanRecords key out records

/-! ## 読み出す番地 -/

/-- `rdma_snapshot_lookup` が遠隔読み出しに進む条件。 -/
def rdmaLookupReady (edge : Transport) (snapshot : EndRdmaSnapshot) (predictedSlot : Int32) :
    Prop :=
  snapshot.loaded = true ∧ edge.supportsRemoteRead = true ∧ snapshot.info.magic = kSnapshotMagic ∧
    snapshot.info.leafCount ≠ 0 ∧ 0 ≤ predictedSlot.toInt

instance (edge : Transport) (snapshot : EndRdmaSnapshot) (predictedSlot : Int32) :
    Decidable (rdmaLookupReady edge snapshot predictedSlot) :=
  inferInstanceAs (Decidable (_ ∧ _))

/-- 読み出す descriptor の番地。 -/
def rdmaDescAddr (info : SnapshotInfo) (predictedSlot : Int32) : Nat :=
  (info.descAddr + lookupLeaf info.leafCount predictedSlot * sizeofDesc) % 2 ^ 64

/-- descriptor が検査を通り、行の読み出しに進む。和は `uint64_t` で計算される。 -/
def LeafDescriptor.Accepted (desc : LeafDescriptor) (info : SnapshotInfo) : Prop :=
  desc.version = info.version ∧ desc.count ≠ 0 ∧
    (desc.offset + desc.count) % 2 ^ 64 ≤ info.recordCount

instance (desc : LeafDescriptor) (info : SnapshotInfo) : Decidable (desc.Accepted info) :=
  inferInstanceAs (Decidable (_ ∧ _))

/-- descriptor を読むために出す `IBV_WR_RDMA_READ` の列。 -/
def rdmaDescReads (edge : Transport) (snapshot : EndRdmaSnapshot) (predictedSlot : Int32) :
    List RemoteRead :=
  if rdmaLookupReady edge snapshot predictedSlot then
    readRemote (rdmaDescAddr snapshot.info predictedSlot) sizeofDesc 0
  else []

/-- 行を読むために出す `IBV_WR_RDMA_READ` の列。descriptor の中身は遠隔の記憶にあるものなので、何でもよい。 -/
def rdmaRecordReads (edge : Transport) (snapshot : EndRdmaSnapshot) (predictedSlot : Int32) :
    List RemoteRead :=
  if rdmaLookupReady edge snapshot predictedSlot then
    match edge.readDesc (rdmaDescAddr snapshot.info predictedSlot) snapshot.info.descRkey with
    | none => []
    | some desc =>
      if desc.Accepted snapshot.info then
        readRemote ((snapshot.info.recordAddr + desc.offset * sizeofRecord) % 2 ^ 64)
          (desc.count * sizeofRecord) 0
      else []
  else []

end Plin
