import Plin.Common.Proto
import Plin.Common.RangeMap
import Plin.Edge.Snapshot
import Plin.Index.PlinIndex

/-!
# Edge の応答（`edge_server.cpp`）

Edge は受け持つ End の区間を合わせた data で索引を作り、End からの `EDGE_FETCH_REQ` と、Cloud から
回ってくる `CROSS_EDGE_REQ` に答える。索引の二つの操作を `EdgeIndex` とする。鍵の `none` は NaN である。
-/

namespace Plin

open Infra

/-- 索引の `find` と `find_through_net`。引数の payload は、書かれなければそのまま残る。 -/
structure EdgeIndex where
  find : Option Key → Payload → Bool × Payload
  findThroughNet : Option Key → Payload → Int32 → Nat × Payload

/--
`PlinIndex` の二つの操作。NaN はどの比較も偽なので、right buffer を引いて見つからない。

続けられなくなる場合は、見つからなかったものとしておく。
-/
def PlinIndex.edgeIndex {D : Type} [Arith D] (s : PlinIndex D) : EdgeIndex where
  find
    | none, payload => (false, payload)
    | some key, payload =>
      match s.find key payload with
      | .ok r => r
      | .error _ => (false, payload)
  findThroughNet
    | none, payload, _ => (0, payload)
    | some key, payload, logicId =>
      match s.findThroughNet key payload logicId.toInt with
      | .ok r => r
      | .error _ => (0, payload)

/-- Edge の `load_range`。 -/
def loadRange (data : List (Key × Payload)) (lo hi : Key) : List (Key × Payload) :=
  data.filter fun e => decide (lo ≤ e.1 ∧ e.1 ≤ hi)

/-- 番号が `eid` の End の区間まで広げる。 -/
def widen (eid : Int) (r : Key × Key) (en : EndInfo) : Key × Key :=
  if en.id = eid then (min r.1 en.keyLo, max r.2 en.keyHi) else r

/-- `main` の `range_lo` と `range_hi`。受け持つ End の区間をすべて覆う区間である。 -/
def edgeRange (rm : RangeMap) (edge : EdgeInfo) : Key × Key :=
  edge.endIds.foldl (fun r eid => rm.ends.foldl (widen eid) r)
    (Key.ofFloat 1e300, Key.ofFloat (-1e300))

/-- `SnapshotInfo` の field の幅と値。`padding` は詰め物の 4 byte である。 -/
def SnapshotInfo.fields (info : SnapshotInfo) (padding : Nat) : List (Nat × Nat) :=
  [(4, info.magic), (4, info.version), (8, info.descAddr), (4, info.descRkey), (4, info.leafCount),
    (8, info.recordAddr), (4, info.recordRkey), (4, padding), (8, info.recordCount)]

/-- `make_rdma_snapshot_info`。 -/
def makeRdmaSnapshotInfo (info : SnapshotInfo) (padding : Nat) : Frame :=
  ⟨.rdmaSnapshotInfo, (info.fields padding).flatMap fun f => leBytes f.1 f.2⟩

/-- `handle_cloud_cross_req`。 -/
def handleCloudCrossReq (idx : EdgeIndex) (req : Frame) : Frame :=
  match readDouble req.body 8 with
  | none => makeFetchResp .error 0
  | some key =>
    let (found, payload) := idx.find key 0
    makeFetchResp (if found then .ok else .notFound) payload

/-- `handle_end` の `predicted_slot`。body が短ければ `-1` である。 -/
def predictedSlot (req : Frame) : Int32 :=
  match readU32 req.body 8 with
  | none => -1
  | some v => (UInt32.ofNat v).toInt32

/-- `handle_end` の `EDGE_FETCH_REQ` の検索。slot の指す leaf に無ければ `find` をやり直す。 -/
def fetchFromIndex (idx : EdgeIndex) (key : Option Key) (slot : Int32) : Bool × Payload :=
  if 0 ≤ slot then
    let (ret, payload) := idx.findThroughNet key 0 slot
    if ret = 1 then (true, payload) else idx.find key payload
  else idx.find key 0

/-- `handle_end` の `EDGE_FETCH_REQ` への応答。body が 8 byte に足りなければ `none`（接続を閉じる）。 -/
def handleEdgeFetchReq (idx : EdgeIndex) (req : Frame) : Option Frame :=
  match readDouble req.body 0 with
  | none => none
  | some key =>
    let (found, payload) := fetchFromIndex idx key (predictedSlot req)
    some (makeFetchResp (if found then .ok else .notFound) payload)

end Plin
