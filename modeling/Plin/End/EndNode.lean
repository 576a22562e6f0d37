import Plin.Common.Proto
import Plin.Common.RangeMap
import Plin.End.RdmaLookup
import Plin.Infra.SortedMap

/-!
# End（`end_node.cpp`）

End は鍵を四段階で探す。自分の区間なら手元の B+ 木、次に hot cache、同じ Edge の区間なら親の Edge、
残りは親の Edge と Cloud を経て他の Edge に問い合わせる。

End と Edge の接続は一本で、問い合わせの返事と、頼んでいない frame（`HOT_UPDATE` など）が同じ接続に
届く。接続を読む関数は五つあり、**頼んでいない frame の扱いがそれぞれ違う**。

届く frame は列 `inbox` で表す。要素 `none` は、待ち時間の切れる長さの途切れである。列の終わりで接続は
閉じている。`push` の本文から予測器を作る手続き（`serialize.h` / `cache_model.h`）は `ParamModel` とする。
数えるだけの `Stats` と画面への出力は省く。
-/

namespace Plin

open Infra

/-- `Param` の表とその予測。 -/
structure ParamModel (P : Type) where
  /-- `deserialize_parameter`。 -/
  deserialize : Bytes → P
  /-- `ParentPlinCache::loaded`。 -/
  loaded : P → Bool
  /-- `local_model::predict_pos`。 -/
  predictPos : P → Key → Int32

/-- 接続に届くもの。`none` は途切れである。 -/
abbrev Inbox := List (Option Frame)

/-- End の動く状態と、親の Edge との接続。 -/
structure EndSession (P : Type) where
  hotCache : SortedMap Key Payload
  plinCache : P
  rdmaSnapshot : EndRdmaSnapshot
  nextRequestId : Nat
  inbox : Inbox
  /-- 書いた frame。 -/
  outbox : List Frame
  /-- 反映した `HOT_UPDATE` と `PLIN_PARAM_PUSH`。source には無い記録である。 -/
  applied : List Frame

/-- `EndNode` の変わらない部分。`store` は手元の B+ 木、`edge` の `none` は接続が無いことである。 -/
structure EndNode where
  id : Int
  rm : RangeMap
  store : SortedMap Key Payload
  edge : Option Transport

/-- 区間の中の行を入れる。`insert` は、在る鍵の値を変えない。 -/
def LocalStore.insertRow (lo hi : Key) (m : SortedMap Key Payload) (e : Key × Payload) :
    SortedMap Key Payload :=
  if lo ≤ e.1 ∧ e.1 ≤ hi ∧ m.find e.1 = none then m.upsert e.1 e.2 else m

/-- End の `load_range`。 -/
def LocalStore.loadRange (data : List (Key × Payload)) (lo hi : Key) : SortedMap Key Payload :=
  data.foldl (insertRow lo hi) .empty

/-- `main` の作る `EndNode`。 -/
def EndNode.boot (rm : RangeMap) (data : List (Key × Payload)) (info : EndInfo)
    (edge : Option Transport) : EndNode :=
  { id := info.id, rm := rm, store := LocalStore.loadRange data info.keyLo info.keyHi
    edge := edge }

/-- `LookupStage`。 -/
inductive LookupStage where
  | local
  | hotCache
  | edgePlin
  | crossEdge
  deriving DecidableEq

/-- `LookupResult`。 -/
structure LookupResult where
  found : Bool
  payload : Payload
  stage : LookupStage
  deriving DecidableEq

/-- `sizeof(SnapshotInfo)`。 -/
def sizeofSnapshotInfo : Nat := 48

/-- `memcpy` で `SnapshotInfo` に写す。36 byte 目からの 4 byte は詰め物である。 -/
def decodeSnapshotInfo (b : Bytes) : SnapshotInfo :=
  let field (off width : Nat) : Nat := ofLeBytes ((b.drop off).take width)
  { magic := field 0 4, version := field 4 4, descAddr := field 8 8, descRkey := field 16 4
    leafCount := field 20 4, recordAddr := field 24 8, recordRkey := field 32 4
    recordCount := field 40 8 }

/-- `HOT_UPDATE` の本文を組に読む loop。NaN の鍵は cache に入っても引けないので落とす。 -/
def decodePairs : Nat → Bytes → List (Key × Payload)
  | 0, _ => []
  | n + 1, b =>
    let rest := decodePairs n (b.drop 16)
    match Key.ofBits (ofLeBytes (b.take 8)) with
    | some k => (k, UInt64.ofNat (ofLeBytes ((b.drop 8).take 8))) :: rest
    | none => rest

/-- `batch_upsert`。 -/
def batchUpsert (cache : SortedMap Key Payload) (kv : List (Key × Payload)) :
    SortedMap Key Payload :=
  kv.foldl (fun c e => c.upsert e.1 e.2) cache

namespace Frame

/-- 反映を数える frame。 -/
def IsPush (f : Frame) : Prop := f.type = .hotUpdate ∨ f.type = .plinParamPush

/-- `read_fetch_response` と `drain_edge_control_frames` が反映に回す frame。 -/
def IsControl (f : Frame) : Prop :=
  f.type = .plinParamPush ∨ f.type = .hotUpdate ∨ f.type = .rdmaSnapshotInfo

instance (f : Frame) : Decidable f.IsPush := inferInstanceAs (Decidable (_ ∨ _))

instance (f : Frame) : Decidable f.IsControl := inferInstanceAs (Decidable (_ ∨ _))

end Frame

namespace EndSession

variable {P : Type} (M : ParamModel P)

/-- `apply_edge_control_frame`。 -/
def applyEdgeControlFrame (s : EndSession P) (f : Frame) : EndSession P :=
  if f.type = .plinParamPush then
    { s with plinCache := M.deserialize f.body, applied := s.applied ++ [f] }
  else if f.type = .hotUpdate then
    { s with
      hotCache := batchUpsert s.hotCache (decodePairs (f.body.length / 16) f.body)
      applied := s.applied ++ [f] }
  else if f.type = .rdmaSnapshotInfo then
    if f.body.length = sizeofSnapshotInfo then
      { s with rdmaSnapshot := EndRdmaSnapshot.load (decodeSnapshotInfo f.body) }
    else s
  else s

/-! ## 接続を読む -/

/-- 待ち時間の無い `read_frame`。途切れは待ち、閉じていれば `none`。 -/
def readFrame (s : EndSession P) : Option (Frame × EndSession P) :=
  match s.inbox.dropWhile Option.isNone with
  | some f :: rest => some (f, { s with inbox := rest })
  | _ => none

/-- 待ち時間の有る `read_frame`。途切れか閉じた接続では何も読めない。 -/
def readFrameTimed (s : EndSession P) : Option Frame × EndSession P :=
  match s.inbox with
  | [] => (none, s)
  | a :: rest => (a, { s with inbox := rest })

/-- `write_frame`。 -/
def writeFrame (s : EndSession P) (f : Frame) : EndSession P :=
  { s with outbox := s.outbox ++ [f] }

/-- 問い合わせの結果。返り値、`out`、`param_stale` である。 -/
structure FetchResult where
  ok : Bool
  out : Payload
  stale : Bool
  deriving DecidableEq

/-- `EDGE_FETCH_RESP` を読む。 -/
def decodeFetchResp (f : Frame) (out : Payload) : FetchResult :=
  if f.body.length < 9 then ⟨false, out, false⟩
  else
    { ok := f.body.headD 0 = Status.ok.byte
      out := UInt64.ofNat (ofLeBytes ((f.body.drop 1).take 8))
      stale := match f.body[9]? with
        | some b => b ≠ 0
        | none => false }

/-- `read_fetch_response` の loop。返事が来るまで、頼んでいない frame を反映する。 -/
def readFetchLoop (out : Payload) : Inbox → EndSession P → FetchResult × EndSession P
  | [], s => (⟨false, out, false⟩, { s with inbox := [] })
  | none :: rest, s => readFetchLoop out rest s
  | some f :: rest, s =>
    if f.type = .edgeFetchResp then (decodeFetchResp f out, { s with inbox := rest })
    else if f.IsControl then readFetchLoop out rest (s.applyEdgeControlFrame M f)
    else (⟨false, out, false⟩, { s with inbox := rest })

/-- `read_fetch_response`。 -/
def readFetchResponse (s : EndSession P) (out : Payload) : FetchResult × EndSession P :=
  readFetchLoop M out s.inbox s

/-- `edge_fetch`。 -/
def edgeFetch (s : EndSession P) (key : Key) (predictedSlot : Int32) (out : Payload) :
    FetchResult × EndSession P :=
  let req : Frame :=
    ⟨.edgeFetchReq, appendU32 (appendDouble [] key) predictedSlot.toUInt32.toNat⟩
  (s.writeFrame req).readFetchResponse M out

/-- `cross_edge_fetch`。 -/
def crossEdgeFetch (s : EndSession P) (key : Key) (out : Payload) :
    FetchResult × EndSession P :=
  let req : Frame := ⟨.crossEdgeReq, appendDouble (leBytes 8 s.nextRequestId) key⟩
  let s := { s with nextRequestId := (s.nextRequestId + 1) % 2 ^ 64 }
  (s.writeFrame req).readFetchResponse M out

/-- `request_param_push`。**最初に届いた frame が `PLIN_PARAM_PUSH` でなければ、捨てて返る。** -/
def requestParamPush (s : EndSession P) : EndSession P :=
  match (s.writeFrame ⟨.plinParamPush, []⟩).readFrame with
  | none => { s.writeFrame ⟨.plinParamPush, []⟩ with inbox := [] }
  | some (resp, s) =>
    if resp.type = .plinParamPush then
      match (s.applyEdgeControlFrame M resp).readFrameTimed with
      | (some next, s) => s.applyEdgeControlFrame M next
      | (none, s) => s
    else s

/-- `wait_initial_plin_push` の最初の loop。`rounds` は締め切りまでに回る回数である。 -/
def waitLoaded : Nat → EndSession P → EndSession P
  | 0, s => s
  | rounds + 1, s =>
    if M.loaded s.plinCache then s
    else
      match s.readFrameTimed with
      | (none, s) => waitLoaded rounds s
      | (some f, s) => waitLoaded rounds (s.applyEdgeControlFrame M f)

/-- `wait_initial_plin_push` の次の loop。 -/
def drainSnapshot : Inbox → EndSession P → EndSession P
  | [], s => { s with inbox := [] }
  | none :: rest, s => { s with inbox := rest }
  | some f :: rest, s =>
    let s := s.applyEdgeControlFrame M f
    if f.type = .rdmaSnapshotInfo then drainSnapshot rest s else { s with inbox := rest }

/-- `wait_initial_plin_push`。 -/
def waitInitialPlinPush (s : EndSession P) (rounds : Nat) : EndSession P :=
  let s := waitLoaded M rounds s
  drainSnapshot M s.inbox s

/-- `edge_receiver`。接続が閉じるまで反映し続ける。 -/
def edgeReceiver (s : EndSession P) : EndSession P :=
  let s' := (s.inbox.filterMap id).foldl (fun s f => s.applyEdgeControlFrame M f) s
  { s' with inbox := [] }

/-- `drain_edge_control_frames`。`rounds` は締め切りまでに回る回数である。 -/
def drainEdgeControlFrames : Nat → EndSession P → EndSession P
  | 0, s => s
  | rounds + 1, s =>
    match s.readFrameTimed with
    | (none, s) => drainEdgeControlFrames rounds s
    | (some f, s) =>
      drainEdgeControlFrames rounds (if f.IsControl then s.applyEdgeControlFrame M f else s)

/-- `predict_pos`。届いていなければ `-1`。 -/
def predictPos (s : EndSession P) (k : Key) : Int32 :=
  if M.loaded s.plinCache then M.predictPos s.plinCache k else -1

/-- hot cache への `upsert`。 -/
def warm (s : EndSession P) (r : FetchResult) (k : Key) : EndSession P :=
  if r.ok then { s with hotCache := s.hotCache.upsert k r.out } else s

end EndSession

namespace EndNode

variable {P : Type} (M : ParamModel P)

open EndSession

/-- 段階③の問い合わせ。遠隔読み出しに当たらなければ `edge_fetch` に頼る。 -/
def fetchSibling (edge : Transport) (s : EndSession P) (k : Key) : FetchResult × EndSession P :=
  let slot := s.predictPos M k
  match rdmaSnapshotLookup edge s.rdmaSnapshot k slot 0 with
  | (.hit, v) => (⟨true, v, false⟩, s)
  | (_, v) => s.edgeFetch M k slot v

/-- `lookup`。 -/
def lookup (node : EndNode) (s : EndSession P) (k : Key) : LookupResult × EndSession P :=
  if node.rm.locateEnd k = node.id then
    match node.store.find k with
    | some p => (⟨true, p, .local⟩, s)
    | none => (⟨false, 0, .local⟩, s)
  else
    match s.hotCache.find k with
    | some v => (⟨true, v, .hotCache⟩, s)
    | none =>
      let tgtEnd := node.rm.locateEnd k
      if 0 ≤ tgtEnd ∧ node.rm.sameEdge tgtEnd node.id then
        match node.edge with
        | none => (⟨false, 0, .local⟩, s)
        | some edge =>
          let (r, s) := fetchSibling M edge s k
          let s := s.warm r k
          (⟨r.ok, r.out, .edgePlin⟩, if r.stale then s.requestParamPush M else s)
      else if 0 ≤ tgtEnd ∧ node.edge.isSome then
        let (r, s) := s.crossEdgeFetch M k 0
        (⟨r.ok, r.out, .crossEdge⟩, s.warm r k)
      else (⟨false, 0, .crossEdge⟩, s)

/-- `lookup` の書く要求。手元で答えが出れば `none`。 -/
def request (node : EndNode) (s : EndSession P) (k : Key) : Option Frame :=
  if node.rm.locateEnd k = node.id then none
  else if (s.hotCache.find k).isSome then none
  else if 0 ≤ node.rm.locateEnd k ∧ node.rm.sameEdge (node.rm.locateEnd k) node.id then
    match node.edge with
    | none => none
    | some edge =>
      if (rdmaSnapshotLookup edge s.rdmaSnapshot k (s.predictPos M k) 0).1 = .hit then none
      else some ⟨.edgeFetchReq,
        appendU32 (appendDouble [] k) (s.predictPos M k).toUInt32.toNat⟩
  else if 0 ≤ node.rm.locateEnd k ∧ node.edge.isSome then
    some ⟨.crossEdgeReq, appendDouble (leBytes 8 s.nextRequestId) k⟩
  else none

end EndNode

end Plin
