import Plin.Cloud.CrossEdge
import Plin.End.EndNode
import Plin.Infra.Threads

/-!
# 一つの data set を分け持つ系（`cloud_server.cpp` / `edge_server.cpp` / `end_node.cpp`）

Cloud、Edge、End は同じ配置と同じ data file から始まる。Edge は受け持つ区間の行で索引を作り、行が
一つも無ければ起動しない。End は自分の区間の行を手元の B+ 木に入れる。

End から見た系は、届く frame の列である。頼んでいない frame は Cloud と Edge の作るものに限り
（`Cluster.Control`）、要求には応答が一つ返る（`Cluster.respond`）。どちらも同じ接続に順に届くが、
どこで混ざるかは決まっていない。
-/

namespace Plin

open Infra

/-- 系の変わらない部分。`index` は Edge の番号から索引を引く。 -/
structure Cluster (D : Type) where
  rm : RangeMap
  data : List (Key × Payload)
  cloud : CloudServer
  index : Int → PlinIndex D

namespace Cluster

variable {D : Type} [Arith D] (C : Cluster D)

/-- Edge の読み込む行。 -/
def edgeData (g : EdgeInfo) : List (Key × Payload) :=
  loadRange C.data (edgeRange C.rm g).1 (edgeRange C.rm g).2

/-- Edge `home` に属する End の要求への応答。`none` は接続が閉じられることである。 -/
def respond (home : Int) (req : Frame) : Option Frame :=
  if req.type = .crossEdgeReq then
    match C.cloud.routeCrossEdgeReq req with
    | .error resp => some resp
    | .ok g =>
      if g ∈ C.cloud.edges then some (handleCloudCrossReq (C.index g).edgeIndex req)
      else some (makeFetchResp .error 0)
  else if req.type = .edgeFetchReq then handleEdgeFetchReq (C.index home).edgeIndex req
  else none

/-- Edge `g` の snapshot の行。 -/
def snapshotRows (g : EdgeInfo) : List KeyPayloadRecord :=
  (C.edgeData g).map fun e => ⟨e.1, e.2⟩

/--
Cloud と Edge の作る、頼んでいない frame。`g` は End の属する Edge、`edge` は End の接続である。

`PLIN_PARAM_PUSH` の本文は問わない。snapshot の番地は、接続に登録した配列の番地である。
-/
inductive Control (g : EdgeInfo) (edge : Transport) : Frame → Prop
  | hotUpdate (target : Int) (f : Frame) (id : Nat) (toEnd : Frame)
      (hsend : C.cloud.sendHotUpdate target = some f)
      (hforward : handleCloudHotUpdate f = some (id, toEnd)) : Control g edge toEnd
  | paramPush (body : Bytes) : Control g edge ⟨.plinParamPush, body⟩
  | snapshotInfo (predictPos : Key → Int32) (snap : EdgeRdmaSnapshot)
      (descMem recordMem : RegisteredMemory) (padding : Nat)
      (hsnap : buildRdmaSnapshot ((C.index g.id).localTable.map TRecord.key) predictPos
        (C.snapshotRows g) = some snap)
      (hdesc : descMem.addr < 2 ^ 64 ∧ descMem.rkey < 2 ^ 32)
      (hrecord : recordMem.addr < 2 ^ 64 ∧ recordMem.rkey < 2 ^ 32)
      (hserves : edge.Serves snap descMem recordMem) :
      Control g edge (makeRdmaSnapshotInfo (makeSnapshotInfo snap descMem recordMem) padding)

/-- 頼んでいない frame と途切れだけからなる。 -/
def Unasked (g : EdgeInfo) (edge : Transport) (i : Inbox) : Prop :=
  ∀ f, some f ∈ i → C.Control g edge f

/-- `lookup` の書く要求に応答が一つ届く。その前に `before`、後に `after` が届いている。 -/
def deliver {P : Type} (M : ParamModel P) (node : EndNode) (g : EdgeInfo) (s : EndSession P)
    (k : Key) (before after : Inbox) : EndSession P :=
  let reply := (node.request M s k).bind (C.respond g.id)
  { s with inbox := s.inbox ++ (before ++ (reply.toList.map some ++ after)) }

/-- End から見た一段。記録は `lookup` の鍵と結果である。 -/
inductive Step {P : Type} (M : ParamModel P) (node : EndNode) (g : EdgeInfo) (edge : Transport) :
    EndSession P → Option (Key × LookupResult) → EndSession P → Prop
  | arrive (s : EndSession P) (i : Inbox) (hi : C.Unasked g edge i) :
      Step M node g edge s none { s with inbox := s.inbox ++ i }
  | lookup (s : EndSession P) (k : Key) (before after : Inbox) (r : LookupResult)
      (s' : EndSession P) (hbefore : C.Unasked g edge before) (hafter : C.Unasked g edge after)
      (hrun : node.lookup M (C.deliver M node g s k before after) k = (r, s')) :
      Step M node g edge s (some (k, r)) s'
  | waitInitialPlinPush (s : EndSession P) (rounds : Nat) :
      Step M node g edge s none (s.waitInitialPlinPush M rounds)
  | drainEdgeControlFrames (s : EndSession P) (rounds : Nat) :
      Step M node g edge s none (s.drainEdgeControlFrames M rounds)
  | edgeReceiver (s : EndSession P) : Step M node g edge s none (s.edgeReceiver M)
  | registerWithEdge (s : EndSession P) :
      Step M node g edge s none
        (s.writeFrame ⟨.heartbeat, appendU32 [] (node.id % 2 ^ 32).toNat⟩)

/-- 構築された直後の状態。 -/
def start {P : Type} (p : P) : EndSession P :=
  { hotCache := .empty, plinCache := p, rdmaSnapshot := ⟨{}, false⟩, nextRequestId := 1
    inbox := [], outbox := [], applied := [] }

/-- End `me` が行き着く状態。 -/
def Reached {P : Type} (M : ParamModel P) (me : EndInfo) (g : EdgeInfo) (edge : Transport)
    (s : EndSession P) : Prop :=
  ∃ p, Reachable (C.Step M (.boot C.rm C.data me (some edge)) g edge) (start p) s

end Cluster

end Plin
