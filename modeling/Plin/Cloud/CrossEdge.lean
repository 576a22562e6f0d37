import Mathlib.Logic.Function.Basic
import Plin.Cloud.CloudServer
import Plin.Edge.EdgeServer
import Plin.Edge.HotUpdate
import Plin.End.EndNode
import Plin.Infra.Threads

/-!
# 他の Edge への問い合わせ（`end_node.cpp` / `edge_server.cpp` / `cloud_server.cpp`）

End の `CROSS_EDGE_REQ` は、End の接続を受け持つ Edge の thread（`handle_end`）に届く。この thread は
要求ごとに新しい接続を Cloud に張り（`cloud_cross_fetch`）、Cloud の接続ごとの thread
（`handle_connection`）が行き先の Edge を決めて `forward_to_edge` で回す。Cloud と Edge の間の接続は
Edge ごとに一本で、`HOT_UPDATE` も同じ接続に書かれる。`EdgeConn::mu` は要求を書いてから応答を
読むまで保持される。Edge の側は一つの thread（`cloud_receiver_loop`）がこの接続を読む。

接続は frame の先入れ先出しの列で、途中で切れない。応答には要求の番号が無いので、`Packet` に
**誰がどの要求のために作ったか**を添える。添えた値はどの遷移も読まない。

`param_stale` を立てる Edge は無いので、End は `PLIN_PARAM_PUSH` を頼まない。
-/

namespace Plin

open Infra

/-- 応答を作った者と、そのもとの要求。 -/
inductive Origin where
  /-- 応答ではない。 -/
  | none
  | cloud (req : Frame)
  | edge (id : Int) (req : Frame)
  deriving DecidableEq

/-- 運ばれる frame。 -/
structure Packet where
  frame : Frame
  origin : Origin
  deriving DecidableEq

/-- 変わらない部分。`E` は End の接続である。 -/
structure Deployment (E : Type) where
  cloud : CloudServer
  /-- End の接続先の Edge。 -/
  home : E → Int
  index : Int → EdgeIndex
  /-- `param_frame` の body。 -/
  paramFrame : Int → Bytes
  /-- `make_rdma_snapshot_info` の body。遠隔読み出しが使えなければ `none`。 -/
  snapshotInfo : E → Option Bytes

/-- End の状態。`waiting` は要求を書いて応答を待っている。 -/
inductive RequesterPc where
  | idle
  | waiting (req : Frame)

/-- `handle_end` の位置。 -/
inductive HandlerPc where
  | idle
  /-- `cloud_cross_fetch` の呼び出し。 -/
  | connect (req : Frame)
  /-- 接続 `conn` で応答を待つ。 -/
  | fetching (req : Frame) (conn : Nat)
  | reply (req : Frame) (p : Packet)
  /-- 知らない frame を読んで loop を抜けた。 -/
  | closed

/-- Cloud の `handle_connection` の位置。 -/
inductive ConnectionPc where
  /-- 最初の frame を読む前。 -/
  | accepted
  | route (req : Frame)
  /-- `edge_conn` を引く前。 -/
  | edgeConn (req : Frame) (edge : Int)
  /-- `conn->mu` を待つ。 -/
  | locking (req : Frame) (edge : Int)
  | locked (req : Frame) (edge : Int)
  /-- 要求を書き、応答を読む前。 -/
  | waiting (req : Frame) (edge : Int)
  /-- 応答を読み、`conn->mu` を放す前。 -/
  | answered (req : Frame) (edge : Int) (p : Packet)
  | reply (req : Frame) (p : Packet)
  | closed

/-- `cloud_cross_fetch` の張った接続。 -/
structure Connection where
  /-- Edge の側で待っている要求。応答を読むと閉じられる。 -/
  client : Option Frame
  up : List Frame
  pc : ConnectionPc
  down : List Packet

/-- まだ張られていない接続。 -/
def Connection.fresh : Connection := ⟨none, [], .accepted, []⟩

/-- `EdgeConn::mu` を持つ者。 -/
inductive Holder where
  | connection (c : Nat)
  | hotUpdateLoop
  deriving DecidableEq

/-- `hot_update_loop` の位置。 -/
inductive PusherPc where
  | idle
  | locking (edge : Int) (f : Frame)
  | locked (edge : Int) (f : Frame)
  | written (edge : Int)

/-- 系の状態。 -/
structure Network (E : Type) where
  ends : E → RequesterPc
  up : E → List Frame
  down : E → List Packet
  handlers : E → HandlerPc
  connections : Nat → Connection
  nextConnection : Nat
  /-- `edges_` に載っている Edge。 -/
  edges : List Int
  /-- `HEARTBEAT_ACK` をまだ書いていない Edge。 -/
  unacked : List Int
  holder : Int → Option Holder
  toEdge : Int → List Frame
  toCloud : Int → List Packet
  /-- `cloud_receiver_loop` の読んだ frame。 -/
  control : Int → Option Frame
  /-- `rt.ends`。 -/
  routes : Int → Nat → Option E
  pusher : PusherPc
  /-- End の受け取った応答と、そのときの要求。source には無い記録である。 -/
  responses : E → List (Frame × Packet)
  /-- End の書いた要求の個数。source には無い記録である。 -/
  issued : E → Nat

namespace Deployment

variable {E : Type} (D : Deployment E)

/-- End の接続に最初に書かれる frame。 -/
def greeting (e : E) : List Packet :=
  ⟨⟨.plinParamPush, D.paramFrame (D.home e)⟩, .none⟩ ::
    ((D.snapshotInfo e).map fun body => ⟨⟨.rdmaSnapshotInfo, body⟩, .none⟩).toList

/-- Edge も End も、まだ何も書いていない。 -/
def start : Network E :=
  { ends := fun _ => .idle, up := fun _ => [], down := D.greeting, handlers := fun _ => .idle
    connections := fun _ => .fresh, nextConnection := 0, edges := [], unacked := []
    holder := fun _ => none, toEdge := fun _ => [], toCloud := fun _ => []
    control := fun _ => none, routes := fun _ _ => none, pusher := .idle
    responses := fun _ => [], issued := fun _ => 0 }

end Deployment

/-- `cross_edge_fetch` の書く要求。 -/
def crossEdgeReq (id : Nat) (key : Key) : Frame :=
  ⟨.crossEdgeReq, appendDouble (leBytes 8 id) key⟩

/-- `edge_fetch` の書く要求。 -/
def edgeFetchReq (key : Key) (slot : Int32) : Frame :=
  ⟨.edgeFetchReq, appendU32 (appendDouble [] key) slot.toUInt32.toNat⟩

/-- `HEARTBEAT` を受けた `register_end`。 -/
def registerEnd {E : Type} (routes : Nat → Option E) (e : E) (f : Frame) : Nat → Option E :=
  match readU32 f.body 0 with
  | none => routes
  | some id => Function.update routes id (some e)

/-- `cloud_receiver_loop` の `HOT_UPDATE` の行き先。 -/
def hotUpdateTarget {E : Type} (routes : Nat → Option E) (f : Frame) : Option (E × Frame) := do
  let (target, toEnd) ← handleCloudHotUpdate f
  let e ← routes target
  some (e, toEnd)

/-- `send_to_end`。 -/
def sendToEnd {E : Type} [DecidableEq E] (down : E → List Packet) :
    Option (E × Frame) → E → List Packet
  | none => down
  | some (e, toEnd) => Function.update down e (down e ++ [⟨toEnd, .none⟩])

/-- 一歩を進める者。 -/
inductive Party (E : Type) where
  | node (e : E)
  | handler (e : E)
  | connection (c : Nat)
  | hotUpdateLoop
  | registration (edge : Int)
  | control (edge : Int)

section Step

variable {E : Type} [DecidableEq E] (D : Deployment E)

open Function

/-- 一歩。 -/
inductive NetworkStep : Network E → Party E → Network E → Prop
  -- End
  | heartbeat (s : Network E) (e : E) (id : Nat) (hpc : s.ends e = .idle) :
      NetworkStep s (.node e)
        { s with up := update s.up e (s.up e ++ [⟨.heartbeat, appendU32 [] id⟩]) }
  | crossEdgeFetch (s : Network E) (e : E) (id : Nat) (key : Key) (hpc : s.ends e = .idle) :
      NetworkStep s (.node e)
        { s with
          ends := update s.ends e (.waiting (crossEdgeReq id key))
          up := update s.up e (s.up e ++ [crossEdgeReq id key])
          issued := update s.issued e (s.issued e + 1) }
  | edgeFetch (s : Network E) (e : E) (key : Key) (slot : Int32) (hpc : s.ends e = .idle) :
      NetworkStep s (.node e)
        { s with
          ends := update s.ends e (.waiting (edgeFetchReq key slot))
          up := update s.up e (s.up e ++ [edgeFetchReq key slot])
          issued := update s.issued e (s.issued e + 1) }
  /-- 応答を待たない読み（`drain_edge_control_frames` など）。 -/
  | drain (s : Network E) (e : E) (p : Packet) (rest : List Packet) (hpc : s.ends e = .idle)
      (hdown : s.down e = p :: rest) :
      NetworkStep s (.node e) { s with down := update s.down e rest }
  /-- `read_fetch_response` が応答を読む。 -/
  | accept (s : Network E) (e : E) (req : Frame) (p : Packet) (rest : List Packet)
      (hpc : s.ends e = .waiting req) (hdown : s.down e = p :: rest)
      (htype : p.frame.type = .edgeFetchResp) :
      NetworkStep s (.node e)
        { s with
          ends := update s.ends e .idle
          down := update s.down e rest
          responses := update s.responses e (s.responses e ++ [(req, p)]) }
  /-- `read_fetch_response` が頼んでいない frame を読む。 -/
  | applyControl (s : Network E) (e : E) (req : Frame) (p : Packet) (rest : List Packet)
      (hpc : s.ends e = .waiting req) (hdown : s.down e = p :: rest)
      (htype : p.frame.IsControl) :
      NetworkStep s (.node e) { s with down := update s.down e rest }
  /-- `read_fetch_response` が知らない frame を読んで、応答の無いまま返る。 -/
  | giveUp (s : Network E) (e : E) (req : Frame) (p : Packet) (rest : List Packet)
      (hpc : s.ends e = .waiting req) (hdown : s.down e = p :: rest)
      (htype : p.frame.type ≠ .edgeFetchResp) (hctl : ¬ p.frame.IsControl) :
      NetworkStep s (.node e)
        { s with ends := update s.ends e .idle, down := update s.down e rest }
  -- `handle_end`
  | registerEnd (s : Network E) (e : E) (f : Frame) (rest : List Frame)
      (hpc : s.handlers e = .idle) (hup : s.up e = f :: rest) (htype : f.type = .heartbeat) :
      NetworkStep s (.handler e)
        { s with
          up := update s.up e rest
          routes := update s.routes (D.home e) (registerEnd (s.routes (D.home e)) e f) }
  | takeCross (s : Network E) (e : E) (f : Frame) (rest : List Frame)
      (hpc : s.handlers e = .idle) (hup : s.up e = f :: rest) (htype : f.type = .crossEdgeReq) :
      NetworkStep s (.handler e)
        { s with up := update s.up e rest, handlers := update s.handlers e (.connect f) }
  | takeFetch (s : Network E) (e : E) (f resp : Frame) (rest : List Frame)
      (hpc : s.handlers e = .idle) (hup : s.up e = f :: rest) (htype : f.type = .edgeFetchReq)
      (hresp : handleEdgeFetchReq (D.index (D.home e)) f = some resp) :
      NetworkStep s (.handler e)
        { s with
          up := update s.up e rest
          handlers := update s.handlers e (.reply f ⟨resp, .edge (D.home e) f⟩) }
  | close (s : Network E) (e : E) (f : Frame) (rest : List Frame)
      (hpc : s.handlers e = .idle) (hup : s.up e = f :: rest) (hbeat : f.type ≠ .heartbeat)
      (hcross : f.type ≠ .crossEdgeReq)
      (hfetch : f.type = .edgeFetchReq → handleEdgeFetchReq (D.index (D.home e)) f = none) :
      NetworkStep s (.handler e)
        { s with up := update s.up e rest, handlers := update s.handlers e .closed }
  /-- `connect_tcp` と `write_frame`。 -/
  | connect (s : Network E) (e : E) (f : Frame) (hpc : s.handlers e = .connect f) :
      NetworkStep s (.handler e)
        { s with
          handlers := update s.handlers e (.fetching f s.nextConnection)
          connections := update s.connections s.nextConnection ⟨some f, [f], .accepted, []⟩
          nextConnection := s.nextConnection + 1 }
  /-- `read_frame` と `::close`。 -/
  | readResponse (s : Network E) (e : E) (f : Frame) (c : Nat) (p : Packet) (rest : List Packet)
      (hpc : s.handlers e = .fetching f c) (hdown : (s.connections c).down = p :: rest) :
      NetworkStep s (.handler e)
        { s with
          handlers := update s.handlers e (.reply f p)
          connections := update s.connections c
            { s.connections c with client := none, down := rest } }
  | replyEnd (s : Network E) (e : E) (f : Frame) (p : Packet)
      (hpc : s.handlers e = .reply f p) :
      NetworkStep s (.handler e)
        { s with
          handlers := update s.handlers e .idle
          down := update s.down e (s.down e ++ [p]) }
  -- `handle_connection` と `forward_to_edge`
  | readRequest (s : Network E) (c : Nat) (f : Frame) (rest : List Frame)
      (hpc : (s.connections c).pc = .accepted) (hup : (s.connections c).up = f :: rest) :
      NetworkStep s (.connection c)
        { s with
          connections := update s.connections c { s.connections c with
            up := rest
            pc := if f.type = .crossEdgeReq then .route f else .closed } }
  | routeRequest (s : Network E) (c : Nat) (f : Frame)
      (hpc : (s.connections c).pc = .route f) :
      NetworkStep s (.connection c)
        { s with
          connections := update s.connections c { s.connections c with
            pc := match D.cloud.routeCrossEdgeReq f with
              | .error resp => .reply f ⟨resp, .cloud f⟩
              | .ok edge => .edgeConn f edge } }
  | edgeConn (s : Network E) (c : Nat) (f : Frame) (edge : Int)
      (hpc : (s.connections c).pc = .edgeConn f edge) :
      NetworkStep s (.connection c)
        { s with
          connections := update s.connections c { s.connections c with
            pc := if edge ∈ s.edges then .locking f edge
              else .reply f ⟨makeFetchResp .error 0, .cloud f⟩ } }
  | lock (s : Network E) (c : Nat) (f : Frame) (edge : Int)
      (hpc : (s.connections c).pc = .locking f edge) (hfree : s.holder edge = none) :
      NetworkStep s (.connection c)
        { s with
          holder := update s.holder edge (some (.connection c))
          connections := update s.connections c { s.connections c with pc := .locked f edge } }
  | forward (s : Network E) (c : Nat) (f : Frame) (edge : Int)
      (hpc : (s.connections c).pc = .locked f edge) :
      NetworkStep s (.connection c)
        { s with
          toEdge := update s.toEdge edge (s.toEdge edge ++ [f])
          connections := update s.connections c { s.connections c with pc := .waiting f edge } }
  | readAnswer (s : Network E) (c : Nat) (f : Frame) (edge : Int) (p : Packet)
      (rest : List Packet) (hpc : (s.connections c).pc = .waiting f edge)
      (hback : s.toCloud edge = p :: rest) :
      NetworkStep s (.connection c)
        { s with
          toCloud := update s.toCloud edge rest
          connections := update s.connections c
            { s.connections c with pc := .answered f edge p } }
  | unlock (s : Network E) (c : Nat) (f : Frame) (edge : Int) (p : Packet)
      (hpc : (s.connections c).pc = .answered f edge p) :
      NetworkStep s (.connection c)
        { s with
          holder := update s.holder edge none
          connections := update s.connections c { s.connections c with pc := .reply f p } }
  | replyConnection (s : Network E) (c : Nat) (f : Frame) (p : Packet)
      (hpc : (s.connections c).pc = .reply f p) :
      NetworkStep s (.connection c)
        { s with
          connections := update s.connections c { s.connections c with
            pc := .closed, down := (s.connections c).down ++ [p] } }
  -- `register_edge`
  | registerEdge (s : Network E) (edge : Int) (hnew : edge ∉ s.edges) :
      NetworkStep s (.registration edge)
        { s with edges := edge :: s.edges, unacked := edge :: s.unacked }
  | ack (s : Network E) (edge : Int) (hun : edge ∈ s.unacked) :
      NetworkStep s (.registration edge)
        { s with
          unacked := s.unacked.erase edge
          toEdge := update s.toEdge edge
            (s.toEdge edge ++ [⟨.heartbeatAck, appendU32 [] (edge % 2 ^ 32).toNat⟩]) }
  -- `hot_update_loop` と `send_hot_update`
  | selectHot (s : Network E) (target : Int) (f : Frame) (hpc : s.pusher = .idle)
      (hf : CloudServer.sendHotUpdate { D.cloud with edges := s.edges } target = some f) :
      NetworkStep s .hotUpdateLoop
        { s with pusher := .locking (D.cloud.rm.edgeOf target) f }
  | lockHot (s : Network E) (edge : Int) (f : Frame) (hpc : s.pusher = .locking edge f)
      (hfree : s.holder edge = none) :
      NetworkStep s .hotUpdateLoop
        { s with
          holder := update s.holder edge (some .hotUpdateLoop), pusher := .locked edge f }
  | writeHot (s : Network E) (edge : Int) (f : Frame) (hpc : s.pusher = .locked edge f) :
      NetworkStep s .hotUpdateLoop
        { s with
          toEdge := update s.toEdge edge (s.toEdge edge ++ [f]), pusher := .written edge }
  | unlockHot (s : Network E) (edge : Int) (hpc : s.pusher = .written edge) :
      NetworkStep s .hotUpdateLoop
        { s with holder := update s.holder edge none, pusher := .idle }
  -- `cloud_receiver_loop`
  | readControl (s : Network E) (edge : Int) (f : Frame) (rest : List Frame)
      (hpc : s.control edge = none) (hto : s.toEdge edge = f :: rest) :
      NetworkStep s (.control edge)
        { s with
          toEdge := update s.toEdge edge rest, control := update s.control edge (some f) }
  | forwardHotUpdate (s : Network E) (edge : Int) (f : Frame)
      (hpc : s.control edge = some f) (htype : f.type = .hotUpdate) :
      NetworkStep s (.control edge)
        { s with
          control := update s.control edge none
          down := sendToEnd s.down (hotUpdateTarget (s.routes edge) f) }
  | serveCross (s : Network E) (edge : Int) (f : Frame)
      (hpc : s.control edge = some f) (htype : f.type = .crossEdgeReq) :
      NetworkStep s (.control edge)
        { s with
          control := update s.control edge none
          toCloud := update s.toCloud edge
            (s.toCloud edge ++ [⟨handleCloudCrossReq (D.index edge) f, .edge edge f⟩]) }
  /-- `HEARTBEAT_ACK` と知らない frame は、読むだけである。 -/
  | ignoreControl (s : Network E) (edge : Int) (f : Frame)
      (hpc : s.control edge = some f) (hhot : f.type ≠ .hotUpdate)
      (hcross : f.type ≠ .crossEdgeReq) :
      NetworkStep s (.control edge) { s with control := update s.control edge none }

end Step

end Plin
