import Plin.Common.RdmaTransport
import Plin.Infra.Threads

/-!
# RDMA の接続（`rdma_transport.cpp`）

`write_frame` も `read_remote` も、work request を一つ投げ、送信側の completion queue から完了を一つ取り出す。
取り出した完了がどの work request のものかは見ない（`poll_cq(send_cq_, nullptr, …)`）。待つのは
`kDefaultCmTimeoutMs` までで、待ちきれなければ `false` を返すが、投げた work request は残っている。

* 送信の buffer と読み出しの buffer は一つずつで、work request は buffer を写さずに指す。送られるのは、work
  request が実行されたときの中身である。
* 届いた byte 列は、相手が投げておいた受信の buffer に、投げた順に入る。`read_frame` は完了した buffer から frame を
  取り出せたときだけ、その buffer を投げ直す。
* work request は投げた順に実行され、失われない（RC）。いつ実行されるかは決まらず、受信の buffer が無ければ待つ。
* 完了の失敗と切断は考えない。登録された遠隔の記憶は書き換わらない。
-/

namespace Plin

open Infra

/-- `kRecvDepth`。 -/
def kRecvDepth : Nat := 8

/-- 送信側に投げた work request。 -/
inductive WorkRequest where
  /-- `IBV_WR_SEND`。送信の buffer の先頭の `size` byte を送る。 -/
  | send (size : Nat)
  /-- `IBV_WR_RDMA_READ`。 -/
  | read (r : RemoteRead)
  deriving DecidableEq

/-- 完了を待っている呼び出し。 -/
inductive RdmaCall where
  | idle
  | writeFrame (f : Frame)
  /-- `read_remote` の loop の一回。 -/
  | readRemote (r : RemoteRead)
  deriving DecidableEq

/-- 遠隔の記憶から読まれる byte 列。 -/
def fetchRemote (memory : Nat → UInt8) (r : RemoteRead) : Bytes :=
  (List.range r.size).map fun k => memory (r.addr + k)

/-- 一方の端と、相手の受信の buffer。最後の四つは source には無い記録である。 -/
structure RdmaLink where
  /-- `send_.bytes`。 -/
  send : Bytes
  /-- `read_.bytes`。 -/
  read : Bytes
  /-- 投げて、まだ実行されていない work request。 -/
  sq : List WorkRequest
  /-- `send_cq_` の、取り出されていない完了の個数。 -/
  sendCq : Nat
  /-- 相手の `recv_`。 -/
  recv : List Bytes
  /-- 投げてある受信の buffer の番号。 -/
  posted : List Nat
  /-- `recv_cq_`。 -/
  recvCq : List Nat
  call : RdmaCall
  /-- `write_frame` が投げた frame。 -/
  written : List Frame
  /-- `write_frame` が `true` を返した frame。 -/
  acked : List Frame
  /-- 相手の `read_frame` が返した frame。 -/
  taken : List Frame
  /-- `read_remote` が読んだ byte 列。 -/
  fetched : List (RemoteRead × Bytes)

inductive RdmaEvent where
  | writeFrame (f : Frame)
  | readRemote (r : RemoteRead)
  /-- `poll_cq` が完了を取り出す。 -/
  | poll
  /-- `poll_cq` が待ちきれない。 -/
  | timeout
  /-- 先頭の work request が実行される。 -/
  | execute
  /-- 相手の `read_frame`。 -/
  | readFrame
  deriving DecidableEq

namespace RdmaLink

/-- `init_buffers` の後。 -/
def initial : RdmaLink where
  send := List.replicate kMaxFrameBytes 0
  read := List.replicate kMaxFrameBytes 0
  sq := []
  sendCq := 0
  recv := List.replicate kRecvDepth (List.replicate kMaxFrameBytes 0)
  posted := List.range kRecvDepth
  recvCq := []
  call := .idle
  written := []
  acked := []
  taken := []
  fetched := []

/-- `write_frame` が完了を待つまで。buffer に入らない frame は投げない。 -/
def postSend (s : RdmaLink) (f : Frame) : RdmaLink :=
  match rdmaWriteFrame s.send f with
  | none => s
  | some (bytes, send) =>
    { s with
      send := send
      sq := s.sq ++ [.send bytes.length]
      call := .writeFrame f
      written := s.written ++ [f] }

/-- 完了を取り出した呼び出しが返る。 -/
def complete (s : RdmaLink) : Option RdmaLink :=
  match s.call with
  | .idle => none
  | .writeFrame f =>
    some { s with sendCq := s.sendCq - 1, call := .idle, acked := s.acked ++ [f] }
  | .readRemote r =>
    some { s with
      sendCq := s.sendCq - 1
      call := .idle
      fetched := s.fetched ++ [(r, s.read.take r.size)] }

/-- 先頭の work request を実行する。 -/
def execute (memory : Nat → UInt8) (s : RdmaLink) : Option RdmaLink :=
  match s.sq, s.posted with
  | [], _ => none
  | .send _ :: _, [] => none
  | .send size :: sq, i :: posted =>
    some { s with
      sq := sq
      sendCq := s.sendCq + 1
      recv := s.recv.modify i fun b => s.send.take size ++ b.drop size
      posted := posted
      recvCq := s.recvCq ++ [i] }
  | .read r :: sq, _ =>
    some { s with
      sq := sq
      sendCq := s.sendCq + 1
      read := fetchRemote memory r ++ s.read.drop r.size }

/-- 相手の `read_frame`。 -/
def readFrame (s : RdmaLink) : Option RdmaLink :=
  match s.recvCq with
  | [] => none
  | i :: recvCq => do
    match rdmaReadFrame (← s.recv[i]?) with
    | .rejected => some { s with recvCq := recvCq }
    | .received f =>
      some { s with recvCq := recvCq, posted := s.posted ++ [i], taken := s.taken ++ [f] }
    | .overrun _ => none

/-- 一歩。`none` は起こりえないか、buffer の外を読むことである。 -/
def next (memory : Nat → UInt8) (s : RdmaLink) : RdmaEvent → Option RdmaLink
  | .writeFrame f => if s.call = .idle then some (s.postSend f) else none
  | .readRemote r =>
    if s.call = .idle ∧ r.size ≤ s.read.length then
      some { s with sq := s.sq ++ [.read r], call := .readRemote r }
    else none
  | .poll => if s.sendCq = 0 then none else s.complete
  | .timeout => if s.call = .idle then none else some { s with call := .idle }
  | .execute => s.execute memory
  | .readFrame => s.readFrame

def Step (memory : Nat → UInt8) (s : RdmaLink) (e : RdmaEvent) (s' : RdmaLink) : Prop :=
  s.next memory e = some s'

/-- 前の work request の完了を取り出してから、次の呼び出しを始める。 -/
def Calm (s : RdmaLink) : RdmaEvent → Prop
  | .writeFrame _ => s.sq = [] ∧ s.sendCq = 0
  | .readRemote _ => s.sq = [] ∧ s.sendCq = 0
  | _ => True

end RdmaLink

end Plin
