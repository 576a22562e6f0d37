import Plin.Common.Rpc
import Plin.Infra.Threads

/-!
# Cloud から Edge への stream（`cloud_server.cpp`）

Edge が `HEARTBEAT` を送って接続すると、`register_edge` は接続を `edges_` に載せ、その後で
`HEARTBEAT_ACK` を書く。載った接続は `forward_to_edge` と `send_hot_update` の thread から見え、
これらは `conn->mu` を取ってから書く。**`register_edge` は `conn->mu` を取らない。**

一回の `::write` を、stream の末尾への原子的な追加とする。
-/

namespace Plin

open Infra

/-- 一つの接続に関わる状態。 -/
structure EdgeStream where
  /-- `edges_` に載ったか。 -/
  published : Bool
  /-- `conn->mu` が取られているか。 -/
  mu : Bool
  stream : Bytes
  /-- 最後の書き込みまで終わった frame。source には無い記録である。 -/
  sent : List Frame

/-- 接続に書く thread の実行位置。 -/
inductive StreamPc where
  | idle
  /-- `register_edge` の始め。 -/
  | register (edgeId : Nat)
  /-- `register_edge` の `write_frame`。`k` 個まで書いた。 -/
  | ack (f : Frame) (k : Nat)
  /-- `edge_conn` で接続を得て、`conn->mu` を待つ。`forward` なら `forward_to_edge` である。 -/
  | wait (forward : Bool) (f : Frame)
  /-- `conn->mu` を取った `write_frame`。 -/
  | write (forward : Bool) (f : Frame) (k : Nat)
  /-- `forward_to_edge` の返事の待ち。 -/
  | read
  /-- `conn->mu` を放す直前。 -/
  | unlock
  deriving DecidableEq

/-- `register_edge` の返事。 -/
def heartbeatAckFrame (edgeId : Nat) : Frame := ⟨.heartbeatAck, leBytes 4 edgeId⟩

/-- 一つの frame の `k` 番目の書き込み。最後の書き込みなら frame が書き終わる。 -/
def EdgeStream.append (m : EdgeStream) (f : Frame) (k : Nat) (chunk : Bytes) : EdgeStream :=
  { m with
    stream := m.stream ++ chunk
    sent := if k + 1 = f.chunks.length then m.sent ++ [f] else m.sent }

/-- thread の一歩。 -/
inductive StreamStep : EdgeStream → StreamPc → EdgeStream → StreamPc → Prop
  | publish (m : EdgeStream) (edgeId : Nat) :
      StreamStep m (.register edgeId) { m with published := true }
        (.ack (heartbeatAckFrame edgeId) 0)
  | ack (m : EdgeStream) (f : Frame) (k : Nat) (chunk : Bytes) (h : f.chunks[k]? = some chunk) :
      StreamStep m (.ack f k) (m.append f k chunk)
        (if k + 1 = f.chunks.length then .idle else .ack f (k + 1))
  | edgeConn (m : EdgeStream) (forward : Bool) (f : Frame) (h : m.published) :
      StreamStep m .idle m (.wait forward f)
  | lock (m : EdgeStream) (forward : Bool) (f : Frame) (h : m.mu = false) :
      StreamStep m (.wait forward f) { m with mu := true } (.write forward f 0)
  | write (m : EdgeStream) (forward : Bool) (f : Frame) (k : Nat) (chunk : Bytes)
      (h : f.chunks[k]? = some chunk) :
      StreamStep m (.write forward f k) (m.append f k chunk)
        (if k + 1 = f.chunks.length then (if forward then .read else .unlock)
          else .write forward f (k + 1))
  | read (m : EdgeStream) : StreamStep m .read m .unlock
  | unlock (m : EdgeStream) : StreamStep m .unlock { m with mu := false } .idle

/-- 接続と thread の組。 -/
abbrev StreamState (T : Type) := Threads T EdgeStream StreamPc

/-- Edge が接続した直後。`registrar` が `register_edge` を呼び、接続はまだ `edges_` に無い。 -/
def StreamState.initial {T : Type} [DecidableEq T] (registrar : T) (edgeId : Nat) :
    StreamState T :=
  ⟨⟨false, false, [], []⟩, fun t => if t = registrar then .register edgeId else .idle⟩

/-- どれか一つの thread の一歩。 -/
abbrev StreamState.Step {T : Type} [DecidableEq T] :
    StreamState T → Option T → StreamState T → Prop :=
  Interleave StreamStep fun _ _ => False

end Plin
