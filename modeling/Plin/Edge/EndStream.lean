import Mathlib.Logic.Function.Basic
import Plin.Edge.EdgeServer
import Plin.Edge.HotUpdate
import Plin.Infra.Threads

/-!
# Edge から End への stream（`edge_server.cpp` / `transport.cpp`）

End の接続ごとに一つの thread が `handle_end` を走らせ、`cloud_receiver_loop` の thread が `HOT_UPDATE` を
`send_to_end` で中継する。どちらも接続ごとの `write_mu` を取ってから書く。`rt.ends` を見る箇所は `ends_mu` の
中にあるので、一歩とする。

* 一回の `::write` を、socket の stream の末尾への原子的な追加とする。`rpc::write_frame` は `fd_` の値を受け取って
  書くので、途中で接続が閉じられても、同じ番号に書き続ける。
* `TcpTransport::close` は `write_mu` を取らず、`::close` の後で `fd_` を消す。
* kernel は、閉じられた番号を次に開くもの（End の接続、`cloud_cross_fetch` の接続など）に使ってよい。
* End の接続は TCP である。遠隔読み出しが使えないので、`send_rdma_snapshot_info_if_supported` は何もしない。
-/

namespace Plin

open Infra Function

/-- `write_locked` を呼ぶもの。 -/
inductive EndWriter where
  /-- `handle_end` の始めの `PLIN_PARAM_PUSH`。 -/
  | greeting
  /-- 要求への応答。 -/
  | reply
  /-- `send_to_end`。 -/
  | push
  deriving DecidableEq

/-- 一つの End の接続。`C` は接続であり、thread `some c` が `c` の `handle_end` を走らせる。 -/
structure EndTransport (C : Type) where
  /-- `TcpTransport::fd_`。 -/
  fd : Option Nat
  /-- kernel での socket の番号。閉じられていれば `none`。 -/
  sock : Option Nat
  /-- 相手が切った。以後の書き込みは失敗する。 -/
  broken : Bool
  /-- `write_mu` を持つ thread。 -/
  writeMu : Option (Option C)
  stream : Bytes
  /-- 最後の書き込みまで終わった frame。source には無い記録である。 -/
  sent : List (EndWriter × Frame)
  /-- この接続で届いた `HEARTBEAT` の End の番号。source には無い記録である。 -/
  heard : List Nat
  /-- 読んだ要求と、書くと決めた応答。source には無い記録である。 -/
  asked : List (Frame × Frame)

/-- まだ受け付けていない接続。 -/
def EndTransport.fresh {C : Type} : EndTransport C := ⟨none, none, false, none, [], [], [], []⟩

/-- `EdgeRuntime` と接続。 -/
structure EdgeRuntime (C : Type) where
  transports : C → EndTransport C
  /-- `rt.ends`。 -/
  ends : Nat → Option C
  /-- End の接続でない、開いている番号。 -/
  others : Nat → Bool
  /-- Cloud から届いた `HOT_UPDATE` の宛先と中身。source には無い記録である。 -/
  orders : List (Nat × Frame)

/-- thread の実行位置。 -/
inductive EndPc (C : Type) where
  | waiting (c : C)
  /-- `write_mu` を待つ。 -/
  | lock (w : EndWriter) (c : C) (f : Frame)
  /-- `write_frame` が `fd_` を読む前。 -/
  | locked (w : EndWriter) (c : C) (f : Frame)
  /-- 番号 `n` への `rpc::write_frame`。`k` 個まで書いた。 -/
  | write (w : EndWriter) (c : C) (n : Nat) (f : Frame) (k : Nat)
  | unlock (w : EndWriter) (c : C) (ok : Bool)
  /-- `handle_end` の loop の `read_frame`。 -/
  | serve (c : C)
  | unregister (c : C)
  | close (c : C)
  /-- `::close` の後、`fd_` を消す前。 -/
  | closing (c : C)
  | closed (c : C)
  /-- `cloud_receiver_loop` の `read_frame`。 -/
  | receive

/-- `write_locked` の後。 -/
def EndPc.after {C : Type} : EndWriter → C → Bool → EndPc C
  | .greeting, c, true => .serve c
  | .greeting, c, false => .close c
  | .reply, c, true => .serve c
  | .reply, c, false => .unregister c
  | .push, _, _ => .receive

namespace EdgeRuntime

variable {C : Type} [DecidableEq C]

def set (m : EdgeRuntime C) (c : C) (x : EndTransport C) : EdgeRuntime C :=
  { m with transports := update m.transports c x }

/-- 一つの frame の `k` 番目の書き込み。最後の書き込みなら frame が書き終わる。 -/
def append (m : EdgeRuntime C) (w : EndWriter) (c : C) (f : Frame) (k : Nat) (chunk : Bytes) :
    EdgeRuntime C :=
  m.set c { m.transports c with
    stream := (m.transports c).stream ++ chunk
    sent := if k + 1 = f.chunks.length then (m.transports c).sent ++ [(w, f)]
      else (m.transports c).sent }

/-- `register_end`。 -/
def registerEnd (m : EdgeRuntime C) (c : C) (id : Nat) : EdgeRuntime C :=
  { m.set c { m.transports c with heard := (m.transports c).heard ++ [id] } with
    ends := update m.ends id (some c) }

/-- `unregister_transport`。 -/
def unregisterTransport (m : EdgeRuntime C) (c : C) : EdgeRuntime C :=
  { m with ends := fun id => if m.ends id = some c then none else m.ends id }

/-- 応答を決める。 -/
def ask (m : EdgeRuntime C) (c : C) (req resp : Frame) : EdgeRuntime C :=
  m.set c { m.transports c with asked := (m.transports c).asked ++ [(req, resp)] }

/-- 番号がどこにも使われていない。 -/
def Free (m : EdgeRuntime C) (n : Nat) : Prop :=
  m.others n = false ∧ ∀ c, (m.transports c).sock ≠ some n

end EdgeRuntime

section Step

variable {C : Type} [DecidableEq C] (idx : EdgeIndex) (param : Frame)

/-- `handle_end` の読んだ要求への応答。`CROSS_EDGE_REQ` には、Cloud から読んだ frame か `ERROR` を返す。 -/
inductive EndAnswer : Frame → Frame → Prop
  | params {req : Frame} (htype : req.type = .plinParamPush) (hbody : req.body = []) :
      EndAnswer req param
  | cross {req resp : Frame} (htype : req.type = .crossEdgeReq) (hresp : resp.Small) :
      EndAnswer req resp
  | fetch {req resp : Frame} (htype : req.type = .edgeFetchReq)
      (hresp : handleEdgeFetchReq idx req = some resp) : EndAnswer req resp

/-- thread `t` の一歩。 -/
inductive EndThreadStep (t : Option C) :
    EdgeRuntime C → EndPc C → EdgeRuntime C → EndPc C → Prop
  | lock (m : EdgeRuntime C) (w : EndWriter) (c : C) (f : Frame)
      (h : (m.transports c).writeMu = none) :
      EndThreadStep t m (.lock w c f) (m.set c { m.transports c with writeMu := some t })
        (.locked w c f)
  | noFd (m : EdgeRuntime C) (w : EndWriter) (c : C) (f : Frame)
      (h : (m.transports c).fd = none) :
      EndThreadStep t m (.locked w c f) m (.unlock w c false)
  | readFd (m : EdgeRuntime C) (w : EndWriter) (c : C) (n : Nat) (f : Frame)
      (h : (m.transports c).fd = some n) :
      EndThreadStep t m (.locked w c f) m (.write w c n f 0)
  -- 番号 `n` が別の接続 `d` のものになっていれば、byte は `d` に届く。
  | write (m : EdgeRuntime C) (w : EndWriter) (c d : C) (n : Nat) (f : Frame) (k : Nat)
      (chunk : Bytes) (hsock : (m.transports d).sock = some n)
      (hbroken : (m.transports d).broken = false) (h : f.chunks[k]? = some chunk) :
      EndThreadStep t m (.write w c n f k) (m.append w d f k chunk)
        (if k + 1 = f.chunks.length then .unlock w c true else .write w c n f (k + 1))
  | writeOther (m : EdgeRuntime C) (w : EndWriter) (c : C) (n : Nat) (f : Frame) (k : Nat)
      (hother : m.others n = true) (h : k < f.chunks.length) :
      EndThreadStep t m (.write w c n f k) m
        (if k + 1 = f.chunks.length then .unlock w c true else .write w c n f (k + 1))
  | writeFails (m : EdgeRuntime C) (w : EndWriter) (c : C) (n : Nat) (f : Frame) (k : Nat)
      (h : ∀ d, (m.transports d).sock = some n → (m.transports d).broken = true) :
      EndThreadStep t m (.write w c n f k) m (.unlock w c false)
  | unlock (m : EdgeRuntime C) (w : EndWriter) (c : C) (ok : Bool) :
      EndThreadStep t m (.unlock w c ok) (m.set c { m.transports c with writeMu := none })
        (.after w c ok)
  | heartbeat (m : EdgeRuntime C) (c : C) (req : Frame) (id : Nat)
      (htype : req.type = .heartbeat) (hid : readU32 req.body 0 = some id) :
      EndThreadStep t m (.serve c) (m.registerEnd c id) (.serve c)
  | request (m : EdgeRuntime C) (c : C) (req resp : Frame) (h : EndAnswer idx param req resp) :
      EndThreadStep t m (.serve c) (m.ask c req resp) (.lock .reply c resp)
  -- 読めないか、知らない frame である。
  | hangUp (m : EdgeRuntime C) (c : C) : EndThreadStep t m (.serve c) m (.unregister c)
  | unregister (m : EdgeRuntime C) (c : C) :
      EndThreadStep t m (.unregister c) (m.unregisterTransport c) (.close c)
  | close (m : EdgeRuntime C) (c : C) :
      EndThreadStep t m (.close c) (m.set c { m.transports c with sock := none }) (.closing c)
  | closed (m : EdgeRuntime C) (c : C) :
      EndThreadStep t m (.closing c) (m.set c { m.transports c with fd := none }) (.closed c)
  | noEnd (m : EdgeRuntime C) (f : Frame) (id : Nat) (g : Frame) (hf : f.Small)
      (h : handleCloudHotUpdate f = some (id, g)) (hend : m.ends id = none) :
      EndThreadStep t m .receive { m with orders := m.orders ++ [(id, g)] } .receive
  | sendToEnd (m : EdgeRuntime C) (f : Frame) (id : Nat) (g : Frame) (c : C) (hf : f.Small)
      (h : handleCloudHotUpdate f = some (id, g)) (hend : m.ends id = some c) :
      EndThreadStep t m .receive { m with orders := m.orders ++ [(id, g)] } (.lock .push c g)

/-- 接続と thread の組。`none` は `cloud_receiver_loop` の thread である。 -/
abbrev EndState (C : Type) := Threads (Option C) (EdgeRuntime C) (EndPc C)

inductive EndEvent (C : Type) where
  | thread (t : Option C)
  /-- `accept_tcp` が番号 `n` の接続を受け付ける。 -/
  | accept (c : C) (n : Nat)
  /-- End の接続でないものが番号 `n` で開く。 -/
  | opened (n : Nat)
  | closed (n : Nat)
  /-- 相手が接続を切る。 -/
  | reset (c : C)

/-- Edge が End を待ち始めたとき。`others` は `listen_fd` や Cloud の接続の番号である。 -/
def EndState.initial (others : Nat → Bool) : EndState C where
  shared := ⟨fun _ => .fresh, fun _ => none, others, []⟩
  pc t := t.elim .receive .waiting

/-- 一歩。 -/
inductive EndState.Step : EndState C → EndEvent C → EndState C → Prop
  | thread (s : EndState C) (t : Option C) {m : EdgeRuntime C} {l : EndPc C}
      (h : EndThreadStep idx param t s.shared (s.pc t) m l) : Step s (.thread t) (s.move t m l)
  | accept (s : EndState C) (c : C) (n : Nat) (hpc : s.pc (some c) = .waiting c)
      (hfree : s.shared.Free n) :
      Step s (.accept c n) (s.move (some c)
        (s.shared.set c { s.shared.transports c with fd := some n, sock := some n })
        (.lock .greeting c param))
  | opened (s : EndState C) (n : Nat) (hfree : s.shared.Free n) :
      Step s (.opened n) ⟨{ s.shared with others := update s.shared.others n true }, s.pc⟩
  | closed (s : EndState C) (n : Nat) (h : s.shared.others n = true) :
      Step s (.closed n) ⟨{ s.shared with others := update s.shared.others n false }, s.pc⟩
  | reset (s : EndState C) (c : C) (n : Nat) (h : (s.shared.transports c).sock = some n) :
      Step s (.reset c)
        ⟨s.shared.set c { s.shared.transports c with broken := true }, s.pc⟩

/-- 番号 `n` に書いている thread も、`fd_` が `n` の接続も無い。 -/
def EndState.Quiet (s : EndState C) (n : Nat) : Prop :=
  (∀ c, (s.shared.transports c).fd ≠ some n) ∧ ∀ t w c f k, s.pc t ≠ .write w c n f k

/-- 使われている最中の番号を、kernel が別の接続に割り当てない。 -/
def EndState.Safe (s : EndState C) : EndEvent C → Prop
  | .accept _ n => s.Quiet n
  | .opened n => s.Quiet n
  | _ => True

end Step

end Plin
