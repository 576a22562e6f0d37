import Plin.Common.Rpc

/-!
# RDMA の transport（`rdma_transport.cpp`）

frame は大きさの決まった buffer で送受信される。受信の buffer は使い回されるので、届いた frame の後ろには
前の frame の byte が残っている。長さの検査 `payload_len + 4 > b.size()` の加算は `uint32_t` で行われる。

遠隔読み出し `read_remote` は、読み出し用の buffer の大きさごとに分けて番地を進める。verbs の呼び出し
（`ibv_post_send`、`poll_cq`、`post_recv`）は byte の中身に関わらないので、成功したものとする。
-/

namespace Plin

open Infra

/-- `kMaxFrameBytes`。 -/
def kMaxFrameBytes : Nat := 4 * 1024 * 1024

/-- `RdmaTransport::read_frame` の結果。 -/
inductive RdmaRead where
  /-- `false` を返す。 -/
  | rejected
  | received (f : Frame)
  /-- 本文の `memcpy` が受信の buffer の外を読む。 -/
  | overrun (bodyLen : Nat)
  deriving DecidableEq

/-- 受信の buffer の先頭の `payload_len`。 -/
def rdmaPayloadLen (b : Bytes) : Nat := ofBeBytes (b.take 4)

/-- `RdmaTransport::read_frame`。 -/
def rdmaReadFrame (b : Bytes) : RdmaRead :=
  if b.length < 5 then .rejected
  else if rdmaPayloadLen b < 1 ∨ b.length < (rdmaPayloadLen b + 4) % 2 ^ 32 then .rejected
  else
    let bodyLen := rdmaPayloadLen b - 1
    if 5 + bodyLen ≤ b.length then
      .received ⟨⟨(b.drop 4).headD 0⟩, (b.drop 5).take bodyLen⟩
    else .overrun bodyLen

/-- `RdmaTransport::write_frame`。送られる byte 列と、書いた後の送信の buffer を返す。 -/
def rdmaWriteFrame (send : Bytes) (f : Frame) : Option (Bytes × Bytes) :=
  let payloadLen := 1 + f.body.length
  let total := 4 + payloadLen
  if send.length < total then none
  else
    let filled := beBytes 4 (payloadLen % 2 ^ 32) ++ ([f.type.byte] ++ f.body) ++ send.drop total
    some (filled.take (total % 2 ^ 32), filled)

/-! ## 遠隔読み出し -/

/-- 一回の `IBV_WR_RDMA_READ` の番地と byte 数。 -/
structure RemoteRead where
  addr : Nat
  size : Nat
  deriving DecidableEq

/-- `read_remote` の loop。`done` は読み終わった byte 数である。 -/
def readRemote (remoteAddr size : Nat) (done : Nat) : List RemoteRead :=
  if h : done < size then
    have : size - (done + min kMaxFrameBytes (size - done)) < size - done := by
      have : 0 < kMaxFrameBytes := by decide
      omega
    ⟨(remoteAddr + done) % 2 ^ 64, min kMaxFrameBytes (size - done)⟩ ::
      readRemote remoteAddr size (done + min kMaxFrameBytes (size - done))
  else []
termination_by size - done

end Plin
