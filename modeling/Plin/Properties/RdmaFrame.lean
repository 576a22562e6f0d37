import Plin.Common.RdmaTransport
import Plin.Properties.Rpc

/-!
# RDMA の frame

`payload_len` が `2 ^ 32 - 4` 以上だと `payload_len + 4` が折り返し、長さの検査を通ってしまう。**buffer の
外を読むのはこのときだけである**（`rdmaReadFrame_inside_iff`）。

送った frame は、後ろに何が残っていても読み戻せる。送られる byte 列は `rpc::write_frame` のものと同じである
（`rdmaReadFrame_write`）。
-/

namespace Plin

open Infra

/-- 折り返さなければ、検査を通った本文は buffer に収まる。 -/
theorem rdmaReadFrame_of_small {b : Bytes} (h : rdmaPayloadLen b < 2 ^ 32 - 4) (n : Nat) :
    rdmaReadFrame b ≠ .overrun n := by
  unfold rdmaReadFrame
  split
  · exact RdmaRead.noConfusion
  · split
    · exact RdmaRead.noConfusion
    · next hcheck =>
      dsimp only
      rw [if_pos]
      · exact RdmaRead.noConfusion
      · omega

/-- 折り返した長さは検査を通り、本文は buffer からはみ出す。 -/
theorem rdmaReadFrame_of_wrapped {b : Bytes} (h5 : 5 ≤ b.length) (hb : b.length < 2 ^ 32 - 4)
    (hlen : rdmaPayloadLen b < 2 ^ 32) (h : 2 ^ 32 - 4 ≤ rdmaPayloadLen b) :
    rdmaReadFrame b = .overrun (rdmaPayloadLen b - 1) := by
  unfold rdmaReadFrame
  rw [if_neg (by omega), if_neg (by omega)]
  dsimp only
  rw [if_neg (by omega)]

theorem rdmaPayloadLen_lt (b : Bytes) : rdmaPayloadLen b < 2 ^ 32 := by
  have hlt := ofLeBytes_lt (b.take 4).reverse
  have hpow : 256 ^ (b.take 4).reverse.length ≤ 256 ^ 4 :=
    Nat.pow_le_pow_right (by decide) (by simp)
  exact lt_of_lt_of_le hlt hpow

/-- 送られる byte 列は `rpc::write_frame` のものと同じで、送信の buffer の残りは変わらない。 -/
theorem rdmaWriteFrame_eq {send : Bytes} {f : Frame} (hsend : send.length ≤ kMaxFrameBytes)
    (hf : f.body.length + 5 ≤ send.length) :
    rdmaWriteFrame send f = some (f.bytes, f.bytes ++ send.drop (f.body.length + 5)) := by
  have hmax : kMaxFrameBytes = 2 ^ 22 := by decide
  have hsmall : f.Small := by
    rw [Frame.Small]
    omega
  have hpay : (1 + f.body.length) % 2 ^ 32 = f.payloadLen := by
    rw [hsmall.payloadLen_eq]
    omega
  have htotal : (4 + (1 + f.body.length)) % 2 ^ 32 = f.bytes.length := by
    rw [Frame.bytes_eq]
    simp only [List.length_append, length_beBytes, List.length_singleton]
    omega
  unfold rdmaWriteFrame
  dsimp only
  rw [if_neg (by omega), hpay, ← Frame.bytes_eq, htotal, List.take_left,
    show 4 + (1 + f.body.length) = f.body.length + 5 by omega]

/-- **送った frame は、後ろに残っている byte によらず読み戻せる。** -/
theorem rdmaReadFrame_write {f : Frame} (hf : f.Small) {stale : Bytes} :
    rdmaReadFrame (f.bytes ++ stale) = .received f := by
  have hpay : rdmaPayloadLen (f.bytes ++ stale) = f.body.length + 1 := by
    rw [rdmaPayloadLen, Frame.bytes_eq, List.append_assoc, List.take_left' (length_beBytes 4 _)]
    exact hf.ofBeBytes_eq
  have hlen : (f.bytes ++ stale).length = f.body.length + 5 + stale.length := by
    rw [Frame.bytes_eq]
    simp only [List.length_append, length_beBytes, List.length_singleton]
    omega
  have hdrop : (f.bytes ++ stale).drop 4 = f.type.byte :: (f.body ++ stale) := by
    rw [Frame.bytes_eq, List.append_assoc, List.drop_left' (length_beBytes 4 _)]
    rfl
  have hbody : ((f.bytes ++ stale).drop 5).take f.body.length = f.body := by
    rw [show 5 = 4 + 1 by rfl, ← List.drop_drop, hdrop]
    exact List.take_left
  rw [Frame.Small] at hf
  unfold rdmaReadFrame
  rw [if_neg (by omega), if_neg (by omega)]
  dsimp only
  rw [if_pos (by omega), hpay, Nat.add_sub_cancel, hbody, hdrop]
  rfl

/--
**受信の buffer の外を読まないのは、`payload_len` が `2 ^ 32 - 4` より小さいとき、またそのときに限る。**

`write_frame` の受け付ける frame は `rpc::write_frame` と同じ byte 列になり、使い回しの buffer から読み戻せる。
-/
theorem rdmaReadFrame_inside_iff (b : Bytes) (hb : b.length = kMaxFrameBytes) :
    ((∀ n, rdmaReadFrame b ≠ .overrun n) ↔ rdmaPayloadLen b < 2 ^ 32 - 4) ∧
      ∀ (send : Bytes) (f : Frame) (stale : Bytes), send.length = kMaxFrameBytes →
        f.body.length + 5 ≤ kMaxFrameBytes →
        (∃ send', rdmaWriteFrame send f = some (f.bytes, send')) ∧
          rdmaReadFrame (f.bytes ++ stale) = .received f := by
  have hmax : kMaxFrameBytes = 2 ^ 22 := by decide
  constructor
  · constructor
    · intro h
      by_contra hc
      exact h _ (rdmaReadFrame_of_wrapped (by omega) (by omega) (rdmaPayloadLen_lt b) (by omega))
    · exact fun h n => rdmaReadFrame_of_small h n
  · intro send f stale hsend hf
    refine ⟨⟨_, rdmaWriteFrame_eq hsend.le (by omega)⟩, rdmaReadFrame_write ?_⟩
    rw [Frame.Small]
    omega

/-- 鍵 `5.0` の `EDGE_FETCH_REQ`。 -/
def fetchFrame : Frame := ⟨.edgeFetchReq, [64, 20, 0, 0, 0, 0, 0, 0]⟩

/-- 前の frame の byte が後ろに残った buffer からも、送った frame が読み戻せる。 -/
theorem rdmaReadFrame_inside_iff_fetch :
    (∀ n, rdmaReadFrame (fetchFrame.bytes ++ List.replicate (kMaxFrameBytes - 13) 7) ≠
      .overrun n) ∧
      rdmaReadFrame (fetchFrame.bytes ++ List.replicate (kMaxFrameBytes - 13) 7) =
        .received fetchFrame := by
  have hmax : kMaxFrameBytes = 2 ^ 22 := by decide
  have hbytes : fetchFrame.bytes = [0, 0, 0, 9, 3, 64, 20, 0, 0, 0, 0, 0, 0] := by decide
  have hlen : (fetchFrame.bytes ++ List.replicate (kMaxFrameBytes - 13) 7).length =
      kMaxFrameBytes := by
    rw [List.length_append, List.length_replicate, hbytes]
    show 13 + (kMaxFrameBytes - 13) = kMaxFrameBytes
    omega
  obtain ⟨hinside, hsent⟩ := rdmaReadFrame_inside_iff _ hlen
  have hbody : fetchFrame.body.length + 5 ≤ kMaxFrameBytes := by
    show 13 ≤ kMaxFrameBytes
    omega
  refine ⟨hinside.mpr ?_, (hsent (List.replicate kMaxFrameBytes 0) fetchFrame _
    List.length_replicate hbody).2⟩
  rw [hbytes]
  show ofBeBytes [0, 0, 0, 9] < 2 ^ 32 - 4
  decide

/-- 長さの欄が `2 ^ 32 - 1` の buffer。 -/
def wrappedBuffer : Bytes := [255, 255, 255, 255, 3] ++ List.replicate (kMaxFrameBytes - 5) 0

/-- 長さの欄が `2 ^ 32 - 1` なら検査を通り、`2 ^ 32 - 2` byte を写そうとする。 -/
theorem rdmaReadFrame_wrapped :
    wrappedBuffer.length = kMaxFrameBytes ∧
      rdmaReadFrame wrappedBuffer = .overrun (2 ^ 32 - 2) := by
  have hmax : kMaxFrameBytes = 2 ^ 22 := by decide
  have hlen : wrappedBuffer.length = kMaxFrameBytes := by
    rw [wrappedBuffer, List.length_append, List.length_replicate]
    show 5 + (kMaxFrameBytes - 5) = kMaxFrameBytes
    omega
  have hpay : rdmaPayloadLen wrappedBuffer = 2 ^ 32 - 1 := by
    show ofBeBytes [255, 255, 255, 255] = 2 ^ 32 - 1
    decide
  refine ⟨hlen, ?_⟩
  rw [rdmaReadFrame_of_wrapped (by omega) (by omega) (by omega) (by omega), hpay]
  rfl

end Plin
