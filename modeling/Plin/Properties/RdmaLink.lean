import Plin.Common.RdmaLink
import Plin.Properties.RdmaFrame

/-!
# RDMA の frame は一度ずつ順に届く

前の work request の完了を取り出してから次の呼び出しを始める実行では、**投げた frame は、投げた順に一度ずつ、
そのまま届く**。`write_frame` が `true` を返した frame は、もう相手の buffer に在る。`read_remote` が読むのは遠隔の
記憶そのものであり、受信の buffer が失われることも、読む前に上書きされることも無い（`rdma_fifo`）。一回の
`read_remote` が分けて読んだ byte 列は、つなぐと遠隔の領域の中身になる（`RdmaLink.Faithful.readRemote`）。

待ちきれなかった `write_frame` の後にそのまま次の `write_frame` を呼ぶと、まだ送られていない buffer が上書き
され、後の frame が二度届く（`timeout_duplicates`）。
-/

namespace Plin

open Infra

namespace RdmaLink

variable {memory : Nat → UInt8} {s s' : RdmaLink} {waiting flying : List Frame}

/-- 受信の buffer に frame が在る。後ろには前の frame の byte が残っている。 -/
def Stored (recv : List Bytes) (i : Nat) (f : Frame) : Prop :=
  f.Small ∧ ∃ stale, recv[i]? = some (f.bytes ++ stale)

/-- 送信側に残っている work request。`flying` は投げられて、まだ届いていない frame である。 -/
inductive Flight (s : RdmaLink) : List Frame → Prop
  | empty (h : s.sq = []) : Flight s []
  | read {r : RemoteRead} (h : s.sq = [.read r]) (hcq : s.sendCq = 0) : Flight s []
  | send {f : Frame} {rest : Bytes} (h : s.sq = [.send f.bytes.length]) (hcq : s.sendCq = 0)
      (hf : f.Small) (hsend : s.send = f.bytes ++ rest) : Flight s [f]

/-- 完了を待っている呼び出しの work request は、まだ残っているか、もう実行された。 -/
def Awaited (memory : Nat → UInt8) (s : RdmaLink) (arrived flying : List Frame) :
    RdmaCall → Prop
  | .idle => True
  | .writeFrame f => flying = [f] ∨ (s.sq = [] ∧ (s.acked ++ [f]).Sublist arrived)
  | .readRemote r => s.sq = [.read r] ∨ (s.sq = [] ∧ s.read.take r.size = fetchRemote memory r)

/-- 実行の不変条件。`waiting` は相手の buffer に在って、まだ読まれていない frame である。 -/
structure Inv (memory : Nat → UInt8) (s : RdmaLink) (waiting flying : List Frame) : Prop where
  send : s.send.length = kMaxFrameBytes
  recv : s.recv.length = kRecvDepth
  ring : (s.posted ++ s.recvCq).Perm (List.range kRecvDepth)
  order : s.written = s.taken ++ waiting ++ flying
  stored : List.Forall₂ (Stored s.recv) s.recvCq waiting
  flight : Flight s flying
  acked : s.acked.Sublist (s.taken ++ waiting)
  awaited : Awaited memory s (s.taken ++ waiting) flying s.call
  fetched : ∀ r ∈ s.fetched, r.2 = fetchRemote memory r.1

theorem length_fetchRemote (memory : Nat → UInt8) (r : RemoteRead) :
    (fetchRemote memory r).length = r.size := by
  rw [fetchRemote, List.length_map, List.length_range]

/-- 別の buffer に届いても、読まれていない frame は変わらない。 -/
theorem Stored.modify {recv : List Bytes} {i j : Nat} {f : Frame} (h : Stored recv j f)
    (hne : i ≠ j) (g : Bytes → Bytes) : Stored (recv.modify i g) j f := by
  obtain ⟨hf, stale, hget⟩ := h
  exact ⟨hf, stale, by rwa [List.getElem?_modify_ne _ _ hne]⟩

theorem stored_modify {recv : List Bytes} {ids : List Nat} {i : Nat} (hi : i ∉ ids)
    (g : Bytes → Bytes) (h : List.Forall₂ (Stored recv) ids waiting) :
    List.Forall₂ (Stored (recv.modify i g)) ids waiting := by
  induction h with
  | nil => exact .nil
  | cons hstored _ ih =>
    obtain ⟨hne, hi⟩ := not_or.mp (mt List.mem_cons.mpr hi)
    exact .cons (hstored.modify hne g) (ih hi)

theorem readable_of_stored {recv : List Bytes} {ids : List Nat}
    (h : List.Forall₂ (Stored recv) ids waiting) :
    ids.map (fun i => (recv[i]?).map rdmaReadFrame) = waiting.map fun f => some (.received f) := by
  induction h with
  | nil => rfl
  | cons hhead _ ih =>
    obtain ⟨hf, stale, hget⟩ := hhead
    rw [List.map_cons, List.map_cons, ih, hget, Option.map_some, rdmaReadFrame_write hf]

/-- 届いた frame は、送信の buffer の先頭に在ったものである。 -/
theorem stored_arrived {recv : List Bytes} {i : Nat} (hi : i < recv.length) {f : Frame}
    (hf : f.Small) {send rest : Bytes} (hsend : send = f.bytes ++ rest) :
    Stored (recv.modify i fun b => send.take f.bytes.length ++ b.drop f.bytes.length) i f := by
  refine ⟨hf, recv[i].drop f.bytes.length, ?_⟩
  rw [List.getElem?_modify_eq, List.getElem?_eq_getElem hi, hsend, List.take_left]
  rfl

theorem small_of_fits {f : Frame} (h : f.body.length + 5 ≤ kMaxFrameBytes) : f.Small := by
  have hmax : kMaxFrameBytes = 2 ^ 22 := by decide
  rw [Frame.Small]
  omega

theorem length_bytes (f : Frame) : f.bytes.length = f.body.length + 5 := by
  rw [Frame.bytes_eq]
  simp only [List.length_append, length_beBytes, List.length_singleton]
  omega

theorem length_filled {send : Bytes} (hsend : send.length = kMaxFrameBytes) {f : Frame}
    (hfit : f.body.length + 5 ≤ kMaxFrameBytes) :
    (f.bytes ++ send.drop (f.body.length + 5)).length = kMaxFrameBytes := by
  rw [List.length_append, List.length_drop, length_bytes]
  omega

theorem postSend_eq (hsend : s.send.length = kMaxFrameBytes) {f : Frame}
    (hfit : f.body.length + 5 ≤ kMaxFrameBytes) :
    s.postSend f = { s with
      send := f.bytes ++ s.send.drop (f.body.length + 5)
      sq := s.sq ++ [.send f.bytes.length]
      call := .writeFrame f
      written := s.written ++ [f] } := by
  unfold RdmaLink.postSend
  rw [rdmaWriteFrame_eq hsend.le (hfit.trans hsend.ge)]

theorem step_writeFrame (memory : Nat → UInt8) (hcall : s.call = .idle)
    (hsend : s.send.length = kMaxFrameBytes) {f : Frame}
    (hfit : f.body.length + 5 ≤ kMaxFrameBytes) :
    Step memory s (.writeFrame f) { s with
      send := f.bytes ++ s.send.drop (f.body.length + 5)
      sq := s.sq ++ [.send f.bytes.length]
      call := .writeFrame f
      written := s.written ++ [f] } := by
  show (if s.call = .idle then some (s.postSend f) else none) = _
  rw [if_pos hcall, postSend_eq hsend hfit]

theorem step_poll (hcq : s.sendCq ≠ 0) {f : Frame} (hcall : s.call = .writeFrame f) :
    Step memory s .poll { s with
      sendCq := s.sendCq - 1, call := .idle, acked := s.acked ++ [f] } := by
  show (if s.sendCq = 0 then none else s.complete) = _
  unfold RdmaLink.complete
  rw [if_neg hcq, hcall]

theorem step_timeout (hcall : s.call ≠ .idle) :
    Step memory s .timeout { s with call := .idle } := by
  show (if s.call = .idle then none else some { s with call := .idle }) = _
  rw [if_neg hcall]

theorem step_executeSend {size i : Nat} {sq : List WorkRequest} {posted : List Nat}
    (hsq : s.sq = .send size :: sq) (hp : s.posted = i :: posted) :
    Step memory s .execute { s with
      sq := sq
      sendCq := s.sendCq + 1
      recv := s.recv.modify i fun b => s.send.take size ++ b.drop size
      posted := posted
      recvCq := s.recvCq ++ [i] } := by
  show s.execute memory = _
  unfold RdmaLink.execute
  rw [hsq, hp]

theorem step_readFrame (memory : Nat → UInt8) {i : Nat} {recvCq : List Nat}
    (hcq : s.recvCq = i :: recvCq) {f : Frame} (h : Stored s.recv i f) :
    Step memory s .readFrame { s with
      recvCq := recvCq, posted := s.posted ++ [i], taken := s.taken ++ [f] } := by
  obtain ⟨hf, stale, hget⟩ := h
  show s.readFrame = _
  unfold RdmaLink.readFrame
  rw [hcq]
  dsimp only [bind, Option.bind]
  rw [hget]
  dsimp only
  rw [rdmaReadFrame_write hf]

theorem inv_initial : Inv memory initial [] [] where
  send := List.length_replicate
  recv := List.length_replicate
  ring := .refl _
  order := rfl
  stored := .nil
  flight := .empty rfl
  acked := .slnil
  awaited := trivial
  fetched _ hr := absurd hr List.not_mem_nil

namespace Inv

/-- 残っている work request が無ければ、届いていない frame も無い。 -/
theorem flying_eq (h : Inv memory s waiting flying) (hsq : s.sq = []) : flying = [] := by
  cases h.flight with
  | empty => rfl
  | read => rfl
  | send hs => rw [hsq] at hs; cases hs

/-- 投げてある buffer は、読まれていない buffer とは別である。 -/
theorem not_mem_recvCq (h : Inv memory s waiting flying) {i : Nat} {posted : List Nat}
    (hp : s.posted = i :: posted) : i ∉ s.recvCq := by
  have hnd := h.ring.nodup_iff.mpr List.nodup_range
  rw [hp, List.cons_append, List.nodup_cons] at hnd
  exact fun hi => hnd.1 (List.mem_append_right posted hi)

/-! ## 一歩 -/

theorem postSend (h : Inv memory s waiting flying) (hsq : s.sq = []) (hcq : s.sendCq = 0)
    (f : Frame) : ∃ flying', Inv memory (s.postSend f) waiting flying' := by
  obtain rfl := h.flying_eq hsq
  by_cases hfit : f.body.length + 5 ≤ kMaxFrameBytes
  · rw [postSend_eq h.send hfit]
    refine ⟨[f], ⟨length_filled h.send hfit, h.recv, h.ring, ?_, h.stored, ?_, h.acked,
      Or.inl rfl, h.fetched⟩⟩
    · show s.written ++ [f] = _
      rw [h.order, List.append_nil]
    · exact .send (congrArg (· ++ [WorkRequest.send f.bytes.length]) hsq) hcq
        (small_of_fits hfit) rfl
  · have hbig : rdmaWriteFrame s.send f = none := by
      have hlen := h.send
      unfold rdmaWriteFrame
      rw [if_pos (by omega)]
    unfold RdmaLink.postSend
    rw [hbig]
    exact ⟨[], h⟩

theorem readRemote (h : Inv memory s waiting flying) (hsq : s.sq = []) (hcq : s.sendCq = 0)
    (r : RemoteRead) :
    Inv memory { s with sq := s.sq ++ [.read r], call := .readRemote r } waiting flying := by
  obtain rfl := h.flying_eq hsq
  have hsq' : s.sq ++ [.read r] = [.read r] := by rw [hsq]; rfl
  exact ⟨h.send, h.recv, h.ring, h.order, h.stored, .read hsq' hcq, h.acked, Or.inl hsq',
    h.fetched⟩

/-- 取り出した完了は、待っている呼び出しのものである。 -/
theorem complete (h : Inv memory s waiting flying) (hcq : s.sendCq ≠ 0)
    (hs : s.complete = some s') : Inv memory s' waiting flying := by
  have hsq : s.sq = [] := by
    cases h.flight with
    | empty hsq => exact hsq
    | read _ hzero => exact absurd hzero hcq
    | send _ hzero => exact absurd hzero hcq
  obtain rfl := h.flying_eq hsq
  have hawaited := h.awaited
  unfold RdmaLink.complete at hs
  cases hcall : s.call with
  | idle =>
    rw [hcall] at hs
    cases hs
  | writeFrame f =>
    rw [hcall] at hs hawaited
    obtain rfl := Option.some.inj hs
    obtain hf | ⟨-, hacked⟩ := hawaited
    · cases hf
    · exact ⟨h.send, h.recv, h.ring, h.order, h.stored, .empty hsq, hacked, trivial, h.fetched⟩
  | readRemote r =>
    rw [hcall] at hs hawaited
    obtain rfl := Option.some.inj hs
    obtain hr | ⟨-, hread⟩ := hawaited
    · rw [hsq] at hr
      cases hr
    · refine ⟨h.send, h.recv, h.ring, h.order, h.stored, .empty hsq, h.acked, trivial, ?_⟩
      intro x hx
      rcases List.mem_append.mp hx with hx | hx
      · exact h.fetched x hx
      · obtain rfl := List.mem_singleton.mp hx
        exact hread

theorem timeout (h : Inv memory s waiting flying) :
    Inv memory { s with call := .idle } waiting flying := by
  refine ⟨h.send, h.recv, h.ring, h.order, h.stored, ?_, h.acked, trivial, h.fetched⟩
  cases h.flight with
  | empty hsq => exact .empty hsq
  | read hsq hcq => exact .read hsq hcq
  | send hsq hcq hf hsend => exact .send hsq hcq hf hsend

/-- frame が、投げてあった buffer の先頭に入る。 -/
theorem executeSend (h : Inv memory s waiting flying) {f : Frame} {rest : Bytes} {i : Nat}
    {posted : List Nat} (hfly : flying = [f]) (hf : f.Small) (hsend : s.send = f.bytes ++ rest)
    (hsq : s.sq = [.send f.bytes.length]) (hp : s.posted = i :: posted) :
    Inv memory { s with
      sq := []
      sendCq := s.sendCq + 1
      recv := s.recv.modify i fun b => s.send.take f.bytes.length ++ b.drop f.bytes.length
      posted := posted
      recvCq := s.recvCq ++ [i] } (waiting ++ [f]) [] := by
  subst hfly
  have hi := h.not_mem_recvCq hp
  have hlt : i < s.recv.length := by
    rw [h.recv, ← List.mem_range, ← h.ring.mem_iff, hp]
    exact List.mem_cons_self
  refine ⟨h.send, ?_, ?_, ?_, ?_, .empty rfl, ?_, ?_, h.fetched⟩
  · rw [List.length_modify]
    exact h.recv
  · refine (List.Perm.trans ?_ h.ring)
    rw [hp]
    show (posted ++ (s.recvCq ++ [i])).Perm (i :: (posted ++ s.recvCq))
    rw [← List.append_assoc]
    exact List.perm_append_singleton i _
  · show s.written = _
    rw [h.order, List.append_nil, List.append_assoc]
  · exact List.rel_append (stored_modify hi _ h.stored)
      (.cons (stored_arrived hlt hf hsend) .nil)
  · rw [← List.append_assoc]
    exact h.acked.trans (List.sublist_append_left _ _)
  · have hawaited := h.awaited
    show Awaited memory _ _ _ s.call
    cases hcall : s.call with
    | idle => trivial
    | writeFrame g =>
      rw [hcall] at hawaited
      obtain hg | ⟨hnil, -⟩ := hawaited
      · obtain rfl := (List.cons.inj hg).1
        refine Or.inr ⟨rfl, ?_⟩
        rw [← List.append_assoc]
        exact h.acked.append (List.Sublist.refl [f])
      · rw [hsq] at hnil
        cases hnil
    | readRemote r =>
      rw [hcall] at hawaited
      obtain hr | ⟨hnil, -⟩ := hawaited
      · rw [hsq] at hr
        cases hr
      · rw [hsq] at hnil
        cases hnil

theorem executeRead (h : Inv memory s waiting flying) {r : RemoteRead} (hsq : s.sq = [.read r]) :
    Inv memory { s with
      sq := []
      sendCq := s.sendCq + 1
      read := fetchRemote memory r ++ s.read.drop r.size } waiting flying := by
  have hfly : flying = [] := by
    cases h.flight with
    | empty => rfl
    | read => rfl
    | send hs => rw [hsq] at hs; cases hs
  subst hfly
  refine ⟨h.send, h.recv, h.ring, h.order, h.stored, .empty rfl, h.acked, ?_, h.fetched⟩
  have hawaited := h.awaited
  show Awaited memory _ _ _ s.call
  cases hcall : s.call with
  | idle => trivial
  | writeFrame f =>
    rw [hcall] at hawaited
    obtain hf | ⟨hnil, -⟩ := hawaited
    · cases hf
    · rw [hsq] at hnil
      cases hnil
  | readRemote r' =>
    rw [hcall] at hawaited
    obtain hr | ⟨hnil, -⟩ := hawaited
    · rw [hsq] at hr
      cases hr
      exact Or.inr ⟨rfl, List.take_left' (length_fetchRemote memory r)⟩
    · rw [hsq] at hnil
      cases hnil

theorem execute (h : Inv memory s waiting flying) (hs : s.execute memory = some s') :
    ∃ waiting' flying', Inv memory s' waiting' flying' := by
  have hflight := h.flight
  unfold RdmaLink.execute at hs
  cases hflight with
  | empty hsq =>
    rw [hsq] at hs
    cases hs
  | read hsq hcq =>
    rw [hsq] at hs
    obtain rfl := Option.some.inj hs
    exact ⟨waiting, [], h.executeRead hsq⟩
  | @send f rest hsq hcq hf hsend =>
    rw [hsq] at hs
    cases hp : s.posted with
    | nil =>
      rw [hp] at hs
      cases hs
    | cons i posted =>
      rw [hp] at hs
      obtain rfl := Option.some.inj hs
      exact ⟨waiting ++ [f], [], h.executeSend rfl hf hsend hsq hp⟩

/-- 相手は、届いた順に frame を取り出し、buffer を投げ直す。 -/
theorem readFrame (h : Inv memory s waiting flying) (hs : s.readFrame = some s') :
    ∃ waiting', Inv memory s' waiting' flying := by
  have hstored := h.stored
  have horder := h.order
  have hacked := h.acked
  have hawaited := h.awaited
  have hring := h.ring
  cases hcq : s.recvCq with
  | nil =>
    unfold RdmaLink.readFrame at hs
    rw [hcq] at hs
    cases hs
  | cons i recvCq =>
    rw [hcq] at hstored hring
    cases hstored with
    | @cons _ f _ waiting' hhead htail =>
      obtain rfl := Option.some.inj (hs.symm.trans (step_readFrame memory hcq hhead))
      have harrived : s.taken ++ f :: waiting' = (s.taken ++ [f]) ++ waiting' :=
        List.append_cons s.taken f waiting'
      rw [harrived] at horder hacked hawaited
      refine ⟨waiting', ⟨h.send, h.recv, ?_, horder, htail, ?_, hacked, ?_, h.fetched⟩⟩
      · refine (List.Perm.trans ?_ hring)
        show ((s.posted ++ [i]) ++ recvCq).Perm (s.posted ++ i :: recvCq)
        rw [List.append_assoc]
        exact .refl _
      · cases h.flight with
        | empty hsq => exact .empty hsq
        | read hsq hcq => exact .read hsq hcq
        | send hsq hcq hf hsend => exact .send hsq hcq hf hsend
      · show Awaited memory _ _ _ s.call
        cases hcall : s.call with
        | idle => trivial
        | writeFrame g =>
          rw [hcall] at hawaited
          exact hawaited
        | readRemote r =>
          rw [hcall] at hawaited
          exact hawaited

/-- **落ち着いた一歩は不変条件を保つ。** -/
theorem step (h : Inv memory s waiting flying) {e : RdmaEvent} (hcalm : s.Calm e)
    (hs : Step memory s e s') : ∃ waiting' flying', Inv memory s' waiting' flying' := by
  unfold Step RdmaLink.next at hs
  cases e with
  | writeFrame f =>
    dsimp only at hs
    split at hs
    · obtain rfl := Option.some.inj hs
      obtain ⟨flying', hI⟩ := h.postSend hcalm.1 hcalm.2 f
      exact ⟨waiting, flying', hI⟩
    · cases hs
  | readRemote r =>
    dsimp only at hs
    split at hs
    · obtain rfl := Option.some.inj hs
      exact ⟨waiting, flying, h.readRemote hcalm.1 hcalm.2 r⟩
    · cases hs
  | poll =>
    dsimp only at hs
    split at hs
    · cases hs
    · next hcq => exact ⟨waiting, flying, h.complete hcq hs⟩
  | timeout =>
    dsimp only at hs
    split at hs
    · cases hs
    · obtain rfl := Option.some.inj hs
      exact ⟨waiting, flying, h.timeout⟩
  | execute => exact h.execute hs
  | readFrame =>
    obtain ⟨waiting', hI⟩ := h.readFrame hs
    exact ⟨waiting', flying, hI⟩

end Inv

theorem initial_posted : initial.posted = 0 :: 1 :: [2, 3, 4, 5, 6, 7] := rfl

theorem exists_delivered (memory : Nat → UInt8) {f : Frame}
    (hf : f.body.length + 5 ≤ kMaxFrameBytes) :
    ∃ s, Reach (Step memory) Calm initial s ∧ s.taken = [f] ∧ s.acked = [f] := by
  have h₁ := (Reach.refl initial).tail (P := Calm) (e := .writeFrame f) ⟨rfl, rfl⟩
    (step_writeFrame memory rfl List.length_replicate hf)
  have h₂ := h₁.tail (e := .execute) trivial (step_executeSend rfl initial_posted)
  have h₃ := h₂.tail (e := .poll) trivial (step_poll Nat.one_ne_zero rfl)
  have hread := stored_arrived (i := 0) (by decide : 0 < initial.recv.length)
    (small_of_fits hf) (rfl : f.bytes ++ initial.send.drop (f.body.length + 5) = _)
  exact ⟨_, h₃.tail (e := .readFrame) trivial (step_readFrame memory rfl hread), rfl, rfl⟩

end RdmaLink

/-- 相手の buffer に在る frame と、投げられて届いていない frame。 -/
structure RdmaLink.Faithful (memory : Nat → UInt8) (s : RdmaLink) (waiting flying : List Frame) :
    Prop where
  /-- 投げた frame は、読まれたもの、相手の buffer に在るもの、まだ送られていないものをこの順に並べたものである。 -/
  order : s.written = s.taken ++ waiting ++ flying
  /-- 相手の `read_frame` は、この順に frame を返す。 -/
  readable : s.recvCq.map (fun i => (s.recv[i]?).map rdmaReadFrame) =
    waiting.map fun f => some (.received f)
  /-- 送られていない frame は、残っている一つの work request のものである。 -/
  flying : flying.length ≤ s.sq.length
  /-- 残っている work request は高々一つである。 -/
  single : s.sq.length ≤ 1
  /-- `true` を返した `write_frame` の frame は、相手に届いている。 -/
  acked : s.acked.Sublist (s.taken ++ waiting)
  /-- `read_remote` の loop の一回ごとに、遠隔の記憶の byte 列がそのまま読まれている。 -/
  fetched : ∀ r ∈ s.fetched, r.2 = fetchRemote memory r.1
  /-- 受信の buffer は、投げてあるか、読まれるのを待っているかのどちらか一方である。 -/
  ring : (s.posted ++ s.recvCq).Perm (List.range kRecvDepth)

theorem RdmaLink.Inv.faithful {memory : Nat → UInt8} {s : RdmaLink} {waiting flying : List Frame}
    (h : s.Inv memory waiting flying) : s.Faithful memory waiting flying where
  order := h.order
  readable := readable_of_stored h.stored
  flying := by
    cases h.flight with
    | empty => exact Nat.zero_le _
    | read => exact Nat.zero_le _
    | send hsq => rw [hsq]; exact le_rfl
  single := by
    cases h.flight with
    | empty hsq => rw [hsq]; exact Nat.zero_le _
    | read hsq => rw [hsq]; exact le_rfl
    | send hsq => rw [hsq]; exact le_rfl
  acked := h.acked
  fetched := h.fetched
  ring := h.ring

/-- 分けて読んだ byte 列をつなぐと、領域の残りになる。 -/
theorem flatMap_fetchRemote (memory : Nat → UInt8) {addr size : Nat} (h : addr + size ≤ 2 ^ 64) :
    ∀ done, (readRemote addr size done).flatMap (fetchRemote memory) =
      fetchRemote memory ⟨addr + done, size - done⟩ := by
  intro done
  fun_induction readRemote addr size done with
  | case1 done hlt _ ih =>
    have hmod : (addr + done) % 2 ^ 64 = addr + done := Nat.mod_eq_of_lt (by omega)
    have hsize : size - done = min kMaxFrameBytes (size - done) +
        (size - (done + min kMaxFrameBytes (size - done))) := by omega
    rw [List.flatMap_cons, ih, hmod]
    generalize min kMaxFrameBytes (size - done) = chunk at hsize
    simp only [fetchRemote]
    rw [hsize, List.range_add, List.map_append, List.map_map]
    refine congrArg _ (List.map_congr_left fun k _ => congrArg memory ?_)
    show addr + (done + chunk) + k = addr + done + (chunk + k)
    omega
  | case2 done hge =>
    rw [fetchRemote, Nat.sub_eq_zero_of_le (not_lt.mp hge)]
    rfl

/-- **一回の `read_remote` が分けて読んだ byte 列をつなぐと、遠隔の領域の中身である。** -/
theorem RdmaLink.Faithful.readRemote {memory : Nat → UInt8} {s : RdmaLink}
    {waiting flying : List Frame} (h : s.Faithful memory waiting flying) {addr size : Nat}
    (hfit : addr + size ≤ 2 ^ 64) {before call after : List (RemoteRead × Bytes)}
    (hcall : s.fetched = before ++ call ++ after)
    (hreads : call.map Prod.fst = Plin.readRemote addr size 0) :
    call.flatMap Prod.snd = fetchRemote memory ⟨addr, size⟩ := by
  have hbytes : call.flatMap Prod.snd = call.flatMap fun r => fetchRemote memory r.1 := by
    refine List.flatMap_congr fun r hr => h.fetched r ?_
    rw [hcall]
    exact List.mem_append_left _ (List.mem_append_right _ hr)
  calc call.flatMap Prod.snd
    _ = (call.map Prod.fst).flatMap (fetchRemote memory) := by rw [hbytes, List.flatMap_map]
    _ = fetchRemote memory ⟨addr, size⟩ := by rw [hreads]; exact flatMap_fetchRemote memory hfit 0

/--
**前の work request の完了を取り出してから次の呼び出しを始めれば、frame は一度ずつ、投げた順にそのまま届く。**
-/
theorem rdma_fifo {memory : Nat → UInt8} {s : RdmaLink}
    (h : Reach (RdmaLink.Step memory) RdmaLink.Calm RdmaLink.initial s) :
    ∃ waiting flying, s.Faithful memory waiting flying := by
  obtain ⟨waiting, flying, hI⟩ := h.invariant
    (fun s => ∃ waiting flying, s.Inv memory waiting flying) ⟨[], [], RdmaLink.inv_initial⟩ (by
    rintro s e s' ⟨waiting, flying, hI⟩ hcalm hs
    exact hI.step hcalm hs)
  exact ⟨waiting, flying, hI.faithful⟩

/-- 一つの frame を投げ、完了を取り出し、相手が読む。 -/
theorem rdma_fifo_delivered : ∃ s : RdmaLink, s.taken = [⟨⟨2⟩, [7]⟩] ∧ s.acked = [⟨⟨2⟩, [7]⟩] ∧
    ∃ waiting flying, s.Faithful (fun _ => 0) waiting flying := by
  have hfit : ([7] : Bytes).length + 5 ≤ kMaxFrameBytes := by decide
  obtain ⟨s, h, htaken, hacked⟩ := RdmaLink.exists_delivered (fun _ => 0) (f := ⟨⟨2⟩, [7]⟩) hfit
  exact ⟨s, htaken, hacked, rdma_fifo h⟩

/--
待ちきれなかった `write_frame` の後に次の `write_frame` を呼ぶと、**後の frame が二度届き、先の frame は失われる**。
送信の buffer は一つであり、work request は実行されたときの中身を送る。
-/
theorem RdmaLink.timeout_duplicates (memory : Nat → UInt8) {f g : Frame}
    (hf : f.body.length + 5 ≤ kMaxFrameBytes) (hg : g.body.length = f.body.length) :
    ∃ s, Reachable (Step memory) initial s ∧ s.written = [f, g] ∧ s.taken = [g, g] := by
  have hg' : g.body.length + 5 ≤ kMaxFrameBytes := by omega
  have hbytes : f.bytes.length = g.bytes.length := by
    rw [length_bytes, length_bytes, hg]
  have hsend := length_filled (List.length_replicate : initial.send.length = kMaxFrameBytes) hf
  have h₁ := (Reach.refl initial).tail (P := fun _ _ => True) trivial
    (step_writeFrame memory rfl List.length_replicate hf)
  rw [hbytes] at h₁
  have h₂ := h₁.tail (e := .timeout) trivial (step_timeout RdmaCall.noConfusion)
  have h₃ := h₂.tail (e := .writeFrame g) trivial (step_writeFrame memory rfl hsend hg')
  have h₄ := h₃.tail (e := .execute) trivial (step_executeSend rfl initial_posted)
  have h₅ := h₄.tail (e := .execute) trivial (step_executeSend rfl rfl)
  -- どちらの work request も、後の frame の入った buffer を送る。
  generalize hrest : List.drop (g.body.length + 5) (f.bytes ++ initial.send.drop _) = rest at h₅
  have hfirst := stored_arrived (i := 0) (by decide : 0 < initial.recv.length)
    (small_of_fits hg') (rfl : g.bytes ++ rest = _)
  have hlt : 1 < (initial.recv.modify 0 fun b =>
      (g.bytes ++ rest).take g.bytes.length ++ b.drop g.bytes.length).length := by
    rw [List.length_modify]
    decide
  have hsecond := stored_arrived hlt (small_of_fits hg') (rfl : g.bytes ++ rest = _)
  have h₆ := h₅.tail (e := .readFrame) trivial
    (step_readFrame memory rfl (hfirst.modify Nat.one_ne_zero _))
  exact ⟨_, h₆.tail (e := .readFrame) trivial (step_readFrame memory rfl hsecond), rfl, rfl⟩

end Plin
