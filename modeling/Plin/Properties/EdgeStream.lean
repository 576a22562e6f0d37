import Mathlib.Data.Fin.VecNotation
import Plin.Cloud.EdgeStream
import Plin.Properties.Rpc

/-!
# Cloud から Edge への frame は混ざらないか

`conn->mu` を取る書き手どうしの frame は混ざらない。しかし `register_edge` の `HEARTBEAT_ACK` は
`conn->mu` の外で書かれるので、載ったばかりの接続に push が始まると **二つの frame の byte が混ざる**
（`ack_tears_frame`）。

`HEARTBEAT_ACK` の書き込みと他の frame の書き込みが入れ違わない実行では、stream は **書き終えた
frame の列に書きかけの frame が高々一つ続いたもの**であり、Edge は書き終えた frame をちょうど
読み出す（`edgeStream_framed`）。
-/

namespace Plin

open Infra

namespace StreamPc

/-- 書いている frame と、書き終えた個数。 -/
def progress : StreamPc → Option (Frame × Nat)
  | .ack f k => some (f, k)
  | .write _ f k => some (f, k)
  | _ => none

/-- これから書く、または書いている frame。 -/
def frame : StreamPc → Option Frame
  | .ack f _ => some f
  | .wait _ f => some f
  | .write _ f _ => some f
  | _ => none

/-- frame を途中まで書いた thread。 -/
def Midway : StreamPc → Bool
  | .ack _ k => 0 < k
  | .write _ _ k => 0 < k
  | _ => false

/-- `conn->mu` を持つ thread。 -/
def Holding : StreamPc → Bool
  | .write _ _ _ => true
  | .read => true
  | .unlock => true
  | _ => false

/-- `register_edge` の書き込みの途中。 -/
def Acking : StreamPc → Bool
  | .ack _ _ => true
  | _ => false

theorem midway_iff {l : StreamPc} : l.Midway ↔ ∃ f k, l.progress = some (f, k) ∧ 0 < k := by
  cases l <;> simp [Midway, progress]

end StreamPc

namespace StreamState

variable {T : Type}

/-- 書き終えた frame の byte 列。 -/
def sentBytes (c : StreamState T) : Bytes := c.shared.sent.flatMap Frame.bytes

/--
stream が書き終えた frame の列に書きかけの frame が高々一つ続いたものであり、Edge の
`cloud_receiver_loop` が書き終えた frame をちょうど読み出すこと。
-/
def Framed (c : StreamState T) : Prop :=
  (∃ p, c.shared.stream = c.sentBytes ++ p ∧
    (p = [] ∨ ∃ t f k q, (c.pc t).progress = some (f, k) ∧ p ++ q = f.bytes ∧ q ≠ [])) ∧
  received c.shared.stream = c.shared.sent

/--
`register_edge` の書き込みは他の frame の途中に入らず、その途中に他の書き込みも入らない。
また、どの frame も長さの計算が折り返さない大きさである。
-/
def Safe (c : StreamState T) : Option T → Prop
  | some t =>
    (∀ f ∈ (c.pc t).frame, f.Small) ∧
    ((c.pc t).Acking → ∀ u, u ≠ t → ¬ (c.pc u).Midway) ∧
    ((c.pc t).Holding → ∀ u, (c.pc u).Acking → ¬ (c.pc u).Midway)
  | none => True

instance [Fintype T] [DecidableEq T] (c : StreamState T) (e : Option T) : Decidable (c.Safe e) :=
  match e with
  | some t => inferInstanceAs (Decidable ((∀ f ∈ (c.pc t).frame, f.Small) ∧
      ((c.pc t).Acking → ∀ u, u ≠ t → ¬ (c.pc u).Midway) ∧
      ((c.pc t).Holding → ∀ u, (c.pc u).Acking → ¬ (c.pc u).Midway)))
  | none => .isTrue trivial

end StreamState

/-- stream の中身の不変量。書きかけの frame を持つ thread は高々一つである。 -/
def StreamBody {T : Type} (c : StreamState T) : Prop :=
  ((∀ u, ¬ (c.pc u).Midway) ∧ c.shared.stream = c.sentBytes) ∨
  ∃ t f k, (c.pc t).progress = some (f, k) ∧ 0 < k ∧ k < f.chunks.length ∧ f.Small ∧
    (∀ u, u ≠ t → ¬ (c.pc u).Midway) ∧
    c.shared.stream = c.sentBytes ++ (f.chunks.take k).flatten

/-! ## 書き込み -/

theorem length_chunks (f : Frame) : 2 ≤ f.chunks.length := by simp [Frame.chunks]

theorem chunk_ne_nil {f : Frame} {chunk : Bytes} (h : chunk ∈ f.chunks) : chunk ≠ [] := by
  have hlen : (beBytes 4 f.payloadLen).length = 4 := length_beBytes 4 _
  by_cases hb : f.body = []
  · simp only [Frame.chunks, hb, if_true, List.append_nil, List.mem_cons, List.not_mem_nil,
      or_false] at h
    rcases h with rfl | rfl
    · intro hc
      simp [hc] at hlen
    · simp
  · simp only [Frame.chunks, hb, if_false, List.cons_append, List.nil_append, List.mem_cons,
      List.not_mem_nil, or_false] at h
    rcases h with rfl | rfl | rfl
    · intro hc
      simp [hc] at hlen
    · simp
    · exact hb

theorem drop_chunks_ne_nil {f : Frame} {k : Nat} (h : k < f.chunks.length) :
    (f.chunks.drop k).flatten ≠ [] := by
  rw [List.drop_eq_getElem_cons h, List.flatten_cons]
  exact List.append_ne_nil_of_left_ne_nil (chunk_ne_nil (List.getElem_mem h)) _

section Body

variable {T : Type} [DecidableEq T] {c : StreamState T} {t : T} {l : StreamPc} {m : EdgeStream}

/-- 書きかけの frame に触れない一歩は、stream の中身を保つ。 -/
theorem StreamBody.stutter (h : StreamBody c) (ht : ¬ (c.pc t).Midway) (hl : ¬ l.Midway)
    (hstream : m.stream = c.shared.stream) (hsent : m.sent = c.shared.sent) :
    StreamBody (c.move t m l) := by
  have hbytes : StreamState.sentBytes (c.move t m l) = c.sentBytes := by
    rw [StreamState.sentBytes, Threads.move_shared, hsent]
    rfl
  rcases h with ⟨hnone, hs⟩ | ⟨u, f, k, hp, hpos, hk, hf, huniq, hs⟩
  · refine Or.inl ⟨fun u => ?_, ?_⟩
    · rcases c.move_pc_cases t u m l with ⟨_, e⟩ | ⟨_, e⟩
      · rw [e]
        exact hl
      · rw [e]
        exact hnone u
    · rw [Threads.move_shared, hstream, hs, hbytes]
  · have hne : u ≠ t := by
      rintro rfl
      exact ht (StreamPc.midway_iff.mpr ⟨f, k, hp, hpos⟩)
    refine Or.inr ⟨u, f, k, ?_, hpos, hk, hf, fun v hv => ?_, ?_⟩
    · rw [c.move_pc_ne m l hne]
      exact hp
    · rcases c.move_pc_cases t v m l with ⟨_, e⟩ | ⟨_, e⟩
      · rw [e]
        exact hl
      · rw [e]
        exact huniq v hv
    · rw [Threads.move_shared, hstream, hs, hbytes]

/-- **`k` 番目の書き込みは、他に書きかけの frame が無ければ stream の中身を保つ。** -/
theorem StreamBody.append (h : StreamBody c) {f : Frame} {k : Nat} {chunk : Bytes}
    (ht : (c.pc t).progress = some (f, k)) (hchunk : f.chunks[k]? = some chunk) (hf : f.Small)
    (hothers : ∀ u, u ≠ t → ¬ (c.pc u).Midway)
    (hl : l.progress = if k + 1 = f.chunks.length then none else some (f, k + 1)) :
    StreamBody (c.move t (c.shared.append f k chunk) l) := by
  have hk : k < f.chunks.length := (List.getElem?_eq_some_iff.mp hchunk).1
  have hnow : c.shared.stream = c.sentBytes ++ (f.chunks.take k).flatten := by
    rcases h with ⟨hnone, hs⟩ | ⟨u, g, j, hp, hpos, _, _, huniq, hs⟩
    · have hzero : k = 0 := by
        by_contra hne
        exact hnone t (StreamPc.midway_iff.mpr ⟨f, k, ht, Nat.pos_of_ne_zero hne⟩)
      simp [hs, hzero]
    · obtain rfl : u = t := by
        by_contra hne
        exact hothers u hne (StreamPc.midway_iff.mpr ⟨g, j, hp, hpos⟩)
      rw [ht] at hp
      obtain ⟨rfl, rfl⟩ := Prod.mk.inj (Option.some.inj hp)
      exact hs
  have hnext : (f.chunks.take (k + 1)).flatten = (f.chunks.take k).flatten ++ chunk := by
    rw [List.take_add_one, hchunk, Option.toList_some, List.flatten_append]
    simp
  have hothers' : ∀ u, u ≠ t → ¬ ((c.move t (c.shared.append f k chunk) l).pc u).Midway := by
    intro u hu
    rw [c.move_pc_ne _ l hu]
    exact hothers u hu
  by_cases hlast : k + 1 = f.chunks.length
  · refine Or.inl ⟨fun u => ?_, ?_⟩
    · rcases c.move_pc_cases t u (c.shared.append f k chunk) l with ⟨_, e⟩ | ⟨hu, _⟩
      · rw [e, StreamPc.midway_iff, hl, if_pos hlast]
        simp
      · exact hothers' u hu
    · have hall : (f.chunks.take (k + 1)).flatten = f.bytes := by
        rw [hlast, List.take_length]
        rfl
      simp only [StreamState.sentBytes, Threads.move_shared, EdgeStream.append, if_pos hlast]
      rw [hnow, List.append_assoc, ← hnext, hall, List.flatMap_append]
      simp [StreamState.sentBytes]
  · refine Or.inr ⟨t, f, k + 1, ?_, by omega, by omega, hf, hothers', ?_⟩
    · rw [Threads.move_pc_self, hl, if_neg hlast]
    · simp only [StreamState.sentBytes, Threads.move_shared, EdgeStream.append, if_neg hlast]
      rw [hnow, List.append_assoc, ← hnext]
      rfl

end Body

/-! ## 不変量 -/

variable {T : Type}

theorem small_append {c : StreamState T} (h : ∀ f ∈ c.shared.sent, f.Small) {f : Frame}
    (hf : f.Small) (k : Nat)
    (chunk : Bytes) : ∀ g ∈ (c.shared.append f k chunk).sent, g.Small := by
  intro g hg
  simp only [EdgeStream.append] at hg
  split at hg
  · rcases List.mem_append.mp hg with hg | hg
    · exact h g hg
    · exact List.mem_singleton.mp hg ▸ hf
  · exact h g hg

variable [Fintype T]

/-- 条件を満たす実行の不変量。 -/
structure StreamInv (c : StreamState T) : Prop where
  mutex : c.count (fun l => l.Holding = true) = if c.shared.mu then 1 else 0
  body : StreamBody c
  small : ∀ f ∈ c.shared.sent, f.Small

theorem streamInv_initial [DecidableEq T] (registrar : T) (edgeId : Nat) :
    StreamInv (StreamState.initial registrar edgeId) where
  mutex := by
    refine Threads.count_eq_zero.mpr fun t => ?_
    by_cases h : t = registrar <;> simp [StreamState.initial, h, StreamPc.Holding]
  body := by
    refine Or.inl ⟨fun u => ?_, rfl⟩
    by_cases h : u = registrar <;> simp [StreamState.initial, h, StreamPc.Midway]
  small := by simp [StreamState.initial]

theorem StreamInv.holding_le_one {c : StreamState T} (h : StreamInv c) :
    c.count (fun l => l.Holding = true) ≤ 1 := by
  rw [h.mutex]
  split <;> omega

theorem StreamInv.framed {c : StreamState T} (h : StreamInv c) : c.Framed := by
  rcases h.body with ⟨_, hs⟩ | ⟨t, f, k, hp, _, hk, hf, _, hs⟩
  · refine ⟨⟨[], by simpa using hs, Or.inl rfl⟩, ?_⟩
    rw [hs, ← List.append_nil c.sentBytes]
    exact received_eq h.small (by decide)
  · have hcut : (f.chunks.take k).flatten ++ (f.chunks.drop k).flatten = f.bytes := by
      rw [← List.flatten_append, List.take_append_drop]
      rfl
    have hq : (f.chunks.drop k).flatten ≠ [] := drop_chunks_ne_nil hk
    refine ⟨⟨_, hs, Or.inr ⟨t, f, k, _, hp, hcut, hq⟩⟩, ?_⟩
    rw [hs]
    exact received_eq h.small (hf.readFrame_partial hcut hq)

/-- `conn->mu` を持つ thread が書くとき、他に書きかけの frame は無い。 -/
theorem StreamInv.others_not_midway {c : StreamState T} {t : T} (h : StreamInv c)
    (ht : (c.pc t).Holding)
    (hack : ∀ u, (c.pc u).Acking → ¬ (c.pc u).Midway) : ∀ u, u ≠ t → ¬ (c.pc u).Midway := by
  intro u hu hmid
  by_cases hhold : (c.pc u).Holding
  · exact hu (Threads.eq_of_count_le_one (p := fun l : StreamPc => l.Holding = true)
      h.holding_le_one hhold ht)
  · refine hack u ?_ hmid
    cases hpc : c.pc u <;> simp_all [StreamPc.Midway, StreamPc.Acking, StreamPc.Holding]

/-- **条件を満たす一歩は不変量を保つ。** -/
theorem StreamInv.step [DecidableEq T] {c : StreamState T} (h : StreamInv c) {e : Option T}
    {c' : StreamState T} (hsafe : c.Safe e)
    (hs : c.Step e c') : StreamInv c' := by
  cases hs with
  | env hf => exact hf.elim
  | thread t hs =>
    -- 一歩ごとに、lock を持つ数と流れの中身を調べる
    generalize hpc : c.pc t = l at hs
    generalize hm : c.shared = m at hs
    obtain ⟨hsmall, hack, hhold⟩ := hsafe
    cases hs with
    | publish edgeId =>
      subst hm
      exact ⟨by rw [Threads.count_move_same (by simp [hpc, StreamPc.Holding])]; exact h.mutex,
        h.body.stutter (by simp [hpc, StreamPc.Midway]) (by simp [StreamPc.Midway]) rfl rfl,
        h.small⟩
    | ack f k chunk hchunk =>
      subst hm
      have hf : f.Small := hsmall f (by simp [hpc, StreamPc.frame])
      refine ⟨?_, h.body.append (by simp [hpc, StreamPc.progress]) hchunk hf
        (hack (by simp [hpc, StreamPc.Acking])) (by split <;> rfl), small_append h.small hf k chunk⟩
      rw [Threads.count_move_same (by split <;> simp [hpc, StreamPc.Holding])]
      exact h.mutex
    | edgeConn forward f _ =>
      subst hm
      exact ⟨by rw [Threads.count_move_same (by simp [hpc, StreamPc.Holding])]; exact h.mutex,
        h.body.stutter (by simp [hpc, StreamPc.Midway]) (by simp [StreamPc.Midway]) rfl rfl,
        h.small⟩
    | lock forward f hmu =>
      subst hm
      refine ⟨?_, h.body.stutter (by simp [hpc, StreamPc.Midway]) (by simp [StreamPc.Midway]) rfl
        rfl, h.small⟩
      rw [Threads.count_move_enter (p := fun l : StreamPc => l.Holding = true) rfl
        (by simp [hpc, StreamPc.Holding]), h.mutex, hmu]
      rfl
    | write forward f k chunk hchunk =>
      subst hm
      have hf : f.Small := hsmall f (by simp [hpc, StreamPc.frame])
      have hin : (c.pc t).Holding := by simp [hpc, StreamPc.Holding]
      refine ⟨?_, h.body.append (by simp [hpc, StreamPc.progress]) hchunk hf
        (h.others_not_midway hin (hhold hin)) ?_, small_append h.small hf k chunk⟩
      · rw [Threads.count_move_same
          (by cases forward <;> split <;> simp [hpc, StreamPc.Holding])]
        exact h.mutex
      · cases forward <;> split <;> rfl
    | read =>
      subst hm
      exact ⟨by rw [Threads.count_move_same (by simp [hpc, StreamPc.Holding])]; exact h.mutex,
        h.body.stutter (by simp [hpc, StreamPc.Midway]) (by simp [StreamPc.Midway]) rfl rfl,
        h.small⟩
    | unlock =>
      subst hm
      refine ⟨?_, h.body.stutter (by simp [hpc, StreamPc.Midway]) (by simp [StreamPc.Midway]) rfl
        rfl, h.small⟩
      have hcount := Threads.count_move_leave (c := c) (t := t) (l := .idle)
        (m := { c.shared with mu := false }) (p := fun l => l.Holding = true)
        (by simp [StreamPc.Holding]) (by simp [hpc, StreamPc.Holding])
      exact Nat.le_zero.mp (Nat.le_of_succ_le_succ (hcount.le.trans h.holding_le_one))

/-! ## 混ざらない実行 -/

/-- **入れ違いの無い実行では、届くどの状態でも stream は frame に分かれ、Edge に正しく届く。** -/
theorem edgeStream_framed [DecidableEq T] {registrar : T} {edgeId : Nat} {c : StreamState T}
    (h : Reach StreamState.Step StreamState.Safe (StreamState.initial registrar edgeId) c) :
    c.Framed := by
  have hinv : StreamInv c := h.invariant StreamInv (streamInv_initial registrar edgeId)
    fun _ _ _ hI hsafe hs => hI.step hsafe hs
  exact hinv.framed

/-! ## 載ったばかりの接続 -/

/-- 一組の鍵と payload を End 1 に届ける `HOT_UPDATE`。 -/
def hotFrame : Frame := ⟨.hotUpdate, leBytes 4 1 ++ leBytes 8 0 ++ leBytes 8 7⟩

/-- `register_edge` の thread と、push の thread。 -/
def twoWriters (mu : Bool) (stream : Bytes) (sent : List Frame) (l₀ l₁ : StreamPc) :
    StreamState (Fin 2) :=
  ⟨⟨true, mu, stream, sent⟩, ![l₀, l₁]⟩

theorem reach_published :
    Reach StreamState.Step StreamState.Safe (StreamState.initial 0 1)
      (twoWriters true [] [] (.ack (heartbeatAckFrame 1) 0) (.write false hotFrame 0)) := by
  have h₁ : Reach StreamState.Step StreamState.Safe (StreamState.initial 0 1)
      (twoWriters false [] [] (.ack (heartbeatAckFrame 1) 0) .idle) :=
    (Reach.refl _).tail (by decide) (.of_frame 0 (.publish _ 1) (by decide))
  have h₂ : Reach StreamState.Step StreamState.Safe (StreamState.initial 0 1)
      (twoWriters false [] [] (.ack (heartbeatAckFrame 1) 0) (.wait false hotFrame)) :=
    h₁.tail (by decide) (.of_frame 1 (.edgeConn _ false hotFrame rfl) (by decide))
  exact h₂.tail (by decide) (.of_frame 1 (.lock _ false hotFrame rfl) (by decide))

/-- 長さだけを書いた push は、書きかけの frame である。 -/
theorem edgeStream_framed_partial :
    (twoWriters true (beBytes 4 21) [] (.ack (heartbeatAckFrame 1) 0)
      (.write false hotFrame 1)).Framed :=
  edgeStream_framed (reach_published.tail (by decide)
    (.of_frame 1 (.write _ false hotFrame 0 (beBytes 4 21) (by decide)) (by decide)))

/--
**push の長さの直後に `HEARTBEAT_ACK` が割り込む。** 二つとも書き終わっても、Edge の読み出す frame は
送った frame と違う。
-/
theorem ack_tears_frame :
    ¬ ∀ c : StreamState (Fin 2),
      Reachable StreamState.Step (StreamState.initial 0 1) c → c.Framed := by
  intro hall
  have h₁ : Reachable StreamState.Step (StreamState.initial 0 1)
      (twoWriters true (beBytes 4 21) [] (.ack (heartbeatAckFrame 1) 0)
        (.write false hotFrame 1)) :=
    reach_published.reachable.tail
      (.of_frame 1 (.write _ false hotFrame 0 (beBytes 4 21) (by decide)) (by decide))
  have h₂ : Reachable StreamState.Step (StreamState.initial 0 1)
      (twoWriters true (beBytes 4 21 ++ beBytes 4 5) [] (.ack (heartbeatAckFrame 1) 1)
        (.write false hotFrame 1)) :=
    h₁.tail (.of_frame 0 (.ack _ _ 0 (beBytes 4 5) (by decide)) (by decide))
  have h₃ : Reachable StreamState.Step (StreamState.initial 0 1)
      (twoWriters true (beBytes 4 21 ++ beBytes 4 5 ++ [10]) [] (.ack (heartbeatAckFrame 1) 2)
        (.write false hotFrame 1)) :=
    h₂.tail (.of_frame 0 (.ack _ _ 1 [10] (by decide)) (by decide))
  have h₄ : Reachable StreamState.Step (StreamState.initial 0 1)
      (twoWriters true (beBytes 4 21 ++ beBytes 4 5 ++ [10] ++ leBytes 4 1)
        [heartbeatAckFrame 1] .idle (.write false hotFrame 1)) :=
    h₃.tail (.of_frame 0 (.ack _ _ 2 (leBytes 4 1) (by decide)) (by decide))
  have h₅ : Reachable StreamState.Step (StreamState.initial 0 1)
      (twoWriters true (beBytes 4 21 ++ beBytes 4 5 ++ [10] ++ leBytes 4 1 ++ [6])
        [heartbeatAckFrame 1] .idle (.write false hotFrame 2)) :=
    h₄.tail (.of_frame 1 (.write _ false hotFrame 1 [6] (by decide)) (by decide))
  have h₆ : Reachable StreamState.Step (StreamState.initial 0 1)
      (twoWriters true
        (beBytes 4 21 ++ beBytes 4 5 ++ [10] ++ leBytes 4 1 ++ [6] ++ hotFrame.body)
        [heartbeatAckFrame 1, hotFrame] .idle .unlock) :=
    h₅.tail (.of_frame 1 (.write _ false hotFrame 2 hotFrame.body (by decide)) (by decide))
  exact absurd (hall _ h₆).2 (by decide)

end Plin
