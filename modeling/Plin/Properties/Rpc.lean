import Plin.Common.Rpc

/-!
# frame の読み書きの往復

**書いた frame は読み戻せ、書きかけの frame はまだ読めない**ので、書き終えた frame の列に書きかけの
frame が一つ続く stream からは、書き終えた frame がちょうど読める（`received_eq`）。

`::read` と `::write` がどう刻まれても同じである（`frame_codec`）。刻み方が効くのは `read_all` と
`write_all` の中だけで、どちらの loop も刻まない読み書きと同じ結果になる。
-/

namespace Plin

open Infra

theorem readAll_append {a b : Bytes} {n : Nat} (h : a.length = n) :
    readAll n (a ++ b) = some (a, b) := by
  subst h
  rw [readAll, if_pos (by simp)]
  simp

theorem readAll_eq_none {n : Nat} {s : Bytes} (h : s.length < n) : readAll n s = none := by
  rw [readAll, if_neg (by omega)]

namespace Frame

theorem bytes_eq (f : Frame) :
    f.bytes = beBytes 4 f.payloadLen ++ ([f.type.byte] ++ f.body) := by
  by_cases h : f.body = []
  · simp [bytes, chunks, h]
  · simp [bytes, chunks, h]

theorem Small.payloadLen_eq {f : Frame} (h : f.Small) : f.payloadLen = f.body.length + 1 := by
  rw [Small] at h
  rw [payloadLen]
  omega

theorem Small.ofBeBytes_eq {f : Frame} (h : f.Small) :
    ofBeBytes (beBytes 4 f.payloadLen) = f.body.length + 1 := by
  rw [ofBeBytes_beBytes, h.payloadLen_eq]
  exact Nat.mod_eq_of_lt h

/-- **書いた frame は読み戻せる。** -/
theorem Small.readFrame_bytes {f : Frame} (h : f.Small) (rest : Bytes) :
    readFrame (f.bytes ++ rest) = some (f, rest) := by
  rw [bytes_eq, List.append_assoc, List.append_assoc, readFrame,
    readAll_append (length_beBytes 4 _)]
  simp only [Option.bind_eq_bind, Option.bind_some]
  rw [h.ofBeBytes_eq, if_neg (by omega), readAll_append List.length_singleton]
  simp only [Option.bind_some]
  rw [readAll_append (by omega)]
  rfl

/-- **書きかけの frame は、まだ読めない。** -/
theorem Small.readFrame_partial {f : Frame} (h : f.Small) {p q : Bytes} (hpq : p ++ q = f.bytes)
    (hq : q ≠ []) : readFrame p = none := by
  have hlen : p.length + q.length = f.body.length + 5 := by
    rw [← List.length_append, hpq, bytes_eq]
    simp
    omega
  have hpos : 0 < q.length := List.length_pos_iff.mpr hq
  by_cases h4 : p.length < 4
  · rw [readFrame, readAll_eq_none h4]
    rfl
  · obtain ⟨p', rfl⟩ : ∃ p', p = beBytes 4 f.payloadLen ++ p' := by
      rw [bytes_eq] at hpq
      obtain ⟨w, hw, -⟩ | ⟨w, hw, hw'⟩ := List.append_eq_append_iff.mp hpq
      · refine ⟨[], ?_⟩
        have : w.length = 0 := by
          have := congrArg List.length hw
          simp at this
          omega
        rw [List.length_eq_zero_iff.mp this] at hw
        simpa using hw.symm
      · exact ⟨w, hw⟩
    rw [readFrame, readAll_append (length_beBytes 4 _)]
    simp only [Option.bind_eq_bind, Option.bind_some]
    rw [h.ofBeBytes_eq, if_neg (by omega)]
    simp only [List.length_append, length_beBytes] at hlen
    match p' with
    | [] => rfl
    | b :: p'' =>
      rw [show b :: p'' = [b] ++ p'' from rfl, readAll_append List.length_singleton]
      simp only [Option.bind_some]
      rw [readAll_eq_none (by simp at hlen; omega)]
      rfl

theorem length_bytes_pos (f : Frame) : 0 < f.bytes.length := by
  rw [bytes_eq]
  simp

end Frame

theorem readFrames_flatMap {fs : List Frame} (hfs : ∀ f ∈ fs, f.Small) {p : Bytes}
    (hp : readFrame p = none) {fuel : Nat} (hfuel : fs.length ≤ fuel) :
    readFrames fuel (fs.flatMap Frame.bytes ++ p) = fs := by
  induction fs generalizing fuel with
  | nil =>
    cases fuel with
    | zero => rfl
    | succ fuel => simp [readFrames, hp]
  | cons f fs ih =>
    obtain ⟨hf, hfs⟩ := List.forall_mem_cons.mp hfs
    cases fuel with
    | zero => simp at hfuel
    | succ fuel =>
      rw [List.flatMap_cons, List.append_assoc, readFrames, hf.readFrame_bytes]
      simp only
      rw [ih hfs (by simpa using hfuel)]

theorem length_le_flatMap (fs : List Frame) (p : Bytes) :
    fs.length ≤ (fs.flatMap Frame.bytes ++ p).length := by
  induction fs with
  | nil => simp
  | cons f fs ih =>
    have := f.length_bytes_pos
    simp only [List.flatMap_cons, List.length_append, List.length_cons] at ih ⊢
    omega

/-- **frame の列と、書きかけの frame が一つ続く stream からは、書き終えた frame だけが読める。** -/
theorem received_eq {fs : List Frame} (hfs : ∀ f ∈ fs, f.Small) {p : Bytes}
    (hp : readFrame p = none) : received (fs.flatMap Frame.bytes ++ p) = fs :=
  readFrames_flatMap hfs hp (length_le_flatMap fs p)

/-! ## 部分的な読み書き -/

variable (split : Nat → Nat)

/-- `write_all` は、どう刻まれても全部を書く。 -/
theorem writeAllOn_stream (buf : Bytes) (s : Socket) :
    (writeAllOn split buf s).stream = s.stream ++ buf := by
  induction hn : buf.length using Nat.strong_induction_on generalizing buf s with
  | _ n ih =>
    rw [writeAllOn]
    split
    · next h => simp [h]
    · next h =>
      have hpos := List.length_pos_iff.mpr h
      rw [ih _ ?_ _ _ rfl]
      · simp
      · simp only [List.length_drop]
        omega

theorem writeFrameOn_stream (f : Frame) (s : Socket) :
    (writeFrameOn split s f).stream = s.stream ++ f.bytes := by
  have hfold : ∀ (chunks : List Bytes) (s : Socket),
      (chunks.foldl (fun s chunk => writeAllOn split chunk s) s).stream =
        s.stream ++ chunks.flatten := by
    intro chunks
    induction chunks with
    | nil => simp
    | cons chunk chunks ih =>
      intro s
      rw [List.foldl_cons, ih, writeAllOn_stream, List.flatten_cons, List.append_assoc]
  exact hfold f.chunks s

theorem writeFramesOn_stream (fs : List Frame) (s : Socket) :
    (writeFramesOn split fs s).stream = s.stream ++ fs.flatMap Frame.bytes := by
  induction fs generalizing s with
  | nil => simp [writeFramesOn]
  | cons f fs ih =>
    rw [writeFramesOn, List.foldl_cons]
    have := ih (writeFrameOn split s f)
    rw [writeFramesOn] at this
    rw [this, writeFrameOn_stream, List.flatMap_cons, List.append_assoc]

/-- `read_all` は、どう刻まれても同じ byte 列を読む。 -/
theorem readAllOn_eq_some {n : Nat} {s : Socket} (h : n ≤ s.stream.length) :
    ∃ c, readAllOn split n s = some (s.stream.take n, ⟨c, s.stream.drop n⟩) := by
  induction n using Nat.strong_induction_on generalizing s with
  | _ n ih =>
    cases n with
    | zero => exact ⟨s.calls, by simp [readAllOn]⟩
    | succ n =>
      rw [readAllOn]
      dsimp only
      set r := min (min (n + 1) s.stream.length) (split s.calls + 1) with hr
      have hpos : r ≠ 0 := by omega
      have hle : r ≤ n + 1 := by omega
      obtain ⟨c, hc⟩ := ih (n + 1 - r) (by omega)
        (s := ⟨s.calls + 1, s.stream.drop r⟩) (by simp only [List.length_drop]; omega)
      refine ⟨c, ?_⟩
      rw [dif_neg hpos, hc]
      simp only [Option.map_some, List.drop_drop]
      rw [← List.take_add, Nat.add_sub_cancel' hle]

theorem readAllOn_eq_none {n : Nat} {s : Socket} (h : s.stream.length < n) :
    readAllOn split n s = none := by
  induction n using Nat.strong_induction_on generalizing s with
  | _ n ih =>
    cases n with
    | zero => omega
    | succ n =>
      rw [readAllOn]
      dsimp only
      set r := min (min (n + 1) s.stream.length) (split s.calls + 1) with hr
      split
      · rfl
      · next hpos =>
        rw [ih (n + 1 - r) (by omega) (by simp only [List.length_drop]; omega)]
        rfl

/-- 刻まない `read_all` と同じ結果になる。 -/
theorem readAllOn_eq (n : Nat) (s : Socket) :
    (readAllOn split n s).map (fun r => (r.1, r.2.stream)) = readAll n s.stream := by
  by_cases h : n ≤ s.stream.length
  · obtain ⟨c, hc⟩ := readAllOn_eq_some split h
    rw [hc, readAll, if_pos h]
    rfl
  · rw [readAllOn_eq_none split (by omega), readAll, if_neg h]
    rfl

/-- 刻まない `read_frame` と同じ結果になる。 -/
theorem readFrameOn_eq (s : Socket) :
    (readFrameOn split s).map (fun r => (r.1, r.2.stream)) = readFrame s.stream := by
  unfold readFrameOn readFrame
  rw [← readAllOn_eq split 4 s]
  cases readAllOn split 4 s with
  | none => rfl
  | some r =>
    obtain ⟨lenBe, s₁⟩ := r
    simp only [Option.bind_eq_bind, Option.bind_some, Option.map_some]
    by_cases hlen : ofBeBytes lenBe < 1
    · rw [if_pos hlen, if_pos hlen]
      rfl
    · rw [if_neg hlen, if_neg hlen, ← readAllOn_eq split 1 s₁]
      cases readAllOn split 1 s₁ with
      | none => rfl
      | some r =>
        obtain ⟨typeByte, s₂⟩ := r
        simp only [Option.bind_some, Option.map_some]
        rw [← readAllOn_eq split (ofBeBytes lenBe - 1) s₂]
        -- body が空なら三つ目の `read_all` は呼ばれないが、呼んでも何も読まない
        by_cases hbody : 0 < ofBeBytes lenBe - 1
        · rw [if_pos hbody]
          cases readAllOn split (ofBeBytes lenBe - 1) s₂ with
          | none => rfl
          | some r => rfl
        · rw [if_neg hbody, Nat.eq_zero_of_not_pos hbody, readAllOn]
          rfl

/-- stream の先頭から、丸ごと入っている frame を読み、そこで止まる。 -/
theorem readsFrames_wholeFrames {fs : List Frame} (hfs : ∀ f ∈ fs, f.Small) {p q : Bytes}
    (hpq : p ++ q = fs.flatMap Frame.bytes) (c : Nat) :
    ReadsFrames split ⟨c, p⟩ (wholeFrames fs p.length) := by
  induction fs generalizing p c with
  | nil =>
    obtain ⟨rfl, rfl⟩ : p = [] ∧ q = [] := by simpa using hpq
    refine .stop ?_
    rw [readFrameOn, readAllOn_eq_none split (by simp)]
    rfl
  | cons f fs ih =>
    obtain ⟨hf, hrest⟩ := List.forall_mem_cons.mp hfs
    rw [List.flatMap_cons] at hpq
    rw [wholeFrames]
    split
    · next hle =>
      obtain ⟨p', rfl⟩ : ∃ p', p = f.bytes ++ p' := by
        obtain ⟨w, hw, -⟩ | ⟨w, hw, -⟩ := List.append_eq_append_iff.mp hpq
        · have hnil : w = [] := by
            have := congrArg List.length hw
            rw [List.length_append] at this
            exact List.length_eq_zero_iff.mp (by omega)
          exact ⟨[], by rw [hw, hnil]; simp⟩
        · exact ⟨w, hw⟩
      have hread := readFrameOn_eq split ⟨c, f.bytes ++ p'⟩
      rw [hf.readFrame_bytes] at hread
      obtain ⟨⟨f', s'⟩, hon, heq⟩ := Option.map_eq_some_iff.mp hread
      obtain ⟨rfl, hs'⟩ := Prod.mk.inj heq
      refine .frame hon ?_
      obtain ⟨c', stream⟩ := s'
      obtain rfl : stream = p' := hs'
      rw [List.length_append, Nat.add_sub_cancel_left]
      exact ih hrest (by simpa using hpq) c'
    · next hgt =>
      obtain ⟨w, hw, hwne⟩ : ∃ w, p ++ w = f.bytes ∧ w ≠ [] := by
        obtain ⟨w, hw, -⟩ | ⟨w, hw, -⟩ := List.append_eq_append_iff.mp hpq
        · refine ⟨w, hw.symm, fun hnil => hgt ?_⟩
          rw [hw, hnil]
          simp
        · exact absurd (by rw [hw]; simp) hgt
      have hread := readFrameOn_eq split ⟨c, p⟩
      rw [hf.readFrame_partial hw hwne] at hread
      exact .stop (Option.map_eq_none_iff.mp hread)

theorem wholeFrames_all (fs : List Frame) :
    wholeFrames fs (fs.flatMap Frame.bytes).length = fs := by
  induction fs with
  | nil => rfl
  | cons f fs ih =>
    rw [List.flatMap_cons, List.length_append, wholeFrames, if_pos (by omega),
      Nat.add_sub_cancel_left, ih]

/-- **`write_frame` で書いた frame の列は、読み書きがどう刻まれても `read_frame` で読み戻せる。**
stream が途中で切れれば、丸ごと届いた frame だけが読め、次の `read_frame` は偽を返す。 -/
theorem frame_codec (fs : List Frame) (hfs : ∀ f ∈ fs, f.body.length < 2 ^ 32 - 1)
    (writes reads : Nat → Nat) :
    ReadsFrames reads ⟨0, (writeFramesOn writes fs ⟨0, []⟩).stream⟩ fs ∧
      ∀ p q, p ++ q = (writeFramesOn writes fs ⟨0, []⟩).stream → q ≠ [] →
        ReadsFrames reads ⟨0, p⟩ (wholeFrames fs p.length) := by
  have hsmall : ∀ f ∈ fs, f.Small := by
    intro f hf
    have := hfs f hf
    show f.body.length + 1 < 2 ^ 32
    omega
  rw [writeFramesOn_stream, List.nil_append]
  refine ⟨?_, fun p q hpq _ => readsFrames_wholeFrames reads hsmall hpq 0⟩
  have h := readsFrames_wholeFrames reads hsmall (List.append_nil (fs.flatMap Frame.bytes)) 0
  rw [wholeFrames_all] at h
  exact h

/-- 一 byte ずつ書いて一 byte ずつ読む場合。 -/
theorem frame_codec_bytewise :
    ReadsFrames (fun _ => 0)
      ⟨0, (writeFramesOn (fun _ => 0) [⟨.heartbeat, []⟩, ⟨.hotUpdate, [1, 2]⟩] ⟨0, []⟩).stream⟩
      [⟨.heartbeat, []⟩, ⟨.hotUpdate, [1, 2]⟩] :=
  (frame_codec _ (by simp) _ _).1

end Plin
