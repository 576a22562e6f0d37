import Plin.Properties.EndCaches

/-!
# 頼んでいない frame は失われないか

End の接続を読む五つの関数のうち四つは、読んだ `HOT_UPDATE` と `PLIN_PARAM_PUSH` を届いた順に一度ずつ
反映する。`request_param_push` だけは、返事より先に `HOT_UPDATE` が届くと **それを捨てる**
（`hotUpdate_lost`）。

どの呼び出しの列とどの到着の順についても、失われた frame が無いことは、`request_param_push` の
最初に読む frame が一度も `HOT_UPDATE` でないことと同じである（`no_push_lost_iff`）。
-/

namespace Plin

open Infra

variable {P : Type} (M : ParamModel P)

/-- 届いたもののうち、反映を数える frame。 -/
def pushes (i : Inbox) : List Frame := (i.filterMap id).filter fun f => decide f.IsPush

theorem pushes_append (i j : Inbox) : pushes (i ++ j) = pushes i ++ pushes j := by
  rw [pushes, List.filterMap_append, List.filter_append]
  rfl

/--
`s` から `s'` までに `lost` 個の frame が失われた。

読んだものは接続の前から続いており、反映したものは読んだ順に並んでいる。
-/
def Reads (s s' : EndSession P) (lost : Nat) : Prop :=
  ∃ consumed kept, s.inbox = consumed ++ s'.inbox ∧ s'.applied = s.applied ++ kept ∧
    kept.Sublist (pushes consumed) ∧ kept.length + lost = (pushes consumed).length

namespace Reads

variable {s s' s'' : EndSession P} {n m : Nat}

theorem refl (s : EndSession P) : Reads s s 0 := ⟨[], [], rfl, by simp, .slnil, rfl⟩

theorem trans (h : Reads s s' n) (h' : Reads s' s'' m) : Reads s s'' (n + m) := by
  obtain ⟨c, k, hi, ha, hk, hn⟩ := h
  obtain ⟨c', k', hi', ha', hk', hn'⟩ := h'
  refine ⟨c ++ c', k ++ k', ?_, ?_, ?_, ?_⟩
  · rw [hi, hi', List.append_assoc]
  · rw [ha', ha, List.append_assoc]
  · rw [pushes_append]
    exact hk.append hk'
  · rw [pushes_append, List.length_append, List.length_append]
    omega

/-- 読んだ frame をすべて反映した。 -/
theorem of_kept (consumed : Inbox) (hi : s.inbox = consumed ++ s'.inbox)
    (ha : s'.applied = s.applied ++ pushes consumed) : Reads s s' 0 :=
  ⟨consumed, pushes consumed, hi, ha, List.Sublist.refl _, rfl⟩

/-- **失われた frame が無いことは、読んだ `HOT_UPDATE` と `PLIN_PARAM_PUSH` の列をそのまま反映したこと
である。** -/
theorem zero_iff : Reads s s' 0 ↔
    ∃ consumed, s.inbox = consumed ++ s'.inbox ∧ s'.applied = s.applied ++ pushes consumed := by
  constructor
  · rintro ⟨c, k, hi, ha, hk, hn⟩
    exact ⟨c, hi, by rw [ha, hk.eq_of_length (by omega)]⟩
  · rintro ⟨c, hi, ha⟩
    exact of_kept c hi ha

/-- 失われた個数は、読んだ後の状態で決まる。 -/
theorem unique (h : Reads s s' n) (h' : Reads s s' m) : n = m := by
  obtain ⟨c, k, hi, ha, -, hn⟩ := h
  obtain ⟨c', k', hi', ha', -, hn'⟩ := h'
  rw [hi] at hi'
  obtain rfl : c = c' := List.append_cancel_right hi'
  rw [ha] at ha'
  obtain rfl : k = k' := List.append_cancel_left ha'
  omega

end Reads

/-! ## 一つの frame の反映 -/

namespace EndSession

@[simp] theorem applyEdgeControlFrame_inbox (s : EndSession P) (f : Frame) :
    (s.applyEdgeControlFrame M f).inbox = s.inbox := by
  unfold applyEdgeControlFrame
  repeat' split
  all_goals rfl

@[simp] theorem applyEdgeControlFrame_outbox (s : EndSession P) (f : Frame) :
    (s.applyEdgeControlFrame M f).outbox = s.outbox := by
  unfold applyEdgeControlFrame
  repeat' split
  all_goals rfl

theorem applyEdgeControlFrame_applied (s : EndSession P) (f : Frame) :
    (s.applyEdgeControlFrame M f).applied = s.applied ++ pushes [some f] := by
  have hp : pushes [some f] = if f.IsPush then [f] else [] := by
    by_cases h : f.IsPush <;> simp [pushes, h]
  rw [hp]
  unfold applyEdgeControlFrame
  by_cases h₁ : f.type = .plinParamPush
  · rw [if_pos h₁, if_pos (show f.IsPush from Or.inr h₁)]
  · by_cases h₂ : f.type = .hotUpdate
    · rw [if_neg h₁, if_pos h₂, if_pos (show f.IsPush from Or.inl h₂)]
    · have h₃ : ¬ f.IsPush := by
        rintro (h | h)
        · exact h₂ h
        · exact h₁ h
      rw [if_neg h₁, if_neg h₂, if_neg h₃, List.append_nil]
      repeat' split
      all_goals rfl

/-- 頼んでいない frame の反映に回らない frame は、数える frame でもない。 -/
theorem pushes_of_not_control {f : Frame} (h : ¬ f.IsControl) : pushes [some f] = [] := by
  have hp : ¬ f.IsPush := by
    rintro (hf | hf)
    · exact h (Or.inr (Or.inl hf))
    · exact h (Or.inl hf)
  simp [pushes, hp]

theorem pushes_cons (a : Option Frame) (i : Inbox) : pushes (a :: i) = pushes [a] ++ pushes i :=
  pushes_append [a] i

theorem pushes_none : pushes [none] = [] := rfl

theorem not_control_of_resp {f : Frame} (h : f.type = .edgeFetchResp) : ¬ f.IsControl := by
  rintro (hf | hf | hf) <;> · rw [h] at hf; exact absurd hf (by decide)

/-! ## 五つの関数 -/

theorem readFetchLoop_reads (out : Payload) (i : Inbox) (s : EndSession P) :
    ∃ consumed, i = consumed ++ (readFetchLoop M out i s).2.inbox ∧
      (readFetchLoop M out i s).2.applied = s.applied ++ pushes consumed := by
  induction i generalizing s with
  | nil => exact ⟨[], rfl, by simp [readFetchLoop, pushes]⟩
  | cons a rest ih =>
    cases a with
    | none =>
      obtain ⟨c, hi, ha⟩ := ih s
      refine ⟨none :: c, ?_, ?_⟩
      · rw [readFetchLoop, List.cons_append, ← hi]
      · rw [readFetchLoop, ha, pushes_cons none c, pushes_none, List.nil_append]
    | some f =>
      rw [readFetchLoop]
      by_cases hr : f.type = .edgeFetchResp
      · rw [if_pos hr]
        exact ⟨[some f], rfl, by rw [pushes_of_not_control (not_control_of_resp hr)]; simp⟩
      · rw [if_neg hr]
        by_cases hc : f.IsControl
        · rw [if_pos hc]
          obtain ⟨c, hi, ha⟩ := ih (s.applyEdgeControlFrame M f)
          refine ⟨some f :: c, ?_, ?_⟩
          · rw [List.cons_append, ← hi]
          · rw [ha, applyEdgeControlFrame_applied, pushes_cons (some f) c, List.append_assoc]
        · rw [if_neg hc]
          exact ⟨[some f], rfl, by rw [pushes_of_not_control hc]; simp⟩

theorem readFetchResponse_reads (s : EndSession P) (out : Payload) :
    Reads s (s.readFetchResponse M out).2 0 :=
  Reads.zero_iff.mpr (readFetchLoop_reads M out s.inbox s)

theorem edgeFetch_reads (s : EndSession P) (key : Key) (slot : Int32) (out : Payload) :
    Reads s (s.edgeFetch M key slot out).2 0 :=
  readFetchResponse_reads M (s.writeFrame _) out

theorem crossEdgeFetch_reads (s : EndSession P) (key : Key) (out : Payload) :
    Reads s (s.crossEdgeFetch M key out).2 0 := by
  unfold crossEdgeFetch
  exact readFetchResponse_reads M (EndSession.writeFrame { s with nextRequestId := _ } _) out

/-- 待ち時間の有る読みは、接続の先頭を一つだけ取る。 -/
theorem readFrameTimed_spec (s : EndSession P) :
    (s.readFrameTimed = (none, s) ∧ s.inbox = []) ∨
    ∃ a rest, s.inbox = a :: rest ∧ s.readFrameTimed = (a, { s with inbox := rest }) := by
  unfold readFrameTimed
  cases hi : s.inbox with
  | nil => exact Or.inl ⟨rfl, rfl⟩
  | cons a rest => exact Or.inr ⟨a, rest, rfl, rfl⟩

/-- 途切れを一つ待つ。 -/
theorem reads_quiet {s : EndSession P} {rest : Inbox} (hi : s.inbox = none :: rest) :
    Reads s { s with inbox := rest } 0 :=
  Reads.of_kept [none] hi (by simp [pushes_none])

/-- 先頭の frame を読んで反映する。 -/
theorem reads_apply {s : EndSession P} {f : Frame} {rest : Inbox}
    (hi : s.inbox = some f :: rest) :
    Reads s (EndSession.applyEdgeControlFrame M { s with inbox := rest } f) 0 :=
  Reads.of_kept [some f] (by simpa using hi) (applyEdgeControlFrame_applied M _ f)

theorem waitLoaded_reads (rounds : Nat) (s : EndSession P) : Reads s (waitLoaded M rounds s) 0 := by
  induction rounds generalizing s with
  | zero => exact Reads.refl s
  | succ rounds ih =>
    rw [waitLoaded]
    split
    · exact Reads.refl s
    · rcases readFrameTimed_spec s with ⟨hr, -⟩ | ⟨a, rest, hi, hr⟩
      · rw [hr]
        exact ih s
      · rw [hr]
        cases a with
        | none => exact (reads_quiet hi).trans (ih _)
        | some f => exact (reads_apply M hi).trans (ih _)

theorem drainSnapshot_reads (i : Inbox) (s : EndSession P) :
    ∃ consumed, i = consumed ++ (drainSnapshot M i s).inbox ∧
      (drainSnapshot M i s).applied = s.applied ++ pushes consumed := by
  induction i generalizing s with
  | nil => exact ⟨[], rfl, by simp [drainSnapshot, pushes]⟩
  | cons a rest ih =>
    cases a with
    | none => exact ⟨[none], rfl, by simp [drainSnapshot, pushes_none]⟩
    | some f =>
      simp only [drainSnapshot]
      split
      · obtain ⟨c, hi, ha⟩ := ih (s.applyEdgeControlFrame M f)
        refine ⟨some f :: c, ?_, ?_⟩
        · rw [List.cons_append, ← hi]
        · rw [ha, applyEdgeControlFrame_applied, pushes_cons (some f) c, List.append_assoc]
      · exact ⟨[some f], rfl, applyEdgeControlFrame_applied M s f⟩

theorem waitInitialPlinPush_reads (s : EndSession P) (rounds : Nat) :
    Reads s (s.waitInitialPlinPush M rounds) 0 :=
  (waitLoaded_reads M rounds s).trans (Reads.zero_iff.mpr (drainSnapshot_reads M _ _))

theorem foldl_apply_applied (fs : List Frame) (s : EndSession P) :
    (fs.foldl (fun s f => s.applyEdgeControlFrame M f) s).applied =
      s.applied ++ fs.filter fun f => decide f.IsPush := by
  induction fs generalizing s with
  | nil => simp
  | cons f fs ih =>
    have hone : pushes [some f] = [f].filter fun f => decide f.IsPush := rfl
    rw [List.foldl_cons, ih, applyEdgeControlFrame_applied, hone, List.append_assoc,
      ← List.filter_append]
    rfl

theorem edgeReceiver_reads (s : EndSession P) : Reads s (s.edgeReceiver M) 0 := by
  refine Reads.of_kept s.inbox (by simp [edgeReceiver]) ?_
  exact foldl_apply_applied M _ s

theorem drainEdgeControlFrames_reads (rounds : Nat) (s : EndSession P) :
    Reads s (drainEdgeControlFrames M rounds s) 0 := by
  induction rounds generalizing s with
  | zero => exact Reads.refl s
  | succ rounds ih =>
    rw [drainEdgeControlFrames]
    rcases readFrameTimed_spec s with ⟨hr, -⟩ | ⟨a, rest, hi, hr⟩
    · rw [hr]
      exact ih s
    · rw [hr]
      cases a with
      | none => exact (reads_quiet hi).trans (ih _)
      | some f =>
        dsimp only
        split
        · exact (reads_apply M hi).trans (ih _)
        · have h : Reads s { s with inbox := rest } 0 :=
            Reads.of_kept [some f] hi (by rw [pushes_of_not_control ‹_›]; simp)
          exact h.trans (ih _)

/-! ## `request_param_push` -/

/-- 次に届く frame。 -/
def nextFrame (s : EndSession P) : Option Frame := s.readFrame.map Prod.fst

/-- 次に届く frame が `HOT_UPDATE` である。 -/
def HotNext (s : EndSession P) : Prop := ∃ f ∈ s.nextFrame, f.type = .hotUpdate

instance (s : EndSession P) : Decidable s.HotNext :=
  match h : s.nextFrame with
  | none => .isFalse (by rintro ⟨f, hf, -⟩; rw [h] at hf; cases hf)
  | some f => decidable_of_iff (f.type = .hotUpdate) (by simp [HotNext, h])

theorem pushes_dropWhile (i : Inbox) : pushes (i.takeWhile Option.isNone) = [] := by
  induction i with
  | nil => rfl
  | cons a i ih =>
    cases a with
    | none => rw [List.takeWhile_cons_of_pos rfl, pushes_cons none _, pushes_none, ih]; rfl
    | some f => rw [List.takeWhile_cons_of_neg (by simp)]; rfl

/-- 待ち時間の無い読みは、途切れを飛ばして次の frame を取る。 -/
theorem readFrame_spec (s : EndSession P) :
    (s.readFrame = none ∧ pushes s.inbox = []) ∨
    ∃ f gap rest, s.readFrame = some (f, { s with inbox := rest }) ∧
      s.inbox = gap ++ some f :: rest ∧ pushes gap = [] := by
  have hsplit := List.takeWhile_append_dropWhile (p := Option.isNone) (l := s.inbox)
  have hgap := pushes_dropWhile s.inbox
  unfold readFrame
  rcases hd : s.inbox.dropWhile Option.isNone with _ | ⟨a, rest⟩
  · refine Or.inl ⟨rfl, ?_⟩
    rw [hd, List.append_nil] at hsplit
    rw [← hsplit, hgap]
  · cases a with
    | none =>
      have hhead := List.head_dropWhile_not Option.isNone
        (show s.inbox.dropWhile Option.isNone ≠ [] by rw [hd]; simp)
      simp [hd] at hhead
    | some f => exact Or.inr ⟨f, _, rest, rfl, by rw [← hd, hsplit], hgap⟩

/-- **`request_param_push` が失うのは、最初に読んだ `HOT_UPDATE` 一つだけである。** -/
theorem requestParamPush_reads (s : EndSession P) :
    Reads s (s.requestParamPush M) (if s.HotNext then 1 else 0) := by
  have hwrite : (s.writeFrame ⟨.plinParamPush, []⟩).nextFrame = s.nextFrame := by
    unfold nextFrame readFrame writeFrame
    dsimp only
    split <;> rfl
  rcases readFrame_spec (s.writeFrame ⟨.plinParamPush, []⟩) with ⟨hr, hnone⟩ |
    ⟨f, gap, rest, hr, hi, hgap⟩
  · have hhot : ¬ s.HotNext := by
      rintro ⟨f, hf, -⟩
      rw [← hwrite, nextFrame, hr] at hf
      cases hf
    rw [if_neg hhot, requestParamPush, hr]
    exact Reads.of_kept s.inbox (by simp)
      (by rw [show pushes s.inbox = [] from hnone]; simp [writeFrame])
  · have hhot : s.HotNext ↔ f.type = .hotUpdate := by
      have hf : s.nextFrame = some f := by rw [← hwrite, nextFrame, hr]; rfl
      simp [HotNext, hf]
    have hi' : s.inbox = gap ++ some f :: rest := hi
    rw [requestParamPush, hr]
    dsimp only
    split
    case isTrue hplin =>
      have hne : ¬ s.HotNext := by rw [hhot, hplin]; decide
      rw [if_neg hne]
      set s₁ := EndSession.applyEdgeControlFrame M
        { s.writeFrame ⟨.plinParamPush, []⟩ with inbox := rest } f with hs₁
      have h₁ : Reads s s₁ 0 := by
        refine Reads.of_kept (gap ++ [some f]) ?_ ?_
        · rw [hi', hs₁]
          simp
        · rw [hs₁, applyEdgeControlFrame_applied, pushes_append, hgap]
          simp [writeFrame]
      rcases readFrameTimed_spec s₁ with ⟨hr₁, -⟩ | ⟨a, rest', hi₁, hr₁⟩
      · rw [hr₁]
        exact h₁
      · rw [hr₁]
        cases a with
        | none => exact h₁.trans (reads_quiet hi₁)
        | some g => exact h₁.trans (reads_apply M hi₁)
    case isFalse hplin =>
      refine ⟨gap ++ [some f], [], by simp [hi'], by simp [writeFrame], by simp, ?_⟩
      have hpush : (pushes [some f]).length = if f.type = .hotUpdate then 1 else 0 := by
        by_cases hh : f.type = .hotUpdate
        · simp [pushes, Frame.IsPush, hh]
        · simp [pushes, Frame.IsPush, hh, hplin]
      rw [pushes_append, hgap, List.nil_append, hpush, if_congr hhot rfl rfl]
      simp

end EndSession

/-! ## `lookup` -/

namespace EndNode

open EndSession

/-- 段階③の返事が `param_stale` を立てていたとき、`lookup` が `request_param_push` を呼ぶ状態。 -/
def paramRequest (node : EndNode) (s : EndSession P) (k : Key) : Option (EndSession P) :=
  if node.rm.locateEnd k = node.id ∨ (s.hotCache.find k).isSome then none
  else if 0 ≤ node.rm.locateEnd k ∧ node.rm.sameEdge (node.rm.locateEnd k) node.id then
    match node.edge with
    | none => none
    | some edge =>
      let (r, s) := fetchSibling M edge s k
      if r.stale then some (s.warm r k) else none
  else none

theorem fetchSibling_reads (edge : Transport) (s : EndSession P) (k : Key) :
    Reads s (fetchSibling M edge s k).2 0 := by
  unfold fetchSibling
  dsimp only
  split
  · exact Reads.refl s
  · exact edgeFetch_reads M s k _ _

theorem warm_reads {s s' : EndSession P} {n : Nat} (h : Reads s s' n) (r : FetchResult) (k : Key) :
    Reads s (s'.warm r k) n := by
  unfold warm
  split
  · exact h
  · exact h

/-- **`lookup` が失うのは、`request_param_push` が捨てる `HOT_UPDATE` だけである。** -/
theorem lookup_reads (node : EndNode) (s : EndSession P) (k : Key) :
    ∃ n, Reads s (node.lookup M s k).2 n ∧
      (n = 0 ↔ ∀ s' ∈ node.paramRequest M s k, ¬ s'.HotNext) := by
  unfold lookup paramRequest
  by_cases hloc : node.rm.locateEnd k = node.id
  · rw [if_pos hloc, if_pos (Or.inl hloc)]
    refine ⟨0, ?_, by simp⟩
    cases node.store.find k <;> exact Reads.refl s
  · rw [if_neg hloc]
    cases hhot : s.hotCache.find k with
    | some v => exact ⟨0, Reads.refl s, by simp⟩
    | none =>
      have hmiss : ¬ (node.rm.locateEnd k = node.id ∨ (none : Option Payload).isSome = true) := by
        simp [hloc]
      rw [if_neg hmiss]
      dsimp only
      by_cases hsame : 0 ≤ node.rm.locateEnd k ∧ node.rm.sameEdge (node.rm.locateEnd k) node.id
      · rw [if_pos hsame, if_pos hsame]
        cases node.edge with
        | none => exact ⟨0, Reads.refl s, by simp⟩
        | some edge =>
          dsimp only
          have h := warm_reads (fetchSibling_reads M edge s k) (fetchSibling M edge s k).1 k
          by_cases hstale : (fetchSibling M edge s k).1.stale = true
          · rw [if_pos hstale, if_pos hstale]
            refine ⟨_, h.trans (requestParamPush_reads M _), ?_⟩
            simp
          · rw [if_neg hstale, if_neg hstale]
            exact ⟨0, h, by simp⟩
      · rw [if_neg hsame, if_neg hsame]
        refine ⟨0, ?_, by simp⟩
        split
        · exact warm_reads (crossEdgeFetch_reads M s k 0) _ k
        · exact Reads.refl s

end EndNode

/-! ## 呼び出しの列 -/

/-- 接続を読む呼び出し。`rounds` は締め切りまでに回る回数である。 -/
inductive EndCall where
  | lookup (k : Key)
  | waitInitialPlinPush (rounds : Nat)
  | drainEdgeControlFrames (rounds : Nat)
  | edgeReceiver
  deriving DecidableEq

namespace EndCall

/-- 呼び出しを一つ行う。 -/
def run (node : EndNode) (s : EndSession P) : EndCall → EndSession P
  | .lookup k => (node.lookup M s k).2
  | .waitInitialPlinPush rounds => s.waitInitialPlinPush M rounds
  | .drainEdgeControlFrames rounds => s.drainEdgeControlFrames M rounds
  | .edgeReceiver => s.edgeReceiver M

/-- この呼び出しの `request_param_push` が最初に読む frame は、`HOT_UPDATE` でない。 -/
def Safe (node : EndNode) (s : EndSession P) : EndCall → Prop
  | .lookup k => ∀ s' ∈ node.paramRequest M s k, ¬ s'.HotNext
  | _ => True

/-- 呼び出しを順に行う。 -/
def runAll (node : EndNode) (s : EndSession P) (calls : List EndCall) : EndSession P :=
  calls.foldl (fun s c => c.run M node s) s

/-- どの呼び出しも条件を満たす。 -/
def AllSafe (node : EndNode) : EndSession P → List EndCall → Prop
  | _, [] => True
  | s, c :: calls => c.Safe M node s ∧ AllSafe node (c.run M node s) calls

theorem run_reads (node : EndNode) (s : EndSession P) (c : EndCall) :
    ∃ n, Reads s (c.run M node s) n ∧ (n = 0 ↔ c.Safe M node s) := by
  cases c with
  | lookup k => exact node.lookup_reads M s k
  | waitInitialPlinPush rounds =>
    exact ⟨0, s.waitInitialPlinPush_reads M rounds, by simp [Safe]⟩
  | drainEdgeControlFrames rounds =>
    exact ⟨0, EndSession.drainEdgeControlFrames_reads M rounds s, by simp [Safe]⟩
  | edgeReceiver => exact ⟨0, s.edgeReceiver_reads M, by simp [Safe]⟩

theorem runAll_reads (node : EndNode) (s : EndSession P) (calls : List EndCall) :
    ∃ n, Reads s (runAll M node s calls) n ∧ (n = 0 ↔ AllSafe M node s calls) := by
  induction calls generalizing s with
  | nil => exact ⟨0, Reads.refl s, by simp [AllSafe]⟩
  | cons c calls ih =>
    obtain ⟨n, hr, hn⟩ := run_reads M node s c
    obtain ⟨m, hr', hm⟩ := ih (c.run M node s)
    refine ⟨n + m, hr.trans hr', ?_⟩
    rw [AllSafe, ← hn, ← hm, Nat.add_eq_zero_iff]

theorem run_caches (node : EndNode) (s : EndSession P) (c : EndCall) :
    Caches M s (c.run M node s) := by
  cases c with
  | lookup k => exact node.lookup_caches M s k
  | waitInitialPlinPush rounds =>
    exact (s.waitLoaded_caches M rounds).trans (EndSession.drainSnapshot_caches M _ _)
  | drainEdgeControlFrames rounds => exact s.drainEdgeControlFrames_caches M rounds
  | edgeReceiver => exact s.edgeReceiver_caches M

theorem runAll_caches (node : EndNode) (s : EndSession P) (calls : List EndCall) :
    Caches M s (runAll M node s calls) := by
  induction calls generalizing s with
  | nil => exact .refl s
  | cons c calls ih => exact (run_caches M node s c).trans (ih _)

end EndCall

/-- 読んだ `HOT_UPDATE` と `PLIN_PARAM_PUSH` を、届いた順に一度ずつ反映した。 -/
def Lossless (s s' : EndSession P) : Prop :=
  ∃ consumed, s.inbox = consumed ++ s'.inbox ∧ s'.applied = s.applied ++ pushes consumed

/--
**どの呼び出しの列とどの到着の順についても、頼んでいない frame が失われないのは、`request_param_push` が
最初に読む frame が一度も `HOT_UPDATE` でないとき、かつそのときに限る。**

どちらでも、二つの cache は、反映した frame と返事の payload を順に書いた結果である。
-/
theorem no_push_lost_iff (node : EndNode) (s : EndSession P) (calls : List EndCall) :
    (Lossless s (EndCall.runAll M node s calls) ↔ EndCall.AllSafe M node s calls) ∧
      Caches M s (EndCall.runAll M node s calls) := by
  refine ⟨?_, EndCall.runAll_caches M node s calls⟩
  obtain ⟨n, hr, hn⟩ := EndCall.runAll_reads M node s calls
  rw [← hn, Lossless, ← Reads.zero_iff]
  constructor
  · intro h
    exact hr.unique h
  · rintro rfl
    exact hr

/-! ## 返事より先に届いた `HOT_UPDATE` -/

/-- 二つの End が一つの Edge に属する配置。 -/
def twoEnds : RangeMap :=
  { edges := [⟨1, [1, 2]⟩]
    ends := [⟨1, 1, Key.ofNat 0, Key.ofNat 10⟩, ⟨2, 1, Key.ofNat 20, Key.ofNat 30⟩] }

/-- End 1。 -/
def firstEnd : EndNode :=
  { id := 1, rm := twoEnds, store := .empty
    edge := some ⟨false, fun _ _ => none, fun _ _ _ => none⟩ }

/-- まだ何も予測しない model。 -/
def blankModel : ParamModel Unit := ⟨fun _ => (), fun _ => false, fun _ _ => 0⟩

/-- 返事は `param_stale` を立てて届き、`HOT_UPDATE`、`PLIN_PARAM_PUSH` の順に続く。 -/
def staleSession : EndSession Unit :=
  { hotCache := .empty, plinCache := (), rdmaSnapshot := ⟨{}, false⟩, nextRequestId := 1
    inbox := [some ⟨.edgeFetchResp, appendU64 [0] 7 ++ [1]⟩,
      some ⟨.hotUpdate, appendU64 (appendDouble [] (Key.ofNat 5)) 9⟩,
      some ⟨.plinParamPush, leBytes 8 0⟩]
    outbox := [], applied := [] }

/-- **返事の代わりに読んだ `HOT_UPDATE` は、どこにも反映されない。** -/
theorem hotUpdate_lost :
    ¬ Lossless staleSession (EndCall.runAll blankModel firstEnd staleSession
      [.lookup (Key.ofNat 25)]) := by
  obtain ⟨n, hr, hn⟩ :=
    EndCall.runAll_reads blankModel firstEnd staleSession [.lookup (Key.ofNat 25)]
  intro h
  have hsafe := hn.mp (hr.unique (Reads.zero_iff.mpr h))
  obtain ⟨s', hs', hhot⟩ : ∃ s' ∈ firstEnd.paramRequest blankModel staleSession (Key.ofNat 25),
      s'.HotNext := by
    refine ⟨_, rfl, ?_⟩
    exact ⟨⟨.hotUpdate, appendU64 (appendDouble [] (Key.ofNat 5)) 9⟩, rfl, rfl⟩
  exact hsafe.1 s' hs' hhot

end Plin
