import Plin.Properties.EndThread

/-!
# Edge から End への frame は混ざらない

`handle_end` と `cloud_receiver_loop` は `write_mu` の中で書くので、**一つの接続の stream は、書き終えた frame の列に
書きかけの frame が高々一つ続いたもの**になる。接続が閉じられても、書きかけの frame の続きが別の接続に届くことは
無い。ただし、使われている最中の番号を kernel が割り当て直さないことが要る（`endStream_framed`）。割り当て直されると、
別の End の stream が壊れる（`reused_fd_tears_frame`）。

* 最初の frame は `PLIN_PARAM_PUSH` である。応答は要求の順に並び、前の応答を書くまで次の要求は読まれない。
* 中継された `HOT_UPDATE` は、その接続で `HEARTBEAT` を送った End 宛てのもので、Cloud の書いた順に並ぶ。
* 閉じた接続は `rt.ends` に残らない。
-/

namespace Plin

open Infra Function

/-! ## 大きさ -/

theorem small_makeFetchResp (status : Status) (payload : Payload) :
    (makeFetchResp status payload).Small := by
  have hlen : (leBytes 8 payload.toNat).length = 8 := length_leBytes 8 _
  simp only [Frame.Small, makeFetchResp, appendU64, List.length_append, hlen,
    List.length_singleton]
  omega

theorem small_handleEdgeFetchReq {idx : EdgeIndex} {req resp : Frame}
    (h : handleEdgeFetchReq idx req = some resp) : resp.Small := by
  unfold handleEdgeFetchReq at h
  split at h
  · cases h
  · obtain rfl := Option.some.inj h
    exact small_makeFetchResp _ _

theorem EndAnswer.small {idx : EdgeIndex} {param req resp : Frame} (hparam : param.Small)
    (h : EndAnswer idx param req resp) : resp.Small := by
  cases h with
  | params => exact hparam
  | cross _ hresp => exact hresp
  | fetch _ hresp => exact small_handleEdgeFetchReq hresp

theorem small_handleCloudHotUpdate {f g : Frame} {eid : Nat} (hf : f.Small)
    (h : handleCloudHotUpdate f = some (eid, g)) : g.Small := by
  unfold handleCloudHotUpdate at h
  split at h
  · cases h
  · obtain ⟨-, rfl⟩ := Prod.mk.inj (Option.some.inj h)
    rw [Frame.Small] at hf ⊢
    rw [List.length_drop]
    omega

/-! ## 実行 -/

section Run

variable {C : Type} [DecidableEq C] {idx : EdgeIndex} {param : Frame}

open EdgeRuntime

/-- **thread の一歩は、自分の条件を保ち、他の thread の条件を壊さない。** -/
theorem EndThreadStep.advance (hparam : param.Small) {t : Option C} {m m' : EdgeRuntime C}
    {l l' : EndPc C} (hs : EndThreadStep idx param t m l m' l') (h : m.Shared param)
    (hl : m.Local param t l) : Advance param t m m' l' := by
  cases hs with
  | lock w c f hmu => exact lock_advance h hl hmu
  | noFd w c f _ => exact noFd_advance h hl
  | readFd w c n f hfd => exact readFd_advance h hl hfd
  | write w c d n f k chunk hsock hbroken hchunk =>
    exact write_advance h hl hsock hbroken hchunk
  | writeOther w c n f k hother _ =>
    obtain ⟨-, -, -, -, htied, -⟩ := hl
    rw [htied.others_eq h.sockets] at hother
    cases hother
  | writeFails w c n f k hfail => exact writeFails_advance h hl hfail
  | unlock w c ok => exact unlock_advance h hl
  | heartbeat c req eid _ _ => exact heartbeat_advance h hl eid
  | request c req resp hresp => exact request_advance h hl req (hresp.small hparam)
  | hangUp c => exact hangUp_advance h hl
  | unregister c => exact unregister_advance h hl
  | close c => exact close_advance h hl
  | closed c => exact closed_advance h hl
  | noEnd f eid g hf hg hend => exact order_advance h hl (eid, g) id
  | sendToEnd f eid g c hf hg hend =>
    refine order_advance h hl (eid, g) ?_
    rintro rfl
    exact ⟨small_handleCloudHotUpdate hf hg, pushing_of_routed h hend⟩

/-- 実行の不変条件。 -/
structure EndStreamInv (param : Frame) (s : EndState C) : Prop where
  shared : s.shared.Shared param
  threads : ∀ t, s.shared.Local param t (s.pc t)

omit [DecidableEq C] in
theorem endStreamInv_initial (others : Nat → Bool) :
    EndStreamInv param (EndState.initial others : EndState C) where
  shared := by
    refine ⟨⟨?_, ?_, ?_⟩, fun _ => EndTransport.good_fresh param, ?_, fun _ => ?_⟩
    · exact fun c d n hc => absurd hc (Option.some_ne_none n).symm
    · exact fun c n hc => absurd hc (Option.some_ne_none n).symm
    · exact fun c n hc => absurd hc (Option.some_ne_none n).symm
    · exact fun eid c hc => absurd hc (Option.some_ne_none c).symm
    · exact List.Sublist.refl []
  threads t := by
    cases t with
    | none => rfl
    | some c => exact ⟨rfl, rfl⟩

theorem EndStreamInv.thread {s : EndState C} (h : EndStreamInv param s) {t : Option C}
    {m : EdgeRuntime C} {l : EndPc C} (hA : Advance param t s.shared m l) :
    EndStreamInv param (s.move t m l) where
  shared := hA.shared
  threads := by
    refine Threads.move_local (P := fun t m l => EdgeRuntime.Local param t m l) h.threads hA.own
      fun u hu hl => ?_
    exact hl.stable hA.guar (fun ht => hu (Option.some.inj ht).symm) fun _ c n _ _ _ => hA.tied c n

/-! 接続を受け付ける -/

/-- 新しい番号は、他の接続の番号とは違う。 -/
theorem tied_accept {m : EdgeRuntime C} {c d : C} {n k : Nat} {x : EndTransport C}
    (hsock : x.sock = some n) (hne : d ≠ c) (hk : k ≠ n) (h : m.Tied d k) :
    (m.set c x).Tied d k := by
  rcases h with hs | ⟨hs, hfree⟩
  · refine Or.inl ?_
    rw [set_ne m x hne]
    exact hs
  · refine Or.inr ⟨?_, hfree.1, fun e he => ?_⟩
    · rw [set_ne m x hne]
      exact hs
    · by_cases hec : e = c
      · subst hec
        rw [set_self, hsock] at he
        exact hk (Option.some.inj he).symm
      · rw [set_ne m x hec] at he
        exact hfree.2 e he

theorem sockets_accept {m : EdgeRuntime C} {c : C} {n : Nat} {x : EndTransport C}
    (hsock : x.sock = some n) (hfd : x.fd = some n) (hfree : m.Free n) (h : m.Sockets)
    (hquiet : ∀ d, (m.transports d).fd ≠ some n) : (m.set c x).Sockets where
  inj d e k hd he := by
    by_cases hdc : d = c
    · by_cases hec : e = c
      · rw [hdc, hec]
      · subst hdc
        rw [set_self, hsock] at hd
        rw [set_ne m x hec, ← hd] at he
        exact absurd he (hfree.2 e)
    · by_cases hec : e = c
      · subst hec
        rw [set_self, hsock] at he
        rw [set_ne m x hdc, ← he] at hd
        exact absurd hd (hfree.2 d)
      · rw [set_ne m x hdc] at hd
        rw [set_ne m x hec] at he
        exact h.inj d e k hd he
  apart d k hd := by
    by_cases hdc : d = c
    · subst hdc
      rw [set_self, hsock] at hd
      obtain rfl := Option.some.inj hd
      exact hfree.1
    · rw [set_ne m x hdc] at hd
      exact h.apart d k hd
  tied d k hd := by
    by_cases hdc : d = c
    · subst hdc
      rw [set_self, hfd] at hd
      obtain rfl := Option.some.inj hd
      refine Or.inl ?_
      rw [set_self]
      exact hsock
    · rw [set_ne m x hdc] at hd
      refine tied_accept hsock hdc ?_ (h.tied d k hd)
      rintro rfl
      exact hquiet d hd

theorem EndStreamInv.accept (hparam : param.Small) {s : EndState C} (h : EndStreamInv param s)
    {c : C}
    {n : Nat} (hpc : s.pc (some c) = .waiting c) (hfree : s.shared.Free n) (hquiet : s.Quiet n) :
    EndStreamInv param (s.move (some c)
      (s.shared.set c { s.shared.transports c with fd := some n, sock := some n })
      (.lock .greeting c param)) := by
  have hlocal := h.threads (some c)
  rw [hpc] at hlocal
  obtain ⟨-, hfresh⟩ := hlocal
  rw [hfresh]
  have hgood := EndTransport.good_fresh (C := C) param
  have hG : Guar (some (some c)) s.shared
      (s.shared.set c { EndTransport.fresh with fd := some n, sock := some n }) := by
    refine guar_of (fun _ => set_ne s.shared _) (fun u _ hu => ?_) (fun ha => absurd rfl ha)
      (fun _ _ _ => id) rfl fun _ => ?_
    · rw [hfresh] at hu
      cases hu
    · rw [set_self, hfresh]
      exact ⟨rfl, List.Subset.refl _, id⟩
  constructor
  · refine h.shared.of_sockets (sockets_accept rfl rfl hfree h.shared.sockets hquiet.1) ?_ ?_ ?_
    · exact ⟨hgood.whole, fun _ => Or.inl rfl, hgood.small, hgood.head, hgood.greeted⟩
    · rw [hfresh]
      exact List.Subset.refl _
    · exact List.nil_sublist _
  · refine Threads.move_local (P := fun t m l => EdgeRuntime.Local param t m l) h.threads ?_
      fun u hu hlocal => ?_
    · refine ⟨hparam, rfl, ?_⟩
      rw [set_self]
      exact ⟨EndWriter.noConfusion, rfl, fun _ => ⟨rfl, rfl⟩, EndWriter.noConfusion⟩
    · refine hlocal.stable hG (fun ht => hu (Option.some.inj ht).symm) fun w d k f j hl hn => ?_
      rw [hl] at hlocal
      refine tied_accept rfl ?_ ?_ hn
      · rintro rfl
        have hmu := hlocal.2.2.1
        rw [hfresh] at hmu
        cases hmu
      · rintro rfl
        exact hquiet.2 u w d f j hl

/-! End の接続でないもの -/

omit [DecidableEq C] in
theorem EndStreamInv.others {s : EndState C} (h : EndStreamInv param s) {others : Nat → Bool}
    (hapart : ∀ c n, (s.shared.transports c).sock = some n → others n = false)
    (hfd : ∀ c n, (s.shared.transports c).fd = some n → s.shared.others n = false →
      others n = false)
    (hwrite : ∀ t w c n f k, s.pc t = .write w c n f k → s.shared.others n = false →
      others n = false) : EndStreamInv param ⟨{ s.shared with others := others }, s.pc⟩ where
  shared := by
    refine ⟨⟨h.shared.sockets.inj, hapart, fun c n hc => ?_⟩, h.shared.good, h.shared.routed,
      h.shared.ordered⟩
    exact (h.shared.sockets.tied c n hc).imp_right fun hn =>
      ⟨hn.1, hfd c n hc hn.2.1, hn.2.2⟩
  threads t := by
    refine (h.threads t).stable ⟨fun _ _ _ => Held.refl, fun _ _ => HandlerKept.refl _,
      fun _ _ _ => id, fun _ => rfl, fun _ _ => PusherKept.refl _⟩ (Option.some_ne_none t).symm ?_
    exact fun w c n f k hl hn => hn.imp_right fun hn =>
      ⟨hn.1, hwrite t w c n f k hl hn.2.1, hn.2.2⟩

theorem EndStreamInv.reset {s : EndState C} (h : EndStreamInv param s) {c : C} {n : Nat}
    (hsock : (s.shared.transports c).sock = some n) :
    EndStreamInv param ⟨s.shared.set c { s.shared.transports c with broken := true }, s.pc⟩ where
  shared := by
    have hgood := h.shared.good c
    refine h.shared.set rfl rfl ?_ (List.Subset.refl _) (h.shared.ordered c)
    exact ⟨hgood.whole, fun _ => Or.inr (Or.inl rfl), hgood.small, hgood.head, hgood.greeted⟩
  threads t := by
    refine (h.threads t).stable (a := none) ?_ (Option.some_ne_none t).symm
      fun _ _ _ _ _ _ => tied_set (by rfl)
    refine guar_of (fun _ => set_ne s.shared _) (fun u _ hu => ?_) (fun _ => ?_)
      (fun _ _ _ => id) rfl fun _ => ?_
    · rw [set_self]
      exact ⟨hu, rfl, rfl, fun _ => Or.inl rfl⟩
    · rw [set_self]
      refine ⟨rfl, rfl, rfl, Iff.rfl, fun hx => ?_, id⟩
      rw [hx] at hsock
      cases hsock
    · rw [set_self]
      exact ⟨rfl, List.Subset.refl _, id⟩

/-- **使われている最中の番号を割り当て直さない一歩は、不変条件を保つ。** -/
theorem EndStreamInv.step (hparam : param.Small) {s s' : EndState C} (h : EndStreamInv param s)
    {e : EndEvent C} (hsafe : s.Safe e) (hs : EndState.Step idx param s e s') :
    EndStreamInv param s' := by
  cases hs with
  | thread t hs => exact h.thread (hs.advance hparam h.shared (h.threads t))
  | accept c n hpc hfree => exact h.accept hparam hpc hfree hsafe
  | opened n hfree =>
    have hupdate {k : Nat} (hk : k ≠ n) (hother : s.shared.others k = false) :
        update s.shared.others n true k = false := by
      rw [update_of_ne hk]
      exact hother
    refine h.others (fun c k hc => ?_) (fun c k hc => hupdate ?_) fun t w c k f j hl => hupdate ?_
    · refine hupdate ?_ (h.shared.sockets.apart c k hc)
      rintro rfl
      exact hfree.2 c hc
    · rintro rfl
      exact hsafe.1 c hc
    · rintro rfl
      exact hsafe.2 t w c f j hl
  | closed n _ =>
    have hupdate (k : Nat) (hother : s.shared.others k = false) :
        update s.shared.others n false k = false := by
      rw [update_apply]
      split
      · rfl
      · exact hother
    exact h.others (fun c k hc => hupdate k (h.shared.sockets.apart c k hc))
      (fun c k _ => hupdate k) fun t w c k f j _ => hupdate k
  | reset c n hsock => exact h.reset hsock

/-! ## 混ざらない実行 -/

/-- 一つの End の接続に流れたもの。 -/
structure EndState.Framed (param : Frame) (s : EndState C) (c : C) : Prop where
  /-- stream は、書き終えた frame の列に、書きかけの frame が高々一つ続いたものである。 -/
  whole : ∃ part, (s.shared.transports c).stream = (s.shared.transports c).sentBytes ++ part ∧
    (part = [] ∨ ∃ (f : Frame) (q : Bytes), f.Small ∧ part ++ q = f.bytes ∧ q ≠ [])
  /-- End は、書き終えた frame をちょうど読み出す。 -/
  received : received (s.shared.transports c).stream = (s.shared.transports c).sent.map Prod.snd
  /-- 最初の frame は `PLIN_PARAM_PUSH` である。 -/
  greeting : (s.shared.transports c).sent = [] ∨
    (s.shared.transports c).sent.head? = some (.greeting, param)
  /-- 応答は要求の順に並び、書いていない応答は高々一つである。 -/
  replies : (s.shared.transports c).Answering param
  /-- 中継した `HOT_UPDATE` は、この接続の End 宛てのものであり、届いた順に並ぶ。 -/
  pushes : (s.shared.transports c).pushes.Sublist
    ((s.shared.transports c).addressed s.shared.orders)
  /-- 閉じた接続は `rt.ends` に無い。 -/
  unregistered : s.pc (some c) = .closed c → ∀ eid, s.shared.ends eid ≠ some c

omit [DecidableEq C] in
theorem EndStreamInv.answering {s : EndState C} (h : EndStreamInv param s) (c : C) :
    (s.shared.transports c).Answering param := by
  have hl := h.threads (some c)
  cases hpc : s.pc (some c) with
  | waiting d =>
    rw [hpc] at hl
    obtain ⟨hd, hfresh⟩ := hl
    obtain rfl := Option.some.inj hd
    rw [hfresh]
    exact ⟨List.nil_prefix, Nat.le_refl 0⟩
  | lock w d f =>
    rw [hpc] at hl
    obtain ⟨-, rfl, hr⟩ := hl
    exact hr.answering
  | locked w d f =>
    rw [hpc] at hl
    obtain ⟨-, ⟨rfl, hr⟩, -⟩ := hl
    exact hr.answering
  | write w d n f k =>
    rw [hpc] at hl
    obtain ⟨-, ⟨rfl, hr⟩, -⟩ := hl
    exact hr.answering
  | unlock w d ok =>
    rw [hpc] at hl
    obtain ⟨-, -, rfl, -, hanswer, -⟩ := hl
    exact hanswer
  | serve d =>
    rw [hpc] at hl
    obtain ⟨hd, hserved, -⟩ := hl
    obtain rfl := Option.some.inj hd
    exact hserved.answering
  | unregister d =>
    rw [hpc] at hl
    obtain ⟨hd, hanswer⟩ := hl
    obtain rfl := Option.some.inj hd
    exact hanswer
  | close d =>
    rw [hpc] at hl
    obtain ⟨hd, hanswer, -⟩ := hl
    obtain rfl := Option.some.inj hd
    exact hanswer
  | closing d =>
    rw [hpc] at hl
    obtain ⟨⟨hd, hanswer, -⟩, -⟩ := hl
    obtain rfl := Option.some.inj hd
    exact hanswer
  | closed d =>
    rw [hpc] at hl
    obtain ⟨hd, hanswer, -⟩ := hl
    obtain rfl := Option.some.inj hd
    exact hanswer
  | receive =>
    rw [hpc] at hl
    cases hl

omit [DecidableEq C] in
theorem EndStreamInv.framed {s : EndState C} (h : EndStreamInv param s) (c : C) :
    s.Framed param c where
  whole := (h.shared.good c).whole
  received := by
    have hgood := h.shared.good c
    obtain ⟨part, hs, hpart⟩ := hgood.whole
    have hsmall : ∀ f ∈ (s.shared.transports c).sent.map Prod.snd, f.Small := by
      intro f hf
      obtain ⟨y, hy, rfl⟩ := List.mem_map.mp hf
      exact hgood.small y hy
    have hnone : readFrame part = none := by
      rcases hpart with rfl | ⟨f, q, hf, hcut, hq⟩
      · decide
      · exact hf.readFrame_partial hcut hq
    rw [hs, EndTransport.sentBytes, ← List.flatMap_map]
    exact received_eq hsmall hnone
  greeting := (h.shared.good c).head
  replies := h.answering c
  pushes := h.shared.ordered c
  unregistered hpc := by
    have hl := h.threads (some c)
    rw [hpc] at hl
    exact hl.2.2

end Run

/--
**使われている最中の番号が割り当て直されない実行では、どの状態のどの End の接続でも、frame は混ざらず、応答は要求の順に、
`HOT_UPDATE` は宛先の End に Cloud の書いた順に届く。**
-/
theorem endStream_framed {C : Type} [DecidableEq C] {idx : EdgeIndex} {param : Frame}
    (hparam : param.Small) {others : Nat → Bool} {s : EndState C}
    (h : Reach (EndState.Step idx param) EndState.Safe (EndState.initial others) s) (c : C) :
    s.Framed param c := by
  have hinv : EndStreamInv param s := h.invariant (EndStreamInv param) (endStreamInv_initial others)
    fun _ _ _ hI hsafe hs => hI.step hparam hsafe hs
  exact hinv.framed c

/-! ## 番号の使い回し -/

/-- 何も見つけない索引。 -/
def noIndex : EdgeIndex := ⟨fun _ payload => (false, payload), fun _ payload _ => (0, payload)⟩

/-- 空の `PLIN_PARAM_PUSH`。 -/
def emptyParam : Frame := ⟨.plinParamPush, []⟩

/-- End 1 に組の無い `HOT_UPDATE` を届ける。 -/
def emptyOrder : Frame := ⟨.hotUpdate, leBytes 4 1⟩

theorem quiet_initial (n : Nat) : (EndState.initial fun _ => false : EndState (Fin 2)).Quiet n := by
  refine ⟨fun c => (Option.some_ne_none n).symm, fun t w c f k h => ?_⟩
  cases t with
  | none => cases h
  | some d => cases h

/-- 始めの `PLIN_PARAM_PUSH` を書きかけたところ。 -/
theorem endStream_framed_greeting :
    ∃ s : EndState (Fin 2), (s.shared.transports 0).stream = [0, 0, 0, 1] ∧
      ∀ c, s.Framed emptyParam c := by
  have h₀ : Reach (EndState.Step noIndex emptyParam) EndState.Safe
      (EndState.initial fun _ => false) (EndState.initial fun _ => false : EndState (Fin 2)) :=
    .refl _
  have h₁ := h₀.tail (e := .accept 0 5) (quiet_initial 5)
    (.accept _ 0 5 rfl ⟨rfl, fun _ => (Option.some_ne_none 5).symm⟩)
  have h₂ := h₁.tail (e := .thread (some 0)) trivial (.thread _ _ (.lock _ _ _ _ rfl))
  have h₃ := h₂.tail (e := .thread (some 0)) trivial (.thread _ _ (.readFd _ _ _ 5 _ rfl))
  have h₄ := h₃.tail (e := .thread (some 0)) trivial
    (.thread _ _ (.write _ _ _ 0 _ _ 0 [0, 0, 0, 1] rfl rfl rfl))
  exact ⟨_, rfl, endStream_framed (by decide) h₄⟩

/--
**書きかけの `HOT_UPDATE` の続きが、同じ番号を割り当てられた別の End に届く。** その End は `PLIN_PARAM_PUSH` を
受け取る前に、frame でない byte を受け取る。
-/
theorem reused_fd_tears_frame :
    ¬ ∀ s : EndState (Fin 2),
      Reachable (EndState.Step noIndex emptyParam) (EndState.initial fun _ => false) s →
        ∀ c, s.Framed emptyParam c := by
  intro hall
  -- End 0 の接続に `PLIN_PARAM_PUSH` を書き、`HEARTBEAT` を読む。
  have h₀ : Reachable (EndState.Step noIndex emptyParam) (EndState.initial fun _ => false)
      (EndState.initial fun _ => false : EndState (Fin 2)) := Reach.refl _
  have h₁ := h₀.tail (.accept _ 0 5 rfl ⟨rfl, fun _ => (Option.some_ne_none 5).symm⟩)
  have h₂ := h₁.tail (.thread _ (some 0) (.lock _ _ _ _ rfl))
  have h₃ := h₂.tail (.thread _ (some 0) (.readFd _ _ _ 5 _ rfl))
  have h₄ := h₃.tail
    (.thread _ (some 0) (.write _ _ _ 0 _ _ 0 [0, 0, 0, 1] rfl rfl rfl))
  have h₅ := h₄.tail (.thread _ (some 0) (.write _ _ _ 0 _ _ 1 [5] rfl rfl rfl))
  have h₆ := h₅.tail (.thread _ (some 0) (.unlock _ _ _ _))
  have h₇ := h₆.tail
    (.thread _ (some 0) (.heartbeat _ _ ⟨.heartbeat, leBytes 4 1⟩ 1 rfl rfl))
  -- `cloud_receiver_loop` が中継する frame の長さだけを書く。
  have h₈ := h₇.tail
    (.thread _ none (.sendToEnd _ emptyOrder 1 ⟨.hotUpdate, []⟩ 0 (by decide) rfl rfl))
  have h₉ := h₈.tail (.thread _ none (.lock _ _ _ _ rfl))
  have h₁₀ := h₉.tail (.thread _ none (.readFd _ _ _ 5 _ rfl))
  have h₁₁ := h₁₀.tail
    (.thread _ none (.write _ _ _ 0 _ _ 0 [0, 0, 0, 1] rfl rfl rfl))
  -- 接続が閉じられ、次の接続が同じ番号になる。
  have h₁₂ := h₁₁.tail (.thread _ (some 0) (.hangUp _ _))
  have h₁₃ := h₁₂.tail (.thread _ (some 0) (.unregister _ _))
  have h₁₄ := h₁₃.tail (.thread _ (some 0) (.close _ _))
  have h₁₅ := h₁₄.tail (.accept _ 1 5 rfl ⟨rfl, by decide⟩)
  have h₁₆ := h₁₅.tail (.thread _ none (.write _ _ _ 1 _ _ 1 [6] rfl rfl rfl))
  exact absurd (hall _ h₁₆ 1).received (by decide)

end Plin
