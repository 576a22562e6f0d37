import Plin.Edge.EndStream
import Plin.Properties.EdgeStream

/-!
# End の接続に書く thread

共有の状態の条件（`Shared`）と、実行位置ごとに thread の見ている条件（`Local`）を定める。thread `t` の一歩は、
`Shared` と自分の `Local` を保つ。他の thread の `Local` が壊れないことは、一歩が他の thread に何をしないか
（`Guar`）から一度に示す（`Local.stable`）。
-/

namespace Plin

open Infra Function

namespace EndTransport

variable {C : Type}

def sentBytes (x : EndTransport C) : Bytes := x.sent.flatMap fun y => y.2.bytes

/-- `handle_end` の書き終えた frame。 -/
def replies (x : EndTransport C) : List Frame :=
  (x.sent.filter fun y => y.1 ≠ .push).map Prod.snd

/-- 書き終えた `HOT_UPDATE`。 -/
def pushes (x : EndTransport C) : List Frame :=
  (x.sent.filter fun y => y.1 = .push).map Prod.snd

/-- その接続で `HEARTBEAT` を送った End 宛ての `HOT_UPDATE`。 -/
def addressed (orders : List (Nat × Frame)) (x : EndTransport C) : List Frame :=
  (orders.filter fun o => o.1 ∈ x.heard).map Prod.snd

/-- これからの書き込みは失敗する。 -/
def Dead (x : EndTransport C) : Prop := x.broken = true ∨ x.sock = none

/-- 書きかけの frame は無いか、続きを書けない。 -/
def Clean (x : EndTransport C) : Prop := x.stream = x.sentBytes ∨ x.Dead

/-- 始めの `PLIN_PARAM_PUSH` と、すべての応答を書き終えた。 -/
def Served (param : Frame) (x : EndTransport C) : Prop :=
  x.replies = param :: x.asked.map Prod.snd

/-- 応答は要求の順に書かれ、書いていない応答は高々一つである。 -/
def Answering (param : Frame) (x : EndTransport C) : Prop :=
  x.replies <+: param :: x.asked.map Prod.snd ∧ x.asked.length ≤ x.replies.length

/-- 接続ごとの不変条件。 -/
structure Good (param : Frame) (x : EndTransport C) : Prop where
  whole : ∃ part, x.stream = x.sentBytes ++ part ∧
    (part = [] ∨ ∃ (f : Frame) (q : Bytes), f.Small ∧ part ++ q = f.bytes ∧ q ≠ [])
  idle : x.writeMu = none → x.Clean
  small : ∀ y ∈ x.sent, y.2.Small
  head : x.sent = [] ∨ x.sent.head? = some (.greeting, param)
  greeted : x.heard ≠ [] → x.sent ≠ []

/-- `handle_end` の書こうとしている frame。 -/
structure Replying (param : Frame) (w : EndWriter) (x : EndTransport C) (f : Frame) : Prop where
  writer : w ≠ .push
  next : x.replies ++ [f] = param :: x.asked.map Prod.snd
  first : w = .greeting → x.sent = [] ∧ x.heard = []
  later : w = .reply → x.sent ≠ []

theorem good_fresh (param : Frame) : (fresh : EndTransport C).Good param where
  whole := ⟨[], rfl, Or.inl rfl⟩
  idle _ := Or.inl rfl
  small _ hy := absurd hy List.not_mem_nil
  head := Or.inl rfl
  greeted h := absurd rfl h

variable {param f : Frame} {w : EndWriter} {x x' : EndTransport C}

theorem replies_append (hsent : x.sent = x'.sent ++ [(w, f)]) (hw : w ≠ .push) :
    x.replies = x'.replies ++ [f] := by
  simp [replies, hsent, hw]

theorem pushes_of_reply (hsent : x.sent = x'.sent ++ [(w, f)]) (hw : w ≠ .push) :
    x.pushes = x'.pushes := by
  simp [pushes, hsent, hw]

theorem pushes_append (hsent : x.sent = x'.sent ++ [(.push, f)]) :
    x.pushes = x'.pushes ++ [f] := by
  simp [pushes, hsent]

theorem replies_of_push (hsent : x.sent = x'.sent ++ [(.push, f)]) : x.replies = x'.replies := by
  simp [replies, hsent]

theorem sentBytes_append (hsent : x.sent = x'.sent ++ [(w, f)]) :
    x.sentBytes = x'.sentBytes ++ f.bytes := by
  rw [sentBytes, hsent, List.flatMap_append, List.flatMap_singleton]
  rfl

/-- 何も書いていなければ、`handle_end` の書く frame は `PLIN_PARAM_PUSH` である。 -/
theorem Replying.greeting (h : x.Replying param w f) (hsent : x.sent = []) :
    (w, f) = (.greeting, param) := by
  have hnext := h.next
  rw [replies, hsent] at hnext
  obtain rfl := (List.cons.inj hnext).1
  cases w with
  | greeting => rfl
  | reply => exact absurd hsent (h.later rfl)
  | push => exact absurd rfl h.writer

theorem Served.answering (h : x.Served param) : x.Answering param := by
  refine ⟨⟨[], ?_⟩, ?_⟩
  · rw [List.append_nil]
    exact h
  · rw [h, List.length_cons, List.length_map]
    exact Nat.le_succ _

theorem Replying.answering (h : x.Replying param w f) : x.Answering param := by
  refine ⟨⟨[f], h.next⟩, ?_⟩
  have hlen := congrArg List.length h.next
  simp only [List.length_append, List.length_cons, List.length_map, List.length_nil] at hlen
  omega

end EndTransport

namespace EdgeRuntime

variable {C : Type}

/-- 番号 `n` は接続 `c` のものであるか、どこにも使われていない。 -/
def Tied (m : EdgeRuntime C) (c : C) (n : Nat) : Prop :=
  (m.transports c).sock = some n ∨ ((m.transports c).sock = none ∧ m.Free n)

/-- 番号の割り当て。 -/
structure Sockets (m : EdgeRuntime C) : Prop where
  inj : ∀ c d n, (m.transports c).sock = some n → (m.transports d).sock = some n → c = d
  apart : ∀ c n, (m.transports c).sock = some n → m.others n = false
  tied : ∀ c n, (m.transports c).fd = some n → m.Tied c n

/-- 共有の状態の不変条件。 -/
structure Shared (param : Frame) (m : EdgeRuntime C) : Prop where
  sockets : m.Sockets
  good : ∀ c, (m.transports c).Good param
  routed : ∀ id c, m.ends id = some c → id ∈ (m.transports c).heard
  ordered : ∀ c, (m.transports c).pushes.Sublist ((m.transports c).addressed m.orders)

/-- `send_to_end` の書こうとしている frame。 -/
structure Pushing (m : EdgeRuntime C) (w : EndWriter) (c : C) (f : Frame) : Prop where
  writer : w = .push
  greeted : (m.transports c).sent ≠ []
  order : ((m.transports c).pushes ++ [f]).Sublist ((m.transports c).addressed m.orders)

/-- thread `t` が接続 `c` に書こうとしている frame。 -/
def Due (param : Frame) (m : EdgeRuntime C) (w : EndWriter) (c : C) (f : Frame) :
    Option C → Prop
  | some d => d = c ∧ (m.transports c).Replying param w f
  | none => m.Pushing w c f

/-- `write_mu` を放す前の thread `t`。 -/
def Finished (param : Frame) (m : EdgeRuntime C) (w : EndWriter) (c : C) (ok : Bool) :
    Option C → Prop
  | some d => d = c ∧ w ≠ .push ∧ (m.transports c).Answering param ∧
      (ok = true → (m.transports c).Served param ∧ (m.transports c).sent ≠ []) ∧
      (ok = false → w = .greeting → (m.transports c).heard = [])
  | none => w = .push

/-- 接続 `c` を閉じるところである。 -/
def Leaving (param : Frame) (m : EdgeRuntime C) (c : C) (t : Option C) : Prop :=
  t = some c ∧ (m.transports c).Answering param ∧ ∀ id, m.ends id ≠ some c

/-- 実行位置ごとに、thread `t` の見ている条件。 -/
def Local (param : Frame) (t : Option C) (m : EdgeRuntime C) : EndPc C → Prop
  | .waiting c => t = some c ∧ m.transports c = .fresh
  | .lock w c f => f.Small ∧ m.Due param w c f t
  | .locked w c f => f.Small ∧ m.Due param w c f t ∧ (m.transports c).writeMu = some t ∧
      (m.transports c).Clean
  | .write w c n f k => f.Small ∧ m.Due param w c f t ∧ (m.transports c).writeMu = some t ∧
      k < f.chunks.length ∧ m.Tied c n ∧
      ((m.transports c).stream = (m.transports c).sentBytes ++ (f.chunks.take k).flatten ∨
        (m.transports c).Dead)
  | .unlock w c ok => (m.transports c).writeMu = some t ∧ (m.transports c).Clean ∧
      m.Finished param w c ok t
  | .serve c => t = some c ∧ (m.transports c).Served param ∧ (m.transports c).sent ≠ []
  | .unregister c => t = some c ∧ (m.transports c).Answering param
  | .close c => m.Leaving param c t
  | .closing c => m.Leaving param c t ∧ (m.transports c).sock = none
  | .closed c => m.Leaving param c t
  | .receive => t = none

/-! ## 他の thread の条件を壊さない -/

/-- 番号 `u` の thread が `write_mu` を持つ間は変わらないもの。 -/
structure Held (u : Option C) (x x' : EndTransport C) : Prop where
  writeMu : x'.writeMu = some u
  stream : x'.stream = x.stream
  sent : x'.sent = x.sent
  dead : x.Dead → x'.Dead

/-- `handle_end` の thread だけが変えるもの。 -/
structure HandlerKept (x x' : EndTransport C) : Prop where
  replies : x'.replies = x.replies
  heard : x'.heard = x.heard
  asked : x'.asked = x.asked
  sent : x'.sent = [] ↔ x.sent = []
  fresh : x = .fresh → x' = .fresh
  sock : x.sock = none → x'.sock = none

/-- `cloud_receiver_loop` の thread だけが変えるもの。 -/
structure PusherKept (x x' : EndTransport C) : Prop where
  pushes : x'.pushes = x.pushes
  heard : x.heard ⊆ x'.heard
  sent : x.sent ≠ [] → x'.sent ≠ []

theorem Held.refl {u : Option C} {x : EndTransport C} (h : x.writeMu = some u) : Held u x x :=
  ⟨h, rfl, rfl, id⟩

theorem HandlerKept.refl (x : EndTransport C) : HandlerKept x x :=
  ⟨rfl, rfl, rfl, Iff.rfl, id, id⟩

theorem PusherKept.refl (x : EndTransport C) : PusherKept x x :=
  ⟨rfl, List.Subset.refl _, id⟩

/-- `a` の一歩が他の thread にしないこと。 -/
structure Guar (a : Option (Option C)) (m m' : EdgeRuntime C) : Prop where
  held : ∀ c u, a ≠ some u → (m.transports c).writeMu = some u →
    Held u (m.transports c) (m'.transports c)
  handler : ∀ c, a ≠ some (some c) → HandlerKept (m.transports c) (m'.transports c)
  ends : ∀ c, a ≠ some (some c) → ∀ id, m'.ends id = some c → m.ends id = some c
  pusher : a ≠ some none → m'.orders = m.orders
  pushed : a ≠ some none → ∀ c, PusherKept (m.transports c) (m'.transports c)

variable {param f : Frame} {w : EndWriter} {c d : C} {m m' : EdgeRuntime C}
  {a : Option (Option C)} {t : Option C} {x : EndTransport C}

theorem addressed_sublist {x x' : EndTransport C} (orders : List (Nat × Frame))
    (hheard : x.heard ⊆ x'.heard) : (x.addressed orders).Sublist (x'.addressed orders) := by
  refine (List.monotone_filter_right orders fun o ho => ?_).map Prod.snd
  rw [decide_eq_true_eq] at ho ⊢
  exact hheard ho

/-- 一つの接続だけを変える一歩。 -/
theorem guar_of (hframe : ∀ c, c ≠ d → m'.transports c = m.transports c)
    (hheld : ∀ u, a ≠ some u → (m.transports d).writeMu = some u →
      Held u (m.transports d) (m'.transports d))
    (hhandler : a ≠ some (some d) → HandlerKept (m.transports d) (m'.transports d))
    (hends : ∀ c, a ≠ some (some c) → ∀ id, m'.ends id = some c → m.ends id = some c)
    (horders : m'.orders = m.orders)
    (hpushed : a ≠ some none → PusherKept (m.transports d) (m'.transports d)) :
    Guar a m m' where
  held c u ha hmu := by
    by_cases hc : c = d
    · subst hc
      exact hheld u ha hmu
    · rw [hframe c hc]
      exact Held.refl hmu
  handler c ha := by
    by_cases hc : c = d
    · subst hc
      exact hhandler ha
    · rw [hframe c hc]
      exact HandlerKept.refl _
  ends := hends
  pusher _ := horders
  pushed ha c := by
    by_cases hc : c = d
    · subst hc
      exact hpushed ha
    · rw [hframe c hc]
      exact PusherKept.refl _

theorem Due.stable (h : m.Due param w c f t) (hG : Guar a m m') (ha : a ≠ some t) :
    m'.Due param w c f t := by
  cases t with
  | some e =>
    obtain ⟨rfl, hr⟩ := h
    have hK := hG.handler e ha
    refine ⟨rfl, hr.writer, ?_, fun hw => ?_, fun hw => ?_⟩
    · rw [hK.replies, hK.asked]
      exact hr.next
    · rw [hK.sent, hK.heard]
      exact hr.first hw
    · exact mt hK.sent.mp (hr.later hw)
  | none =>
    have hK := hG.pushed ha c
    refine ⟨h.writer, hK.sent h.greeted, ?_⟩
    rw [hK.pushes, hG.pusher ha]
    exact h.order.trans (addressed_sublist m.orders hK.heard)

theorem answering_stable (h : (m.transports c).Answering param)
    (hK : HandlerKept (m.transports c) (m'.transports c)) :
    (m'.transports c).Answering param := by
  rw [EndTransport.Answering, hK.replies, hK.asked]
  exact h

theorem served_stable (h : (m.transports c).Served param)
    (hK : HandlerKept (m.transports c) (m'.transports c)) : (m'.transports c).Served param := by
  rw [EndTransport.Served, hK.replies, hK.asked]
  exact h

theorem Finished.stable {ok : Bool} (h : m.Finished param w c ok t) (hG : Guar a m m')
    (ha : a ≠ some t) : m'.Finished param w c ok t := by
  cases t with
  | some e =>
    obtain ⟨rfl, hw, hanswer, hok, hfail⟩ := h
    have hK := hG.handler e ha
    refine ⟨rfl, hw, answering_stable hanswer hK, fun h => ?_, fun h hg => ?_⟩
    · obtain ⟨hserved, hsent⟩ := hok h
      exact ⟨served_stable hserved hK, mt hK.sent.mp hsent⟩
    · rw [hK.heard]
      exact hfail h hg
  | none => exact h

theorem Leaving.stable (h : m.Leaving param c t) (hG : Guar a m m') (ha : a ≠ some t) :
    m'.Leaving param c t := by
  obtain ⟨rfl, hanswer, hends⟩ := h
  refine ⟨rfl, answering_stable hanswer (hG.handler c ha), fun id hid => ?_⟩
  exact hends id (hG.ends c ha id hid)

theorem clean_stable (h : (m.transports c).Clean)
    (hH : Held t (m.transports c) (m'.transports c)) : (m'.transports c).Clean := by
  rcases h with h | h
  · refine Or.inl ?_
    rw [EndTransport.sentBytes, hH.stream, hH.sent]
    exact h
  · exact Or.inr (hH.dead h)

/-- **他の thread の一歩は、自分の条件を壊さない。** -/
theorem Local.stable {l : EndPc C} (h : m.Local param t l) (hG : Guar a m m')
    (ha : a ≠ some t) (htied : ∀ w c n f k, l = .write w c n f k → m.Tied c n → m'.Tied c n) :
    m'.Local param t l := by
  cases l with
  | waiting c =>
    obtain ⟨rfl, hfresh⟩ := h
    exact ⟨rfl, (hG.handler c ha).fresh hfresh⟩
  | lock w c f => exact ⟨h.1, h.2.stable hG ha⟩
  | locked w c f =>
    obtain ⟨hf, hdue, hmu, hclean⟩ := h
    have hH := hG.held c t ha hmu
    exact ⟨hf, hdue.stable hG ha, hH.writeMu, clean_stable hclean hH⟩
  | write w c n f k =>
    obtain ⟨hf, hdue, hmu, hk, hn, hs⟩ := h
    have hH := hG.held c t ha hmu
    refine ⟨hf, hdue.stable hG ha, hH.writeMu, hk, htied w c n f k rfl hn, ?_⟩
    rw [EndTransport.sentBytes, hH.stream, hH.sent]
    exact hs.imp_right hH.dead
  | unlock w c ok =>
    obtain ⟨hmu, hclean, hfin⟩ := h
    have hH := hG.held c t ha hmu
    exact ⟨hH.writeMu, clean_stable hclean hH, hfin.stable hG ha⟩
  | serve c =>
    obtain ⟨rfl, hserved, hsent⟩ := h
    have hK := hG.handler c ha
    exact ⟨rfl, served_stable hserved hK, mt hK.sent.mp hsent⟩
  | unregister c =>
    obtain ⟨rfl, hanswer⟩ := h
    exact ⟨rfl, answering_stable hanswer (hG.handler c ha)⟩
  | close c => exact Leaving.stable h hG ha
  | closing c =>
    obtain ⟨hl, hsock⟩ := h
    obtain rfl := hl.1
    exact ⟨hl.stable hG ha, (hG.handler c ha).sock hsock⟩
  | closed c => exact Leaving.stable h hG ha
  | receive => exact h

/-! ## 一歩 -/

/-- thread `t` の一歩の後。 -/
structure Advance (param : Frame) (t : Option C) (m m' : EdgeRuntime C) (l : EndPc C) :
    Prop where
  shared : m'.Shared param
  own : m'.Local param t l
  guar : Guar (some t) m m'
  tied : ∀ c n, m.Tied c n → m'.Tied c n

theorem tied_congr (hsock : ∀ c, (m'.transports c).sock = (m.transports c).sock)
    (hothers : m'.others = m.others) {n : Nat} (h : m.Tied c n) : m'.Tied c n := by
  rw [Tied, Free, hsock c, hothers]
  simp only [hsock]
  exact h

theorem Sockets.congr (h : m.Sockets)
    (hsock : ∀ c, (m'.transports c).sock = (m.transports c).sock)
    (hfd : ∀ c, (m'.transports c).fd = (m.transports c).fd) (hothers : m'.others = m.others) :
    m'.Sockets where
  inj c d n hc hd := by
    rw [hsock] at hc hd
    exact h.inj c d n hc hd
  apart c n hc := by
    rw [hsock] at hc
    rw [hothers]
    exact h.apart c n hc
  tied c n hc := by
    rw [hfd] at hc
    exact tied_congr hsock hothers (h.tied c n hc)

theorem Guar.refl (a : Option (Option C)) (m : EdgeRuntime C) : Guar a m m where
  held _ _ _ := Held.refl
  handler _ _ := HandlerKept.refl _
  ends _ _ _ := id
  pusher _ := rfl
  pushed _ _ := PusherKept.refl _

/-- 共有の状態を変えない一歩。 -/
theorem Advance.stay (h : m.Shared param) {l : EndPc C} (hl : m.Local param t l) :
    Advance param t m m l := ⟨h, hl, .refl _ m, fun _ _ => id⟩

theorem Due.finished (h : m.Due param w c f t) : m.Finished param w c false t := by
  cases t with
  | some d =>
    obtain ⟨rfl, hr⟩ := h
    exact ⟨rfl, hr.writer, hr.answering, Bool.noConfusion, fun _ hw => (hr.first hw).2⟩
  | none => exact h.writer

theorem noFd_advance (h : m.Shared param) (hl : m.Local param t (.locked w c f)) :
    Advance param t m m (.unlock w c false) := by
  obtain ⟨-, hdue, hmu, hclean⟩ := hl
  exact .stay h ⟨hmu, hclean, hdue.finished⟩

theorem readFd_advance (h : m.Shared param) (hl : m.Local param t (.locked w c f)) {n : Nat}
    (hfd : (m.transports c).fd = some n) : Advance param t m m (.write w c n f 0) := by
  obtain ⟨hf, hdue, hmu, hclean⟩ := hl
  refine .stay h ⟨hf, hdue, hmu, ?_, h.sockets.tied c n hfd, ?_⟩
  · exact Nat.lt_of_lt_of_le Nat.zero_lt_two (length_chunks f)
  · rw [List.take_zero, List.flatten_nil, List.append_nil]
    exact hclean

/-- `handle_end` でない書き手は、何か書かれた接続に書く。 -/
theorem Due.sent_ne (h : m.Due param w c f t) (ht : t ≠ some c) : (m.transports c).sent ≠ [] := by
  cases t with
  | some e =>
    obtain ⟨rfl, -⟩ := h
    exact absurd rfl ht
  | none => exact h.greeted

/-- 書いている番号は、End の接続でないものには使われていない。 -/
theorem Tied.others_eq (h : m.Sockets) {n : Nat} (ht : m.Tied c n) : m.others n = false := by
  rcases ht with hs | ⟨-, hfree⟩
  · exact h.apart c n hs
  · exact hfree.1

/-- 書いている番号が他の接続のものになることは無い。 -/
theorem Tied.eq_of_sock (h : m.Sockets) {n : Nat} (ht : m.Tied c n)
    (hd : (m.transports d).sock = some n) : d = c := by
  rcases ht with hs | ⟨-, hfree⟩
  · exact h.inj d c n hd hs
  · exact absurd hd (hfree.2 d)

theorem writeFails_advance (h : m.Shared param) {n k : Nat}
    (hl : m.Local param t (.write w c n f k))
    (hfail : ∀ d, (m.transports d).sock = some n → (m.transports d).broken = true) :
    Advance param t m m (.unlock w c false) := by
  obtain ⟨-, hdue, hmu, -, htied, -⟩ := hl
  refine .stay h ⟨hmu, Or.inr ?_, hdue.finished⟩
  rcases htied with hs | ⟨hs, -⟩
  · exact Or.inl (hfail c hs)
  · exact Or.inr hs

theorem hangUp_advance (h : m.Shared param) (hl : m.Local param t (.serve c)) :
    Advance param t m m (.unregister c) := by
  obtain ⟨rfl, hserved, -⟩ := hl
  exact .stay h ⟨rfl, hserved.answering⟩

/-- 書き込む直前の stream。 -/
theorem stream_of_write (hsock : (m.transports c).sock ≠ none)
    (hbroken : (m.transports c).broken = false) {k : Nat}
    (hs : (m.transports c).stream = (m.transports c).sentBytes ++ (f.chunks.take k).flatten ∨
      (m.transports c).Dead) :
    (m.transports c).stream = (m.transports c).sentBytes ++ (f.chunks.take k).flatten := by
  rcases hs with hs | hb | hn
  · exact hs
  · rw [hbroken] at hb
    cases hb
  · exact absurd hn hsock

theorem sent_ne_of_append (hsent : x.sent = (m.transports c).sent ++ [(w, f)]) :
    x.sent ≠ [] := by
  rw [hsent]
  exact List.append_ne_nil_of_right_ne_nil _ (List.cons_ne_nil _ _)

/-- 書き終えた frame を足した接続。 -/
theorem Due.good_append (h : m.Due param w c f t) (hf : f.Small)
    (hgood : (m.transports c).Good param) (hmu : x.writeMu ≠ none)
    (hsent : x.sent = (m.transports c).sent ++ [(w, f)])
    (hstream : x.stream = (m.transports c).sentBytes ++ f.bytes) : x.Good param where
  whole := ⟨[], by rw [hstream, EndTransport.sentBytes_append hsent, List.append_nil], Or.inl rfl⟩
  idle hnone := absurd hnone hmu
  small y hy := by
    rw [hsent, List.mem_append] at hy
    rcases hy with hy | hy
    · exact hgood.small y hy
    · obtain rfl := List.mem_singleton.mp hy
      exact hf
  head := by
    refine Or.inr ?_
    rw [hsent]
    rcases hgood.head with hnil | hhead
    · rw [hnil]
      cases t with
      | some e =>
        obtain ⟨rfl, hr⟩ := h
        exact congrArg some (hr.greeting hnil)
      | none => exact absurd hnil h.greeted
    · cases hs : (m.transports c).sent with
      | nil =>
        rw [hs] at hhead
        cases hhead
      | cons y ys =>
        rw [hs] at hhead
        exact hhead
  greeted _ := sent_ne_of_append hsent

theorem Due.ordered_append (h : m.Due param w c f t) (hS : m.Shared param)
    (hsent : x.sent = (m.transports c).sent ++ [(w, f)])
    (hheard : x.heard = (m.transports c).heard) : x.pushes.Sublist (x.addressed m.orders) := by
  rw [EndTransport.addressed, hheard]
  cases t with
  | some e =>
    obtain ⟨rfl, hr⟩ := h
    rw [EndTransport.pushes_of_reply hsent hr.writer]
    exact hS.ordered e
  | none =>
    obtain rfl := h.writer
    rw [EndTransport.pushes_append hsent]
    exact h.order

theorem Due.handlerKept (h : m.Due param w c f t) (ht : t ≠ some c)
    (hmu : (m.transports c).writeMu ≠ none)
    (hsent : x.sent = (m.transports c).sent ++ [(w, f)])
    (hheard : x.heard = (m.transports c).heard) (hasked : x.asked = (m.transports c).asked)
    (hsock : x.sock = (m.transports c).sock) : HandlerKept (m.transports c) x := by
  cases t with
  | some e =>
    obtain ⟨rfl, -⟩ := h
    exact absurd rfl ht
  | none =>
    obtain rfl := h.writer
    refine ⟨EndTransport.replies_of_push hsent, hheard, hasked, ?_, fun hx => ?_, ?_⟩
    · exact iff_of_false (sent_ne_of_append hsent) h.greeted
    · rw [hx] at hmu
      exact absurd rfl hmu
    · rw [hsock]
      exact id

theorem Due.pusherKept (h : m.Due param w c f t) (ht : t ≠ none)
    (hsent : x.sent = (m.transports c).sent ++ [(w, f)])
    (hheard : x.heard = (m.transports c).heard) : PusherKept (m.transports c) x := by
  cases t with
  | none => exact absurd rfl ht
  | some e =>
    obtain ⟨rfl, hr⟩ := h
    refine ⟨EndTransport.pushes_of_reply hsent hr.writer, ?_, fun _ => sent_ne_of_append hsent⟩
    rw [hheard]
    exact List.Subset.refl _

section Set

variable [DecidableEq C]

@[simp] theorem set_self (m : EdgeRuntime C) (c : C) (x : EndTransport C) :
    (m.set c x).transports c = x := update_self ..

theorem set_ne (m : EdgeRuntime C) (x : EndTransport C) (h : c ≠ d) :
    (m.set d x).transports c = m.transports c := update_of_ne h ..

/-- 番号を変えなければ、割り当ては変わらない。 -/
theorem set_sock (hsock : x.sock = (m.transports d).sock) (c : C) :
    ((m.set d x).transports c).sock = (m.transports c).sock := by
  by_cases hc : c = d
  · subst hc
    rw [set_self, hsock]
  · rw [set_ne m x hc]

theorem set_fd (hfd : x.fd = (m.transports d).fd) (c : C) :
    ((m.set d x).transports c).fd = (m.transports c).fd := by
  by_cases hc : c = d
  · subst hc
    rw [set_self, hfd]
  · rw [set_ne m x hc]

theorem tied_set (hsock : x.sock = (m.transports d).sock) {n : Nat} (h : m.Tied c n) :
    (m.set d x).Tied c n := tied_congr (set_sock hsock) rfl h

/-- 一つの接続だけを書き換える。 -/
theorem Shared.of_sockets (h : m.Shared param) (hsockets : (m.set d x).Sockets)
    (hgood : x.Good param) (hheard : (m.transports d).heard ⊆ x.heard)
    (hordered : x.pushes.Sublist (x.addressed m.orders)) : (m.set d x).Shared param where
  sockets := hsockets
  good c := by
    by_cases hc : c = d
    · subst hc
      rw [set_self]
      exact hgood
    · rw [set_ne m x hc]
      exact h.good c
  routed id c hid := by
    have hmem := h.routed id c hid
    by_cases hc : c = d
    · subst hc
      rw [set_self]
      exact hheard hmem
    · rw [set_ne m x hc]
      exact hmem
  ordered c := by
    by_cases hc : c = d
    · subst hc
      rw [set_self]
      exact hordered
    · rw [set_ne m x hc]
      exact h.ordered c

/-- 一つの接続だけを、番号を変えずに書き換える。 -/
theorem Shared.set (h : m.Shared param) (hsock : x.sock = (m.transports d).sock)
    (hfd : x.fd = (m.transports d).fd) (hgood : x.Good param)
    (hheard : (m.transports d).heard ⊆ x.heard)
    (hordered : x.pushes.Sublist (x.addressed m.orders)) : (m.set d x).Shared param :=
  h.of_sockets (h.sockets.congr (set_sock hsock) (set_fd hfd) rfl) hgood hheard hordered

/-- frame の記録を変えなければ、書こうとしている frame も変わらない。 -/
theorem Due.set (h : m.Due param w c f t) (hsent : x.sent = (m.transports c).sent)
    (hheard : x.heard = (m.transports c).heard) (hasked : x.asked = (m.transports c).asked) :
    (m.set c x).Due param w c f t := by
  cases t with
  | some e =>
    obtain ⟨rfl, hr⟩ := h
    refine ⟨rfl, ?_⟩
    rw [set_self]
    refine ⟨hr.writer, ?_, ?_, ?_⟩
    · rw [EndTransport.replies, hsent, hasked]
      exact hr.next
    · rw [hsent, hheard]
      exact hr.first
    · rw [hsent]
      exact hr.later
  | none =>
    refine ⟨h.writer, ?_, ?_⟩
    · rw [set_self, hsent]
      exact h.greeted
    · rw [set_self, EndTransport.addressed, hheard, EndTransport.pushes, hsent]
      exact h.order

theorem lock_advance (h : m.Shared param) (hl : m.Local param t (.lock w c f))
    (hmu : (m.transports c).writeMu = none) :
    Advance param t m (m.set c { m.transports c with writeMu := some t }) (.locked w c f) := by
  obtain ⟨hf, hdue⟩ := hl
  have hgood := h.good c
  refine ⟨h.set rfl rfl ?_ (List.Subset.refl _) (h.ordered c), ?_, ?_,
    fun _ _ => tied_set (by rfl)⟩
  · exact ⟨hgood.whole, fun hnone => absurd hnone (Option.some_ne_none t), hgood.small,
      hgood.head, hgood.greeted⟩
  · refine ⟨hf, hdue.set rfl rfl rfl, ?_⟩
    rw [set_self]
    exact ⟨rfl, hgood.idle hmu⟩
  · refine guar_of (fun _ => set_ne m _) (fun u _ hu => ?_) (fun ha => ?_) (fun _ _ _ => id) rfl
      fun _ => ?_
    · rw [hmu] at hu
      cases hu
    · rw [set_self]
      have hsent := hdue.sent_ne (mt (congrArg some) ha)
      refine ⟨rfl, rfl, rfl, Iff.rfl, fun hx => ?_, id⟩
      rw [hx] at hsent
      exact absurd rfl hsent
    · rw [set_self]
      exact ⟨rfl, List.Subset.refl _, id⟩

theorem unlock_advance (h : m.Shared param) {ok : Bool}
    (hl : m.Local param t (.unlock w c ok)) :
    Advance param t m (m.set c { m.transports c with writeMu := none }) (.after w c ok) := by
  obtain ⟨hmu, hclean, hfin⟩ := hl
  have hgood := h.good c
  refine ⟨h.set rfl rfl ?_ (List.Subset.refl _) (h.ordered c), ?_, ?_,
    fun _ _ => tied_set (by rfl)⟩
  · exact ⟨hgood.whole, fun _ => hclean, hgood.small, hgood.head, hgood.greeted⟩
  · cases t with
    | none =>
      obtain rfl : w = .push := hfin
      rfl
    | some e =>
      obtain ⟨rfl, hw, hanswer, hok, hfail⟩ := hfin
      have hends (hheard : (m.transports e).heard = []) (id : Nat) : m.ends id ≠ some e := by
        intro hid
        have hmem := h.routed id e hid
        rw [hheard] at hmem
        exact List.not_mem_nil hmem
      cases w with
      | push => exact absurd rfl hw
      | greeting =>
        cases ok with
        | true =>
          refine ⟨rfl, ?_⟩
          rw [set_self]
          exact hok rfl
        | false =>
          refine ⟨rfl, ?_, hends (hfail rfl rfl)⟩
          rw [set_self]
          exact hanswer
      | reply =>
        cases ok with
        | true =>
          refine ⟨rfl, ?_⟩
          rw [set_self]
          exact hok rfl
        | false =>
          refine ⟨rfl, ?_⟩
          rw [set_self]
          exact hanswer
  · refine guar_of (fun _ => set_ne m _) (fun u ha hu => ?_) (fun _ => ?_) (fun _ _ _ => id) rfl
      fun _ => ?_
    · rw [hmu] at hu
      exact absurd (congrArg some (Option.some.inj hu)) ha
    · rw [set_self]
      refine ⟨rfl, rfl, rfl, Iff.rfl, fun hx => ?_, id⟩
      rw [hx] at hmu
      cases hmu
    · rw [set_self]
      exact ⟨rfl, List.Subset.refl _, id⟩

/-! 書き込み -/

theorem Due.finished_append (h : m.Due param w c f t)
    (hsent : x.sent = (m.transports c).sent ++ [(w, f)])
    (hasked : x.asked = (m.transports c).asked) :
    (m.set c x).Finished param w c true t := by
  cases t with
  | some e =>
    obtain ⟨rfl, hr⟩ := h
    have hserved : ((m.set e x).transports e).Served param := by
      rw [set_self, EndTransport.Served, EndTransport.replies_append hsent hr.writer, hasked]
      exact hr.next
    refine ⟨rfl, hr.writer, hserved.answering, fun _ => ⟨hserved, ?_⟩, Bool.noConfusion⟩
    rw [set_self, hsent]
    exact List.append_ne_nil_of_right_ne_nil _ (List.cons_ne_nil _ _)
  | none => exact h.writer

theorem write_advance (h : m.Shared param) {n k : Nat} {chunk : Bytes}
    (hl : m.Local param t (.write w c n f k)) (hsock : (m.transports d).sock = some n)
    (hbroken : (m.transports d).broken = false) (hchunk : f.chunks[k]? = some chunk) :
    Advance param t m (m.append w d f k chunk)
      (if k + 1 = f.chunks.length then .unlock w c true else .write w c n f (k + 1)) := by
  obtain ⟨hf, hdue, hmu, hk, htied, hs⟩ := hl
  obtain rfl := htied.eq_of_sock h.sockets hsock
  have hgood := h.good d
  have hlive : (m.transports d).sock ≠ none := by
    rw [hsock]
    exact Option.some_ne_none n
  have hnow := stream_of_write hlive hbroken hs
  have hnext : (m.transports d).stream ++ chunk =
      (m.transports d).sentBytes ++ (f.chunks.take (k + 1)).flatten := by
    rw [hnow, List.append_assoc, List.take_add_one, hchunk, List.flatten_append]
    simp
  have hheld (x : EndTransport C) (u : Option C) (hu : some t ≠ some u)
      (hmu' : (m.transports d).writeMu = some u) : Held u (m.transports d) x := by
    rw [hmu] at hmu'
    exact absurd hmu' hu
  have hfresh (x : EndTransport C) (hx : m.transports d = .fresh) : x = .fresh := by
    rw [hx] at hmu
    cases hmu
  by_cases hlast : k + 1 = f.chunks.length
  · have happ : m.append w d f k chunk = m.set d { m.transports d with
        stream := (m.transports d).stream ++ chunk
        sent := (m.transports d).sent ++ [(w, f)] } := by
      rw [append, if_pos hlast]
    rw [happ, if_pos hlast]
    have hbytes : (m.transports d).stream ++ chunk = (m.transports d).sentBytes ++ f.bytes := by
      rw [hnext, hlast, List.take_length]
      rfl
    have hne : (m.transports d).writeMu ≠ none := by
      rw [hmu]
      exact Option.some_ne_none t
    refine ⟨h.set rfl rfl (hdue.good_append hf hgood hne rfl hbytes) (List.Subset.refl _)
      (hdue.ordered_append h rfl rfl), ?_, ?_, fun _ _ => tied_set (by rfl)⟩
    · refine ⟨?_, Or.inl ?_, hdue.finished_append rfl rfl⟩
      · rw [set_self]
        exact hmu
      · rw [set_self, EndTransport.sentBytes_append rfl]
        exact hbytes
    · refine guar_of (fun _ => set_ne m _) (fun u hu hmu' => hheld _ u hu hmu') (fun ha => ?_)
        (fun _ _ _ => id) rfl fun ha => ?_
      · rw [set_self]
        exact hdue.handlerKept (mt (congrArg some) ha) hne rfl rfl rfl rfl
      · rw [set_self]
        exact hdue.pusherKept (mt (congrArg some) ha) rfl rfl
  · have happ : m.append w d f k chunk = m.set d { m.transports d with
        stream := (m.transports d).stream ++ chunk } := by
      rw [append, if_neg hlast]
    rw [happ, if_neg hlast]
    have hk' : k + 1 < f.chunks.length := by omega
    have hcut : (f.chunks.take (k + 1)).flatten ++ (f.chunks.drop (k + 1)).flatten = f.bytes := by
      rw [← List.flatten_append, List.take_append_drop]
      rfl
    refine ⟨h.set rfl rfl ?_ (List.Subset.refl _) (h.ordered d), ?_, ?_,
      fun _ _ => tied_set (by rfl)⟩
    · refine ⟨⟨_, hnext, Or.inr ⟨f, _, hf, hcut, drop_chunks_ne_nil hk'⟩⟩, fun hnone => ?_,
        hgood.small, hgood.head, hgood.greeted⟩
      rw [hmu] at hnone
      cases hnone
    · refine ⟨hf, hdue.set rfl rfl rfl, ?_, hk', tied_set (by rfl) htied, ?_⟩
      · rw [set_self]
        exact hmu
      · rw [set_self]
        exact Or.inl hnext
    · refine guar_of (fun _ => set_ne m _) (fun u hu hmu' => hheld _ u hu hmu') (fun _ => ?_)
        (fun _ _ _ => id) rfl fun _ => ?_
      · rw [set_self]
        exact ⟨rfl, rfl, rfl, Iff.rfl, hfresh _, id⟩
      · rw [set_self]
        exact ⟨rfl, List.Subset.refl _, id⟩

/-! `handle_end` の loop -/

theorem heartbeat_advance (h : m.Shared param) (hl : m.Local param t (.serve c)) (eid : Nat) :
    Advance param t m (m.registerEnd c eid) (.serve c) := by
  obtain ⟨rfl, hserved, hsent⟩ := hl
  have hgood := h.good c
  have hself : (m.registerEnd c eid).transports c =
      { m.transports c with heard := (m.transports c).heard ++ [eid] } := set_self m c _
  have hne {d : C} (hd : d ≠ c) : (m.registerEnd c eid).transports d = m.transports d :=
    set_ne m _ hd
  have hsock := set_sock (m := m) (d := c)
    (x := { m.transports c with heard := (m.transports c).heard ++ [eid] }) rfl
  refine ⟨⟨h.sockets.congr hsock (set_fd rfl) rfl, fun d => ?_, fun i d hid => ?_, fun d => ?_⟩,
    ⟨rfl, ?_⟩, ?_, fun _ _ => tied_congr hsock rfl⟩
  · by_cases hd : d = c
    · subst hd
      rw [hself]
      exact ⟨hgood.whole, hgood.idle, hgood.small, hgood.head, fun _ => hsent⟩
    · rw [hne hd]
      exact h.good d
  · have hid' : update m.ends eid (some c) i = some d := hid
    by_cases hi : i = eid
    · subst hi
      rw [update_self] at hid'
      obtain rfl := Option.some.inj hid'
      rw [hself]
      exact List.mem_append_right _ List.mem_cons_self
    · rw [update_of_ne hi] at hid'
      have hmem := h.routed i d hid'
      by_cases hd : d = c
      · subst hd
        rw [hself]
        exact List.mem_append_left _ hmem
      · rw [hne hd]
        exact hmem
  · by_cases hd : d = c
    · subst hd
      rw [hself]
      exact (h.ordered d).trans (addressed_sublist m.orders (List.subset_append_left _ _))
    · rw [hne hd]
      exact h.ordered d
  · rw [hself]
    exact ⟨hserved, hsent⟩
  · refine guar_of (d := c) (fun _ => hne) (fun u _ hu => ?_) (fun ha => absurd rfl ha)
      (fun d hd i hid => ?_) rfl fun _ => ?_
    · rw [hself]
      exact ⟨hu, rfl, rfl, id⟩
    · have hid' : update m.ends eid (some c) i = some d := hid
      rw [update_apply] at hid'
      split at hid'
      · obtain rfl := Option.some.inj hid'
        exact absurd rfl hd
      · exact hid'
    · rw [hself]
      exact ⟨rfl, List.subset_append_left _ _, id⟩

theorem request_advance (h : m.Shared param) (hl : m.Local param t (.serve c)) (req : Frame)
    {resp : Frame} (hresp : resp.Small) :
    Advance param t m (m.ask c req resp) (.lock .reply c resp) := by
  obtain ⟨rfl, hserved, hsent⟩ := hl
  have hgood := h.good c
  refine ⟨h.set rfl rfl ?_ (List.Subset.refl _) (h.ordered c), ⟨hresp, rfl, ?_⟩, ?_,
    fun _ _ => tied_set (by rfl)⟩
  · exact ⟨hgood.whole, hgood.idle, hgood.small, hgood.head, hgood.greeted⟩
  · rw [ask, set_self]
    refine ⟨EndWriter.noConfusion, ?_, EndWriter.noConfusion, fun _ => hsent⟩
    show (m.transports c).replies ++ [resp] =
      param :: ((m.transports c).asked ++ [(req, resp)]).map _
    rw [hserved, List.map_append]
    rfl
  · refine guar_of (fun _ => set_ne m _) (fun u _ hu => ?_) (fun ha => absurd rfl ha)
      (fun _ _ _ => id) rfl fun _ => ?_
    · rw [ask, set_self]
      exact ⟨hu, rfl, rfl, id⟩
    · rw [ask, set_self]
      exact ⟨rfl, List.Subset.refl _, id⟩

theorem unregister_advance (h : m.Shared param) (hl : m.Local param t (.unregister c)) :
    Advance param t m (m.unregisterTransport c) (.close c) := by
  obtain ⟨rfl, hanswer⟩ := hl
  have hends {id : Nat} {d : C} (hid : (m.unregisterTransport c).ends id = some d) :
      m.ends id = some d ∧ d ≠ c := by
    unfold unregisterTransport at hid
    dsimp only at hid
    split at hid
    · cases hid
    · next hne =>
      refine ⟨hid, ?_⟩
      rintro rfl
      exact hne hid
  refine ⟨⟨h.sockets.congr (fun _ => rfl) (fun _ => rfl) rfl, h.good,
    fun id d hid => h.routed id d (hends hid).1, h.ordered⟩,
    ⟨rfl, hanswer, fun id hid => (hends hid).2 rfl⟩, ?_, fun _ _ => tied_congr (fun _ => rfl) rfl⟩
  exact guar_of (d := c) (fun _ _ => rfl) (fun _ _ hu => Held.refl hu)
    (fun _ => HandlerKept.refl _) (fun d _ id hid => (hends hid).1) rfl fun _ => PusherKept.refl _

theorem close_advance (h : m.Shared param) (hl : m.Local param t (.close c)) :
    Advance param t m (m.set c { m.transports c with sock := none }) (.closing c) := by
  have hleave : m.Leaving param c t := hl
  obtain rfl := hleave.1
  have hgood := h.good c
  have hsock {d : C} {n : Nat}
      (hd : ((m.set c { m.transports c with sock := none }).transports d).sock = some n) :
      (m.transports d).sock = some n ∧ d ≠ c := by
    by_cases hdc : d = c
    · subst hdc
      rw [set_self] at hd
      cases hd
    · rw [set_ne m _ hdc] at hd
      exact ⟨hd, hdc⟩
  -- 閉じられた番号は、次に開かれるまで誰のものでもない。
  have htied (d : C) (n : Nat) (hd : m.Tied d n) :
      (m.set c { m.transports c with sock := none }).Tied d n := by
    by_cases hdc : d = c
    · subst hdc
      refine Or.inr ⟨by rw [set_self], hd.others_eq h.sockets, fun e he => ?_⟩
      obtain ⟨he, hne⟩ := hsock he
      exact hne (hd.eq_of_sock h.sockets he)
    · rcases hd with hs | ⟨hs, hfree⟩
      · refine Or.inl ?_
        rw [set_ne m _ hdc]
        exact hs
      · refine Or.inr ⟨?_, hfree.1, fun e he => hfree.2 e (hsock he).1⟩
        rw [set_ne m _ hdc]
        exact hs
  have hsockets : (m.set c { m.transports c with sock := none }).Sockets := by
    refine ⟨fun d e n hd he => h.sockets.inj d e n (hsock hd).1 (hsock he).1,
      fun d n hd => h.sockets.apart d n (hsock hd).1, fun d n hd => ?_⟩
    have hfd := set_fd (m := m) (d := c) (x := { m.transports c with sock := none }) rfl d
    exact htied d n (h.sockets.tied d n (hfd.symm.trans hd))
  refine ⟨h.of_sockets hsockets ?_ (List.Subset.refl _) (h.ordered c),
    ⟨⟨rfl, ?_, hleave.2.2⟩, ?_⟩, ?_, htied⟩
  · exact ⟨hgood.whole, fun _ => Or.inr (Or.inr rfl), hgood.small, hgood.head, hgood.greeted⟩
  · rw [set_self]
    exact hleave.2.1
  · rw [set_self]
  · refine guar_of (fun _ => set_ne m _) (fun u _ hu => ?_) (fun ha => absurd rfl ha)
      (fun _ _ _ => id) rfl fun _ => ?_
    · rw [set_self]
      exact ⟨hu, rfl, rfl, fun _ => Or.inr rfl⟩
    · rw [set_self]
      exact ⟨rfl, List.Subset.refl _, id⟩

theorem closed_advance (h : m.Shared param) (hl : m.Local param t (.closing c)) :
    Advance param t m (m.set c { m.transports c with fd := none }) (.closed c) := by
  obtain ⟨hleave, hsock⟩ := hl
  obtain rfl := hleave.1
  have hgood := h.good c
  have hframe := set_sock (m := m) (d := c) (x := { m.transports c with fd := none }) rfl
  have hsockets : (m.set c { m.transports c with fd := none }).Sockets := by
    refine ⟨fun d e n hd he => ?_, fun d n hd => ?_, fun d n hd => ?_⟩
    · rw [hframe] at hd he
      exact h.sockets.inj d e n hd he
    · rw [hframe] at hd
      exact h.sockets.apart d n hd
    · by_cases hdc : d = c
      · subst hdc
        rw [set_self] at hd
        cases hd
      · rw [set_ne m _ hdc] at hd
        exact tied_set (by rfl) (h.sockets.tied d n hd)
  refine ⟨h.of_sockets hsockets ?_ (List.Subset.refl _) (h.ordered c),
    ⟨rfl, ?_, hleave.2.2⟩, ?_, fun _ _ => tied_set (by rfl)⟩
  · exact ⟨hgood.whole, hgood.idle, hgood.small, hgood.head, hgood.greeted⟩
  · rw [set_self]
    exact hleave.2.1
  · refine guar_of (fun _ => set_ne m _) (fun u _ hu => ?_) (fun ha => absurd rfl ha)
      (fun _ _ _ => id) rfl fun _ => ?_
    · rw [set_self]
      exact ⟨hu, rfl, rfl, id⟩
    · rw [set_self]
      exact ⟨rfl, List.Subset.refl _, id⟩

/-! `cloud_receiver_loop` -/

omit [DecidableEq C] in
theorem addressed_append (x : EndTransport C) (orders : List (Nat × Frame)) (o : Nat × Frame) :
    (x.addressed orders).Sublist (x.addressed (orders ++ [o])) := by
  rw [EndTransport.addressed, EndTransport.addressed, List.filter_append, List.map_append]
  exact List.sublist_append_left _ _

omit [DecidableEq C] in
theorem order_advance (h : m.Shared param) (hl : m.Local param t .receive) (o : Nat × Frame)
    {l : EndPc C} (hown : t = none → Local param t { m with orders := m.orders ++ [o] } l) :
    Advance param t m { m with orders := m.orders ++ [o] } l := by
  obtain rfl : t = none := hl
  refine ⟨⟨h.sockets.congr (fun _ => rfl) (fun _ => rfl) rfl, h.good, h.routed, fun c => ?_⟩,
    hown rfl, ⟨fun _ _ _ => Held.refl, fun _ _ => HandlerKept.refl _, fun _ _ _ => id,
      fun ha => absurd rfl ha, fun _ _ => PusherKept.refl _⟩,
    fun _ _ => tied_congr (fun _ => rfl) rfl⟩
  exact (h.ordered c).trans (addressed_append _ m.orders o)

omit [DecidableEq C] in
theorem pushing_of_routed (h : m.Shared param) {eid : Nat} (hend : m.ends eid = some c) :
    Pushing { m with orders := m.orders ++ [(eid, f)] } .push c f where
  writer := rfl
  greeted := (h.good c).greeted (List.ne_nil_of_mem (h.routed eid c hend))
  order := by
    have hmem := h.routed eid c hend
    have hadd : (m.transports c).addressed (m.orders ++ [(eid, f)]) =
        (m.transports c).addressed m.orders ++ [f] := by
      simp [EndTransport.addressed, hmem]
    show ((m.transports c).pushes ++ [f]).Sublist
      ((m.transports c).addressed (m.orders ++ [(eid, f)]))
    rw [hadd]
    exact (h.ordered c).append_right [f]

end Set

end EdgeRuntime

end Plin
