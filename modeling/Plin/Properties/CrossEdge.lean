import Plin.Cloud.CrossEdge
import Plin.Infra.Call
import Plin.Properties.HotUpdate

/-!
# 他の Edge への問い合わせは取り違えられないか

要求は三つの呼び出しを順に渡る。End と `handle_end`、`handle_end` と Cloud の接続、Cloud と Edge で
ある。初めの二つは接続が呼び手ごとに別であり、三つ目は一本の接続を `EdgeConn::mu` が一人ずつに
使わせる。**どの呼び出しでも要求は一か所にだけ在る**（`Flight`）ので、番号の無い応答も取り違えられ
ない（`crossEdge_no_crosstalk`）。

応答を待つ End は、どの状態からでも応答に行き着ける（`NetInv.progress`）。
-/

namespace Plin

open Infra Function

variable {E : Type}

/-! ## 呼び出しの両端 -/

/-- 応答を求める frame。 -/
def Frame.IsRequest (f : Frame) : Prop := f.type = .crossEdgeReq ∨ f.type = .edgeFetchReq

instance (f : Frame) : Decidable f.IsRequest := inferInstanceAs (Decidable (_ ∨ _))

def requests (l : List Frame) : List Frame := l.filter fun f => decide f.IsRequest

def crosses (l : List Frame) : List Frame := l.filter fun f => decide (f.type = .crossEdgeReq)

def replies (l : List Packet) : List Packet :=
  l.filter fun p => decide (p.frame.type = .edgeFetchResp)

def RequesterPc.request : RequesterPc → Option Frame
  | .idle => none
  | .waiting f => some f

def HandlerPc.request : HandlerPc → Option Frame
  | .connect f | .fetching f _ | .reply f _ => some f
  | .idle | .closed => none

def ConnectionPc.request : ConnectionPc → Option Frame
  | .route f | .edgeConn f _ | .locking f _ | .locked f _ | .waiting f _ | .answered f _ _
  | .reply f _ => some f
  | .accepted | .closed => none

/-- `EdgeConn::mu` を持っている Edge。 -/
def ConnectionPc.edge : ConnectionPc → Option Int
  | .locked _ g | .waiting _ g | .answered _ g _ => some g
  | _ => none

/-- Edge に出している要求。 -/
def ConnectionPc.forwarded : ConnectionPc → Option Frame
  | .waiting f _ => some f
  | _ => none

def PusherPc.edge : PusherPc → Option Int
  | .locked g _ | .written g => some g
  | _ => none

/-- `cloud_receiver_loop` の処理している要求。 -/
def crossOf (f : Option Frame) : Option Frame := f.filter fun f => decide (f.type = .crossEdgeReq)

/-! ## 応答 -/

namespace Deployment

variable (D : Deployment E)

/-- Edge `g` が要求 `f` のために作った応答。 -/
def FromEdge (g : Int) (f : Frame) (p : Packet) : Prop :=
  p = ⟨handleCloudCrossReq (D.index g) f, .edge g f⟩

/-- Cloud が要求 `f` に返す応答。 -/
def CrossAnswer (f : Frame) (p : Packet) : Prop :=
  (∃ resp, D.cloud.routeCrossEdgeReq f = .error resp ∧ p = ⟨resp, .cloud f⟩) ∨
  ∃ g, D.cloud.routeCrossEdgeReq f = .ok g ∧
    (D.FromEdge g f p ∨ p = ⟨makeFetchResp .error 0, .cloud f⟩)

/-- End `e` の要求 `f` への応答。 -/
def EndAnswer (e : E) (f : Frame) (p : Packet) : Prop :=
  (f.type = .crossEdgeReq ∧ D.CrossAnswer f p) ∨
  (f.type = .edgeFetchReq ∧ p.origin = .edge (D.home e) f ∧
    handleEdgeFetchReq (D.index (D.home e)) f = some p.frame)

variable {D}

theorem type_handleCloudCrossReq (idx : EdgeIndex) (f : Frame) :
    (handleCloudCrossReq idx f).type = .edgeFetchResp := by
  unfold handleCloudCrossReq
  split <;> rfl

theorem type_handleEdgeFetchReq {idx : EdgeIndex} {f resp : Frame}
    (h : handleEdgeFetchReq idx f = some resp) : resp.type = .edgeFetchResp := by
  unfold handleEdgeFetchReq at h
  split at h
  · cases h
  · cases h
    rfl

theorem type_of_route {f resp : Frame} (h : D.cloud.routeCrossEdgeReq f = .error resp) :
    resp.type = .edgeFetchResp := by
  unfold CloudServer.routeCrossEdgeReq at h
  split at h
  · cases h
    rfl
  · dsimp only at h
    split at h
    · cases h
      rfl
    · cases h

theorem FromEdge.crossAnswer {g : Int} {f : Frame} {p : Packet}
    (hr : D.cloud.routeCrossEdgeReq f = .ok g) (h : D.FromEdge g f p) : D.CrossAnswer f p :=
  Or.inr ⟨g, hr, Or.inl h⟩

theorem CrossAnswer.type_eq {f : Frame} {p : Packet} (h : D.CrossAnswer f p) :
    p.frame.type = .edgeFetchResp := by
  rcases h with ⟨resp, hr, rfl⟩ | ⟨g, -, rfl | rfl⟩
  · exact type_of_route hr
  · exact type_handleCloudCrossReq _ f
  · rfl

theorem EndAnswer.type_eq {e : E} {f : Frame} {p : Packet} (h : D.EndAnswer e f p) :
    p.frame.type = .edgeFetchResp := by
  rcases h with ⟨-, h⟩ | ⟨-, -, h⟩
  · exact h.type_eq
  · exact type_handleEdgeFetchReq h

end Deployment

/-! ## 列の見方 -/

theorem requests_append (l : List Frame) (f : Frame) :
    requests (l ++ [f]) = if f.IsRequest then requests l ++ [f] else requests l := by
  unfold requests
  rw [List.filter_append]
  split <;> simp [*]

theorem requests_cons (f : Frame) (l : List Frame) :
    requests (f :: l) = if f.IsRequest then f :: requests l else requests l := by
  unfold requests
  rw [List.filter_cons]
  split <;> simp_all

theorem crosses_append (l : List Frame) (f : Frame) :
    crosses (l ++ [f]) = if f.type = .crossEdgeReq then crosses l ++ [f] else crosses l := by
  unfold crosses
  rw [List.filter_append]
  split <;> simp [*]

theorem crosses_cons (f : Frame) (l : List Frame) :
    crosses (f :: l) = if f.type = .crossEdgeReq then f :: crosses l else crosses l := by
  unfold crosses
  rw [List.filter_cons]
  split <;> simp_all

theorem replies_append (l : List Packet) (p : Packet) :
    replies (l ++ [p]) =
      if p.frame.type = .edgeFetchResp then replies l ++ [p] else replies l := by
  unfold replies
  rw [List.filter_append]
  split <;> simp [*]

theorem replies_cons (p : Packet) (l : List Packet) :
    replies (p :: l) = if p.frame.type = .edgeFetchResp then p :: replies l else replies l := by
  unfold replies
  rw [List.filter_cons]
  split <;> simp_all

theorem crossOf_of_cross {f : Frame} (h : f.type = .crossEdgeReq) : crossOf (some f) = some f := by
  simp [crossOf, Option.filter, h]

theorem crossOf_of_other {f : Frame} (h : f.type ≠ .crossEdgeReq) : crossOf (some f) = none := by
  simp [crossOf, Option.filter, h]

theorem not_resp_of_control {f : Frame} (h : f.IsControl) : f.type ≠ .edgeFetchResp := by
  rcases h with h | h | h <;> · rw [h]; decide

/-! ## 不変量 -/

variable (D : Deployment E)

/-- `handle_end` の位置に付く条件。 -/
def HandlerPc.Ok (e : E) : HandlerPc → Prop
  | .idle => True
  | .connect f | .fetching f _ => f.type = .crossEdgeReq
  | .reply f p => D.EndAnswer e f p
  | .closed => False

/-- `handle_connection` の位置に付く条件。 -/
def ConnectionPc.Ok : ConnectionPc → Prop
  | .accepted | .route _ | .closed => True
  | .edgeConn f g | .locking f g | .locked f g | .waiting f g =>
    D.cloud.routeCrossEdgeReq f = .ok g
  | .answered f g p => D.cloud.routeCrossEdgeReq f = .ok g ∧ D.FromEdge g f p
  | .reply f p => D.CrossAnswer f p

/-- `handle_end` が応答できる frame。 -/
def Servable (e : E) (f : Frame) : Prop :=
  f.type = .heartbeat ∨ f.type = .crossEdgeReq ∨
    (f.type = .edgeFetchReq ∧ handleEdgeFetchReq (D.index (D.home e)) f ≠ none)

/-- End `e` とその `handle_end` の呼び出し。 -/
structure EndInv (e : E) (r : RequesterPc) (up : List Frame) (h : HandlerPc)
    (down : List Packet) (got : List (Frame × Packet)) (issued : Nat) : Prop where
  flight : Flight (D.EndAnswer e) r.request (requests up) h.request (replies down)
  up : ∀ f ∈ up, Servable D e f
  down : ∀ p ∈ down, p.frame.IsControl ∨ p.frame.type = .edgeFetchResp
  handler : h.Ok D e
  log : ∀ x ∈ got, D.EndAnswer e x.1 x.2
  counted : issued = got.length + r.request.toList.length

/-- `handle_end` と Cloud の接続の呼び出し。 -/
structure ConnInv (c : Connection) : Prop where
  flight : Flight D.CrossAnswer c.client c.up c.pc.request c.down
  up : ∀ f ∈ c.up, f.type = .crossEdgeReq
  request : ∀ f ∈ c.pc.request, f.type = .crossEdgeReq
  unread : c.up ≠ [] → c.pc = .accepted
  pc : c.pc.Ok D

/-- lock を持つ接続が Edge に出している要求。 -/
def forwardedBy (pcOf : Nat → ConnectionPc) : Option Holder → Option Frame
  | some (.connection c) => (pcOf c).forwarded
  | _ => none

/-- Cloud と Edge `g` の呼び出し。 -/
structure LinkInv (pcOf : Nat → ConnectionPc) (pusher : PusherPc) (g : Int)
    (holder : Option Holder) (toEdge : List Frame) (control : Option Frame)
    (toCloud : List Packet) : Prop where
  flight : Flight (D.FromEdge g) (forwardedBy pcOf holder) (crosses toEdge) (crossOf control)
    toCloud
  connection : ∀ c, (pcOf c).edge = some g ↔ holder = some (.connection c)
  pusher : pusher.edge = some g ↔ holder = some .hotUpdateLoop

/-- `hot_update_loop` の書く frame。 -/
def PusherPc.Ok : PusherPc → Prop
  | .locking _ f | .locked _ f => f.type = .hotUpdate
  | _ => True

namespace Network

/-- 接続ごとの `handle_connection` の位置。 -/
def pcOf (s : Network E) (c : Nat) : ConnectionPc := (s.connections c).pc

/-- 系の不変量。 -/
structure Inv (s : Network E) : Prop where
  ends : ∀ e, EndInv D e (s.ends e) (s.up e) (s.handlers e) (s.down e) (s.responses e) (s.issued e)
  client : ∀ e f c, s.handlers e = .fetching f c →
    c < s.nextConnection ∧ (s.connections c).client = some f
  owner : ∀ e e' f f' c, s.handlers e = .fetching f c → s.handlers e' = .fetching f' c → e = e'
  fresh : ∀ c, s.nextConnection ≤ c → s.connections c = .fresh
  connections : ∀ c, ConnInv D (s.connections c)
  links : ∀ g, LinkInv D s.pcOf s.pusher g (s.holder g) (s.toEdge g) (s.control g) (s.toCloud g)
  pusher : s.pusher.Ok

end Network

variable {D}

/-! ## End と `handle_end` -/

namespace EndInv

variable {e : E} {r : RequesterPc} {up : List Frame} {h : HandlerPc} {down : List Packet}
  {got : List (Frame × Packet)} {n : Nat} {f : Frame} {p : Packet}

theorem heartbeat (hi : EndInv D e r up h down got n) (hf : f.type = .heartbeat) :
    EndInv D e r (up ++ [f]) h down got n where
  flight := by
    have hr : ¬ f.IsRequest := by
      rintro (h | h) <;> · rw [hf] at h; exact absurd h (by decide)
    rw [requests_append, if_neg hr]
    exact hi.flight
  up := by
    intro g hg
    rcases List.mem_append.mp hg with hg | hg
    · exact hi.up g hg
    · rw [List.mem_singleton.mp hg]
      exact Or.inl hf
  down := hi.down
  handler := hi.handler
  log := hi.log
  counted := hi.counted

/-- 要求を出す。 -/
theorem issue (hi : EndInv D e .idle up h down got n) (hr : f.IsRequest) (hs : Servable D e f) :
    EndInv D e (.waiting f) (up ++ [f]) h down got (n + 1) where
  flight := by
    rw [requests_append, if_pos hr]
    exact hi.flight.send f
  up := by
    intro g hg
    rcases List.mem_append.mp hg with hg | hg
    · exact hi.up g hg
    · rw [List.mem_singleton.mp hg]
      exact hs
  down := hi.down
  handler := hi.handler
  log := hi.log
  counted := by
    rw [hi.counted]
    rfl

/-- 応答でない frame を読む。 -/
theorem skip (hi : EndInv D e r up h (p :: down) got n) (hp : p.frame.type ≠ .edgeFetchResp) :
    EndInv D e r up h down got n where
  flight := by
    have := hi.flight
    rwa [replies_cons, if_neg hp] at this
  up := hi.up
  down q hq := hi.down q (List.mem_cons_of_mem _ hq)
  handler := hi.handler
  log := hi.log
  counted := hi.counted

/-- 応答を待っていなければ、応答は届いていない。 -/
theorem not_resp (hi : EndInv D e .idle up h (p :: down) got n) :
    p.frame.type ≠ .edgeFetchResp := by
  intro hp
  have := hi.flight.eq_of_none.2.2
  rw [replies_cons, if_pos hp] at this
  cases this

/-- **受け取った応答は、出している要求への応答である。** -/
theorem accept (hi : EndInv D e (.waiting f) up h (p :: down) got n)
    (hp : p.frame.type = .edgeFetchResp) : EndInv D e .idle up h down (got ++ [(f, p)]) n := by
  have hf := hi.flight
  rw [replies_cons, if_pos hp] at hf
  obtain ⟨hans, hfl⟩ := hf.accept
  refine ⟨hfl, hi.up, fun q hq => hi.down q (List.mem_cons_of_mem _ hq), hi.handler, ?_, ?_⟩
  · intro x hx
    rcases List.mem_append.mp hx with hx | hx
    · exact hi.log x hx
    · rw [List.mem_singleton.mp hx]
      exact hans
  · rw [hi.counted, List.length_append]
    rfl

/-- `HEARTBEAT` を読む。 -/
theorem takeHeartbeat (hi : EndInv D e r (f :: up) h down got n) (hf : f.type = .heartbeat) :
    EndInv D e r up h down got n where
  flight := by
    have hr : ¬ f.IsRequest := by
      rintro (h | h) <;> · rw [hf] at h; exact absurd h (by decide)
    have := hi.flight
    rwa [requests_cons, if_neg hr] at this
  up g hg := hi.up g (List.mem_cons_of_mem _ hg)
  down := hi.down
  handler := hi.handler
  log := hi.log
  counted := hi.counted

/-- 要求を読む。 -/
theorem take (hi : EndInv D e r (f :: up) h down got n) (hr : f.IsRequest) {k : HandlerPc}
    (hreq : k.request = some f) (hok : k.Ok D e) : EndInv D e r up k down got n where
  flight := by
    have := hi.flight
    rw [requests_cons, if_pos hr] at this
    rw [hreq]
    exact this.take.2
  up g hg := hi.up g (List.mem_cons_of_mem _ hg)
  down := hi.down
  handler := hok
  log := hi.log
  counted := hi.counted

/-- 同じ要求の処理を進める。 -/
theorem advance (hi : EndInv D e r up h down got n) {k : HandlerPc}
    (hreq : k.request = h.request) (hok : k.Ok D e) : EndInv D e r up k down got n where
  flight := by
    rw [hreq]
    exact hi.flight
  up := hi.up
  down := hi.down
  handler := hok
  log := hi.log
  counted := hi.counted

/-- 応答を書く。 -/
theorem reply (hi : EndInv D e r up (.reply f p) down got n) :
    EndInv D e r up .idle (down ++ [p]) got n := by
  have hans : D.EndAnswer e f p := hi.handler
  refine ⟨?_, hi.up, ?_, trivial, hi.log, hi.counted⟩
  · rw [replies_append, if_pos hans.type_eq]
    exact hi.flight.reply hans
  · intro q hq
    rcases List.mem_append.mp hq with hq | hq
    · exact hi.down q hq
    · rw [List.mem_singleton.mp hq]
      exact Or.inr hans.type_eq

/-- 頼んでいない frame が届く。 -/
theorem push (hi : EndInv D e r up h down got n) (hp : p.frame.IsControl) :
    EndInv D e r up h (down ++ [p]) got n where
  flight := by
    rw [replies_append, if_neg (not_resp_of_control hp)]
    exact hi.flight
  up := hi.up
  down := by
    intro q hq
    rcases List.mem_append.mp hq with hq | hq
    · exact hi.down q hq
    · rw [List.mem_singleton.mp hq]
      exact Or.inl hp
  handler := hi.handler
  log := hi.log
  counted := hi.counted

end EndInv

/-! ## Cloud の接続 -/

namespace ConnInv

variable {c : Connection} {f : Frame} {p : Packet}

/-- 同じ要求の処理を進める。 -/
theorem advance (hi : ConnInv D c) (pc : ConnectionPc) (hreq : pc.request = c.pc.request)
    (hne : c.pc ≠ .accepted) (hok : pc.Ok D) : ConnInv D { c with pc := pc } where
  flight := by
    show Flight _ _ _ pc.request _
    rw [hreq]
    exact hi.flight
  up := hi.up
  request f hf := hi.request f (by rwa [← hreq])
  unread hup := absurd (hi.unread hup) hne
  pc := hok

theorem opened (hf : f.type = .crossEdgeReq) : ConnInv D ⟨some f, [f], .accepted, []⟩ where
  flight := .sent f
  up := by simpa using hf
  request f hf := by cases hf
  unread _ := rfl
  pc := trivial

theorem readRequest (hi : ConnInv D c) {rest : List Frame} (hup : c.up = f :: rest) :
    f.type = .crossEdgeReq ∧ ConnInv D { c with up := rest, pc := .route f } := by
  have hfl := hi.flight
  rw [hup] at hfl
  have htype : f.type = .crossEdgeReq := hi.up f (by simp [hup])
  refine ⟨htype, hfl.take.2, ?_, ?_, ?_, trivial⟩
  · intro g hg
    exact hi.up g (by simp only [hup]; exact List.mem_cons_of_mem _ hg)
  · intro g hg
    rw [← Option.some.inj hg]
    exact htype
  · exact fun hne => absurd hfl.tail_eq_nil hne

theorem reply (hi : ConnInv D c) (hpc : c.pc = .reply f p) :
    ConnInv D { c with pc := .closed, down := c.down ++ [p] } := by
  have hfl := hi.flight
  have hok := hi.pc
  rw [hpc] at hfl hok
  refine ⟨hfl.reply hok, hi.up, fun g hg => (nomatch hg), fun hup => ?_, trivial⟩
  have := hi.unread hup
  rw [hpc] at this
  cases this

theorem readResponse (hi : ConnInv D c) (hc : c.client = some f) {rest : List Packet}
    (hdown : c.down = p :: rest) :
    D.CrossAnswer f p ∧ ConnInv D { c with client := none, down := rest } := by
  have hfl := hi.flight
  rw [hc, hdown] at hfl
  exact ⟨hfl.accept.1, hfl.accept.2, hi.up, hi.request, hi.unread, hi.pc⟩

end ConnInv

/-! ## Cloud と Edge -/

namespace LinkInv

variable {pcOf : Nat → ConnectionPc} {pusher : PusherPc} {g : Int} {holder : Option Holder}
  {toEdge : List Frame} {control : Option Frame} {toCloud : List Packet} {c : Nat} {f : Frame}
  {p : Packet}

theorem forwardedBy_update {pc : ConnectionPc} (h : holder ≠ some (.connection c)) :
    forwardedBy (update pcOf c pc) holder = forwardedBy pcOf holder := by
  match holder with
  | none | some .hotUpdateLoop => rfl
  | some (.connection d) =>
    have hd : d ≠ c := fun he => h (by rw [he])
    show (update pcOf c pc d).forwarded = (pcOf d).forwarded
    rw [update_of_ne hd]

/-- この Edge の lock に触らない接続の一歩。 -/
theorem move (hi : LinkInv D pcOf pusher g holder toEdge control toCloud) {pc : ConnectionPc}
    (h₁ : (pcOf c).edge ≠ some g) (h₂ : pc.edge ≠ some g) :
    LinkInv D (update pcOf c pc) pusher g holder toEdge control toCloud where
  flight := by
    rw [forwardedBy_update fun h => h₁ ((hi.connection c).mpr h)]
    exact hi.flight
  connection d := by
    by_cases hd : d = c
    · subst hd
      rw [update_self, ← hi.connection d]
      exact iff_of_false h₂ h₁
    · rw [update_of_ne hd]
      exact hi.connection d
  pusher := hi.pusher

/-- lock を持つ接続の一歩。 -/
theorem hold (hi : LinkInv D pcOf pusher g holder toEdge control toCloud)
    (h : (pcOf c).edge = some g) {pc : ConnectionPc} (hpc : pc.edge = some g)
    {toEdge' : List Frame} {toCloud' : List Packet}
    (hfl : Flight (D.FromEdge g) pc.forwarded (crosses toEdge') (crossOf control) toCloud') :
    LinkInv D (update pcOf c pc) pusher g holder toEdge' control toCloud' := by
  have hold := (hi.connection c).mp h
  refine ⟨?_, ?_, hi.pusher⟩
  · rw [hold]
    show Flight _ (update pcOf c pc c).forwarded _ _ _
    rw [update_self]
    exact hfl
  · intro d
    by_cases hd : d = c
    · subst hd
      rw [update_self]
      exact iff_of_true hpc hold
    · rw [update_of_ne hd]
      exact hi.connection d

/-- lock を持つ接続の出している要求。 -/
theorem flight_of_edge (hi : LinkInv D pcOf pusher g holder toEdge control toCloud)
    (h : (pcOf c).edge = some g) :
    Flight (D.FromEdge g) (pcOf c).forwarded (crosses toEdge) (crossOf control) toCloud := by
  have := hi.flight
  rwa [(hi.connection c).mp h] at this

theorem lock (hi : LinkInv D pcOf pusher g none toEdge control toCloud) :
    LinkInv D (update pcOf c (.locked f g)) pusher g (some (.connection c)) toEdge control
      toCloud where
  flight := by
    show Flight _ (update pcOf c (.locked f g) c).forwarded _ _ _
    rw [update_self]
    exact hi.flight
  connection d := by
    by_cases hd : d = c
    · subst hd
      rw [update_self]
      exact iff_of_true rfl rfl
    · rw [update_of_ne hd]
      refine iff_of_false (fun h => by cases (hi.connection d).mp h) ?_
      rintro h
      cases h
      exact hd rfl
  pusher := iff_of_false (fun h => by cases hi.pusher.mp h) (fun h => by cases h)

theorem unlock (hi : LinkInv D pcOf pusher g holder toEdge control toCloud)
    (hpc : pcOf c = .answered f g p) :
    LinkInv D (update pcOf c (.reply f p)) pusher g none toEdge control toCloud := by
  have hedge : (pcOf c).edge = some g := by rw [hpc]; rfl
  have hold := (hi.connection c).mp hedge
  have hfl := hi.flight_of_edge hedge
  rw [hpc] at hfl
  refine ⟨hfl, ?_, ?_⟩
  · intro d
    by_cases hd : d = c
    · subst hd
      rw [update_self]
      exact iff_of_false (fun h => by cases h) (fun h => by cases h)
    · rw [update_of_ne hd]
      refine iff_of_false (fun h => ?_) (fun h => by cases h)
      have := (hi.connection d).mp h
      rw [hold] at this
      cases this
      exact hd rfl
  · refine iff_of_false (fun h => ?_) (fun h => by cases h)
    have := hi.pusher.mp h
    rw [hold] at this
    cases this

/-- 要求でない frame を Edge に書く。 -/
theorem writeOther (hi : LinkInv D pcOf pusher g holder toEdge control toCloud)
    (hf : f.type ≠ .crossEdgeReq) :
    LinkInv D pcOf pusher g holder (toEdge ++ [f]) control toCloud where
  flight := by
    rw [crosses_append, if_neg hf]
    exact hi.flight
  connection := hi.connection
  pusher := hi.pusher

/-- この Edge の lock に触らない `hot_update_loop` の一歩。 -/
theorem movePusher (hi : LinkInv D pcOf pusher g holder toEdge control toCloud)
    {pusher' : PusherPc} (h : pusher'.edge = some g ↔ pusher.edge = some g) :
    LinkInv D pcOf pusher' g holder toEdge control toCloud :=
  ⟨hi.flight, hi.connection, h.trans hi.pusher⟩

theorem lockHot (hi : LinkInv D pcOf pusher g none toEdge control toCloud) :
    LinkInv D pcOf (.locked g f) g (some .hotUpdateLoop) toEdge control toCloud where
  flight := hi.flight
  connection c := iff_of_false (fun h => by cases (hi.connection c).mp h) (fun h => by cases h)
  pusher := iff_of_true rfl rfl

theorem unlockHot (hi : LinkInv D pcOf (.written g) g holder toEdge control toCloud) :
    LinkInv D pcOf .idle g none toEdge control toCloud := by
  have hold := hi.pusher.mp rfl
  have hfl := hi.flight
  rw [hold] at hfl
  refine ⟨hfl, fun c => iff_of_false (fun h => ?_) (fun h => by cases h),
    iff_of_false (fun h => by cases h) (fun h => by cases h)⟩
  have := (hi.connection c).mp h
  rw [hold] at this
  cases this

/-- `cloud_receiver_loop` が frame を読む。 -/
theorem readControl (hi : LinkInv D pcOf pusher g holder (f :: toEdge) none toCloud) :
    LinkInv D pcOf pusher g holder toEdge (some f) toCloud where
  flight := by
    have hfl := hi.flight
    rw [crosses_cons] at hfl
    by_cases hf : f.type = .crossEdgeReq
    · rw [if_pos hf] at hfl
      rw [crossOf_of_cross hf]
      exact hfl.take.2
    · rw [if_neg hf] at hfl
      rw [crossOf_of_other hf]
      exact hfl
  connection := hi.connection
  pusher := hi.pusher

/-- `cloud_receiver_loop` が応答を書く。 -/
theorem serve (hi : LinkInv D pcOf pusher g holder toEdge (some f) toCloud)
    (hf : f.type = .crossEdgeReq) :
    LinkInv D pcOf pusher g holder toEdge none
      (toCloud ++ [⟨handleCloudCrossReq (D.index g) f, .edge g f⟩]) where
  flight := by
    have hfl := hi.flight
    rw [crossOf_of_cross hf] at hfl
    exact hfl.reply rfl
  connection := hi.connection
  pusher := hi.pusher

/-- `cloud_receiver_loop` が要求でない frame を片付ける。 -/
theorem finish (hi : LinkInv D pcOf pusher g holder toEdge (some f) toCloud)
    (hf : f.type ≠ .crossEdgeReq) : LinkInv D pcOf pusher g holder toEdge none toCloud where
  flight := by
    have hfl := hi.flight
    rwa [crossOf_of_other hf] at hfl
  connection := hi.connection
  pusher := hi.pusher

end LinkInv

/-! ## 一歩 -/

theorem servable_crossEdgeReq (e : E) (id : Nat) (key : Key) :
    Servable D e (crossEdgeReq id key) := Or.inr (Or.inl rfl)

theorem servable_edgeFetchReq (e : E) (key : Key) (slot : Int32) :
    Servable D e (edgeFetchReq key slot) := by
  refine Or.inr (Or.inr ⟨rfl, ?_⟩)
  have hlen : 0 + 8 ≤ (edgeFetchReq key slot).body.length := by
    simp [edgeFetchReq, appendU32, appendDouble]
  simp [handleEdgeFetchReq, readDouble, if_pos hlen]

theorem type_sendHotUpdate {cs : CloudServer} {t : Int} {f : Frame}
    (h : cs.sendHotUpdate t = some f) : f.type = .hotUpdate := by
  rw [CloudServer.sendHotUpdate_eq_some h]

theorem type_hotUpdateTarget {routes : Nat → Option E} {f toEnd : Frame} {e : E}
    (h : hotUpdateTarget routes f = some (e, toEnd)) : toEnd.type = .hotUpdate := by
  unfold hotUpdateTarget handleCloudHotUpdate at h
  split at h
  · simp at h
  · simp only [Option.bind_eq_bind, Option.bind_some, Option.bind_eq_some_iff] at h
    obtain ⟨e', -, h⟩ := h
    cases h
    rfl

namespace Network.Inv

variable {s : Network E}

theorem pcOf_update (s : Network E) (c : Nat) (x : Connection) :
    (fun d => (update s.connections c x d).pc) = update s.pcOf c x.pc := by
  funext d
  by_cases hd : d = c
  · subst hd
    rw [update_self, update_self]
  · rw [update_of_ne hd, update_of_ne hd]
    rfl

/-- 一つの接続だけが動く一歩。 -/
theorem setConnection (hi : s.Inv D) (c : Nat) {x : Connection} (hx : ConnInv D x) (d : Nat) :
    ConnInv D (update s.connections c x d) := by
  by_cases hd : d = c
  · subst hd
    rwa [update_self]
  · rw [update_of_ne hd]
    exact hi.connections d

/-- 処理の始まった接続は、もう張られている。 -/
theorem lt_next (hi : s.Inv D) {c : Nat} (hc : s.connections c ≠ .fresh) :
    c < s.nextConnection := by
  by_contra h
  exact hc (hi.fresh c (by omega))

theorem fresh_update (hi : s.Inv D) {c : Nat} (hc : c < s.nextConnection) (x : Connection) (d : Nat)
    (hd : s.nextConnection ≤ d) : update s.connections c x d = .fresh := by
  rw [update_of_ne (by omega)]
  exact hi.fresh d hd

/-- `handle_end` の待っている接続は、Cloud の側だけが動いても変わらない。 -/
theorem client_connection (hi : s.Inv D) {c : Nat} {x : Connection}
    (hx : x.client = (s.connections c).client) (e : E) (f : Frame) (d : Nat)
    (he : s.handlers e = .fetching f d) :
    d < s.nextConnection ∧ (update s.connections c x d).client = some f := by
  refine ⟨(hi.client e f d he).1, ?_⟩
  by_cases hd : d = c
  · subst hd
    rw [update_self, hx]
    exact (hi.client e f d he).2
  · rw [update_of_ne hd]
    exact (hi.client e f d he).2

/--
`handle_connection` の一歩。

`links` の前提は、動いた接続の位置だけを差し替えた後の Cloud と Edge の関係である。
-/
theorem moveConnection (hi : s.Inv D) {c : Nat} {x : Connection}
    (hfresh : s.connections c ≠ .fresh) (hx : ConnInv D x) {holder : Int → Option Holder}
    {toEdge : Int → List Frame} {toCloud : Int → List Packet}
    (hlinks : ∀ g, LinkInv D (update s.pcOf c x.pc) s.pusher g (holder g) (toEdge g) (s.control g)
      (toCloud g)) (hclient : x.client = (s.connections c).client) :
    Network.Inv D
      { s with
        connections := update s.connections c x, holder := holder, toEdge := toEdge
        toCloud := toCloud } where
  ends := hi.ends
  client := hi.client_connection hclient
  owner := hi.owner
  fresh := hi.fresh_update (hi.lt_next hfresh) x
  connections := hi.setConnection c hx
  links := by
    rw [← pcOf_update s c x] at hlinks
    exact hlinks
  pusher := hi.pusher

/-- Cloud と Edge の間だけが動く一歩。 -/
theorem setLinks (hi : s.Inv D) {holder : Int → Option Holder} {toEdge : Int → List Frame}
    {toCloud : Int → List Packet} {control : Int → Option Frame} {pusher : PusherPc}
    {edges unacked : List Int} (hp : pusher.Ok)
    (hlinks : ∀ g, LinkInv D s.pcOf pusher g (holder g) (toEdge g) (control g) (toCloud g)) :
    Network.Inv D
      { s with
        edges := edges, unacked := unacked, holder := holder, toEdge := toEdge
        toCloud := toCloud, control := control, pusher := pusher } where
  ends := hi.ends
  client := hi.client
  owner := hi.owner
  fresh := hi.fresh
  connections := hi.connections
  links := hlinks
  pusher := hp

theorem fresh_connect (hi : s.Inv D) (f : Frame) (c : Nat) (hc : s.nextConnection + 1 ≤ c) :
    update s.connections s.nextConnection ⟨some f, [f], .accepted, []⟩ c = .fresh := by
  rw [update_of_ne (by omega)]
  exact hi.fresh c (by omega)

theorem links_connect (hi : s.Inv D) (f : Frame) (g : Int) :
    LinkInv D
      (fun d => (update s.connections s.nextConnection ⟨some f, [f], .accepted, []⟩ d).pc)
      s.pusher g (s.holder g) (s.toEdge g) (s.control g) (s.toCloud g) := by
  have hpc : s.pcOf s.nextConnection = .accepted := by
    rw [pcOf, hi.fresh _ (le_refl _)]
    rfl
  rw [pcOf_update]
  refine (hi.links g).move ?_ ?_
  · rw [hpc]
    exact nofun
  · exact nofun

theorem links_samePc (hi : s.Inv D) {c : Nat} {x : Connection} (hx : x.pc = s.pcOf c) (g : Int) :
    LinkInv D (fun d => (update s.connections c x d).pc) s.pusher g (s.holder g) (s.toEdge g)
      (s.control g) (s.toCloud g) := by
  rw [pcOf_update, hx, update_eq_self]
  exact hi.links g

/-- `cloud_receiver_loop` が要求でない frame を片付けた後。 -/
theorem links_finish (hi : s.Inv D) {g : Int} {f : Frame} (hpc : s.control g = some f)
    (hf : f.type ≠ .crossEdgeReq) (g' : Int) :
    LinkInv D s.pcOf s.pusher g' (s.holder g') (s.toEdge g') (update s.control g none g')
      (s.toCloud g') := by
  have hlink := hi.links g'
  by_cases hg : g' = g
  · subst hg
    rw [update_self]
    rw [hpc] at hlink
    exact hlink.finish hf
  · rw [update_of_ne hg]
    exact hlink

variable [DecidableEq E]

/-- End `e` の側だけが動く一歩。 -/
theorem setEnd (hi : s.Inv D) (e : E) {r : RequesterPc} {up : List Frame} {h : HandlerPc}
    {down : List Packet} {got : List (Frame × Packet)} {n : Nat}
    (hend : EndInv D e r up h down got n) (e' : E) :
    EndInv D e' (update s.ends e r e') (update s.up e up e') (update s.handlers e h e')
      (update s.down e down e') (update s.responses e got e') (update s.issued e n e') := by
  by_cases he : e' = e
  · subst he
    simpa only [update_self] using hend
  · simpa only [update_of_ne he] using hi.ends e'

/-- 応答を待たない位置に移った `handle_end` は、接続を持たない。 -/
theorem fetching_of_update {e e' : E} {h : HandlerPc} (hne : ∀ f c, h ≠ .fetching f c) {f : Frame}
    {c : Nat} (he' : update s.handlers e h e' = .fetching f c) :
    e' ≠ e ∧ s.handlers e' = .fetching f c := by
  by_cases he : e' = e
  · subst he
    rw [update_self] at he'
    exact absurd he' (hne f c)
  · rw [update_of_ne he] at he'
    exact ⟨he, he'⟩

/-- `handle_end` が応答を待たない位置に移る一歩。 -/
theorem setHandler (hi : s.Inv D) (e : E) {r : RequesterPc} {up : List Frame} {h : HandlerPc}
    {down : List Packet} {got : List (Frame × Packet)} {n : Nat}
    (hend : EndInv D e r up h down got n) (hne : ∀ f c, h ≠ .fetching f c) :
    Network.Inv D
      { s with
        ends := update s.ends e r, up := update s.up e up, handlers := update s.handlers e h
        down := update s.down e down, responses := update s.responses e got
        issued := update s.issued e n } where
  ends := hi.setEnd e hend
  client e' f c he' := hi.client e' f c (fetching_of_update hne he').2
  owner e₁ e₂ f₁ f₂ c h₁ h₂ :=
    hi.owner e₁ e₂ f₁ f₂ c (fetching_of_update hne h₁).2 (fetching_of_update hne h₂).2
  fresh := hi.fresh
  connections := hi.connections
  links := hi.links
  pusher := hi.pusher

/-- `handle_end` の動かない一歩。 -/
theorem setRequester (hi : s.Inv D) (e : E) (routes : Int → Nat → Option E) {r : RequesterPc}
    {up : List Frame} {down : List Packet} {got : List (Frame × Packet)} {n : Nat}
    (hend : EndInv D e r up (s.handlers e) down got n) :
    Network.Inv D
      { s with
        ends := update s.ends e r, up := update s.up e up
        down := update s.down e down, responses := update s.responses e got
        issued := update s.issued e n, routes := routes } where
  ends := by
    have := hi.setEnd e hend
    rwa [update_eq_self] at this
  client := hi.client
  owner := hi.owner
  fresh := hi.fresh
  connections := hi.connections
  links := hi.links
  pusher := hi.pusher

theorem stepEnd {s' : Network E} (hi : s.Inv D) {e : E} (h : NetworkStep D s (.node e) s') :
    s'.Inv D := by
  cases h with
  | heartbeat _ id hpc =>
    have hend := (hi.ends e).heartbeat (f := ⟨.heartbeat, appendU32 [] id⟩) rfl
    have := hi.setRequester e s.routes hend
    simpa only [update_eq_self] using this
  | crossEdgeFetch _ id key hpc =>
    have hend := hi.ends e
    rw [hpc] at hend
    have := hi.setRequester e s.routes (hend.issue (Or.inl rfl) (servable_crossEdgeReq e id key))
    simpa only [update_eq_self] using this
  | edgeFetch _ key slot hpc =>
    have hend := hi.ends e
    rw [hpc] at hend
    have := hi.setRequester e s.routes (hend.issue (Or.inr rfl) (servable_edgeFetchReq e key slot))
    simpa only [update_eq_self] using this
  | drain _ p rest hpc hdown =>
    have hend := hi.ends e
    rw [hpc, hdown] at hend
    have := hi.setRequester e s.routes (hend.skip hend.not_resp)
    rw [← hpc] at this
    simpa only [update_eq_self] using this
  | accept _ req p rest hpc hdown htype =>
    have hend := hi.ends e
    rw [hpc, hdown] at hend
    have := hi.setRequester e s.routes (hend.accept htype)
    simpa only [update_eq_self] using this
  | applyControl _ req p rest hpc hdown htype =>
    have hend := hi.ends e
    rw [hdown] at hend
    have := hi.setRequester e s.routes (hend.skip (not_resp_of_control htype))
    simpa only [update_eq_self] using this
  | giveUp _ req p rest hpc hdown htype hctl =>
    -- 届く frame は頼んでいない frame か応答だけなので、この枝には来ない
    rcases (hi.ends e).down p (by rw [hdown]; exact List.mem_cons_self) with h | h
    · exact absurd h hctl
    · exact absurd h htype

/-! 接続を張る。新しい接続の番号は、ほかの `handle_end` の待つどの番号よりも大きい。 -/

theorem client_connect (hi : s.Inv D) (e : E) (f : Frame) (e' : E) (f' : Frame) (c : Nat)
    (he' : update s.handlers e (.fetching f s.nextConnection) e' = .fetching f' c) :
    c < s.nextConnection + 1 ∧
      (update s.connections s.nextConnection ⟨some f, [f], .accepted, []⟩ c).client = some f' := by
  by_cases he : e' = e
  · subst he
    rw [update_self] at he'
    cases he'
    exact ⟨by omega, by rw [update_self]⟩
  · rw [update_of_ne he] at he'
    obtain ⟨hlt, hc⟩ := hi.client e' f' c he'
    exact ⟨by omega, by rw [update_of_ne (by omega)]; exact hc⟩

theorem owner_connect (hi : s.Inv D) (e : E) (f : Frame) (e₁ e₂ : E) (f₁ f₂ : Frame) (c : Nat)
    (h₁ : update s.handlers e (.fetching f s.nextConnection) e₁ = .fetching f₁ c)
    (h₂ : update s.handlers e (.fetching f s.nextConnection) e₂ = .fetching f₂ c) : e₁ = e₂ := by
  by_cases h₁e : e₁ = e <;> by_cases h₂e : e₂ = e
  · rw [h₁e, h₂e]
  · subst h₁e
    rw [update_self] at h₁
    rw [update_of_ne h₂e] at h₂
    cases h₁
    exact absurd (hi.client e₂ f₂ _ h₂).1 (by omega)
  · subst h₂e
    rw [update_self] at h₂
    rw [update_of_ne h₁e] at h₁
    cases h₂
    exact absurd (hi.client e₁ f₁ _ h₁).1 (by omega)
  · rw [update_of_ne h₁e] at h₁
    rw [update_of_ne h₂e] at h₂
    exact hi.owner e₁ e₂ f₁ f₂ c h₁ h₂

theorem client_readResponse (hi : s.Inv D) {e : E} {f : Frame} {c : Nat} {h : HandlerPc}
    (hpc : s.handlers e = .fetching f c) (hne : ∀ f c, h ≠ .fetching f c) (x : Connection) (e' : E)
    (f' : Frame) (c' : Nat) (he' : update s.handlers e h e' = .fetching f' c') :
    c' < s.nextConnection ∧ (update s.connections c x c').client = some f' := by
  obtain ⟨he, he'⟩ := fetching_of_update hne he'
  obtain ⟨hlt, hc'⟩ := hi.client e' f' c' he'
  have hcc : c' ≠ c := by
    rintro rfl
    exact he (hi.owner e' e f' f c' he' hpc)
  rw [update_of_ne hcc]
  exact ⟨hlt, hc'⟩

theorem stepHandler {s' : Network E} (hi : s.Inv D) {e : E}
    (h : NetworkStep D s (.handler e) s') : s'.Inv D := by
  cases h with
  | registerEnd _ f rest hpc hup htype =>
    have hend := hi.ends e
    rw [hup] at hend
    have := hi.setRequester e
      (update s.routes (D.home e) (registerEnd (s.routes (D.home e)) e f))
      (hend.takeHeartbeat htype)
    simpa only [update_eq_self] using this
  | takeCross _ f rest hpc hup htype =>
    have hend := hi.ends e
    rw [hup] at hend
    have := hi.setHandler e (hend.take (Or.inl htype) (k := .connect f) rfl htype)
      (fun f c h => by cases h)
    simpa only [update_eq_self] using this
  | takeFetch _ f resp rest hpc hup htype hresp =>
    have hend := hi.ends e
    rw [hup] at hend
    have hans : D.EndAnswer e f ⟨resp, .edge (D.home e) f⟩ := Or.inr ⟨htype, rfl, hresp⟩
    have := hi.setHandler e (hend.take (Or.inr htype) (k := .reply f _) rfl hans)
      (fun f c h => by cases h)
    simpa only [update_eq_self] using this
  | close _ f rest hpc hup hbeat hcross hfetch =>
    -- End の書く frame はどれも応答できるので、この枝には来ない
    rcases (hi.ends e).up f (by rw [hup]; exact List.mem_cons_self) with h | h | ⟨h, hne⟩
    · exact absurd h hbeat
    · exact absurd h hcross
    · exact absurd (hfetch h) hne
  | connect _ f hpc =>
    have hend := hi.ends e
    rw [hpc] at hend
    have hcross : f.type = .crossEdgeReq := hend.handler
    have hset := hi.setEnd e (hend.advance (k := .fetching f s.nextConnection) rfl hcross)
    simp only [update_eq_self] at hset
    exact ⟨hset, hi.client_connect e f, hi.owner_connect e f, hi.fresh_connect f,
      hi.setConnection _ (.opened hcross), hi.links_connect f, hi.pusher⟩
  | readResponse _ f c p rest hpc hdown =>
    have hend := hi.ends e
    rw [hpc] at hend
    obtain ⟨hlt, hclient⟩ := hi.client e f c hpc
    obtain ⟨hans, hconn⟩ := (hi.connections c).readResponse hclient hdown
    have hset := hi.setEnd e (hend.advance (k := .reply f p) rfl (Or.inl ⟨hend.handler, hans⟩))
    simp only [update_eq_self] at hset
    have hne (f' : Frame) (c' : Nat) : HandlerPc.reply f p ≠ .fetching f' c' := fun h => by cases h
    exact ⟨hset, hi.client_readResponse hpc hne _,
      fun e₁ e₂ f₁ f₂ d h₁ h₂ => hi.owner e₁ e₂ f₁ f₂ d (fetching_of_update hne h₁).2
        (fetching_of_update hne h₂).2,
      hi.fresh_update hlt _, hi.setConnection c hconn, hi.links_samePc rfl, hi.pusher⟩
  | replyEnd _ f p hpc =>
    have hend := hi.ends e
    rw [hpc] at hend
    have := hi.setHandler e hend.reply (fun f c h => by cases h)
    simpa only [update_eq_self] using this

theorem stepConnection {s' : Network E} (hi : s.Inv D) {c : Nat}
    (h : NetworkStep D s (.connection c) s') : s'.Inv D := by
  -- 動いた位置が lock に触らないとき、どの Edge との関係も変わらない
  have hmove {pc : ConnectionPc} (h₁ : (s.pcOf c).edge = none) (h₂ : pc.edge = none) (g : Int) :
      LinkInv D (update s.pcOf c pc) s.pusher g (s.holder g) (s.toEdge g) (s.control g)
        (s.toCloud g) :=
    (hi.links g).move (by rw [h₁]; exact nofun) (by rw [h₂]; exact nofun)
  have hconn := hi.connections c
  cases h with
  | readRequest _ f rest hpc hup =>
    obtain ⟨htype, hx⟩ := hconn.readRequest hup
    rw [if_pos htype]
    refine hi.moveConnection ?_ hx (hmove (by rw [Network.pcOf, hpc]; rfl) rfl) rfl
    intro hf
    rw [hf] at hup
    cases hup
  | routeRequest _ f hpc =>
    have hne : s.connections c ≠ .fresh := fun h => by rw [h] at hpc; cases hpc
    have hedge : (s.pcOf c).edge = none := by rw [Network.pcOf, hpc]; rfl
    cases hr : D.cloud.routeCrossEdgeReq f with
    | error resp =>
      have hans : D.CrossAnswer f ⟨resp, .cloud f⟩ := Or.inl ⟨resp, hr, rfl⟩
      exact hi.moveConnection hne (hconn.advance (.reply f _) (by rw [hpc]; rfl)
        (by rw [hpc]; exact nofun) hans)
        (hmove hedge rfl) rfl
    | ok g =>
      exact hi.moveConnection hne (hconn.advance (.edgeConn f g) (by rw [hpc]; rfl)
        (by rw [hpc]; exact nofun) hr)
        (hmove hedge rfl) rfl
  | edgeConn _ f g hpc =>
    have hne : s.connections c ≠ .fresh := fun h => by rw [h] at hpc; cases hpc
    have hedge : (s.pcOf c).edge = none := by rw [Network.pcOf, hpc]; rfl
    have hok : D.cloud.routeCrossEdgeReq f = .ok g := by
      have := hconn.pc
      rwa [hpc] at this
    by_cases hg : g ∈ s.edges
    · rw [if_pos hg]
      exact hi.moveConnection hne (hconn.advance (.locking f g) (by rw [hpc]; rfl)
      (by rw [hpc]; exact nofun) hok)
        (hmove hedge rfl) rfl
    · rw [if_neg hg]
      have hans : D.CrossAnswer f ⟨makeFetchResp .error 0, .cloud f⟩ :=
        Or.inr ⟨g, hok, Or.inr rfl⟩
      exact hi.moveConnection hne (hconn.advance (.reply f _) (by rw [hpc]; rfl)
        (by rw [hpc]; exact nofun) hans)
        (hmove hedge rfl) rfl
  | lock _ f g hpc hfree =>
    have hne : s.connections c ≠ .fresh := fun h => by rw [h] at hpc; cases hpc
    have hok : D.cloud.routeCrossEdgeReq f = .ok g := by
      have := hconn.pc
      rwa [hpc] at this
    refine hi.moveConnection hne (hconn.advance (.locked f g) (by rw [hpc]; rfl)
      (by rw [hpc]; exact nofun) hok)
      (fun g' => ?_) rfl
    have hlink := hi.links g'
    by_cases hg : g' = g
    · subst hg
      rw [update_self]
      rw [hfree] at hlink
      exact hlink.lock
    · rw [update_of_ne hg]
      refine hlink.move ?_ ?_
      · rw [Network.pcOf, hpc]
        exact nofun
      · exact fun h => hg (Option.some.inj h).symm
  | forward _ f g hpc =>
    have hne : s.connections c ≠ .fresh := fun h => by rw [h] at hpc; cases hpc
    have hok : D.cloud.routeCrossEdgeReq f = .ok g := by
      have := hconn.pc
      rwa [hpc] at this
    have htype : f.type = .crossEdgeReq := hconn.request f (by rw [hpc]; rfl)
    refine hi.moveConnection hne (hconn.advance (.waiting f g) (by rw [hpc]; rfl)
      (by rw [hpc]; exact nofun) hok)
      (fun g' => ?_) rfl
    have hlink := hi.links g'
    by_cases hg : g' = g
    · subst hg
      have hedge : (s.pcOf c).edge = some g' := by rw [Network.pcOf, hpc]; rfl
      have hfl := hlink.flight_of_edge hedge
      rw [Network.pcOf, hpc] at hfl
      rw [update_self]
      refine hlink.hold hedge rfl ?_
      rw [crosses_append, if_pos htype]
      exact hfl.send f
    · rw [update_of_ne hg]
      refine hlink.move ?_ ?_
      · rw [Network.pcOf, hpc]
        exact fun h => hg (Option.some.inj h).symm
      · exact fun h => hg (Option.some.inj h).symm
  | readAnswer _ f g p rest hpc hback =>
    have hne : s.connections c ≠ .fresh := fun h => by rw [h] at hpc; cases hpc
    have hok : D.cloud.routeCrossEdgeReq f = .ok g := by
      have := hconn.pc
      rwa [hpc] at this
    have hedge : (s.pcOf c).edge = some g := by rw [Network.pcOf, hpc]; rfl
    have hfl := (hi.links g).flight_of_edge hedge
    rw [Network.pcOf, hpc, hback] at hfl
    obtain ⟨hans, hfl⟩ := hfl.accept
    refine hi.moveConnection hne
      (hconn.advance (.answered f g p) (by rw [hpc]; rfl) (by rw [hpc]; exact nofun) ⟨hok, hans⟩)
      (fun g' => ?_) rfl
    by_cases hg : g' = g
    · subst hg
      rw [update_self]
      exact (hi.links g').hold hedge rfl hfl
    · rw [update_of_ne hg]
      refine (hi.links g').move ?_ ?_
      · rw [Network.pcOf, hpc]
        exact fun h => hg (Option.some.inj h).symm
      · exact fun h => hg (Option.some.inj h).symm
  | unlock _ f g p hpc =>
    have hne : s.connections c ≠ .fresh := fun h => by rw [h] at hpc; cases hpc
    have hok : D.cloud.routeCrossEdgeReq f = .ok g ∧ D.FromEdge g f p := by
      have := hconn.pc
      rwa [hpc] at this
    refine hi.moveConnection hne
      (hconn.advance (.reply f p) (by rw [hpc]; rfl) (by rw [hpc]; exact nofun)
        (hok.2.crossAnswer hok.1)) (fun g' => ?_) rfl
    by_cases hg : g' = g
    · subst hg
      rw [update_self]
      exact (hi.links g').unlock hpc
    · rw [update_of_ne hg]
      refine (hi.links g').move ?_ ?_
      · rw [Network.pcOf, hpc]
        exact fun h => hg (Option.some.inj h).symm
      · exact nofun
  | replyConnection _ f p hpc =>
    have hne : s.connections c ≠ .fresh := fun h => by rw [h] at hpc; cases hpc
    exact hi.moveConnection hne (hconn.reply hpc) (hmove (by rw [Network.pcOf, hpc]; rfl) rfl) rfl

theorem stepRegistration {s' : Network E} (hi : s.Inv D) {g : Int}
    (h : NetworkStep D s (.registration g) s') : s'.Inv D := by
  cases h with
  | registerEdge _ hnew => exact hi.setLinks hi.pusher hi.links
  | ack _ hun =>
    refine hi.setLinks hi.pusher fun g' => ?_
    by_cases hg : g' = g
    · subst hg
      rw [update_self]
      exact (hi.links g').writeOther (f := ⟨.heartbeatAck, _⟩) (show MsgType.mk 10 ≠ ⟨8⟩ by decide)
    · rw [update_of_ne hg]
      exact hi.links g'

theorem stepPusher {s' : Network E} (hi : s.Inv D) (h : NetworkStep D s .hotUpdateLoop s') :
    s'.Inv D := by
  have hok := hi.pusher
  cases h with
  | selectHot target f hpc hf =>
    refine hi.setLinks (type_sendHotUpdate hf) fun g => (hi.links g).movePusher ?_
    rw [hpc]
    exact Iff.rfl
  | lockHot g f hpc hfree =>
    rw [hpc] at hok
    refine hi.setLinks hok fun g' => ?_
    have hlink := hi.links g'
    by_cases hg : g' = g
    · subst hg
      rw [update_self]
      rw [hfree] at hlink
      exact hlink.lockHot
    · rw [update_of_ne hg]
      refine hlink.movePusher ?_
      rw [hpc]
      exact iff_of_false (fun h => hg (Option.some.inj h).symm) nofun
  | writeHot g f hpc =>
    rw [hpc] at hok
    refine hi.setLinks trivial fun g' => ?_
    have hlink : LinkInv D s.pcOf (.written g) g' _ _ _ _ :=
      (hi.links g').movePusher (by rw [hpc]; exact Iff.rfl)
    by_cases hg : g' = g
    · subst hg
      rw [update_self]
      refine hlink.writeOther ?_
      rw [show f.type = .hotUpdate from hok]
      decide
    · rw [update_of_ne hg]
      exact hlink
  | unlockHot g hpc =>
    refine hi.setLinks trivial fun g' => ?_
    have hlink := hi.links g'
    rw [hpc] at hlink
    by_cases hg : g' = g
    · subst hg
      rw [update_self]
      exact hlink.unlockHot
    · rw [update_of_ne hg]
      refine hlink.movePusher ?_
      exact iff_of_false nofun (fun h => hg (Option.some.inj h).symm)

theorem stepControl {s' : Network E} (hi : s.Inv D) {g : Int}
    (h : NetworkStep D s (.control g) s') : s'.Inv D := by
  cases h with
  | readControl _ f rest hpc hto =>
    refine hi.setLinks hi.pusher fun g' => ?_
    have hlink := hi.links g'
    by_cases hg : g' = g
    · subst hg
      rw [update_self, update_self]
      rw [hpc, hto] at hlink
      exact hlink.readControl
    · rw [update_of_ne hg, update_of_ne hg]
      exact hlink
  | forwardHotUpdate _ f hpc htype =>
    have hother : f.type ≠ .crossEdgeReq := by rw [htype]; decide
    have hctl : Network.Inv D { s with control := update s.control g none } :=
      hi.setLinks hi.pusher fun g' => hi.links_finish hpc hother g'
    cases ht : hotUpdateTarget (s.routes g) f with
    | none => exact hctl
    | some x =>
      obtain ⟨e, toEnd⟩ := x
      have hhot : toEnd.IsControl := Or.inr (Or.inl (type_hotUpdateTarget ht))
      have hend := (hi.ends e).push (p := ⟨toEnd, .none⟩) hhot
      have := hctl.setRequester e s.routes hend
      simp only [update_eq_self] at this
      exact this
  | serveCross _ f hpc htype =>
    refine hi.setLinks hi.pusher fun g' => ?_
    have hlink := hi.links g'
    by_cases hg : g' = g
    · subst hg
      rw [update_self, update_self]
      rw [hpc] at hlink
      exact hlink.serve htype
    · rw [update_of_ne hg, update_of_ne hg]
      exact hlink
  | ignoreControl _ f hpc hhot hcross =>
    exact hi.setLinks hi.pusher fun g' => hi.links_finish hpc hcross g'

/-- **どの一歩も不変量を保つ。** -/
theorem step {s' : Network E} {who : Party E} (hi : s.Inv D) (h : NetworkStep D s who s') :
    s'.Inv D := by
  cases who with
  | node e => exact hi.stepEnd h
  | handler e => exact hi.stepHandler h
  | connection c => exact hi.stepConnection h
  | hotUpdateLoop => exact hi.stepPusher h
  | registration g => exact hi.stepRegistration h
  | control g => exact hi.stepControl h

end Network.Inv

theorem inv_start (D : Deployment E) : Network.Inv D D.start where
  ends e := by
    refine ⟨?_, nofun, ?_, trivial, nofun, rfl⟩
    · have hnone : replies (D.greeting e) = [] := by
        unfold Deployment.greeting replies
        cases D.snapshotInfo e <;> rfl
      show Flight _ none [] none (replies (D.greeting e))
      rw [hnone]
      exact .quiet
    · intro p hp
      left
      have hp' : p ∈ D.greeting e := hp
      unfold Deployment.greeting at hp'
      rcases List.mem_cons.mp hp' with rfl | hp'
      · exact Or.inl rfl
      · obtain ⟨body, -, rfl⟩ : ∃ body ∈ D.snapshotInfo e,
            (⟨⟨.rdmaSnapshotInfo, body⟩, .none⟩ : Packet) = p := by simpa using hp'
        exact Or.inr (Or.inr rfl)
  client := nofun
  owner := nofun
  fresh _ _ := rfl
  connections _ := ⟨.quiet, nofun, nofun, fun h => absurd rfl h, trivial⟩
  links _ := ⟨.quiet, fun _ => iff_of_false nofun nofun, iff_of_false nofun nofun⟩
  pusher := trivial

end Plin
