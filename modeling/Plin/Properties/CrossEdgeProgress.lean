import Plin.Properties.CrossEdge

/-!
# 要求は応答に行き着く

応答を待つ End から応答までの**道のり**（`Network.distance`）を、要求の在る段階と、行き先の Edge の
接続に溜まっているものの重さで測る。どの状態でも、道のりを縮める一歩が在る（`Network.Inv.progress`）。
lock を待つ接続では、lock を持つ者を進める一歩がそれである（`Network.Inv.holder_progress`）。
-/

namespace Plin

open Infra Function

variable {E : Type}

/-! ## 道のり -/

/-- lock を放すまでの重さ。 -/
def ConnectionPc.weight : ConnectionPc → Nat
  | .locked _ _ => 12
  | .waiting _ _ => 5
  | .answered _ _ _ => 2
  | _ => 0

def PusherPc.weight : PusherPc → Nat
  | .locked _ _ => 8
  | .written _ => 2
  | _ => 0

def lockWeight (pcOf : Nat → ConnectionPc) (pusher : PusherPc) : Option Holder → Nat
  | none => 0
  | some (.connection c) => (pcOf c).weight
  | some .hotUpdateLoop => pusher.weight

/-- 応答を返すまでの段階。 -/
def ConnectionPc.stage : ConnectionPc → Nat
  | .accepted => 7
  | .route _ => 6
  | .edgeConn _ _ => 5
  | .locking _ _ => 4
  | .locked _ _ | .waiting _ _ | .answered _ _ _ => 3
  | .reply _ _ => 2
  | .closed => 1

/-- `handle_end` が応答を書くまでの段階。 -/
def HandlerPc.stage (up : List Frame) (pcOf : Nat → ConnectionPc) : HandlerPc → Nat
  | .idle => if requests up = [] then 0 else 200 + up.length
  | .connect _ => 180
  | .fetching _ c => 20 + 20 * (pcOf c).stage
  | .reply _ _ => 15
  | .closed => 0

/-- 要求 `f` の行き先の Edge。 -/
def Deployment.targetEdge (D : Deployment E) (f : Frame) : Int :=
  match D.cloud.routeCrossEdgeReq f with
  | .ok g => g
  | .error _ => 0

namespace Network

/-- Edge `g` の接続に溜まっているものと、End `e` に届いているものの重さ。 -/
def linkWeight (s : Network E) (e : E) (g : Int) : Nat :=
  (s.down e).length + 4 * (s.toEdge g).length + 2 * (s.control g).toList.length +
    lockWeight s.pcOf s.pusher (s.holder g)

/-- 応答までの道のり。 -/
def distance (s : Network E) (e : E) (g : Int) : Nat :=
  s.linkWeight e g + (s.handlers e).stage (s.up e) s.pcOf

/-- lock を持つ者の一歩で、End `e` の要求の側は動かない。 -/
structure Undisturbed (s s' : Network E) : Prop where
  ends : s'.ends = s.ends
  up : s'.up = s.up
  handlers : s'.handlers = s.handlers
  responses : s'.responses = s.responses
  stage : ∀ c, (s'.pcOf c).stage ≤ (s.pcOf c).stage

/-- 一歩のあと、End `e` は応答を受け取ったか、応答に近づいている。 -/
def Closer (s : Network E) (e : E) (f : Frame) (g : Int) (s' : Network E) : Prop :=
  (s'.ends e = .idle ∧ ∃ p, s'.responses e = s.responses e ++ [(f, p)]) ∨
  (s'.ends e = .waiting f ∧ s'.responses e = s.responses e ∧ s'.distance e g < s.distance e g)

end Network

variable {D : Deployment E} {s : Network E}

theorem stage_update {pcOf : Nat → ConnectionPc} {c : Nat} {pc : ConnectionPc}
    (h : pc.stage ≤ (pcOf c).stage) (d : Nat) : (update pcOf c pc d).stage ≤ (pcOf d).stage := by
  by_cases hd : d = c
  · subst hd
    rwa [update_self]
  · rw [update_of_ne hd]

theorem lockWeight_update {pcOf : Nat → ConnectionPc} {pusher : PusherPc} {c : Nat}
    {pc : ConnectionPc} {holder : Option Holder} (h : holder ≠ some (.connection c)) :
    lockWeight (update pcOf c pc) pusher holder = lockWeight pcOf pusher holder := by
  match holder with
  | none | some .hotUpdateLoop => rfl
  | some (.connection d) =>
    have hd : d ≠ c := fun he => h (by rw [he])
    show (update pcOf c pc d).weight = (pcOf d).weight
    rw [update_of_ne hd]

namespace Network.Inv

/-- lock に触らない接続の一歩で、重さは変わらない。 -/
theorem linkWeight_connection (hi : s.Inv D) {c : Nat} (hedge : (s.pcOf c).edge = none)
    (x : Connection) (e : E) (g : Int) :
    linkWeight { s with connections := update s.connections c x } e g = s.linkWeight e g := by
  have hne : s.holder g ≠ some (.connection c) := fun h => by
    rw [((hi.links g).connection c).mpr h] at hedge
    cases hedge
  have hpcs : pcOf { s with connections := update s.connections c x } = update s.pcOf c x.pc :=
    pcOf_update s c x
  simp only [linkWeight, hpcs, lockWeight_update hne]

theorem linkWeight_samePc {c : Nat} {x : Connection} (hx : x.pc = s.pcOf c) (e : E) (g : Int) :
    linkWeight { s with connections := update s.connections c x } e g = s.linkWeight e g := by
  have hpcs : pcOf { s with connections := update s.connections c x } = s.pcOf := by
    refine (pcOf_update s c x).trans ?_
    rw [hx, update_eq_self]
  simp only [linkWeight, hpcs]

/-- 重さのほとんど変わらない一歩。 -/
theorem closer_of_stage {s' : Network E} {e : E} {f : Frame} {g : Int}
    (hends : s'.ends e = .waiting f) (hresp : s'.responses e = s.responses e)
    (hw : s'.linkWeight e g ≤ s.linkWeight e g + 14)
    (hs : (s'.handlers e).stage (s'.up e) s'.pcOf + 14 < (s.handlers e).stage (s.up e) s.pcOf) :
    s.Closer e f g s' :=
  Or.inr ⟨hends, hresp, by unfold distance; omega⟩

theorem stage_pos (pc : ConnectionPc) : 0 < pc.stage := by
  cases pc <;> exact Nat.zero_lt_succ _

theorem targetEdge_eq {f : Frame} {g : Int} (h : D.cloud.routeCrossEdgeReq f = .ok g) :
    D.targetEdge f = g := by
  rw [Deployment.targetEdge, h]

/-- lock を持つ者の一歩も、待つ End を近づける。 -/
theorem closer_of_undisturbed {s' : Network E} {e : E} {f : Frame} {c : Nat} {g : Int}
    (hu : s.Undisturbed s') (hw : s'.linkWeight e g < s.linkWeight e g)
    (hwait : s.ends e = .waiting f) (hpc : s.handlers e = .fetching f c) : s.Closer e f g s' := by
  refine Or.inr ⟨by rw [hu.ends, hwait], by rw [hu.responses], ?_⟩
  have hle := hu.stage c
  unfold distance
  rw [hu.handlers, hu.up, hpc, HandlerPc.stage, HandlerPc.stage]
  omega

variable [DecidableEq E]

/-- `HOT_UPDATE` の中継で End に届く frame は、高々一つ増える。 -/
theorem length_sendToEnd (down : E → List Packet) (target : Option (E × Frame)) (e : E) :
    (sendToEnd down target e).length ≤ (down e).length + 1 := by
  match target with
  | none => exact Nat.le_succ _
  | some (e', toEnd) =>
    by_cases he : e = e'
    · subst he
      rw [sendToEnd, update_self, List.length_append]
      rfl
    · rw [sendToEnd, update_of_ne he]
      omega

/-- `cloud_receiver_loop` の読んだ frame を片付ける。 -/
theorem control_progress (s : Network E) {x : Frame} {g : Int} (hc : s.control g = some x) (e : E) :
    ∃ who s', NetworkStep D s who s' ∧ s.Undisturbed s' ∧ s'.linkWeight e g < s.linkWeight e g := by
  have hsame : ∀ c, (s.pcOf c).stage ≤ (s.pcOf c).stage := fun _ => le_rfl
  by_cases hhot : x.type = .hotUpdate
  · refine ⟨_, _, .forwardHotUpdate s g x hc hhot, ⟨rfl, rfl, rfl, rfl, hsame⟩, ?_⟩
    have := length_sendToEnd s.down (hotUpdateTarget (s.routes g) x) e
    simp only [linkWeight, update_self, hc, Option.toList_none, Option.toList_some,
      List.length_nil, List.length_singleton]
    show _ + lockWeight s.pcOf s.pusher (s.holder g) < _ + lockWeight s.pcOf s.pusher (s.holder g)
    omega
  · have hless :
        2 * (update s.control g none g).toList.length < 2 * (s.control g).toList.length := by
      rw [update_self, hc]
      exact Nat.zero_lt_succ 1
    by_cases hcross : x.type = .crossEdgeReq
    · refine ⟨_, _, .serveCross s g x hc hcross, ⟨rfl, rfl, rfl, rfl, hsame⟩, ?_⟩
      exact Nat.add_lt_add_right (Nat.add_lt_add_left hless _) _
    · refine ⟨_, _, .ignoreControl s g x hc hhot hcross, ⟨rfl, rfl, rfl, rfl, hsame⟩, ?_⟩
      exact Nat.add_lt_add_right (Nat.add_lt_add_left hless _) _

/-- lock を持つ接続の一歩で、重さは差の分だけ減る。 -/
theorem connection_progress (hi : s.Inv D) {c : Nat} {g : Int} (hedge : (s.pcOf c).edge = some g)
    {who : Party E} {s' : Network E} (hstep : NetworkStep D s who s') {x : Connection}
    (hconn : s'.connections = update s.connections c x)
    (hsame : s'.ends = s.ends ∧ s'.up = s.up ∧ s'.handlers = s.handlers ∧
      s'.responses = s.responses ∧ s'.down = s.down ∧ s'.control = s.control)
    (hstage : x.pc.stage ≤ (s.pcOf c).stage)
    (hweight :
      4 * (s'.toEdge g).length + lockWeight (update s.pcOf c x.pc) s'.pusher (s'.holder g) <
        4 * (s.toEdge g).length + (s.pcOf c).weight) (e : E) :
    ∃ who s', NetworkStep D s who s' ∧ s.Undisturbed s' ∧ s'.linkWeight e g < s.linkWeight e g := by
  obtain ⟨h₁, h₂, h₃, h₄, hdown, hcontrol⟩ := hsame
  have hpcs : s'.pcOf = update s.pcOf c x.pc := by
    rw [← pcOf_update s c x, ← hconn]
    rfl
  refine ⟨who, s', hstep, ⟨h₁, h₂, h₃, h₄, ?_⟩, ?_⟩
  · rw [hpcs]
    exact stage_update hstage
  · have hold := ((hi.links g).connection c).mp hedge
    have hlock : lockWeight s.pcOf s.pusher (s.holder g) = (s.pcOf c).weight := by
      rw [hold]
      rfl
    simp only [linkWeight, hdown, hcontrol, hpcs, hlock]
    omega

/-- 応答を待っている接続の、Edge の側か Cloud の側を進める。 -/
theorem waiting_progress (hi : s.Inv D) {c : Nat} {f : Frame} {g : Int}
    (hpc : s.pcOf c = .waiting f g) (e : E) :
    ∃ who s', NetworkStep D s who s' ∧ s.Undisturbed s' ∧ s'.linkWeight e g < s.linkWeight e g := by
  have hedge : (s.pcOf c).edge = some g := by rw [hpc]; rfl
  have hold := ((hi.links g).connection c).mp hedge
  have hfl := (hi.links g).flight_of_edge hedge
  rw [hpc] at hfl
  cases hc : s.control g with
  | some x => exact control_progress s hc e
  | none =>
    cases hto : s.toEdge g with
    | cons x rest =>
      refine ⟨_, _, .readControl s g x rest hc hto, ⟨rfl, rfl, rfl, rfl, fun _ => le_rfl⟩, ?_⟩
      simp only [linkWeight, update_self, hc, hto, Option.toList_none, Option.toList_some,
        List.length_nil, List.length_cons]
      show _ + lockWeight s.pcOf s.pusher (s.holder g) < _ + lockWeight s.pcOf s.pusher (s.holder g)
      omega
    | nil =>
      -- 要求は Edge の側に無いので、応答が返ってきている
      rw [hc, hto] at hfl
      cases hback : s.toCloud g with
      | nil =>
        rw [hback] at hfl
        cases hfl
      | cons p rest =>
        refine hi.connection_progress hedge (.readAnswer s c f g p rest hpc hback) rfl
          ⟨rfl, rfl, rfl, rfl, rfl, rfl⟩ (by rw [hpc]; exact le_rfl) ?_ e
        show _ + lockWeight _ s.pusher (s.holder g) < _
        rw [hold, hpc]
        show _ + (update s.pcOf c (.answered f g p) c).weight < _
        rw [update_self]
        exact Nat.add_lt_add_left (show 2 < 5 by decide) _

/-- **lock を持つ者は、いつでも放す方へ進める。** -/
theorem holder_progress (hi : s.Inv D) {g : Int} (hheld : s.holder g ≠ none) (e : E) :
    ∃ who s', NetworkStep D s who s' ∧ s.Undisturbed s' ∧ s'.linkWeight e g < s.linkWeight e g := by
  -- lock を持つ側ごとに、その次の一歩が重みを減らす
  match hh : s.holder g with
  | none => exact absurd hh hheld
  | some .hotUpdateLoop =>
    have hedge := (hi.links g).pusher.mpr hh
    match hp : s.pusher with
    | .locked g' f =>
      rw [hp] at hedge
      obtain rfl : g' = g := Option.some.inj hedge
      refine ⟨_, _, .writeHot s g' f hp, ⟨rfl, rfl, rfl, rfl, fun _ => le_rfl⟩, ?_⟩
      simp only [linkWeight, update_self, List.length_append, List.length_singleton, hh, hp,
        lockWeight, PusherPc.weight]
      omega
    | .written g' =>
      rw [hp] at hedge
      obtain rfl : g' = g := Option.some.inj hedge
      refine ⟨_, _, .unlockHot s g' hp, ⟨rfl, rfl, rfl, rfl, fun _ => le_rfl⟩, ?_⟩
      simp only [linkWeight, update_self, hh, hp, lockWeight, PusherPc.weight]
      omega
    | .idle | .locking _ _ =>
      rw [hp] at hedge
      cases hedge
  | some (.connection c) =>
    have hedge := ((hi.links g).connection c).mpr hh
    match hpc : s.pcOf c with
    | .locked f g' =>
      have hedge' := hedge
      rw [hpc] at hedge'
      obtain rfl : g' = g := Option.some.inj hedge'
      refine hi.connection_progress hedge (.forward s c f g' hpc) rfl
        ⟨rfl, rfl, rfl, rfl, rfl, rfl⟩ (by rw [hpc]; exact le_rfl) ?_ e
      show 4 * (update s.toEdge g' (s.toEdge g' ++ [f]) g').length +
        lockWeight _ s.pusher (s.holder g') < _
      rw [hh, hpc]
      show _ + (update s.pcOf c (.waiting f g') c).weight < _
      rw [update_self, update_self, List.length_append]
      show 4 * (_ + 1) + 5 < 4 * _ + 12
      omega
    | .waiting f g' =>
      have hedge' := hedge
      rw [hpc] at hedge'
      obtain rfl : g' = g := Option.some.inj hedge'
      exact hi.waiting_progress hpc e
    | .answered f g' p =>
      have hedge' := hedge
      rw [hpc] at hedge'
      obtain rfl : g' = g := Option.some.inj hedge'
      refine hi.connection_progress hedge (.unlock s c f g' p hpc) rfl
        ⟨rfl, rfl, rfl, rfl, rfl, rfl⟩ (by rw [hpc]; exact (by decide : 2 ≤ 3)) ?_ e
      show _ + lockWeight _ s.pusher (update s.holder g' none g') < _
      rw [update_self, hpc]
      exact Nat.add_lt_add_left (show 0 < 2 by decide) _
    | .accepted | .route _ | .edgeConn _ _ | .locking _ _ | .reply _ _ | .closed =>
      rw [hpc] at hedge
      cases hedge

/-- `handle_end` が要求を読むか、End が応答を読む。 -/
theorem progress_idle (hi : s.Inv D) {e : E} {f : Frame} (hwait : s.ends e = .waiting f)
    (hpc : s.handlers e = .idle) (g : Int) :
    ∃ who s', NetworkStep D s who s' ∧ s.Closer e f g s' := by
  have hend := hi.ends e
  rw [hwait, hpc] at hend
  have hfl := hend.flight
  by_cases hreq : requests (s.up e) = []
  · -- 要求は読まれているので、応答が End に書かれている
    rw [hreq] at hfl
    cases hdown : s.down e with
    | nil =>
      rw [hdown] at hfl
      cases hfl
    | cons p rest =>
      rcases hend.down p (by rw [hdown]; exact List.mem_cons_self) with hp | hp
      · refine ⟨_, _, .applyControl s e f p rest hwait hdown hp, Or.inr ⟨hwait, rfl, ?_⟩⟩
        refine Nat.add_lt_add_right ?_ ((s.handlers e).stage (s.up e) s.pcOf)
        simp only [linkWeight, update_self, hdown, List.length_cons]
        show _ + lockWeight s.pcOf s.pusher (s.holder g) <
          _ + lockWeight s.pcOf s.pusher (s.holder g)
        omega
      · refine ⟨_, _, .accept s e f p rest hwait hdown hp, Or.inl ⟨update_self .., p, ?_⟩⟩
        exact update_self ..
  · have hstage : (s.handlers e).stage (s.up e) s.pcOf = 200 + (s.up e).length := by
      rw [hpc]
      exact if_neg hreq
    cases hup : s.up e with
    | nil =>
      rw [hup] at hreq
      exact absurd rfl hreq
    | cons x rest =>
      -- Edge は届いた frame を種類ごとに処理する
      rcases hend.up x (by rw [hup]; exact List.mem_cons_self) with hx | hx | ⟨hx, hserve⟩
      · refine ⟨_, _, .registerEnd s e x rest hpc hup hx, Or.inr ⟨hwait, rfl, ?_⟩⟩
        have hle : (HandlerPc.idle).stage (update s.up e rest e) s.pcOf ≤ 200 + rest.length := by
          rw [update_self, HandlerPc.stage]
          split <;> omega
        rw [distance, distance, hstage, hup, List.length_cons]
        show s.linkWeight e g + (s.handlers e).stage (update s.up e rest e) s.pcOf < _
        rw [hpc]
        omega
      · refine ⟨_, _, .takeCross s e x rest hpc hup hx,
          closer_of_stage hwait rfl (Nat.le_add_right _ _) ?_⟩
        rw [hstage]
        show (update s.handlers e (.connect x) e).stage _ _ + 14 < _
        rw [update_self, HandlerPc.stage]
        omega
      · obtain ⟨resp, hresp⟩ := Option.ne_none_iff_exists'.mp hserve
        refine ⟨_, _, .takeFetch s e x resp rest hpc hup hx hresp,
          closer_of_stage hwait rfl (Nat.le_add_right _ _) ?_⟩
        rw [hstage]
        show (update s.handlers e (.reply x _) e).stage _ _ + 14 < _
        rw [update_self, HandlerPc.stage]
        omega

/-- Cloud の接続を待つ `handle_end`。 -/
theorem progress_fetching (hi : s.Inv D) {e : E} {f : Frame} (hwait : s.ends e = .waiting f)
    {c : Nat} (hpc : s.handlers e = .fetching f c) :
    ∃ who s', NetworkStep D s who s' ∧ s.Closer e f (D.targetEdge f) s' := by
  have hconn := hi.connections c
  have hfl := hconn.flight
  rw [(hi.client e f c hpc).2] at hfl
  have hstage : (s.handlers e).stage (s.up e) s.pcOf = 20 + 20 * (s.pcOf c).stage := by
    rw [hpc]
    rfl
  -- 接続の位置だけが進む一歩は、lock に触らなければ段階の分だけ近づく
  have hmove {who : Party E} {x : Connection}
      (hstep : NetworkStep D s who { s with connections := update s.connections c x })
      (hedge : (s.pcOf c).edge = none) (hless : x.pc.stage < (s.pcOf c).stage) :
      ∃ who s', NetworkStep D s who s' ∧ s.Closer e f (D.targetEdge f) s' := by
    refine ⟨who, _, hstep, closer_of_stage hwait rfl ?_ ?_⟩
    · rw [hi.linkWeight_connection hedge]
      exact Nat.le_add_right _ _
    · rw [hstage]
      show (s.handlers e).stage _ (fun d => (update s.connections c x d).pc) + 14 < _
      rw [hpc, pcOf_update, HandlerPc.stage, update_self]
      omega
  have hheld (g : Int) (hg : D.cloud.routeCrossEdgeReq f = .ok g) (hh : s.holder g ≠ none) :
      ∃ who s', NetworkStep D s who s' ∧ s.Closer e f (D.targetEdge f) s' := by
    obtain ⟨who, s', hstep, hu, hw⟩ := hi.holder_progress hh e
    rw [targetEdge_eq hg]
    exact ⟨who, s', hstep, closer_of_undisturbed hu hw hwait hpc⟩
  cases hdown : (s.connections c).down with
  | cons p rest =>
    refine ⟨_, _, .readResponse s e f c p rest hpc hdown,
      closer_of_stage hwait rfl (Nat.le_add_right_of_le (le_of_eq ?_)) ?_⟩
    · exact linkWeight_samePc (c := c) (x := { s.connections c with client := none, down := rest })
        rfl e _
    · have := stage_pos (s.pcOf c)
      rw [hstage]
      show (update s.handlers e (.reply f p) e).stage _ _ + 14 < _
      rw [update_self, HandlerPc.stage]
      omega
  | nil =>
    rw [hdown] at hfl
    cases hp : (s.connections c).pc with
    | accepted =>
      cases hup : (s.connections c).up with
      | nil =>
        rw [hup, hp] at hfl
        cases hfl
      | cons x rest =>
        refine hmove (.readRequest s c x rest hp hup) (by rw [Network.pcOf, hp]; rfl) ?_
        rw [Network.pcOf, hp]
        dsimp only
        split
        · exact (by decide : 6 < 7)
        · exact (by decide : 1 < 7)
    | route f' =>
      refine hmove (.routeRequest s c f' hp) (by rw [Network.pcOf, hp]; rfl) ?_
      rw [Network.pcOf, hp]
      dsimp only
      split
      · exact (by decide : 2 < 6)
      · exact (by decide : 5 < 6)
    | edgeConn f' g =>
      refine hmove (.edgeConn s c f' g hp) (by rw [Network.pcOf, hp]; rfl) ?_
      rw [Network.pcOf, hp]
      dsimp only
      split
      · exact (by decide : 4 < 5)
      · exact (by decide : 2 < 5)
    | locking f' g =>
      have hok : D.cloud.routeCrossEdgeReq f' = .ok g := by
        have := hconn.pc
        rwa [hp] at this
      rw [hp] at hfl
      obtain rfl : f = f' := Option.some.inj hfl.caller_eq
      by_cases hh : s.holder g = none
      · refine ⟨_, _, .lock s c f g hp hh, closer_of_stage hwait rfl ?_ ?_⟩
        · rw [targetEdge_eq hok]
          have hlock : lockWeight (fun d => (update s.connections c
              { s.connections c with pc := .locked f g } d).pc) s.pusher
              (update s.holder g (some (.connection c)) g) = 12 := by
            rw [update_self, pcOf_update]
            show (update s.pcOf c (.locked f g) c).weight = 12
            rw [update_self]
            rfl
          show _ + lockWeight (fun d => (update s.connections c
            { s.connections c with pc := .locked f g } d).pc) s.pusher
            (update s.holder g (some (.connection c)) g) ≤ _ + 14
          rw [hlock, linkWeight]
          show (s.down e).length + 4 * (s.toEdge g).length +
            2 * (s.control g).toList.length + 12 ≤ _
          omega
        · rw [hstage]
          show (s.handlers e).stage _ (fun d => (update s.connections c _ d).pc) + 14 < _
          rw [hpc, pcOf_update, HandlerPc.stage, update_self, Network.pcOf, hp]
          exact (by decide : 20 + 20 * 3 + 14 < 20 + 20 * 4)
      · exact hheld g hok hh
    | locked f' g | waiting f' g | answered f' g p =>
      have hedge : (s.pcOf c).edge = some g := by rw [Network.pcOf, hp]; rfl
      have hh := ((hi.links g).connection c).mp hedge
      have hok := hconn.pc
      rw [hp] at hok hfl
      obtain rfl : f = f' := Option.some.inj hfl.caller_eq
      refine hheld g ?_ (by rw [hh]; exact Option.some_ne_none _)
      first | exact hok | exact hok.1
    | reply f' p =>
      refine hmove (.replyConnection s c f' p hp) (by rw [Network.pcOf, hp]; rfl) ?_
      rw [Network.pcOf, hp]
      exact (by decide : 1 < 2)
    | closed =>
      rw [hp] at hfl
      cases hup : (s.connections c).up with
      | nil =>
        rw [hup] at hfl
        cases hfl
      | cons x rest =>
        have := hconn.unread (by rw [hup]; exact List.cons_ne_nil _ _)
        rw [hp] at this
        cases this

/-- **応答を待つ End を応答に近づける一歩が、いつでも在る。** -/
theorem progress (hi : s.Inv D) {e : E} {f : Frame} (hwait : s.ends e = .waiting f) :
    ∃ who s', NetworkStep D s who s' ∧ s.Closer e f (D.targetEdge f) s' := by
  have hend := hi.ends e
  rw [hwait] at hend
  cases hpc : s.handlers e with
  | idle => exact hi.progress_idle hwait hpc _
  | connect f' =>
    rw [hpc] at hend
    have hnext : s.pcOf s.nextConnection = .accepted := by
      rw [Network.pcOf, hi.fresh _ le_rfl]
      rfl
    refine ⟨_, _, .connect s e f' hpc, closer_of_stage hwait rfl
      (Nat.le_add_right_of_le (le_of_eq (hi.linkWeight_connection (by rw [hnext]; rfl) _ e _))) ?_⟩
    show (update s.handlers e (.fetching f' s.nextConnection) e).stage _
      (fun d => (update s.connections s.nextConnection _ d).pc) + 14 < _
    rw [update_self, hpc, pcOf_update]
    show 20 + 20 * (update s.pcOf s.nextConnection .accepted s.nextConnection).stage + 14 < 180
    rw [update_self]
    exact (by decide : 20 + 20 * 7 + 14 < 180)
  | fetching f' c =>
    rw [hpc] at hend
    obtain rfl : f = f' := Option.some.inj hend.flight.caller_eq
    exact hi.progress_fetching hwait hpc
  | reply f' p =>
    rw [hpc] at hend
    have hempty : requests (s.up e) = [] := by
      have hfl := hend.flight
      cases hr : requests (s.up e) with
      | nil => rfl
      | cons x rest =>
        rw [hr] at hfl
        cases hfl
    refine ⟨_, _, .replyEnd s e f' p hpc, closer_of_stage hwait rfl ?_ ?_⟩
    · simp only [linkWeight, update_self, List.length_append, List.length_singleton]
      show _ + lockWeight s.pcOf s.pusher (s.holder _) ≤ _
      omega
    · show (update s.handlers e .idle e).stage (s.up e) s.pcOf + 14 < _
      rw [update_self, hpc, HandlerPc.stage, if_pos hempty]
      exact (by decide : 0 + 14 < 15)
  | closed =>
    rw [hpc] at hend
    exact absurd hend.handler id

/-- **応答を待つ End は、どの状態からでも応答に行き着ける。** -/
theorem eventually_answered {e : E} {f : Frame} (hi : s.Inv D) (hwait : s.ends e = .waiting f) :
    ∃ s', Reachable (NetworkStep D) s s' ∧ s'.ends e = .idle ∧
      ∃ p, s'.responses e = s.responses e ++ [(f, p)] := by
  induction hd : s.distance e (D.targetEdge f) using Nat.strong_induction_on generalizing s with
  | _ d ih =>
    obtain ⟨who, s₁, hstep, ⟨hidle, hp⟩ | ⟨hwait₁, hresp, hless⟩⟩ := hi.progress hwait
    · exact ⟨s₁, (Reach.refl s).tail trivial hstep, hidle, hp⟩
    · obtain ⟨s', hreach, hidle, hp⟩ := ih _ (hd ▸ hless) (hi.step hstep) hwait₁ rfl
      rw [hresp] at hp
      exact ⟨s', Relation.ReflTransGen.head ⟨who, trivial, hstep⟩ hreach, hidle, hp⟩

end Network.Inv

/-! ## 取り違えは無い -/

/--
鍵 `key` の `CROSS_EDGE_REQ` である `f` への応答。

鍵を受け持つ Edge がこの要求のために `find` した結果か、Cloud がこの要求に返した `ERROR` か、鍵を
受け持つ Edge が無いときに Cloud が返した `NOT_FOUND` である。
-/
def Deployment.Answers (D : Deployment E) (f : Frame) (key : Key) (p : Packet) : Prop :=
  let edge := D.cloud.rm.edgeOf (D.cloud.rm.locateEnd key)
  let (found, payload) := (D.index edge).find (some key) 0
  p = ⟨makeFetchResp (if found then .ok else .notFound) payload, .edge edge f⟩ ∨
  p = ⟨makeFetchResp .error 0, .cloud f⟩ ∨
  ((D.cloud.rm.locateEnd key < 0 ∨ edge < 0) ∧ p = ⟨makeFetchResp .notFound 0, .cloud f⟩)

theorem type_crossEdgeReq (id : Nat) (key : Key) :
    (crossEdgeReq id key).type = .crossEdgeReq := rfl

theorem readDouble_crossEdgeReq (id : Nat) (key : Key) :
    readDouble (crossEdgeReq id key).body 8 = some (some key) := by
  have hbody : (crossEdgeReq id key).body = leBytes 8 id ++ leBytes 8 key.bits := rfl
  rw [readDouble, hbody, if_pos (by simp), List.drop_left' (length_leBytes 8 _),
    List.take_of_length_le (by simp), Key.ofBits_ofLeBytes]

theorem Deployment.CrossAnswer.answers {f : Frame} {key : Key} {p : Packet}
    (h : D.CrossAnswer f p) (hkey : readDouble f.body 8 = some (some key)) :
    D.Answers f key p := by
  have hroute : D.cloud.routeCrossEdgeReq f =
      if D.cloud.rm.locateEnd key < 0 ∨ D.cloud.rm.edgeOf (D.cloud.rm.locateEnd key) < 0 then
        .error (makeFetchResp .notFound 0)
      else .ok (D.cloud.rm.edgeOf (D.cloud.rm.locateEnd key)) := by
    rw [CloudServer.routeCrossEdgeReq, hkey]
    rfl
  rw [Deployment.CrossAnswer, hroute] at h
  split at h
  · next hneg =>
    rcases h with ⟨resp, hr, h⟩ | ⟨g, hr, -⟩
    · cases hr
      exact Or.inr (Or.inr ⟨hneg, h⟩)
    · cases hr
  · rcases h with ⟨resp, hr, -⟩ | ⟨g, hr, h | h⟩
    · cases hr
    · cases hr
      left
      rw [Deployment.FromEdge, handleCloudCrossReq, hkey] at h
      exact h
    · exact Or.inr (Or.inl h)

theorem Deployment.EndAnswer.cross {e : E} {f : Frame} {p : Packet} (h : D.EndAnswer e f p)
    (hf : f.type = .crossEdgeReq) : D.CrossAnswer f p := by
  rcases h with ⟨-, h⟩ | ⟨h, -⟩
  · exact h
  · rw [hf] at h
    exact absurd h (by decide)

/-- 応答を待っている End は 1、待っていない End は 0。 -/
def RequesterPc.outstanding (r : RequesterPc) : Nat := r.request.toList.length

variable [DecidableEq E]

/-- 受け取った応答は失われず、書いた要求の個数は減らない。 -/
theorem NetworkStep.grows {s s' : Network E} {party : Party E} (h : NetworkStep D s party s')
    (e : E) : s.responses e <+: s'.responses e ∧ s.issued e ≤ s'.issued e := by
  cases h with
  | accept e' req p rest hpc hdown htype =>
    refine ⟨?_, le_rfl⟩
    dsimp only
    by_cases he : e = e'
    · rw [← he, update_self]
      exact List.prefix_append _ _
    · rw [update_of_ne he]
  | crossEdgeFetch e' id key hpc =>
    refine ⟨List.prefix_rfl, ?_⟩
    by_cases he : e = e'
    · subst he
      simp
    · simp [update_of_ne he]
  | edgeFetch e' key slot hpc =>
    refine ⟨List.prefix_rfl, ?_⟩
    by_cases he : e = e'
    · subst he
      simp
    · simp [update_of_ne he]
  | _ => exact ⟨List.prefix_rfl, le_rfl⟩

theorem Network.grows {s s' : Network E} (h : Reachable (NetworkStep D) s s') (e : E) :
    s.responses e <+: s'.responses e ∧ s.issued e ≤ s'.issued e :=
  h.invariant (fun t => s.responses e <+: t.responses e ∧ s.issued e ≤ t.issued e)
    ⟨List.prefix_rfl, le_rfl⟩ fun _ _ _ ht hs =>
      ⟨ht.1.trans (hs.grows e).1, ht.2.trans (hs.grows e).2⟩

/--
**何個の End がどの鍵を問い合わせ、`HOT_UPDATE` とどう交錯しても、応答は取り違えられない。**

到達できるどの状態でも、End `e` が `CROSS_EDGE_REQ` に対して受け取った応答はその鍵への応答である。
書いた要求と受け取った応答の個数の差は待っている要求の個数であり、待っていない End に応答は残らない。
待っている End は必ず応答に行き着ける。
-/
theorem crossEdge_no_crosstalk (D : Deployment E) {s : Network E}
    (h : Reachable (NetworkStep D) D.start s) (e : E) :
    (∀ id key p, (crossEdgeReq id key, p) ∈ s.responses e →
      D.Answers (crossEdgeReq id key) key p) ∧
    s.issued e = (s.responses e).length + (s.ends e).outstanding ∧
    (replies (s.down e)).length ≤ (s.ends e).outstanding ∧
    ∀ f, s.ends e = .waiting f → ∃ s', Reachable (NetworkStep D) s s' ∧ s'.ends e = .idle ∧
      ∃ p, s'.responses e = s.responses e ++ [(f, p)] := by
  have hi : s.Inv D := h.invariant (Network.Inv D) (inv_start D) fun _ _ _ hi hs => hi.step hs
  have hend := hi.ends e
  refine ⟨?_, hend.counted, ?_, fun f hwait => hi.eventually_answered hwait⟩
  · intro id key p hp
    have hans : D.EndAnswer e (crossEdgeReq id key) p := hend.log _ hp
    have hcross := Deployment.EndAnswer.cross hans (type_crossEdgeReq id key)
    exact Deployment.CrossAnswer.answers hcross (readDouble_crossEdgeReq id key)
  · have hfl := hend.flight
    cases hr : s.ends e with
    | idle =>
      rw [hr] at hfl
      rw [hfl.eq_of_none.2.2]
      exact le_rfl
    | waiting f =>
      rw [hr] at hfl
      cases hb : replies (s.down e) with
      | nil => exact Nat.zero_le _
      | cons p rest =>
        rw [hb] at hfl
        rw [(hfl.accept).2.eq_of_none.2.2]
        exact le_rfl

/-- 二つの Edge に End が一つずつ属する配置。End は相手の Edge の鍵を問い合わせる。 -/
def twoEdges : Deployment Bool where
  cloud :=
    { hotTopn := 5
      rm :=
        { edges := [⟨1, [1]⟩, ⟨2, [2]⟩]
          ends := [⟨1, 1, Key.ofNat 0, Key.ofNat 10⟩, ⟨2, 2, Key.ofNat 20, Key.ofNat 30⟩] }
      data := [(Key.ofNat 5, 3), (Key.ofNat 25, 7)], hotPositions := [], edges := [] }
  home e := if e then 2 else 1
  index _ := ⟨fun _ p => (false, p), fun _ p _ => (0, p)⟩
  paramFrame _ := leBytes 8 0
  snapshotInfo _ := none

/--
二つの End の要求が同時に出ている状態から、どちらの End も応答を受け取る状態に行き着く。応答はどれも、その End が
問い合わせた鍵への応答である。
-/
theorem crossEdge_no_crosstalk_both :
    ∃ s, Reachable (NetworkStep twoEdges) twoEdges.start s ∧ (∀ e, s.responses e ≠ []) ∧
      ∀ e id key p, (crossEdgeReq id key, p) ∈ s.responses e →
        twoEdges.Answers (crossEdgeReq id key) key p := by
  have hfirst := NetworkStep.crossEdgeFetch (D := twoEdges) twoEdges.start false 1 (Key.ofNat 25)
    rfl
  have hone : Reachable (NetworkStep twoEdges) twoEdges.start _ :=
    (Reach.refl twoEdges.start).tail trivial hfirst
  have hboth := hone.tail (.crossEdgeFetch _ true 2 (Key.ofNat 5) rfl)
  -- 一つ目の End が応答を受け取るまで進む
  obtain ⟨s, hs, -, p, hp⟩ :=
    (crossEdge_no_crosstalk twoEdges hboth false).2.2.2 (crossEdgeReq 1 (Key.ofNat 25)) rfl
  have hreach := Relation.ReflTransGen.trans hboth hs
  have hissued := (Network.grows hs true).2
  have hfalse : s.responses false ≠ [] := by
    rw [hp]
    exact List.append_ne_nil_of_right_ne_nil _ (by simp)
  have hcount := (crossEdge_no_crosstalk twoEdges hreach true).2.1
  have hdone : ∀ t, Reachable (NetworkStep twoEdges) twoEdges.start t → t.responses false ≠ [] →
      t.responses true ≠ [] → ∃ s, Reachable (NetworkStep twoEdges) twoEdges.start s ∧
        (∀ e, s.responses e ≠ []) ∧ ∀ e id key p, (crossEdgeReq id key, p) ∈ s.responses e →
          twoEdges.Answers (crossEdgeReq id key) key p := by
    intro t ht hno hyes
    exact ⟨t, ht, fun e => by cases e <;> assumption,
      fun e => (crossEdge_no_crosstalk twoEdges ht e).1⟩
  cases hpc : s.ends true with
  | idle =>
    refine hdone s hreach hfalse fun hnil => ?_
    rw [hnil, hpc] at hcount
    have : 1 ≤ s.issued true := hissued
    rw [hcount] at this
    exact absurd this (by decide)
  | waiting f =>
    obtain ⟨t, ht, -, q, hq⟩ := (crossEdge_no_crosstalk twoEdges hreach true).2.2.2 f hpc
    refine hdone t (Relation.ReflTransGen.trans hreach ht) (fun hnil => hfalse ?_) ?_
    · exact List.prefix_nil.mp (hnil ▸ (Network.grows ht false).1)
    · rw [hq]
      exact List.append_ne_nil_of_right_ne_nil _ (by simp)

end Plin
