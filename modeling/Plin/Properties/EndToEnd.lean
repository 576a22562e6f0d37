import Plin.Properties.Cluster
import Plin.Properties.EndControl
import Plin.Properties.Snapshot

/-!
# どの経路で引いても data set の答えになる

End は鍵を、手元の B+ 木、hot cache、親の Edge（RDMA か要求）、他の Edge の順に探す。どの経路の答えも
一つの data set の答えに一致する（`lookup_end_to_end`）。

要点は、頼んでいない frame がどこに混ざっても保たれる不変量 `EndSession.Good` である。hot cache の組も、
RDMA で読める行も、届いている frame も、すべて同じ data set から作られている。
-/

namespace Plin

open Infra

variable {D : Type} [Arith D] {P : Type} (M : ParamModel P)
variable {f : Fitter D} {C : Cluster D} {g : EdgeInfo} {edge : Transport}

/-! ## 不変量 -/

/-- hot cache の組も、RDMA で読める行も、data set の行である。 -/
structure EndSession.Holds (C : Cluster D) (edge : Transport) (s : EndSession P) : Prop where
  cache : ∀ k v, s.hotCache.find k = some v → C.data.lookup k = some v
  snapshot : ∀ k slot out v, rdmaSnapshotLookup edge s.rdmaSnapshot k slot out = (.hit, v) →
    C.data.lookup k = some v

/-- End の持つものと届いているものは、どれも data set から作られている。 -/
structure EndSession.Good (C : Cluster D) (g : EdgeInfo) (edge : Transport) (s : EndSession P) :
    Prop extends s.Holds C edge where
  inbox : C.Unasked g edge s.inbox

omit [Arith D] in
theorem start_good (p : P) : (Cluster.start p).Good C g edge := by
  refine ⟨⟨?_, ?_⟩, ?_⟩
  · intro k v h
    cases h
  · intro k slot out v h
    cases h
  · intro x h
    cases h

/-- 組がどれも data set の行なら、引けるのは元から在った組と入れた組である。 -/
theorem find_batchUpsert {data l : List (Key × Payload)} (hd : (data.map Prod.fst).Nodup)
    (hl : ∀ e ∈ l, e ∈ data) {c : SortedMap Key Payload}
    (hc : ∀ k v, c.find k = some v → data.lookup k = some v) (k : Key) (v : Payload) :
    (batchUpsert c l).find k = some v ↔ (k, v) ∈ l ∨ c.find k = some v := by
  induction l generalizing c with
  | nil => simp [batchUpsert]
  | cons e l ih =>
    have he : data.lookup e.1 = some e.2 :=
      (PlinIndex.lookup_eq_some_iff_mem hd).mpr (hl e List.mem_cons_self)
    have hc' : ∀ k v, (c.upsert e.1 e.2).find k = some v → data.lookup k = some v := by
      intro k v h
      rw [SortedMap.find_upsert] at h
      split at h
      · next hk => rw [hk, he, h]
      · exact hc k v h
    have hstep : (c.upsert e.1 e.2).find k = some v ↔ (k, v) = e ∨ c.find k = some v := by
      rw [SortedMap.find_upsert]
      by_cases hk : k = e.1
      · subst hk
        rw [if_pos rfl]
        constructor
        · intro h
          exact Or.inl (Prod.ext rfl (Option.some.inj h).symm)
        · rintro (h | h)
          · rw [← h]
          · rw [← hc e.1 v h, he]
      · rw [if_neg hk]
        constructor
        · exact Or.inr
        · rintro (h | h)
          · exact absurd (congrArg Prod.fst h) hk
          · exact h
    rw [batchUpsert, List.foldl_cons]
    have hrest := ih (fun d hd' => hl d (List.mem_cons_of_mem _ hd')) hc'
    rw [batchUpsert] at hrest
    rw [hrest, hstep, List.mem_cons, ← or_assoc, or_comm (a := (k, v) ∈ l)]

omit [Arith D] in
/-- 頼んでいない frame は、どの関数でも反映に回る。 -/
theorem Cluster.Control.isControl {x : Frame} (h : C.Control g edge x) : x.IsControl := by
  cases h with
  | hotUpdate target y id toEnd hsend hforward =>
    obtain ⟨z, hz, htype, -⟩ := CloudServer.hotPairs_delivered hsend
    rw [hforward] at hz
    obtain ⟨-, rfl⟩ := Prod.mk.inj (Option.some.inj hz)
    exact Or.inr (Or.inl htype)
  | paramPush body => exact Or.inl rfl
  | snapshotInfo => exact Or.inr (Or.inr rfl)

/-- Edge の知らせる `SnapshotInfo` は、そのまま読み戻される。 -/
theorem decode_makeSnapshotInfo {snap : EdgeRdmaSnapshot} {ds : List KeyPayloadRecord}
    (h : snap.HoldsRows ds) (hlen : ds.length < 2 ^ 60) {descMem recordMem : RegisteredMemory}
    (hdesc : descMem.addr < 2 ^ 64 ∧ descMem.rkey < 2 ^ 32)
    (hrecord : recordMem.addr < 2 ^ 64 ∧ recordMem.rkey < 2 ^ 32) (padding : Nat) :
    decodeSnapshotInfo
        (makeRdmaSnapshotInfo (makeSnapshotInfo snap descMem recordMem) padding).body =
      makeSnapshotInfo snap descMem recordMem := by
  apply decodeSnapshotInfo_make
  have hcount : snap.descs.length % 2 ^ 32 < 2 ^ 32 := Nat.mod_lt _ (by decide)
  have hrecords : snap.records.length < 2 ^ 64 := by
    have := h.length
    omega
  unfold SnapshotInfo.fields makeSnapshotInfo
  simp only [List.forall_mem_cons, h.version]
  refine ⟨by decide, by decide, hdesc.1, hdesc.2, hcount, hrecord.1, hrecord.2, by decide,
    hrecords, ?_⟩
  simp

theorem length_makeRdmaSnapshotInfo (info : SnapshotInfo) (padding : Nat) :
    (makeRdmaSnapshotInfo info padding).body.length = sizeofSnapshotInfo :=
  length_fields (info.fields padding)

omit [Arith D] in
theorem snapshotRows_mem {k : Key} {v : Payload}
    (h : (⟨k, v⟩ : KeyPayloadRecord) ∈ C.snapshotRows g) : (k, v) ∈ C.data := by
  obtain ⟨e, he, heq⟩ := List.mem_map.mp h
  obtain ⟨rfl, rfl⟩ := KeyPayloadRecord.mk.inj heq
  exact List.mem_of_mem_filter he

theorem hotPairs_mem (hC : C.Sound f) {target : Int} {e : Key × Payload}
    (he : e ∈ C.cloud.hotPairs target) : e ∈ C.data := by
  rw [← hC.cloudData]
  exact (CloudServer.mem_emit he).1

/-- **届いた `HOT_UPDATE` の反映は、Cloud の選んだ組だけを加える。** -/
theorem EndSession.Holds.apply_hotUpdate (hC : C.Sound f) {s : EndSession P} (h : s.Holds C edge)
    {target : Int} {sent toEnd : Frame} {id : Nat}
    (hsend : C.cloud.sendHotUpdate target = some sent)
    (hforward : handleCloudHotUpdate sent = some (id, toEnd)) :
    s.applyEdgeControlFrame M toEnd =
        { s with
          hotCache := batchUpsert s.hotCache (C.cloud.hotPairs target)
          applied := s.applied ++ [toEnd] } ∧
      ∀ k v, (batchUpsert s.hotCache (C.cloud.hotPairs target)).find k = some v ↔
        (k, v) ∈ C.cloud.hotPairs target ∨ s.hotCache.find k = some v := by
  obtain ⟨z, hz, htype, hpairs⟩ := CloudServer.hotPairs_delivered hsend
  rw [hforward] at hz
  obtain ⟨-, rfl⟩ := Prod.mk.inj (Option.some.inj hz)
  constructor
  · rw [applyEdgeControlFrame, if_neg (by rw [htype]; decide), if_pos htype, hpairs]
  · exact find_batchUpsert hC.rows.nodup (fun e he => hotPairs_mem hC he) h.cache

/-- **頼んでいない frame の反映は、不変量を保つ。** -/
theorem EndSession.Holds.apply (hC : C.Sound f) {s : EndSession P} (h : s.Holds C edge) {x : Frame}
    (hx : C.Control g edge x) : (s.applyEdgeControlFrame M x).Holds C edge := by
  cases hx with
  | hotUpdate target y id toEnd hsend hforward =>
    obtain ⟨happly, hiff⟩ := h.apply_hotUpdate M hC hsend hforward
    rw [happly]
    refine ⟨?_, h.snapshot⟩
    intro k v hfind
    rcases (hiff k v).mp hfind with hin | hin
    · exact (PlinIndex.lookup_eq_some_iff_mem hC.rows.nodup).mpr (hotPairs_mem hC hin)
    · exact h.cache k v hin
  | paramPush body => exact ⟨h.cache, h.snapshot⟩
  | snapshotInfo predictPos snap descMem recordMem padding hsnap hdesc hrecord hserves =>
    have hlen : (C.snapshotRows g).length < 2 ^ 60 := by
      rw [Cluster.snapshotRows, List.length_map]
      exact (List.length_filter_le _ _).trans_lt hC.fits
    have hrows := buildRdmaSnapshot_holdsRows hlen hsnap
    have htype : (makeRdmaSnapshotInfo (makeSnapshotInfo snap descMem recordMem) padding).type =
        .rdmaSnapshotInfo := rfl
    rw [applyEdgeControlFrame, if_neg (by rw [htype]; decide), if_neg (by rw [htype]; decide),
      if_pos htype, if_pos (length_makeRdmaSnapshotInfo _ _),
      decode_makeSnapshotInfo hrows hlen hdesc hrecord]
    refine ⟨h.cache, ?_⟩
    intro k slot out v hhit
    have hmem := rdmaSnapshotLookup_sound hrows hserves k slot out hhit
    exact (PlinIndex.lookup_eq_some_iff_mem hC.rows.nodup).mpr (snapshotRows_mem hmem)

/-! ## 接続を読む -/

namespace EndSession

omit [Arith D] in
theorem Holds.setInbox {s : EndSession P} (h : s.Holds C edge) {i : Inbox}
    (hi : C.Unasked g edge i) : Good C g edge { s with inbox := i } :=
  ⟨⟨h.cache, h.snapshot⟩, hi⟩

theorem Good.apply (hC : C.Sound f) {s : EndSession P} (h : s.Good C g edge) {x : Frame}
    (hx : C.Control g edge x) : (s.applyEdgeControlFrame M x).Good C g edge :=
  ⟨h.toHolds.apply M hC hx, by rw [applyEdgeControlFrame_inbox]; exact h.inbox⟩

omit [Arith D] in
theorem unasked_cons {a : Option Frame} {i : Inbox} (h : C.Unasked g edge (a :: i)) :
    (∀ x, a = some x → C.Control g edge x) ∧ C.Unasked g edge i :=
  ⟨fun x hx => h x (by simp [hx]), fun x hx => h x (List.mem_cons_of_mem _ hx)⟩

omit [Arith D] in
theorem unasked_append {i j : Inbox} :
    C.Unasked g edge (i ++ j) ↔ C.Unasked g edge i ∧ C.Unasked g edge j := by
  constructor
  · intro h
    exact ⟨fun x hx => h x (List.mem_append_left _ hx),
      fun x hx => h x (List.mem_append_right _ hx)⟩
  · rintro ⟨hi, hj⟩ x hx
    rcases List.mem_append.mp hx with hx | hx
    · exact hi x hx
    · exact hj x hx

/-- 先頭の frame を読んで反映する。 -/
theorem Good.applyHead (hC : C.Sound f) {s : EndSession P} (h : s.Good C g edge) {x : Frame}
    {rest : Inbox} (hi : s.inbox = some x :: rest) :
    (applyEdgeControlFrame M { s with inbox := rest } x).Good C g edge := by
  have hin := h.inbox
  rw [hi] at hin
  obtain ⟨hx, hrest⟩ := unasked_cons hin
  exact (h.setInbox hrest).apply M hC (hx x rfl)

omit [Arith D] in
/-- 途切れを一つ待つ。 -/
theorem Good.tail {s : EndSession P} (h : s.Good C g edge) {a : Option Frame} {rest : Inbox}
    (hi : s.inbox = a :: rest) : Good C g edge { s with inbox := rest } := by
  have hin := h.inbox
  rw [hi] at hin
  exact h.setInbox (unasked_cons hin).2

theorem Good.waitLoaded (hC : C.Sound f) (rounds : Nat) {s : EndSession P}
    (h : s.Good C g edge) : (waitLoaded M rounds s).Good C g edge := by
  induction rounds generalizing s with
  | zero => exact h
  | succ rounds ih =>
    rw [EndSession.waitLoaded]
    split
    · exact h
    · rcases readFrameTimed_spec s with ⟨hr, -⟩ | ⟨a, rest, hi, hr⟩
      · rw [hr]
        exact ih h
      · rw [hr]
        cases a with
        | none => exact ih (h.tail hi)
        | some x => exact ih (h.applyHead M hC hi)

theorem Holds.drainSnapshot (hC : C.Sound f) (i : Inbox) {s : EndSession P} (h : s.Holds C edge)
    (hi : C.Unasked g edge i) : (drainSnapshot M i s).Good C g edge := by
  induction i generalizing s with
  | nil => exact h.setInbox hi
  | cons a rest ih =>
    obtain ⟨hhead, hrest⟩ := unasked_cons hi
    cases a with
    | none => exact h.setInbox hrest
    | some x =>
      rw [EndSession.drainSnapshot]
      have happly := h.apply M hC (hhead x rfl)
      split
      · exact ih happly hrest
      · exact happly.setInbox hrest

theorem Good.waitInitialPlinPush (hC : C.Sound f) (rounds : Nat) {s : EndSession P}
    (h : s.Good C g edge) : (s.waitInitialPlinPush M rounds).Good C g edge := by
  have hload := h.waitLoaded M hC rounds
  exact hload.toHolds.drainSnapshot M hC _ hload.inbox

theorem Good.foldl_apply (hC : C.Sound f) (l : List Frame) {s : EndSession P}
    (h : s.Good C g edge) (hl : ∀ x ∈ l, C.Control g edge x) :
    (l.foldl (fun s x => s.applyEdgeControlFrame M x) s).Good C g edge := by
  induction l generalizing s with
  | nil => exact h
  | cons x l ih =>
    rw [List.forall_mem_cons] at hl
    exact ih (h.apply M hC hl.1) hl.2

theorem Good.edgeReceiver (hC : C.Sound f) {s : EndSession P} (h : s.Good C g edge) :
    (s.edgeReceiver M).Good C g edge := by
  refine (h.foldl_apply M hC (s.inbox.filterMap id) ?_).setInbox ?_
  · intro x hx
    obtain ⟨a, ha, hax⟩ := List.mem_filterMap.mp hx
    exact h.inbox x (hax ▸ ha)
  · intro x hx
    cases hx

theorem Good.drainEdgeControlFrames (hC : C.Sound f) (rounds : Nat) {s : EndSession P}
    (h : s.Good C g edge) : (drainEdgeControlFrames M rounds s).Good C g edge := by
  induction rounds generalizing s with
  | zero => exact h
  | succ rounds ih =>
    rw [EndSession.drainEdgeControlFrames]
    rcases readFrameTimed_spec s with ⟨hr, -⟩ | ⟨a, rest, hi, hr⟩
    · rw [hr]
      exact ih h
    · rw [hr]
      cases a with
      | none => exact ih (h.tail hi)
      | some x =>
        dsimp only
        split
        · exact ih (h.applyHead M hC hi)
        · exact ih (h.tail hi)

/-- **返事の前の frame をすべて反映し、返事を読む。** -/
theorem Holds.readFetchLoop (hC : C.Sound f) (out : Payload) (before : Inbox) {resp : Frame}
    (hresp : resp.type = .edgeFetchResp) {after : Inbox} (hafter : C.Unasked g edge after)
    {s : EndSession P} (h : s.Holds C edge) (hbefore : C.Unasked g edge before) :
    ∃ s', readFetchLoop M out (before ++ some resp :: after) s = (decodeFetchResp resp out, s') ∧
      s'.Good C g edge ∧ s'.outbox = s.outbox := by
  induction before generalizing s with
  | nil =>
    refine ⟨_, ?_, h.setInbox hafter, rfl⟩
    rw [List.nil_append, EndSession.readFetchLoop, if_pos hresp]
  | cons a before ih =>
    obtain ⟨hhead, hrest⟩ := unasked_cons hbefore
    cases a with
    | none => exact ih h hrest
    | some x =>
      have hx := hhead x rfl
      have hctl := hx.isControl
      have hne : x.type ≠ .edgeFetchResp := fun hc => not_control_of_resp hc hctl
      obtain ⟨s', hs', hgood, hout⟩ := ih (h.apply M hC hx) hrest
      refine ⟨s', ?_, hgood, hout.trans (applyEdgeControlFrame_outbox M s x)⟩
      rw [List.cons_append, EndSession.readFetchLoop, if_neg hne, if_pos hctl, hs']

/-! ## 問い合わせ -/

/-- 問い合わせの結果は data set の答えで、`param_stale` は立っていない。 -/
structure FetchResult.Right (C : Cluster D) (k : Key) (r : FetchResult) : Prop where
  ok : r.ok = (C.data.lookup k).isSome
  out : ∀ v, C.data.lookup k = some v → r.out = v
  fresh : r.stale = false

omit [Arith D] in
theorem right_of_answers {k : Key} {resp : Frame} (h : C.Answers k resp) (out : Payload) :
    (decodeFetchResp resp out).Right C k ∧ resp.type = .edgeFetchResp := by
  obtain ⟨status, v, rfl, hok, hv⟩ := h
  refine ⟨?_, rfl⟩
  rw [decodeFetchResp_make]
  refine ⟨?_, hv, rfl⟩
  cases hl : (C.data.lookup k).isSome
  · exact decide_eq_false (by rw [hok, hl]; decide)
  · exact decide_eq_true (by rw [hok, hl])

/-- **どれだけの frame が先に届いていても、応答を読む。** -/
theorem Good.readFetchResponse (hC : C.Sound f) {s : EndSession P} (h : s.Good C g edge) {k : Key}
    {resp : Frame} (hans : C.Answers k resp) {before after : Inbox}
    (hbefore : C.Unasked g edge before) (hafter : C.Unasked g edge after) (out : Payload) :
    ∃ r s', readFetchResponse M { s with inbox := s.inbox ++ (before ++ some resp :: after) } out =
      (r, s') ∧ r.Right C k ∧ s'.Good C g edge ∧ s'.outbox = s.outbox := by
  obtain ⟨hright, htype⟩ := right_of_answers hans out
  have hholds : Holds C edge { s with inbox := s.inbox ++ (before ++ some resp :: after) } :=
    ⟨h.cache, h.snapshot⟩
  obtain ⟨s', hs', hgood, hout⟩ := hholds.readFetchLoop M hC out (s.inbox ++ before) htype hafter
    (unasked_append.mpr ⟨h.inbox, hbefore⟩)
  refine ⟨_, s', ?_, hright, hgood, hout⟩
  rw [EndSession.readFetchResponse, ← hs', List.append_assoc]

omit [Arith D] in
/-- 正しい結果を hot cache に入れる。 -/
theorem Good.warm {s : EndSession P} (h : s.Good C g edge) {k : Key} {r : FetchResult}
    (hr : r.Right C k) : (s.warm r k).Good C g edge := by
  unfold EndSession.warm
  split
  · next hok =>
    refine ⟨⟨?_, h.snapshot⟩, h.inbox⟩
    intro k' v hfind
    rw [SortedMap.find_upsert] at hfind
    split at hfind
    · next hk =>
      rw [hr.ok] at hok
      obtain ⟨w, hw⟩ := Option.isSome_iff_exists.mp hok
      rw [hk, hw, ← hfind, hr.out w hw]
    · exact h.cache k' v hfind
  · exact h

theorem warm_outbox (s : EndSession P) (r : FetchResult) (k : Key) :
    (s.warm r k).outbox = s.outbox := by
  unfold EndSession.warm
  split <;> rfl

end EndSession

/-! ## `lookup` -/

/-- `found` は鍵が data set に在ることで、見つかった payload は data set の値である。 -/
def LookupResult.Agrees (data : List (Key × Payload)) (k : Key) (r : LookupResult) : Prop :=
  (r.found = true ↔ ∃ v, (k, v) ∈ data) ∧ (r.found = true → (k, r.payload) ∈ data)

theorem agrees_of_lookup {data : List (Key × Payload)} (hd : (data.map Prod.fst).Nodup) {k : Key}
    {r : LookupResult} (hfound : r.found = (data.lookup k).isSome)
    (hv : ∀ v, data.lookup k = some v → r.payload = v) : r.Agrees data k := by
  have hmem (v : Payload) := PlinIndex.lookup_eq_some_iff_mem hd (k := k) (v := v)
  constructor
  · rw [hfound, Option.isSome_iff_exists]
    exact exists_congr hmem
  · intro h
    rw [hfound] at h
    obtain ⟨v, hk⟩ := Option.isSome_iff_exists.mp h
    rw [hv v hk]
    exact (hmem v).mp hk

section Lookup

open EndSession

/-- 一回の `lookup` の結果は data set の答えで、不変量が保たれ、書いたのは要求だけである。 -/
structure Resolved (C : Cluster D) (g : EdgeInfo) (edge : Transport) (s : EndSession P) (k : Key)
    (req : Option Frame) (out : LookupResult × EndSession P) : Prop where
  agrees : out.1.Agrees C.data k
  good : out.2.Good C g edge
  writes : out.2.outbox = s.outbox ++ req.toList

variable {node : EndNode} {k : Key} {s : EndSession P} {before after : Inbox}

/-- 要求を書かない `lookup` は、届いた frame を読まない。 -/
theorem deliver_unread (h : s.Good C g edge) (hbefore : C.Unasked g edge before)
    (hafter : C.Unasked g edge after) (hreq : node.request M s k = none) :
    (C.deliver M node g s k before after).Good C g edge := by
  rw [Cluster.deliver, hreq]
  exact h.setInbox (unasked_append.mpr ⟨h.inbox, unasked_append.mpr ⟨hbefore, hafter⟩⟩)

/-- 段階①。 -/
theorem resolved_local (hC : C.Sound f) (h : s.Good C g edge) (hbefore : C.Unasked g edge before)
    (hafter : C.Unasked g edge after) (hloc : node.rm.locateEnd k = node.id)
    (hfind : node.store.find k = C.data.lookup k) :
    Resolved C g edge s k (node.request M s k)
      (node.lookup M (C.deliver M node g s k before after) k) := by
  have hreq : node.request M s k = none := by rw [EndNode.request, if_pos hloc]
  have hgood := deliver_unread M h hbefore hafter hreq
  rw [EndNode.lookup, if_pos hloc, hfind, hreq]
  cases hk : C.data.lookup k with
  | some v =>
    refine ⟨agrees_of_lookup hC.rows.nodup (by rw [hk]; rfl) ?_, hgood, by simp [Cluster.deliver]⟩
    rw [hk]
    exact fun w hw => Option.some.inj hw
  | none =>
    refine ⟨agrees_of_lookup hC.rows.nodup (by rw [hk]; rfl) ?_, hgood, by simp [Cluster.deliver]⟩
    rw [hk]
    exact fun w hw => absurd hw.symm (Option.some_ne_none w)

/-- 段階②。 -/
theorem resolved_hotCache (hC : C.Sound f) (h : s.Good C g edge)
    (hbefore : C.Unasked g edge before) (hafter : C.Unasked g edge after)
    (hloc : node.rm.locateEnd k ≠ node.id) {v : Payload} (hhot : s.hotCache.find k = some v) :
    Resolved C g edge s k (node.request M s k)
      (node.lookup M (C.deliver M node g s k before after) k) := by
  have hreq : node.request M s k = none := by
    rw [EndNode.request, if_neg hloc, if_pos (by rw [hhot]; rfl)]
  have hgood := deliver_unread M h hbefore hafter hreq
  have hhot' : (C.deliver M node g s k before after).hotCache.find k = some v := hhot
  rw [EndNode.lookup, if_neg hloc, hhot', hreq]
  have hk := h.cache k v hhot
  refine ⟨agrees_of_lookup hC.rows.nodup (by rw [hk]; rfl) ?_, hgood, by simp [Cluster.deliver]⟩
  rw [hk]
  exact fun w hw => Option.some.inj hw

/-- どの End の区間にも入らない鍵。 -/
theorem resolved_nowhere (hC : C.Sound f) (h : s.Good C g edge)
    (hbefore : C.Unasked g edge before) (hafter : C.Unasked g edge after)
    (hloc : node.rm.locateEnd k ≠ node.id) (hhot : s.hotCache.find k = none)
    (hnone : node.rm.locateEnd k < 0) (hk : C.data.lookup k = none) :
    Resolved C g edge s k (node.request M s k)
      (node.lookup M (C.deliver M node g s k before after) k) := by
  have hneg : ¬ 0 ≤ node.rm.locateEnd k := not_le.mpr hnone
  have hreq : node.request M s k = none := by
    rw [EndNode.request, if_neg hloc, if_neg (by rw [hhot]; simp), if_neg (fun hc => hneg hc.1),
      if_neg (fun hc => hneg hc.1)]
  have hgood := deliver_unread M h hbefore hafter hreq
  have hhot' : (C.deliver M node g s k before after).hotCache.find k = none := hhot
  rw [EndNode.lookup, if_neg hloc, hhot', hreq]
  dsimp only
  rw [if_neg (fun hc => hneg hc.1), if_neg (fun hc => hneg hc.1)]
  refine ⟨agrees_of_lookup hC.rows.nodup (by rw [hk]; rfl) ?_, hgood, by simp [Cluster.deliver]⟩
  rw [hk]
  exact fun w hw => absurd hw.symm (Option.some_ne_none w)

/-- 段階③。RDMA で当たれば要求は書かない。 -/
theorem resolved_sibling (hC : C.Sound f) (h : s.Good C g edge)
    (hbefore : C.Unasked g edge before) (hafter : C.Unasked g edge after)
    (hloc : node.rm.locateEnd k ≠ node.id) (hhot : s.hotCache.find k = none)
    (hsame : 0 ≤ node.rm.locateEnd k ∧ node.rm.sameEdge (node.rm.locateEnd k) node.id)
    (hedge : node.edge = some edge)
    (hresp : ∀ slot, ∃ resp, C.respond g.id (edgeFetchReq k slot) = some resp ∧
      C.Answers k resp) :
    Resolved C g edge s k (node.request M s k)
      (node.lookup M (C.deliver M node g s k before after) k) := by
  have hhot' : (C.deliver M node g s k before after).hotCache.find k = none := hhot
  rw [EndNode.lookup, if_neg hloc, hhot']
  dsimp only
  rw [if_pos hsame, hedge]
  dsimp only
  suffices hfetch : ∃ r s', EndNode.fetchSibling M edge (C.deliver M node g s k before after) k =
      (r, s') ∧ r.Right C k ∧ s'.Good C g edge ∧
      s'.outbox = s.outbox ++ (node.request M s k).toList by
    obtain ⟨r, s', hrun, hright, hgood, hout⟩ := hfetch
    rw [hrun]
    dsimp only
    rw [hright.fresh, if_neg (by decide)]
    refine ⟨agrees_of_lookup hC.rows.nodup hright.ok hright.out, hgood.warm hright, ?_⟩
    rw [← hout]
    exact warm_outbox s' r k
  rcases hrdma : rdmaSnapshotLookup edge s.rdmaSnapshot k (s.predictPos M k) 0 with ⟨status, v⟩
  have hfetch : EndNode.fetchSibling M edge (C.deliver M node g s k before after) k =
      if status = .hit then (⟨true, v, false⟩, C.deliver M node g s k before after)
      else (C.deliver M node g s k before after).edgeFetch M k (s.predictPos M k) v := by
    have hrdma' : rdmaSnapshotLookup edge (C.deliver M node g s k before after).rdmaSnapshot k
        ((C.deliver M node g s k before after).predictPos M k) 0 = (status, v) := hrdma
    rw [EndNode.fetchSibling, hrdma']
    cases status <;> rfl
  -- RDMA で外れたときだけ要求を書く
  have hreq : node.request M s k = if status = .hit then none
      else some (edgeFetchReq k (s.predictPos M k)) := by
    rw [EndNode.request, if_neg hloc, if_neg (by rw [hhot]; simp), if_pos hsame, hedge]
    dsimp only
    rw [hrdma]
    rfl
  rw [hfetch]
  by_cases hhit : status = .hit
  · subst hhit
    rw [if_pos rfl] at hreq
    have hgood := deliver_unread M h hbefore hafter hreq
    have hk := h.snapshot k _ _ v hrdma
    refine ⟨_, _, rfl, ⟨by rw [hk]; rfl, ?_, rfl⟩, hgood, by rw [hreq]; simp [Cluster.deliver]⟩
    rw [hk]
    exact fun w hw => Option.some.inj hw
  · rw [if_neg hhit] at hreq
    obtain ⟨resp, hrespond, hans⟩ := hresp (s.predictPos M k)
    have hwritten : (s.writeFrame (edgeFetchReq k (s.predictPos M k))).Good C g edge :=
      ⟨⟨h.cache, h.snapshot⟩, h.inbox⟩
    obtain ⟨r, s', hread, hright, hgood, hout⟩ :=
      hwritten.readFetchResponse M hC hans hbefore hafter v
    refine ⟨r, s', ?_, hright, hgood, by rw [hout, hreq]; rfl⟩
    have hdeliver : C.deliver M node g s k before after =
        { s with inbox := s.inbox ++ (before ++ some resp :: after) } := by
      rw [Cluster.deliver, hreq, Option.bind_some, hrespond]
      rfl
    rw [← hread, hdeliver]
    cases status with
    | hit => exact absurd rfl hhit
    | miss => rfl
    | unavailable => rfl

/-- 段階④。 -/
theorem resolved_crossEdge (hC : C.Sound f) (h : s.Good C g edge)
    (hbefore : C.Unasked g edge before) (hafter : C.Unasked g edge after)
    (hloc : node.rm.locateEnd k ≠ node.id) (hhot : s.hotCache.find k = none)
    (hpos : 0 ≤ node.rm.locateEnd k)
    (hother : ¬ node.rm.sameEdge (node.rm.locateEnd k) node.id) (hedge : node.edge = some edge)
    (hresp : ∀ id, ∃ resp, C.respond g.id (crossEdgeReq id k) = some resp ∧ C.Answers k resp) :
    Resolved C g edge s k (node.request M s k)
      (node.lookup M (C.deliver M node g s k before after) k) := by
  have hfar : 0 ≤ node.rm.locateEnd k ∧ node.edge.isSome := ⟨hpos, by rw [hedge]; rfl⟩
  have hreq : node.request M s k = some (crossEdgeReq s.nextRequestId k) := by
    rw [EndNode.request, if_neg hloc, if_neg (by rw [hhot]; simp), if_neg (fun hc => hother hc.2),
      if_pos hfar]
    rfl
  obtain ⟨resp, hrespond, hans⟩ := hresp s.nextRequestId
  have hdeliver : C.deliver M node g s k before after =
      { s with inbox := s.inbox ++ (before ++ some resp :: after) } := by
    rw [Cluster.deliver, hreq, Option.bind_some, hrespond]
    rfl
  have hwritten : (writeFrame { s with nextRequestId := (s.nextRequestId + 1) % 2 ^ 64 }
      (crossEdgeReq s.nextRequestId k)).Good C g edge := ⟨⟨h.cache, h.snapshot⟩, h.inbox⟩
  obtain ⟨r, s', hread, hright, hgood, hout⟩ :=
    hwritten.readFetchResponse M hC hans hbefore hafter 0
  have hrun : (C.deliver M node g s k before after).crossEdgeFetch M k 0 = (r, s') := by
    rw [← hread, hdeliver]
    rfl
  have hhot' : (C.deliver M node g s k before after).hotCache.find k = none := hhot
  rw [EndNode.lookup, if_neg hloc, hhot', hreq]
  dsimp only
  rw [if_neg (fun hc => hother hc.2), if_pos hfar, hrun]
  refine ⟨agrees_of_lookup hC.rows.nodup hright.ok hright.out, hgood.warm hright, ?_⟩
  rw [show s.outbox ++ (some (crossEdgeReq s.nextRequestId k)).toList = s'.outbox from hout.symm]
  exact warm_outbox s' r k

/-- **`lookup` はどの鍵についても data set の答えを返し、不変量を保つ。** -/
theorem EndSession.Good.lookup (hC : C.Sound f) {me : EndInfo} (hs : C.Started me g)
    (h : s.Good C g edge) (hbefore : C.Unasked g edge before) (hafter : C.Unasked g edge after)
    (k : Key) :
    Resolved C g edge s k ((EndNode.boot C.rm C.data me (some edge)).request M s k)
      ((EndNode.boot C.rm C.data me (some edge)).lookup M
        (C.deliver M (.boot C.rm C.data me (some edge)) g s k before after) k) := by
  have htop := hC.topology
  obtain ⟨hpos, hedgePos⟩ := htop.positive me hs.node
  by_cases hmine : me.Contains k
  · refine resolved_local M hC h hbefore hafter
      (RangeMap.locateEnd_eq htop.separated hs.node hmine) ?_
    exact (find_loadRange C.data me.keyLo me.keyHi k).trans (if_pos hmine)
  · by_cases hsome : ∃ e ∈ C.rm.ends, e.Contains k
    · obtain ⟨e, he, hk⟩ := hsome
      have hend : C.rm.locateEnd k = e.id := RangeMap.locateEnd_eq htop.separated he hk
      have hloc : C.rm.locateEnd k ≠ me.id := by
        rw [hend]
        exact fun hc => hmine (htop.eq_of_id he hs.node hc ▸ hk)
      cases hhot : s.hotCache.find k with
      | some v => exact resolved_hotCache M hC h hbefore hafter hloc hhot
      | none =>
        have hnonneg : 0 ≤ C.rm.locateEnd k := by
          rw [hend]
          exact (htop.positive e he).1.le
        have hsame : C.rm.sameEdge (C.rm.locateEnd k) me.id ↔ e.edgeId = me.edgeId := by
          rw [hend, RangeMap.sameEdge, RangeMap.edgeOf_eq htop he, RangeMap.edgeOf_eq htop hs.node,
            decide_eq_true_iff]
          exact and_iff_left (htop.positive e he).2.le
        by_cases hsib : e.edgeId = me.edgeId
        · exact resolved_sibling M hC h hbefore hafter hloc hhot ⟨hnonneg, hsame.mpr hsib⟩ rfl
            (Cluster.respond_edgeFetchReq hC hs.edge (hs.running hC) he (hsib.trans hs.parent.symm)
              hk)
        · exact resolved_crossEdge M hC h hbefore hafter hloc hhot hnonneg
            (fun hc => hsib (hsame.mp hc)) rfl (Cluster.respond_crossEdgeReq hC he hk g.id)
    · have hnone : C.rm.locateEnd k = -1 :=
        RangeMap.locateEnd_none htop.separated fun e he hc => hsome ⟨e, he, hc⟩
      have hloc : C.rm.locateEnd k ≠ me.id := by omega
      have hk : C.data.lookup k = none := by
        by_contra hc
        obtain ⟨v, hv⟩ := Option.ne_none_iff_exists'.mp hc
        exact hsome (hC.covered _ ((PlinIndex.lookup_eq_some_iff_mem hC.rows.nodup).mp hv))
      cases hhot : s.hotCache.find k with
      | some v => exact resolved_hotCache M hC h hbefore hafter hloc hhot
      | none =>
        have hneg : C.rm.locateEnd k < 0 := by omega
        exact resolved_nowhere M hC h hbefore hafter hloc hhot hneg hk

end Lookup

/-! ## 実行 -/

/-- 一段は不変量を保つ。 -/
theorem EndSession.Good.step (hC : C.Sound f) {me : EndInfo} (hs : C.Started me g)
    {s s' : EndSession P} {label : Option (Key × LookupResult)} (h : s.Good C g edge)
    (hstep : C.Step M (.boot C.rm C.data me (some edge)) g edge s label s') :
    s'.Good C g edge := by
  cases hstep with
  | arrive i hi => exact h.setInbox (EndSession.unasked_append.mpr ⟨h.inbox, hi⟩)
  | lookup k before after r s' hbefore hafter hrun =>
    have hgood := (h.lookup M hC hs hbefore hafter k).good
    rw [hrun] at hgood
    exact hgood
  | waitInitialPlinPush rounds => exact h.waitInitialPlinPush M hC rounds
  | drainEdgeControlFrames rounds => exact h.drainEdgeControlFrames M hC rounds
  | edgeReceiver => exact h.edgeReceiver M hC
  | registerWithEdge => exact ⟨⟨h.cache, h.snapshot⟩, h.inbox⟩

/-- 行き着くどの状態でも、不変量が成り立つ。 -/
theorem Cluster.Reached.good (hC : C.Sound f) {me : EndInfo} (hs : C.Started me g)
    {s : EndSession P} (h : C.Reached M me g edge s) : s.Good C g edge := by
  obtain ⟨p, hreach⟩ := h
  exact hreach.invariant (fun s => s.Good C g edge) (start_good p)
    fun s label s' hgood hstep => hgood.step M hC hs hstep

/--
**行き着くどの状態でも、`lookup` は data set の答えを返し、hot cache の組は data set の行であり、
`HOT_UPDATE` の反映は Cloud の選んだ組だけを加える。**
-/
theorem lookup_end_to_end (hC : C.Sound f) {me : EndInfo} (hs : C.Started me g)
    {s : EndSession P} (h : C.Reached M me g edge s) :
    (∀ k r s', C.Step M (.boot C.rm C.data me (some edge)) g edge s (some (k, r)) s' →
      (r.found = true ↔ ∃ v, (k, v) ∈ C.data) ∧ (r.found = true → (k, r.payload) ∈ C.data)) ∧
    (∀ k v, s.hotCache.find k = some v → (k, v) ∈ C.data) ∧
    (∀ target sent id toEnd, C.cloud.sendHotUpdate target = some sent →
      handleCloudHotUpdate sent = some (id, toEnd) →
      (∀ e ∈ C.cloud.hotPairs target, e ∈ C.data) ∧
      ∀ k v, (s.applyEdgeControlFrame M toEnd).hotCache.find k = some v ↔
        (k, v) ∈ C.cloud.hotPairs target ∨ s.hotCache.find k = some v) := by
  have hgood := h.good M hC hs
  refine ⟨?_, ?_, ?_⟩
  · intro k r s' hstep
    cases hstep with
    | lookup _ before after _ _ hbefore hafter hrun =>
      have hresolved := hgood.lookup M hC hs hbefore hafter k
      rw [hrun] at hresolved
      exact hresolved.agrees
  · intro k v hfind
    exact (PlinIndex.lookup_eq_some_iff_mem hC.rows.nodup).mp (hgood.cache k v hfind)
  · intro target sent id toEnd hsend hforward
    obtain ⟨happly, hiff⟩ := hgood.toHolds.apply_hotUpdate M hC hsend hforward
    rw [happly]
    exact ⟨fun e he => hotPairs_mem hC he, hiff⟩

/-! ## 二つの Edge の系 -/

/-- 一行だけを読み込んだ索引の `find` は正確である。検査は計算で済む。 -/
theorem exists_oneRowIndex {k₀ : Key} {v : Payload} (hfree : k₀ < freeFlag)
    (hcheck : ((PlinIndex.bulkLoad exactFitter [(k₀, v)]).toOption.any fun s =>
      (s.inners.all fun nd => decide
        (InnerNode.predictBlock k₀ nd.slope nd.intercept nd.blockNumber < nd.blockNumber)) &&
      decide ((s.find k₀ 0).toOption = some (true, v))) = true) :
    ∃ s : PlinIndex ℚ, PlinIndex.bulkLoad exactFitter [(k₀, v)] = .ok s ∧
      ∀ k p, s.find k p = .ok (match [(k₀, v)].lookup k with
        | some v => (true, v)
        | none => (false, p)) := by
  cases hs : PlinIndex.bulkLoad exactFitter [(k₀, v)] with
  | error e =>
    rw [hs] at hcheck
    cases hcheck
  | ok s =>
    rw [hs] at hcheck
    obtain ⟨hinners, hfind⟩ := (Bool.and_eq_true _ _).mp hcheck
    have hload := PlinIndex.bulkLoad_loaded hs
    have hd : PlinIndex.LoadData [(k₀, v)] := ⟨by simp, by simpa using hfree⟩
    have hmin : k₀ = s.minKey := Option.some.inj hload.min
    have hmax : k₀ = s.maxKey := Option.some.inj hload.max
    have hr : s.InnersRegular := by
      intro nd hnd
      have hnode := of_decide_eq_true (List.all_eq_true.mp hinners nd hnd)
      rw [← hmin, ← hmax]
      refine ⟨fun a b ha hab hb => ?_, fun k h1 h2 => ?_⟩
      · rw [le_antisymm hab (le_trans hb ha)]
      · rw [le_antisymm h2 h1]
        exact hnode
    refine ⟨s, rfl, fun k p => ?_⟩
    by_cases hk : k = k₀
    · obtain ⟨t, rest, hsteered⟩ := hload.steered hd hr
      obtain ⟨m, hm, -⟩ := hload.findThroughNet_eq hd hsteered k
      have hfound := of_decide_eq_true hfind
      rw [← hk, hm 0] at hfound
      rw [hm p, hk, List.lookup_cons_self]
      cases m with
      | none => cases hfound
      | some v' =>
        obtain ⟨-, rfl⟩ := Prod.mk.inj (Option.some.inj hfound)
        rfl
    · have hout : ¬ (s.minKey ≤ k ∧ k ≤ s.maxKey) := by
        rw [← hmin, ← hmax]
        exact fun hc => hk (le_antisymm hc.2 hc.1)
      have hnone : [(k₀, v)].lookup k = none := by
        rw [List.lookup_cons, show (k == k₀) = false by simpa using hk]
        rfl
      rw [hnone]
      exact hload.find_outside hout p

/-- 遠隔読み出しの無い接続。 -/
def plainEdge : Transport := ⟨false, fun _ _ => none, fun _ _ _ => none⟩

/-- End 1。 -/
def endOne : EndInfo := ⟨1, 1, Key.ofNat 0, Key.ofNat 10⟩

/-- 二つの Edge に End が一つずつ属する配置。 -/
def pairMap : RangeMap where
  edges := [⟨1, [1]⟩, ⟨2, [2]⟩]
  ends := [endOne, ⟨2, 2, Key.ofNat 20, Key.ofNat 30⟩]

/-- どちらの End にも一行ずつ在る data set。 -/
def pairRows : List (Key × Payload) := [(Key.ofNat 3, 30), (Key.ofNat 25, 7)]

/-- Cloud は End 1 の行を End 1 に送る。 -/
def pairCloud : CloudServer :=
  { hotTopn := 5, rm := pairMap, data := pairRows, hotPositions := [[], [1], [2]]
    edges := [1, 2] }

def pairCluster (near far : PlinIndex ℚ) : Cluster ℚ :=
  ⟨pairMap, pairRows, pairCloud, fun g => if g = 1 then near else far⟩

theorem pairMap_wellFormed : pairMap.WellFormed where
  sorted := by decide
  inhabited := by decide
  disjoint := by
    have hgap : Key.ofNat 10 < Key.ofNat 20 := by decide
    exact List.pairwise_pair.mpr (EndInfo.not_contains_both hgap)
  ids := by decide
  edgeIds := by decide
  positive := by decide
  consistent := by decide
  known := by decide

theorem edgeData_pairCluster (near far : PlinIndex ℚ) :
    (pairCluster near far).edgeData ⟨1, [1]⟩ = [(Key.ofNat 3, 30)] ∧
      (pairCluster near far).edgeData ⟨2, [2]⟩ = [(Key.ofNat 25, 7)] := by
  have hrows : loadRange pairRows (edgeRange pairMap ⟨1, [1]⟩).1 (edgeRange pairMap ⟨1, [1]⟩).2 =
        [(Key.ofNat 3, 30)] ∧
      loadRange pairRows (edgeRange pairMap ⟨2, [2]⟩).1 (edgeRange pairMap ⟨2, [2]⟩).2 =
        [(Key.ofNat 25, 7)] := by
    decide +kernel
  exact hrows

/-- 二つの Edge が正確な索引を作れば、系は健全である。 -/
theorem exists_pairCluster :
    ∃ near far : PlinIndex ℚ, (pairCluster near far).Sound exactFitter := by
  obtain ⟨near, hnear, hnearFind⟩ := @exists_oneRowIndex (Key.ofNat 3) 30
    (by decide +kernel) (by decide +kernel)
  obtain ⟨far, hfar, hfarFind⟩ := @exists_oneRowIndex (Key.ofNat 25) 7
    (by decide +kernel) (by decide +kernel)
  obtain ⟨hone, htwo⟩ := edgeData_pairCluster near far
  have hrows : PlinIndex.LoadData pairRows := ⟨by decide +kernel, by decide +kernel⟩
  have hcovered : ∀ e ∈ pairRows, ∃ n ∈ pairMap.ends, n.Contains e.1 := by decide
  have hconnected : 1 ∈ pairCloud.edges ∧ 2 ∈ pairCloud.edges := by decide
  refine ⟨near, far, pairMap_wellFormed, hrows, ?_, hcovered, rfl, rfl, ?_, ?_, ?_⟩
  · exact lt_trans (by decide : 2 < 2 ^ 2) (Nat.pow_lt_pow_right (by decide) (by decide))
  all_goals
    intro g hg
    rcases List.mem_pair.mp hg with rfl | rfl
  · rw [hone]
    exact iff_of_true hconnected.1 (by simp)
  · rw [htwo]
    exact iff_of_true hconnected.2 (by simp)
  · rw [hone]
    exact fun _ => hnear
  · rw [htwo]
    exact fun _ => hfar
  · rw [hone]
    exact fun _ k p _ _ => hnearFind k p
  · rw [htwo]
    exact fun _ k p _ _ => hfarFind k p

/-- Cloud が End 1 に送る `HOT_UPDATE`。 -/
theorem exists_pairPush : ∃ sent id push, pairCloud.sendHotUpdate 1 = some sent ∧
    handleCloudHotUpdate sent = some (id, push) := by
  have hforward : ((pairCloud.sendHotUpdate 1).bind handleCloudHotUpdate).isSome = true := by
    decide +kernel
  obtain ⟨⟨id, push⟩, h⟩ := Option.isSome_iff_exists.mp hforward
  obtain ⟨sent, hsend, hhandle⟩ := Option.bind_eq_some_iff.mp h
  exact ⟨sent, id, push, hsend, hhandle⟩

/-- Edge 1 の End 1 が Edge 2 の鍵 25 を引く。応答の前に `HOT_UPDATE` が届いている。 -/
theorem lookup_end_to_end_cross :
    ∃ (near far : PlinIndex ℚ) (push : Frame) (r : LookupResult) (s' : EndSession Unit),
      (pairCluster near far).Control ⟨1, [1]⟩ plainEdge push ∧
      (EndNode.boot pairMap pairRows endOne (some plainEdge)).lookup blankModel
        ((pairCluster near far).deliver blankModel
          (.boot pairMap pairRows endOne (some plainEdge)) ⟨1, [1]⟩ (Cluster.start ())
          (Key.ofNat 25) [some push] []) (Key.ofNat 25) = (r, s') ∧
      (r.found = true ↔ ∃ v, (Key.ofNat 25, v) ∈ pairRows) ∧
      (r.found = true → (Key.ofNat 25, r.payload) ∈ pairRows) := by
  obtain ⟨near, far, hsound⟩ := exists_pairCluster
  obtain ⟨sent, id, push, hsend, hforward⟩ := exists_pairPush
  have hrow : ∃ e ∈ pairRows, endOne.Contains e.1 := by decide
  have hstarted : (pairCluster near far).Started endOne ⟨1, [1]⟩ :=
    ⟨List.mem_cons_self, List.mem_cons_self, rfl, hrow⟩
  have hreach : (pairCluster near far).Reached blankModel endOne ⟨1, [1]⟩ plainEdge
      (Cluster.start ()) := ⟨(), Reach.refl _⟩
  have hcontrol : (pairCluster near far).Control ⟨1, [1]⟩ plainEdge push :=
    .hotUpdate 1 sent id push hsend hforward
  have hbefore : (pairCluster near far).Unasked ⟨1, [1]⟩ plainEdge [some push] := by
    intro f hf
    obtain rfl := Option.some.inj (List.mem_singleton.mp hf)
    exact hcontrol
  have hafter : (pairCluster near far).Unasked ⟨1, [1]⟩ plainEdge [] := by
    intro f hf
    cases hf
  have hstep := Cluster.Step.lookup (Cluster.start ()) (Key.ofNat 25) [some push] [] _ _ hbefore
    hafter (Eq.refl ((EndNode.boot pairMap pairRows endOne (some plainEdge)).lookup blankModel
      ((pairCluster near far).deliver blankModel _ ⟨1, [1]⟩ (Cluster.start ()) (Key.ofNat 25)
        [some push] []) (Key.ofNat 25)))
  exact ⟨near, far, push, _, _, hcontrol, rfl,
    (lookup_end_to_end blankModel hsound hstarted hreach).1 _ _ _ hstep⟩

end Plin
