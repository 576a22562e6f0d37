import Plin.Cloud.Cluster
import Plin.Properties.CrossEdgeProgress
import Plin.Properties.RangeMap
import Plin.Properties.SlotHint

/-!
# 系の応答は data set の答えになる

Edge は受け持つ区間の行で索引を作る。配置が正しければ、親の Edge への要求にも、Cloud を経た他の Edge への
要求にも、data set を引いた答えが返る（`Cluster.respond_edgeFetchReq`、`Cluster.respond_crossEdgeReq`）。
-/

namespace Plin

open Infra

/-! ## 読み込み -/

theorem find_foldl_insertRow (data : List (Key × Payload)) (lo hi k : Key) :
    ∀ m : SortedMap Key Payload, (data.foldl (LocalStore.insertRow lo hi) m).find k =
      (m.find k).or (if lo ≤ k ∧ k ≤ hi then data.lookup k else none) := by
  induction data with
  | nil =>
    intro m
    simp
  | cons e data ih =>
    intro m
    rw [List.foldl_cons, ih, List.lookup_cons, LocalStore.insertRow]
    by_cases hk : k = e.1
    · subst hk
      by_cases hin : lo ≤ e.1 ∧ e.1 ≤ hi
      · cases hm : m.find e.1 with
        | none => simp [hin]
        | some v => simp [hm]
      · rw [if_neg (fun hc => hin ⟨hc.1, hc.2.1⟩), if_neg hin, if_neg hin]
    · have hbeq : (k == e.1) = false := by simpa using hk
      rw [hbeq]
      split
      · rw [SortedMap.find_upsert, if_neg hk]
      · rfl

/-- End の B+ 木は、区間の中の行だけを持つ。 -/
theorem find_loadRange (data : List (Key × Payload)) (lo hi k : Key) :
    (LocalStore.loadRange data lo hi).find k =
      if lo ≤ k ∧ k ≤ hi then data.lookup k else none := by
  rw [LocalStore.loadRange, find_foldl_insertRow, SortedMap.find_empty, Option.none_or]

/-- Edge の読み込んだ行を引く。 -/
theorem lookup_loadRange (data : List (Key × Payload)) {lo hi k : Key} (h : lo ≤ k ∧ k ≤ hi) :
    (loadRange data lo hi).lookup k = data.lookup k := by
  induction data with
  | nil => rfl
  | cons e data ih =>
    rw [loadRange, List.filter_cons]
    by_cases hk : k = e.1
    · subst hk
      rw [if_pos (decide_eq_true h), List.lookup_cons, List.lookup_cons]
      simp
    · have hskip (l : List (Key × Payload)) : (e :: l).lookup k = l.lookup k := by
        rw [List.lookup_cons, show (k == e.1) = false by simpa using hk]
      rw [hskip]
      split
      · rw [hskip]
        exact ih
      · exact ih

/-- 広げた区間は、元の区間と、番号の合う End の区間を覆う。 -/
theorem foldl_widen (eid : Int) (ends : List EndInfo) : ∀ r : Key × Key,
    ((ends.foldl (widen eid) r).1 ≤ r.1 ∧ r.2 ≤ (ends.foldl (widen eid) r).2) ∧
      ∀ en ∈ ends, en.id = eid →
        (ends.foldl (widen eid) r).1 ≤ en.keyLo ∧ en.keyHi ≤ (ends.foldl (widen eid) r).2 := by
  induction ends with
  | nil => exact fun r => ⟨⟨le_rfl, le_rfl⟩, by simp⟩
  | cons a ends ih =>
    intro r
    rw [List.foldl_cons]
    obtain ⟨hgrow, hin⟩ := ih (widen eid r a)
    have hstep : (widen eid r a).1 ≤ r.1 ∧ r.2 ≤ (widen eid r a).2 := by
      unfold widen
      split
      · exact ⟨min_le_left .., le_max_left ..⟩
      · exact ⟨le_rfl, le_rfl⟩
    refine ⟨⟨hgrow.1.trans hstep.1, hstep.2.trans hgrow.2⟩, fun en hen hid => ?_⟩
    rcases List.mem_cons.mp hen with rfl | hen
    · have hself : widen eid r en = (min r.1 en.keyLo, max r.2 en.keyHi) := if_pos hid
      rw [hself] at hgrow ⊢
      exact ⟨hgrow.1.trans (min_le_right ..), (le_max_right ..).trans hgrow.2⟩
    · exact hin en hen hid

/-- Edge の区間は、受け持つ End の区間を覆う。 -/
theorem edgeRange_covers {rm : RangeMap} {g : EdgeInfo} {e : EndInfo} (he : e ∈ rm.ends)
    (hid : e.id ∈ g.endIds) : (edgeRange rm g).1 ≤ e.keyLo ∧ e.keyHi ≤ (edgeRange rm g).2 := by
  have hfold : ∀ (ids : List Int) (r : Key × Key),
      let r' := ids.foldl (fun r eid => rm.ends.foldl (widen eid) r) r
      (r'.1 ≤ r.1 ∧ r.2 ≤ r'.2) ∧ (e.id ∈ ids → r'.1 ≤ e.keyLo ∧ e.keyHi ≤ r'.2) := by
    intro ids
    induction ids with
    | nil => exact fun r => ⟨⟨le_rfl, le_rfl⟩, by simp⟩
    | cons eid ids ih =>
      intro r
      rw [List.foldl_cons]
      obtain ⟨hfirst, hmem⟩ := foldl_widen eid rm.ends r
      obtain ⟨hgrow, hin⟩ := ih (rm.ends.foldl (widen eid) r)
      refine ⟨⟨hgrow.1.trans hfirst.1, hfirst.2.trans hgrow.2⟩, fun hid => ?_⟩
      rcases List.mem_cons.mp hid with hid | hid
      · obtain ⟨h1, h2⟩ := hmem e he hid
        exact ⟨hgrow.1.trans h1, h2.trans hgrow.2⟩
      · exact hin hid
  exact (hfold g.endIds _).2 hid

/-! ## frame を読む -/

theorem length_fields (fs : List (Nat × Nat)) :
    (fs.flatMap fun f => leBytes f.1 f.2).length = (fs.map Prod.fst).sum := by
  induction fs with
  | nil => rfl
  | cons f fs ih => rw [List.flatMap_cons, List.length_append, length_leBytes, ih]; rfl

/-- 並んだ field の一つを読む。 -/
theorem readField (fs : List (Nat × Nat)) (i w v : Nat) (hi : fs[i]? = some (w, v))
    (hv : v < 256 ^ w) :
    ofLeBytes (((fs.flatMap fun f => leBytes f.1 f.2).drop ((fs.take i).map Prod.fst).sum).take w) =
      v := by
  obtain ⟨hlt, hget⟩ := List.getElem?_eq_some_iff.mp hi
  have hcut : fs = fs.take i ++ (w, v) :: fs.drop (i + 1) := by
    rw [← hget, ← List.drop_eq_getElem_cons hlt, List.take_append_drop]
  have hflat : (fs.flatMap fun f => leBytes f.1 f.2) = ((fs.take i).flatMap fun f =>
      leBytes f.1 f.2) ++ (leBytes w v ++ (fs.drop (i + 1)).flatMap fun f => leBytes f.1 f.2) := by
    have hmid : leBytes w v ++ ((fs.drop (i + 1)).flatMap fun f => leBytes f.1 f.2) =
        ((w, v) :: fs.drop (i + 1)).flatMap fun f => leBytes f.1 f.2 := rfl
    rw [hmid, ← List.flatMap_append, ← hcut]
  rw [hflat, List.drop_left' (length_fields _), List.take_left' (length_leBytes w v),
    ofLeBytes_leBytes, Nat.mod_eq_of_lt hv]

/-- 値が field の幅に収まる `SnapshotInfo` は、そのまま読み戻される。 -/
theorem decodeSnapshotInfo_make {info : SnapshotInfo} (padding : Nat)
    (h : ∀ f ∈ info.fields 0, f.2 < 256 ^ f.1) :
    decodeSnapshotInfo (makeRdmaSnapshotInfo info padding).body = info := by
  unfold SnapshotInfo.fields at h
  simp only [List.forall_mem_cons] at h
  obtain ⟨h1, h2, h3, h4, h5, h6, h7, -, h8, -⟩ := h
  have f1 := readField (info.fields padding) 0 4 info.magic rfl h1
  have f2 := readField (info.fields padding) 1 4 info.version rfl h2
  have f3 := readField (info.fields padding) 2 8 info.descAddr rfl h3
  have f4 := readField (info.fields padding) 3 4 info.descRkey rfl h4
  have f5 := readField (info.fields padding) 4 4 info.leafCount rfl h5
  have f6 := readField (info.fields padding) 5 8 info.recordAddr rfl h6
  have f7 := readField (info.fields padding) 6 4 info.recordRkey rfl h7
  have f8 := readField (info.fields padding) 8 8 info.recordCount rfl h8
  unfold decodeSnapshotInfo makeRdmaSnapshotInfo
  generalize ((info.fields padding).flatMap fun f => leBytes f.1 f.2) = b at *
  simp only [SnapshotInfo.fields, List.take_zero, List.take_succ_cons, List.map_nil, List.map_cons,
    List.sum_nil, List.sum_cons, Nat.add_zero, Nat.reduceAdd] at f1 f2 f3 f4 f5 f6 f7 f8
  dsimp only
  rw [f1, f2, f3, f4, f5, f6, f7, f8]

theorem decodeFetchResp_make (status : Status) (v out : Payload) :
    EndSession.decodeFetchResp (makeFetchResp status v) out =
      ⟨decide (status = .ok), v, false⟩ := by
  have hbody : (makeFetchResp status v).body = status.byte :: (leBytes 8 v.toNat ++ [0]) := rfl
  have hlen : ¬ (makeFetchResp status v).body.length < 9 := by
    rw [hbody]
    simp
  have hstatus : (status.byte = Status.ok.byte) ↔ status = .ok := by cases status <;> decide
  rw [EndSession.decodeFetchResp, if_neg hlen, hbody]
  simp only [List.headD_cons, hstatus, List.drop_succ_cons, List.drop_zero,
    List.take_left' (length_leBytes 8 _), UInt64.ofNat_ofLeBytes, List.getElem?_cons_succ]
  rw [List.getElem?_append_right (by simp), length_leBytes]
  rfl

/-! ## 系の仮定 -/

variable {D : Type} [Arith D] {P : Type}

/--
系の仮定。

配置は正しく、data の鍵はどれも End の区間に入る。Cloud は同じ配置と data を持つ。行の在る Edge は起動して
Cloud につながり、その索引の `find` は読み込んだ区間の上で正確である。行は 16 byte で、番地の範囲に
収まる。
-/
structure Cluster.Sound (f : Fitter D) (C : Cluster D) : Prop where
  topology : C.rm.WellFormed
  rows : PlinIndex.LoadData C.data
  fits : C.data.length < 2 ^ 60
  covered : ∀ e ∈ C.data, ∃ n ∈ C.rm.ends, n.Contains e.1
  cloudRm : C.cloud.rm = C.rm
  cloudData : C.cloud.data = C.data
  connected : ∀ g ∈ C.rm.edges, g.id ∈ C.cloud.edges ↔ C.edgeData g ≠ []
  built : ∀ g ∈ C.rm.edges, C.edgeData g ≠ [] →
    PlinIndex.bulkLoad f (C.edgeData g) = .ok (C.index g.id)
  exact : ∀ g ∈ C.rm.edges, C.edgeData g ≠ [] → ∀ k p, (edgeRange C.rm g).1 ≤ k →
    k ≤ (edgeRange C.rm g).2 → (C.index g.id).find k p = .ok (match (C.edgeData g).lookup k with
      | some v => (true, v)
      | none => (false, p))

/-- 起動した End とその Edge。行を一つも読み込めない End は起動しない。 -/
structure Cluster.Started (C : Cluster D) (me : EndInfo) (g : EdgeInfo) : Prop where
  node : me ∈ C.rm.ends
  edge : g ∈ C.rm.edges
  parent : g.id = me.edgeId
  loaded : ∃ e ∈ C.data, me.Contains e.1

namespace Cluster

variable {f : Fitter D} {C : Cluster D} {g : EdgeInfo} {e : EndInfo} {k : Key}

theorem loadData_edgeData (hC : C.Sound f) (g : EdgeInfo) : PlinIndex.LoadData (C.edgeData g) where
  strict := hC.rows.strict.sublist ((List.filter_sublist ..).map _)
  below e he := hC.rows.below e (List.mem_of_mem_filter he)

/-- 受け持つ End の区間の鍵は、Edge の区間に入る。 -/
theorem within_edgeRange (hC : C.Sound f) (hg : g ∈ C.rm.edges) (he : e ∈ C.rm.ends)
    (hid : e.edgeId = g.id) (hk : e.Contains k) :
    (edgeRange C.rm g).1 ≤ k ∧ k ≤ (edgeRange C.rm g).2 := by
  have hcov := edgeRange_covers he ((hC.topology.consistent g hg e he).mpr hid)
  exact ⟨hcov.1.trans hk.1, hk.2.trans hcov.2⟩

theorem lookup_edgeData (hC : C.Sound f) (hg : g ∈ C.rm.edges) (he : e ∈ C.rm.ends)
    (hid : e.edgeId = g.id) (hk : e.Contains k) : (C.edgeData g).lookup k = C.data.lookup k :=
  lookup_loadRange C.data (within_edgeRange hC hg he hid hk)

/-- Edge の `find` は data set の答えを返す。 -/
theorem edgeIndex_find (hC : C.Sound f) (hg : g ∈ C.rm.edges) (hrun : C.edgeData g ≠ [])
    (he : e ∈ C.rm.ends) (hid : e.edgeId = g.id) (hk : e.Contains k) (p : Payload) :
    (C.index g.id).edgeIndex.find (some k) p =
      ((C.data.lookup k).isSome, (C.data.lookup k).getD p) := by
  obtain ⟨hlo, hhi⟩ := within_edgeRange hC hg he hid hk
  rw [PlinIndex.edgeIndex_find_of_ok (hC.exact g hg hrun k p hlo hhi),
    lookup_edgeData hC hg he hid hk]
  cases C.data.lookup k <;> rfl

/-- slot を添えても、Edge は data set の答えを返す。 -/
theorem fetchFromIndex_eq (hC : C.Sound f) (hg : g ∈ C.rm.edges) (hrun : C.edgeData g ≠ [])
    (he : e ∈ C.rm.ends) (hid : e.edgeId = g.id) (hk : e.Contains k) (slot : Int32) :
    fetchFromIndex (C.index g.id).edgeIndex (some k) slot =
      ((C.data.lookup k).isSome, (C.data.lookup k).getD 0) := by
  obtain ⟨hlo, hhi⟩ := within_edgeRange hC hg he hid hk
  have hidx := edgeIndex_find hC hg hrun he hid hk
  unfold fetchFromIndex
  split
  · obtain ⟨ret, v, hnet, hone, hother⟩ := (PlinIndex.bulkLoad_loaded
      (hC.built g hg hrun)).findThroughNet_sound (loadData_edgeData hC g)
      (hC.exact g hg hrun k 0 hlo hhi) slot.toInt
    rw [PlinIndex.edgeIndex_findThroughNet_of_ok hnet]
    dsimp only
    rw [lookup_edgeData hC hg he hid hk] at hone hother
    by_cases h1 : ret = 1
    · rw [if_pos h1, hone h1]
      rfl
    · rw [if_neg h1, hidx, hother h1]
      cases C.data.lookup k <;> rfl
  · exact hidx 0

/-- 行の無い Edge の区間に、data の鍵は無い。 -/
theorem lookup_of_idle (hC : C.Sound f) (hg : g ∈ C.rm.edges) (hidle : ¬ C.edgeData g ≠ [])
    (he : e ∈ C.rm.ends) (hid : e.edgeId = g.id) (hk : e.Contains k) :
    C.data.lookup k = none := by
  rw [← lookup_edgeData hC hg he hid hk, not_not.mp hidle]
  rfl

/-- 起動した End の Edge には行が在る。 -/
theorem Started.running {me : EndInfo} (hC : C.Sound f) (h : C.Started me g) :
    C.edgeData g ≠ [] := by
  obtain ⟨row, hrow, hin⟩ := h.loaded
  intro hnil
  have hnone := lookup_of_idle hC h.edge (not_not.mpr hnil) h.node h.parent.symm hin
  have hsome := (PlinIndex.lookup_eq_some_iff_mem hC.rows.nodup).mpr hrow
  rw [hnone] at hsome
  cases hsome

/-! ## 要求への応答 -/

/-- 応答は、data set で `k` を引いた答えである。 -/
def Answers (C : Cluster D) (k : Key) (resp : Frame) : Prop :=
  ∃ status v, resp = makeFetchResp status v ∧ (status = .ok ↔ (C.data.lookup k).isSome) ∧
    ∀ w, C.data.lookup k = some w → v = w

omit [Arith D] in
theorem answers_found (C : Cluster D) (k : Key) (p : Payload) :
    C.Answers k (makeFetchResp (if (C.data.lookup k).isSome then .ok else .notFound)
      ((C.data.lookup k).getD p)) := by
  refine ⟨_, _, rfl, ?_, ?_⟩
  · cases C.data.lookup k <;> simp
  · intro w hw
    rw [hw]
    rfl

omit [Arith D] in
theorem answers_none {status : Status} (hs : status ≠ .ok) (hk : C.data.lookup k = none)
    (v : Payload) : C.Answers k (makeFetchResp status v) := by
  refine ⟨status, v, rfl, ?_, ?_⟩
  · simp [hs, hk]
  · intro w hw
    rw [hk] at hw
    cases hw

/-- **親の Edge への要求には、data set の答えが返る。** -/
theorem respond_edgeFetchReq (hC : C.Sound f) (hg : g ∈ C.rm.edges) (hrun : C.edgeData g ≠ [])
    (he : e ∈ C.rm.ends) (hid : e.edgeId = g.id) (hk : e.Contains k) (slot : Int32) :
    ∃ resp, C.respond g.id (edgeFetchReq k slot) = some resp ∧ C.Answers k resp := by
  refine ⟨_, ?_, C.answers_found k 0⟩
  have htype : (edgeFetchReq k slot).type = .edgeFetchReq := rfl
  rw [respond, if_neg (by rw [htype]; decide), if_pos htype, handleEdgeFetchReq,
    readDouble_edgeFetchReq]
  dsimp only
  rw [predictedSlot_edgeFetchReq, fetchFromIndex_eq hC hg hrun he hid hk]

/-- **Cloud を経た要求には、data set の答えが返る。** 行の無い Edge は Cloud につながらない。 -/
theorem respond_crossEdgeReq (hC : C.Sound f) (he : e ∈ C.rm.ends) (hk : e.Contains k)
    (home : Int) (id : Nat) :
    ∃ resp, C.respond home (crossEdgeReq id k) = some resp ∧ C.Answers k resp := by
  obtain ⟨g, hg, hid⟩ := hC.topology.known e he
  obtain ⟨hpos, hedge⟩ := hC.topology.positive e he
  have hroute : C.cloud.routeCrossEdgeReq (crossEdgeReq id k) = .ok g.id := by
    have hend : C.cloud.rm.locateDouble (some k) = e.id := by
      rw [hC.cloudRm]
      exact RangeMap.locateEnd_eq hC.topology.separated he hk
    rw [CloudServer.routeCrossEdgeReq, readDouble_crossEdgeReq]
    dsimp only
    rw [hend, hC.cloudRm, RangeMap.edgeOf_eq hC.topology he, if_neg (by omega), hid]
  rw [respond, if_pos (type_crossEdgeReq id k), hroute]
  dsimp only
  by_cases hrun : C.edgeData g ≠ []
  · rw [if_pos ((hC.connected g hg).mpr hrun)]
    refine ⟨_, rfl, ?_⟩
    rw [handleCloudCrossReq, readDouble_crossEdgeReq]
    show C.Answers k (makeFetchResp
      (if ((C.index g.id).edgeIndex.find (some k) 0).1 then .ok else .notFound)
      ((C.index g.id).edgeIndex.find (some k) 0).2)
    rw [edgeIndex_find hC hg hrun he hid.symm hk]
    exact C.answers_found k 0
  · rw [if_neg (fun hc => hrun ((hC.connected g hg).mp hc))]
    exact ⟨_, rfl, answers_none (by decide) (lookup_of_idle hC hg hrun he hid.symm hk) 0⟩

end Cluster

end Plin
