import Plin.Properties.IndexShape

/-!
# `bulk_load` の直後の索引

`bulk_load` が終われば、索引は形（`PlinIndex.Shape`）を満たし、どの leaf にも親 slot が在る。
中身は渡された組そのものである。
-/

namespace Plin

open Infra

variable {D : Type} [Arith D]

namespace PlinIndex

/-! ## 構築の中身 -/

/-- leaf の区分。 -/
def loadSegments (f : Fitter D) (data : List (Key × Payload)) : List (Segment D) :=
  makeSegmentation f epsilonLeafNode (data.map Prod.fst)

/-- 作られる leaf の列。 -/
def loadLeaves (f : Fitter D) (data : List (Key × Payload)) : List (LeafNode D) :=
  freshLeaves (loadSegments f data) data 0 none 0

/-- 作られる leaf の連鎖。 -/
def loadChain (f : Fitter D) (data : List (Key × Payload)) : List (Link D) :=
  linkLeaves 0 none (loadLeaves f data)

variable {f : Fitter D} {data : List (Key × Payload)} {s : PlinIndex D}

theorem length_loadLeaves : (loadLeaves f data).length = (loadSegments f data).length :=
  length_freshLeaves ..

/-- どの leaf も `next` が null のまま作られる。 -/
theorem freshLeaves_next {segs : List (Segment D)} :
    ∀ {data : List (Key × Payload)} {startPos : Nat} {prev : Option LeafId} {id : LeafId},
      ∀ l ∈ freshLeaves segs data startPos prev id, l.next = none := by
  induction segs with
  | nil => simp [freshLeaves]
  | cons seg segs ih =>
    intro data startPos prev id l hl
    rw [freshLeaves] at hl
    rcases List.mem_cons.mp hl with rfl | hl
    · rw [(LeafNode.new_header _ _ _ _ _ _).header]
      rfl
    · exact ih l hl

/-- `set_next` の loop の後の heap。 -/
theorem linkNext_loadLeaves (f : Fitter D) (data : List (Key × Payload)) :
    linkNext (loadLeaves f data) 0 ((loadSegments f data).length - 1) =
      (loadChain f data).map Prod.snd := by
  refine List.ext_getElem? fun i => ?_
  rw [getElem?_linkNext, List.getElem?_map, loadChain, getElem?_linkLeaves, length_loadLeaves]
  cases hl : (loadLeaves f data)[i]? with
  | none => simp
  | some l =>
    have hi := (List.getElem?_eq_some_iff.mp hl).1
    rw [length_loadLeaves] at hi
    have hnext := freshLeaves_next l (List.mem_of_getElem? hl)
    by_cases hlast : i + 1 = (loadSegments f data).length
    · rw [if_neg (by omega)]
      simp [hlast, ← hnext]
    · rw [if_pos (by omega)]
      simp [hlast]

theorem mapIdx_getInfo (f : Fitter D) (data : List (Key × Payload)) :
    ((loadChain f data).map Prod.snd).mapIdx (fun i l => l.getInfo i) =
      (loadChain f data).map Link.info := by
  refine List.ext_getElem? fun i => ?_
  rw [List.getElem?_mapIdx, List.getElem?_map, List.getElem?_map, loadChain, getElem?_linkLeaves]
  cases (loadLeaves f data)[i]? with
  | none => rfl
  | some l =>
    simp only [Option.map_some, Link.info, Nat.zero_add]

/-- `bulk_load` の結果。 -/
structure Loaded (f : Fitter D) (data : List (Key × Payload)) (s : PlinIndex D) : Prop where
  leaves : s.leaves = (loadChain f data).map Prod.snd
  small : ∀ l ∈ loadLeaves f data, l.blockNumber < 2 ^ 29
  levels : buildLevels f innerBlocksForLoad ((loadSegments f data).length + 1)
    (loadSegments f data) (loadSegments f data).length ((loadSegments f data).map (·.firstKey))
    ((loadChain f data).map Link.info) [] [] = .ok ⟨s.inners, s.roots, s.parameter⟩
  table : s.localTable = ((loadSegments f data).map (·.firstKey)).mapIdx fun i k => ⟨k, i⟩
  number : s.leafNumber = (loadSegments f data).length % 2 ^ 32
  min : (data.map Prod.fst).head? = some s.minKey
  max : (data.map Prod.fst).getLast? = some s.maxKey
  left : s.leftBuffer = .empty
  right : s.rightBuffer = .empty
  orphans : s.orphanNumber = 0

/-- `bulk_load` が終われば、結果は `Loaded` である。 -/
theorem bulkLoad_loaded (h : bulkLoad f data = .ok s) : Loaded f data s := by
  cases data with
  | nil => cases h
  | cons first rest =>
    have hbuild := buildLeaves_eq (loadSegments f (first :: rest)) (first :: rest) 0 none []
    rw [List.nil_append, List.length_nil, ← loadLeaves] at hbuild
    unfold bulkLoad at h
    dsimp only at h
    rw [← loadSegments, hbuild] at h
    by_cases hsmall : ∀ l ∈ loadLeaves f (first :: rest), l.blockNumber < 2 ^ 29
    · rw [if_pos hsmall] at h
      simp only [bind, Except.bind] at h
      rw [linkNext_loadLeaves, mapIdx_getInfo] at h
      split at h
      · cases h
      · next built hlevels =>
        cases h
        refine ⟨rfl, hsmall, hlevels, rfl, rfl, rfl, ?_, rfl, rfl, rfl⟩
        rw [List.map_cons, List.getLast?_cons, List.getLastD_eq_getLast?, List.getLast?_map]
        cases rest.getLast? <;> rfl
    · rw [if_neg hsmall] at h
      cases h

/-- leaf が `assert` を破らず、段が積めれば、`bulk_load` は終わる。 -/
theorem exists_bulkLoad {b : Built D} (hne : data ≠ [])
    (hsmall : ∀ l ∈ loadLeaves f data, l.blockNumber < 2 ^ 29)
    (hlevels : buildLevels f innerBlocksForLoad ((loadSegments f data).length + 1)
      (loadSegments f data) (loadSegments f data).length ((loadSegments f data).map (·.firstKey))
      ((loadChain f data).map Link.info) [] [] = .ok b) :
    ∃ s, bulkLoad f data = .ok s ∧ s.inners = b.inners ∧ s.roots = b.roots ∧
      s.parameter = b.parameter := by
  obtain ⟨first, rest, rfl⟩ := List.exists_cons_of_ne_nil hne
  have hbuild := buildLeaves_eq (loadSegments f (first :: rest)) (first :: rest) 0 none []
  rw [List.nil_append, List.length_nil, ← loadLeaves, if_pos hsmall] at hbuild
  cases hs : bulkLoad f (first :: rest) with
  | error e =>
    unfold bulkLoad at hs
    dsimp only at hs
    rw [← loadSegments, hbuild] at hs
    simp only [bind, Except.bind] at hs
    rw [linkNext_loadLeaves, mapIdx_getInfo, hlevels] at hs
    cases hs
  | ok s =>
    have hbuilt := (bulkLoad_loaded hs).levels
    rw [hlevels] at hbuilt
    obtain ⟨hinners, hroots, hparams⟩ := Built.mk.inj (Except.ok.inj hbuilt)
    exact ⟨s, rfl, hinners.symm, hroots.symm, hparams.symm⟩

/-! ## 形と中身 -/

/-- 渡される組。鍵は番兵より小さく、狭義に増加する。 -/
structure LoadData (data : List (Key × Payload)) : Prop where
  strict : (data.map Prod.fst).Pairwise (· < ·)
  below : ∀ e ∈ data, e.1 < freeFlag

theorem LoadData.nodup (hd : LoadData data) : (data.map Prod.fst).Nodup :=
  hd.strict.imp ne_of_lt

/-- 鍵に重なりの無い組の列では、引いた値は列の中の値である。 -/
theorem lookup_eq_some_iff_mem (hnd : (data.map Prod.fst).Nodup) {k : Key} {v : Payload} :
    data.lookup k = some v ↔ (k, v) ∈ data := by
  induction data with
  | nil => simp
  | cons e data ih =>
    rw [List.map_cons, List.nodup_cons] at hnd
    rw [List.lookup_cons, List.mem_cons]
    by_cases hk : k = e.1
    · subst hk
      have hno : (e.1, v) ∉ data := fun hc => hnd.1 (List.mem_map.mpr ⟨_, hc, rfl⟩)
      simp [hno, Prod.ext_iff, eq_comm]
    · have hne : (k, v) ≠ e := fun hc => hk (by rw [← hc])
      have hbeq : (k == e.1) = false := by simpa using hk
      rw [hbeq]
      simp [hne, ih hnd.2]

/-- 鍵に重なりが無ければ、区分から作られた連鎖の中身は渡された組そのものである。 -/
theorem contents_linkLeaves {segs : List (Segment D)} (prev : Option LeafId) (id : LeafId)
    (next : Option LeafId) (hsum : (segs.map (·.number)).sum = data.length)
    (hnd : (data.map Prod.fst).Nodup) (hne : ∀ e ∈ data, e.1 ≠ freeFlag)
    (hhome : ∀ x ∈ linkLeaves id next (freshLeaves segs data 0 prev id), ∀ i b k,
      x.2.blocks[i]? = some b → k ≠ freeFlag → b.get k ≠ none → i = x.2.predict k) :
    Contents (linkLeaves id next (freshLeaves segs data 0 prev id)) fun k => data.lookup k := by
  obtain ⟨hinv, hsound, hcomplete⟩ := freshLeaves_contents 0 prev id hsum hnd hne
  refine ⟨?_, hhome, ?_, ?_⟩
  · intro x hx b hb
    obtain ⟨l, hl, hxl⟩ := linkLeaves_spec hx
    rw [hxl] at hb
    exact hinv l hl b hb
  · intro x hx b hb k v hk hget
    obtain ⟨l, hl, hxl⟩ := linkLeaves_spec hx
    rw [hxl] at hb
    exact (lookup_eq_some_iff_mem hnd).mpr (hsound l hl b hb k v hk hget)
  · intro k v hkv
    have hmem := (lookup_eq_some_iff_mem hnd).mp hkv
    obtain ⟨l, hl, b, hb, hget⟩ := hcomplete _ hmem
    obtain ⟨i, hi⟩ := List.mem_iff_getElem?.mp hl
    have hx := getElem?_linkLeaves id next (freshLeaves segs data 0 prev id) i
    rw [hi, Option.map_some] at hx
    exact ⟨hne _ hmem, _, List.mem_of_getElem? hx, b, hb, hget⟩

/-- どの leaf にも親 slot が在り、区間の中のどの鍵でも根からの探索は正しい。 -/
structure Steered (s : PlinIndex D) (c : List (Link D)) (t : Tier D) (rest : List (Tier D)) :
    Prop where
  shape : s.Shape c t rest (c.map Link.info)
  guides : ∀ key, s.minKey ≤ key → key ≤ s.maxKey → s.Guides (t :: rest) key

namespace Loaded

theorem ne_nil (h : Loaded f data s) : data ≠ [] := by
  rintro rfl
  cases h.min

theorem segments_ne_nil (h : Loaded f data s) : loadSegments f data ≠ [] := by
  intro hc
  have := (makeSegmentation_eq_nil f epsilonLeafNode).mp hc
  exact h.ne_nil (List.map_eq_nil_iff.mp this)

/-- 鍵は `min_key` と `max_key` の間にある。 -/
theorem within (h : Loaded f data s) (hd : LoadData data) :
    ∀ k ∈ data.map Prod.fst, s.minKey ≤ k ∧ k ≤ s.maxKey := by
  intro k hk
  constructor
  · obtain ⟨tail, htail⟩ := List.head?_eq_some_iff.mp h.min
    have hs := hd.strict
    rw [htail] at hk hs
    rcases List.mem_cons.mp hk with rfl | hk
    · exact le_rfl
    · exact le_of_lt ((List.pairwise_cons.mp hs).1 k hk)
  · obtain ⟨init, hinit⟩ := List.getLast?_eq_some_iff.mp h.max
    have hs := hd.strict
    rw [hinit] at hk hs
    rcases List.mem_append.mp hk with hk | hk
    · exact le_of_lt ((List.pairwise_append.mp hs).2.2 k hk _ (by simp))
    · rw [List.mem_singleton.mp hk]

theorem covers (_ : Loaded f data s) (hd : LoadData data) :
    Covers (loadSegments f data) (data.map Prod.fst) :=
  covers_makeSegmentation f epsilonLeafNode (hd.strict.imp le_of_lt)

theorem freshChain (h : Loaded f data s) (hd : LoadData data) :
    FreshChain s.minKey s.maxKey data (loadSegments f data) none 0 none (loadChain f data) :=
  freshChain_linkLeaves none 0 none (h.covers hd) (hd.strict.imp le_of_lt) (h.within hd) h.small

theorem chain (h : Loaded f data s) (hd : LoadData data) :
    Chain s.minKey s.maxKey s.leaves (loadChain f data) := by
  have hfc := h.freshChain hd
  refine ⟨?_, ?_, hfc.linked, hfc.sorted, hfc.sound⟩
  · intro x hx
    obtain ⟨i, hi⟩ := List.mem_iff_getElem?.mp hx
    have hid : x.1 = i := by
      rw [loadChain, getElem?_linkLeaves] at hi
      obtain ⟨l, -, rfl⟩ := Option.map_eq_some_iff.mp hi
      exact Nat.zero_add i
    rw [h.leaves, List.getElem?_map, hid, hi]
    rfl
  · rw [hfc.ids]
    exact List.nodup_range'

/-- `local_table` は連鎖を左から並べたものである。 -/
theorem localTable_eq (h : Loaded f data s) (hd : LoadData data) :
    s.localTable = (loadChain f data).map record := by
  rw [h.table, ← (h.freshChain hd).firstKeys]
  refine List.ext_getElem? fun i => ?_
  rw [List.getElem?_mapIdx, List.getElem?_map, List.getElem?_map, loadChain, getElem?_linkLeaves]
  cases (loadLeaves f data)[i]? with
  | none => rfl
  | some l => simp [record, Link.firstKey]

theorem maxKey_lt (h : Loaded f data s) (hd : LoadData data) : s.maxKey < freeFlag := by
  obtain ⟨e, he, hek⟩ := List.mem_map.mp (List.mem_of_mem_getLast? h.max)
  rw [← hek]
  exact hd.below e he

/-- **`bulk_load` の直後の索引は形を満たし、`parameter` の行は段の node の `first_key` と model を持つ。** -/
theorem shape_rows (h : Loaded f data s) (hd : LoadData data)
    (hr : ∀ nd ∈ s.inners, nd.Tame (Set.Icc s.minKey s.maxKey ∩ nd.children)) :
    ∃ t rest, s.Shape (loadChain f data) t rest ((loadChain f data).map Link.info) ∧
      s.parameter.map (List.map Param.model) = (t :: rest).map Tier.models := by
  have hfc := h.freshChain hd
  have hchain := h.chain hd
  have hmin : ((loadChain f data).map Link.info).map InnerSlot.minKey =
      (loadSegments f data).map (·.firstKey) := by
    rw [← hfc.firstKeys, List.map_map]
    rfl
  have hslots : SlotsOk s.minKey s.maxKey ((loadChain f data).map Link.info) := by
    refine ⟨?_, ?_⟩
    · rw [List.pairwise_map]
      exact hchain.firstKey_sorted
    · intro e he
      obtain ⟨x, hx, rfl⟩ := List.mem_map.mp he
      exact (hchain.sound x hx).first
  have hmax := h.maxKey_lt hd
  have hfree : ∀ e ∈ (loadChain f data).map Link.info, e.minKey < freeFlag :=
    fun e he => lt_of_le_of_lt (hslots.within e he).2 hmax
  have hlevels := h.levels
  rw [← hmin] at hlevels
  obtain ⟨t, rest, hb, hrows⟩ := buildLevels_rows hlevels hslots hfree hr
  refine ⟨t, rest, ⟨hmax, hchain, ?_, hb.stacked, hb.nodup, List.Sublist.refl _, rfl, ?_⟩, hrows⟩
  · rw [hfc.firstKeys]
    have hcov := h.covers hd
    cases hsegs : loadSegments f data with
    | nil => exact absurd hsegs h.segments_ne_nil
    | cons seg segs =>
      rw [hsegs] at hcov
      rw [List.map_cons, List.head?_cons, ← hcov.2.2.1, h.min]
  · exact h.localTable_eq hd

/-- `bulk_load` の直後は、どの leaf にも親 slot が在る。 -/
theorem shape (h : Loaded f data s) (hd : LoadData data)
    (hr : ∀ nd ∈ s.inners, nd.Tame (Set.Icc s.minKey s.maxKey ∩ nd.children)) :
    ∃ t rest, s.Shape (loadChain f data) t rest ((loadChain f data).map Link.info) := by
  obtain ⟨t, rest, hshape, -⟩ := h.shape_rows hd hr
  exact ⟨t, rest, hshape⟩

/-- 予測器が正しければ、根からの探索は正しい。 -/
theorem steered (h : Loaded f data s) (hd : LoadData data) (hr : s.InnersRegular) :
    ∃ t rest, s.Steered (loadChain f data) t rest := by
  obtain ⟨t, rest, hshape⟩ :=
    h.shape hd fun nd hnd => (hr nd hnd).tame.anti Set.inter_subset_left
  exact ⟨t, rest, hshape, fun key hlo hhi => hshape.guides hr hlo hhi⟩

/-- **`bulk_load` の直後の中身は、渡された組そのものである。** -/
theorem contents (h : Loaded f data s) (hd : LoadData data) :
    Contents (loadChain f data) fun k => data.lookup k := by
  have hsum : ((loadSegments f data).map (·.number)).sum = data.length := by
    rw [loadSegments, sum_number_makeSegmentation f epsilonLeafNode hd.strict, List.length_map]
  exact contents_linkLeaves none 0 none hsum hd.nodup (fun e he => ne_of_lt (hd.below e he))
    (h.freshChain hd).home

end Loaded

end PlinIndex

end Plin
