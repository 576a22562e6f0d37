import Plin.Properties.ChainRun
import Plin.Properties.LeafData
import Plin.Properties.Segmentation

/-!
# 並行する分割は中身を変えない

連鎖の leaf から順に `get_data` で読み出した組の列は、分割をどう交錯させても変わらない。新しい leaf が持つのは
読み出した組だけであり、それを区分の順に並べれば元の列に戻る。分割だけが走るときの話であり、同時に書き込みが
あれば、読み出した後に書かれた組は失われる。
-/

namespace Plin

open Infra

variable {D : Type} [Arith D]

/-! ## leaf から読み出す組 -/

namespace LeafNode

variable {l l' : LeafNode D}

omit [Arith D] in
theorem getData_congr (h : l'.blocks = l.blocks) : l'.getData.1 = l.getData.1 := by
  unfold getData
  rw [h]

theorem sortBlock_sortBlock (b : Block) : sortBlock (sortBlock b) = sortBlock b := by
  have : IsTrans DataSlot fun x y => x.key ≤ y.key := ⟨fun _ _ _ => le_trans⟩
  have : Std.Total fun x y : DataSlot => x.key ≤ y.key := ⟨fun _ _ => le_total _ _⟩
  unfold sortBlock
  rw [(List.pairwise_insertionSort _ b.slots).insertionSort_eq]

omit [Arith D] in
/-- slot を並べ替えた後も、同じ組が読み出される。 -/
theorem getData_getData (l : LeafNode D) : l.getData.2.getData.1 = l.getData.1 := by
  unfold getData
  dsimp only
  rw [List.map_map]
  exact congrArg (fun blocks : List Block =>
    ((blocks.flatMap blockData).insertionSort fun a b => a.1 ≤ b.1).filter fun e => e.1 ≠ freeFlag)
    (List.map_congr_left fun b _ => sortBlock_sortBlock b)

/-- 鍵が狭義の昇順に並び、どれも番兵より小さい。 -/
structure Ordered (data : List (Key × Payload)) : Prop where
  strict : (data.map Prod.fst).Pairwise (· < ·)
  below : ∀ e ∈ data, e.1 < freeFlag

theorem Ordered.sublist {data data' : List (Key × Payload)} (h : Ordered data)
    (hs : data'.Sublist data) : Ordered data' :=
  ⟨h.strict.sublist (hs.map Prod.fst), fun e he => h.below e (hs.subset he)⟩

/-- **構築された leaf からは、渡された組がそのまま読み出される。** -/
theorem getData_new {blockNumber : Nat} {data : List (Key × Payload)} {startPos : Nat}
    {slope intercept : D} {prev : Option LeafId} (h3 : 3 ≤ blockNumber) (h : Ordered data) :
    (new blockNumber data startPos slope intercept prev).getData.1 = data := by
  have hne : ∀ e ∈ data, e.1 ≠ freeFlag := fun e he => ne_of_lt (h.below e he)
  have hnd : (data.map Prod.fst).Nodup := h.strict.imp ne_of_lt
  have hfill := new_filled blockNumber data startPos slope intercept prev h3 hnd hne
  have hhome := new_home blockNumber data startPos slope intercept prev
  have hroom := new_room blockNumber data startPos slope intercept prev h3
  generalize new blockNumber data startPos slope intercept prev = l at hfill hhome hroom
  -- 引いて出てくる組は、どれも予測した block に在る
  have hget : ∀ b ∈ l.blocks, ∀ k v, k ≠ freeFlag → b.get k = some v → (k, v) ∈ data := by
    intro b hb k v hk hv
    obtain ⟨i, hi⟩ := List.mem_iff_getElem?.mp hb
    obtain ⟨rfl, -⟩ := hhome i b k hi hk (by rw [hv]; exact Option.some_ne_none v)
    exact (hfill.get k b hk hi v).mp hv
  have hmem : ∀ e, e ∈ l.pairs ↔ e ∈ data := by
    rintro ⟨k, v⟩
    constructor
    · intro he
      obtain ⟨hflat, hk⟩ := List.mem_filter.mp he
      obtain ⟨b, hb, hp⟩ := List.mem_flatMap.mp hflat
      have hk' : k ≠ freeFlag := by simpa using hk
      exact hget b hb k v hk' (Block.get_of_mem_pairs (hfill.inv b hb) hk' hp)
    · intro he
      have hk := hne _ he
      have hb := List.getElem?_eq_getElem (hroom k)
      refine List.mem_filter.mpr ⟨List.mem_flatMap.mpr ⟨_, List.getElem_mem (hroom k), ?_⟩,
        decide_eq_true hk⟩
      exact Block.mem_pairs_of_get hk ((hfill.get k _ hk hb v).mpr he)
  have hbelow : l.KeysBelow := keysBelow_of_stores fun k hk => by
    obtain ⟨hk, b, hb, hv⟩ := hk
    obtain ⟨v, hv⟩ := Option.ne_none_iff_exists'.mp hv
    exact h.below _ (hget b hb k v hk hv)
  have hpairs : (l.pairs.map Prod.fst).Nodup := nodup_pairs hfill.inv l.predict
    fun i b k hi hk hv => (hhome i b k hi hk hv).1
  have hperm : l.getData.1.Perm data := (getData_perm hbelow).trans
    ((List.perm_ext_iff_of_nodup hpairs.of_map hnd.of_map).mpr hmem)
  have hread := List.pairwise_map.mp l.getData_sorted
  refine hperm.eq_of_pairwise ?_ hread (List.pairwise_map.mp (h.strict.imp le_of_lt))
  intro x y hx hy hxy hyx
  exact (List.inj_on_of_nodup_map hnd) (hperm.subset hx) hy (le_antisymm hxy hyx)

end LeafNode

/-- 区分ごとに作った leaf から順に読み出すと、元の組の列に戻る。 -/
theorem flatMap_getData_freshLeaves {segs : List (Segment D)} :
    ∀ {data : List (Key × Payload)} (startPos : Nat) (prev : Option LeafId) (id : LeafId),
      (segs.map (·.number)).sum = data.length → LeafNode.Ordered data →
      (freshLeaves segs data startPos prev id).flatMap (fun l => l.getData.1) = data := by
  induction segs with
  | nil =>
    intro data startPos prev id hsum _
    exact (List.length_eq_zero_iff.mp (by simpa using hsum.symm)).symm
  | cons seg segs ih =>
    intro data startPos prev id hsum h
    rw [List.map_cons, List.sum_cons] at hsum
    have htake := h.sublist (List.take_sublist seg.number data)
    have hdrop := h.sublist (List.drop_sublist seg.number data)
    rw [freshLeaves, List.flatMap_cons, ih _ _ _ (by rw [List.length_drop]; omega) hdrop,
      LeafNode.getData_new (three_le_blockNumberFor _) htake, List.take_append_drop]

omit [Arith D] in
theorem flatMap_getData_linkLeaves {ls : List (LeafNode D)} (id : LeafId) (next : Option LeafId) :
    (linkLeaves id next ls).flatMap (fun y => y.2.getData.1) =
      ls.flatMap fun l => l.getData.1 := by
  induction ls generalizing id with
  | nil => rfl
  | cons l ls ih =>
    rw [linkLeaves, List.flatMap_cons, List.flatMap_cons, ih]
    exact congrArg (· ++ ls.flatMap fun l => l.getData.1) (LeafNode.getData_congr rfl)

/-! ## 連鎖の中身 -/

section ChainData

variable {m m' : List (LeafNode D)} {x i : LeafId} {ids : List LeafId}

/-- 番地 `i` の leaf から読み出す組。 -/
def dataAt (m : List (LeafNode D)) (i : LeafId) : List (Key × Payload) :=
  ((m[i]?).map fun l => l.getData.1).getD []

/-- 連鎖を左端から順に読み出す。 -/
def chainData (m : List (LeafNode D)) (ids : List LeafId) : List (Key × Payload) :=
  ids.flatMap (dataAt m)

omit [Arith D] in
theorem dataAt_of {l : LeafNode D} (hi : m[i]? = some l) : dataAt m i = l.getData.1 := by
  rw [dataAt, hi]
  rfl

omit [Arith D] in
/-- 読み出す組を変えない書き込み。 -/
theorem dataAt_modify {g : LeafNode D → LeafNode D} (hg : ∀ l, (g l).getData.1 = l.getData.1) :
    dataAt (m.modify x g) i = dataAt m i := by
  unfold dataAt
  rw [List.getElem?_modify]
  cases m[i]? with
  | none => rfl
  | some l =>
    show (if x = i then g l else l).getData.1 = l.getData.1
    split
    · exact hg l
    · rfl

omit [Arith D] in
theorem chainData_congr (h : ∀ i ∈ ids, dataAt m' i = dataAt m i) :
    chainData m' ids = chainData m ids :=
  List.flatMap_congr h

end ChainData

/-- thread が読み出した組は、分割する leaf の中身である。 -/
def SplitterPc.Read (m : List (LeafNode D)) : SplitterPc → Prop
  | getReadLock j data => data = dataAt m j.leaf
  | linkLeft j data => data = dataAt m j.leaf
  | _ => True

section Step

variable {f : Fitter D} {m m' : List (LeafNode D)} {l l' : SplitterPc} {i : LeafId}

omit [Arith D] in
theorem Published.dataAt_old {left right last : LeafId} {new : List (Link D)}
    (h : Published m m' left right last new) (hi : i < m.length) : dataAt m' i = dataAt m i := by
  unfold dataAt
  rw [h.getElem?_old hi]
  exact dataAt_modify fun _ => LeafNode.getData_congr rfl

/-- どの一歩も、元からの leaf の中身を変えない。 -/
theorem SplitterStep.dataAt_eq (h : SplitterStep f m l m' l')
    (hl : ∀ x, l.Holds x → LockedAt m x) (hi : i < m.length) : dataAt m' i = dataAt m i := by
  cases h with
  | lockCas => exact dataAt_modify fun _ => LeafNode.getData_congr rfl
  | undoLeft => exact dataAt_modify fun _ => LeafNode.getData_congr rfl
  | undoLeaf => exact dataAt_modify fun _ => LeafNode.getData_congr rfl
  | getWriteLock j =>
    split
    · exact dataAt_modify fun _ => LeafNode.getData_congr rfl
    · rfl
  | getData => exact dataAt_modify LeafNode.getData_getData
  | getReadLock j =>
    split
    · exact dataAt_modify fun _ => LeafNode.getData_congr rfl
    · rfl
  | @linkLeft j data left right _ last hleft hright hm =>
    obtain ⟨x, hx, -⟩ := hl left (Or.inl (Or.inr (Or.inl hleft)))
    obtain ⟨new, hpub, -⟩ := publish_eq (List.getElem?_eq_some_iff.mp hx).1 hm
    exact hpub.dataAt_old hi
  | linkRight => exact dataAt_modify fun _ => LeafNode.getData_congr rfl
  | setAbandoned => exact dataAt_modify fun _ => LeafNode.getData_congr rfl
  | releaseLeaf => exact dataAt_modify fun _ => LeafNode.getData_congr rfl
  | releaseLeft => exact dataAt_modify fun _ => LeafNode.getData_congr rfl
  | releaseRight => exact dataAt_modify fun _ => LeafNode.getData_congr rfl
  | _ => rfl

omit [Arith D] in
/-- 動かない thread の読み出した組は、中身のままである。 -/
theorem SplitterPc.Read.mono {v : ChainView} (h : l.Read m) (hknows : l.Knows v)
    (hkeep : ∀ i < v.length, dataAt m' i = dataAt m i) : l.Read m' := by
  cases l with
  | getReadLock j data => exact h.trans (hkeep j.leaf hknows.1.leaf).symm
  | linkLeft j data => exact h.trans (hkeep j.leaf hknows.1.leaf).symm
  | _ => trivial

/-- 読み出すのは `getData` の一歩だけである。 -/
theorem SplitterStep.read {v : ChainView} (h : SplitterStep f m l m' l') (hl : l.Read m)
    (hknows : l.Knows v) (hkeep : ∀ i < v.length, dataAt m' i = dataAt m i) : l'.Read m' := by
  cases h with
  | lockNone j g => cases g <;> trivial
  | lockLoad j g =>
    split
    · cases g <;> trivial
    · trivial
  | lockCas j g => cases g <;> trivial
  | lockCasFailed j g => cases g <;> trivial
  | getData j hx =>
    show _ = dataAt _ j.leaf
    rw [dataAt_modify LeafNode.getData_getData, dataAt_of hx]
  | getReadLock j data =>
    exact (show data = dataAt m j.leaf from hl).trans (hkeep j.leaf hknows.1.leaf).symm
  | setAbandoned j => split <;> trivial
  | _ => trivial

end Step

/-- 中身についての不変条件。`data` は連鎖から読み出される組の列である。 -/
structure DataInv {T : Type} (c : ChainState T D) (ids : List LeafId)
    (data : List (Key × Payload)) : Prop where
  chain : ChainInv c ids
  data_eq : chainData c.shared ids = data
  ordered : ∀ i ∈ ids, LeafNode.Ordered (dataAt c.shared i)
  read : ∀ t, (c.pc t).Read c.shared

namespace DataInv

variable {T : Type} [DecidableEq T] {f : Fitter D} {c c' : ChainState T D} {ids ids' : List LeafId}
  {data : List (Key × Payload)}

omit [Arith D] [DecidableEq T] in
/-- 連鎖の変わらない一歩。 -/
theorem keep (h : DataInv c ids data) (hI : ChainInv c' ids)
    (hkeep : ∀ i < c.shared.length, dataAt c'.shared i = dataAt c.shared i)
    (hread : ∀ t, (c'.pc t).Read c'.shared) : DataInv c' ids data where
  chain := hI
  data_eq := (chainData_congr fun i hi => hkeep i (h.chain.lt_of_mem hi)).trans h.data_eq
  ordered i hi := by
    rw [hkeep i (h.chain.lt_of_mem hi)]
    exact h.ordered i hi
  read := hread

omit [DecidableEq T] in
/-- 新しい leaf の列から読み出す組は、置き換えた leaf の組である。 -/
theorem replace (h : DataInv c ids data) (hI : ChainInv c' ids') (hrep : Replaced f c c' ids ids')
    (hkeep : ∀ i < c.shared.length, dataAt c'.shared i = dataAt c.shared i)
    (hread : ∀ t, (c'.pc t).Read c'.shared) : DataInv c' ids' data := by
  cases hrep with
  | @intro t j copied left right last new A B hpc hm hnew =>
    have hcopied := h.read t
    rw [hpc] at hcopied
    replace hcopied : copied = dataAt c.shared j.leaf := hcopied
    have hordered := h.ordered j.leaf (by simp)
    rw [← hcopied] at hordered
    have hfresh := fun y (hy : y ∈ new) => dataAt_of (hm.getElem?_new hy)
    have hstored : chainData c'.shared (new.map Prod.fst) = copied := by
      rw [chainData, List.flatMap_map, List.flatMap_congr hfresh, hnew, flatMap_getData_linkLeaves,
        flatMap_getData_freshLeaves _ _ _ (by
          rw [sum_number_makeSegmentation f epsilonLeafNode hordered.strict, List.length_map])
          hordered]
    have hold : ∀ i ∈ A ++ left :: j.leaf :: right :: B, dataAt c'.shared i = dataAt c.shared i :=
      fun i hi => hkeep i (h.chain.lt_of_mem hi)
    refine ⟨hI, ?_, fun i hi => ?_, hread⟩
    · rw [← h.data_eq, ← chainData_congr hold]
      have hleaf : dataAt c'.shared j.leaf = copied := by rw [hold j.leaf (by simp), hcopied]
      unfold chainData at hstored ⊢
      simp only [List.flatMap_append, List.flatMap_cons, hstored, hleaf]
    · by_cases hi' : i ∈ new.map Prod.fst
      · refine hordered.sublist ?_
        rw [← hstored]
        exact List.sublist_flatten_of_mem (List.mem_map_of_mem hi')
      · have hmem : i ∈ A ++ left :: j.leaf :: right :: B := by
          simp only [List.mem_append, List.mem_cons] at hi hi' ⊢
          tauto
        rw [hold i hmem]
        exact h.ordered i hmem

/-- 書き込みの無い一歩は、読み出される組の列を変えない。 -/
theorem step (h : DataInv c ids data) {e : Option T} (hfresh : c.Fresh e) (hthread : e ≠ none)
    (hs : c.Step f e c') : ∃ ids', DataInv c' ids' data ∧ ids'.head? = ids.head? := by
  have hchain := h.chain.step hfresh hs
  cases hs with
  | env hm => exact absurd rfl hthread
  | @thread t m l hs =>
    have hkeep : ∀ i < c.shared.length, dataAt m i = dataAt c.shared i :=
      fun i hi => hs.dataAt_eq (h.chain.held t) hi
    have hread : ∀ u, ((c.move t m l).pc u).Read m := by
      intro u
      rcases c.move_pc_cases t u m l with ⟨-, e⟩ | ⟨-, e⟩
      · rw [e]
        exact hs.read (h.read t) (h.chain.pcs t) hkeep
      · rw [e]
        exact (h.read u).mono (h.chain.pcs u) hkeep
    rcases hchain with hI | ⟨ids', hrep, hI⟩
    · exact ⟨ids, h.keep hI hkeep hread, rfl⟩
    · exact ⟨ids', h.replace hI hrep hkeep hread, hrep.head⟩

end DataInv

/-- 捨てられた leaf の lock を取る一歩でも、書き込みの一歩でもない。 -/
def ChainState.Quiet {T : Type} (c : ChainState T D) (e : Option T) : Prop := c.Fresh e ∧ e ≠ none

/--
**分割だけが走るあいだ、連鎖から読み出される組の列は変わらない。** 分割をどう交錯させても、左端から順に
`get_data` で読み出した組の列は、初めの列のままである。
-/
theorem chain_contents {D : Type} [Arith D] {T : Type} [DecidableEq T] {f : Fitter D}
    {m : List (LeafNode D)} {ids : List LeafId}
    (hm : Intact (ChainState.initial m : ChainState T D) ids)
    (hordered : ∀ i ∈ ids, LeafNode.Ordered (dataAt m i)) {c : ChainState T D}
    (h : Reach (ChainState.Step f) ChainState.Quiet (ChainState.initial m) c) :
    ∃ ids', Intact c ids' ∧ ids'.head? = ids.head? ∧
      chainData c.shared ids' = chainData m ids := by
  obtain ⟨ids', hI, hhead⟩ := h.invariant
    (fun c => ∃ ids', DataInv c ids' (chainData m ids) ∧ ids'.head? = ids.head?)
    ⟨ids, ⟨hm.initial, rfl, hordered, fun _ => trivial⟩, rfl⟩ (by
    rintro s e s' ⟨ids₁, hI, hhead⟩ ⟨hfresh, hthread⟩ hs
    obtain ⟨ids₂, hI', hhead'⟩ := hI.step hfresh hthread hs
    exact ⟨ids₂, hI', hhead'.trans hhead⟩)
  exact ⟨ids', hI.chain.intact, hhead, hI.data_eq⟩

/-- 真ん中の leaf を分割しても、三つの鍵はすべて残る。 -/
theorem chain_contents_middle :
    ∃ m last ids, Intact (twoSplitters m (.linkRight middleJob last) .idle) ids ∧
      ids.head? = some 0 ∧
      chainData m ids = [(Key.ofNat 1, 10), (Key.ofNat 2, 10), (Key.ofNat 3, 10)] := by
  obtain ⟨m, last, h⟩ := exists_linkRight
  have hquiet := h.mono (Q := ChainState.Quiet) fun _ _ h => ⟨h.2, h.1.2⟩
  have hdata : chainData threeLeaves [0, 1, 2] =
      [(Key.ofNat 1, 10), (Key.ofNat 2, 10), (Key.ofNat 3, 10)] := by decide +kernel
  rw [← hdata]
  refine ⟨m, last, chain_contents intact_threeLeaves (fun i hi => ?_) hquiet⟩
  have hall : ∀ i ∈ [0, 1, 2], ((dataAt threeLeaves i).map Prod.fst).Pairwise (· < ·) ∧
      ∀ e ∈ dataAt threeLeaves i, e.1 < freeFlag := by decide +kernel
  exact ⟨(hall i hi).1, (hall i hi).2⟩

end Plin
