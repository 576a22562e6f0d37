import Plin.Properties.SplitIndex

/-!
# `upsert` は終わる

内側の鍵の `upsert` はやり直さない。分割で配列の外を読むことも、作り直しで連鎖の端を越えることも無いので、構築の
`assert` が失敗しない限り値を返す（`Refines.completes_upsert`）。
-/

namespace Plin

open Infra

variable {D : Type} [Arith D]

namespace PlinIndex

/-- 値を返すか、構築の `assert` で止まる。 -/
def Completes {α : Type} (r : Except IndexFault α) : Prop :=
  (∃ a, r = .ok a) ∨ r = .error .innerAssert ∨ r = .error .leafAssert

variable {s : PlinIndex D} {f : Fitter D} {m : Key → Option Payload} {c A B : List (Link D)}
  {t : Tier D} {rest : List (Tier D)} {slots : List (InnerSlot D)} {l z r : Link D}
  {l' : LeafNode D} {acc : Option SlotAddr} {key : Key} {payload : Payload}

/-! ## 作り直し -/

/-- `leaf_number` が連鎖の長さを超えなければ、作り直しは終わるか `InnerNode` の `assert` で止まる。 -/
theorem Wired.completes_rebuild (h : s.Wired c t rest slots) (hle : s.leafNumber ≤ c.length)
    (f : Fitter D) : Completes (s.rebuildInnerNodes f) := by
  obtain ⟨e, he, -⟩ := Option.map_eq_some_iff.mp h.rooted.low
  have hfirst := h.first
  rw [he, List.head?_map] at hfirst
  obtain ⟨x, hx, rfl⟩ := Option.map_eq_some_iff.mp hfirst.symm
  have hwalk := @walkChain_eq D s.leaves s.leafNumber c none h.chain.stored h.chain.linked
  have hid : firstId c none = some x.info.ptr := by
    obtain ⟨c', rfl⟩ := List.head?_eq_some_iff.mp hx
    rfl
  rw [hid, if_pos hle] at hwalk
  have htake : ∀ y ∈ c.take s.leafNumber, s.leaves[y.1]? = some y.2 :=
    fun y hy => h.chain.stored y (List.mem_of_mem_take hy)
  unfold PlinIndex.rebuildInnerNodes
  rw [h.rooted.getLeftmostLeaf_eq he]
  simp only [orFault, bind, Except.bind]
  rw [hwalk]
  simp only [mapM_getInfo htake]
  have hlen : (((c.take s.leafNumber).map Link.info).map InnerSlot.minKey).length <
      s.leafNumber + 1 := by
    rw [List.length_map, List.length_map, List.length_take]
    omega
  have hout := buildLevels_outcome f innerBlocksForRebuild (s.leafNumber + 1) []
    (((c.take s.leafNumber).map Link.info).map InnerSlot.minKey)
    ((c.take s.leafNumber).map Link.info) s.inners [] hlen
  rw [List.length_nil] at hout
  rcases hout with ⟨b, hb⟩ | hb
  · rw [hb]
    exact .inl ⟨_, rfl⟩
  · rw [hb]
    exact .inr (.inl rfl)

/-! ## 分割 -/

/-- 予測器が正しければ、新しい leaf は続けて知らせられる。 -/
theorem Rooted.exists_upsertNodes {nodes : List (InnerSlot D)} : ∀ {s : PlinIndex D} {t : Tier D}
    {slots : List (InnerSlot D)}, s.Rooted t rest slots → s.InnersRegular →
      (∀ node ∈ nodes, s.minKey < node.minKey ∧ node.minKey ≤ s.maxKey ∧ node.type = false) →
      ∃ s', s.upsertNodes nodes = some s' := by
  induction nodes with
  | nil => exact fun _ _ _ => ⟨_, rfl⟩
  | cons node nodes ih =>
    intro s t slots h hr hnodes
    rw [List.forall_mem_cons] at hnodes
    obtain ⟨⟨hlo, hhi, htype⟩, hnodes⟩ := hnodes
    obtain ⟨mid, hmid, -⟩ := h.exists_upsertNode hr hlo hhi
    obtain ⟨ret, t₁, slots₁, hroot, -, -, hsame, heq⟩ :=
      h.upsertNode (fun nd hnd => (hr nd hnd).tame) hlo hhi htype hmid
    have hmin : mid.minKey = s.minKey := by rw [heq]
    have hmax : mid.maxKey = s.maxKey := by rw [heq]
    obtain ⟨s', hs'⟩ := ih hroot
      (show ∀ nd ∈ mid.inners, nd.Regular mid.minKey mid.maxKey by
        rw [hmin, hmax]
        exact hsame.regular hr) (by rw [hmin, hmax]; exact hnodes)
    exact ⟨s', by rw [PlinIndex.upsertNodes, hmid]; exact hs'⟩

namespace Splitting

/-- 新しい leaf は親に知らせられる。 -/
theorem exists_placeNodes (h : Splitting f s A l z r B t rest slots) (hr : s.InnersRegular)
    (hent : s.Entered t slots z acc) (heap : List (LeafNode D)) :
    ∃ s₂, placeNodes ((s.onSlot lockSlot acc).withLeaves heap)
      ((splitChain f s.leaves.length l z r).map Link.info) acc = some s₂ := by
  cases acc with
  | none => exact ⟨_, rfl⟩
  | some a =>
    obtain ⟨i, j, rfl, hi, hread⟩ := hent
    obtain ⟨t₁, slots₁, hroot, -, hsame, -⟩ :=
      h.wired.rooted.modifySlot (g := lockSlot) (j := j) (fun _ => rfl) (fun _ => rfl) hi
    have hroot' : ((s.onSlot lockSlot (some (.inner i j))).withLeaves heap).Rooted t₁ rest slots₁ :=
      hroot.congr rfl rfl rfl rfl
    exact hroot'.exists_upsertNodes (hsame.regular hr) h.within

theorem completes (h : Splitting f s A l z r B t rest slots) (hr : s.InnersRegular)
    (hmono : ∀ nd ∈ s.inners, nd.Nondecreasing s.minKey s.maxKey)
    (hlive : Live (A ++ l :: z :: r :: B) slots) (hent : s.Entered t slots z acc)
    (hkept : z.2.Stores z.firstKey)
    (hheap : s.leaves.length + (splitChain f s.leaves.length l z r).length < 2 ^ 32)
    (hle : s.leafNumber ≤ (A ++ l :: z :: r :: B).length) : Completes (s.split f z.1 acc) := by
  obtain ⟨heap, hret⟩ := @exists_retrain D _ f _ z.1 l.1 r.1 _
    (h.wired.chain.getElem?_lockedHeap (if acc.isSome then 1 else 7)) h.segments (by
    rw [length_lockedHeap]
    exact h.small)
  obtain ⟨s₂, hplace⟩ := h.exists_placeNodes hr hent heap
  have hne := List.length_pos_iff.mpr
    (splitChain_ne_nil h.segments s.leaves.length (l := l) (r := r))
  have hlength := length_spliced A l (splitChain f s.leaves.length l z r) r B
  rw [List.length_append, List.length_cons, List.length_cons, List.length_cons] at hle
  rw [split_eq h.wired.chain hret hplace]
  split
  · cases acc with
    | none =>
      obtain ⟨hwired, -, hnumber, -⟩ := h.orphan hent hplace
      exact hwired.completes_rebuild (by omega) f
    | some a =>
      obtain ⟨t', slots', hwired, -, hnumber, -⟩ := h.child hmono hent hheap hplace
      have hnumber := (hnumber hlive hkept).2
      exact hwired.completes_rebuild (by omega) f
  · exact .inl ⟨_, rfl⟩

end Splitting

/-- **分割は、終わるか構築の `assert` で止まる。** -/
theorem Wired.completes_split (h : s.Wired c t rest slots) (hz : z ∈ c) (hr : s.InnersRegular)
    (hmono : ∀ nd ∈ s.inners, nd.Nondecreasing s.minKey s.maxKey) (hlive : Live c slots)
    (hent : s.Entered t slots z acc) (hkept : z.2.Stores z.firstKey)
    (hne : splitSegments f z.2 ≠ [])
    (hheap : z.2.prev ≠ none → z.2.next ≠ none →
      s.leaves.length + (splitSegments f z.2).length < 2 ^ 32)
    (hle : s.leafNumber ≤ c.length) : Completes (s.split f z.1 acc) := by
  obtain ⟨A, B, rfl⟩ := List.append_of_mem hz
  by_cases hedge : A = [] ∨ B = []
  · rw [split_edge h.chain hedge]
    exact .inl ⟨_, rfl⟩
  · rw [not_or] at hedge
    obtain ⟨r, B, rfl⟩ := List.exists_cons_of_ne_nil hedge.2
    obtain ⟨A, l, rfl⟩ : ∃ A' l, A = A' ++ [l] :=
      ⟨_, _, (List.dropLast_append_getLast hedge.1).symm⟩
    rw [← List.append_cons] at h hlive hle
    obtain ⟨hprev, hnext⟩ := neighbors_ne_none h.chain
    by_cases hsmall : ∀ y ∈ freshLeaves (splitSegments f z.2) z.2.getData.1 0 (some l.1)
        s.leaves.length, y.blockNumber < 2 ^ 29
    · refine Splitting.completes ⟨h, hne, hsmall⟩ hr hmono hlive hent hkept ?_ hle
      rw [splitChain, length_linkLeaves, length_freshLeaves]
      exact hheap hprev hnext
    · -- leaf の構築が `assert` を破る
      have hret := @retrain_leafAssert D _ f _ z.1 l.1 r.1 _
        (h.chain.getElem?_lockedHeap (if acc.isSome then 1 else 7)) hne (by
        rw [length_lockedHeap]
        exact hsmall)
      rw [split_of_locks h.chain.splitLocks_middle,
        show ((s.leaves.set z.1 (z.2.withLock 1)).set l.1 (l.2.withLock 1)).set r.1
          (r.2.withLock 1) = lockedHeap s.leaves l z r 1 from rfl, leaves_lockForSplit h.chain,
        hret]
      exact .inr (.inr rfl)

/-! ## `upsert` -/

/-- 鍵を書いても、leaf の持つ鍵は失われない。 -/
theorem Wrote.stores (h : Wrote key payload z l') (hkey : key ≠ freeFlag) {k : Key}
    (hk : z.2.Stores k ∨ k = key) : l'.Stores k := by
  obtain ⟨b, hb⟩ := h
  have hmem : (b.upsert key payload).2 ∈ l'.blocks := by
    rw [hb.blocks]
    exact List.mem_set (List.getElem?_eq_some_iff.mp hb.block).1 _
  by_cases hkk : k = key
  · subst hkk
    exact ⟨hkey, _, hmem, by rw [Block.get_upsert hkey hkey]; simp⟩
  · obtain ⟨hne, u, hu, hget⟩ := hk.resolve_right hkk
    obtain ⟨i, hi⟩ := List.mem_iff_getElem?.mp hu
    by_cases hih : z.2.home key = i
    · -- 書いた block に在った鍵は、書いた後もその block に在る
      subst hih
      obtain rfl := Option.some.inj (hb.block.symm.trans hi)
      exact ⟨hne, _, hmem, by rwa [Block.get_upsert hkey hne, if_neg hkk]⟩
    · refine ⟨hne, u, List.mem_of_getElem? (i := i) ?_, hget⟩
      rw [hb.blocks, List.getElem?_set_ne hih]
      exact hi

/-- 分割しても、leaf の番地は溢れない。 -/
def HasRoom (f : Fitter D) (s : PlinIndex D) (key : Key) (payload : Payload) : Prop :=
  ∀ id acc l, s.SplitsAt key id acc l →
    s.leaves.length + (splitSegments f (l.written key payload)).length < 2 ^ 32

/-- **内側の鍵の `upsert` は、一周で終わるか、構築の `assert` で止まる。** -/
theorem Refines.completes_upsert (h : s.Refines m c t rest slots) (hr : s.Regular)
    (hroom : s.HasRoom f key payload) (hle : s.leafNumber ≤ c.length) (hlo : s.minKey < key)
    (hhi : key < s.maxKey) : Completes (s.upsert f 1 key payload) := by
  rw [PlinIndex.upsert, if_pos ⟨hlo, hhi⟩]
  have hp := hr.toPlausible
  obtain ⟨X, x, Y, P, e, Q, hland, hdesc, hread⟩ := h.wired.rooted.descend_eq
    (fun nd hnd => (hr.inners nd hnd).tame) hlo.le hhi.le
    fun i a _ _ => Stacked.pathReadable_of_regular hr.inners hlo.le hhi.le a _
  obtain ⟨y, hy, rfl⟩ := h.live e hland.pred.mem
  obtain ⟨A, z, B, l, acc, hpred, hwrote, hent, ⟨a, block, hchoose, -⟩, hcases⟩ :=
    h.wired.upsertInner_eq (f := f) hp payload hhi.le hdesc hland rfl hread hy
  have hstored := h.wired.chain.stored z hpred.mem
  have href := h.wrote hhi.le hpred (hr.home_pred h.wired hlo.le hhi.le hpred) hwrote
  have hsegs := hwrote.splitSegments_eq f
  obtain ⟨b, hb⟩ := hwrote
  have hlen : (A ++ (z.1, l) :: B).length = c.length := by
    rw [hpred.eq]
    simp
  rcases hcases with ⟨-, heq⟩ | ⟨hdue, heq⟩
  · rw [heq 0]
    exact .inl ⟨_, rfl⟩
  · rw [heq 0]
    have hmem : (z.1, l) ∈ A ++ (z.1, l) :: B := by simp
    refine href.wired.completes_split (z := (z.1, l)) hmem hr.inners hp.inners href.live
      (hent.withLeaves hb.header _)
      (href.wired.chain.stores_firstKey href.contents hmem (href.kept _ hmem))
      (href.segments_ne_nil hmem f) (fun hl hr => ?_) (hle.trans_eq hlen.symm)
    rw [hb.header.header] at hl hr
    have hroom := hroom z.1 a z.2 ⟨⟨block, hchoose⟩, hstored, hdue, hl, hr⟩
    rwa [hsegs, show (s.withLeaves (s.leaves.set z.1 l)).leaves.length = s.leaves.length from
      List.length_set]

/-- 親 slot がどれも連鎖の leaf のものなら、`upsert` は一周で終わる。 -/
theorem Implements.upsert_once (h : s.Implements m c t rest slots) (hr : s.Regular) (key : Key)
    (payload : Payload) (fuel : Nat) :
    s.upsert f (fuel + 1) key payload = s.upsert f 1 key payload := by
  unfold PlinIndex.upsert
  by_cases hin : s.minKey < key ∧ key < s.maxKey
  · rw [if_pos hin, if_pos hin]
    obtain ⟨hlo, hhi⟩ := hin
    obtain ⟨X, x, Y, P, e, Q, hland, hdesc, hread⟩ := h.wired.rooted.descend_eq
      (fun nd hnd => (hr.inners nd hnd).tame) hlo.le hhi.le
      fun i a _ _ => Stacked.pathReadable_of_regular hr.inners hlo.le hhi.le a _
    obtain ⟨y, hy, rfl⟩ := h.live e hland.pred.mem
    obtain ⟨A, z, B, l, acc, -, -, -, -, hcases⟩ := h.wired.upsertInner_eq (f := f)
      hr.toPlausible payload hhi.le hdesc hland rfl hread hy
    rcases hcases with ⟨-, heq⟩ | ⟨-, heq⟩
    · rw [heq fuel, heq 0]
    · rw [heq fuel, heq 0]
  · rw [if_neg hin, if_neg hin]

/-! ## 主定理 -/

/--
**内側の鍵をどう `upsert` しても、`find` は最後に書いた payload を、無ければ `bulk_load` の payload を返す。**

分割も作り直しも、それを起こした `upsert` の中で終わる。次の内側の `upsert` もやり直さず、leaf の番地が溢れる
のでなければ、値を返すか構築の `assert` で止まる。
-/
theorem find_after_upserts {D : Type} [Arith D] {f : Fitter D} {data : List (Key × Payload)}
    (hd : LoadData data) {ops : List IndexOp} {s : PlinIndex D}
    (h : Reached f data Regular InteriorUpsert ops s) (key : Key) (payload : Payload) :
    s.find key payload = .ok (match IndexOp.applyAll (fun k => data.lookup k) ops key with
      | some v => (true, v)
      | none => (false, payload)) ∧
      (s.minKey < key → key < s.maxKey →
        (∀ fuel, s.upsert f (fuel + 1) key payload = s.upsert f 1 key payload) ∧
        (s.HasRoom f key payload → Completes (s.upsert f 1 key payload))) := by
  obtain ⟨hr, hleft, hright, c, t, rest, slots, hle, href⟩ := h.refines hd
  refine ⟨?_, fun hlo hhi => ⟨href.upsert_once hr key payload,
    fun hroom => href.completes_upsert hr hroom hle hlo hhi⟩⟩
  by_cases hin : s.minKey ≤ key ∧ key ≤ s.maxKey
  · exact href.find_eq hr hin.1 hin.2 payload
  · have hnone : IndexOp.applyAll (fun k => data.lookup k) ops key = none := by
      by_contra hsome
      exact hin (href.within hsome)
    rw [PlinIndex.find_outside s hin, hleft, hright, ite_self, hnone]
    rfl

/--
真ん中の leaf が分割された後も、書いた鍵と元から在る鍵は見つかり、無い鍵は見つからない。次の `upsert` も
やり直さない。
-/
theorem find_after_upserts_insert : ∃ s s' : PlinIndex ℚ, SplitRun s s' ∧
    s'.find lateKey 0 = .ok (true, 7) ∧ s'.find (farKey 1 0) 0 = .ok (true, 1) ∧
    s'.find (Key.ofNat 1) 0 = .ok (false, 0) ∧
    ∀ fuel, s'.upsert exactFitter (fuel + 1) lateKey 0 = s'.upsert exactFitter 1 lateKey 0 := by
  obtain ⟨s, s', hrun⟩ := exists_splitRun
  have hreach : Reached exactFitter lostData Regular InteriorUpsert [.upsert lateKey 7] s' :=
    .step (.load hrun.load hrun.regular) ⟨_, _, rfl, hrun.interior⟩ hrun.upsert hrun.regular'
  refine ⟨s, s', hrun, ?_, ?_, ?_, ?_⟩
  · rw [(find_after_upserts loadData_lostData hreach lateKey 0).1, applyAll_lateKey, if_pos rfl]
  · rw [(find_after_upserts loadData_lostData hreach (farKey 1 0) 0).1, applyAll_lateKey,
      if_neg (by decide +kernel), lookup_lostData (farKey_mem_lostKeys (by decide))]
  · have hnone : lostData.lookup (Key.ofNat 1) = none :=
      not_ne_iff.mp (mt lookup_lostData_ne_none.mp (by decide +kernel))
    rw [(find_after_upserts loadData_lostData hreach (Key.ofNat 1) 0).1, applyAll_lateKey,
      if_neg (by decide +kernel), hnone]
  · refine ((find_after_upserts loadData_lostData hreach lateKey 0).2 ?_ ?_).1
    · rw [hrun.min']
      decide +kernel
    · rw [hrun.max']
      decide +kernel

/-- 予測器がどれも単調でも、一度も書かないうちから `find` が外れることがある。 -/
theorem find_after_upserts_lost :
    ∃ s : PlinIndex ℚ, LoadData (wideData (2 ^ 31)) ∧
      Reached evenFitter (wideData (2 ^ 31)) Plausible InteriorUpsert [] s ∧
      (∀ l ∈ s.leaves, ∀ a b, a ≤ b → l.predict a ≤ l.predict b) ∧
      ¬ ∀ e ∈ wideData (2 ^ 31), ∀ payload, s.find e.1 payload = .ok (true, e.2) := by
  obtain ⟨s, hs, -, hp, hmono, -, hlost⟩ := exists_wideIndex
  exact ⟨s, loadData_wideData (by decide), .load hs hp, hmono, hlost⟩

end PlinIndex

end Plin
