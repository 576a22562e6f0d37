import Plin.Properties.PlaceNodes

/-!
# inner node の作り直し

`rebuild_inner_nodes` は左端の leaf から `leaf_number` 個の leaf をたどり、その親 slot から段を積む。
**積んだ段の一番下の子の列は、連鎖の前から `leaf_number` 個の leaf の親 slot である**
（`rebuildInnerNodes_spec`）。`leaf_number` が連鎖より短ければ、後ろの leaf は親 slot を失い、`next`
からしか届かなくなる。
-/

namespace Plin

open Infra

variable {D : Type} [Arith D]

/-! ## 作られる node の slot の数 -/

namespace InnerNode

theorem new_full {bn startPos : Nat} {data : List (Key × InnerSlot D)} {slope intercept : D}
    {nd : InnerNode D} (hbn : bn < 2 ^ 32)
    (h : new bn data startPos slope intercept = some nd) : nd.Full := by
  obtain ⟨nd', hplace, hcheck⟩ := Option.bind_eq_some_iff.mp h
  split at hcheck
  · obtain rfl := Option.some.inj hcheck
    obtain ⟨hhead, hlength⟩ := placeAll_header hplace
    rw [Full, hlength, hhead]
    show (List.replicate (8 * bn) InnerSlot.free).length = bn % 2 ^ 32 * innerSlotsPerBlock
    rw [List.length_replicate, Nat.mod_eq_of_lt hbn, innerSlotsPerBlock, Nat.mul_comm]
  · cases hcheck

end InnerNode

/-- 段を作って増える node は、どれも渡した列の一部から構築子が作ったものである。 -/
theorem buildInners_forall {P : InnerNode D → Prop} {bnf : Nat → Nat} {segs : List (Segment D)} :
    ∀ {data : List (Key × InnerSlot D)} {startPos : Nat} {heap : List (InnerNode D)}
      {r : List (InnerNode D) × List (InnerSlot D) × List (Param D)},
      buildInners bnf segs data startPos heap = .ok r →
      (∀ seg ∈ segs, ∀ (part : List (Key × InnerSlot D)) (pos : Nat) (nd : InnerNode D),
        part.Sublist data →
        InnerNode.new (bnf seg.number) part pos seg.slope seg.intercept = some nd → P nd) →
      (∀ nd ∈ heap, P nd) → ∀ nd ∈ r.1, P nd := by
  induction segs with
  | nil =>
    intro data startPos heap r h _ hheap
    obtain rfl := Except.ok.inj h
    exact hheap
  | cons seg segs ih =>
    intro data startPos heap r h hnew hheap
    rw [List.forall_mem_cons] at hnew
    rw [buildInners] at h
    dsimp only at h
    split at h
    · cases h
    · next nd hnd =>
      cases hrec : buildInners bnf segs (data.drop seg.number) (startPos + seg.number)
          (heap ++ [nd]) with
      | error e =>
        rw [hrec] at h
        cases h
      | ok r' =>
        rw [hrec] at h
        obtain rfl := Except.ok.inj h
        have hgrown : ∀ m ∈ heap ++ [nd], P m := by
          intro m hm
          rcases List.mem_append.mp hm with hm | hm
          · exact hheap m hm
          · rw [List.mem_singleton.mp hm]
            exact hnew.1 _ _ nd (List.take_sublist ..) hnd
        have hall : ∀ m ∈ r'.1, P m := ih hrec (fun s hs part pos m hpart =>
          hnew.2 s hs part pos m (hpart.trans (List.drop_sublist ..))) hgrown
        exact hall

omit [Arith D] in
/-- 区分の大きさは、切り分けた列の長さを超えない。 -/
theorem Covers.number_le {segs : List (Segment D)} {keys : List Key} (h : Covers segs keys) :
    ∀ seg ∈ segs, seg.number ≤ keys.length := by
  induction segs generalizing keys with
  | nil => simp
  | cons seg segs ih =>
    obtain ⟨_, hle, _, _, hrest⟩ := h
    intro s hs
    rcases List.mem_cons.mp hs with rfl | hs
    · exact hle
    · refine (ih hrest s hs).trans ?_
      rw [List.length_drop]
      omega

omit [Arith D] in
theorem sorted_fst_zip {slots : List (InnerSlot D)} :
    ∀ {keys : List Key}, keys.Pairwise (· < ·) →
      ((keys.zip slots).map Prod.fst).Pairwise (· < ·) := by
  induction slots with
  | nil => simp
  | cons e slots ih =>
    intro keys h
    cases keys with
    | nil => exact List.Pairwise.nil
    | cons k keys =>
      obtain ⟨hk, hkeys⟩ := List.pairwise_cons.mp h
      refine List.pairwise_cons.mpr ⟨fun b hb => ?_, ih hkeys⟩
      obtain ⟨x, hx, rfl⟩ := List.mem_map.mp hb
      exact hk x.1 (List.of_mem_zip hx).1

/-- 段を積んで増える node は、どれも昇順の列の区分から構築子が作ったものである。 -/
theorem buildLevels_forall {P : InnerNode D → Prop} {f : Fitter D} {bnf : Nat → Nat}
    (hnew : ∀ keys : List Key, keys.Pairwise (· < ·) → keys.length < 2 ^ 32 →
      ∀ seg ∈ makeSegmentation f epsilonInnerNode keys,
        ∀ (part : List (Key × InnerSlot D)) (pos : Nat) (nd : InnerNode D),
          (part.map Prod.fst).Pairwise (· < ·) →
          InnerNode.new (bnf seg.number) part pos seg.slope seg.intercept = some nd → P nd) :
    ∀ {fuel : Nat} {segments : List (Segment D)} {firstKeys : List Key}
      {slots : List (InnerSlot D)} {heap : List (InnerNode D)} {params : List (List (Param D))}
      {b : Built D}, buildLevels f bnf fuel segments segments.length firstKeys slots heap params =
        .ok b → firstKeys.Pairwise (· < ·) → firstKeys.length < 2 ^ 32 →
      (∀ nd ∈ heap, P nd) → ∀ nd ∈ b.inners, P nd := by
  intro fuel
  induction fuel with
  | zero =>
    intro segments firstKeys slots heap params b h
    cases h
  | succ fuel ih =>
    intro segments firstKeys slots heap params b h hsorted hlen hheap
    have hcov := covers_makeSegmentation f epsilonInnerNode (hsorted.imp fun hab => le_of_lt hab)
    have hle : 2 * (makeSegmentation f epsilonInnerNode firstKeys).length ≤
      firstKeys.length + 1 := length_makeSegmentation_le f epsilonInnerNode
    rw [buildLevels_succ] at h
    split at h
    · cases h
    · next r hr =>
      have hall := buildInners_forall hr (fun seg hseg part pos nd hpart =>
        hnew firstKeys hsorted hlen seg hseg part pos nd
          ((sorted_fst_zip hsorted).sublist (hpart.map _))) hheap
      dsimp only at h
      split at h
      · refine ih h hcov.sorted ?_ hall
        rw [List.length_map]
        omega
      · obtain rfl := Except.ok.inj h
        exact hall

/-- 段を積んで作られる node の slot の数は、block 数で決まる。 -/
theorem buildLevels_full {f : Fitter D} {bnf : Nat → Nat} (hbnf : ∀ n < 2 ^ 32, bnf n < 2 ^ 32)
    {fuel : Nat} {segments : List (Segment D)} {firstKeys : List Key} {slots : List (InnerSlot D)}
    {heap : List (InnerNode D)} {params : List (List (Param D))} {b : Built D}
    (h : buildLevels f bnf fuel segments segments.length firstKeys slots heap params = .ok b)
    (hsorted : firstKeys.Pairwise (· < ·)) (hlen : firstKeys.length < 2 ^ 32)
    (hheap : ∀ nd ∈ heap, nd.Full) : ∀ nd ∈ b.inners, nd.Full := by
  refine buildLevels_forall (fun keys hkeys hsmall seg hseg part pos nd _ hnd => ?_) h hsorted hlen
    hheap
  have hle := (covers_makeSegmentation f epsilonInnerNode
    (hkeys.imp fun hab => le_of_lt hab)).number_le seg hseg
  exact InnerNode.new_full (hbnf _ (lt_of_le_of_lt hle hsmall)) hnd

/-! ## 連鎖をたどる -/

section Walk

variable {leaves : List (LeafNode D)}

omit [Arith D] in
/-- 連鎖をたどれば、前から順に番地が集まる。足りなければ null を読む。 -/
theorem walkChain_eq : ∀ {n : Nat} {c : List (Link D)} {p : Option LeafId},
    (∀ x ∈ c, leaves[x.1]? = some x.2) → DoublyLinked LeafNode.prev LeafNode.next p c none →
    PlinIndex.walkChain leaves n (firstId c none) =
      if n ≤ c.length then some ((c.take n).map Prod.fst) else none := by
  intro n
  induction n with
  | zero =>
    intro c p _ _
    simp [PlinIndex.walkChain]
  | succ n ih =>
    intro c p hst hlink
    cases c with
    | nil => simp [firstId, PlinIndex.walkChain]
    | cons x c =>
      obtain ⟨_, hnext, hlink⟩ := hlink
      rw [List.forall_mem_cons] at hst
      rw [firstId, PlinIndex.walkChain]
      simp only [Option.bind_eq_bind, Option.bind_some, hst.1, hnext, ih hst.2 hlink,
        List.length_cons, Nat.add_le_add_iff_right]
      split
      · rfl
      · rfl

omit [Arith D] in
/-- 集めた番地から親 slot を作る。 -/
theorem mapM_getInfo {c : List (Link D)} (hst : ∀ x ∈ c, leaves[x.1]? = some x.2) :
    (c.map Prod.fst).mapM (fun id => (leaves[id]?).map fun l => l.getInfo id) =
      some (c.map Link.info) := by
  induction c with
  | nil => rfl
  | cons x c ih =>
    rw [List.forall_mem_cons] at hst
    rw [List.map_cons, List.mapM_cons, ih hst.2, hst.1]
    rfl

end Walk

namespace PlinIndex

variable {s s' : PlinIndex D} {t : Tier D} {rest : List (Tier D)} {slots : List (InnerSlot D)}
  {c : List (Link D)} {f : Fitter D}

/-- 成功した計算をほどく。 -/
theorem bind_eq_ok {α β : Type} {x : Except IndexFault α} {g : α → Except IndexFault β} {b : β}
    (h : x.bind g = .ok b) : ∃ a, x = .ok a ∧ g a = .ok b := by
  cases x with
  | error e => cases h
  | ok a => exact ⟨a, rfl, h⟩

theorem rebuildInnerNodes_frame (h : s.rebuildInnerNodes f = .ok s') :
    ∃ inners roots parameter, s' = { s with
      inners := inners, roots := roots, orphanNumber := 0, parameter := parameter } := by
  obtain ⟨_, -, h⟩ := bind_eq_ok h
  obtain ⟨_, -, h⟩ := bind_eq_ok h
  obtain ⟨_, -, h⟩ := bind_eq_ok h
  obtain ⟨b, -, h⟩ := bind_eq_ok h
  exact ⟨_, _, _, (Except.ok.inj h).symm⟩

/-- `get_leftmost_leaf` は、slot の列の先頭の leaf を返す。 -/
theorem Rooted.getLeftmostLeaf_eq (h : s.Rooted t rest slots) {e : InnerSlot D}
    (he : slots.head? = some e) : s.getLeftmostLeaf = some e.ptr := by
  obtain ⟨a, ha, hgo⟩ := Stacked.getLeftmostLeaf_eq h.stacked he
  have hheight := h.height_le
  obtain ⟨n, hn⟩ : ∃ n, s.inners.length + 1 = n + 1 + (t :: rest).length :=
    ⟨s.inners.length - (rest.length + 1), by rw [List.length_cons]; omega⟩
  have htype := h.leafSlots e (List.mem_of_mem_head? he)
  have hroot : s.roots[0]? = some a := by
    rw [← List.head?_eq_getElem?]
    exact ha
  unfold getLeftmostLeaf
  rw [hroot]
  show InnerNode.getLeftmostLeaf s.inners (s.inners.length + 1) a.ptr = some e.ptr
  rw [hn, hgo, htype, if_neg (by simp)]

/-- **作り直した段の一番下の子の列は、連鎖の前から `leaf_number` 個の leaf の親 slot である。** -/
theorem rebuildInnerNodes_spec (hroot : s.Rooted t rest slots)
    (hchain : Chain s.minKey s.maxKey s.leaves c) (hfirst : slots.head? = (c.map Link.info).head?)
    (hpos : 0 < s.leafNumber) (hsmall : s.leafNumber < 2 ^ 32) (hfull : ∀ nd ∈ s.inners, nd.Full)
    (hmono : ∀ nd ∈ s'.inners, nd.Nondecreasing s.minKey s.maxKey)
    (h : s.rebuildInnerNodes f = .ok s') :
    s.leafNumber ≤ c.length ∧
      (∃ inners roots parameter, s' = { s with
        inners := inners, roots := roots, orphanNumber := 0, parameter := parameter }) ∧
      (∀ nd ∈ s'.inners, nd.Full) ∧
      ∃ t' rest', s'.Rooted t' rest' ((c.take s.leafNumber).map Link.info) := by
  obtain ⟨e, he, hemin⟩ := Option.map_eq_some_iff.mp hroot.low
  obtain ⟨x, c', hc⟩ : ∃ x c', c = x :: c' := by
    cases c with
    | nil =>
      rw [he] at hfirst
      cases hfirst
    | cons x c' => exact ⟨x, c', rfl⟩
  have hex : e = x.info := by
    rw [he, hc] at hfirst
    simpa using hfirst
  -- 左端の leaf から、数えた分だけ連鎖をたどる
  have hwalk := @walkChain_eq D s.leaves s.leafNumber c none hchain.stored hchain.linked
  rw [show firstId c none = some e.ptr by rw [hc, hex]; rfl] at hwalk
  unfold rebuildInnerNodes at h
  rw [hroot.getLeftmostLeaf_eq he] at h
  simp only [orFault, bind, Except.bind] at h
  rw [hwalk] at h
  -- 数えた leaf が連鎖より多ければ、たどる途中で外に出る
  by_cases hle : s.leafNumber ≤ c.length
  · rw [if_pos hle] at h
    have htake : ∀ y ∈ c.take s.leafNumber, s.leaves[y.1]? = some y.2 :=
      fun y hy => hchain.stored y (List.mem_of_mem_take hy)
    simp only [mapM_getInfo htake] at h
    split at h
    · cases h
    · next b hb =>
      have hs' := (Except.ok.inj h).symm
      subst hs'
      have hslots : SlotsOk s.minKey s.maxKey ((c.take s.leafNumber).map Link.info) := by
        refine ⟨?_, fun u hu => ?_⟩
        · rw [List.pairwise_map]
          exact hchain.firstKey_sorted.sublist (List.take_sublist ..)
        · obtain ⟨y, hy, rfl⟩ := List.mem_map.mp hu
          exact (hchain.sound y (List.mem_of_mem_take hy)).first
      have hfree : ∀ u ∈ (c.take s.leafNumber).map Link.info, u.minKey < freeFlag :=
        fun u hu => lt_of_le_of_lt (hslots.within u hu).2 hroot.bound
      have hbuilt : ∀ nd ∈ b.inners, nd.Full := by
        refine buildLevels_full (fun n hn => ?_) hb ?_ ?_ hfull
        · unfold innerBlocksForRebuild epsilonInnerNode innerSlotsPerBlock
          omega
        · rw [List.pairwise_map]
          exact hslots.sorted
        · rw [List.length_map, List.length_map, List.length_take]
          omega
      obtain ⟨t', rest', hon⟩ := buildLevels_spec hb hslots hfree fun nd hnd =>
        ((hmono nd hnd).tame (hbuilt nd hnd)).anti Set.inter_subset_left
      refine ⟨hle, ⟨_, _, _, rfl⟩, hbuilt, t', rest', hroot.bound, hon.stacked, hon.nodup, hslots,
        ?_, ?_⟩
      · rw [hc, show s.leafNumber = s.leafNumber - 1 + 1 by omega, List.take_succ_cons]
        rw [hex] at hemin
        exact congrArg some hemin
      · intro u hu
        obtain ⟨y, -, rfl⟩ := List.mem_map.mp hu
        rfl
  · rw [if_neg hle] at h
    cases h

end PlinIndex

end Plin
