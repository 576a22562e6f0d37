import Plin.Properties.Conversion
import Plin.Properties.InnerCapacity
import Plin.Properties.Stair

/-!
# End の予測は Edge の道をたどるか

Edge の探索は、根でも子でも `first_key` が鍵以下である最後の node を選ぶ。End の `predict_pos` は二つの所で
これと違う。

* 使う区分の番号が一つ大きい。合うのは、数えた個数が段の終わりに達して抑えられるときだけである。
* 二段目からは、鍵ではなく一つ上の段で予測した slot の番号を `first_key` と比べる。

**どの鍵でも二つの道が一致するのは、表が一つの区分だけのとき、またそのときに限る**（`endFollows_iff`）。根が二つ以上
あれば `min_key` で外れる。根が一つで段が二つ以上あるときは、根の下の段に九つ以上の node があり、その `first_key` を
根の予測する block だけでは区別できない（`rootSize_lt_blocks`）。
-/

namespace Plin

open Infra

variable {D : Type} [Arith D]

/-! ## 段の上の端 -/

namespace Stacked

variable {inners : List (InnerNode D)} {lo hi key : Key} {t : Tier D} {rest : List (Tier D)}
  {bottom top : List (InnerSlot D)}

/-- 段は途中で上下に分けられる。 -/
theorem split : ∀ {low high : List (Tier D)} {bottom : List (InnerSlot D)},
    Stacked inners (low ++ high) bottom top →
      ∃ mid, Stacked inners low bottom mid ∧ Stacked inners high mid top
  | [], _, bottom, h => ⟨bottom, rfl, h⟩
  | _ :: _, _, _, ⟨he, hok, hst⟩ => by
    obtain ⟨mid, hlow, hhigh⟩ := split hst
    exact ⟨mid, ⟨he, hok, hlow⟩, hhigh⟩

/-- 段の node は、一番下の段の子より多くない。 -/
theorem length_tier_le : ∀ {tiers : List (Tier D)} {bottom : List (InnerSlot D)},
    Stacked inners tiers bottom top → ∀ u ∈ tiers, u.length ≤ bottom.length
  | [], _, _, u, hu => absurd hu List.not_mem_nil
  | t :: rest, _, ⟨he, hok, hst⟩, u, hu => by
    have ht : t.length ≤ t.entries.length := by
      clear he hst hu
      induction t with
      | nil => exact le_rfl
      | cons x t ih =>
        obtain ⟨e, hhead, -⟩ := Option.map_eq_some_iff.mp (hok x List.mem_cons_self).head
        have hpos := List.length_pos_of_mem (List.mem_of_mem_head? hhead)
        have hrest := ih fun y hy => hok y (List.mem_cons_of_mem _ hy)
        rw [Tier.entries_cons, List.length_append, List.length_cons]
        omega
    subst he
    rcases List.mem_cons.mp hu with rfl | hu
    · exact ht
    · have hle := length_tier_le hst u hu
      rw [Tier.accelerators, List.length_map] at hle
      exact hle.trans ht

end Stacked

/-! ## End の道 -/

namespace LocalModel

variable {row : List (Param D)} {levels : List (List (Param D))} {key value : Key}

omit [Arith D] in
theorem rank_eq (row : List (Param D)) (value : Key) :
    rank row value =
      ((row.map Param.firstKey).takeWhile fun k => decide (k ≤ value)).length := by
  rw [rank, List.takeWhile_map, List.length_map]
  rfl

omit [Arith D] in
theorem rank_le_length (row : List (Param D)) (value : Key) : rank row value ≤ row.length :=
  (List.takeWhile_sublist _).length_le

omit [Arith D] in
theorem rank_eq_length_iff : rank row value = row.length ↔ ∀ p ∈ row, p.firstKey ≤ value := by
  rw [rank]
  constructor
  · intro h p hp
    have hall := (List.takeWhile_sublist fun p : Param D =>
      decide (p.firstKey ≤ value)).eq_of_length h
    rw [List.takeWhile_eq_self_iff] at hall
    exact of_decide_eq_true (hall p hp)
  · intro h
    rw [List.takeWhile_eq_self_iff.mpr fun p hp => decide_eq_true (h p hp)]

omit [Arith D] in
/-- 番号が合うのは、段の全部を数えるときだけである。 -/
theorem segmentIndex_succ_iff (hne : row ≠ []) :
    segmentIndex row value + 1 = rank row value ↔ ∀ p ∈ row, p.firstKey ≤ value := by
  have hpos := List.length_pos_iff.mpr hne
  have hv := rank_le_length row value
  rw [← rank_eq_length_iff, segmentIndex]
  split <;> omega

omit [Arith D] in
theorem segmentIndex_lt (hne : row ≠ []) (value : Key) : segmentIndex row value < row.length := by
  have hpos := List.length_pos_iff.mpr hne
  unfold segmentIndex
  split <;> omega

/-- 段の `first_key` は増えていく。 -/
def RowSorted (row : List (Param D)) : Prop := row.Pairwise fun p q => p.firstKey < q.firstKey

namespace RowSorted

omit [Arith D] in
/-- 最後の区分の `first_key` が値以下なら、どの区分もそうである。 -/
theorem forall_le_iff (h : RowSorted row) {p : Param D} (hp : row.getLast? = some p) :
    (∀ q ∈ row, q.firstKey ≤ value) ↔ p.firstKey ≤ value := by
  obtain ⟨front, rfl⟩ := List.getLast?_eq_some_iff.mp hp
  have hsorted := List.pairwise_append.mp h
  constructor
  · exact fun hall => hall p (by simp)
  · intro hpk q hq
    rcases List.mem_append.mp hq with hq | hq
    · exact le_trans (hsorted.2.2 q hq p List.mem_cons_self).le hpk
    · rw [List.mem_singleton.mp hq]
      exact hpk

omit [Arith D] in
/-- 段の中で `first_key` は重ならない。 -/
theorem index_eq (h : RowSorted row) {i j : Nat} {p q : Param D} (hp : row[i]? = some p)
    (hq : row[j]? = some q) (heq : p.firstKey = q.firstKey) : i = j := by
  obtain ⟨hi, rfl⟩ := List.getElem?_eq_some_iff.mp hp
  obtain ⟨hj, rfl⟩ := List.getElem?_eq_some_iff.mp hq
  rcases Nat.lt_trichotomy i j with hc | hc | hc
  · exact absurd heq (List.pairwise_iff_getElem.mp h _ _ hi hj hc).ne
  · exact hc
  · exact absurd heq.symm (List.pairwise_iff_getElem.mp h _ _ hj hi hc).ne

end RowSorted

/--
**根の予測する block だけでは、下の段の node を区別できない。**

予測する block は高々 `block_number - 1` 通りなので、九つ以上の node の番号は全部は出てこない。
-/
theorem rootSize_lt_blocks (row : List (Param D)) (p : Param D) (key : Nat → Key) {n : Nat}
    (hmany : rootSize < n) (hblocks : p.blockNum = innerBlocksForLoad n)
    (h32 : p.blockNum < 2 ^ 32) : ¬ ∀ j < n, segmentIndex row (nextValue p (key j)) = j := by
  intro hall
  have h4 : 4 ≤ p.blockNum := by
    rw [hblocks]
    unfold innerBlocksForLoad epsilonInnerNode innerSlotsPerBlock
    omega
  -- 段の番号は、予測した block で決まる
  have hinj : Set.InjOn (fun j => InnerNode.predictBlock (key j) p.slope p.intercept p.blockNum)
      (Finset.range n) := by
    intro i hi j hj hij
    rw [Finset.coe_range, Set.mem_Iio] at hi hj
    have hnext : nextValue p (key i) = nextValue p (key j) := by
      rw [nextValue, nextValue, Nat.mod_eq_of_lt h32]
      exact congrArg (fun b => Key.ofNat (b * innerSlotsPerBlock)) hij
    rw [← hall i hi, hnext, hall j hj]
  have hmaps : Set.MapsTo
      (fun j => InnerNode.predictBlock (key j) p.slope p.intercept p.blockNum)
      (Finset.range n) (Finset.range (p.blockNum - 1)) := by
    intro j _
    rw [Finset.coe_range, Set.mem_Iio]
    exact InnerNode.predictBlock_lt_pred (key j) p.slope p.intercept h4 h32
  have hcard := Finset.card_le_card_of_injOn _ hmaps hinj
  rw [Finset.card_range, Finset.card_range, hblocks] at hcard
  have h8 : rootSize = 8 := rfl
  unfold innerBlocksForLoad epsilonInnerNode innerSlotsPerBlock at hcard
  omega

end LocalModel

/-! ## `parameter` の段 -/

theorem InnerNode.firstKey_of_new {bn startPos : Nat} {data : List (Key × InnerSlot D)}
    {slope intercept : D} {nd : InnerNode D} (h : new bn data startPos slope intercept = some nd) :
    nd.firstKey = (data.map Prod.fst).headD freeFlag := by
  obtain ⟨nd', hplace, hcheck⟩ := Option.bind_eq_some_iff.mp h
  split at hcheck
  · obtain rfl := Option.some.inj hcheck
    rw [(placeAll_header hplace).1]
    rfl
  · cases hcheck

/-- 一段の行と親 slot は、区分の `first_key` を並べたものである。 -/
theorem buildInners_headers {bnf : Nat → Nat} {segs : List (Segment D)} :
    ∀ {data : List (Key × InnerSlot D)} {startPos : Nat} {heap : List (InnerNode D)}
      {r : List (InnerNode D) × List (InnerSlot D) × List (Param D)},
      buildInners bnf segs data startPos heap = .ok r → Covers segs (data.map Prod.fst) →
      r.2.2.map (fun p => (p.firstKey, p.blockNum)) =
          segs.map (fun seg => (seg.firstKey, bnf seg.number)) ∧
        r.2.1.map InnerSlot.minKey = segs.map (·.firstKey) ∧ ∀ a ∈ r.2.1, a.type = true := by
  induction segs with
  | nil =>
    intro data startPos heap r h _
    obtain rfl := Except.ok.inj h
    exact ⟨rfl, rfl, fun a ha => absurd ha List.not_mem_nil⟩
  | cons seg segs ih =>
    intro data startPos heap r h hcov
    obtain ⟨hpos, -, hhead, -, hcov⟩ := hcov
    rw [← List.map_drop] at hcov
    rw [buildInners] at h
    dsimp only at h
    split at h
    · cases h
    · next nd hnd =>
      cases hrec : buildInners bnf segs (data.drop seg.number) (startPos + seg.number)
          (heap ++ [nd]) with
      | error e =>
        rw [hrec] at h
        cases h
      | ok r' =>
        rw [hrec] at h
        obtain rfl := Except.ok.inj h
        obtain ⟨hrows, hkeys, htype⟩ := ih hrec hcov
        have hfirst : nd.firstKey = seg.firstKey := by
          rw [InnerNode.firstKey_of_new hnd, List.map_take, List.headD_eq_head?_getD,
            List.head?_take, if_neg (by omega), hhead]
          rfl
        refine ⟨congrArg ((seg.firstKey, bnf seg.number) :: ·) hrows, ?_, ?_⟩
        · show nd.firstKey :: r'.2.1.map InnerSlot.minKey = _
          rw [hkeys, hfirst]
          rfl
        · exact List.forall_mem_cons.mpr ⟨rfl, htype⟩

omit [Arith D] in
theorem map_firstKey_of_headers {row : List (Param D)} {segs : List (Segment D)} {bnf : Nat → Nat}
    (h : row.map (fun p => (p.firstKey, p.blockNum)) =
      segs.map fun seg => (seg.firstKey, bnf seg.number)) :
    row.map Param.firstKey = segs.map (·.firstKey) := by
  have := congrArg (List.map Prod.fst) h
  rwa [List.map_map, List.map_map] at this

/--
`bulk_load` の表の行を下から並べたもの。`keys` は一番下の段の子の鍵、`roots` は一番上の段の親 slot である。

行の `first_key` を区分に分けたものが、その上の行である。上に行があるのは、行が根に収まらないときに限る。
-/
inductive Graded (f : Fitter D) (roots : List (InnerSlot D)) :
    List Key → List (List (Param D)) → Prop
  | top {keys : List Key} {row : List (Param D)}
      (hrow : row.map (fun p => (p.firstKey, p.blockNum)) =
        (makeSegmentation f epsilonInnerNode keys).map
          fun seg => (seg.firstKey, innerBlocksForLoad seg.number))
      (hroots : roots.map InnerSlot.minKey = row.map Param.firstKey) : Graded f roots keys [row]
  | up {keys : List Key} {row : List (Param D)} {rows : List (List (Param D))}
      (hrow : row.map (fun p => (p.firstKey, p.blockNum)) =
        (makeSegmentation f epsilonInnerNode keys).map
          fun seg => (seg.firstKey, innerBlocksForLoad seg.number))
      (hmany : rootSize < row.length) (h : Graded f roots (row.map Param.firstKey) rows) :
      Graded f roots keys (row :: rows)

/-- 段を積む loop の足す行は、下から順に積まれている。 -/
theorem graded_buildLevels {f : Fitter D} :
    ∀ {fuel : Nat} {segments : List (Segment D)} {firstKeys : List Key}
      {slots : List (InnerSlot D)} {heap : List (InnerNode D)} {params : List (List (Param D))}
      {b : Built D}, buildLevels f innerBlocksForLoad fuel segments segments.length firstKeys slots
        heap params = .ok b → firstKeys.Pairwise (· < ·) → firstKeys.length ≤ slots.length →
      ∃ rows, b.parameter = params ++ rows ∧ Graded f b.roots firstKeys rows ∧
        ∀ a ∈ b.roots, a.type = true := by
  intro fuel
  induction fuel with
  | zero =>
    intro segments firstKeys slots heap params b h
    cases h
  | succ fuel ih =>
    intro segments firstKeys slots heap params b h hsorted hlen
    have hcov := covers_makeSegmentation f epsilonInnerNode (hsorted.imp fun hab => le_of_lt hab)
    rw [buildLevels_succ] at h
    split at h
    · cases h
    · next r hr =>
      obtain ⟨hhead, haccs, htype⟩ :=
        buildInners_headers hr (by rwa [List.map_fst_zip hlen])
      have hkeys := map_firstKey_of_headers hhead
      dsimp only at h
      split at h
      · next hroot =>
        rw [← hkeys] at h
        obtain ⟨rows, hparams, hgraded, htypes⟩ := ih h (hkeys ▸ hcov.sorted) (by
          rw [hkeys, ← haccs, List.length_map])
        refine ⟨r.2.2 :: rows, ?_, .up hhead ?_ hgraded, htypes⟩
        · rw [hparams, List.append_assoc]
          rfl
        · have hlen := congrArg List.length hkeys
          rw [List.length_map, List.length_map] at hlen
          rwa [hlen]
      · obtain rfl := Except.ok.inj h
        exact ⟨[r.2.2], rfl, .top hhead (haccs.trans hkeys.symm), htype⟩

namespace Graded

variable {f : Fitter D} {roots : List (InnerSlot D)} {keys : List Key}
  {rows : List (List (Param D))}

omit [Arith D] in
/-- 行の `first_key` は、下の段の鍵の先頭から始まって増えていく。 -/
theorem sorted_row {row : List (Param D)} (hkeys : keys.Pairwise (· < ·))
    (hrow : row.map (fun p => (p.firstKey, p.blockNum)) =
      (makeSegmentation f epsilonInnerNode keys).map
        fun seg => (seg.firstKey, innerBlocksForLoad seg.number)) :
    (row.map Param.firstKey).Pairwise (· < ·) ∧ (row.map Param.firstKey).head? = keys.head? := by
  rw [map_firstKey_of_headers hrow]
  exact ⟨(covers_makeSegmentation f epsilonInnerNode (hkeys.imp fun hab => le_of_lt hab)).sorted,
    head?_makeSegmentation f epsilonInnerNode hkeys⟩

omit [Arith D] in
theorem rows_ok (h : Graded f roots keys rows) (hkeys : keys.Pairwise (· < ·)) :
    ∀ row ∈ rows, LocalModel.RowSorted row ∧ row.head?.map Param.firstKey = keys.head? := by
  induction h with
  | top hrow =>
    intro row hmem
    obtain rfl := List.mem_singleton.mp hmem
    obtain ⟨hsorted, hhead⟩ := sorted_row hkeys hrow
    exact ⟨List.pairwise_map.mp hsorted, by rwa [List.head?_map] at hhead⟩
  | up hrow _ _ ih =>
    intro row hmem
    obtain ⟨hsorted, hhead⟩ := sorted_row hkeys hrow
    rcases List.mem_cons.mp hmem with rfl | hmem
    · exact ⟨List.pairwise_map.mp hsorted, by rwa [List.head?_map] at hhead⟩
    · rw [← hhead]
      exact ih hsorted row hmem

omit [Arith D] in
theorem getLast (h : Graded f roots keys rows) :
    ∃ top, rows.getLast? = some top ∧ top.map Param.firstKey = roots.map InnerSlot.minKey := by
  induction h with
  | top _ hroots => exact ⟨_, rfl, hroots.symm⟩
  | up _ _ h ih =>
    obtain ⟨top, htop, hkeys⟩ := ih
    exact ⟨top, by rw [List.getLast?_cons, htop]; rfl, hkeys⟩

omit [Arith D] in
/-- 隣り合う二つの行。 -/
theorem adjacent (h : Graded f roots keys rows) :
    ∀ {A B : List (List (Param D))} {x y : List (Param D)}, rows = A ++ x :: y :: B →
      rootSize < x.length ∧ y.map (fun p => (p.firstKey, p.blockNum)) =
        (makeSegmentation f epsilonInnerNode (x.map Param.firstKey)).map
          fun seg => (seg.firstKey, innerBlocksForLoad seg.number) := by
  induction h with
  | top =>
    intro A B x y hcut
    have hlen := congrArg List.length hcut
    simp only [List.length_append, List.length_cons, List.length_nil] at hlen
    omega
  | up _ hmany h ih =>
    intro A B x y hcut
    cases A with
    | nil =>
      obtain ⟨rfl, htail⟩ := List.cons.inj hcut
      refine ⟨hmany, ?_⟩
      cases h with
      | top hrow =>
        obtain ⟨rfl, -⟩ := List.cons.inj htail
        exact hrow
      | up hrow =>
        obtain ⟨rfl, -⟩ := List.cons.inj htail
        exact hrow
    | cons z A =>
      obtain ⟨-, hcut⟩ := List.cons.inj hcut
      exact ih hcut

end Graded

namespace PlinIndex

open LocalModel

variable {f : Fitter D} {data : List (Key × Payload)} {s : PlinIndex D} {key : Key}

/-- End の予測は Edge の道をたどる。根の段では同じ番号を選び、どの段でも同じ node の区分を使う。 -/
structure EndFollows (s : PlinIndex D) (key : Key) : Prop where
  root : ∃ top, s.parameter.getLast? = some top ∧ s.selectRoot key = some (segmentIndex top key)
  path : s.searchPath key = segmentPath s.parameter.reverse key

/-- `bulk_load` の表の行は `min_key` から始まって増えていき、一番上の行は根のものである。 -/
structure TableOk (s : PlinIndex D) : Prop where
  rows : ∀ row ∈ s.parameter, RowSorted row ∧ row.head?.map Param.firstKey = some s.minKey
  roots : ∃ top, s.parameter.getLast? = some top ∧
    top.map Param.firstKey = s.roots.map InnerSlot.minKey

theorem Loaded.graded (h : Loaded f data s) (hd : LoadData data) :
    Graded f s.roots ((loadSegments f data).map (·.firstKey)) s.parameter ∧
      ∀ a ∈ s.roots, a.type = true := by
  obtain ⟨rows, hparams, hgraded, htypes⟩ :=
    graded_buildLevels h.levels (h.sorted_firstKeys hd) (by
      rw [List.length_map, List.length_map, loadChain, length_linkLeaves, length_loadLeaves])
  obtain rfl : s.parameter = rows := hparams
  exact ⟨hgraded, htypes⟩

theorem Loaded.tableOk (h : Loaded f data s) (hd : LoadData data) : s.TableOk := by
  obtain ⟨hgraded, -⟩ := h.graded hd
  refine ⟨fun row hrow => ?_, hgraded.getLast⟩
  obtain ⟨hsorted, hhead⟩ := hgraded.rows_ok (h.sorted_firstKeys hd) row hrow
  refine ⟨hsorted, hhead.trans ?_⟩
  rw [loadSegments, head?_makeSegmentation f epsilonLeafNode hd.strict]
  exact h.min

omit [Arith D] in
/-- 根の選び方は、一番上の段で `first_key` を数えることである。 -/
theorem selectRoot_eq_some_iff {top : List (Param D)} {i : Nat}
    (htop : top.map Param.firstKey = s.roots.map InnerSlot.minKey) :
    s.selectRoot key = some i ↔ i + 1 = rank top key := by
  have hlen : (s.roots.takeWhile fun r => decide (r.minKey ≤ key)).length = rank top key := by
    rw [rank_eq, htop, List.takeWhile_map, List.length_map]
    rfl
  unfold selectRoot
  rw [hlen]
  cases rank top key with
  | zero => simp
  | succ n => simp [eq_comm]

omit [Arith D] in
/-- 根の番号が合うのは、鍵が最後の根の `first_key` 以上のときである。 -/
theorem selectRoot_iff {top : List (Param D)} {p : Param D} (hrow : RowSorted top)
    (hp : top.getLast? = some p) (htop : top.map Param.firstKey = s.roots.map InnerSlot.minKey) :
    s.selectRoot key = some (segmentIndex top key) ↔ p.firstKey ≤ key := by
  have hne : top ≠ [] := by
    rintro rfl
    cases hp
  rw [selectRoot_eq_some_iff htop, segmentIndex_succ_iff hne, hrow.forall_le_iff hp]

theorem TableOk.le_of_follows (h : s.TableOk) (hfollows : s.EndFollows key)
    {top : List (Param D)} (htop : s.parameter.getLast? = some top) {p : Param D}
    (hp : top.getLast? = some p) : p.firstKey ≤ key := by
  obtain ⟨top', htop', hkeys⟩ := h.roots
  obtain rfl := Option.some.inj (htop.symm.trans htop')
  obtain ⟨top', htop', hroot⟩ := hfollows.root
  obtain rfl := Option.some.inj (htop.symm.trans htop')
  exact (selectRoot_iff (h.rows top (List.mem_of_getLast? htop)).1 hp hkeys).mp hroot

/-- `min_key` でも番号が合うのは、根が一つのときである。 -/
theorem TableOk.eq_singleton (h : s.TableOk) (hfollows : s.EndFollows s.minKey)
    {top : List (Param D)} (htop : s.parameter.getLast? = some top) : ∃ p, top = [p] := by
  obtain ⟨hsorted, hhead⟩ := h.rows top (List.mem_of_getLast? htop)
  cases top with
  | nil => cases hhead
  | cons q qs =>
    rcases List.eq_nil_or_concat qs with rfl | ⟨front, p, rfl⟩
    · exact ⟨q, rfl⟩
    · have hlast : (q :: front.concat p).getLast? = some p := by
        rw [List.concat_eq_append, ← List.cons_append, List.getLast?_concat]
      have hle := h.le_of_follows hfollows htop hlast
      have hlt := (List.pairwise_cons.mp hsorted).1 p (by simp)
      rw [← Option.some.inj hhead] at hle
      exact absurd hlt (not_lt_of_ge hle)

/-! ## 一段の表 -/

/-- どの node の slot も inner node を指さなければ、`find` の入る node は根だけである。 -/
theorem enteredSlots_one (htypes : ∀ a ∈ s.roots, a.type = true)
    (hflat : ∀ nd ∈ s.inners, ∀ e ∈ nd.slots, e.type = false) {i : Nat} {a : InnerSlot D}
    (hsel : s.selectRoot key = some i) (hget : s.roots[i]? = some a) :
    s.enteredSlots key = [a] := by
  unfold enteredSlots
  rw [hsel, Option.bind_some, hget]
  dsimp only
  rw [htypes a (List.mem_of_getElem? hget), if_pos rfl, InnerNode.enteredSlots]
  cases hnext : InnerNode.nextSlot s.inners key a with
  | none => rfl
  | some e =>
    obtain ⟨nd, hnd, hnext⟩ := Option.bind_eq_some_iff.mp hnext
    obtain ⟨slot, -, hnext⟩ := Option.bind_eq_some_iff.mp hnext
    have hleaf := hflat nd (List.mem_of_getElem? hnd) e (List.mem_of_getElem? hnext)
    dsimp only
    rw [hleaf, if_neg Bool.false_ne_true]

/-- 段が一つの表は、loop の一回りで積まれている。 -/
theorem Loaded.inners_of_one (h : Loaded f data s) (hd : LoadData data) {row : List (Param D)}
    (hone : s.parameter = [row]) :
    ∃ r, buildInners innerBlocksForLoad
      (makeSegmentation f epsilonInnerNode ((loadSegments f data).map (·.firstKey)))
      (((loadSegments f data).map (·.firstKey)).zip ((loadChain f data).map Link.info)) 0 [] =
        .ok r ∧ s.inners = r.1 := by
  have hlen : ((loadSegments f data).map (·.firstKey)).length =
      ((loadChain f data).map Link.info).length := by
    rw [List.length_map, List.length_map, loadChain, length_linkLeaves, length_loadLeaves]
  have hsorted := h.sorted_firstKeys hd
  have hlevels := h.levels
  rw [buildLevels_succ] at hlevels
  split at hlevels
  · cases hlevels
  · next r hr =>
    refine ⟨r, hr, ?_⟩
    dsimp only at hlevels
    split at hlevels
    · -- もう一段積むと、表は二段以上になる
      have hcov := covers_makeSegmentation f epsilonInnerNode (hsorted.imp fun hab => le_of_lt hab)
      obtain ⟨-, haccs, -⟩ := buildInners_headers hr (by rwa [List.map_fst_zip hlen.le])
      obtain ⟨rows, hparams, hgraded, -⟩ := graded_buildLevels hlevels hcov.sorted (by
        rw [← haccs, List.length_map])
      have hrows : rows ≠ [] := by
        obtain ⟨top, htop, -⟩ := hgraded.getLast
        rintro rfl
        cases htop
      have hlength := congrArg List.length (hone.symm.trans hparams)
      have hpos := List.length_pos_iff.mpr hrows
      rw [List.length_append, List.length_append, List.length_singleton] at hlength
      simp only [List.length_nil, List.length_singleton] at hlength
      omega
    · exact congrArg Built.inners (Except.ok.inj hlevels).symm

/-- 段が一つなら、inner node の slot はどれも leaf を指すか空いている。 -/
theorem Loaded.flat_of_one (h : Loaded f data s) (hd : LoadData data) {row : List (Param D)}
    (hone : s.parameter = [row]) : ∀ nd ∈ s.inners, ∀ e ∈ nd.slots, e.type = false := by
  obtain ⟨r, hr, hinners⟩ := h.inners_of_one hd hone
  rw [hinners]
  refine buildInners_forall hr (fun seg _ part pos nd hpart hnd => ?_) (by simp)
  obtain ⟨nd', hplace, hcheck⟩ := Option.bind_eq_some_iff.mp hnd
  split at hcheck
  · obtain rfl := Option.some.inj hcheck
    intro e he
    rcases InnerNode.mem_slots_placeAll hplace e he with he | ⟨x, hx, rfl⟩
    · rw [List.eq_of_mem_replicate he]
      rfl
    · obtain ⟨l, -, hl⟩ := List.mem_map.mp (List.of_mem_zip (hpart.subset hx)).2
      rw [← hl]
      rfl
  · cases hcheck

/-- 一段の表では、根の番号が合えば道も合う。 -/
theorem Loaded.follows_of_root (h : Loaded f data s) (hd : LoadData data) {row : List (Param D)}
    (hone : s.parameter = [row]) (hroot : s.selectRoot key = some (segmentIndex row key)) :
    s.EndFollows key := by
  obtain ⟨top, htop, hkeys⟩ := (h.tableOk hd).roots
  obtain rfl : row = top := by
    rw [hone] at htop
    exact Option.some.inj htop
  have hne : row ≠ [] := by
    rintro rfl
    obtain ⟨-, hhead⟩ := (h.tableOk hd).rows [] (List.mem_of_getLast? htop)
    cases hhead
  have hlt := segmentIndex_lt hne key
  have hget : (s.roots[segmentIndex row key]?).map InnerSlot.minKey =
      some row[segmentIndex row key].firstKey := by
    rw [← List.getElem?_map, ← hkeys, List.getElem?_map, List.getElem?_eq_getElem hlt]
    rfl
  obtain ⟨a, ha, hkey⟩ := Option.map_eq_some_iff.mp hget
  refine ⟨⟨row, htop, hroot⟩, ?_⟩
  rw [searchPath, enteredSlots_one (h.graded hd).2 (h.flat_of_one hd hone) hroot ha, hone,
    List.reverse_singleton, segmentPath, List.getElem?_eq_getElem hlt]
  exact congrArg (fun k => [k]) hkey

/-! ## 二段以上の表 -/

/-- 上の二段。 -/
theorem Rooted.top_two {t : Tier D} {rest : List (Tier D)} {slots : List (InnerSlot D)}
    (h : s.Rooted t rest slots) {low : List (Tier D)} {U T : Tier D}
    (hcut : t :: rest = low ++ [U, T]) :
    (∀ x ∈ T, Tier.NodeOk s.inners x) ∧ T.entries = U.accelerators ∧ T.accelerators = s.roots ∧
      SlotsOk s.minKey s.maxKey T.entries := by
  have hst := h.stacked
  rw [hcut] at hst
  obtain ⟨mid, hlow, hent, hokU, hentT, hokT, htop⟩ := Stacked.split hst
  have hslots := Stacked.slotsOk_top hlow h.slotsOk
  rw [← hent] at hslots
  exact ⟨hokT, hentT, htop, hentT ▸ Stacked.slotsOk_up hokU hslots⟩

/-- 根が一つなら、根の子の鍵ではその子に入る。 -/
theorem Rooted.enteredSlots_child {t : Tier D} {rest : List (Tier D)} {slots : List (InnerSlot D)}
    (h : s.Rooted t rest slots) {low : List (Tier D)} {U : Tier D} {x : InnerId × InnerNode D}
    (hcut : t :: rest = low ++ [U, [x]]) {e : InnerSlot D} (he : e ∈ U.accelerators)
    (hg : Stacked.Guided (Set.Icc s.minKey s.maxKey) s.inners e.minKey (x.2.accelerator x.1)) :
    ∃ tail, s.enteredSlots e.minKey = x.2.accelerator x.1 :: e :: tail := by
  obtain ⟨hok, hent, htop, hslots⟩ := h.top_two hcut
  have hmem : e ∈ Tier.entries [x] := by rwa [hent]
  obtain ⟨hlo, hhi⟩ := hslots.within e hmem
  obtain ⟨i, a, hsel, hget, hroot⟩ := h.exists_root hlo
  rw [← htop] at hroot
  obtain rfl : a = x.2.accelerator x.1 := List.mem_singleton.mp hroot.mem
  obtain ⟨X, y, Y, P, e', Q, -, -, -, hstep, hpred⟩ :=
    Stacked.step_tier hok hslots (lt_of_le_of_lt hhi h.bound) hg hroot
  obtain ⟨A, B, hself⟩ := isPred_of_mem hslots.sorted hmem
  obtain ⟨-, rfl, -⟩ := hpred.unique hself
  have htype : e'.type = true := by
    obtain ⟨z, -, rfl⟩ := List.mem_map.mp he
    rfl
  have hheight := h.height_le
  have hlen := congrArg List.length hcut
  rw [List.length_append, List.length_cons, List.length_cons, List.length_cons, List.length_nil]
    at hlen
  obtain ⟨n, hn⟩ : ∃ n, s.inners.length = n + 1 := ⟨s.inners.length - 1, by omega⟩
  have hdesc : Stacked.Descends s.inners e'.minKey (x.2.accelerator x.1)
      [x.2.accelerator x.1] e' := Stacked.Descends.refl.step hstep htype
  have hpath := hdesc.enteredSlots (n + 1)
  rw [InnerNode.enteredSlots] at hpath
  exact ⟨_, by rw [h.enteredSlots_eq hsel hget, hn]; exact hpath⟩

/-- 根が一つで、その下の段の node の `first_key` でも道が合うなら、End は根の下の段でその node の区分を使う。 -/
theorem Loaded.segmentIndex_eq [LawfulArith D] (h : Loaded f data s) (hd : LoadData data)
    (hf : f.Rising) (hheap : s.leaves.length < 2 ^ 32) (hb : s.BuildFits)
    {A : List (List (Param D))} {y : List (Param D)} {p : Param D}
    (hparams : s.parameter = A ++ [y, [p]]) {j : Nat} {q : Param D} (hq : y[j]? = some q)
    (hfollows : s.minKey ≤ q.firstKey → q.firstKey ≤ s.maxKey → s.EndFollows q.firstKey) :
    segmentIndex y (nextValue p q.firstKey) = j := by
  obtain ⟨t, rest, hshape, hrows⟩ := h.shape_rows hd (h.tame hd hf hheap hb)
  have hroot := hshape.rooted
  have htable := h.tableOk hd
  rw [hparams, List.map_append] at hrows
  obtain ⟨low, high, hcut, -, hhigh⟩ := List.map_eq_append_iff.mp hrows.symm
  obtain ⟨U, high, rfl, hU, hhigh⟩ := List.map_eq_cons_iff.mp hhigh
  obtain ⟨T, high, rfl, hT, hhigh⟩ := List.map_eq_cons_iff.mp hhigh
  obtain rfl := List.map_eq_nil_iff.mp hhigh
  obtain ⟨acc, hacc, -⟩ := List.map_eq_singleton_iff.mp hT
  obtain ⟨x, rfl, rfl⟩ := List.map_eq_singleton_iff.mp hacc
  obtain ⟨hok, hent, -, hslots⟩ := hroot.top_two hcut
  -- 根の子 `e` が、行 `y` の区分 `q` の node の親 slot である
  obtain ⟨e, he, heq⟩ := List.mem_map.mp (hU.symm ▸ List.mem_map_of_mem (List.mem_of_getElem? hq) :
    q.model ∈ U.models)
  have hkey : e.minKey = q.firstKey := congrArg (·.1) heq
  have hmem : e ∈ x.2.entries := by
    have hmem : e ∈ Tier.entries [x] := by rwa [hent]
    rwa [Tier.entries_cons, show Tier.entries ([] : Tier D) = [] from rfl, List.append_nil] at hmem
  obtain ⟨hslot, hfree⟩ := InnerNode.mem_occupied.mp hmem
  have hfit : InnerNode.fits e.minKey x.2.slope x.2.intercept = true :=
    hb x.2 (List.mem_of_getElem? (hok x List.mem_cons_self).stored) e hslot hfree
  obtain ⟨tail, hentered⟩ := hroot.enteredSlots_child hcut he (h.guided hd hf hheap hb hfit)
  obtain ⟨hlo, hhi⟩ := hslots.within e (by rwa [hent])
  have hpath := (hfollows (hkey ▸ hlo) (hkey ▸ hhi)).path
  rw [← hkey, searchPath, hentered, hparams, List.reverse_append, List.reverse_cons,
    List.reverse_singleton] at hpath
  simp only [List.cons_append, List.nil_append] at hpath
  -- 根の区分は一つしか無い
  have hzero : segmentIndex [p] e.minKey = 0 :=
    Nat.lt_one_iff.mp (segmentIndex_lt (List.cons_ne_nil p []) e.minKey)
  have hrow := (htable.rows y (by rw [hparams]; simp)).1
  have hlt : segmentIndex y (nextValue p e.minKey) < y.length := by
    refine segmentIndex_lt ?_ _
    rintro rfl
    cases hq
  rw [segmentPath, hzero, List.getElem?_cons_zero] at hpath
  dsimp only at hpath
  rw [segmentPath, List.getElem?_eq_getElem hlt] at hpath
  obtain ⟨-, hpath⟩ := List.cons.inj hpath
  obtain ⟨hfirst, -⟩ := List.cons.inj hpath
  rw [← hkey]
  exact hrow.index_eq (List.getElem?_eq_getElem hlt) hq (hfirst.symm.trans hkey)

/-- 根が一つでも、段が二つ以上あれば、根の下の段のどれかの node の `first_key` で道が外れる。 -/
theorem Loaded.parameter_eq_singleton [LawfulArith D] (h : Loaded f data s) (hd : LoadData data)
    (hf : f.Rising) (hheap : s.leaves.length < 2 ^ 32) (hb : s.BuildFits)
    (hall : ∀ key, s.minKey ≤ key → key ≤ s.maxKey → s.EndFollows key) :
    ∃ p, s.parameter = [[p]] := by
  obtain ⟨t, rest, hshape, hrows⟩ := h.shape_rows hd (h.tame hd hf hheap hb)
  have htable := h.tableOk hd
  obtain ⟨top, htop, -⟩ := htable.roots
  obtain ⟨p, rfl⟩ := htable.eq_singleton (hall s.minKey le_rfl hshape.rooted.min_le_max) htop
  obtain ⟨front, hfront⟩ := List.getLast?_eq_some_iff.mp htop
  rcases List.eq_nil_or_concat front with rfl | ⟨A, y, rfl⟩
  · exact ⟨p, hfront⟩
  · rw [List.concat_eq_append, List.append_assoc, List.singleton_append] at hfront
    obtain ⟨hmany, hheads⟩ := (h.graded hd).1.adjacent hfront
    obtain ⟨seg, hsegs, hhead⟩ := List.map_eq_singleton_iff.mp hheads.symm
    have hsorted := (htable.rows y (by rw [hfront]; simp)).1
    have hnumber := sum_number_makeSegmentation f epsilonInnerNode
      (List.pairwise_map.mpr hsorted : (y.map Param.firstKey).Pairwise (· < ·))
    rw [hsegs, List.map_singleton, List.sum_singleton, List.length_map] at hnumber
    have hblock : p.blockNum = innerBlocksForLoad y.length := by
      rw [← hnumber]
      exact (Prod.mk.inj hhead).2.symm
    -- 根の下の段の node は、leaf より多くない
    have hfew : y.length ≤ s.leaves.length := by
      obtain ⟨u, hu, hmodels⟩ := List.mem_map.mp (hrows ▸ List.mem_map_of_mem
        (show y ∈ s.parameter by rw [hfront]; simp) :
          y.map Param.model ∈ (t :: rest).map Tier.models)
      have hlen := congrArg List.length hmodels
      rw [Tier.models, Tier.accelerators, List.length_map, List.length_map, List.length_map] at hlen
      have hle := Stacked.length_tier_le hshape.stacked u hu
      rwa [List.length_map, loadChain, length_linkLeaves, length_loadLeaves, ← h.length_leaves,
        hlen] at hle
    refine absurd (fun j hj => ?_) (rootSize_lt_blocks y p
      (fun j => ((y[j]?).map Param.firstKey).getD freeFlag) hmany hblock ?_)
    · rw [List.getElem?_eq_getElem hj]
      exact h.segmentIndex_eq hd hf hheap hb hfront (List.getElem?_eq_getElem hj)
        fun hlo hhi => hall _ hlo hhi
    · rw [hblock]
      unfold innerBlocksForLoad epsilonInnerNode innerSlotsPerBlock
      omega

/--
**End の予測がどの鍵でも Edge の道をたどるのは、表が一つの区分だけのとき、そしてそのときに限る。**

一段の表では、鍵ごとに、最後の根の `first_key` 以上であることと同じである。二段以上の表でも、最後の根の `first_key`
より小さい鍵では外れる。
-/
theorem endFollows_iff {D : Type} [Arith D] [LawfulArith D] {f : Fitter D}
    {data : List (Key × Payload)} {s : PlinIndex D} (hload : bulkLoad f data = .ok s)
    (hd : LoadData data) :
    (f.Rising → s.leaves.length < 2 ^ 32 → s.BuildFits ∨ s.parameter.length = 1 →
      ((∀ key, s.minKey ≤ key → key ≤ s.maxKey → s.EndFollows key) ↔
        ∃ p, s.parameter = [[p]])) ∧
    (∀ row, s.parameter = [row] → ∀ key, s.minKey ≤ key → key ≤ s.maxKey →
      (s.EndFollows key ↔ ∃ p, row.getLast? = some p ∧ p.firstKey ≤ key)) ∧
    ∀ key, s.EndFollows key →
      ∃ top p, s.parameter.getLast? = some top ∧ top.getLast? = some p ∧ p.firstKey ≤ key := by
  have h := bulkLoad_loaded hload
  have htable := h.tableOk hd
  obtain ⟨top, htop, hkeys⟩ := htable.roots
  obtain ⟨hsorted, hhead⟩ := htable.rows top (List.mem_of_getLast? htop)
  obtain ⟨p, hp⟩ : ∃ p, top.getLast? = some p := by
    rw [← Option.isSome_iff_exists, List.getLast?_isSome]
    rintro rfl
    cases hhead
  have hone : ∀ row, s.parameter = [row] → ∀ key, s.minKey ≤ key → key ≤ s.maxKey →
      (s.EndFollows key ↔ ∃ p, row.getLast? = some p ∧ p.firstKey ≤ key) := by
    intro row hrow key hlo hhi
    obtain rfl : row = top := by
      rw [hrow] at htop
      exact Option.some.inj htop
    constructor
    · exact fun hfollows => ⟨p, hp, htable.le_of_follows hfollows htop hp⟩
    · rintro ⟨p', hp', hle⟩
      exact h.follows_of_root hd hrow ((selectRoot_iff hsorted hp' hkeys).mpr hle)
  refine ⟨fun hf hheap hb => ⟨fun hall => ?_, ?_⟩, hone, fun key hfollows =>
    ⟨top, p, htop, hp, htable.le_of_follows hfollows htop hp⟩⟩
  · rcases hb with hb | hlen
    · exact h.parameter_eq_singleton hd hf hheap hb hall
    · obtain ⟨row, hrow⟩ := List.length_eq_one_iff.mp hlen
      have hmin := h.within hd s.minKey (List.mem_of_mem_head? h.min)
      obtain ⟨q, hq⟩ := htable.eq_singleton (hall s.minKey le_rfl hmin.2) htop
      rw [hrow] at htop
      exact ⟨q, hrow.trans (congrArg (fun r => [r]) ((Option.some.inj htop).trans hq))⟩
  · rintro ⟨q, hq⟩ key hlo hhi
    refine (hone [q] hq key hlo hhi).mpr ⟨q, rfl, ?_⟩
    have hmin := (htable.rows [q] (by rw [hq]; exact List.mem_cons_self)).2
    exact (Option.some.inj hmin).trans_le hlo

/-! ## 根が二つある索引 -/

/-- 一段の子の予測に余裕があり、位置が `int64_t` に収まる。 -/
def levelRoomy (bnf : Nat → Nat) : List (Segment ℚ) → List Key → Nat → Bool
  | [], _, _ => true
  | seg :: segs, keys, startPos =>
    let nd := InnerNode.initial (bnf seg.number) (keys.take seg.number) startPos seg.slope
      seg.intercept
    decide (bnf seg.number < 2 ^ 29 ∧ seg.number ≤ bnf seg.number * innerSlotsPerBlock) &&
      nd.roomy (keys.take seg.number) &&
      (keys.take seg.number).all (fun k => InnerNode.fits k nd.slope nd.intercept) &&
      levelRoomy bnf segs (keys.drop seg.number) (startPos + seg.number)

/-- 構築の前半で定めた model に子の位置が収まれば、構築された node でも収まる。 -/
theorem childrenFit_of_new {bn startPos : Nat} {data : List (Key × InnerSlot D)}
    {slope intercept : D} {nd : InnerNode D}
    (h : InnerNode.new bn data startPos slope intercept = some nd)
    (hdata : ∀ x ∈ data, x.2.minKey = x.1)
    (hfit : ∀ k ∈ data.map Prod.fst,
      InnerNode.fits k (InnerNode.initial bn (data.map Prod.fst) startPos slope intercept).slope
        (InnerNode.initial bn (data.map Prod.fst) startPos slope intercept).intercept = true) :
    nd.ChildrenFit := by
  intro e he hfree
  obtain ⟨x, hx, rfl⟩ := InnerNode.mem_entries_new h (InnerNode.mem_occupied.mpr ⟨he, hfree⟩)
  obtain ⟨nd', hplace, hcheck⟩ := Option.bind_eq_some_iff.mp h
  split at hcheck
  · obtain rfl := Option.some.inj hcheck
    rw [hdata x hx, (InnerNode.placeAll_header hplace).1]
    exact hfit x.1 (List.mem_map_of_mem hx)
  · cases hcheck

/-- 余裕のある段は構築でき、子の位置はどれも収まる。 -/
theorem exists_buildInners {bnf : Nat → Nat} : ∀ {segs : List (Segment ℚ)}
    {data : List (Key × InnerSlot ℚ)} {startPos : Nat} {heap : List (InnerNode ℚ)},
    levelRoomy bnf segs (data.map Prod.fst) startPos = true →
    ∃ r, buildInners bnf segs data startPos heap = .ok r ∧
      ((∀ x ∈ data, x.2.minKey = x.1) → (∀ nd ∈ heap, nd.ChildrenFit) →
        ∀ nd ∈ r.1, nd.ChildrenFit)
  | [], _, _, _, _ => ⟨_, rfl, fun _ hheap => hheap⟩
  | seg :: segs, data, startPos, heap, h => by
    rw [levelRoomy, Bool.and_eq_true, Bool.and_eq_true, Bool.and_eq_true, ← List.map_take,
      ← List.map_drop] at h
    obtain ⟨⟨⟨hhead, hroom⟩, hfit⟩, hrest⟩ := h
    obtain ⟨hsmall, hlen⟩ := of_decide_eq_true hhead
    obtain ⟨nd, hnd, -⟩ := InnerNode.exists_new_of_roomy hsmall
      ((List.length_take_le _ _).trans hlen) hroom
    obtain ⟨r, hr, hall⟩ := @exists_buildInners bnf segs (data.drop seg.number)
      (startPos + seg.number) (heap ++ [nd]) hrest
    rw [buildInners, hnd]
    dsimp only
    rw [hr]
    refine ⟨_, rfl, fun hdata hheap => hall (fun x hx => hdata x (List.mem_of_mem_drop hx)) ?_⟩
    intro nd' hmem
    rcases List.mem_append.mp hmem with hmem | hmem
    · exact hheap nd' hmem
    · rw [List.mem_singleton.mp hmem]
      exact childrenFit_of_new hnd (fun x hx => hdata x (List.mem_of_mem_take hx))
        (List.all_eq_true.mp hfit)

/-- leaf の `first_key` が根の一段に収まり、子の予測に余裕があれば、`bulk_load` は一段の表を作る。 -/
theorem exists_flatIndex {data : List (Key × Payload)} {keys : List Key} (hne : data ≠ [])
    (hd : LoadData data)
    (hsmall : ∀ l ∈ loadLeaves exactFitter data, l.blockNumber < 2 ^ 29)
    (hkeys : (loadSegments exactFitter data).map (·.firstKey) = keys)
    (hroomy : levelRoomy innerBlocksForLoad (makeSegmentation exactFitter epsilonInnerNode keys)
      keys 0 = true)
    (hfew : (makeSegmentation exactFitter epsilonInnerNode keys).length ≤ rootSize) :
    ∃ s, bulkLoad exactFitter data = .ok s ∧ s.BuildFits ∧
      s.parameter.map (List.map Param.firstKey) =
        [(makeSegmentation exactFitter epsilonInnerNode keys).map (·.firstKey)] := by
  have hlen : keys.length = ((loadChain exactFitter data).map Link.info).length := by
    rw [← hkeys, List.length_map, List.length_map, loadChain, length_linkLeaves,
      length_loadLeaves]
  rw [← List.map_fst_zip hlen.le] at hroomy
  obtain ⟨r, hr, hfit⟩ := @exists_buildInners innerBlocksForLoad _ _ 0 [] hroomy
  rw [List.map_fst_zip hlen.le] at hr
  have hlevels := buildLevels_succ exactFitter innerBlocksForLoad
    (loadSegments exactFitter data).length (loadSegments exactFitter data) keys
    ((loadChain exactFitter data).map Link.info) [] []
  rw [hr] at hlevels
  dsimp only at hlevels
  rw [if_neg (not_lt.mpr hfew), ← hkeys] at hlevels
  obtain ⟨s, hs, hinners, -, hparams⟩ := exists_bulkLoad hne hsmall hlevels
  have h := bulkLoad_loaded hs
  have hsorted := h.sorted_firstKeys hd
  rw [hkeys] at hsorted
  have hcov := covers_makeSegmentation exactFitter epsilonInnerNode
    (hsorted.imp fun hab => le_of_lt hab)
  obtain ⟨hrow, -, -⟩ := buildInners_headers hr (by rwa [List.map_fst_zip hlen.le])
  refine ⟨s, hs, ?_, ?_⟩
  · -- 子の親 slot の鍵は、leaf の `first_key` である
    have hmin : ((loadChain exactFitter data).map Link.info).map InnerSlot.minKey = keys := by
      rw [← hkeys, ← (h.freshChain hd).firstKeys, List.map_map]
      rfl
    intro nd hnd
    rw [hinners] at hnd
    refine hfit (fun x hx => ?_) (by simp) nd hnd
    rw [← hmin, ← List.map_prod_right_eq_zip] at hx
    obtain ⟨a, -, rfl⟩ := List.mem_map.mp hx
    rfl
  · rw [hparams, List.nil_append, List.map_singleton, map_firstKey_of_headers hrow]

/-- 遠く離れた `j` 番目の塊の `i` 番目の鍵。 -/
def clusterKey (j i : Nat) : Key := Key.ofNat (2 ^ 40 + j * 2 ^ 20 + i)

/-- 鍵 0 と、514 個ずつの塊が十九個と、最後の塊に続く鍵。 -/
def clusteredKeys : List Key :=
  Key.ofNat 0 :: stairsKeys epsilonLeafNode (clusterKey 18 514) ((List.range 19).map clusterKey)

/-- その索引に渡す組。 -/
def clusteredData : List (Key × Payload) := clusteredKeys.map fun k => (k, 1)

section Clusters

variable {u : Int}

theorem toUnits_clusterKey (hnat : ∀ n < 2 ^ 53, (Key.ofNat n).toUnits = n * u) {j i : Nat}
    (hj : j ≤ 18) (hi : i ≤ 514) : (clusterKey j i).toUnits = (2 ^ 40 + j * 2 ^ 20 + i) * u := by
  rw [clusterKey, hnat _ (by omega)]
  push_cast
  rfl

/-- 塊の連なりは階段の連なりである。 -/
theorem stairs_clusters (hu : 0 < u) (hnat : ∀ n < 2 ^ 53, (Key.ofNat n).toUnits = n * u)
    (n : Nat) : ∀ (j : Nat) {x₀ : Key}, j + n = 19 →
      x₀.toUnits ≤ (2 ^ 40 + j * 2 ^ 20 - 2 ^ 20 + 513) * u →
      Stairs epsilonLeafNode (clusterKey 18 514) x₀ ((List.range' j n).map clusterKey) := by
  induction n with
  | zero =>
    intro j x₀ hj hx₀
    obtain rfl : j = 19 := hj
    refine Key.toUnits_strictMono.lt_iff_lt.mp (lt_of_le_of_lt hx₀ ?_)
    rw [toUnits_clusterKey hnat le_rfl le_rfl]
    push_cast
    linarith
  | succ n ih =>
    intro j x₀ hj hx₀
    have hbase := @toUnits_clusterKey u hnat j 0 (by omega) (by omega)
    rw [List.range'_succ, List.map_cons, Stairs, epsilonLeafNode]
    refine ⟨⟨u, ⟨hu, ?_⟩, ?_⟩, ?_⟩
    · rw [hbase]
      push_cast
      linarith
    · intro i hi
      rw [hbase, toUnits_clusterKey hnat (by omega) (by omega)]
      push_cast
      ring
    · refine ih (j + 1) (by omega) (le_of_eq ?_)
      rw [toUnits_clusterKey hnat (by omega) (by omega)]
      push_cast
      ring

theorem stairs_clusteredKeys : Stairs epsilonLeafNode (clusterKey 18 514) (Key.ofNat 0)
    ((List.range 19).map clusterKey) := by
  have hnat : ∀ n < 2 ^ 53, (Key.ofNat n).toUnits = n * (2 ^ 1074 : Int) :=
    fun n hn => Key.toUnits_ofNat hn
  have hzero : (Key.ofNat 0).toUnits = 0 := by decide +kernel
  have hu : (0 : Int) < 2 ^ 1074 := by positivity
  generalize (2 : Int) ^ 1074 = u at hnat hu
  rw [List.range_eq_range']
  refine stairs_clusters hu hnat 19 0 rfl ?_
  rw [hzero]
  positivity

end Clusters

/-- leaf の区分の `first_key`。 -/
def clusterFirstKeys : List Key :=
  Key.ofNat 0 :: (List.range 19).map fun j => clusterKey j 513

theorem map_fst_clusteredData : clusteredData.map Prod.fst = clusteredKeys := by
  rw [clusteredData, List.map_map]
  exact List.map_id _

theorem firstKeys_clusteredData :
    (loadSegments exactFitter clusteredData).map (·.firstKey) = clusterFirstKeys := by
  rw [loadSegments, map_fst_clusteredData, clusteredKeys,
    makeSegmentation_stairs stairs_clusteredKeys, List.map_map]
  rfl

theorem sorted_clusteredKeys : clusteredKeys.Pairwise (· < ·) :=
  sorted_stairs stairs_clusteredKeys

theorem exists_clusteredKeys_eq : ∃ front, clusteredKeys = front ++ [clusterKey 18 514] :=
  ⟨Key.ofNat 0 :: ((List.range 19).map clusterKey).flatMap (stairKeys epsilonLeafNode), rfl⟩

theorem le_of_mem_clusteredKeys {k : Key} (h : k ∈ clusteredKeys) : k ≤ clusterKey 18 514 := by
  obtain ⟨front, hfront⟩ := exists_clusteredKeys_eq
  have hsorted := sorted_clusteredKeys
  rw [hfront] at h hsorted
  rcases List.mem_append.mp h with h | h
  · exact ((List.pairwise_append.mp hsorted).2.2 k h _ List.mem_cons_self).le
  · rw [List.mem_singleton.mp h]

/-- 渡される組は条件を満たす。 -/
theorem loadData_clusteredData : LoadData clusteredData where
  strict := by
    rw [map_fst_clusteredData]
    exact sorted_clusteredKeys
  below := by
    intro e he
    have hmem : e.1 ∈ clusteredKeys := by
      rw [← map_fst_clusteredData]
      exact List.mem_map_of_mem he
    exact lt_of_le_of_lt (le_of_mem_clusteredKeys hmem) (by decide +kernel)

theorem length_clusteredData : clusteredData.length = 9768 := by
  have hstair (key : Nat → Key) : (stairKeys epsilonLeafNode key).length = 514 := by
    rw [stairKeys, List.length_map, List.length_range, epsilonLeafNode]
  simp only [clusteredData, clusteredKeys, stairsKeys, List.length_map, List.length_cons,
    List.length_append, List.length_flatMap, hstair]
  decide +kernel

/-- 一番上の段の区分。子の予測に余裕がある。 -/
theorem clusterFirstKeys_roomy :
    levelRoomy innerBlocksForLoad (makeSegmentation exactFitter epsilonInnerNode clusterFirstKeys)
        clusterFirstKeys 0 = true ∧
      (makeSegmentation exactFitter epsilonInnerNode clusterFirstKeys).map (·.firstKey) =
        [Key.ofNat 0, clusterKey 17 513] := by
  decide +kernel

theorem blockNumber_clusteredData :
    ∀ l ∈ loadLeaves exactFitter clusteredData, l.blockNumber < 2 ^ 29 := by
  intro l hl
  obtain ⟨seg, hseg, hbn⟩ := blockNumber_freshLeaves _ _ _ _ _ l hl
  have hsum := sum_number_makeSegmentation exactFitter epsilonLeafNode loadData_clusteredData.strict
  have hle : seg.number ≤ ((loadSegments exactFitter clusteredData).map (·.number)).sum :=
    List.single_le_sum (fun _ _ => Nat.zero_le _) _ (List.mem_map_of_mem hseg)
  rw [loadSegments, hsum, List.length_map, length_clusteredData] at hle
  have hsmall : LeafNode.blockNumberFor seg.number < 2 ^ 29 := by
    unfold LeafNode.blockNumberFor
    omega
  rw [hbn]
  exact lt_of_le_of_lt (Nat.mod_le _ _) hsmall

/-- **塊の列を `bulk_load` すると、根が二つの一段の表ができる。** -/
theorem exists_clusteredIndex : ∃ s p q, bulkLoad exactFitter clusteredData = .ok s ∧
    s.BuildFits ∧ s.minKey = Key.ofNat 0 ∧ s.maxKey = clusterKey 18 514 ∧
    s.parameter = [[p, q]] ∧ p.firstKey = Key.ofNat 0 ∧ q.firstKey = clusterKey 17 513 := by
  obtain ⟨hroomy, hfirst⟩ := clusterFirstKeys_roomy
  have hne : clusteredData ≠ [] := by
    intro hnil
    have := length_clusteredData
    rw [hnil] at this
    cases this
  have hfew : (makeSegmentation exactFitter epsilonInnerNode clusterFirstKeys).length ≤
      rootSize := by
    rw [← List.length_map (·.firstKey), hfirst]
    decide
  obtain ⟨s, hs, hfits, hparams⟩ := exists_flatIndex hne loadData_clusteredData
    blockNumber_clusteredData firstKeys_clusteredData hroomy hfew
  have hload := bulkLoad_loaded hs
  have hmin : Key.ofNat 0 = s.minKey := by
    have hhead := hload.min
    rw [map_fst_clusteredData] at hhead
    exact Option.some.inj hhead
  have hmax : clusterKey 18 514 = s.maxKey := by
    have hlast := hload.max
    obtain ⟨front, hfront⟩ := exists_clusteredKeys_eq
    rw [map_fst_clusteredData, hfront, List.getLast?_concat] at hlast
    exact Option.some.inj hlast
  rw [hfirst] at hparams
  obtain ⟨row, hrows, hrow⟩ := List.map_eq_singleton_iff.mp hparams
  obtain ⟨p, rest, rfl, hp, hrest⟩ := List.map_eq_cons_iff.mp hrow
  obtain ⟨q, rfl, hq⟩ := List.map_eq_singleton_iff.mp hrest
  exact ⟨s, p, q, hs, hfits, hmin.symm, hmax.symm, hrows, hp, hq⟩

/-- 根が二つの表では、最大の鍵では合うが、合わない鍵がある。 -/
theorem endFollows_iff_maxKey : ∃ s : PlinIndex ℚ, bulkLoad exactFitter clusteredData = .ok s ∧
    s.EndFollows (clusterKey 18 514) ∧
    ¬ ∀ key, s.minKey ≤ key → key ≤ s.maxKey → s.EndFollows key := by
  obtain ⟨s, p, q, hs, hfits, hmin, hmax, hrow, -, hq⟩ := exists_clusteredIndex
  obtain ⟨hall, hone, -⟩ := endFollows_iff hs loadData_clusteredData
  have hheap : s.leaves.length < 2 ^ 32 := by
    rw [(bulkLoad_loaded hs).length_leaves, ← List.length_map (·.firstKey),
      firstKeys_clusteredData]
    decide
  have hlow : Key.ofNat 0 ≤ clusterKey 18 514 := by decide +kernel
  have hle : clusterKey 17 513 ≤ clusterKey 18 514 := by decide +kernel
  refine ⟨s, hs, (hone [p, q] hrow _ (hmin ▸ hlow) hmax.ge).mpr ⟨q, rfl, hq ▸ hle⟩, ?_⟩
  rw [hall rising_exactFitter hheap (.inl hfits), hrow]
  rintro ⟨p', hp'⟩
  cases hp'

/-- 最小の鍵では、Edge は最初の根を選び、End は二つ目の根の区分を使う。 -/
theorem endFollows_minKey_fails : ∃ (s : PlinIndex ℚ) (p q : Param ℚ),
    bulkLoad exactFitter clusteredData = .ok s ∧ LoadData clusteredData ∧ s.BuildFits ∧
      s.minKey = Key.ofNat 0 ∧ s.parameter = [[p, q]] ∧ s.selectRoot (Key.ofNat 0) = some 0 ∧
      segmentIndex [p, q] (Key.ofNat 0) = 1 ∧ ¬ s.EndFollows (Key.ofNat 0) := by
  obtain ⟨s, p, q, hs, hfits, hmin, -, hrow, hp, hq⟩ := exists_clusteredIndex
  obtain ⟨top, htop, hkeys⟩ := ((bulkLoad_loaded hs).tableOk loadData_clusteredData).roots
  have hrank : rank [p, q] (Key.ofNat 0) = 1 := by
    rw [rank_eq, List.map_cons, List.map_singleton, hp, hq]
    decide +kernel
  have hindex : segmentIndex [p, q] (Key.ofNat 0) = 1 := by
    rw [segmentIndex, hrank]
    rfl
  obtain rfl : [p, q] = top := by
    rw [hrow] at htop
    exact Option.some.inj htop
  have hroot : s.selectRoot (Key.ofNat 0) = some 0 :=
    (selectRoot_eq_some_iff hkeys).mpr hrank.symm
  refine ⟨s, p, q, hs, loadData_clusteredData, hfits, hmin, hrow, hroot, hindex,
    fun hfollows => ?_⟩
  obtain ⟨top', htop', hroot'⟩ := hfollows.root
  obtain rfl : [p, q] = top' := by
    rw [hrow] at htop'
    exact Option.some.inj htop'
  rw [hroot, hindex] at hroot'
  cases hroot'

end PlinIndex

end Plin
