import Plin.Properties.Chain
import Plin.Properties.Segmentation
import Plin.Index.PlinIndex

/-!
# 区分から作られた leaf の列

`bulk_load` と `split` は、区分ごとに leaf を作って heap の末尾に足し、`next` をつなぐ。
出来上がる leaf の列（`freshLeaves`）が連鎖をなすことを示す。

鍵の列に重なりがあると、最後の区分は後ろの鍵を取りこぼすことがある。連鎖をなすこと自体は
重なりがあっても成り立ち、取りこぼしが無いことだけが狭義の増加を要る。
-/

namespace Plin

open Infra

variable {D : Type} [Arith D]

/-- 区分ごとに作られる leaf の列。`id` は最初の leaf の番地である。 -/
def freshLeaves : List (Segment D) → List (Key × Payload) → (startPos : Nat) → Option LeafId →
    LeafId → List (LeafNode D)
  | [], _, _, _, _ => []
  | seg :: segs, data, startPos, prev, id =>
    LeafNode.new (LeafNode.blockNumberFor seg.number) (data.take seg.number) startPos seg.slope
        seg.intercept prev ::
      freshLeaves segs (data.drop seg.number) (startPos + seg.number) (some id) (id + 1)

theorem length_freshLeaves (segs : List (Segment D)) (data : List (Key × Payload)) (startPos : Nat)
    (prev : Option LeafId) (id : LeafId) :
    (freshLeaves segs data startPos prev id).length = segs.length := by
  induction segs generalizing data startPos prev id with
  | nil => rfl
  | cons seg segs ih => rw [freshLeaves, List.length_cons, List.length_cons, ih]

theorem three_le_blockNumberFor (number : Nat) : 3 ≤ LeafNode.blockNumberFor number := by
  unfold LeafNode.blockNumberFor
  omega

/-- leaf の block の個数は、区分の点の個数で決まる。 -/
theorem blockNumber_freshLeaves (segs : List (Segment D)) :
    ∀ (data : List (Key × Payload)) (startPos : Nat) (prev : Option LeafId) (id : LeafId),
      ∀ l ∈ freshLeaves segs data startPos prev id,
        ∃ seg ∈ segs, l.blockNumber = LeafNode.blockNumberFor seg.number % 2 ^ 32 := by
  induction segs with
  | nil =>
    intro data startPos prev id l hl
    cases hl
  | cons seg segs ih =>
    intro data startPos prev id l hl
    rw [freshLeaves] at hl
    rcases List.mem_cons.mp hl with rfl | hl
    · refine ⟨seg, List.mem_cons_self, ?_⟩
      rw [(LeafNode.new_header _ _ _ _ _ _).header]
      rfl
    · obtain ⟨seg', hseg', hbn⟩ := ih _ _ _ _ l hl
      exact ⟨seg', List.mem_cons_of_mem _ hseg', hbn⟩

/-- 構築は、どの leaf の `block_number` も `2 ^ 29` より小さいときに限り成功する。 -/
theorem buildLeaves_eq (segs : List (Segment D)) :
    ∀ (data : List (Key × Payload)) (startPos : Nat) (prev : Option LeafId)
      (heap : List (LeafNode D)),
      buildLeaves segs data startPos prev heap =
        if ∀ l ∈ freshLeaves segs data startPos prev heap.length, l.blockNumber < 2 ^ 29 then
          .ok (heap ++ freshLeaves segs data startPos prev heap.length)
        else .error .leafAssert := by
  induction segs with
  | nil =>
    intro data startPos prev heap
    simp [buildLeaves, freshLeaves]
  | cons seg segs ih =>
    intro data startPos prev heap
    rw [buildLeaves, freshLeaves]
    generalize LeafNode.new (LeafNode.blockNumberFor seg.number) (data.take seg.number) startPos
      seg.slope seg.intercept prev = l
    by_cases hl : l.blockNumber < 2 ^ 29
    · rw [if_pos hl, ih, List.length_append, List.length_singleton]
      simp only [List.forall_mem_cons, hl, true_and, List.append_assoc, List.singleton_append]
    · rw [if_neg hl, if_neg]
      exact fun hc => hl (hc l (by simp))

/-! ## 出来上がる leaf -/

/-- leaf の鍵と形。 -/
structure FreshLeaf (data : List (Key × Payload)) (segs : List (Segment D)) (l : LeafNode D) :
    Prop where
  first : ∃ seg ∈ segs, l.firstKey = seg.firstKey
  keys : ∀ k, l.Stores k → k ∈ data.map Prod.fst ∧ l.firstKey ≤ k
  home : ∀ i b k, l.blocks[i]? = some b → k ≠ freeFlag → b.get k ≠ none → i = l.predict k
  build : l.lastBuildKey ∈ data.map Prod.fst
  room : ∀ k, l.predict k < l.blocks.length
  unlocked : l.locked = 0
  kept : l.isAbandoned = false
  next : l.next = none

/-- 一つの区分から作られた leaf。 -/
theorem new_fresh {seg : Segment D} {segs : List (Segment D)} {data : List (Key × Payload)}
    (hcov : Covers (seg :: segs) (data.map Prod.fst))
    (hsort : (data.map Prod.fst).Pairwise (· ≤ ·)) (startPos : Nat) (prev : Option LeafId) :
    let l := LeafNode.new (LeafNode.blockNumberFor seg.number) (data.take seg.number) startPos
      seg.slope seg.intercept prev
    l.firstKey = seg.firstKey ∧ l.prev = prev ∧ FreshLeaf (data.take seg.number) [seg] l := by
  obtain ⟨hpos, hle, hhead, _, _⟩ := hcov
  rw [List.length_map] at hle
  have hheader := LeafNode.new_header (LeafNode.blockNumberFor seg.number) (data.take seg.number)
    startPos seg.slope seg.intercept prev
  have hhome := LeafNode.new_home (LeafNode.blockNumberFor seg.number) (data.take seg.number)
    startPos seg.slope seg.intercept prev
  have hroom := LeafNode.new_room (LeafNode.blockNumberFor seg.number) (data.take seg.number)
    startPos seg.slope seg.intercept prev (three_le_blockNumberFor _)
  generalize LeafNode.new (LeafNode.blockNumberFor seg.number) (data.take seg.number) startPos
    seg.slope seg.intercept prev = l at *
  obtain ⟨e, es, htk⟩ : ∃ e es, data.take seg.number = e :: es := by
    refine List.exists_cons_of_ne_nil ?_
    rw [← List.length_pos_iff, List.length_take]
    omega
  have hekey : e.1 = seg.firstKey := by
    have hcut := List.take_append_drop seg.number data
    rw [htk] at hcut
    rw [← hcut] at hhead
    simpa using hhead
  have hfirst : l.firstKey = e.1 := by
    rw [hheader.header, htk]
    rfl
  have hsort' : ((data.take seg.number).map Prod.fst).Pairwise (· ≤ ·) := by
    rw [List.map_take]
    exact hsort.sublist (List.take_sublist ..)
  refine ⟨hfirst.trans hekey, by rw [hheader.header]; rfl, ⟨seg, by simp, hfirst.trans hekey⟩, ?_,
    fun i b k hb hk hget => (hhome i b k hb hk hget).1, ?_, hroom, by rw [hheader.header]; rfl,
    by rw [hheader.header]; rfl, by rw [hheader.header]; rfl⟩
  · rintro k ⟨hk, b, hb, hget⟩
    obtain ⟨i, hi⟩ := List.mem_iff_getElem?.mp hb
    have hmem := (hhome i b k hi hk hget).2
    refine ⟨hmem, ?_⟩
    rw [hfirst]
    rw [htk, List.map_cons] at hmem hsort'
    rcases List.mem_cons.mp hmem with rfl | hmem
    · exact le_refl _
    · exact (List.pairwise_cons.mp hsort').1 k hmem
  · have hlast : l.lastBuildKey = ((data.take seg.number).map Prod.fst).getLastD freeFlag := by
      rw [hheader.header]
      rfl
    rw [hlast, htk, List.map_cons, List.getLastD_cons]
    exact List.getLastD_mem_cons

/-- 区分から作られた leaf は、鍵の順に並ぶ。 -/
theorem freshLeaves_spec {segs : List (Segment D)} :
    ∀ {data : List (Key × Payload)} (startPos : Nat) (prev : Option LeafId) (id : LeafId),
      Covers segs (data.map Prod.fst) → (data.map Prod.fst).Pairwise (· ≤ ·) →
      (∀ l ∈ freshLeaves segs data startPos prev id, FreshLeaf data segs l) ∧
        (freshLeaves segs data startPos prev id).Pairwise LeafNode.Before ∧
        (freshLeaves segs data startPos prev id).map (·.firstKey) = segs.map (·.firstKey) := by
  induction segs with
  | nil =>
    intro data startPos prev id _ _
    exact ⟨by simp [freshLeaves], List.Pairwise.nil, rfl⟩
  | cons seg segs ih =>
    intro data startPos prev id hcov hsort
    obtain ⟨hfirst, _, hfresh⟩ := new_fresh hcov hsort startPos prev
    obtain ⟨hpos, hle, hhead, hlt, hcov'⟩ := hcov
    rw [← List.map_drop] at hcov'
    obtain ⟨h1, h2, h3⟩ := ih (startPos + seg.number) (some id) (id + 1) hcov'
      (by rw [List.map_drop]; exact hsort.sublist (List.drop_sublist ..))
    rw [← List.map_take] at hlt
    rw [freshLeaves]
    -- 先頭の leaf は前半の鍵を、残りの leaf は後半の鍵を持つ
    have htake : ∀ k, k ∈ (data.take seg.number).map Prod.fst → k ∈ data.map Prod.fst := by
      intro k hk
      rw [List.map_take] at hk
      exact List.mem_of_mem_take hk
    have hdrop : ∀ k, k ∈ (data.drop seg.number).map Prod.fst → k ∈ data.map Prod.fst := by
      intro k hk
      rw [List.map_drop] at hk
      exact List.mem_of_mem_drop hk
    refine ⟨?_, ?_, ?_⟩
    · intro l hl
      rcases List.mem_cons.mp hl with rfl | hl
      · exact { hfresh with
          first := ⟨seg, by simp, hfirst⟩
          keys := fun k hk => ⟨htake k (hfresh.keys k hk).1, (hfresh.keys k hk).2⟩
          build := htake _ hfresh.build }
      · have hl' := h1 l hl
        obtain ⟨s, hs, hsf⟩ := hl'.first
        exact { hl' with
          first := ⟨s, by simp [hs], hsf⟩
          keys := fun k hk => ⟨hdrop k (hl'.keys k hk).1, (hl'.keys k hk).2⟩
          build := hdrop _ hl'.build }
    · refine List.pairwise_cons.mpr ⟨?_, h2⟩
      intro l hl
      obtain ⟨s, hs, hsf⟩ := (h1 l hl).first
      have hkey : ∀ k ∈ (data.take seg.number).map Prod.fst, k < l.firstKey := by
        intro k hk
        rw [hsf]
        exact hlt k hk s hs
      refine ⟨?_, hkey _ hfresh.build, fun k hk => hkey k (hfresh.keys k hk).1⟩
      rw [hfirst]
      refine hkey _ ?_
      rw [List.map_take]
      rw [List.head?_eq_some_iff] at hhead
      obtain ⟨tail, htail⟩ := hhead
      rw [htail, List.take_cons hpos]
      simp
    · rw [List.map_cons, h3, hfirst]
      rfl

/-! ## `next` をつなぐ -/

/-- 番地を振り、`next` をつないだ leaf の列。最後の `next` は `next` である。 -/
def linkLeaves : LeafId → Option LeafId → List (LeafNode D) → List (Link D)
  | _, _, [] => []
  | id, next, l :: ls =>
    (id, { l with next := if ls.isEmpty then next else some (id + 1) }) ::
      linkLeaves (id + 1) next ls

omit [Arith D] in
theorem length_linkLeaves (id : LeafId) (next : Option LeafId) (ls : List (LeafNode D)) :
    (linkLeaves id next ls).length = ls.length := by
  induction ls generalizing id with
  | nil => rfl
  | cons l ls ih => rw [linkLeaves, List.length_cons, List.length_cons, ih]

omit [Arith D] in
theorem getElem?_linkLeaves (id : Nat) (next : Option LeafId) (ls : List (LeafNode D))
    (i : Nat) : (linkLeaves id next ls)[i]? = (ls[i]?).map fun l =>
      (id + i, { l with next := if i + 1 = ls.length then next else some (id + i + 1) }) := by
  induction ls generalizing id i with
  | nil => simp [linkLeaves]
  | cons l ls ih =>
    cases i with
    | zero =>
      have : ls.isEmpty = true ↔ 1 = (l :: ls).length := by
        cases ls <;> simp
      simp only [linkLeaves, List.getElem?_cons_zero, Option.map_some, this]
      rfl
    | succ i =>
      rw [linkLeaves, List.getElem?_cons_succ, List.getElem?_cons_succ, ih]
      have h1 : id + 1 + i = id + (i + 1) := by omega
      simp only [h1, List.length_cons, Nat.add_right_cancel_iff]

omit [Arith D] in
theorem map_fst_linkLeaves (id : LeafId) (next : Option LeafId) (ls : List (LeafNode D)) :
    (linkLeaves id next ls).map Prod.fst = List.range' id ls.length := by
  induction ls generalizing id with
  | nil => rfl
  | cons l ls ih => rw [linkLeaves, List.map_cons, ih, List.length_cons, List.range'_succ]

omit [Arith D] in
/-- `set_next` の loop が書くのは、最後のほかの新しい leaf だけである。 -/
theorem getElem?_linkNext (leaves : List (LeafNode D)) (first count j : Nat) :
    (linkNext leaves first count)[j]? =
      if first ≤ j ∧ j < first + count then
        (leaves[j]?).map fun l => { l with next := some (j + 1) }
      else leaves[j]? := by
  induction count with
  | zero =>
    rw [linkNext, if_neg (by omega)]
  | succ count ih =>
    rw [linkNext, setNext, List.getElem?_modify, ih]
    by_cases hj : first + count = j
    · subst hj
      rw [if_neg (by omega), if_pos (by omega)]
      simp
    · by_cases hin : first ≤ j ∧ j < first + count
      · rw [if_pos hin, if_pos (by omega)]
        simp [hj]
      · rw [if_neg hin, if_neg (by omega)]
        simp [hj]

/-- 新しい leaf の列は、前後の番地の間につながっている。 -/
theorem doublyLinked_linkLeaves {segs : List (Segment D)} (next : Option LeafId) :
    ∀ {data : List (Key × Payload)} {startPos : Nat} {prev : Option LeafId} {id : LeafId},
      DoublyLinked LeafNode.prev LeafNode.next prev
        (linkLeaves id next (freshLeaves segs data startPos prev id)) next := by
  induction segs with
  | nil => exact trivial
  | cons seg segs ih =>
    intro data startPos prev id
    rw [freshLeaves, linkLeaves]
    refine ⟨?_, ?_, ih⟩
    · rw [(LeafNode.new_header _ _ _ _ _ _).header]
      rfl
    · show (if _ then next else some (id + 1)) = _
      cases segs with
      | nil => rfl
      | cons s segs => rfl

omit [Arith D] in
/-- `next` を書き換えても、鍵は変わらない。 -/
theorem linkLeaves_spec {ls : List (LeafNode D)} {next : Option LeafId} {id : LeafId}
    {x : Link D} (hx : x ∈ linkLeaves id next ls) :
    ∃ l ∈ ls, x.2 = { l with next := x.2.next } := by
  obtain ⟨i, hi⟩ := List.mem_iff_getElem?.mp hx
  rw [getElem?_linkLeaves] at hi
  obtain ⟨l, hl, hxl⟩ := Option.map_eq_some_iff.mp hi
  refine ⟨l, List.mem_of_getElem? hl, ?_⟩
  rw [← hxl]

omit [Arith D] in
/-- `next` だけが違う列でも、鍵の順は同じである。 -/
theorem pairwise_linkLeaves {R : LeafNode D → LeafNode D → Prop}
    (hR : ∀ l l' n n', R l l' → R { l with next := n } { l' with next := n' })
    {ls : List (LeafNode D)} (next : Option LeafId) :
    ∀ {id : LeafId}, ls.Pairwise R →
      (linkLeaves id next ls).Pairwise fun x y => R x.2 y.2 := by
  induction ls with
  | nil => exact fun _ => List.Pairwise.nil
  | cons l ls ih =>
    intro id h
    obtain ⟨h1, h2⟩ := List.pairwise_cons.mp h
    rw [linkLeaves]
    refine List.pairwise_cons.mpr ⟨?_, ih h2⟩
    intro y hy
    obtain ⟨i, hi⟩ := List.mem_iff_getElem?.mp hy
    rw [getElem?_linkLeaves] at hi
    obtain ⟨l', hl', hyl⟩ := Option.map_eq_some_iff.mp hi
    rw [← hyl]
    exact hR _ _ _ _ (h1 l' (List.mem_of_getElem? hl'))

/-! ## 新しい連鎖 -/

/-- 区分から作られ、前後とつながれた連鎖。 -/
structure FreshChain (lo hi : Key) (data : List (Key × Payload)) (segs : List (Segment D))
    (prev : Option LeafId) (id : LeafId) (next : Option LeafId) (c : List (Link D)) : Prop where
  linked : DoublyLinked LeafNode.prev LeafNode.next prev c next
  ids : c.map Prod.fst = List.range' id segs.length
  sorted : c.Pairwise fun x y => x.2.Before y.2
  sound : ∀ x ∈ c, x.2.Sound lo hi
  firstKeys : c.map Link.firstKey = segs.map (·.firstKey)
  keys : ∀ x ∈ c, ∀ k, x.2.Stores k → k ∈ data.map Prod.fst
  build : ∀ x ∈ c, x.2.lastBuildKey ∈ data.map Prod.fst
  home : ∀ x ∈ c, ∀ i b k, x.2.blocks[i]? = some b → k ≠ freeFlag → b.get k ≠ none →
    i = x.2.predict k

/-- **区分から作られた leaf の列は、前後の番地の間で連鎖をなす。** -/
theorem freshChain_linkLeaves {lo hi : Key} {segs : List (Segment D)}
    {data : List (Key × Payload)} (prev : Option LeafId) (id : LeafId) (next : Option LeafId)
    (hcov : Covers segs (data.map Prod.fst)) (hsort : (data.map Prod.fst).Pairwise (· ≤ ·))
    (hwithin : ∀ k ∈ data.map Prod.fst, lo ≤ k ∧ k ≤ hi)
    (hsmall : ∀ l ∈ freshLeaves segs data 0 prev id, l.blockNumber < 2 ^ 29) :
    FreshChain lo hi data segs prev id next
      (linkLeaves id next (freshLeaves segs data 0 prev id)) := by
  obtain ⟨hfresh, hpair, hfirst⟩ := freshLeaves_spec 0 prev id hcov hsort
  refine ⟨doublyLinked_linkLeaves next, ?_, ?_, ?_, ?_, ?_, ?_, ?_⟩
  · rw [map_fst_linkLeaves, length_freshLeaves]
  · exact pairwise_linkLeaves (fun l l' n n' h => ⟨h.first, h.build, h.keys⟩) next hpair
  · intro x hx
    obtain ⟨l, hl, hxl⟩ := linkLeaves_spec hx
    have hf := hfresh l hl
    rw [hxl]
    refine ⟨hsmall l hl, hf.room, hf.unlocked, hf.kept, ?_, ?_⟩
    · obtain ⟨s, hs, hsf⟩ := hf.first
      refine hwithin _ ?_
      show l.firstKey ∈ _
      rw [hsf]
      exact hcov.firstKey_mem s hs
    · intro k hk
      exact ⟨(hf.keys k hk).2, (hwithin k (hf.keys k hk).1).2⟩
  · rw [← hfirst]
    refine List.ext_getElem? fun i => ?_
    rw [List.getElem?_map, List.getElem?_map, getElem?_linkLeaves]
    cases (freshLeaves segs data 0 prev id)[i]? <;> rfl
  · intro x hx k hk
    obtain ⟨l, hl, hxl⟩ := linkLeaves_spec hx
    rw [hxl] at hk
    exact ((hfresh l hl).keys k hk).1
  · intro x hx
    obtain ⟨l, hl, hxl⟩ := linkLeaves_spec hx
    rw [hxl]
    exact (hfresh l hl).build
  · intro x hx
    obtain ⟨l, hl, hxl⟩ := linkLeaves_spec hx
    rw [hxl]
    exact (hfresh l hl).home

/-! ## 中身 -/

/-- 連鎖の中身が写像 `m` である。どの鍵も予測した block にだけある。 -/
structure Contents (c : List (Link D)) (m : Key → Option Payload) : Prop where
  inv : ∀ x ∈ c, ∀ b ∈ x.2.blocks, b.Inv
  home : ∀ x ∈ c, ∀ i b k, x.2.blocks[i]? = some b → k ≠ freeFlag → b.get k ≠ none →
    i = x.2.predict k
  sound : ∀ x ∈ c, ∀ b ∈ x.2.blocks, ∀ k v, k ≠ freeFlag → b.get k = some v → m k = some v
  complete : ∀ k v, m k = some v → k ≠ freeFlag ∧ ∃ x ∈ c, ∃ b ∈ x.2.blocks, b.get k = some v

/-- 鍵に重なりが無ければ、区分から作られた leaf の中身は渡された組そのものである。 -/
theorem freshLeaves_contents {segs : List (Segment D)} :
    ∀ {data : List (Key × Payload)} (startPos : Nat) (prev : Option LeafId) (id : LeafId),
      (segs.map (·.number)).sum = data.length → (data.map Prod.fst).Nodup →
      (∀ e ∈ data, e.1 ≠ freeFlag) →
      (∀ l ∈ freshLeaves segs data startPos prev id, ∀ b ∈ l.blocks, b.Inv) ∧
      (∀ l ∈ freshLeaves segs data startPos prev id, ∀ b ∈ l.blocks, ∀ k v, k ≠ freeFlag →
        b.get k = some v → (k, v) ∈ data) ∧
      ∀ e ∈ data, ∃ l ∈ freshLeaves segs data startPos prev id, ∃ b ∈ l.blocks,
        b.get e.1 = some e.2 := by
  induction segs with
  | nil =>
    intro data startPos prev id hsum _ _
    have hdata : data = [] := List.length_eq_zero_iff.mp (by simpa using hsum.symm)
    exact ⟨by simp [freshLeaves], by simp [freshLeaves], by simp [hdata]⟩
  | cons seg segs ih =>
    intro data startPos prev id hsum hnd hne
    rw [List.map_cons, List.sum_cons] at hsum
    have hcut := List.take_append_drop seg.number data
    have hnd' := hnd
    rw [← hcut, List.map_append, List.nodup_append] at hnd'
    have hfill := LeafNode.new_filled (LeafNode.blockNumberFor seg.number)
      (data.take seg.number) startPos seg.slope seg.intercept prev (three_le_blockNumberFor _)
      hnd'.1 (fun e he => hne e (List.mem_of_mem_take he))
    have hhome := LeafNode.new_home (LeafNode.blockNumberFor seg.number)
      (data.take seg.number) startPos seg.slope seg.intercept prev
    have hroom := LeafNode.new_room (LeafNode.blockNumberFor seg.number)
      (data.take seg.number) startPos seg.slope seg.intercept prev (three_le_blockNumberFor _)
    obtain ⟨h1, h2, h3⟩ := ih (startPos + seg.number) (some id) (id + 1)
      (by rw [List.length_drop]; omega : (segs.map (·.number)).sum = (data.drop seg.number).length)
      hnd'.2.1
      (fun e he => hne e (List.mem_of_mem_drop he))
    rw [freshLeaves]
    refine ⟨?_, ?_, ?_⟩
    · intro l hl
      rcases List.mem_cons.mp hl with rfl | hl
      · exact hfill.inv
      · exact h1 l hl
    · intro l hl b hb k v hk hget
      rcases List.mem_cons.mp hl with rfl | hl
      · obtain ⟨i, hi⟩ := List.mem_iff_getElem?.mp hb
        have hi' := (hhome i b k hi hk (by simp [hget])).1
        rw [hi'] at hi
        exact List.mem_of_mem_take ((hfill.get k b hk hi v).mp hget)
      · exact List.mem_of_mem_drop (h2 l hl b hb k v hk hget)
    · intro e he
      rw [← hcut] at he
      rcases List.mem_append.mp he with he | he
      · have hk := hne e (List.mem_of_mem_take he)
        have hb := List.getElem?_eq_getElem (hroom e.1)
        refine ⟨_, by simp, _, List.getElem_mem (hroom e.1), ?_⟩
        exact (hfill.get e.1 _ hk hb e.2).mpr he
      · obtain ⟨l, hl, hb⟩ := h3 e he
        exact ⟨l, by simp [hl], hb⟩

end Plin
