import Plin.Properties.LeafBuild

/-!
# 分割で変わる leaf の heap

`split` は真ん中の leaf `z` の中身を学習し直して新しい leaf の列を作り、両隣 `l` と `r` の間につなぐ。
lock と連結の書き込みはばらばらに行われるが、**終わった後の heap は一つの式で書ける**（`splitHeap`）。

両端の leaf は隣が足りないので分割されず、heap は変わらない（`splitLocks_edge`）。
-/

namespace Plin

open Infra

variable {D : Type} [Arith D]

/-- `next` を書き換えた左隣。 -/
def Link.withNext (x : Link D) (next : Option LeafId) : Link D := (x.1, { x.2 with next := next })

/-- `prev` を書き換えた右隣。 -/
def Link.withPrev (x : Link D) (prev : Option LeafId) : Link D := (x.1, { x.2 with prev := prev })

namespace Link

variable (x : Link D) (id : Option LeafId)

omit [Arith D] in
@[simp] theorem fst_withNext : (x.withNext id).1 = x.1 := rfl

omit [Arith D] in
@[simp] theorem fst_withPrev : (x.withPrev id).1 = x.1 := rfl

omit [Arith D] in
@[simp] theorem info_withNext : (x.withNext id).info = x.info := rfl

omit [Arith D] in
@[simp] theorem info_withPrev : (x.withPrev id).info = x.info := rfl

omit [Arith D] in
@[simp] theorem withNext_before {m : LeafNode D} :
    (x.withNext id).2.Before m ↔ x.2.Before m :=
  ⟨fun h => ⟨h.first, h.build, h.keys⟩, fun h => ⟨h.first, h.build, h.keys⟩⟩

omit [Arith D] in
@[simp] theorem withPrev_before {m : LeafNode D} :
    (x.withPrev id).2.Before m ↔ x.2.Before m :=
  ⟨fun h => ⟨h.first, h.build, h.keys⟩, fun h => ⟨h.first, h.build, h.keys⟩⟩

omit [Arith D] in
@[simp] theorem before_withNext {m : LeafNode D} :
    m.Before (x.withNext id).2 ↔ m.Before x.2 :=
  ⟨fun h => ⟨h.first, h.build, h.keys⟩, fun h => ⟨h.first, h.build, h.keys⟩⟩

omit [Arith D] in
@[simp] theorem before_withPrev {m : LeafNode D} :
    m.Before (x.withPrev id).2 ↔ m.Before x.2 :=
  ⟨fun h => ⟨h.first, h.build, h.keys⟩, fun h => ⟨h.first, h.build, h.keys⟩⟩

end Link

/-- lock 語を書き換えた leaf。 -/
def LeafNode.withLock (l : LeafNode D) (locked : Nat) : LeafNode D := { l with locked := locked }

/-- 分割の後に捨てられる leaf。slot は `get_data` が並べ替えている。 -/
def LeafNode.abandon (l : LeafNode D) (locked : Nat) : LeafNode D :=
  { l with blocks := l.blocks.map sortBlock, isAbandoned := true, locked := locked }

/-- 分割の後の heap。 -/
def splitHeap (leaves : List (LeafNode D)) (l z r : Link D) (locked : Nat) (new : List (Link D)) :
    List (LeafNode D) :=
  ((leaves.set l.1 (l.withNext (firstId new none)).2).set z.1 (z.2.abandon locked)).set r.1
    (r.withPrev (lastId none new)).2 ++ new.map Prod.snd

/-- 分割で作られる区分。 -/
def splitSegments (f : Fitter D) (l : LeafNode D) : List (Segment D) :=
  makeSegmentation f epsilonLeafNode (l.getData.1.map Prod.fst)

/-- 分割で作られる連鎖。番地は heap の末尾から振られる。 -/
def splitChain (f : Fitter D) (first : LeafId) (l z r : Link D) : List (Link D) :=
  linkLeaves first (some r.1) (freshLeaves (splitSegments f z.2) z.2.getData.1 0 (some l.1) first)

/-! ## lock を取る -/

section Locks

variable {lo hi : Key} {leaves : List (LeafNode D)} {c A B : List (Link D)} {l z r : Link D}

/-- 連鎖の leaf の split lock は取れる。 -/
theorem Chain.lockNeighbor (h : Chain lo hi leaves c) {x : Link D} (hx : x ∈ c) :
    PlinIndex.lockNeighbor leaves (some x.1) = some (x.1, x.2.withLock 1) := by
  unfold PlinIndex.lockNeighbor
  simp only [Option.bind_eq_bind, Option.bind_some, h.stored x hx]
  unfold LeafNode.tryGetSplitLock
  rw [(h.sound x hx).unlocked]
  rfl

/-- lock を取って放すと、連鎖の leaf は元に戻る。 -/
theorem Chain.set_releaseLock (h : Chain lo hi leaves c) {x : Link D} (hx : x ∈ c) :
    leaves.set x.1 (x.2.withLock 1).releaseLock = leaves := by
  have hsame : (x.2.withLock 1).releaseLock = x.2 := by
    show { x.2 with locked := 0 } = x.2
    rw [← (h.sound x hx).unlocked]
  obtain ⟨hlt, hget⟩ := List.getElem?_eq_some_iff.mp (h.stored x hx)
  rw [hsame, ← hget]
  exact List.set_getElem_self hlt

/-- 隣の足りない leaf は分割されず、heap は変わらない。 -/
theorem Chain.splitLocks_edge (h : Chain lo hi leaves (A ++ z :: B)) (hedge : A = [] ∨ B = []) :
    PlinIndex.splitLocks leaves z.1 = (leaves, none) := by
  have hz : z ∈ A ++ z :: B := by simp
  obtain ⟨hprev, hnext⟩ := h.linked.middle
  replace hprev : (z.2.withLock 1).prev = lastId none A := hprev
  replace hnext : (z.2.withLock 1).next = firstId B none := hnext
  unfold PlinIndex.splitLocks
  rw [h.lockNeighbor hz]
  dsimp only
  rw [hprev, hnext]
  rcases List.eq_nil_or_concat A with rfl | ⟨A', l, rfl⟩
  · show (leaves.set z.1 (z.2.withLock 1).releaseLock, none) = (leaves, none)
    rw [h.set_releaseLock hz]
  · obtain rfl : B = [] := hedge.resolve_left (by simp)
    have hl : l ∈ A'.concat l ++ [z] := by simp
    rw [List.concat_eq_append, lastId_append,
      show lastId (lastId none A') [l] = some l.1 from rfl, h.lockNeighbor hl]
    show ((leaves.set l.1 (l.2.withLock 1).releaseLock).set z.1 (z.2.withLock 1).releaseLock, none)
      = (leaves, none)
    rw [h.set_releaseLock hl, h.set_releaseLock hz]

/-- 両隣の在る leaf では、三つの lock が取れる。 -/
theorem Chain.splitLocks_middle (h : Chain lo hi leaves (A ++ l :: z :: r :: B)) :
    PlinIndex.splitLocks leaves z.1 =
      (((leaves.set z.1 (z.2.withLock 1)).set l.1 (l.2.withLock 1)).set r.1 (r.2.withLock 1),
        some (l.1, r.1)) := by
  have hlink := h.linked
  rw [List.append_cons] at hlink
  obtain ⟨hprev, hnext⟩ := hlink.middle
  replace hprev : (z.2.withLock 1).prev = lastId none (A ++ [l]) := hprev
  replace hnext : (z.2.withLock 1).next = firstId (r :: B) none := hnext
  rw [lastId_append] at hprev
  unfold PlinIndex.splitLocks
  rw [h.lockNeighbor (show z ∈ _ by simp)]
  dsimp only
  rw [hprev, hnext, show lastId (lastId none A) [l] = some l.1 from rfl,
    h.lockNeighbor (show l ∈ _ by simp)]
  dsimp only
  rw [show firstId (r :: B) none = some r.1 from rfl, h.lockNeighbor (show r ∈ _ by simp)]

end Locks

/-! ## 学習し直す -/

section Retrain

variable {f : Fitter D} {leaves leaves' : List (LeafNode D)} {x left right : LeafId}
  {leaf : LeafNode D}

omit [Arith D] in
theorem firstId_linkLeaves (id : LeafId) (next n : Option LeafId) {ls : List (LeafNode D)}
    (h : ls ≠ []) : firstId (linkLeaves id next ls) n = some id := by
  cases ls with
  | nil => exact absurd rfl h
  | cons l ls => rfl

omit [Arith D] in
theorem lastId_linkLeaves (id : Nat) (next p : Option LeafId) {ls : List (LeafNode D)}
    (h : ls ≠ []) : lastId p (linkLeaves id next ls) = some (id + ls.length - 1) := by
  induction ls generalizing id p with
  | nil => exact absurd rfl h
  | cons l ls ih =>
    rw [linkLeaves, lastId]
    by_cases hls : ls = []
    · subst hls
      rfl
    · have hpos := List.length_pos_iff.mpr hls
      rw [ih _ _ hls, List.length_cons, show id + 1 + ls.length - 1 = id + (ls.length + 1) - 1 by
        omega]

omit [Arith D] in
/-- 新しい leaf を heap の末尾でつなぐ。 -/
theorem linkNext_append (heap : List (LeafNode D)) {ls : List (LeafNode D)} (hls : ls ≠ [])
    (next : Option LeafId) :
    setNext (linkNext (heap ++ ls) heap.length (ls.length - 1)) (heap.length + ls.length - 1) next =
      heap ++ (linkLeaves heap.length next ls).map Prod.snd := by
  have hpos := List.length_pos_iff.mpr hls
  refine List.ext_getElem? fun i => ?_
  rw [setNext, List.getElem?_modify, getElem?_linkNext]
  by_cases hi : i < heap.length
  · rw [if_neg (by omega), List.getElem?_append_left hi, List.getElem?_append_left hi]
    simp [show ¬ heap.length + ls.length - 1 = i by omega]
  · rw [List.getElem?_append_right (by omega), List.getElem?_append_right (by omega),
      List.getElem?_map, getElem?_linkLeaves]
    cases hl : ls[i - heap.length]? with
    | none => simp
    | some l =>
      have hlt := (List.getElem?_eq_some_iff.mp hl).1
      have hsum : heap.length + (i - heap.length) = i := by omega
      by_cases hlast : i - heap.length + 1 = ls.length
      · rw [if_neg (by omega)]
        simp [hlast, show heap.length + ls.length - 1 = i by omega]
      · rw [if_pos (by omega)]
        simp [hlast, hsum, show ¬ heap.length + ls.length - 1 = i by omega]

/-- heap の前の部分だけを書き換える。 -/
theorem modify_append_of_lt {α : Type} {a b : List α} {i : Nat} (h : i < a.length) (g : α → α) :
    (a ++ b).modify i g = a.modify i g ++ b := by
  refine List.ext_getElem? fun j => ?_
  rw [List.getElem?_modify]
  by_cases hj : j < a.length
  · rw [List.getElem?_append_left hj, List.getElem?_append_left (by rw [List.length_modify]; omega),
      List.getElem?_modify]
  · rw [List.getElem?_append_right (by omega),
      List.getElem?_append_right (by rw [List.length_modify]; omega), List.length_modify]
    simp [show ¬ i = j by omega]

/-- `retrain` の結果。 -/
theorem retrain_eq (hx : leaves[x]? = some leaf) (hleft : left < leaves.length)
    (hright : right < leaves.length)
    (h : PlinIndex.retrain f leaves x left right = .ok leaves') :
    splitSegments f leaf ≠ [] ∧
      (∀ l ∈ freshLeaves (splitSegments f leaf) leaf.getData.1 0 (some left) leaves.length,
        l.blockNumber < 2 ^ 29) ∧
      leaves' = setPrevLeaf (setNext
          (leaves.set x { leaf.getData.2 with isAbandoned := true }) left (some leaves.length))
        right (some (leaves.length + (splitSegments f leaf).length - 1)) ++
          (linkLeaves leaves.length (some right)
            (freshLeaves (splitSegments f leaf) leaf.getData.1 0 (some left)
              leaves.length)).map Prod.snd := by
  unfold PlinIndex.retrain at h
  rw [hx] at h
  simp only [orFault, bind, Except.bind] at h
  rw [← splitSegments] at h
  by_cases hseg : (splitSegments f leaf).length = 0
  · rw [if_pos hseg] at h
    cases h
  · rw [if_neg hseg, buildLeaves_eq, List.length_set] at h
    by_cases hsmall : ∀ l ∈ freshLeaves (splitSegments f leaf) leaf.getData.1 0 (some left)
        leaves.length, l.blockNumber < 2 ^ 29
    · rw [if_pos hsmall] at h
      have hne : freshLeaves (splitSegments f leaf) leaf.getData.1 0 (some left) leaves.length ≠
          [] := by
        rw [← List.length_pos_iff, length_freshLeaves]
        omega
      have hlink := linkNext_append (leaves.set x { leaf.getData.2 with isAbandoned := true }) hne
        (some right)
      rw [List.length_set, length_freshLeaves] at hlink
      obtain rfl := Except.ok.inj h
      refine ⟨fun hc => hseg (by rw [hc]; rfl), hsmall, ?_⟩
      rw [hlink]
      unfold setPrevLeaf setNext
      rw [modify_append_of_lt (by rw [List.length_set]; exact hleft),
        modify_append_of_lt (by rw [List.length_modify, List.length_set]; exact hright)]
    · rw [if_neg hsmall] at h
      cases h

/-- 中身が在り、leaf が `assert` を破らなければ、`retrain` は終わる。 -/
theorem exists_retrain (hx : leaves[x]? = some leaf) (hne : splitSegments f leaf ≠ [])
    (hsmall : ∀ l ∈ freshLeaves (splitSegments f leaf) leaf.getData.1 0 (some left) leaves.length,
      l.blockNumber < 2 ^ 29) :
    ∃ leaves', PlinIndex.retrain f leaves x left right = .ok leaves' := by
  have hseg : ¬ (splitSegments f leaf).length = 0 :=
    fun hc => hne (List.eq_nil_of_length_eq_zero hc)
  unfold PlinIndex.retrain
  rw [hx]
  simp only [orFault, bind, Except.bind]
  rw [← splitSegments, if_neg hseg, buildLeaves_eq, List.length_set, if_pos hsmall]
  exact ⟨_, rfl⟩

/-- 作る leaf が `assert` を破れば、`retrain` はそこで止まる。 -/
theorem retrain_leafAssert (hx : leaves[x]? = some leaf) (hne : splitSegments f leaf ≠ [])
    (hlarge : ¬ ∀ l ∈ freshLeaves (splitSegments f leaf) leaf.getData.1 0 (some left)
      leaves.length, l.blockNumber < 2 ^ 29) :
    PlinIndex.retrain f leaves x left right = .error .leafAssert := by
  have hseg : ¬ (splitSegments f leaf).length = 0 :=
    fun hc => hne (List.eq_nil_of_length_eq_zero hc)
  unfold PlinIndex.retrain
  rw [hx]
  simp only [orFault, bind, Except.bind]
  rw [← splitSegments, if_neg hseg, buildLeaves_eq, List.length_set, if_neg hlarge]

end Retrain

/-! ## 分割の後の heap -/

section Final

variable {lo hi : Key} {leaves : List (LeafNode D)} {A B : List (Link D)} {l z r : Link D}

/-- 分割に関わる三つの leaf の番地は異なる。 -/
theorem Chain.ne_neighbors (h : Chain lo hi leaves (A ++ l :: z :: r :: B)) :
    l.1 ≠ z.1 ∧ l.1 ≠ r.1 ∧ z.1 ≠ r.1 := by
  have hnd := h.nodup
  simp only [List.map_append, List.map_cons] at hnd
  obtain ⟨-, hnd, -⟩ := List.nodup_append.mp hnd
  simp only [List.nodup_cons, List.mem_cons, not_or] at hnd
  exact ⟨hnd.1.1, hnd.1.2.1, hnd.2.1.1⟩

omit [Arith D] in
theorem length_splitHeap (locked : Nat) (new : List (Link D)) :
    (splitHeap leaves l z r locked new).length = leaves.length + new.length := by
  unfold splitHeap
  simp

omit [Arith D] in
/-- 分割の後の heap を読む。 -/
theorem getElem?_splitHeap (locked : Nat) (new : List (Link D)) {i : Nat}
    (hi : i < leaves.length) (hl : i ≠ l.1) (hz : i ≠ z.1) (hr : i ≠ r.1) :
    (splitHeap leaves l z r locked new)[i]? = leaves[i]? := by
  unfold splitHeap
  rw [List.getElem?_append_left (by simpa using hi), List.getElem?_set_ne (Ne.symm hr),
    List.getElem?_set_ne (Ne.symm hz), List.getElem?_set_ne (Ne.symm hl)]

theorem Chain.getElem?_splitHeap (h : Chain lo hi leaves (A ++ l :: z :: r :: B)) (locked : Nat)
    (new : List (Link D)) :
    (splitHeap leaves l z r locked new)[l.1]? = some (l.withNext (firstId new none)).2 ∧
      (splitHeap leaves l z r locked new)[z.1]? = some (z.2.abandon locked) ∧
      (splitHeap leaves l z r locked new)[r.1]? = some (r.withPrev (lastId none new)).2 := by
  obtain ⟨hlz, hlr, hzr⟩ := h.ne_neighbors
  have hlt : ∀ x ∈ A ++ l :: z :: r :: B, x.1 < leaves.length :=
    fun x hx => (List.getElem?_eq_some_iff.mp (h.stored x hx)).1
  have hl := hlt l (by simp)
  have hz := hlt z (by simp)
  have hr := hlt r (by simp)
  unfold splitHeap
  refine ⟨?_, ?_, ?_⟩
  · rw [List.getElem?_append_left (by simpa using hl), List.getElem?_set_ne (Ne.symm hlr),
      List.getElem?_set_ne (Ne.symm hlz), List.getElem?_set_self hl]
  · rw [List.getElem?_append_left (by simpa using hz), List.getElem?_set_ne (Ne.symm hzr),
      List.getElem?_set_self (by simpa using hz)]
  · rw [List.getElem?_append_left (by simpa using hr), List.getElem?_set_self (by simpa using hr)]

omit [Arith D] in
/-- 新しい leaf は、足した順の番地で読める。 -/
theorem getElem?_splitHeap_new (locked : Nat) {new : List (Link D)}
    (hid : new.map Prod.fst = List.range' leaves.length new.length) {x : Link D} (hx : x ∈ new) :
    (splitHeap leaves l z r locked new)[x.1]? = some x.2 := by
  obtain ⟨i, hi, rfl⟩ := List.mem_iff_getElem.mp hx
  have hid' : new[i].1 = leaves.length + i := by
    have := congrArg (fun l => l[i]?) hid
    simpa [List.getElem?_range', hi] using this
  unfold splitHeap
  rw [hid', List.getElem?_append_right (by simp)]
  simp [hi]

/-- 三つの lock を取った heap。`locked` は分割する leaf の lock 語である。 -/
def lockedHeap (leaves : List (LeafNode D)) (l z r : Link D) (locked : Nat) :
    List (LeafNode D) :=
  ((leaves.set z.1 (z.2.withLock locked)).set l.1 (l.2.withLock 1)).set r.1 (r.2.withLock 1)

omit [Arith D] in
theorem length_lockedHeap (locked : Nat) :
    (lockedHeap leaves l z r locked).length = leaves.length := by
  unfold lockedHeap
  simp

/-- 分割する leaf は、lock 語だけが書き換わっている。 -/
theorem Chain.getElem?_lockedHeap (h : Chain lo hi leaves (A ++ l :: z :: r :: B)) (locked : Nat) :
    (lockedHeap leaves l z r locked)[z.1]? = some (z.2.withLock locked) := by
  obtain ⟨hlz, -, hzr⟩ := h.ne_neighbors
  have hz := (List.getElem?_eq_some_iff.mp (h.stored z (by simp))).1
  unfold lockedHeap
  rw [List.getElem?_set_ne (Ne.symm hzr), List.getElem?_set_ne hlz, List.getElem?_set_self hz]

/-- 分割する leaf の write lock と read lock を取る。 -/
theorem Chain.modify_lockedHeap (h : Chain lo hi leaves (A ++ l :: z :: r :: B)) :
    (lockedHeap leaves l z r 1).modify z.1 (fun m => m.getWriteLock.getReadLock) =
      lockedHeap leaves l z r 7 := by
  obtain ⟨hlz, -, hzr⟩ := h.ne_neighbors
  have hz := (List.getElem?_eq_some_iff.mp (h.stored z (by simp))).1
  refine List.ext_getElem? fun i => ?_
  unfold lockedHeap
  rw [List.getElem?_modify]
  by_cases hi : i = z.1
  · subst hi
    rw [List.getElem?_set_ne (Ne.symm hzr), List.getElem?_set_ne hlz, List.getElem?_set_self hz,
      List.getElem?_set_ne (Ne.symm hzr), List.getElem?_set_ne hlz, List.getElem?_set_self hz]
    simp [LeafNode.withLock, LeafNode.getWriteLock, LeafNode.getReadLock]
  · simp only [show ¬ z.1 = i from fun hc => hi hc.symm, if_false]
    simp only [List.getElem?_set, show ¬ z.1 = i from fun hc => hi hc.symm, if_false]
    simp

/-- 連結を書いた後の heap の、元からの部分。`dead` は捨てられる leaf である。 -/
def relinked (heap : List (LeafNode D)) (l z r : Link D) (dead : LeafNode D)
    (next prev : Option LeafId) : List (LeafNode D) :=
  setPrevLeaf (setNext (heap.set z.1 dead) l.1 next) r.1 prev

omit [Arith D] in
theorem length_relinked (heap : List (LeafNode D)) (dead : LeafNode D) (next prev : Option LeafId) :
    (relinked heap l z r dead next prev).length = heap.length := by
  unfold relinked setPrevLeaf setNext
  simp

/-- 捨てられる leaf の lock を放す。 -/
theorem Chain.modify_relinked (h : Chain lo hi leaves (A ++ l :: z :: r :: B))
    (heap : List (LeafNode D)) (dead : LeafNode D) (next prev : Option LeafId) :
    (relinked heap l z r dead next prev).modify z.1 LeafNode.releaseLock =
      relinked heap l z r dead.releaseLock next prev := by
  obtain ⟨hlz, -, hzr⟩ := h.ne_neighbors
  refine List.ext_getElem? fun i => ?_
  unfold relinked setPrevLeaf setNext
  simp only [List.getElem?_modify, List.getElem?_set]
  by_cases hi : z.1 = i
  · subst hi
    by_cases hz : z.1 < heap.length
    · simp [hlz, hzr.symm, hz]
    · simp [hz]
  · simp [hi]

/-- 連結を書き、両隣の lock を放すと、元からの部分はこうなる。 -/
theorem Chain.unlock_relinked (h : Chain lo hi leaves (A ++ l :: z :: r :: B)) (locked : Nat)
    (dead : LeafNode D) (next prev : Option LeafId) :
    ((relinked (lockedHeap leaves l z r locked) l z r dead next prev).modify l.1
      LeafNode.releaseLock).modify r.1 LeafNode.releaseLock =
    ((leaves.set l.1 (l.withNext next).2).set z.1 dead).set r.1 (r.withPrev prev).2 := by
  obtain ⟨hlz, hlr, hzr⟩ := h.ne_neighbors
  have hlt : ∀ x ∈ A ++ l :: z :: r :: B, x.1 < leaves.length :=
    fun x hx => (List.getElem?_eq_some_iff.mp (h.stored x hx)).1
  have hlock : ∀ x ∈ A ++ l :: z :: r :: B, x.2.locked = 0 :=
    fun x hx => (h.sound x hx).unlocked
  have hl := hlt l (by simp)
  have hz := hlt z (by simp)
  have hr := hlt r (by simp)
  have hll := hlock l (by simp)
  have hrl := hlock r (by simp)
  refine List.ext_getElem? fun i => ?_
  unfold relinked lockedHeap setPrevLeaf setNext
  simp only [List.getElem?_modify, List.getElem?_set, List.length_set]
  by_cases h1 : l.1 = i
  · subst h1
    simp [hlz.symm, hlr.symm, hl, LeafNode.withLock, LeafNode.releaseLock, Link.withNext, ← hll]
  · by_cases h2 : z.1 = i
    · subst h2
      simp [hlz, hzr.symm, hz]
    · by_cases h3 : r.1 = i
      · subst h3
        simp [hlr, hzr, hr, LeafNode.withLock, LeafNode.releaseLock, Link.withPrev, ← hrl]
      · simp [h1, h2, h3]

/-- **学習し直してつなぎ、lock を放すと `splitHeap` になる。** 親 slot の在る leaf の split lock は
放されない。 -/
theorem Chain.retrain_splitHeap (h : Chain lo hi leaves (A ++ l :: z :: r :: B)) {f : Fitter D}
    {locked : Nat} {leaves' : List (LeafNode D)}
    (hret : PlinIndex.retrain f (lockedHeap leaves l z r locked) z.1 l.1 r.1 = .ok leaves') :
    splitSegments f z.2 ≠ [] ∧
      (∀ y ∈ freshLeaves (splitSegments f z.2) z.2.getData.1 0 (some l.1) leaves.length,
        y.blockNumber < 2 ^ 29) ∧
      leaves'.drop leaves.length = (splitChain f leaves.length l z r).map Prod.snd ∧
      (leaves'.modify l.1 LeafNode.releaseLock).modify r.1 LeafNode.releaseLock =
        splitHeap leaves l z r locked (splitChain f leaves.length l z r) ∧
      ((leaves'.modify z.1 LeafNode.releaseLock).modify l.1 LeafNode.releaseLock).modify r.1
          LeafNode.releaseLock =
        splitHeap leaves l z r 0 (splitChain f leaves.length l z r) := by
  obtain ⟨hlz, hlr, hzr⟩ := h.ne_neighbors
  have hlt : ∀ x ∈ A ++ l :: z :: r :: B, x.1 < leaves.length :=
    fun x hx => (List.getElem?_eq_some_iff.mp (h.stored x hx)).1
  have hl := hlt l (by simp)
  have hz := hlt z (by simp)
  have hr := hlt r (by simp)
  have hlen := @length_lockedHeap D leaves l z r locked
  obtain ⟨hne, hsmall, heq⟩ := retrain_eq (h.getElem?_lockedHeap locked) (by rw [hlen]; exact hl)
    (by rw [hlen]; exact hr)
    hret
  rw [hlen] at hsmall heq
  -- lock 語は中身に関わらない
  have hchain : linkLeaves leaves.length (some r.1) (freshLeaves
      (splitSegments f (z.2.withLock locked)) (z.2.withLock locked).getData.1 0 (some l.1)
      leaves.length) = splitChain f leaves.length l z r := rfl
  have hfront : setPrevLeaf (setNext ((lockedHeap leaves l z r locked).set z.1
      { (z.2.withLock locked).getData.2 with isAbandoned := true }) l.1 (some leaves.length)) r.1
      (some (leaves.length + (splitSegments f (z.2.withLock locked)).length - 1)) =
        relinked (lockedHeap leaves l z r locked) l z r (z.2.abandon locked)
          (firstId (splitChain f leaves.length l z r) none)
          (lastId none (splitChain f leaves.length l z r)) := by
    have hfresh : freshLeaves (splitSegments f z.2) z.2.getData.1 0 (some l.1) leaves.length ≠
        [] := by
      rw [← List.length_pos_iff, length_freshLeaves, List.length_pos_iff]
      exact hne
    unfold splitChain
    rw [firstId_linkLeaves _ _ _ hfresh, lastId_linkLeaves _ _ _ hfresh, length_freshLeaves]
    rfl
  rw [hchain, hfront] at heq
  have hfl : (relinked (lockedHeap leaves l z r locked) l z r (z.2.abandon locked)
      (firstId (splitChain f leaves.length l z r) none)
      (lastId none (splitChain f leaves.length l z r))).length = leaves.length := by
    rw [length_relinked, hlen]
  refine ⟨hne, hsmall, ?_, ?_, ?_⟩
  · rw [heq, List.drop_left' hfl]
  · rw [heq, modify_append_of_lt (by rw [hfl]; exact hl),
      modify_append_of_lt (by rw [List.length_modify, hfl]; exact hr), h.unlock_relinked]
    rfl
  · rw [heq, modify_append_of_lt (by rw [hfl]; exact hz), h.modify_relinked,
      modify_append_of_lt (by rw [length_relinked, hlen]; exact hl),
      modify_append_of_lt (by rw [List.length_modify, length_relinked, hlen]; exact hr),
      h.unlock_relinked]
    rfl

end Final

/-! ## 分割の後の連鎖 -/

section Splice

variable {lo hi : Key} {leaves : List (LeafNode D)} {A B : List (Link D)} {l z r : Link D}
  {f : Fitter D}

/-- 分割の後の連鎖。 -/
def spliced (A : List (Link D)) (l : Link D) (new : List (Link D)) (r : Link D)
    (B : List (Link D)) : List (Link D) :=
  A ++ l.withNext (firstId new none) :: (new ++ r.withPrev (lastId none new) :: B)

/-- 分割する leaf の中身は、その leaf の鍵である。 -/
theorem Chain.stores_of_data (h : Chain lo hi leaves (A ++ l :: z :: r :: B)) (hhi : hi < freeFlag)
    {k : Key} : k ∈ z.2.getData.1.map Prod.fst ↔ z.2.Stores k := by
  have hbelow : z.2.KeysBelow := LeafNode.keysBelow_of_stores fun k hk =>
    lt_of_le_of_lt ((h.sound z (by simp)).keys k hk).2 hhi
  rw [LeafNode.stores_iff]
  exact ((LeafNode.getData_perm hbelow).map Prod.fst).mem_iff

omit [Arith D] in
theorem covers_splitSegments (f : Fitter D) (l : LeafNode D) :
    Covers (splitSegments f l) (l.getData.1.map Prod.fst) :=
  covers_makeSegmentation f epsilonLeafNode l.getData_sorted

/-- 分割で作られる leaf は、両隣の間の連鎖をなす。 -/
theorem Chain.freshChain (h : Chain lo hi leaves (A ++ l :: z :: r :: B)) (hhi : hi < freeFlag)
    (hsmall : ∀ y ∈ freshLeaves (splitSegments f z.2) z.2.getData.1 0 (some l.1) leaves.length,
      y.blockNumber < 2 ^ 29) :
    FreshChain lo hi z.2.getData.1 (splitSegments f z.2) (some l.1) leaves.length (some r.1)
      (splitChain f leaves.length l z r) := by
  have hz := h.sound z (by simp)
  refine freshChain_linkLeaves (some l.1) leaves.length (some r.1) (covers_splitSegments f z.2)
    z.2.getData_sorted (fun k hk => ?_) hsmall
  have hk' := hz.keys k ((h.stores_of_data hhi).mp hk)
  exact ⟨le_trans hz.first.1 hk'.1, hk'.2⟩

theorem splitChain_ne_nil (hne : splitSegments f z.2 ≠ []) (first : LeafId) :
    splitChain f first l z r ≠ [] := by
  unfold splitChain
  rw [← List.length_pos_iff, length_linkLeaves, length_freshLeaves, List.length_pos_iff]
  exact hne

/-- 新しい leaf の鍵は、分割した leaf の鍵である。 -/
theorem Chain.before_splitChain (h : Chain lo hi leaves (A ++ l :: z :: r :: B))
    (hhi : hi < freeFlag)
    (hsmall : ∀ y ∈ freshLeaves (splitSegments f z.2) z.2.getData.1 0 (some l.1) leaves.length,
      y.blockNumber < 2 ^ 29) {y : Link D} (hy : y ∈ splitChain f leaves.length l z r) :
    z.2.Stores y.firstKey ∧ z.2.Stores y.2.lastBuildKey ∧ ∀ k, y.2.Stores k → z.2.Stores k := by
  have hfc := h.freshChain hhi hsmall
  refine ⟨?_, ?_, ?_⟩
  · have hmem : y.firstKey ∈ (splitSegments f z.2).map (·.firstKey) := by
      rw [← hfc.firstKeys]
      exact List.mem_map_of_mem hy
    obtain ⟨seg, hseg, hkey⟩ := List.mem_map.mp hmem
    rw [← hkey]
    exact (h.stores_of_data hhi).mp ((covers_splitSegments f z.2).firstKey_mem seg hseg)
  · exact (h.stores_of_data hhi).mp (hfc.build y hy)
  · exact fun k hk => (h.stores_of_data hhi).mp (hfc.keys y hy k hk)

/-- 分割する leaf が `first_key` を持っていれば、最初の新しい leaf がそれを引き継ぐ。 -/
theorem Chain.firstKey_splitChain (h : Chain lo hi leaves (A ++ l :: z :: r :: B))
    (hhi : hi < freeFlag) (hne : splitSegments f z.2 ≠ [])
    (hsmall : ∀ y ∈ freshLeaves (splitSegments f z.2) z.2.getData.1 0 (some l.1) leaves.length,
      y.blockNumber < 2 ^ 29) (hkept : z.2.Stores z.firstKey) :
    ∃ y new, splitChain f leaves.length l z r = y :: new ∧ y.firstKey = z.firstKey := by
  have hfc := h.freshChain hhi hsmall
  obtain ⟨y, new, hnew⟩ := List.exists_cons_of_ne_nil (splitChain_ne_nil hne leaves.length)
  obtain ⟨seg, segs, hsegs⟩ := List.exists_cons_of_ne_nil hne
  have hcov := covers_splitSegments f z.2
  have hfirst := hfc.firstKeys
  rw [hnew, hsegs, List.map_cons, List.map_cons] at hfirst
  rw [hsegs] at hcov
  refine ⟨y, new, hnew, (List.cons.inj hfirst).1.trans ?_⟩
  -- 中身は鍵の順に並ぶので、先頭は `first_key` である
  have hmem := (h.stores_of_data hhi).mpr hkept
  have hsorted := z.2.getData_sorted
  have hhead := hcov.2.2.1
  cases hdata : z.2.getData.1.map Prod.fst with
  | nil =>
    rw [hdata] at hmem
    cases hmem
  | cons k ks =>
    rw [hdata] at hmem hsorted hhead
    obtain rfl : k = seg.firstKey := by simpa using hhead
    refine le_antisymm ?_ ?_
    · rcases List.mem_cons.mp hmem with heq | hmem
      · exact heq.ge
      · exact (List.pairwise_cons.mp hsorted).1 _ hmem
    · refine ((h.sound z (by simp)).keys _ ((h.stores_of_data hhi).mp ?_)).1
      rw [hdata]
      simp

/-- 前後の leaf と新しい leaf の鍵の順。 -/
theorem Chain.sorted_spliced (h : Chain lo hi leaves (A ++ l :: z :: r :: B)) (hhi : hi < freeFlag)
    (hsmall : ∀ y ∈ freshLeaves (splitSegments f z.2) z.2.getData.1 0 (some l.1) leaves.length,
      y.blockNumber < 2 ^ 29) :
    (spliced A l (splitChain f leaves.length l z r) r B).Pairwise fun x y => x.2.Before y.2 := by
  have hfc := h.freshChain hhi hsmall
  have hz := h.sound z (by simp)
  have hsorted := h.sorted
  simp only [List.pairwise_append, List.pairwise_cons, List.forall_mem_cons] at hsorted
  obtain ⟨hA, ⟨⟨hlz, hlr, hlB⟩, ⟨hzr, hzB⟩, hrB, hB⟩, hcross⟩ := hsorted
  -- 左の leaf の鍵は `z` の `first_key` より、`z` の鍵は右の leaf の `first_key` より小さい
  have hleft : ∀ x : LeafNode D, x.Before z.2 → ∀ y ∈ splitChain f leaves.length l z r,
      x.Before y.2 := by
    intro x hx y hy
    have hle := (hz.keys _ (h.before_splitChain hhi hsmall hy).1).1
    exact ⟨lt_of_lt_of_le hx.first hle, lt_of_lt_of_le hx.build hle,
      fun k hk => lt_of_lt_of_le (hx.keys k hk) hle⟩
  have hright : ∀ w : LeafNode D, z.2.Before w → ∀ y ∈ splitChain f leaves.length l z r,
      y.2.Before w := by
    intro w hw y hy
    obtain ⟨hfirst, hbuild, hkeys⟩ := h.before_splitChain hhi hsmall hy
    exact ⟨hw.keys _ hfirst, hw.keys _ hbuild, fun k hk => hw.keys k (hkeys k hk)⟩
  unfold spliced
  simp only [List.pairwise_append, List.pairwise_cons, List.forall_mem_cons,
    Link.withNext_before, Link.withPrev_before, Link.before_withNext, Link.before_withPrev]
  refine ⟨hA, ⟨?_, hfc.sorted, ⟨hrB, hB⟩, fun y hy => ⟨?_, fun w hw => ?_⟩⟩, fun x hx => ?_⟩
  · intro y hy
    rcases List.mem_append.mp hy with hy | hy
    · exact hleft _ hlz y hy
    · rcases List.mem_cons.mp hy with rfl | hy
      · exact (Link.before_withPrev ..).mpr hlr
      · exact hlB y hy
  · exact hright _ hzr y hy
  · exact hright _ (hzB w hw) y hy
  · obtain ⟨hxl, hxz, hxr, hxB⟩ := hcross x hx
    refine ⟨hxl, fun y hy => ?_⟩
    rcases List.mem_append.mp hy with hy | hy
    · exact hleft _ hxz y hy
    · rcases List.mem_cons.mp hy with rfl | hy
      · exact (Link.before_withPrev ..).mpr hxr
      · exact hxB y hy

/-- 新しい leaf は両隣と双方向につながる。 -/
theorem Chain.linked_spliced (h : Chain lo hi leaves (A ++ l :: z :: r :: B)) {new : List (Link D)}
    (hne : new ≠ [])
    (hnew : DoublyLinked LeafNode.prev LeafNode.next (some l.1) new (some r.1)) :
    DoublyLinked LeafNode.prev LeafNode.next none (spliced A l new r B) none := by
  obtain ⟨hA, hlp, -, -, -, -, hrn, hB⟩ := doublyLinked_append.mp h.linked
  obtain ⟨y, new', rfl⟩ := List.exists_cons_of_ne_nil hne
  refine doublyLinked_append.mpr ⟨hA, hlp, rfl, ?_⟩
  refine doublyLinked_append.mpr ⟨hnew, rfl, hrn, hB⟩

/-- **分割の後も、leaf は連鎖をなす。** -/
theorem Chain.spliced (h : Chain lo hi leaves (A ++ l :: z :: r :: B)) (hhi : hi < freeFlag)
    (hne : splitSegments f z.2 ≠ [])
    (hsmall : ∀ y ∈ freshLeaves (splitSegments f z.2) z.2.getData.1 0 (some l.1) leaves.length,
      y.blockNumber < 2 ^ 29) (locked : Nat) :
    Chain lo hi (splitHeap leaves l z r locked (splitChain f leaves.length l z r))
      (Plin.spliced A l (splitChain f leaves.length l z r) r B) := by
  have hfc := h.freshChain hhi hsmall
  have hlen : (splitSegments f z.2).length = (splitChain f leaves.length l z r).length := by
    rw [splitChain, length_linkLeaves, length_freshLeaves]
  have hids : (splitChain f leaves.length l z r).map Prod.fst =
      List.range' leaves.length (splitChain f leaves.length l z r).length := by
    rw [← hlen]
    exact hfc.ids
  have hlt : ∀ x ∈ A ++ l :: z :: r :: B, x.1 < leaves.length :=
    fun x hx => (List.getElem?_eq_some_iff.mp (h.stored x hx)).1
  have hnd := h.nodup
  simp only [List.map_append, List.map_cons, List.nodup_append, List.nodup_cons, List.mem_cons,
    not_or] at hnd
  obtain ⟨hAnd, ⟨⟨hlz, hlr, hlB⟩, ⟨hzr, hzB⟩, hrB, hBnd⟩, hcross⟩ := hnd
  obtain ⟨hgl, -, hgr⟩ := h.getElem?_splitHeap locked (splitChain f leaves.length l z r)
  -- 番地の列の各部分ごとに、古い leaf か新しい leaf かで分ける
  refine ⟨?_, ?_, h.linked_spliced (splitChain_ne_nil hne _) hfc.linked,
    h.sorted_spliced hhi hsmall, ?_⟩
  · intro x hx
    rcases List.mem_append.mp hx with hx | hx
    · have hxA := hcross x.1 (List.mem_map_of_mem hx)
      rw [Plin.getElem?_splitHeap locked _ (hlt x (by simp [hx])) (hxA l.1 (by simp))
        (hxA z.1 (by simp)) (hxA r.1 (by simp))]
      exact h.stored x (by simp [hx])
    · rcases List.mem_cons.mp hx with rfl | hx
      · exact hgl
      · rcases List.mem_append.mp hx with hx | hx
        · exact getElem?_splitHeap_new locked hids hx
        · rcases List.mem_cons.mp hx with rfl | hx
          · exact hgr
          · have hxB := List.mem_map_of_mem (f := Prod.fst) hx
            rw [Plin.getElem?_splitHeap locked _ (hlt x (by simp [hx]))
              (fun hc => hlB (hc ▸ hxB)) (fun hc => hzB (hc ▸ hxB)) (fun hc => hrB (hc ▸ hxB))]
            exact h.stored x (by simp [hx])
  · -- 新しい番地は、どの古い番地よりも大きい
    have hnew : ∀ i ∈ (splitChain f leaves.length l z r).map Prod.fst, leaves.length ≤ i := by
      intro i hi
      rw [hids] at hi
      exact (List.mem_range'_1.mp hi).1
    have hold : ∀ x ∈ A ++ l :: z :: r :: B, x.1 ∉
        (splitChain f leaves.length l z r).map Prod.fst :=
      fun x hx hc => absurd (hlt x hx) (not_lt_of_ge (hnew x.1 hc))
    unfold Plin.spliced
    simp only [List.map_append, List.map_cons, List.nodup_append, List.nodup_cons, List.mem_cons,
      List.mem_append, not_or, Link.fst_withNext, Link.fst_withPrev]
    refine ⟨hAnd, ⟨⟨hold l (by simp), hlr, hlB⟩, by rw [hids]; exact List.nodup_range',
      ⟨hrB, hBnd⟩, ?_⟩, ?_⟩
    · rintro i hi j (rfl | hj) rfl
      · exact hold r (by simp) hi
      · obtain ⟨x, hx, rfl⟩ := List.mem_map.mp hj
        exact hold x (by simp [hx]) hi
    · rintro i hi j hj rfl
      obtain ⟨x, hx, rfl⟩ := List.mem_map.mp hi
      rcases hj with hj | hj | hj | hj
      · exact hcross x.1 hi x.1 (Or.inl hj) rfl
      · exact hold x (by simp [hx]) hj
      · exact hcross x.1 hi x.1 (Or.inr (Or.inr (Or.inl hj))) rfl
      · exact hcross x.1 hi x.1 (Or.inr (Or.inr (Or.inr hj))) rfl
  · intro x hx
    rcases List.mem_append.mp hx with hx | hx
    · exact h.sound x (by simp [hx])
    · rcases List.mem_cons.mp hx with rfl | hx
      · obtain ⟨h1, h2, h3, h4, h5, h6⟩ := h.sound l (by simp)
        exact ⟨h1, h2, h3, h4, h5, h6⟩
      · rcases List.mem_append.mp hx with hx | hx
        · exact hfc.sound x hx
        · rcases List.mem_cons.mp hx with rfl | hx
          · obtain ⟨h1, h2, h3, h4, h5, h6⟩ := h.sound r (by simp)
            exact ⟨h1, h2, h3, h4, h5, h6⟩
          · exact h.sound x (by simp [hx])

end Splice

end Plin
