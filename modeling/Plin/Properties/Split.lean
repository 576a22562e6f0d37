import Plin.Properties.PlaceNodes
import Plin.Properties.SplitHeap

/-!
# 分割

`split` が索引の状態にすることをまとめる。

- 両端の leaf は分割されず、状態は変わらない（`split_edge`）。
- 真ん中の leaf の分割は、heap を `splitHeap` に替え、新しい leaf を親に知らせ、`local_table` を書き換える。
  orphan が増えすぎれば、inner node の段を作り直す（`split_middle`）。
-/

namespace Plin

open Infra

variable {D : Type} [Arith D]

namespace PlinIndex

/-! ## 変わらない部分 -/

variable {s s' : PlinIndex D} {node : InnerSlot D} {nodes : List (InnerSlot D)}

theorem upsertNode_frame (h : s.upsertNode node = some s') :
    ∃ inners n m, s' = { s with inners := inners, leafNumber := n, orphanNumber := m } := by
  unfold upsertNode at h
  obtain ⟨i, -, h⟩ := Option.bind_eq_some_iff.mp h
  obtain ⟨a, -, h⟩ := Option.bind_eq_some_iff.mp h
  obtain ⟨r, -, h⟩ := Option.bind_eq_some_iff.mp h
  exact ⟨_, _, _, (Option.some.inj h).symm⟩

theorem upsertNodes_frame : ∀ {s : PlinIndex D}, s.upsertNodes nodes = some s' →
    ∃ inners n m, s' = { s with inners := inners, leafNumber := n, orphanNumber := m } := by
  induction nodes with
  | nil =>
    intro s h
    exact ⟨_, _, _, (Option.some.inj h).symm⟩
  | cons node nodes ih =>
    intro s h
    obtain ⟨mid, hmid, h⟩ := Option.bind_eq_some_iff.mp h
    obtain ⟨_, _, _, rfl⟩ := upsertNode_frame hmid
    obtain ⟨inners, n, m, rfl⟩ := ih h
    exact ⟨inners, n, m, rfl⟩

/-- 親に知らせる部分は、inner node と数え上げしか変えない。 -/
theorem placeNodes_frame {acc : Option SlotAddr} (h : s.placeNodes nodes acc = some s') :
    ∃ inners n m, s' = { s with inners := inners, leafNumber := n, orphanNumber := m } := by
  cases acc with
  | none => exact ⟨_, _, _, (Option.some.inj h).symm⟩
  | some a => exact upsertNodes_frame h

/-- 親 slot が在れば書き換える。 -/
def onSlot (s : PlinIndex D) (g : InnerSlot D → InnerSlot D) : Option SlotAddr → PlinIndex D
  | some a => s.modifySlot g a
  | none => s

/-- 分割の間だけ親 slot に掛かる lock。 -/
def lockSlot (e : InnerSlot D) : InnerSlot D := e.getWriteLock.getReadLock

omit [Arith D] in
/-- slot の書き換えは、leaf に触れない。 -/
theorem onSlot_frame (s : PlinIndex D) (g : InnerSlot D → InnerSlot D) (acc : Option SlotAddr) :
    ∃ inners roots, s.onSlot g acc = { s with inners := inners, roots := roots } := by
  match acc with
  | none => exact ⟨s.inners, s.roots, rfl⟩
  | some (.root i) => exact ⟨s.inners, _, rfl⟩
  | some (.inner i j) => exact ⟨_, s.roots, rfl⟩

/-! ## `split` -/

section Split

variable {f : Fitter D} {A B : List (Link D)} {l z r : Link D} {acc : Option SlotAddr}

/-- 真ん中の leaf は両隣を持つ。 -/
theorem neighbors_ne_none {lo hi : Key} {leaves : List (LeafNode D)}
    (h : Chain lo hi leaves (A ++ l :: z :: r :: B)) : z.2.prev ≠ none ∧ z.2.next ≠ none := by
  have hlinked := h.linked
  rw [List.append_cons] at hlinked
  rw [hlinked.middle.1, hlinked.middle.2, lastId_append]
  exact ⟨nofun, nofun⟩

theorem split_edge (h : Chain s.minKey s.maxKey s.leaves (A ++ z :: B)) (hedge : A = [] ∨ B = []) :
    s.split f z.1 acc = .ok s := by
  unfold split
  rw [h.splitLocks_edge hedge]

omit [Arith D] in
theorem mapIdx_getInfo_linkLeaves (id : Nat) (next : Option LeafId) (ls : List (LeafNode D)) :
    ((linkLeaves id next ls).map Prod.snd).mapIdx (fun i l => l.getInfo (id + i)) =
      (linkLeaves id next ls).map Link.info := by
  refine List.ext_getElem? fun i => ?_
  rw [List.getElem?_mapIdx, List.getElem?_map, List.getElem?_map, getElem?_linkLeaves]
  cases ls[i]? with
  | none => rfl
  | some l => rfl

/-- 分割で知らせる slot。 -/
theorem newAccelerators_eq {leaves : List (LeafNode D)} {n : Nat}
    (h : leaves.drop n = (splitChain f n l z r).map Prod.snd) :
    newAccelerators leaves n = (splitChain f n l z r).map Link.info := by
  unfold newAccelerators
  rw [h]
  exact mapIdx_getInfo_linkLeaves ..

/-- leaf の heap を差し替える。 -/
def withLeaves (s : PlinIndex D) (leaves : List (LeafNode D)) : PlinIndex D :=
  { s with leaves := leaves }

/-- 表を書き換え、lock を放した状態。 -/
def unlocked (s : PlinIndex D) (x left right : LeafId) (acc : Option SlotAddr)
    (round : List TRecord) : PlinIndex D :=
  let s := { s with localTable := pessInsertTable s.localTable x round }.unlockAfterSplit x acc
  s.withLeaves ((s.leaves.modify left LeafNode.releaseLock).modify right LeafNode.releaseLock)

/-- 親に知らせた後の `split` の残り。 -/
def finishSplit (f : Fitter D) (s : PlinIndex D) (x left right : LeafId) (acc : Option SlotAddr)
    (round : List TRecord) : Except IndexFault (PlinIndex D) :=
  if (s.unlocked x left right acc round).tooManyOrphans then
    (s.unlocked x left right acc round).rebuildInnerNodes f
  else .ok (s.unlocked x left right acc round)

/-- lock が取れたときの `split`。 -/
theorem split_of_locks {leaves : List (LeafNode D)} {x left right : LeafId}
    (h : splitLocks s.leaves x = (leaves, some (left, right))) :
    s.split f x acc =
      (retrain f (lockForSplit (s.withLeaves leaves) x acc).leaves x left right).bind fun heap =>
        (orFault (placeNodes ((lockForSplit (s.withLeaves leaves) x acc).withLeaves heap)
          (newAccelerators heap (lockForSplit (s.withLeaves leaves) x acc).leaves.length)
          acc)).bind fun s₂ => finishSplit f s₂ x left right acc
            ((newAccelerators heap (lockForSplit (s.withLeaves leaves) x acc).leaves.length).map
              fun a => ⟨a.minKey, a.ptr⟩) := by
  unfold split
  rw [h]
  rfl

/-- 分割の間の leaf の lock。 -/
theorem leaves_lockForSplit (h : Chain s.minKey s.maxKey s.leaves (A ++ l :: z :: r :: B)) :
    (lockForSplit (s.withLeaves (lockedHeap s.leaves l z r 1)) z.1 acc).leaves =
      lockedHeap s.leaves l z r (if acc.isSome then 1 else 7) := by
  match acc with
  | none => exact h.modify_lockedHeap
  | some (.root i) => rfl
  | some (.inner i j) => rfl

omit [Arith D] in
theorem withLeaves_lockForSplit (s : PlinIndex D) (leaves heap : List (LeafNode D)) (x : LeafId)
    (acc : Option SlotAddr) : (lockForSplit (s.withLeaves leaves) x acc).withLeaves heap =
      (s.onSlot lockSlot acc).withLeaves heap := by
  match acc with
  | none => rfl
  | some (.root i) => rfl
  | some (.inner i j) => rfl

/-- 分割の終わりの状態。`s₂` は新しい leaf を親に知らせた後の状態である。 -/
def afterSplit (f : Fitter D) (s s₂ : PlinIndex D) (l z r : Link D) (acc : Option SlotAddr) :
    PlinIndex D :=
  { s₂.onSlot InnerSlot.releaseLock acc with
    leaves := splitHeap s.leaves l z r (if acc.isSome then 1 else 0)
      (splitChain f s.leaves.length l z r)
    localTable := pessInsertTable s.localTable z.1
      ((splitChain f s.leaves.length l z r).map record) }

/-- 学習し直して親に知らせることができたときの `split`。 -/
theorem split_eq (h : Chain s.minKey s.maxKey s.leaves (A ++ l :: z :: r :: B))
    {heap : List (LeafNode D)} {s₂ : PlinIndex D}
    (hret : retrain f (lockedHeap s.leaves l z r (if acc.isSome then 1 else 7)) z.1 l.1 r.1 =
      .ok heap)
    (hplace : placeNodes ((s.onSlot lockSlot acc).withLeaves heap)
      ((splitChain f s.leaves.length l z r).map Link.info) acc = some s₂) :
    s.split f z.1 acc = if (afterSplit f s s₂ l z r acc).tooManyOrphans then
      (afterSplit f s s₂ l z r acc).rebuildInnerNodes f else .ok (afterSplit f s s₂ l z r acc) := by
  obtain ⟨-, -, hdrop, hsome, hnone⟩ := h.retrain_splitHeap hret
  obtain ⟨hleaves, htable⟩ : s₂.leaves = heap ∧ s₂.localTable = s.localTable := by
    obtain ⟨inners, n, m, rfl⟩ := placeNodes_frame hplace
    obtain ⟨inners', roots', heq⟩ := onSlot_frame s lockSlot acc
    rw [heq]
    exact ⟨rfl, rfl⟩
  have hround : ((splitChain f s.leaves.length l z r).map Link.info).map
      (fun a => TRecord.mk a.minKey a.ptr) =
        (splitChain f s.leaves.length l z r).map record := by
    rw [List.map_map]
    rfl
  have hafter : s₂.unlocked z.1 l.1 r.1 acc ((splitChain f s.leaves.length l z r).map record) =
      afterSplit f s s₂ l z r acc := by
    unfold unlocked afterSplit
    rw [htable]
    match acc with
    | none =>
      simp only [Option.isSome_none, Bool.false_eq_true, if_false]
      rw [← hnone, ← hleaves]
      rfl
    | some (.root i) =>
      simp only [Option.isSome_some, if_true] at hsome ⊢
      rw [← hsome, ← hleaves]
      rfl
    | some (.inner i j) =>
      simp only [Option.isSome_some, if_true] at hsome ⊢
      rw [← hsome, ← hleaves]
      rfl
  rw [split_of_locks h.splitLocks_middle]
  rw [show ((s.leaves.set z.1 (z.2.withLock 1)).set l.1 (l.2.withLock 1)).set r.1
    (r.2.withLock 1) = lockedHeap s.leaves l z r 1 from rfl, leaves_lockForSplit h]
  simp only [withLeaves_lockForSplit, length_lockedHeap]
  rw [hret, Except.bind, newAccelerators_eq hdrop, hplace, hround]
  show finishSplit f s₂ z.1 l.1 r.1 acc ((splitChain f s.leaves.length l z r).map record) = _
  rw [finishSplit, hafter]

/-- **真ん中の leaf の分割。** -/
theorem split_middle (h : Chain s.minKey s.maxKey s.leaves (A ++ l :: z :: r :: B))
    (hs : s.split f z.1 acc = .ok s') :
    splitSegments f z.2 ≠ [] ∧
      (∀ y ∈ freshLeaves (splitSegments f z.2) z.2.getData.1 0 (some l.1) s.leaves.length,
        y.blockNumber < 2 ^ 29) ∧
      ∃ heap s₂, placeNodes ((s.onSlot lockSlot acc).withLeaves heap)
          ((splitChain f s.leaves.length l z r).map Link.info) acc = some s₂ ∧
        (s' = afterSplit f s s₂ l z r acc ∨
          (afterSplit f s s₂ l z r acc).rebuildInnerNodes f = .ok s') := by
  have hunfold := hs
  rw [split_of_locks h.splitLocks_middle] at hunfold
  rw [show ((s.leaves.set z.1 (z.2.withLock 1)).set l.1 (l.2.withLock 1)).set r.1
    (r.2.withLock 1) = lockedHeap s.leaves l z r 1 from rfl, leaves_lockForSplit h] at hunfold
  simp only [withLeaves_lockForSplit, length_lockedHeap] at hunfold
  cases hret : retrain f (lockedHeap s.leaves l z r (if acc.isSome then 1 else 7)) z.1 l.1 r.1 with
  | error e =>
    rw [hret] at hunfold
    cases hunfold
  | ok heap =>
    obtain ⟨hne, hsmall, hdrop, -, -⟩ := h.retrain_splitHeap hret
    refine ⟨hne, hsmall, heap, ?_⟩
    rw [hret, Except.bind, newAccelerators_eq hdrop] at hunfold
    cases hplace : placeNodes ((s.onSlot lockSlot acc).withLeaves heap)
        ((splitChain f s.leaves.length l z r).map Link.info) acc with
    | none =>
      rw [hplace] at hunfold
      cases hunfold
    | some s₂ =>
      rw [split_eq h hret hplace] at hs
      refine ⟨s₂, rfl, ?_⟩
      split at hs
      · exact Or.inr hs
      · exact Or.inl (Except.ok.inj hs).symm

/-- 学習し直した leaf が `assert` を破らず、親に知らせられ、orphan が無ければ、分割は終わる。 -/
theorem exists_split (h : Chain s.minKey s.maxKey s.leaves (A ++ l :: z :: r :: B))
    (hne : splitSegments f z.2 ≠ [])
    (hsmall : ∀ y ∈ freshLeaves (splitSegments f z.2) z.2.getData.1 0 (some l.1) s.leaves.length,
      y.blockNumber < 2 ^ 29)
    (hplace : ∀ heap, ∃ s₂, placeNodes ((s.onSlot lockSlot acc).withLeaves heap)
      ((splitChain f s.leaves.length l z r).map Link.info) acc = some s₂ ∧ s₂.orphanNumber = 0) :
    ∃ heap s₂, placeNodes ((s.onSlot lockSlot acc).withLeaves heap)
        ((splitChain f s.leaves.length l z r).map Link.info) acc = some s₂ ∧
      s.split f z.1 acc = .ok (afterSplit f s s₂ l z r acc) := by
  obtain ⟨heap, hret⟩ := @exists_retrain D _ f _ z.1 l.1 r.1 _
    (h.getElem?_lockedHeap (if acc.isSome then 1 else 7)) hne (by
    rw [length_lockedHeap]
    exact hsmall)
  obtain ⟨s₂, hs₂, horphan⟩ := hplace heap
  refine ⟨heap, s₂, hs₂, ?_⟩
  have hfew : (afterSplit f s s₂ l z r acc).orphanNumber = 0 := by
    obtain ⟨inners, roots, heq⟩ := onSlot_frame s₂ InnerSlot.releaseLock acc
    rw [afterSplit, heq]
    exact horphan
  rw [split_eq h hret hs₂, if_neg]
  simp [tooManyOrphans, hfew]

end Split

/-! ## `local_table` -/

section Table

/-- 間に収まる行を順に入れる。 -/
theorem foldl_insertRecord {Q new : List TRecord} :
    ∀ {P : List TRecord}, new.Pairwise (fun a b => a.key < b.key) →
      (∀ p ∈ P, ∀ a ∈ new, p.key < a.key) → (∀ a ∈ new, ∀ q ∈ Q, a.key < q.key) →
      new.foldl insertRecord (P ++ Q) = P ++ new ++ Q := by
  induction new with
  | nil => simp
  | cons a new ih =>
    intro P hnew hP hQ
    obtain ⟨ha, hnew⟩ := List.pairwise_cons.mp hnew
    simp only [List.forall_mem_cons] at hP hQ
    have hpos : ∀ p ∈ P, decide (p.key < a.key) = true := fun p hp => by simpa using (hP p hp).1
    have hstop : Q.takeWhile (fun t => decide (t.key < a.key)) = [] := by
      cases Q with
      | nil => rfl
      | cons q Q => exact List.takeWhile_cons_of_neg (by simpa using (hQ.1 q (by simp)).le)
    have hstop' : Q.dropWhile (fun t => decide (t.key < a.key)) = Q := by
      cases Q with
      | nil => rfl
      | cons q Q => exact List.dropWhile_cons_of_neg (by simpa using (hQ.1 q (by simp)).le)
    have hinsert : insertRecord (P ++ Q) a = (P ++ [a]) ++ Q := by
      unfold insertRecord
      rw [List.takeWhile_append_of_pos hpos, List.dropWhile_append_of_pos hpos, hstop, hstop']
      simp
    rw [List.foldl_cons, hinsert, ih hnew ?_ hQ.2]
    · simp
    · intro p hp b hb
      rcases List.mem_append.mp hp with hp | hp
      · exact (hP p hp).2 b hb
      · rw [List.mem_singleton.mp hp]
        exact ha b hb

variable {lo hi : Key} {leaves leaves' : List (LeafNode D)} {A B new : List (Link D)}
  {l z r : Link D}

/-- **表の書き換えは、連鎖の書き換えと揃う。** -/
theorem pessInsertTable_spliced (h : Chain lo hi leaves (A ++ l :: z :: r :: B))
    (h' : Chain lo hi leaves' (spliced A l new r B)) :
    pessInsertTable ((A ++ l :: z :: r :: B).map record) z.1 (new.map record) =
      (spliced A l new r B).map record := by
  have hnd := h.nodup
  simp only [List.map_append, List.map_cons, List.nodup_append, List.nodup_cons, List.mem_cons,
    not_or] at hnd
  obtain ⟨-, ⟨⟨hlz, -, -⟩, -⟩, hcross⟩ := hnd
  have herase : ((A ++ l :: z :: r :: B).map record).eraseP (fun t => t.addr = z.1) =
      (A ++ [l]).map record ++ (r :: B).map record := by
    have hcut : (A ++ l :: z :: r :: B).map record =
        (A ++ [l]).map record ++ record z :: (r :: B).map record := by simp
    rw [hcut, List.eraseP_append_right]
    · rw [List.eraseP_cons_of_pos (by simp [record])]
    · intro t ht
      obtain ⟨x, hx, rfl⟩ := List.mem_map.mp ht
      have hne : x.1 ≠ z.1 := by
        rcases List.mem_append.mp hx with hx | hx
        · exact hcross x.1 (List.mem_map_of_mem hx) z.1 (by simp)
        · rw [List.mem_singleton.mp hx]
          exact hlz
      exact decide_eq_false hne ▸ Bool.false_ne_true
  have hsorted := h'.firstKey_sorted
  unfold spliced at hsorted ⊢
  simp only [List.pairwise_append, List.pairwise_cons, List.mem_append, List.mem_cons] at hsorted
  obtain ⟨-, ⟨hl, hnew, -, hright⟩, hA⟩ := hsorted
  unfold pessInsertTable
  rw [herase, foldl_insertRecord (List.pairwise_map.mpr hnew)]
  · simp only [List.map_append, List.map_cons, List.map_nil, List.append_assoc, List.cons_append,
      List.nil_append]
    rfl
  · intro p hp a ha
    obtain ⟨x, hx, rfl⟩ := List.mem_map.mp hp
    obtain ⟨y, hy, rfl⟩ := List.mem_map.mp ha
    rcases List.mem_append.mp hx with hx | hx
    · exact hA x hx y (Or.inr (Or.inl hy))
    · rw [List.mem_singleton.mp hx]
      exact hl y (Or.inl hy)
  · intro a ha q hq
    obtain ⟨y, hy, rfl⟩ := List.mem_map.mp ha
    obtain ⟨w, hw, rfl⟩ := List.mem_map.mp hq
    rcases List.mem_cons.mp hw with rfl | hw
    · exact hright y hy (w.withPrev (lastId none new)) (Or.inl rfl)
    · exact hright y hy w (Or.inr hw)

end Table

end PlinIndex

end Plin
