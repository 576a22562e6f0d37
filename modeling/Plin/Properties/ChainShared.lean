import Plin.Index.ChainShared
import Plin.Infra.Strand
import Plin.Properties.SplitHeap

/-!
# 並行する分割の一歩

`split` は両隣を lock を取る前に読む。三つの lock が取れたとき、**読んだ両隣は今も両隣である**。隣が変わるのは
その隣が分割されたときだけであり、分割された leaf の lock は取れないからである。

連鎖 `ids` が変わるのは、左隣の `next` を書く一歩だけである。その後、右隣の `prev` を書くまでの間は、`prev` が
一箇所だけ古い（`Woven`）。
-/

namespace Plin

open Infra

variable {D : Type} [Arith D]

/-! ## heap の読み書き -/

section Heap

omit [Arith D]

variable {m : List (LeafNode D)} {x i : LeafId} {g : LeafNode D → LeafNode D} {l : LeafNode D}

def prevOf (m : List (LeafNode D)) (i : LeafId) : Option LeafId := (m[i]?).bind LeafNode.prev

def nextOf (m : List (LeafNode D)) (i : LeafId) : Option LeafId := (m[i]?).bind LeafNode.next

/-- split lock が掛かっている。 -/
def LockedAt (m : List (LeafNode D)) (i : LeafId) : Prop :=
  ∃ l, m[i]? = some l ∧ l.locked.testBit 0 = true

/-- 捨てられている。 -/
def AbandonedAt (m : List (LeafNode D)) (i : LeafId) : Prop :=
  ∃ l, m[i]? = some l ∧ l.isAbandoned = true

theorem getElem?_modify_of (hx : m[x]? = some l) : (m.modify x g)[x]? = some (g l) := by
  rw [List.getElem?_modify_eq, hx]
  rfl

/-- `g` の前後で `P` が変わらなければ、書いた後の leaf も `P` を満たす。 -/
theorem exists_modify_iff {P : LeafNode D → Prop} (hg : ∀ l, P (g l) ↔ P l) :
    (∃ l, (m.modify x g)[i]? = some l ∧ P l) ↔ ∃ l, m[i]? = some l ∧ P l := by
  by_cases hxi : x = i
  · subst hxi
    cases hx : m[x]? with
    | none => simp [hx]
    | some l => simp [hx, hg]
  · rw [List.getElem?_modify_ne _ _ hxi]

theorem bind_modify {α : Type} {φ : LeafNode D → Option α} (hg : ∀ l, φ (g l) = φ l) :
    ((m.modify x g)[i]?).bind φ = (m[i]?).bind φ := by
  rw [List.getElem?_modify]
  cases m[i]? with
  | none => rfl
  | some l =>
    show φ (if x = i then g l else l) = φ l
    split
    · exact hg l
    · rfl

theorem LockedAt.modify (h : LockedAt m i)
    (hg : ∀ l, l.locked.testBit 0 = true → (g l).locked.testBit 0 = true) :
    LockedAt (m.modify x g) i := by
  obtain ⟨l, hl, hbit⟩ := h
  by_cases hxi : x = i
  · subst hxi
    exact ⟨g l, getElem?_modify_of hl, hg l hbit⟩
  · exact ⟨l, by rwa [List.getElem?_modify_ne _ _ hxi], hbit⟩

theorem LockedAt.modify_ne (h : LockedAt m i) (hne : x ≠ i) : LockedAt (m.modify x g) i := by
  obtain ⟨l, hl, hbit⟩ := h
  exact ⟨l, by rwa [List.getElem?_modify_ne _ _ hne], hbit⟩

theorem AbandonedAt.of_modify (h : AbandonedAt (m.modify x g) i)
    (hg : ∀ l, (g l).isAbandoned = l.isAbandoned) : AbandonedAt m i :=
  (exists_modify_iff fun l => by rw [hg]).mp h

/-- 双方向につながった列を、番地でたどる。 -/
theorem DoublyLinked.forward {c : List (Link D)} :
    ∀ {p n : Option LeafId}, DoublyLinked LeafNode.prev LeafNode.next p c n →
      (∀ y ∈ c, m[y.1]? = some y.2) →
      (c.map Prod.fst ++ n.toList).IsChain fun a b => nextOf m a = some b := by
  induction c with
  | nil =>
    intro p n _ _
    cases n with
    | none => exact .nil
    | some n => exact .singleton n
  | cons y c ih =>
    intro p n h hm
    obtain ⟨-, hnext, hrest⟩ := h
    rw [List.map_cons, List.cons_append]
    refine List.isChain_cons.mpr ⟨fun b hb => ?_, ih hrest fun z hz => hm z (by simp [hz])⟩
    have hfirst : (c.map Prod.fst ++ n.toList).head? = firstId c n := by
      cases c with
      | nil => cases n <;> rfl
      | cons z c => rfl
    rw [hfirst] at hb
    rw [nextOf, hm y List.mem_cons_self]
    exact hnext.trans hb

theorem DoublyLinked.back {c : List (Link D)} :
    ∀ {p n : Option LeafId}, DoublyLinked LeafNode.prev LeafNode.next p c n →
      (∀ y ∈ c, m[y.1]? = some y.2) →
      (p.toList ++ c.map Prod.fst).IsChain fun a b => prevOf m b = some a := by
  induction c with
  | nil =>
    intro p n _ _
    cases p with
    | none => exact .nil
    | some p => exact .singleton p
  | cons y c ih =>
    intro p n h hm
    obtain ⟨hprev, -, hrest⟩ := h
    have htail := ih hrest fun z hz => hm z (by simp [hz])
    rw [Option.toList_some, List.singleton_append] at htail
    rw [List.map_cons]
    cases p with
    | none => exact htail
    | some p =>
      refine List.isChain_cons_cons.mpr ⟨?_, htail⟩
      rw [prevOf, hm y List.mem_cons_self]
      exact hprev

end Heap

/-! ## 新しい leaf をつなぐ -/

section Publish

variable {f : Fitter D} {m m' : List (LeafNode D)} {left right last : LeafId}
  {data : List (Key × Payload)}

theorem isAbandoned_freshLeaves (segs : List (Segment D)) :
    ∀ {data : List (Key × Payload)} {startPos : Nat} {prev : Option LeafId} {id : LeafId},
      ∀ l ∈ freshLeaves segs data startPos prev id, l.isAbandoned = false := by
  induction segs with
  | nil =>
    intro data startPos prev id l hl
    cases hl
  | cons seg segs ih =>
    intro data startPos prev id l hl
    rcases List.mem_cons.mp hl with rfl | hl
    · rw [(LeafNode.new_header _ _ _ _ _ _).header]
      rfl
    · exact ih l hl

/-- つないだ後の heap。 -/
structure Published (m m' : List (LeafNode D)) (left right last : LeafId) (new : List (Link D)) :
    Prop where
  heap : m' = setNext m left (some m.length) ++ new.map Prod.snd
  ids : new.map Prod.fst = List.range' m.length new.length
  ne_nil : new ≠ []
  last_eq : last = m.length + new.length - 1
  linked : DoublyLinked LeafNode.prev LeafNode.next (some left) new (some right)
  alive : ∀ y ∈ new, y.2.isAbandoned = false

theorem publish_eq (hleft : left < m.length)
    (h : publish f m left right data = .ok (m', last)) :
    ∃ new, Published m m' left right last new ∧
      new = linkLeaves m.length (some right) (freshLeaves
        (makeSegmentation f epsilonLeafNode (data.map Prod.fst)) data 0 (some left) m.length) := by
  unfold publish at h
  generalize hsegs : makeSegmentation f epsilonLeafNode (data.map Prod.fst) = segs at h ⊢
  simp only [bind, Except.bind] at h
  by_cases hzero : segs.length = 0
  · rw [if_pos hzero] at h
    cases h
  · rw [if_neg hzero, buildLeaves_eq] at h
    split at h
    · next hbuild =>
      split at hbuild
      · cases hbuild
      · cases h
    · next heap hbuild =>
      split at hbuild
      · obtain rfl := Except.ok.inj hbuild
        obtain ⟨rfl, rfl⟩ := Prod.mk.inj (Except.ok.inj h)
        have hlen := length_freshLeaves segs data 0 (some left) m.length
        have hne : freshLeaves segs data 0 (some left) m.length ≠ [] := by
          rw [← List.length_pos_iff, hlen]
          omega
        have hlink := linkNext_append m hne (some right)
        rw [hlen] at hlink
        refine ⟨_, ⟨?_, ?_, ?_, ?_, doublyLinked_linkLeaves _, ?_⟩, rfl⟩
        · rw [hlink]
          unfold setNext
          rw [modify_append_of_lt hleft]
        · rw [map_fst_linkLeaves, length_linkLeaves]
        · rw [← List.length_pos_iff, length_linkLeaves]
          exact List.length_pos_iff.mpr hne
        · rw [length_linkLeaves, hlen]
        · intro y hy
          obtain ⟨l, hl, hyl⟩ := linkLeaves_spec hy
          rw [hyl]
          exact isAbandoned_freshLeaves segs l hl
      · cases hbuild

namespace Published

variable {new : List (Link D)} {i : LeafId}

omit [Arith D] in
theorem length (h : Published m m' left right last new) : m'.length = m.length + new.length := by
  rw [h.heap, List.length_append, List.length_map, setNext, List.length_modify]

omit [Arith D] in
theorem lt_length (h : Published m m' left right last new) : m.length < m'.length := by
  rw [h.length]
  exact Nat.lt_add_of_pos_right (List.length_pos_iff.mpr h.ne_nil)

omit [Arith D] in
/-- 元からの leaf は、左隣の `next` のほかは変わらない。 -/
theorem getElem?_old (h : Published m m' left right last new) (hi : i < m.length) :
    m'[i]? = (setNext m left (some m.length))[i]? := by
  rw [h.heap, List.getElem?_append_left (by rwa [setNext, List.length_modify])]

omit [Arith D] in
theorem getElem?_new (h : Published m m' left right last new) {y : Link D} (hy : y ∈ new) :
    m'[y.1]? = some y.2 := by
  obtain ⟨k, hk, rfl⟩ := List.mem_iff_getElem.mp hy
  have hid : new[k].1 = m.length + k := by
    have hids := congrArg (fun ids => ids[k]?) h.ids
    simpa [List.getElem?_range', hk] using hids
  rw [h.heap, hid, List.getElem?_append_right (by rw [setNext, List.length_modify]; omega)]
  simp [setNext, hk]

omit [Arith D] in
theorem mem_ids (h : Published m m' left right last new) :
    i ∈ new.map Prod.fst ↔ m.length ≤ i ∧ i < m'.length := by
  rw [h.ids, List.mem_range'_1, h.length]

omit [Arith D] in
theorem prevOf_old (h : Published m m' left right last new) (hi : i < m.length) :
    prevOf m' i = prevOf m i := by
  rw [prevOf, h.getElem?_old hi]
  exact bind_modify fun _ => rfl

omit [Arith D] in
theorem nextOf_old (h : Published m m' left right last new) (hi : i < m.length)
    (hne : left ≠ i) : nextOf m' i = nextOf m i := by
  rw [nextOf, h.getElem?_old hi, setNext, List.getElem?_modify_ne _ _ hne]
  rfl

omit [Arith D] in
theorem nextOf_left (h : Published m m' left right last new) (hleft : left < m.length) :
    nextOf m' left = some m.length := by
  rw [nextOf, h.getElem?_old hleft, setNext, List.getElem?_modify_eq,
    List.getElem?_eq_getElem hleft]
  rfl

omit [Arith D] in
theorem lockedAt_old (h : Published m m' left right last new) (hl : LockedAt m i) :
    LockedAt m' i := by
  obtain ⟨l, hget, hbit⟩ := hl
  have hi := (List.getElem?_eq_some_iff.mp hget).1
  unfold LockedAt
  rw [h.getElem?_old hi]
  exact LockedAt.modify ⟨l, hget, hbit⟩ fun _ hb => hb

omit [Arith D] in
theorem abandonedAt_iff (h : Published m m' left right last new) :
    AbandonedAt m' i ↔ AbandonedAt m i := by
  unfold AbandonedAt
  by_cases hi : i < m.length
  · rw [h.getElem?_old hi]
    exact exists_modify_iff fun _ => Iff.rfl
  · rw [List.getElem?_eq_none (Nat.not_lt.mp hi)]
    refine ⟨?_, fun hc => by simp at hc⟩
    rintro ⟨l, hl, hab⟩
    -- 新しい leaf はまだ捨てられていない
    have hmem : i ∈ new.map Prod.fst :=
      h.mem_ids.mpr ⟨Nat.not_lt.mp hi, (List.getElem?_eq_some_iff.mp hl).1⟩
    obtain ⟨y, hy, rfl⟩ := List.mem_map.mp hmem
    obtain rfl := Option.some.inj ((h.getElem?_new hy).symm.trans hl)
    rw [h.alive y hy] at hab
    cases hab

end Published

end Publish

/-! ## 連鎖の見え方 -/

/-- 連鎖を決めるもの。`gone` は、もう連鎖に無い leaf である。 -/
@[ext] structure ChainView where
  length : Nat
  strand : Strand LeafId
  gone : LeafId → Prop

/-- lock を取る前に読んだ隣。隣でなくなっていれば、その leaf はもう連鎖に無い。 -/
def ChainView.Saw (v : ChainView) (now seen : Option LeafId) : Prop :=
  ∀ y, seen = some y → y < v.length ∧ (now = some y ∨ v.gone y)

namespace SplitJob

/-- 連鎖に在ったことのある leaf と、読んだ両隣。 -/
structure Seen (j : SplitJob) (v : ChainView) : Prop where
  leaf : j.leaf < v.length
  left : v.Saw (v.strand.prev j.leaf) j.left
  right : v.Saw (v.strand.next j.leaf) j.right

/-- `g` の lock を取る前に持っている lock。 -/
def Before (j : SplitJob) : Guarded → LeafId → Prop
  | .self, _ => False
  | .left, i => i = j.leaf
  | .right, i => i = j.leaf ∨ j.left = some i

/-- 両隣の lock。 -/
def Sides (j : SplitJob) (i : LeafId) : Prop := j.left = some i ∨ j.right = some i

/-- 三つの lock は別の leaf のものである。 -/
structure Apart (j : SplitJob) : Prop where
  left : j.left ≠ some j.leaf
  right : j.right ≠ some j.leaf
  sides : ∀ y, j.left = some y → j.right ≠ some y

end SplitJob

namespace SplitterPc

/-- 連鎖に在る leaf のうち、lock を持っているもの。 -/
def Guards : SplitterPc → LeafId → Prop
  | lockLoad j g, i => j.Before g i
  | lockCas j g _, i => j.Before g i
  | undoLeft j, i => i = j.leaf ∨ j.left = some i
  | undoLeaf j, i => i = j.leaf
  | getWriteLock j, i => i = j.leaf ∨ j.Sides i
  | getData j, i => i = j.leaf ∨ j.Sides i
  | getReadLock j _, i => i = j.leaf ∨ j.Sides i
  | linkLeft j _, i => i = j.leaf ∨ j.Sides i
  | linkRight j _, i => j.Sides i
  | setAbandoned j, i => j.Sides i
  | releaseLeaf j, i => j.Sides i
  | releaseLeft j, i => j.Sides i
  | releaseRight j, i => j.right = some i
  | _, _ => False

/-- 連鎖から外した leaf の lock。 -/
def Owns : SplitterPc → LeafId → Prop
  | linkRight j _, i => i = j.leaf
  | setAbandoned j, i => i = j.leaf
  | releaseLeaf j, i => i = j.leaf
  | _, _ => False

def Holds (l : SplitterPc) (i : LeafId) : Prop := l.Guards i ∨ l.Owns i

/-- 連鎖から外したが、まだ `set_abandoned` していない leaf。 -/
def Pending : SplitterPc → LeafId → Prop
  | linkRight j _, i => i = j.leaf
  | setAbandoned j, i => i = j.leaf
  | _, _ => False

/-- これから書かれる `prev`。 -/
def Late : SplitterPc → LeafId → LeafId → Prop
  | linkRight j last, a, b => a = last ∧ j.right = some b
  | _, _, _ => False

/-- thread がそれまでに読んだもの。 -/
def Knows (v : ChainView) : SplitterPc → Prop
  | getPrev x _ => x < v.length
  | getNext x _ left => x < v.length ∧ v.Saw (v.strand.prev x) left
  | tryReadLock j => j.Seen v
  | lockLoad j g => j.Seen v ∧ (g = .right → j.left ≠ some j.leaf)
  | lockCas j g oldValue =>
    j.Seen v ∧ (g = .right → j.left ≠ some j.leaf) ∧ oldValue.testBit 0 = false
  | undoLeft j => j.left ≠ some j.leaf
  | getWriteLock j => j.Seen v ∧ j.Apart
  | getData j => j.Seen v ∧ j.Apart
  | getReadLock j _ => j.Seen v ∧ j.Apart
  | linkLeft j _ => j.Seen v ∧ j.Apart
  | linkRight j _ => j.Apart ∧ ∀ r, j.right = some r → v.strand.prev r = some j.leaf
  | setAbandoned j => j.leaf < v.length ∧ j.Apart
  | releaseLeaf j => j.Apart
  | releaseLeft j => j.Apart
  | _ => True

end SplitterPc

namespace ChainState

variable {T : Type} (c : ChainState T D)

/-- もう連鎖に無い leaf。 -/
def Gone (i : LeafId) : Prop := AbandonedAt c.shared i ∨ ∃ t, (c.pc t).Pending i

def view : ChainView where
  length := c.shared.length
  strand :=
    { prev := prevOf c.shared, next := nextOf c.shared, late := fun a b => ∃ t, (c.pc t).Late a b }
  gone := c.Gone

end ChainState

/-- 実行の不変条件。`ids` は今の連鎖である。 -/
structure ChainInv {T : Type} (c : ChainState T D) (ids : List LeafId) : Prop where
  woven : Woven c.view.strand ids
  mem : ∀ i, i ∈ ids ↔ i < c.shared.length ∧ ¬ c.Gone i
  range : ∀ i y, prevOf c.shared i = some y ∨ nextOf c.shared i = some y → y < c.shared.length
  pcs : ∀ t, (c.pc t).Knows c.view
  live : ∀ t i, (c.pc t).Guards i → i ∈ ids
  held : ∀ t i, (c.pc t).Holds i → LockedAt c.shared i
  exclusive : ∀ t u i, (c.pc t).Holds i → (c.pc u).Holds i → t = u

section Quiet

variable {T : Type} [DecidableEq T] {c : ChainState T D} {t : T} {l : SplitterPc}
  {m : List (LeafNode D)} {ids : List LeafId}

omit [Arith D] in
/-- どれか一つの thread の位置について。 -/
theorem exists_pc_move {P : SplitterPc → Prop} :
    (∃ u, P ((c.move t m l).pc u)) ↔ P l ∨ ∃ u, u ≠ t ∧ P (c.pc u) := by
  constructor
  · rintro ⟨u, hu⟩
    rcases c.move_pc_cases t u m l with ⟨_, e⟩ | ⟨hne, e⟩
    · exact Or.inl (e ▸ hu)
    · exact Or.inr ⟨u, hne, e ▸ hu⟩
  · rintro (h | ⟨u, hne, hu⟩)
    · exact ⟨t, by rwa [c.move_pc_self]⟩
    · exact ⟨u, by rwa [c.move_pc_ne m l hne]⟩

omit [Arith D] in
theorem exists_pc {P : SplitterPc → Prop} :
    (∃ u, P (c.pc u)) ↔ P (c.pc t) ∨ ∃ u, u ≠ t ∧ P (c.pc u) := by
  constructor
  · rintro ⟨u, hu⟩
    by_cases hut : u = t
    · exact Or.inl (hut ▸ hu)
    · exact Or.inr ⟨u, hut, hu⟩
  · rintro (h | ⟨u, -, hu⟩)
    · exact ⟨t, h⟩
    · exact ⟨u, hu⟩

omit [Arith D] in
/-- 連結も、連鎖から外した leaf も変えない一歩。 -/
theorem view_move (hlen : m.length = c.shared.length)
    (hprev : ∀ i, prevOf m i = prevOf c.shared i) (hnext : ∀ i, nextOf m i = nextOf c.shared i)
    (hlate : ∀ a b, l.Late a b ↔ (c.pc t).Late a b)
    (hgone : ∀ i, AbandonedAt m i ∨ l.Pending i ↔ AbandonedAt c.shared i ∨ (c.pc t).Pending i) :
    ChainState.view (c.move t m l) = c.view := by
  refine ChainView.ext hlen ?_ (funext fun i => propext ?_)
  · have hlate' : ∀ a b, (∃ u, ((c.move t m l).pc u).Late a b) ↔ ∃ u, (c.pc u).Late a b := by
      intro a b
      rw [exists_pc_move (P := fun l => l.Late a b), exists_pc (t := t) (P := fun l => l.Late a b),
        hlate a b]
    show Strand.mk (prevOf m) (nextOf m) _ = Strand.mk (prevOf c.shared) (nextOf c.shared) _
    rw [funext hprev, funext hnext, funext fun a => funext fun b => propext (hlate' a b)]
  · show AbandonedAt m i ∨ (∃ u, ((c.move t m l).pc u).Pending i) ↔
      AbandonedAt c.shared i ∨ ∃ u, (c.pc u).Pending i
    rw [exists_pc_move (P := fun l => l.Pending i), exists_pc (t := t) (P := fun l => l.Pending i),
      ← or_assoc, ← or_assoc, hgone i]

omit [Arith D] in
/-- 連鎖の見え方を変えない一歩。 -/
theorem ChainInv.quiet (h : ChainInv c ids) (hview : ChainState.view (c.move t m l) = c.view)
    (hknows : l.Knows c.view) (hlive : ∀ i, l.Guards i → i ∈ ids)
    (hheld : ∀ i, l.Holds i → LockedAt m i)
    (hothers : ∀ u i, u ≠ t → (c.pc u).Holds i → LockedAt m i ∧ ¬ l.Holds i) :
    ChainInv (c.move t m l) ids := by
  have hlen : m.length = c.shared.length := congrArg ChainView.length hview
  have hgone : ChainState.Gone (c.move t m l) = c.Gone := congrArg ChainView.gone hview
  have hprev : prevOf m = prevOf c.shared := congrArg (fun v => v.strand.prev) hview
  have hnext : nextOf m = nextOf c.shared := congrArg (fun v => v.strand.next) hview
  refine ⟨by rw [hview]; exact h.woven, ?_, ?_, ?_, ?_, ?_, ?_⟩
  · intro i
    rw [hgone, Threads.move_shared, hlen]
    exact h.mem i
  · rw [Threads.move_shared, hprev, hnext, hlen]
    exact h.range
  · intro u
    rw [hview]
    rcases c.move_pc_cases t u m l with ⟨_, e⟩ | ⟨_, e⟩
    · rwa [e]
    · rw [e]
      exact h.pcs u
  · intro u i hu
    rcases c.move_pc_cases t u m l with ⟨_, e⟩ | ⟨_, e⟩
    · exact hlive i (e ▸ hu)
    · exact h.live u i (e ▸ hu)
  · intro u i hu
    rcases c.move_pc_cases t u m l with ⟨_, e⟩ | ⟨hne, e⟩
    · exact hheld i (e ▸ hu)
    · exact (hothers u i hne (e ▸ hu)).1
  · intro u w i hu hw
    rcases c.move_pc_cases t u m l with ⟨hut, eu⟩ | ⟨hne, eu⟩ <;>
      rcases c.move_pc_cases t w m l with ⟨hwt, ew⟩ | ⟨hne', ew⟩
    · exact hut.trans hwt.symm
    · exact absurd (eu ▸ hu) (hothers w i hne' (ew ▸ hw)).2
    · exact absurd (ew ▸ hw) (hothers u i hne (eu ▸ hu)).2
    · exact h.exclusive u w i (eu ▸ hu) (ew ▸ hw)

variable {l₀ : SplitterPc} {x : LeafId} {g : LeafNode D → LeafNode D}

/-- 連鎖を決める field を変えない書き込み。 -/
structure KeepsLinks (g : LeafNode D → LeafNode D) : Prop where
  prev : ∀ l, (g l).prev = l.prev
  next : ∀ l, (g l).next = l.next
  abandoned : ∀ l, (g l).isAbandoned = l.isAbandoned

/-- 連結について同じことをする位置。 -/
structure SplitterPc.SameLinks (l₀ l : SplitterPc) : Prop where
  late : ∀ a b, l.Late a b ↔ l₀.Late a b
  pending : ∀ i, l.Pending i ↔ l₀.Pending i

omit [Arith D] in
theorem view_write (hpc : c.pc t = l₀) (hsame : l₀.SameLinks l) (hg : KeepsLinks g) :
    ChainState.view (c.move t (c.shared.modify x g) l) = c.view := by
  subst hpc
  refine view_move (List.length_modify ..) (fun i => bind_modify hg.prev)
    (fun i => bind_modify hg.next) hsame.late fun i => ?_
  rw [hsame.pending i]
  refine or_congr_left (exists_modify_iff (P := fun l => l.isAbandoned = true) fun l => ?_)
  rw [hg.abandoned]

omit [Arith D] in
theorem view_still (hpc : c.pc t = l₀) (hsame : l₀.SameLinks l) :
    ChainState.view (c.move t c.shared l) = c.view := by
  subst hpc
  exact view_move rfl (fun _ => rfl) (fun _ => rfl) hsame.late fun i =>
    or_congr_right (hsame.pending i)

namespace ChainInv

omit [Arith D]

/-- heap を変えず、lock も取らない一歩。 -/
theorem still (h : ChainInv c ids) (hpc : c.pc t = l₀) (hsame : l₀.SameLinks l)
    (hknows : l.Knows c.view) (hguards : ∀ i, l.Guards i → l₀.Guards i)
    (howns : ∀ i, l.Owns i → l₀.Owns i) : ChainInv (c.move t c.shared l) ids := by
  subst hpc
  have hholds : ∀ i, l.Holds i → (c.pc t).Holds i := fun i => Or.imp (hguards i) (howns i)
  refine h.quiet (view_still rfl hsame) hknows (fun i hi => h.live t i (hguards i hi))
    (fun i hi => h.held t i (hholds i hi)) fun u i hne hu => ⟨h.held u i hu, fun hi => ?_⟩
  exact hne (h.exclusive u t i hu (hholds i hi))

/-- lock の bit を変えない書き込み。 -/
theorem write (h : ChainInv c ids) (hpc : c.pc t = l₀) (hsame : l₀.SameLinks l)
    (hg : KeepsLinks g) (hbit : ∀ l, l.locked.testBit 0 = true → (g l).locked.testBit 0 = true)
    (hknows : l.Knows c.view) (hguards : ∀ i, l.Guards i → l₀.Guards i)
    (howns : ∀ i, l.Owns i → l₀.Owns i) : ChainInv (c.move t (c.shared.modify x g) l) ids := by
  subst hpc
  have hholds : ∀ i, l.Holds i → (c.pc t).Holds i := fun i => Or.imp (hguards i) (howns i)
  refine h.quiet (view_write rfl hsame hg) hknows (fun i hi => h.live t i (hguards i hi))
    (fun i hi => (h.held t i (hholds i hi)).modify hbit) fun u i hne hu =>
      ⟨(h.held u i hu).modify hbit, fun hi => ?_⟩
  exact hne (h.exclusive u t i hu (hholds i hi))

theorem keepsLinks_releaseLock : KeepsLinks (D := D) LeafNode.releaseLock :=
  ⟨fun _ => rfl, fun _ => rfl, fun _ => rfl⟩

/-- 持っている lock を放す一歩。 -/
theorem release (h : ChainInv c ids) (hpc : c.pc t = l₀) (hsame : l₀.SameLinks l)
    (hx : l₀.Holds x) (hknows : l.Knows c.view)
    (hguards : ∀ i, l.Guards i → l₀.Guards i ∧ x ≠ i)
    (howns : ∀ i, l.Owns i → l₀.Owns i ∧ x ≠ i) :
    ChainInv (c.move t (c.shared.modify x LeafNode.releaseLock) l) ids := by
  subst hpc
  have hholds : ∀ i, l.Holds i → (c.pc t).Holds i ∧ x ≠ i := by
    rintro i (hi | hi)
    · exact ⟨Or.inl (hguards i hi).1, (hguards i hi).2⟩
    · exact ⟨Or.inr (howns i hi).1, (howns i hi).2⟩
  refine h.quiet (view_write rfl hsame keepsLinks_releaseLock) hknows
    (fun i hi => h.live t i (hguards i hi).1)
    (fun i hi => (h.held t i (hholds i hi).1).modify_ne (hholds i hi).2) fun u i hne hu => ⟨?_, ?_⟩
  · refine (h.held u i hu).modify_ne fun hxi => ?_
    exact hne (h.exclusive u t i hu (hxi ▸ hx))
  · exact fun hi => hne (h.exclusive u t i hu (hholds i hi).1)

/-- 連鎖に在る leaf の空いている lock を取る一歩。 -/
theorem acquire (h : ChainInv c ids) (hpc : c.pc t = l₀) (hsame : l₀.SameLinks l) {y : LeafNode D}
    (hx : c.shared[x]? = some y) (hfree : y.locked.testBit 0 = false) (hmem : x ∈ ids)
    (hknows : l.Knows c.view) (hguards : ∀ i, l.Guards i → l₀.Guards i ∨ i = x)
    (howns : ∀ i, ¬ l.Owns i) :
    ChainInv (c.move t (c.shared.modify x fun l => { l with locked := y.locked ||| 1 }) l) ids := by
  subst hpc
  -- 空いている lock を持つ thread は無い
  have hnone : ∀ u, ¬ (c.pc u).Holds x := by
    intro u hu
    obtain ⟨z, hz, hbit⟩ := h.held u x hu
    obtain rfl := Option.some.inj (hx.symm.trans hz)
    rw [hfree] at hbit
    cases hbit
  have hkeep : ∀ u i, (c.pc u).Holds i →
      LockedAt (c.shared.modify x fun l => { l with locked := y.locked ||| 1 }) i :=
    fun u i hu => (h.held u i hu).modify_ne fun hxi => hnone u (hxi ▸ hu)
  have hbit : (y.locked ||| 1).testBit 0 = true := by simp
  refine h.quiet (view_write rfl hsame ⟨fun _ => rfl, fun _ => rfl, fun _ => rfl⟩) hknows ?_ ?_ ?_
  · intro i hi
    rcases hguards i hi with hi | rfl
    · exact h.live t i hi
    · exact hmem
  · rintro i (hi | hi)
    · rcases hguards i hi with hi | rfl
      · exact hkeep t i (Or.inl hi)
      · exact ⟨_, getElem?_modify_of hx, hbit⟩
    · exact absurd hi (howns i)
  · intro u i hne hu
    refine ⟨hkeep u i hu, ?_⟩
    rintro (hi | hi)
    · rcases hguards i hi with hi | rfl
      · exact hne (h.exclusive u t i hu (Or.inl hi))
      · exact hnone u hu
    · exact howns i hi

/-- 連鎖から外した leaf を捨てる一歩。 -/
theorem abandon (h : ChainInv c ids) {j : SplitJob} (hpc : c.pc t = .setAbandoned j)
    (hlate : ∀ a b, ¬ l.Late a b) (hpend : ∀ i, ¬ l.Pending i) (hknows : l.Knows c.view)
    (hguards : ∀ i, l.Guards i → j.Sides i) (howns : ∀ i, l.Owns i → i = j.leaf) :
    ChainInv (c.move t (c.shared.modify j.leaf fun l => { l with isAbandoned := true }) l) ids := by
  have hknown := h.pcs t
  rw [hpc] at hknown
  obtain ⟨hlt, -⟩ := hknown
  have hholds : ∀ i, l.Holds i → (c.pc t).Holds i := by
    rw [hpc]
    exact fun i => Or.imp (hguards i) (howns i)
  have hbit : ∀ l : LeafNode D, l.locked.testBit 0 = true →
      ({ l with isAbandoned := true } : LeafNode D).locked.testBit 0 = true := fun _ hb => hb
  refine h.quiet ?_ hknows (fun i hi => h.live t i (by rw [hpc]; exact hguards i hi))
    (fun i hi => (h.held t i (hholds i hi)).modify hbit) fun u i hne hu =>
      ⟨(h.held u i hu).modify hbit, fun hi => hne (h.exclusive u t i hu (hholds i hi))⟩
  refine view_move (List.length_modify ..) (fun i => bind_modify fun _ => rfl)
    (fun i => bind_modify fun _ => rfl) (fun a b => ?_) fun i => ?_
  · rw [hpc]
    exact iff_of_false (hlate a b) id
  · rw [hpc]
    by_cases hi : j.leaf = i
    · subst hi
      refine iff_of_true (Or.inl ⟨_, getElem?_modify_of (List.getElem?_eq_getElem hlt), rfl⟩) ?_
      exact Or.inr rfl
    · unfold AbandonedAt
      rw [List.getElem?_modify_ne _ _ hi]
      exact or_congr_right (iff_of_false (hpend i) (Ne.symm hi))

end ChainInv

end Quiet

/-! ## つなぎ替え -/

section Relink

variable {T : Type} {c : ChainState T D} {t : T} {l : SplitterPc} {ids : List LeafId}

theorem SplitterPc.Late.eq {a b : LeafId} (h : l.Late a b) :
    ∃ j, l = .linkRight j a ∧ j.right = some b := by
  cases l with
  | linkRight j last =>
    obtain ⟨rfl, hr⟩ := h
    exact ⟨j, rfl, hr⟩
  | _ => exact h.elim

theorem SplitterPc.Pending.owns {i : LeafId} (h : l.Pending i) : l.Owns i := by
  cases l <;> first | exact h | exact h.elim

/-- 連鎖に在る leaf を見る関係が変わっても、変わった分の leaf がもう連鎖に無ければよい。 -/
structure ChainView.Evolves (v v' : ChainView) : Prop where
  length : v.length ≤ v'.length
  gone : ∀ i, v.gone i → v'.gone i
  prev : ∀ x < v.length, v'.strand.prev x = v.strand.prev x ∨
    ∀ y, v.strand.prev x = some y → v'.gone y
  next : ∀ x < v.length, v'.strand.next x = v.strand.next x ∨
    ∀ y, v.strand.next x = some y → v'.gone y

theorem ChainView.Saw.mono {v v' : ChainView} {now now' seen : Option LeafId}
    (h : v.Saw now seen) (hlen : v.length ≤ v'.length) (hgone : ∀ i, v.gone i → v'.gone i)
    (hnow : now' = now ∨ ∀ y, now = some y → v'.gone y) : v'.Saw now' seen := by
  intro y hy
  obtain ⟨hlt, hor⟩ := h y hy
  refine ⟨hlt.trans_le hlen, ?_⟩
  rcases hor with hor | hor
  · exact hnow.imp (fun e => e.trans hor) fun hall => hall y hor
  · exact Or.inr (hgone y hor)

theorem SplitJob.Seen.mono {v v' : ChainView} {j : SplitJob} (h : j.Seen v) (hv : v.Evolves v') :
    j.Seen v' :=
  ⟨h.leaf.trans_le hv.length, h.left.mono hv.length hv.gone (hv.prev _ h.leaf),
    h.right.mono hv.length hv.gone (hv.next _ h.leaf)⟩

theorem SplitterPc.Knows.mono {v v' : ChainView} (h : l.Knows v) (hv : v.Evolves v')
    (hlate : ∀ j last, l = .linkRight j last → ∀ r, j.right = some r →
      v'.strand.prev r = v.strand.prev r) : l.Knows v' := by
  cases l with
  | getPrev => exact lt_of_lt_of_le h hv.length
  | getNext x orphan left =>
    exact ⟨h.1.trans_le hv.length, h.2.mono hv.length hv.gone (hv.prev x h.1)⟩
  | tryReadLock => exact SplitJob.Seen.mono h hv
  | lockLoad => exact ⟨h.1.mono hv, h.2⟩
  | lockCas => exact ⟨h.1.mono hv, h.2⟩
  | undoLeft => exact h
  | getWriteLock => exact ⟨h.1.mono hv, h.2⟩
  | getData => exact ⟨h.1.mono hv, h.2⟩
  | getReadLock => exact ⟨h.1.mono hv, h.2⟩
  | linkLeft => exact ⟨h.1.mono hv, h.2⟩
  | linkRight j last => exact ⟨h.1, fun r hr => (hlate j last rfl r hr).trans (h.2 r hr)⟩
  | setAbandoned => exact ⟨h.1.trans_le hv.length, h.2⟩
  | releaseLeaf => exact h
  | releaseLeft => exact h
  | _ => trivial

namespace ChainInv

omit [Arith D]

theorem lt_of_mem (h : ChainInv c ids) {i : LeafId} (hi : i ∈ ids) : i < c.shared.length :=
  ((h.mem i).mp hi).1

theorem not_gone (h : ChainInv c ids) {i : LeafId} (hi : i ∈ ids) : ¬ c.Gone i :=
  ((h.mem i).mp hi).2

theorem lt_of_held (h : ChainInv c ids) {i : LeafId} (hi : (c.pc t).Holds i) :
    i < c.shared.length := by
  obtain ⟨l, hl, -⟩ := h.held t i hi
  exact (List.getElem?_eq_some_iff.mp hl).1

/-- 連鎖から外した leaf も heap に在る。 -/
theorem lt_of_gone (h : ChainInv c ids) {i : LeafId} (hi : c.Gone i) : i < c.shared.length := by
  rcases hi with ⟨l, hl, -⟩ | ⟨u, hu⟩
  · exact (List.getElem?_eq_some_iff.mp hl).1
  · exact h.lt_of_held (Or.inr hu.owns)

/-- 両隣に lock を取った leaf は、今もその間に在る。 -/
theorem neighbors (h : ChainInv c ids) {j : SplitJob} {data : List (Key × Payload)}
    {left right : LeafId} (hpc : c.pc t = .linkLeft j data) (hl : j.left = some left)
    (hr : j.right = some right) : ∃ A B, ids = A ++ left :: j.leaf :: right :: B := by
  have hguards : ∀ i, i = j.leaf ∨ j.Sides i → i ∈ ids := fun i hi => h.live t i (by rwa [hpc])
  have hleaf := hguards j.leaf (Or.inl rfl)
  have hleft := hguards left (Or.inr (Or.inl hl))
  have hright := hguards right (Or.inr (Or.inr hr))
  have hknows := h.pcs t
  rw [hpc] at hknows
  have hprev := ((hknows.1.left left hl).2).resolve_right (h.not_gone hleft)
  have hnext := ((hknows.1.right right hr).2).resolve_right (h.not_gone hright)
  refine h.woven.exists_neighbors hleaf hprev (fun a ⟨u, hlate⟩ => ?_) hnext
  -- `prev` がこれから書かれるなら、今の `prev` は連鎖から外されている
  obtain ⟨j', hu, hj'⟩ := hlate.eq
  have hknows' := h.pcs u
  rw [hu] at hknows'
  obtain rfl := Option.some.inj (hprev.symm.trans (hknows'.2 j.leaf hj'))
  exact h.not_gone hleft (Or.inr ⟨u, by rw [hu]; exact rfl⟩)

/-- `right` の `prev` を書こうとしている thread は一つ以下である。 -/
theorem late_unique (h : ChainInv c ids) {u : T} {a b : LeafId} (hu : (c.pc u).Late a b)
    (ht : (c.pc t).Guards b) : u = t := by
  obtain ⟨j, hj, hb⟩ := hu.eq
  refine h.exclusive u t b (Or.inl ?_) (Or.inl ht)
  rw [hj]
  exact Or.inr hb

end ChainInv

variable [DecidableEq T]

namespace ChainInv

omit [Arith D]

variable {m : List (LeafNode D)} {j : SplitJob} {data : List (Key × Payload)}
  {left right last : LeafId} {new : List (Link D)} {A B : List LeafId}

theorem gone_linkLeft (hpc : c.pc t = .linkLeft j data)
    (hm : Published c.shared m left right last new) (i : LeafId) :
    ChainState.Gone (c.move t m (.linkRight j last)) i ↔ c.Gone i ∨ i = j.leaf := by
  show AbandonedAt m i ∨ (∃ u, ((c.move t m (.linkRight j last)).pc u).Pending i) ↔
    (AbandonedAt c.shared i ∨ ∃ u, (c.pc u).Pending i) ∨ i = j.leaf
  rw [hm.abandonedAt_iff, exists_pc_move (P := fun l => l.Pending i),
    exists_pc (c := c) (t := t) (P := fun l => l.Pending i), hpc]
  show _ ∨ i = j.leaf ∨ _ ↔ (_ ∨ False ∨ _) ∨ i = j.leaf
  rw [false_or, or_left_comm, or_comm]

/-- 新しい連鎖に在る leaf。 -/
theorem mem_linkLeft (h : ChainInv c (A ++ left :: j.leaf :: right :: B))
    (hpc : c.pc t = .linkLeft j data) (hm : Published c.shared m left right last new) (i : LeafId) :
    i ∈ A ++ left :: (new.map Prod.fst ++ right :: B) ↔
      i < m.length ∧ ¬ ChainState.Gone (c.move t m (.linkRight j last)) i := by
  rw [gone_linkLeft hpc hm]
  have hlt := hm.lt_length
  have hold : i ∈ A ++ left :: (new.map Prod.fst ++ right :: B) ↔
      (i ∈ A ++ left :: j.leaf :: right :: B ∧ i ≠ j.leaf) ∨ i ∈ new.map Prod.fst := by
    have hnd := h.woven.nodup
    have hne : j.leaf ∉ A ++ left :: right :: B := by
      rw [List.append_cons] at hnd
      have hmid := (List.nodup_middle.mp hnd)
      rw [List.append_assoc, List.singleton_append] at hmid
      exact (List.nodup_cons.mp hmid).1
    have hiff : i ∈ A ++ left :: right :: B → i ≠ j.leaf := fun hi he => hne (he ▸ hi)
    simp only [List.mem_append, List.mem_cons] at hiff ⊢
    tauto
  rw [hold, h.mem i, hm.mem_ids]
  constructor
  · rintro (⟨⟨hi, hg⟩, hne⟩ | ⟨hge, hi⟩)
    · exact ⟨hi.trans hlt, not_or.mpr ⟨hg, hne⟩⟩
    · have hleaf := h.lt_of_mem (i := j.leaf) (by simp)
      refine ⟨hi, not_or.mpr ⟨fun hg => ?_, fun he => ?_⟩⟩
      · exact absurd (h.lt_of_gone hg) (Nat.not_lt.mpr hge)
      · exact absurd (he ▸ hleaf) (Nat.not_lt.mpr hge)
  · rintro ⟨hi, hg⟩
    obtain ⟨hg, hne⟩ := not_or.mp hg
    by_cases hold : i < c.shared.length
    · exact Or.inl ⟨⟨hold, hg⟩, hne⟩
    · exact Or.inr ⟨Nat.not_lt.mp hold, hi⟩

/-- 新しい leaf の列は、両隣の間につながっている。 -/
theorem woven_linkLeft (h : ChainInv c (A ++ left :: j.leaf :: right :: B))
    (hpc : c.pc t = .linkLeft j data) (hr : j.right = some right)
    (hm : Published c.shared m left right last new) :
    Woven (ChainState.view (c.move t m (.linkRight j last))).strand
      (A ++ left :: (new.map Prod.fst ++ right :: B)) := by
  have hleft := h.lt_of_mem (i := left) (by simp)
  have hout : ∀ a, a ∉ new.map Prod.fst → a < c.shared.length ∨ m.length ≤ a := by
    intro a ha
    by_contra hc
    obtain ⟨hge, hlt⟩ := not_or.mp hc
    exact ha (hm.mem_ids.mpr ⟨Nat.not_lt.mp hge, Nat.not_le.mp hlt⟩)
  have hge : ∀ a, m.length ≤ a → c.shared[a]? = none ∧ m[a]? = none := fun a ha =>
    ⟨List.getElem?_eq_none (hm.lt_length.le.trans ha), List.getElem?_eq_none ha⟩
  refine h.woven.splice ?_ ?_ ?_ ?_ ?_ ?_ ?_ ?_
  · rw [hm.ids]
    exact List.nodup_range'
  · exact fun a ha hold => absurd (h.lt_of_mem hold) (Nat.not_lt.mpr (hm.mem_ids.mp ha).1)
  · intro a ha
    show prevOf m a = prevOf c.shared a
    rcases hout a ha with hlt | hle
    · exact hm.prevOf_old hlt
    · rw [prevOf, prevOf, (hge a hle).1, (hge a hle).2]
  · intro a ha hne
    show nextOf m a = nextOf c.shared a
    rcases hout a ha with hlt | hle
    · exact hm.nextOf_old hlt (Ne.symm hne)
    · rw [nextOf, nextOf, (hge a hle).1, (hge a hle).2]
  · rintro a b ⟨u, hu⟩
    refine ⟨u, ?_⟩
    rcases c.move_pc_cases t u m (.linkRight j last) with ⟨rfl, -⟩ | ⟨-, e⟩
    · rw [hpc] at hu
      exact hu.elim
    · rwa [e]
  · refine List.isChain_cons.mpr ⟨fun b hb => ?_, ?_⟩
    · show nextOf m left = some b
      rw [hm.nextOf_left hleft, ← hb, hm.ids]
      obtain ⟨k, hk⟩ : ∃ k, new.length = k + 1 :=
        Nat.exists_eq_succ_of_ne_zero (List.length_pos_iff.mpr hm.ne_nil).ne'
      rw [hk, List.range'_succ]
      rfl
    · exact DoublyLinked.forward hm.linked fun y hy => hm.getElem?_new hy
  · exact DoublyLinked.back hm.linked fun y hy => hm.getElem?_new hy
  · intro a ha
    refine ⟨t, ?_⟩
    rw [c.move_pc_self]
    refine ⟨?_, hr⟩
    have hlast : (left :: new.map Prod.fst).getLast? = some last := by
      rw [hm.ids, hm.last_eq, List.getLast?_cons, List.getLast?_range']
      rw [if_neg (List.length_pos_iff.mpr hm.ne_nil).ne']
      rfl
    exact Option.some.inj (ha.symm.trans hlast)

omit [DecidableEq T] in
/-- 新しい leaf の前後も heap に在る。 -/
theorem range_linkLeft (h : ChainInv c (A ++ left :: j.leaf :: right :: B))
    (hm : Published c.shared m left right last new) (i y : LeafId)
    (hy : prevOf m i = some y ∨ nextOf m i = some y) : y < m.length := by
  have hlt := hm.lt_length
  have hleft := (h.lt_of_mem (i := left) (by simp))
  have hright := (h.lt_of_mem (i := right) (by simp)).trans hlt
  by_cases hi : i < c.shared.length
  · rw [hm.prevOf_old hi] at hy
    by_cases hil : left = i
    · subst hil
      rcases hy with hy | hy
      · exact (h.range left y (Or.inl hy)).trans hlt
      · rw [hm.nextOf_left hi] at hy
        exact Option.some.inj hy ▸ hlt
    · rw [hm.nextOf_old hi hil] at hy
      exact (h.range i y hy).trans hlt
  · have hstored : ∀ z ∈ new, m[z.1]? = some z.2 := fun z hz => hm.getElem?_new hz
    have hmem : i ∈ new.map Prod.fst := by
      refine hm.mem_ids.mpr ⟨Nat.not_lt.mp hi, ?_⟩
      by_contra hc
      rw [prevOf, nextOf, List.getElem?_eq_none (Nat.not_lt.mp hc)] at hy
      rcases hy with hy | hy <;> cases hy
    rcases hy with hy | hy
    · obtain ⟨d, hd, hdi⟩ := exists_before (DoublyLinked.back hm.linked hstored) hmem
      obtain rfl := Option.some.inj (hdi.symm.trans hy)
      rcases List.mem_cons.mp hd with rfl | hd
      · exact hleft.trans hlt
      · exact (hm.mem_ids.mp hd).2
    · obtain ⟨d, hd, hdi⟩ := exists_after (DoublyLinked.forward hm.linked hstored) hmem
      obtain rfl := Option.some.inj (hdi.symm.trans hy)
      rcases List.mem_append.mp hd with hd | hd
      · exact (hm.mem_ids.mp hd).2
      · rwa [List.mem_singleton.mp hd]

/-- **左隣からつなぐ一歩。** -/
theorem linkLeft (h : ChainInv c ids) (hpc : c.pc t = .linkLeft j data) (hl : j.left = some left)
    (hr : j.right = some right) (hm : Published c.shared m left right last new) :
    ∃ A B, ids = A ++ left :: j.leaf :: right :: B ∧ ChainInv (c.move t m (.linkRight j last))
      (A ++ left :: (new.map Prod.fst ++ right :: B)) := by
  obtain ⟨A, B, rfl⟩ := h.neighbors hpc hl hr
  refine ⟨A, B, rfl, h.woven_linkLeft hpc hr hm, h.mem_linkLeft hpc hm, h.range_linkLeft hm, ?_, ?_,
    ?_, ?_⟩
  · have hleft := h.lt_of_mem (i := left) (by simp)
    have hevolves : c.view.Evolves (ChainState.view (c.move t m (.linkRight j last))) := by
      refine ⟨hm.lt_length.le, fun i hi => (gone_linkLeft hpc hm i).mpr (Or.inl hi),
        fun x hx => Or.inl (hm.prevOf_old hx), fun x hx => ?_⟩
      by_cases hxl : left = x
      · -- 左隣の `next` は、外される leaf だった
        subst hxl
        refine Or.inr fun y hy => (gone_linkLeft hpc hm y).mpr (Or.inr ?_)
        exact Option.some.inj (hy.symm.trans h.woven.next_eq)
      · exact Or.inl (hm.nextOf_old hx hxl)
    intro u
    have hu := h.pcs u
    rcases c.move_pc_cases t u m (.linkRight j last) with ⟨-, e⟩ | ⟨-, e⟩
    · have hknows := h.pcs t
      rw [hpc] at hknows
      rw [e]
      refine ⟨hknows.2, fun r hr' => ?_⟩
      obtain rfl := Option.some.inj (hr.symm.trans hr')
      have hright := h.lt_of_mem (i := right) (by simp)
      have hprev := h.woven
      rw [List.append_cons] at hprev
      refine (hm.prevOf_old hright).trans (hprev.prev_eq.resolve_right ?_)
      rintro ⟨w, hw⟩
      have hguard : (c.pc t).Guards right := by
        rw [hpc]
        exact Or.inr (Or.inr hr)
      rw [h.late_unique hw hguard, hpc] at hw
      exact hw
    · rw [e]
      refine hu.mono hevolves fun j' last' hj' r hr' => ?_
      rw [hj'] at hu
      have hlt : r < c.shared.length := by
        refine h.lt_of_mem (h.live u r ?_)
        rw [hj']
        exact Or.inr hr'
      exact hm.prevOf_old hlt
  · intro u i hu
    rcases c.move_pc_cases t u m (.linkRight j last) with ⟨-, e⟩ | ⟨hne, e⟩
    · rw [e] at hu
      rcases hu with hu | hu
      · obtain rfl := Option.some.inj (hl.symm.trans hu)
        simp
      · obtain rfl := Option.some.inj (hr.symm.trans hu)
        simp
    · rw [e] at hu
      have hmem := h.live u i hu
      have hleaf : i ≠ j.leaf := by
        rintro rfl
        refine hne (h.exclusive u t j.leaf (Or.inl hu) (Or.inl ?_))
        rw [hpc]
        exact Or.inl rfl
      simp only [List.mem_append, List.mem_cons] at hmem ⊢
      tauto
  · intro u i hu
    rcases c.move_pc_cases t u m (.linkRight j last) with ⟨-, e⟩ | ⟨-, e⟩
    · rw [e] at hu
      refine hm.lockedAt_old (h.held t i ?_)
      rw [hpc]
      exact Or.inl (hu.elim Or.inr Or.inl)
    · exact hm.lockedAt_old (h.held u i (e ▸ hu))
  · have hback : ∀ u i, ((c.move t m (.linkRight j last)).pc u).Holds i → (c.pc u).Holds i := by
      intro u i hu
      rcases c.move_pc_cases t u m (.linkRight j last) with ⟨rfl, e⟩ | ⟨-, e⟩
      · rw [e] at hu
        rw [hpc]
        exact Or.inl (hu.elim Or.inr Or.inl)
      · exact e ▸ hu
    exact fun u w i hu hw => h.exclusive u w i (hback u i hu) (hback w i hw)

omit [DecidableEq T] in
theorem prevOf_setPrevLeaf_ne {x : LeafId} {p : Option LeafId} {i : LeafId} (hne : x ≠ i)
    (m : List (LeafNode D)) : prevOf (setPrevLeaf m x p) i = prevOf m i := by
  rw [prevOf, setPrevLeaf, List.getElem?_modify_ne _ _ hne]
  rfl

/-- **右隣からつなぐ一歩。** -/
theorem linkRight (h : ChainInv c ids) (hpc : c.pc t = .linkRight j last)
    (hr : j.right = some right) :
    ChainInv (c.move t (setPrevLeaf c.shared right (some last)) (.setAbandoned j)) ids := by
  have hknows := h.pcs t
  rw [hpc] at hknows
  obtain ⟨hapart, hprev⟩ := hknows
  replace hprev : prevOf c.shared right = some j.leaf := hprev right hr
  have hguard : (c.pc t).Guards right := by
    rw [hpc]
    exact Or.inr hr
  have hmem := h.live t right hguard
  have hgone : c.Gone j.leaf := Or.inr ⟨t, by rw [hpc]; exact rfl⟩
  have hgone' : ∀ i, ChainState.Gone
      (c.move t (setPrevLeaf c.shared right (some last)) (.setAbandoned j)) i ↔ c.Gone i := by
    intro i
    show AbandonedAt _ i ∨ (∃ u, _) ↔ AbandonedAt c.shared i ∨ ∃ u, _
    rw [exists_pc_move (P := fun l => l.Pending i),
      exists_pc (c := c) (t := t) (P := fun l => l.Pending i), hpc]
    exact or_congr_left (exists_modify_iff fun _ => Iff.rfl)
  have hlen : (setPrevLeaf c.shared right (some last)).length = c.shared.length :=
    List.length_modify ..
  have hnext : ∀ i, nextOf (setPrevLeaf c.shared right (some last)) i = nextOf c.shared i :=
    fun i => bind_modify fun _ => rfl
  have hset : prevOf (setPrevLeaf c.shared right (some last)) right = some last := by
    rw [prevOf, setPrevLeaf, List.getElem?_modify_eq, List.getElem?_eq_getElem (h.lt_of_mem hmem)]
    rfl
  have hholds : ∀ u i, ((c.move t (setPrevLeaf c.shared right (some last))
      (.setAbandoned j)).pc u).Holds i → (c.pc u).Holds i := by
    intro u i hu
    rcases c.move_pc_cases t u (setPrevLeaf c.shared right (some last)) (.setAbandoned j) with
      ⟨rfl, e⟩ | ⟨-, e⟩
    · rw [e] at hu
      rwa [hpc]
    · exact e ▸ hu
  obtain ⟨A, B, a, rfl, ha⟩ := h.woven.exists_prev hmem (by
    show prevOf c.shared right ≠ none
    rw [hprev]
    exact Option.some_ne_none _)
  -- `prev` が古いので、`right` の前は新しい leaf の最後のものである
  obtain rfl : a = last := by
    rcases ha with ha | ⟨u, hu⟩
    · obtain rfl := Option.some.inj (hprev.symm.trans ha)
      exact absurd hgone (h.not_gone (by simp))
    · obtain ⟨j', hj', -⟩ := hu.eq
      rw [h.late_unique hu hguard, hpc] at hj'
      exact ((SplitterPc.linkRight.inj hj').2).symm
  refine ⟨h.woven.settle hnext (fun i hi => prevOf_setPrevLeaf_ne (Ne.symm hi) _) hset ?_,
    fun i => ?_, fun i y hy => ?_, fun u => ?_, fun u i hu => ?_, fun u i hu => ?_,
    fun u w i hu hw => h.exclusive u w i (hholds u i hu) (hholds w i hw)⟩
  · rintro d b hb ⟨u, hu⟩
    refine ⟨u, ?_⟩
    rcases c.move_pc_cases t u (setPrevLeaf c.shared right (some a)) (.setAbandoned j) with
      ⟨rfl, -⟩ | ⟨-, e⟩
    · rw [hpc] at hu
      exact absurd (Option.some.inj (hu.2.symm.trans hr)) hb
    · rwa [e]
  · rw [hgone', Threads.move_shared, hlen]
    exact h.mem i
  · rw [Threads.move_shared, hnext] at hy
    rw [Threads.move_shared, hlen]
    by_cases hi : right = i
    · subst hi
      rcases hy with hy | hy
      · exact Option.some.inj (hset.symm.trans hy) ▸ h.lt_of_mem (i := a) (by simp)
      · exact h.range right y (Or.inr hy)
    · rw [prevOf_setPrevLeaf_ne hi] at hy
      exact h.range i y hy
  · have hevolves : c.view.Evolves (ChainState.view
        (c.move t (setPrevLeaf c.shared right (some a)) (.setAbandoned j))) := by
      refine ⟨hlen.ge, fun i hi => (hgone' i).mpr hi, fun x _ => ?_, fun x _ => Or.inl (hnext x)⟩
      by_cases hx : right = x
      · subst hx
        refine Or.inr fun y hy => (hgone' y).mpr ?_
        obtain rfl := Option.some.inj (hprev.symm.trans hy)
        exact hgone
      · exact Or.inl (prevOf_setPrevLeaf_ne hx _)
    rcases c.move_pc_cases t u (setPrevLeaf c.shared right (some a)) (.setAbandoned j) with
      ⟨-, e⟩ | ⟨hne, e⟩
    · rw [e]
      refine ⟨?_, hapart⟩
      show j.leaf < (setPrevLeaf c.shared right (some a)).length
      rw [hlen]
      exact h.lt_of_gone hgone
    · rw [e]
      refine (h.pcs u).mono hevolves fun j' last' hj' r hr' => ?_
      refine prevOf_setPrevLeaf_ne (fun hrr => hne ?_) _
      refine h.exclusive u t right (Or.inl ?_) (Or.inl hguard)
      rw [hj', hrr]
      exact Or.inr hr'
  · rcases c.move_pc_cases t u (setPrevLeaf c.shared right (some a)) (.setAbandoned j) with
      ⟨rfl, e⟩ | ⟨-, e⟩
    · rw [e] at hu
      exact h.live u i (by rwa [hpc])
    · exact h.live u i (e ▸ hu)
  · exact (h.held u i (hholds u i hu)).modify fun _ hb => hb

end ChainInv

end Relink

/-! ## 一歩 -/

/-- 連鎖の leaf を、読み出した組から作った新しい leaf の列に置き換える一歩。 -/
inductive Replaced {T : Type} (f : Fitter D) (c c' : ChainState T D) :
    List LeafId → List LeafId → Prop
  | intro {t : T} {j : SplitJob} {data : List (Key × Payload)} {left right last : LeafId}
      {new : List (Link D)} {A B : List LeafId} (hpc : c.pc t = .linkLeft j data)
      (hm : Published c.shared c'.shared left right last new)
      (hnew : new = linkLeaves c.shared.length (some right) (freshLeaves
        (makeSegmentation f epsilonLeafNode (data.map Prod.fst)) data 0 (some left)
          c.shared.length)) :
      Replaced f c c' (A ++ left :: j.leaf :: right :: B)
        (A ++ left :: (new.map Prod.fst ++ right :: B))

theorem Replaced.head {T : Type} {f : Fitter D} {c c' : ChainState T D} {ids ids' : List LeafId}
    (h : Replaced f c c' ids ids') : ids'.head? = ids.head? := by
  cases h with
  | @intro t j data left right last new A B => cases A <;> rfl

section Step

variable {T : Type} [DecidableEq T] {f : Fitter D} {c c' : ChainState T D} {t : T}
  {ids : List LeafId}

namespace SplitterPc

variable {j : SplitJob} {g : Guarded}

/-- lock が取れなかったときは、取ってあった lock だけを持っている。 -/
theorem failed_sameLinks {l₀ : SplitterPc} (hlate : ∀ a b, ¬ l₀.Late a b)
    (hpend : ∀ i, ¬ l₀.Pending i) : l₀.SameLinks (failed j g) := by
  cases g <;> exact ⟨fun a b => iff_of_false id (hlate a b), fun i => iff_of_false id (hpend i)⟩

theorem guards_failed {i : LeafId} (h : (failed j g).Guards i) : j.Before g i := by
  cases g <;> exact h

theorem not_owns_failed {i : LeafId} : ¬ (failed j g).Owns i := by
  cases g <;> exact id

theorem knows_failed {v : ChainView} (h : g = .right → j.left ≠ some j.leaf) :
    (failed j g).Knows v := by
  cases g with
  | self => trivial
  | left => trivial
  | right => exact h rfl

theorem locked_sameLinks {l₀ : SplitterPc} (hlate : ∀ a b, ¬ l₀.Late a b)
    (hpend : ∀ i, ¬ l₀.Pending i) : l₀.SameLinks (locked j g) := by
  cases g <;> exact ⟨fun a b => iff_of_false id (hlate a b), fun i => iff_of_false id (hpend i)⟩

theorem guards_locked {i x : LeafId} (hg : j.at g = some x) (h : (locked j g).Guards i) :
    j.Before g i ∨ i = x := by
  cases g with
  | self => exact Or.inr ((h : i = j.leaf).trans (Option.some.inj hg))
  | left =>
    refine (h : i = j.leaf ∨ j.left = some i).imp id fun hi => ?_
    exact Option.some.inj (hi.symm.trans hg)
  | right =>
    rcases (h : i = j.leaf ∨ j.left = some i ∨ j.right = some i) with hi | hi | hi
    · exact Or.inl (Or.inl hi)
    · exact Or.inl (Or.inr hi)
    · exact Or.inr (Option.some.inj (hi.symm.trans hg))

theorem not_owns_locked {i : LeafId} : ¬ (locked j g).Owns i := by
  cases g <;> exact id

/-- 取った lock の leaf は、前に取った leaf とは別である。 -/
theorem knows_locked {v : ChainView} {x : LeafId} (hg : j.at g = some x)
    (hseen : j.Seen v) (hleft : g = .right → j.left ≠ some j.leaf)
    (hne : ∀ i, j.Before g i → i ≠ x) : (locked j g).Knows v := by
  cases g with
  | self => exact ⟨hseen, fun h => by cases h⟩
  | left =>
    refine ⟨hseen, fun _ hl => hne j.leaf rfl ?_⟩
    exact Option.some.inj (hl.symm.trans hg)
  | right =>
    refine ⟨hseen, hleft rfl, fun hr => hne j.leaf (Or.inl rfl) ?_, fun y hy hr => ?_⟩
    · exact Option.some.inj (hr.symm.trans hg)
    · exact hne y (Or.inr hy) (Option.some.inj (hr.symm.trans hg))

end SplitterPc

namespace ChainInv

omit [Arith D] [DecidableEq T] in
/-- leaf への書き込みは、連鎖に触れない。 -/
theorem env (h : ChainInv c ids) {m : List (LeafNode D)} (hm : Rewrites c.shared m) :
    ChainInv (⟨m, c.pc⟩ : ChainState T D) ids := by
  obtain ⟨x, blocks, n, rfl⟩ := hm
  have hlen : (c.shared.modify x fun l => { l with blocks := blocks, overflowNumber := n }).length =
    c.shared.length := List.length_modify ..
  have hview : ChainState.view (⟨c.shared.modify x fun l =>
      { l with blocks := blocks, overflowNumber := n }, c.pc⟩ : ChainState T D) = c.view := by
    refine ChainView.ext hlen ?_ (funext fun i => propext (or_congr_left ?_))
    · show Strand.mk (prevOf _) (nextOf _) _ = Strand.mk (prevOf _) (nextOf _) _
      congr 1
      · exact funext fun i => bind_modify fun _ => rfl
      · exact funext fun i => bind_modify fun _ => rfl
    · exact exists_modify_iff fun _ => Iff.rfl
  have hgone := congrArg ChainView.gone hview
  refine ⟨by rw [hview]; exact h.woven, fun i => ?_, ?_, fun u => by rw [hview]; exact h.pcs u,
    h.live, fun u i hu => (h.held u i hu).modify fun _ hb => hb, h.exclusive⟩
  · rw [show ChainState.Gone _ = c.Gone from hgone, hlen]
    exact h.mem i
  · rw [show prevOf _ = prevOf c.shared from congrArg (fun v => v.strand.prev) hview,
      show nextOf _ = nextOf c.shared from congrArg (fun v => v.strand.next) hview, hlen]
    exact h.range

omit [Arith D] in
/-- 捨てられていない leaf の lock を取る一歩。 -/
theorem lockCas (h : ChainInv c ids) {j : SplitJob} {g : Guarded} {v : Nat} {x : LeafId}
    {y : LeafNode D} (hpc : c.pc t = .lockCas j g v) (hg : j.at g = some x)
    (hx : c.shared[x]? = some y) (hv : y.locked = v) (halive : y.isAbandoned = false) :
    ChainInv (c.move t (c.shared.modify x fun l => { l with locked := v ||| 1 }) (.locked j g))
      ids := by
  subst hv
  have hknows := h.pcs t
  rw [hpc] at hknows
  obtain ⟨hseen, hleft, hfree⟩ := hknows
  -- 掛かっている lock の leaf ではない
  have hnone : ∀ {u i}, (c.pc u).Holds i → i ≠ x := by
    rintro u i hu rfl
    obtain ⟨z, hz, hbit⟩ := h.held u i hu
    obtain rfl := Option.some.inj (hx.symm.trans hz)
    rw [hfree] at hbit
    cases hbit
  have hmem : x ∈ ids := by
    refine (h.mem x).mpr ⟨(List.getElem?_eq_some_iff.mp hx).1, ?_⟩
    rintro (⟨z, hz, hab⟩ | ⟨u, hu⟩)
    · obtain rfl := Option.some.inj (hx.symm.trans hz)
      rw [halive] at hab
      cases hab
    · exact hnone (Or.inr hu.owns) rfl
  refine h.acquire hpc (SplitterPc.locked_sameLinks (fun _ _ => id) fun _ => id) hx hfree hmem ?_
    (fun i => SplitterPc.guards_locked hg) fun _ => SplitterPc.not_owns_locked
  refine SplitterPc.knows_locked hg hseen hleft fun i hi => hnone (u := t) (Or.inl ?_)
  rwa [hpc]

omit [Arith D] in
/-- lock を取れずにやめる一歩。 -/
theorem giveUp (h : ChainInv c ids) {j : SplitJob} {g : Guarded} {l₀ : SplitterPc}
    (hpc : c.pc t = l₀) (hlate : ∀ a b, ¬ l₀.Late a b) (hpend : ∀ i, ¬ l₀.Pending i)
    (hguards : ∀ i, j.Before g i → l₀.Guards i) (hleft : g = .right → j.left ≠ some j.leaf) :
    ChainInv (c.move t c.shared (.failed j g)) ids :=
  h.still hpc (SplitterPc.failed_sameLinks hlate hpend) (SplitterPc.knows_failed hleft)
    (fun i hi => hguards i (SplitterPc.guards_failed hi))
    fun _ hi => absurd hi SplitterPc.not_owns_failed

theorem testBit_zero_add {a b : Nat} (hb : b % 2 = 0) : (a + b).testBit 0 = a.testBit 0 := by
  rw [Nat.testBit_zero, Nat.testBit_zero, Nat.add_mod, hb, Nat.add_zero, Nat.mod_mod]

omit [Arith D] in
/-- orphan の書き込みを止める一歩と、読み出しを止める一歩。 -/
theorem hold (h : ChainInv c ids) {j : SplitJob} {l₀ l : SplitterPc} {n : Nat} (hn : n % 2 = 0)
    (hpc : c.pc t = l₀) (hsame : l₀.SameLinks l) (hknows : l.Knows c.view)
    (hguards : ∀ i, l.Guards i → l₀.Guards i) (howns : ∀ i, l.Owns i → l₀.Owns i) :
    ChainInv (c.move t (if j.orphan then c.shared.modify j.leaf fun l =>
      { l with locked := l.locked + n } else c.shared) l) ids := by
  split
  · refine h.write hpc hsame ⟨fun _ => rfl, fun _ => rfl, fun _ => rfl⟩ (fun l hbit => ?_) hknows
      hguards howns
    exact (testBit_zero_add hn).trans hbit
  · exact h.still hpc hsame hknows hguards howns

/-- **一歩は不変条件を保つ。** 連鎖が変わるのは、左隣の `next` を書く一歩だけである。 -/
theorem step (h : ChainInv c ids) {e : Option T} (hfresh : c.Fresh e) (hs : c.Step f e c') :
    ChainInv c' ids ∨ ∃ ids', Replaced f c c' ids ids' ∧ ChainInv c' ids' := by
  cases hs with
  | env hm => exact Or.inl (h.env hm)
  | @thread t m l hs =>
    have hknows := h.pcs t
    generalize hl : c.pc t = l₀ at hs hknows
    generalize hm : c.shared = m₀ at hs
    cases hs with
    | call orphan hx =>
      subst hm
      exact Or.inl (h.still hl ⟨fun _ _ => Iff.rfl, fun _ => Iff.rfl⟩
        (List.getElem?_eq_some_iff.mp hx).1 (fun _ => id) fun _ => id)
    | @getPrev x l orphan hx =>
      subst hm
      have hprev : prevOf c.shared x = l.prev := by rw [prevOf, hx]; rfl
      exact Or.inl (h.still hl ⟨fun _ _ => Iff.rfl, fun _ => Iff.rfl⟩
        ⟨hknows, fun y hy => ⟨h.range x y (Or.inl (hprev.trans hy)), Or.inl (hprev.trans hy)⟩⟩
        (fun _ => id) fun _ => id)
    | @getNext x l orphan left hx =>
      subst hm
      have hnext : nextOf c.shared x = l.next := by rw [nextOf, hx]; rfl
      exact Or.inl (h.still hl ⟨fun _ _ => Iff.rfl, fun _ => Iff.rfl⟩ ⟨hknows.1, hknows.2,
        fun y hy => ⟨h.range x y (Or.inr (hnext.trans hy)), Or.inl (hnext.trans hy)⟩⟩
        (fun _ => id) fun _ => id)
    | tryReadLock j =>
      subst hm
      exact Or.inl (h.still hl ⟨fun _ _ => Iff.rfl, fun _ => Iff.rfl⟩
        ⟨hknows, fun hg => by cases hg⟩ (fun _ => id) fun _ => id)
    | tryReadLockFailed j =>
      subst hm
      exact Or.inl (h.still hl ⟨fun _ _ => Iff.rfl, fun _ => Iff.rfl⟩ trivial (fun _ => id)
        fun _ => id)
    | lockNone j g hg =>
      subst hm
      exact Or.inl (h.giveUp hl (fun _ _ => id) (fun _ => id) (fun _ => id) hknows.2)
    | @lockLoad j g x y hg hx =>
      subst hm
      refine Or.inl ?_
      cases hbit : y.locked.testBit 0 with
      | true => exact h.giveUp hl (fun _ _ => id) (fun _ => id) (fun _ => id) hknows.2
      | false =>
        exact h.still hl ⟨fun _ _ => Iff.rfl, fun _ => Iff.rfl⟩ ⟨hknows.1, hknows.2, hbit⟩
          (fun _ => id) fun _ => id
    | @lockCas j g v x y hg hx hv =>
      subst hm
      exact Or.inl (h.lockCas hl hg hx hv (hfresh t j g v x y rfl hl hg hx hv))
    | lockCasFailed j g v hg hx hv =>
      subst hm
      exact Or.inl (h.giveUp hl (fun _ _ => id) (fun _ => id) (fun _ => id) hknows.2.1)
    | @undoLeft j x hg =>
      subst hm
      refine Or.inl (h.release hl ⟨fun _ _ => Iff.rfl, fun _ => Iff.rfl⟩ (Or.inl (Or.inr hg))
        trivial (fun i hi => ⟨Or.inl hi, ?_⟩) fun _ => False.elim)
      rintro rfl
      exact hknows (hg.trans (congrArg some hi))
    | undoLeaf j =>
      subst hm
      exact Or.inl (h.release hl ⟨fun _ _ => Iff.rfl, fun _ => Iff.rfl⟩ (Or.inl rfl) trivial
        (fun _ => False.elim) fun _ => False.elim)
    | getWriteLock j =>
      subst hm
      exact Or.inl (h.hold (n := 2) rfl hl ⟨fun _ _ => Iff.rfl, fun _ => Iff.rfl⟩ hknows
        (fun _ => id) fun _ => id)
    | getData j hx =>
      subst hm
      exact Or.inl (h.write hl ⟨fun _ _ => Iff.rfl, fun _ => Iff.rfl⟩
        ⟨fun _ => rfl, fun _ => rfl, fun _ => rfl⟩ (fun _ => id) hknows (fun _ => id) fun _ => id)
    | getReadLock j data =>
      subst hm
      exact Or.inl (h.hold (n := 4) rfl hl ⟨fun _ _ => Iff.rfl, fun _ => Iff.rfl⟩ hknows
        (fun _ => id) fun _ => id)
    | @linkLeft j data left right m last hleft hright hm' =>
      subst hm
      have hlt : left < c.shared.length :=
        h.lt_of_held (t := t) (Or.inl (by rw [hl]; exact Or.inr (Or.inl hleft)))
      obtain ⟨new, hpub, hnew⟩ := publish_eq hlt hm'
      obtain ⟨A, B, rfl, hinv⟩ := h.linkLeft hl hleft hright hpub
      exact Or.inr ⟨_, .intro hl hpub hnew, hinv⟩
    | linkRight j last hright =>
      subst hm
      exact Or.inl (h.linkRight hl hright)
    | setAbandoned j =>
      subst hm
      refine Or.inl ?_
      cases ho : j.orphan with
      | true =>
        exact h.abandon hl (fun _ _ => id) (fun _ => id) hknows.2 (fun _ => id) fun _ => id
      | false =>
        exact h.abandon hl (fun _ _ => id) (fun _ => id) hknows.2 (fun _ => id) fun _ => False.elim
    | releaseLeaf j =>
      subst hm
      refine Or.inl (h.release hl ⟨fun _ _ => Iff.rfl, fun _ => Iff.rfl⟩ (Or.inr rfl) hknows
        (fun i hi => ⟨hi, ?_⟩) fun _ => False.elim)
      rintro rfl
      exact hi.elim hknows.left hknows.right
    | @releaseLeft j x hg =>
      subst hm
      refine Or.inl (h.release hl ⟨fun _ _ => Iff.rfl, fun _ => Iff.rfl⟩ (Or.inl (Or.inl hg))
        trivial (fun i hi => ⟨Or.inr hi, ?_⟩) fun _ => False.elim)
      rintro rfl
      exact hknows.sides x hg hi
    | @releaseRight j x hg =>
      subst hm
      exact Or.inl (h.release hl ⟨fun _ _ => Iff.rfl, fun _ => Iff.rfl⟩ (Or.inl hg) trivial
        (fun _ => False.elim) fun _ => False.elim)

end ChainInv

end Step

end Plin
