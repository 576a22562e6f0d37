import Plin.Index.PlinIndex
import Plin.Infra.Threads

/-!
# 並行する分割（`plin_index.h` の `split`）

`BACKGROUND_SPLIT` では、分割はそれぞれ別の thread で走る。`split` は両隣を **lock を取る前に** 読み、自分、
左隣、右隣の順に split lock を取ってから、leaf を新しい leaf の列に置き換える。一つでも取れなければ、取った
lock を放してやめる。

* leaf の `prev` と `next` の読み書き、語 `locked` の読み、CAS、加算、書き込みと、`set_abandoned` のそれぞれを
  一歩とする。
* 新しい leaf は、左隣の `next` に書かれるまで他の thread から見えないので、作るところとつなぐところを一歩と
  する（`publish`）。
* 書き込みは leaf の block をいつでもどう書き換えてもよい（`Rewrites`）。`get_data` は block ごとに読むが、その
  途中の書き込みもこれに含まれるので、一歩でよい。
* 再構築が `smo_lock` を取っていれば、`try_get_read_lock` は失敗する。いつ失敗してもよいとする。

親 slot と `split_log`、`local_table` には触れない。
-/

namespace Plin

open Infra

variable {D : Type} [Arith D]

/-- split lock を取る leaf。 -/
inductive Guarded where
  | self
  | left
  | right
  deriving DecidableEq

/-- 一つの分割。`left` と `right` は lock を取る前に読んだ両隣である。 -/
structure SplitJob where
  leaf : LeafId
  /-- 親 slot が無い。 -/
  orphan : Bool
  left : Option LeafId
  right : Option LeafId
  deriving DecidableEq

def SplitJob.at (j : SplitJob) : Guarded → Option LeafId
  | .self => some j.leaf
  | .left => j.left
  | .right => j.right

/-- 分割する thread の実行位置。 -/
inductive SplitterPc where
  /-- `split` を呼ぶ前か、返った後。 -/
  | idle
  | getPrev (leaf : LeafId) (orphan : Bool)
  | getNext (leaf : LeafId) (orphan : Bool) (left : Option LeafId)
  | tryReadLock (j : SplitJob)
  /-- `try_get_split_lock` の読み。 -/
  | lockLoad (j : SplitJob) (g : Guarded)
  /-- `try_get_split_lock` の CAS。 -/
  | lockCas (j : SplitJob) (g : Guarded) (oldValue : Nat)
  /-- 右隣の lock が取れずに、左隣の lock を放す。 -/
  | undoLeft (j : SplitJob)
  | undoLeaf (j : SplitJob)
  | getWriteLock (j : SplitJob)
  | getData (j : SplitJob)
  | getReadLock (j : SplitJob) (data : List (Key × Payload))
  /-- 新しい leaf を作り、左隣の `next` を書く。 -/
  | linkLeft (j : SplitJob) (data : List (Key × Payload))
  /-- 右隣の `prev` を書く。`last` は新しい leaf の最後のものである。 -/
  | linkRight (j : SplitJob) (last : LeafId)
  | setAbandoned (j : SplitJob)
  /-- orphan の lock を放す。親 slot を持つ leaf の split lock は放されない。 -/
  | releaseLeaf (j : SplitJob)
  | releaseLeft (j : SplitJob)
  | releaseRight (j : SplitJob)
  deriving DecidableEq

namespace SplitterPc

/-- split lock が取れなかったとき。 -/
def failed (j : SplitJob) : Guarded → SplitterPc
  | .self => idle
  | .left => undoLeaf j
  | .right => undoLeft j

/-- split lock が取れたとき。 -/
def locked (j : SplitJob) : Guarded → SplitterPc
  | .self => lockLoad j .left
  | .left => lockLoad j .right
  | .right => getWriteLock j

end SplitterPc

/-- `data` を学習し直した leaf を heap に足し、`left` と `right` の間につなぐ。返すのは最後の leaf の番地である。 -/
def publish (f : Fitter D) (leaves : List (LeafNode D)) (left right : LeafId)
    (data : List (Key × Payload)) : Except IndexFault (List (LeafNode D) × LeafId) := do
  let segments := makeSegmentation f epsilonLeafNode (data.map Prod.fst)
  let lastN := segments.length
  if lastN = 0 then .error .outOfBounds
  else
    let first := leaves.length
    let leaves ← buildLeaves segments data 0 (some left) leaves
    let leaves := linkNext leaves first (lastN - 1)
    let leaves := setNext leaves (first + lastN - 1) (some right)
    return (setNext leaves left (some first), first + lastN - 1)

/-- thread の一歩。 -/
inductive SplitterStep (f : Fitter D) :
    List (LeafNode D) → SplitterPc → List (LeafNode D) → SplitterPc → Prop
  /-- 分割を求められた leaf は、いつか連鎖に在ったものである。 -/
  | call (m : List (LeafNode D)) {x : LeafId} {l : LeafNode D} (orphan : Bool)
      (hx : m[x]? = some l) : SplitterStep f m .idle m (.getPrev x orphan)
  | getPrev (m : List (LeafNode D)) {x : LeafId} {l : LeafNode D} (orphan : Bool)
      (hx : m[x]? = some l) :
      SplitterStep f m (.getPrev x orphan) m (.getNext x orphan l.prev)
  | getNext (m : List (LeafNode D)) {x : LeafId} {l : LeafNode D} (orphan : Bool)
      (left : Option LeafId) (hx : m[x]? = some l) :
      SplitterStep f m (.getNext x orphan left) m (.tryReadLock ⟨x, orphan, left, l.next⟩)
  | tryReadLock (m : List (LeafNode D)) (j : SplitJob) :
      SplitterStep f m (.tryReadLock j) m (.lockLoad j .self)
  | tryReadLockFailed (m : List (LeafNode D)) (j : SplitJob) :
      SplitterStep f m (.tryReadLock j) m .idle
  /-- 隣が無い。 -/
  | lockNone (m : List (LeafNode D)) (j : SplitJob) (g : Guarded) (hg : j.at g = none) :
      SplitterStep f m (.lockLoad j g) m (.failed j g)
  | lockLoad (m : List (LeafNode D)) (j : SplitJob) (g : Guarded) {x : LeafId} {l : LeafNode D}
      (hg : j.at g = some x) (hx : m[x]? = some l) :
      SplitterStep f m (.lockLoad j g) m
        (if l.locked.testBit 0 then .failed j g else .lockCas j g l.locked)
  | lockCas (m : List (LeafNode D)) (j : SplitJob) (g : Guarded) (oldValue : Nat) {x : LeafId}
      {l : LeafNode D} (hg : j.at g = some x) (hx : m[x]? = some l) (hl : l.locked = oldValue) :
      SplitterStep f m (.lockCas j g oldValue)
        (m.modify x fun l => { l with locked := oldValue ||| 1 }) (.locked j g)
  | lockCasFailed (m : List (LeafNode D)) (j : SplitJob) (g : Guarded) (oldValue : Nat)
      {x : LeafId} {l : LeafNode D} (hg : j.at g = some x) (hx : m[x]? = some l)
      (hl : l.locked ≠ oldValue) :
      SplitterStep f m (.lockCas j g oldValue) m (.failed j g)
  | undoLeft (m : List (LeafNode D)) (j : SplitJob) {x : LeafId} (hg : j.left = some x) :
      SplitterStep f m (.undoLeft j) (m.modify x LeafNode.releaseLock) (.undoLeaf j)
  | undoLeaf (m : List (LeafNode D)) (j : SplitJob) :
      SplitterStep f m (.undoLeaf j) (m.modify j.leaf LeafNode.releaseLock) .idle
  | getWriteLock (m : List (LeafNode D)) (j : SplitJob) :
      SplitterStep f m (.getWriteLock j)
        (if j.orphan then m.modify j.leaf LeafNode.getWriteLock else m) (.getData j)
  /-- slot はその場で整列される。 -/
  | getData (m : List (LeafNode D)) (j : SplitJob) {l : LeafNode D} (hx : m[j.leaf]? = some l) :
      SplitterStep f m (.getData j) (m.modify j.leaf fun l => l.getData.2)
        (.getReadLock j l.getData.1)
  | getReadLock (m : List (LeafNode D)) (j : SplitJob) (data : List (Key × Payload)) :
      SplitterStep f m (.getReadLock j data)
        (if j.orphan then m.modify j.leaf LeafNode.getReadLock else m) (.linkLeft j data)
  | linkLeft (m : List (LeafNode D)) (j : SplitJob) (data : List (Key × Payload))
      {left right : LeafId} {m' : List (LeafNode D)} {last : LeafId} (hl : j.left = some left)
      (hr : j.right = some right) (hm : publish f m left right data = .ok (m', last)) :
      SplitterStep f m (.linkLeft j data) m' (.linkRight j last)
  | linkRight (m : List (LeafNode D)) (j : SplitJob) (last : LeafId) {right : LeafId}
      (hr : j.right = some right) :
      SplitterStep f m (.linkRight j last) (setPrevLeaf m right (some last))
        (.setAbandoned j)
  | setAbandoned (m : List (LeafNode D)) (j : SplitJob) :
      SplitterStep f m (.setAbandoned j)
        (m.modify j.leaf fun l => { l with isAbandoned := true })
        (if j.orphan then .releaseLeaf j else .releaseLeft j)
  | releaseLeaf (m : List (LeafNode D)) (j : SplitJob) :
      SplitterStep f m (.releaseLeaf j) (m.modify j.leaf LeafNode.releaseLock) (.releaseLeft j)
  | releaseLeft (m : List (LeafNode D)) (j : SplitJob) {x : LeafId} (hg : j.left = some x) :
      SplitterStep f m (.releaseLeft j) (m.modify x LeafNode.releaseLock) (.releaseRight j)
  | releaseRight (m : List (LeafNode D)) (j : SplitJob) {x : LeafId} (hg : j.right = some x) :
      SplitterStep f m (.releaseRight j) (m.modify x LeafNode.releaseLock) .idle

/-- `upsert` と `remove` は、どれか一つの leaf の block と `overflow_number` を書く。 -/
def Rewrites (m m' : List (LeafNode D)) : Prop :=
  ∃ x blocks n, m' = m.modify x fun l => { l with blocks := blocks, overflowNumber := n }

/-- leaf の heap と、分割する thread の組。 -/
abbrev ChainState (T D : Type) := Threads T (List (LeafNode D)) SplitterPc

namespace ChainState

variable {T : Type}

/-- まだ分割が始まっていない。 -/
def initial (leaves : List (LeafNode D)) : ChainState T D := ⟨leaves, fun _ => .idle⟩

/-- どれか一つの thread、または書き込みの一歩。 -/
abbrev Step [DecidableEq T] (f : Fitter D) :
    ChainState T D → Option T → ChainState T D → Prop :=
  Interleave (SplitterStep f) Rewrites

/-- 捨てられた leaf の split lock を取る一歩ではない。 -/
def Fresh (c : ChainState T D) (e : Option T) : Prop :=
  ∀ t j g v x l, e = some t → c.pc t = .lockCas j g v → j.at g = some x →
    c.shared[x]? = some l → l.locked = v → l.isAbandoned = false

/-- 親 slot の無い leaf の分割は進まない。 -/
def Parented (c : ChainState T D) (e : Option T) : Prop :=
  ∀ t x, e = some t → c.pc t ≠ .getPrev x true

end ChainState

end Plin
