import Mathlib.Logic.Function.Basic
import Plin.Index.PlinIndex
import Plin.Infra.Threads

/-!
# 分割と書き込みの競合（`leaf_node.h` / `plin_index.h`）

`BACKGROUND_SPLIT` では、分割は別の thread で leaf を写し取り、その間も leaf への `upsert` は走る。
一歩は source の次の単位である。

* `upsert`: `check_read_lock`、`check_write_lock`、`get_lock`、slot か overflow tree への書き込み、
  `release_lock`、`is_abandoned`
* `split`: `get_write_lock`、`get_data` の block ごとの読み出し、`get_read_lock`、両隣のつなぎ替え、
  `set_abandoned`、親 slot の更新

`get_data` は block ごとに `check_lock` を呼ぶが、**返り値を見ない**ので、block を書いている thread を
待たない。lock 語は親 slot か leaf のものだが、どちらでも同じ手順なので一組で持つ。
-/

namespace Plin

open Infra Function

variable {D : Type}

/-- 分割される leaf への書き込み。`T` は thread である。 -/
structure Writers (T : Type) where
  key : T → Key
  payload : T → Payload
  /-- 鍵は互いに異なる。 -/
  distinct : Injective key
  below : ∀ t, key t < freeFlag

/-- `upsert` の位置。`late` は、書いた block が既に写し取られていたこと。source には無い記録である。 -/
inductive WriterPc where
  | checkReadLock
  | checkWriteLock
  | getLock
  | write
  | releaseLock (flag : Nat) (late : Bool)
  | isAbandoned (ret : Nat) (late : Bool)
  | returned (ret : Nat)
  deriving DecidableEq

/-- `split` の位置。`leaves` は新しい leaf の列である。 -/
inductive SplitPc (D : Type) where
  | getWriteLock
  /-- `get_data` の途中。 -/
  | getData
  | relink (leaves : List (LeafNode D))
  | setAbandoned (leaves : List (LeafNode D))
  | placeNodes (leaves : List (LeafNode D))
  | finished (leaves : List (LeafNode D))

/-- 分割される leaf と、それを読み書きする thread。 -/
structure SplitRace (T D : Type) where
  blocks : List Block
  blockLocks : Nat → Bool
  writeLock : Bool
  readLock : Bool
  abandoned : Bool
  overflowNumber : Nat
  /-- 写し取った block。 -/
  copied : List Block
  /-- 左隣からつながっている新しい leaf。つなぎ替える前は `none`。 -/
  linked : Option (List (LeafNode D))
  split : SplitPc D
  writers : T → WriterPc

namespace SplitRace

variable [Arith D] {T : Type} [DecidableEq T] (f : Fitter D) (l : LeafNode D) (orphan : Bool)
  (w : Writers T)

/-- 誰も動き出していない。 -/
def initial : SplitRace T D :=
  { blocks := l.blocks, blockLocks := fun _ => false, writeLock := false, readLock := false
    abandoned := false, overflowNumber := l.overflowNumber, copied := [], linked := none
    split := .getWriteLock, writers := fun _ => .checkReadLock }

/-- `upsert` の書く block。 -/
def blockOf (key : Key) : Nat := LeafNode.slotBlock (l.predict key)

/-- 写し取った中身。 -/
def data (copied : List Block) : List (Key × Payload) := ({ l with blocks := copied }).getData.1

/-- 学習し直した leaf の列。 -/
def retrained (copied : List Block) : Except IndexFault (List (LeafNode D)) :=
  buildLeaves (makeSegmentation f epsilonLeafNode ((data l copied).map Prod.fst)) (data l copied) 0
    l.prev []

/-- `overflow_number` を数えた後の返り値。 -/
def returnCode (flag overflowNumber : Nat) : Nat :=
  if flag = 4 ∧ l.numberToSplit < overflowNumber then if orphan then 6 else 5 else flag

/-- 一歩。`none` は分割の thread である。 -/
inductive Step : SplitRace T D → Option T → SplitRace T D → Prop
  | checkReadLock (s : SplitRace T D) (t : T) (hpc : s.writers t = .checkReadLock) :
      Step s (some t)
        { s with
          writers := update s.writers t (if s.readLock then .returned 7 else .checkWriteLock) }
  /-- 掛かっていれば、block の lock を放してから返る。 -/
  | checkWriteLock (s : SplitRace T D) (t : T) (hpc : s.writers t = .checkWriteLock) :
      Step s (some t)
        { s with
          blockLocks := if s.writeLock then update s.blockLocks (blockOf l (w.key t)) false
            else s.blockLocks
          writers := update s.writers t (if s.writeLock then .returned 7 else .getLock) }
  | getLock (s : SplitRace T D) (t : T) (hpc : s.writers t = .getLock)
      (hfree : s.blockLocks (blockOf l (w.key t)) = false) :
      Step s (some t)
        { s with
          blockLocks := update s.blockLocks (blockOf l (w.key t)) true
          writers := update s.writers t .write }
  | write (s : SplitRace T D) (t : T) (b : Block) (hpc : s.writers t = .write)
      (hb : s.blocks[blockOf l (w.key t)]? = some b) :
      Step s (some t)
        { s with
          blocks := s.blocks.set (blockOf l (w.key t)) (b.upsert (w.key t) (w.payload t)).2
          writers := update s.writers t (.releaseLock (b.upsert (w.key t) (w.payload t)).1
            (decide (blockOf l (w.key t) < s.copied.length))) }
  | releaseLock (s : SplitRace T D) (t : T) (flag : Nat) (late : Bool)
      (hpc : s.writers t = .releaseLock flag late) :
      Step s (some t)
        { s with
          blockLocks := update s.blockLocks (blockOf l (w.key t)) false
          overflowNumber := if flag = 4 then s.overflowNumber + 1 else s.overflowNumber
          writers := update s.writers t
            (.isAbandoned (returnCode l orphan flag (s.overflowNumber + 1)) late) }
  | isAbandoned (s : SplitRace T D) (t : T) (ret : Nat) (late : Bool)
      (hpc : s.writers t = .isAbandoned ret late) :
      Step s (some t)
        { s with writers := update s.writers t (.returned (if s.abandoned then 7 else ret)) }
  | getWriteLock (s : SplitRace T D) (hpc : s.split = .getWriteLock) :
      Step s none { s with writeLock := true, split := .getData }
  /-- `check_lock` の返り値は見ない。slot はその場で整列される。 -/
  | getData (s : SplitRace T D) (b : Block) (hpc : s.split = .getData)
      (hb : s.blocks[s.copied.length]? = some b) :
      Step s none
        { s with
          blocks := s.blocks.set s.copied.length (LeafNode.sortBlock b)
          copied := s.copied ++ [b] }
  /-- 学習し直すのは thread の中だけなので、`get_read_lock` と一緒にする。 -/
  | getReadLock (s : SplitRace T D) (leaves : List (LeafNode D)) (hpc : s.split = .getData)
      (hall : s.copied.length = s.blocks.length) (hne : data l s.copied ≠ [])
      (hbuild : retrained f l s.copied = .ok leaves) :
      Step s none { s with readLock := true, split := .relink leaves }
  | relink (s : SplitRace T D) (leaves : List (LeafNode D)) (hpc : s.split = .relink leaves) :
      Step s none { s with linked := some leaves, split := .setAbandoned leaves }
  | setAbandoned (s : SplitRace T D) (leaves : List (LeafNode D))
      (hpc : s.split = .setAbandoned leaves) :
      Step s none { s with abandoned := true, split := .placeNodes leaves }
  /-- 親 slot を更新し、lock を放す。 -/
  | placeNodes (s : SplitRace T D) (leaves : List (LeafNode D))
      (hpc : s.split = .placeNodes leaves) :
      Step s none
        { s with writeLock := false, readLock := false, split := .finished leaves }

end SplitRace

end Plin
