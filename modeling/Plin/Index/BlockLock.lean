import Plin.Infra.LockWord
import Plin.Infra.Threads

/-!
# block の lock（`LeafNode::BlockHeader`）

leaf を書く thread は、leaf の write lock を見てから block の lock を取り、slot か overflow tree を
書いて放す。block の語 `locked` は最上位 bit が lock、残りの 31 bit が version である。

ここでは語への原子的な読み、CAS、書き込みと、`check_write_lock` の読みのそれぞれを一歩とする。
`release_lock` と `release_lock_without_change` は語を読んでから書くので、二歩に分かれる。
global version は変わらないものとするので、`check_global_version` は何もしない。

write lock を見て諦める枝も、`release_lock_without_change` を呼んでから返る。**そのとき thread は
block の lock を持っていない**（`clearLoad`）。
-/

namespace Plin

open Infra

/-- leaf を書く操作。 -/
inductive BlockWriter where
  | upsert
  | remove
  deriving DecidableEq

/-- block を書く thread の実行位置。 -/
inductive BlockPc where
  /-- `check_write_lock` より前か、返った後。 -/
  | idle
  | checkWriteLock (op : BlockWriter)
  /-- `check_write_lock` が失敗した枝の `release_lock_without_change` の読み。 -/
  | clearLoad (op : BlockWriter)
  /-- 同じ枝の書き込み。`v` は読んだ値である。 -/
  | clearStore (op : BlockWriter) (v : UInt32)
  /-- `get_lock` の読み。 -/
  | lockLoad (op : BlockWriter)
  /-- `get_lock` の CAS。 -/
  | lockCas (op : BlockWriter) (oldValue : UInt32)
  /-- `get_lock` から返って、block を読み書きしている。 -/
  | critical (op : BlockWriter)
  /-- 解放の読み。`bump` なら version を進める `release_lock` である。 -/
  | releaseLoad (op : BlockWriter) (bump : Bool)
  /-- 解放の書き込み。 -/
  | releaseStore (op : BlockWriter) (bump : Bool) (v : UInt32)
  deriving DecidableEq

/-- block の語と、leaf の write lock。 -/
structure BlockWords where
  locked : UInt32
  writeLock : Bool
  deriving DecidableEq

/-- thread の一歩。 -/
inductive BlockStep : BlockWords → BlockPc → BlockWords → BlockPc → Prop
  | call (m : BlockWords) (op : BlockWriter) : BlockStep m .idle m (.checkWriteLock op)
  | checkWriteLock (m : BlockWords) (op : BlockWriter) :
      BlockStep m (.checkWriteLock op) m (if m.writeLock then .clearLoad op else .lockLoad op)
  | clearLoad (m : BlockWords) (op : BlockWriter) :
      BlockStep m (.clearLoad op) m (.clearStore op m.locked)
  | clearStore (m : BlockWords) (op : BlockWriter) (v : UInt32) :
      BlockStep m (.clearStore op v) { m with locked := v &&& lockMask } .idle
  | lockLoad (m : BlockWords) (op : BlockWriter) :
      BlockStep m (.lockLoad op) m
        (if Locked m.locked then .lockLoad op else .lockCas op m.locked)
  | lockCas (m : BlockWords) (op : BlockWriter) (oldValue : UInt32) :
      BlockStep m (.lockCas op oldValue)
        { m with locked := if m.locked = oldValue then oldValue ||| lockSet else m.locked }
        (if m.locked = oldValue then .critical op else .lockLoad op)
  | releaseLock (m : BlockWords) (op : BlockWriter) :
      BlockStep m (.critical op) m (.releaseLoad op true)
  /-- 鍵が無かったときの `remove` は version を進めずに放す。 -/
  | releaseLockWithoutChange (m : BlockWords) :
      BlockStep m (.critical .remove) m (.releaseLoad .remove false)
  | releaseLoad (m : BlockWords) (op : BlockWriter) (bump : Bool) :
      BlockStep m (.releaseLoad op bump) m (.releaseStore op bump m.locked)
  | releaseStore (m : BlockWords) (op : BlockWriter) (bump : Bool) (v : UInt32) :
      BlockStep m (.releaseStore op bump v)
        { m with locked := (if bump then v + 1 else v) &&& lockMask } .idle

/-- 分割は leaf の write lock をいつでも掛け、いつでも放す。 -/
def BlockWords.Split (m m' : BlockWords) : Prop := m'.locked = m.locked

/-- block の語と thread の組。 -/
abbrev BlockState (T : Type) := Threads T BlockWords BlockPc

/-- 構築した直後の block。 -/
def BlockState.initial {T : Type} : BlockState T := ⟨⟨0, false⟩, fun _ => .idle⟩

/-- どれか一つの thread、または分割の一歩。 -/
abbrev BlockState.Step {T : Type} [DecidableEq T] :
    BlockState T → Option T → BlockState T → Prop :=
  Interleave BlockStep BlockWords.Split

end Plin
