import Plin.Infra.LockWord
import Plin.Infra.Threads

/-!
# 分割と再構築の lock（`plin_metadata::smo_lock`）

`split` は本体を `try_get_read_lock` と `release_read_lock` で、`rebuild_inner_nodes` は本体を
`get_write_lock` と `release_write_lock` で囲む。一つの語 `smo_lock` の最上位 bit が write lock、
残りの 31 bit が分割の個数である。

ここでは語への原子的な読み、CAS、減算、書き込みのそれぞれを一歩とする。CAS に失敗すると loop の
先頭に戻る。`false` を返した呼び出しは、その先に何もしない。
-/

namespace Plin

open Infra

/-- `smo_lock` を使う thread の実行位置。 -/
inductive SmoPc where
  /-- lock の外。 -/
  | idle
  /-- `try_get_read_lock` の読み。 -/
  | readLoad
  /-- `try_get_read_lock` の CAS。`v` は読んだ値である。 -/
  | readCas (v : UInt32)
  /-- `try_get_read_lock` が `true` を返し、`release_read_lock` はまだ。分割の本体。 -/
  | inSplit
  /-- `get_write_lock` の最初の読み。 -/
  | writeLoad
  /-- `get_write_lock` の CAS。 -/
  | writeCas (v : UInt32)
  /-- 分割が出ていくのを待つ loop の読み。 -/
  | drain
  /-- `get_write_lock` が `true` を返し、`release_write_lock` はまだ。再構築の本体。 -/
  | inRebuild
  deriving DecidableEq

/-- `smo_lock` への一歩。 -/
inductive SmoStep : UInt32 → SmoPc → UInt32 → SmoPc → Prop
  | tryGetReadLock (w : UInt32) : SmoStep w .idle w .readLoad
  | readLoad (w : UInt32) : SmoStep w .readLoad w (if Locked w then .idle else .readCas w)
  | readCas (w v : UInt32) :
      SmoStep w (.readCas v) (if w = v then v + 1 else w) (if w = v then .inSplit else .readLoad)
  | releaseReadLock (w : UInt32) : SmoStep w .inSplit (w - 1) .idle
  | getWriteLock (w : UInt32) : SmoStep w .idle w .writeLoad
  | writeLoad (w : UInt32) : SmoStep w .writeLoad w (if Locked w then .idle else .writeCas w)
  | writeCas (w v : UInt32) :
      SmoStep w (.writeCas v) (if w = v then v ||| lockSet else w)
        (if w = v then .drain else .writeLoad)
  | drain (w : UInt32) :
      SmoStep w .drain w (if w &&& lockMask = 0 then .inRebuild else .drain)
  | releaseWriteLock (w : UInt32) : SmoStep w .inRebuild 0 .idle

/-- `smo_lock` と thread の組。 -/
abbrev SmoState (T : Type) := Threads T UInt32 SmoPc

/-- すべての thread が lock の外にいて、語は 0 である。 -/
def SmoState.initial {T : Type} : SmoState T := ⟨0, fun _ => .idle⟩

/-- どれか一つの thread の一歩。 -/
abbrev SmoState.Step {T : Type} [DecidableEq T] : SmoState T → Option T → SmoState T → Prop :=
  Interleave SmoStep fun _ _ => False

end Plin
