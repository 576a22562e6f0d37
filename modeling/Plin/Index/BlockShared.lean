import Plin.Index.BlockLock
import Plin.Index.LeafNode

/-!
# 共有された block（`LeafNode` の `find` / `upsert` / `remove`）

一つの block を、いくつもの thread が `find` で読み、`upsert` と `remove` で書く。書く thread は block の lock
を取ってから slot を調べ、slot の `payload` と `key` を一つずつ書いて放す。読む thread は lock を取らず、version
を読んでから slot を調べ、`payload` を読んだ後に version が変わっていないことを確かめる。

slot の `key` と `payload` の読み書き、語 `locked` の読み、CAS、書き込みのそれぞれを一歩とする。overflow tree
を書くのは lock を持つ thread だけなので、`upsert` と `delete_entry` は一歩でよい。**`find` は lock を取らずに
overflow tree をたどるので、たどった結果は何でもよいとする**（`walk`）。overflow tree が null なら `find` は
たどらずに 0 を返す。

`log` と `commits` は source に無い。書き込みが block の中身を変える一歩で `log` に書き足し、version を進めて
放す一歩で `commits` を数える。
-/

namespace Plin

open Infra

/-- block への書き込み。 -/
inductive WriteOp where
  | upsert (key : Key) (payload : Payload)
  | remove (key : Key)
  deriving DecidableEq

namespace WriteOp

def key : WriteOp → Key
  | upsert key _ => key
  | remove key => key

def kind : WriteOp → BlockWriter
  | upsert _ _ => .upsert
  | remove _ => .remove

/-- 一つの thread から呼ばれたときの返り値と block。 -/
def apply (op : WriteOp) (b : Block) : Nat × Block :=
  match op with
  | upsert key payload => b.upsert key payload
  | remove key => b.remove key

end WriteOp

/-- block を使う thread の実行位置。`i` は次に読む slot である。 -/
inductive SharedPc where
  | idle
  /-- `check_write_lock` とその失敗した枝、`get_lock`。`BlockPc` と同じである。 -/
  | checkWriteLock (op : WriteOp)
  | clearLoad (op : WriteOp)
  | clearStore (op : WriteOp) (v : UInt32)
  | lockLoad (op : WriteOp)
  | lockCas (op : WriteOp) (oldValue : UInt32)
  /-- 鍵が一致する slot を探す loop。 -/
  | seek (op : WriteOp) (i : Nat)
  /-- 見つけた slot の `payload` を書く。 -/
  | putPayload (key : Key) (payload : Payload) (i : Nat)
  /-- 空き slot を探す loop。 -/
  | vacant (key : Key) (payload : Payload) (i : Nat)
  /-- 空き slot の `payload` を書く。 -/
  | fillPayload (key : Key) (payload : Payload) (i : Nat)
  /-- 同じ slot の `key` を書く。 -/
  | fillKey (key : Key) (payload : Payload) (i : Nat)
  /-- overflow tree の `upsert`。 -/
  | treeUpsert (key : Key) (payload : Payload)
  /-- 見つけた slot の `key` を番兵にする。 -/
  | eraseKey (key : Key) (i : Nat)
  /-- overflow tree の `delete_entry`。 -/
  | treeRemove (key : Key)
  | releaseLoad (op : BlockWriter) (bump : Bool)
  | releaseStore (op : BlockWriter) (bump : Bool) (v : UInt32)
  /-- `check_lock` の loop。 -/
  | waitLock (key : Key)
  /-- `get_version` の loop。 -/
  | getVersion (key : Key)
  /-- slot を読む loop。 -/
  | scan (key : Key) (version : UInt32) (i : Nat)
  | readPayload (key : Key) (version : UInt32) (i : Nat)
  /-- `check_version_change`。 -/
  | verify (key : Key) (version : UInt32) (payload : Payload)
  /-- どの slot にも無かった。 -/
  | missed (key : Key)
  /-- overflow tree をたどる。 -/
  | walk (key : Key)
  /-- `find` が slot から読んで 1 を返した。 -/
  | hit (key : Key) (payload : Payload)
  /-- `find` が overflow tree を見ずに 0 を返した。 -/
  | absent (key : Key)
  /-- `find` が overflow tree をたどって返した。 -/
  | walked (key : Key) (result : Option Payload)
  deriving DecidableEq

/-- block の語と中身。 -/
structure BlockMem where
  words : BlockWords
  block : Block
  commits : Nat
  log : List (WriteOp × Nat)

namespace BlockMem

/-- `i` 番目の slot を書く。 -/
def setSlot (m : BlockMem) (i : Nat) (s : DataSlot) : BlockMem :=
  { m with block := { m.block with slots := m.block.slots.set i s } }

/-- 書き込みと返り値を書き足す。 -/
def record (m : BlockMem) (op : WriteOp) (ret : Nat) : BlockMem :=
  { m with log := m.log ++ [(op, ret)] }

/-- 語を書く。 -/
def setLocked (m : BlockMem) (w : UInt32) : BlockMem :=
  { m with words := { m.words with locked := w } }

end BlockMem

/-- thread の一歩。番兵を鍵とする呼び出しは無い。 -/
inductive SharedStep : BlockMem → SharedPc → BlockMem → SharedPc → Prop
  | write (m : BlockMem) (op : WriteOp) (hk : op.key ≠ freeFlag) :
      SharedStep m .idle m (.checkWriteLock op)
  | checkWriteLock (m : BlockMem) (op : WriteOp) :
      SharedStep m (.checkWriteLock op) m
        (if m.words.writeLock then .clearLoad op else .lockLoad op)
  | clearLoad (m : BlockMem) (op : WriteOp) :
      SharedStep m (.clearLoad op) m (.clearStore op m.words.locked)
  | clearStore (m : BlockMem) (op : WriteOp) (v : UInt32) :
      SharedStep m (.clearStore op v) (m.setLocked (v &&& lockMask)) .idle
  | lockLoad (m : BlockMem) (op : WriteOp) :
      SharedStep m (.lockLoad op) m
        (if Locked m.words.locked then .lockLoad op else .lockCas op m.words.locked)
  | lockCas (m : BlockMem) (op : WriteOp) (oldValue : UInt32) :
      SharedStep m (.lockCas op oldValue)
        (if m.words.locked = oldValue then m.setLocked (oldValue ||| lockSet) else m)
        (if m.words.locked = oldValue then .seek op 0 else .lockLoad op)
  | seekNext (m : BlockMem) (op : WriteOp) {i : Nat} {s : DataSlot}
      (hs : m.block.slots[i]? = some s) (hk : s.key ≠ op.key) :
      SharedStep m (.seek op i) m (.seek op (i + 1))
  | updateFound (m : BlockMem) (key : Key) (payload : Payload) {i : Nat} {s : DataSlot}
      (hs : m.block.slots[i]? = some s) (hk : s.key = key) :
      SharedStep m (.seek (.upsert key payload) i) m (.putPayload key payload i)
  | updateMissed (m : BlockMem) (key : Key) (payload : Payload) {i : Nat}
      (hs : m.block.slots[i]? = none) :
      SharedStep m (.seek (.upsert key payload) i) m (.vacant key payload 0)
  | putPayload (m : BlockMem) (key : Key) (payload : Payload) {i : Nat} {s : DataSlot}
      (hs : m.block.slots[i]? = some s) :
      SharedStep m (.putPayload key payload i)
        ((m.setSlot i { s with payload := payload }).record (.upsert key payload) 1)
        (.releaseLoad .upsert true)
  | vacantNext (m : BlockMem) (key : Key) (payload : Payload) {i : Nat} {s : DataSlot}
      (hs : m.block.slots[i]? = some s) (hk : s.key ≠ freeFlag) :
      SharedStep m (.vacant key payload i) m (.vacant key payload (i + 1))
  | vacantFound (m : BlockMem) (key : Key) (payload : Payload) {i : Nat} {s : DataSlot}
      (hs : m.block.slots[i]? = some s) (hk : s.key = freeFlag) :
      SharedStep m (.vacant key payload i) m (.fillPayload key payload i)
  | vacantMissed (m : BlockMem) (key : Key) (payload : Payload) {i : Nat}
      (hs : m.block.slots[i]? = none) :
      SharedStep m (.vacant key payload i) m (.treeUpsert key payload)
  | fillPayload (m : BlockMem) (key : Key) (payload : Payload) {i : Nat} {s : DataSlot}
      (hs : m.block.slots[i]? = some s) :
      SharedStep m (.fillPayload key payload i) (m.setSlot i { s with payload := payload })
        (.fillKey key payload i)
  | fillKey (m : BlockMem) (key : Key) (payload : Payload) {i : Nat} {s : DataSlot}
      (hs : m.block.slots[i]? = some s) :
      SharedStep m (.fillKey key payload i)
        ((m.setSlot i { s with key := key }).record (.upsert key payload) 2)
        (.releaseLoad .upsert true)
  /-- 返り値は、鍵が overflow tree に在れば 3、無ければ 4 である。 -/
  | treeUpsert (m : BlockMem) (key : Key) (payload : Payload) :
      SharedStep m (.treeUpsert key payload)
        ({ m with block := { m.block with
            overflowTree := some ((m.block.overflowTree.getD .empty).upsert key payload) } }.record
          (.upsert key payload)
          (if ((m.block.overflowTree.getD .empty).find key).isSome then 3 else 4))
        (.releaseLoad .upsert true)
  | removeFound (m : BlockMem) (key : Key) {i : Nat} {s : DataSlot}
      (hs : m.block.slots[i]? = some s) (hk : s.key = key) :
      SharedStep m (.seek (.remove key) i) m (.eraseKey key i)
  | removeMissed (m : BlockMem) (key : Key) {i : Nat} (hs : m.block.slots[i]? = none) :
      SharedStep m (.seek (.remove key) i) m (.treeRemove key)
  | eraseKey (m : BlockMem) (key : Key) {i : Nat} {s : DataSlot}
      (hs : m.block.slots[i]? = some s) :
      SharedStep m (.eraseKey key i)
        ((m.setSlot i { s with
            key := if m.block.overflowTree.isSome then deleteFlag else freeFlag }).record
          (.remove key) 1)
        (.releaseLoad .remove true)
  | treeRemove (m : BlockMem) (key : Key) {tree : SortedMap Key Payload}
      (ht : m.block.overflowTree = some tree) (hf : (tree.find key).isSome) :
      SharedStep m (.treeRemove key)
        ({ m with block := { m.block with overflowTree := some (tree.erase key) } }.record
          (.remove key) 2)
        (.releaseLoad .remove true)
  | treeRemoveMissed (m : BlockMem) (key : Key)
      (hf : ∀ tree, m.block.overflowTree = some tree → (tree.find key).isSome = false) :
      SharedStep m (.treeRemove key) (m.record (.remove key) 0) (.releaseLoad .remove false)
  | releaseLoad (m : BlockMem) (op : BlockWriter) (bump : Bool) :
      SharedStep m (.releaseLoad op bump) m (.releaseStore op bump m.words.locked)
  | releaseStore (m : BlockMem) (op : BlockWriter) (bump : Bool) (v : UInt32) :
      SharedStep m (.releaseStore op bump v)
        { m.setLocked ((if bump then v + 1 else v) &&& lockMask) with
          commits := if bump then m.commits + 1 else m.commits } .idle
  | find (m : BlockMem) (key : Key) (hk : key ≠ freeFlag) : SharedStep m .idle m (.waitLock key)
  | waitLock (m : BlockMem) (key : Key) :
      SharedStep m (.waitLock key) m
        (if Locked m.words.locked then .waitLock key else .getVersion key)
  | getVersion (m : BlockMem) (key : Key) :
      SharedStep m (.getVersion key) m
        (if Locked m.words.locked then .getVersion key else .scan key m.words.locked 0)
  | scanNext (m : BlockMem) (key : Key) (version : UInt32) {i : Nat} {s : DataSlot}
      (hs : m.block.slots[i]? = some s) (hk : s.key ≠ key) :
      SharedStep m (.scan key version i) m (.scan key version (i + 1))
  | scanFound (m : BlockMem) (key : Key) (version : UInt32) {i : Nat} {s : DataSlot}
      (hs : m.block.slots[i]? = some s) (hk : s.key = key) :
      SharedStep m (.scan key version i) m (.readPayload key version i)
  | scanMissed (m : BlockMem) (key : Key) (version : UInt32) {i : Nat}
      (hs : m.block.slots[i]? = none) : SharedStep m (.scan key version i) m (.missed key)
  | readPayload (m : BlockMem) (key : Key) (version : UInt32) {i : Nat} {s : DataSlot}
      (hs : m.block.slots[i]? = some s) :
      SharedStep m (.readPayload key version i) m (.verify key version s.payload)
  | verify (m : BlockMem) (key : Key) (version : UInt32) (payload : Payload) :
      SharedStep m (.verify key version payload) m
        (if version = m.words.locked then .hit key payload else .waitLock key)
  | missed (m : BlockMem) (key : Key) :
      SharedStep m (.missed key) m
        (if m.block.overflowTree.isNone then .absent key else .walk key)
  | walk (m : BlockMem) (key : Key) (result : Option Payload) :
      SharedStep m (.walk key) m (.walked key result)
  | hit (m : BlockMem) (key : Key) (payload : Payload) : SharedStep m (.hit key payload) m .idle
  | absent (m : BlockMem) (key : Key) : SharedStep m (.absent key) m .idle
  | walked (m : BlockMem) (key : Key) (result : Option Payload) :
      SharedStep m (.walked key result) m .idle

/-- 分割は leaf の write lock をいつでも掛け、いつでも放す。 -/
def BlockMem.Split (m m' : BlockMem) : Prop := ∃ b, m' = { m with words.writeLock := b }

/-- 共有された block と thread の組。 -/
abbrev SharedState (T : Type) := Threads T BlockMem SharedPc

namespace SharedState

variable {T : Type}

/-- どの thread もまだ呼んでいない。 -/
def initial (b : Block) : SharedState T := ⟨⟨⟨0, false⟩, b, 0, []⟩, fun _ => .idle⟩

/-- どれか一つの thread、または分割の一歩。 -/
abbrev Step [DecidableEq T] : SharedState T → Option T → SharedState T → Prop :=
  Interleave SharedStep BlockMem.Split

/-- 諦めた枝の書き込みは、block の語を変えない。 -/
def Harmless (c : SharedState T) (e : Option T) : Prop :=
  ∀ t op v, e = some t → c.pc t = .clearStore op v → v &&& lockMask = c.shared.words.locked

end SharedState

end Plin
