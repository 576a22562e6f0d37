import Plin.Index.PlinIndex

/-!
# node の解放（`destroy`、`rebuild_inner_nodes`）

`PlinIndex` の heap では、捨てられた node も残る。ここでは、source の `delete this` が実際に消す node を
並べて持つ（`NodeMemory.freed`）。消した node を読むことと、二度消すことは失敗（`none`）にする。

`InnerNode::destroy` は子が inner node かどうかを header の `level` で決める（探索は slot の `type` で決める）。
`level` は段を積む loop の回数であり、`meta_table.parameter` の行は段ごとに、行の要素は node ごとに一つずつ
足されるので、そこから読み取る。

`delete this` が消すのは node だけである。slot の配列と overflow tree は source でも解放されない。
-/

namespace Plin

open Infra

variable {D : Type} [Arith D]

/-! ## node -/

/--
`InnerNode::destroy`。`freed` は既に消した node である。

`levels` は header の `level` の列、`fuel` は深さの上限である。
-/
def InnerNode.destroy (inners : List (InnerNode D)) (levels : List Nat) :
    Nat → InnerId → List InnerId → Option (List InnerId)
  | 0, _, _ => none
  | fuel + 1, this, freed => do
    if this ∈ freed then none
    else
      let nd ← inners[this]?
      let level ← levels[this]?
      let freed ←
        if 1 < level then
          (List.range (nd.blockNumber * innerSlotsPerBlock)).foldlM
            (fun freed slot => do
              let s ← nd.slots[slot]?
              if s.isFree then some freed
              else InnerNode.destroy inners levels fuel s.ptr freed)
            freed
        else some freed
      if this ∈ freed then none else some (freed ++ [this])

/-- 根の下の inner node を順に消す loop。 -/
def InnerNode.destroyRoots (inners : List (InnerNode D)) (levels : List Nat)
    (roots : List (InnerSlot D)) (freed : List InnerId) : Option (List InnerId) :=
  roots.foldlM
    (fun freed a => InnerNode.destroy inners levels (inners.length + 1) a.ptr freed) freed

/-- `next` をたどりながら leaf を消す loop。`next` は消す前に読む。 -/
def LeafNode.destroyChain (leaves : List (LeafNode D)) :
    Nat → LeafId → List LeafId → Option (List LeafId)
  | 0, _, _ => none
  | fuel + 1, cur, freed => do
    if cur ∈ freed then none
    else
      let l ← leaves[cur]?
      match l.next with
      | none => some (freed ++ [cur])
      | some next => LeafNode.destroyChain leaves fuel next (freed ++ [cur])

/-- `parameter` の段の node が、作られるときに受け取る `level`。最初の段の `level` は `level` である。 -/
def headerLevels : (level : Nat) → List (List (Param D)) → List Nat
  | _, [] => []
  | level, row :: rows => List.replicate row.length level ++ headerLevels (level + 1) rows

/-! ## 索引 -/

/-- 索引と、inner node の header の `level`、消した inner node。 -/
structure NodeMemory (D : Type) where
  index : PlinIndex D
  levels : List Nat
  freed : List InnerId

namespace NodeMemory

/-- `bulk_load`。 -/
def bulkLoad (f : Fitter D) (data : List (Key × Payload)) : Except IndexFault (NodeMemory D) := do
  let s ← PlinIndex.bulkLoad f data
  return { index := s, levels := headerLevels 1 s.parameter, freed := [] }

/--
要求が索引を `s` に変えた後の状態。

inner node が増えるのは `rebuild_inner_nodes` が走ったときだけである。一つの要求では高々一度しか走らず、
新しい根に替えた後で、古い根の下を消す。
-/
def advance (m : NodeMemory D) (s : PlinIndex D) : Option (NodeMemory D) :=
  if m.index.inners.length < s.inners.length then do
    let levels := m.levels ++ headerLevels 1 s.parameter
    let freed ← InnerNode.destroyRoots s.inners levels m.index.roots m.freed
    return { index := s, levels := levels, freed := freed }
  else some { m with index := s }

/-- `PlinIndex::destroy`。消した leaf と、これまでに消した inner node を返す。 -/
def destroy (m : NodeMemory D) : Option (List LeafId × List InnerId) := do
  let cur ← m.index.getLeftmostLeaf
  let leaves ← LeafNode.destroyChain m.index.leaves (m.index.leaves.length + 1) cur []
  let inners ← InnerNode.destroyRoots m.index.inners m.levels m.index.roots m.freed
  return (leaves, inners)

end NodeMemory

/-- 根から、inner node を指す slot（`type` が 1）をたどって届く node。 -/
inductive PlinIndex.Holds (s : PlinIndex D) : InnerId → Prop
  | root {a : InnerSlot D} (h : a ∈ s.roots) : Holds s a.ptr
  | child {i : InnerId} {nd : InnerNode D} {e : InnerSlot D} (h : Holds s i)
      (hnd : s.inners[i]? = some nd) (he : e ∈ nd.slots) (hfree : e.isFree = false)
      (htype : e.type = true) : Holds s e.ptr

end Plin
