import Plin.Index.PlinIndex

/-!
# 範囲の読み出し（`range_query`）

`LeafNode::range_query` は `rq_flag` で三つの段階を分ける。0 の間は `find` と同じように隣の leaf へ移り
（`seek`）、1 になると block を順に走査して、leaf の終わりで隣の leaf に続ける（`scanLeaves`）。上限より
大きい鍵の slot を見た block で 2 になって止まる。lock は調べない。

走査の block の番号は `uint64_t slot` に代入されるので折り返さない。`btree_plus::range_query` は値が
`nullptr` の record を足さないので、**overflow tree と buffer の payload 0 は読み出されない**。
-/

namespace Plin

open Infra

/-- 区間の鍵。 -/
def InRange (lower upper key : Key) : Prop := lower ≤ key ∧ key ≤ upper

instance (lower upper key : Key) : Decidable (InRange lower upper key) :=
  inferInstanceAs (Decidable (_ ∧ _))

/-- `btree_plus::range_query` が有限写像から足す組。 -/
def treeRange (lower upper : Key) (tree : SortedMap Key Payload) : List (Key × Payload) :=
  tree.entries.filter fun e => decide (InRange lower upper e.1 ∧ e.2 ≠ 0)

namespace Block

/-- 一つの block から足す組。slot が先で、overflow tree が続く。 -/
def range (lower upper : Key) (b : Block) : List (Key × Payload) :=
  (b.slots.filter fun s => decide (InRange lower upper s.key)).map (fun s => (s.key, s.payload)) ++
    (b.overflowTree.map (treeRange lower upper)).getD []

/-- 上限より大きい鍵の slot が在る。overflow tree の鍵は調べない。 -/
def passes (lower upper : Key) (b : Block) : Bool :=
  b.slots.any fun s => decide (¬ InRange lower upper s.key ∧ upper < s.key ∧ s.key ≠ freeFlag ∧
    s.key ≠ deleteFlag)

end Block

namespace LeafNode

variable {D : Type} [Arith D]

/--
`rq_flag` が 0 の間の再帰。走査を始める leaf と block、走査の終わりの block を返す。

`fuel` が尽きるか、指す先の leaf が無ければ `none`。
-/
def seek (leaves : List (LeafNode D)) (lower : Key) :
    Nat → LeafId → Option (InnerSlot D) → Option (LeafId × Nat × Nat)
  | 0, _, _ => none
  | fuel + 1, this, accelerator => do
    let l ← leaves[this]?
    let bn := (accelerator.map (·.blockNumber)).getD l.blockNumber
    let block := match accelerator with
      | some a => predictBlock lower a.slope a.intercept a.blockNumber
      | none => l.predict lower
    if sub32 bn 2 ≤ block then
      match l.next with
      | none => some (this, block, bn)
      | some n => do
        let next ← leaves[n]?
        if next.firstKey ≤ lower then seek leaves lower fuel n none else some (this, block, bn)
    else some (this, block, bn)

/--
block の走査。`n` は残りの block の数である。返す真偽は `rq_flag == 1`、つまり最後まで走査したかどうか。
block の列の外を読めば `none`。
-/
def scanBlocks (blocks : List Block) (lower upper : Key) :
    Nat → (block : Nat) → List (Key × Payload) → Option (List (Key × Payload) × Bool)
  | 0, _, answers => some (answers, true)
  | n + 1, block, answers => do
    let b ← blocks[block]?
    if b.passes lower upper then some (answers ++ b.range lower upper, false)
    else scanBlocks blocks lower upper n (block + 1) (answers ++ b.range lower upper)

/-- `rq_flag` が 1 の間の再帰。leaf の終わりまで走査したら隣の leaf の先頭から続ける。 -/
def scanLeaves (leaves : List (LeafNode D)) (lower upper : Key) :
    Nat → LeafId → (block blockNumber : Nat) → List (Key × Payload) →
      Option (List (Key × Payload))
  | 0, _, _, _, _ => none
  | fuel + 1, this, block, blockNumber, answers => do
    let l ← leaves[this]?
    let (answers, more) ← scanBlocks l.blocks lower upper (blockNumber - block) block answers
    match more, l.next with
    | true, some n => do
      let next ← leaves[n]?
      scanLeaves leaves lower upper fuel n 0 next.blockNumber answers
    | _, _ => some answers

/-- `range_query`。 -/
def rangeQuery (leaves : List (LeafNode D)) (this : LeafId) (lower upper : Key)
    (answers : List (Key × Payload)) (accelerator : Option (InnerSlot D)) :
    Option (List (Key × Payload)) := do
  let (start, block, blockNumber) ← seek leaves lower (leaves.length + 1) this accelerator
  scanLeaves leaves lower upper (leaves.length + 1) start block blockNumber answers

end LeafNode

namespace PlinIndex

variable {D : Type} [Arith D]

/-- `range_query`。左右の buffer を読むと、区間は `[min_key, max_key]` に縮む。 -/
def rangeQuery (s : PlinIndex D) (lower upper : Key) (answers : List (Key × Payload)) :
    Except IndexFault (List (Key × Payload)) := do
  let (lower, answers) := if lower < s.minKey then
      (s.minKey, answers ++ treeRange lower upper s.leftBuffer)
    else (lower, answers)
  let (upper, answers) := if s.maxKey < upper then
      (s.maxKey, answers ++ treeRange lower upper s.rightBuffer)
    else (upper, answers)
  if s.minKey ≤ upper ∧ lower ≤ s.maxKey then
    let addr ← orFault (s.descend lower)
    let a ← orFault (s.readSlot addr)
    orFault (LeafNode.rangeQuery s.leaves a.ptr lower upper answers (some a))
  else return answers

end PlinIndex

end Plin
