import Plin.Index.PlinIndex

/-!
# 段をたどる道（`cache_model.h` と `inner_node.h`）

End の `local_model::predict_pos` は `parameter` だけを上の段から下へたどり、Edge の `find` は slot を読みながら
inner node を下りる。ここでは両者が段ごとに選ぶ node を、その `first_key` の列として取り出す。段の中で `first_key` は
重ならないので、列が等しいことと同じ node を通ることは同じである。

`predict_pos` は、鍵の代わりに一つ上の段で予測した slot の番号を次の段に渡す。`find` は入った node ごとに位置を
`int64_t` に変換するので、変換が定まっているか（`Converts`）も入った node の列で述べる。
-/

namespace Plin

variable {D : Type} [Arith D]

namespace LocalModel

/-- 先頭から `first_key` が `value` 以下である区分の個数 `k`。 -/
def rank (params : List (Param D)) (value : Key) : Nat :=
  (params.takeWhile fun p => decide (p.firstKey ≤ value)).length

/-- 使う区分の番号 `temp_pos`。`else temp_pos = k - 1` は注釈にされている。 -/
def segmentIndex (params : List (Param D)) (value : Key) : Nat :=
  if params.length ≤ rank params value then params.length - 1 else rank params value

/-- 次の段に渡す値 `target_slot`。`local_model::predict_block` は `InnerNode` のものと同じ式である。 -/
def nextValue (p : Param D) (value : Key) : Key :=
  Key.ofNat (InnerNode.predictBlock value p.slope p.intercept (p.blockNum % 2 ^ 32) *
    innerSlotsPerBlock)

/-- `predict_pos` が段ごとに使う区分の `first_key`。段は上から並べる。 -/
def segmentPath : List (List (Param D)) → Key → List Key
  | [], _ => []
  | params :: rest, value =>
    match params[segmentIndex params value]? with
    | none => []
    | some p => p.firstKey :: segmentPath rest (nextValue p value)

end LocalModel

/-! ## Edge の道 -/

namespace InnerNode

/-- 子の位置はどれも `int64_t` に収まる。 -/
def ChildrenFit (nd : InnerNode D) : Prop :=
  ∀ e ∈ nd.slots, e.isFree = false → fits e.minKey nd.slope nd.intercept = true

/-- 親 slot `a` の指す inner node の中で選ばれる slot。 -/
def nextSlot (inners : List (InnerNode D)) (key : Key) (a : InnerSlot D) :
    Option (InnerSlot D) := do
  let nd ← inners[a.ptr]?
  let slot ← nd.search key a
  nd.slots[slot]?

/-- `find_leaf_node` が入る inner node の親 slot を、通る順に並べたもの。 -/
def enteredSlots (inners : List (InnerNode D)) (key : Key) :
    Nat → InnerSlot D → List (InnerSlot D)
  | 0, _ => []
  | fuel + 1, a =>
    a :: match nextSlot inners key a with
      | none => []
      | some s => if s.type then enteredSlots inners key fuel s else []

end InnerNode

namespace PlinIndex

/-- `find` が根から入る inner node の親 slot。 -/
def enteredSlots (s : PlinIndex D) (key : Key) : List (InnerSlot D) :=
  match (s.selectRoot key).bind fun i => s.roots[i]? with
  | none => []
  | some a =>
    if a.type then InnerNode.enteredSlots s.inners key (s.inners.length + 1) a else []

/-- `find` が根から入る inner node の `first_key`。親 slot の `min_key` は node の `first_key` である。 -/
def searchPath (s : PlinIndex D) (key : Key) : List Key :=
  (s.enteredSlots key).map InnerSlot.minKey

/--
`find` が inner node で行う `int64_t` への変換は、どれも定まっている。

区間の外の鍵は buffer を引くので、inner node に入らない。
-/
def Converts (s : PlinIndex D) (key : Key) : Prop :=
  s.minKey ≤ key → key ≤ s.maxKey →
    ∀ a ∈ s.enteredSlots key, InnerNode.fits key a.slope a.intercept = true

/-- `bulk_load` が inner node に子を置くときの `int64_t` への変換は、どれも定まっている。 -/
def BuildFits (s : PlinIndex D) : Prop := ∀ nd ∈ s.inners, nd.ChildrenFit

end PlinIndex

end Plin
