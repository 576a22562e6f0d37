import Plin.BTree.Page

/-!
# B+ 木（`b_plus.h` の `btree_plus`）

page は heap に置かれ、番地で互いを指す。`insert_into_parent` と `coalesce_or_redistribute` は親を
たどって再帰し、`find_leaf_page` は子をたどる。どれも木の高さで止まるので、上限 `fuel` を
渡し、呼び出しの際にはこれまでに割り当てた page の個数を与える。
-/

namespace Plin

/-- `btree_plus` と heap。`addr` は呼び出し元が持つ根の番地 `*addr` である。 -/
structure BTree where
  pages : Nat → Option Page
  /-- 次に割り当てる番地。 -/
  fresh : Nat
  root : Nat
  addr : Nat

namespace BTree

/-- `btree_plus(addr, true)`。空の leaf を根にする。 -/
def new : BTree :=
  { pages := fun i => if i = 1 then some { isLeaf := true } else none, fresh := 2, root := 1
    addr := 1 }

/-- `btree_plus(addr, false)`。番地 `*addr` の page を根にして開き直す。 -/
def reopen (t : BTree) : BTree := { t with root := t.addr }

/-- page を読む。 -/
def page (t : BTree) (id : Nat) : Except Fault Page :=
  match t.pages id with
  | some p => .ok p
  | none => .error .nullDeref

/-- page を書く。 -/
def setPage (t : BTree) (id : Nat) (p : Page) : BTree :=
  { t with pages := fun i => if i = id then some p else t.pages i }

/-- page を読んで書き換える。 -/
def modifyPage (t : BTree) (id : Nat) (f : Page → Page) : Except Fault BTree := do
  let p ← t.page id
  return t.setPage id (f p)

/-- `delete`。 -/
def free (t : BTree) (id : Nat) : BTree :=
  { t with pages := fun i => if i = id then none else t.pages i }

/-- `set_new_root`。 -/
def setNewRoot (t : BTree) (id : Nat) : BTree := { t with root := id, addr := id }

/-- `find_leaf_page` の loop。 -/
def findLeafFrom (t : BTree) (key : Key) : Nat → Nat → Except Fault Nat
  | 0, _ => .error .outOfFuel
  | fuel + 1, id => do
    let p ← t.page id
    if p.isLeaf then return id
    else
      let child ← p.innerLookup key
      t.findLeafFrom key fuel child

/-- `find_leaf_page`。 -/
def findLeafPage (t : BTree) (key : Key) : Except Fault Nat := t.findLeafFrom key t.fresh t.root

/-- `find`。 -/
def find (t : BTree) (key : Key) : Except Fault (Option Payload) := do
  let id ← t.findLeafPage key
  let leaf ← t.page id
  leaf.leafLookup key

/-- `maintain_child`。inner page なら、子の `parent` を書く。 -/
def maintainChild (t : BTree) (isLeaf : Bool) (node child : Nat) : Except Fault BTree :=
  if isLeaf then .ok t else t.modifyPage child fun c => { c with parent := node }

/-- 並んだ子について `maintain_child` を繰り返す。 -/
def maintainChildren (t : BTree) (isLeaf : Bool) (node : Nat) : List Record → Except Fault BTree
  | [] => .ok t
  | r :: rest => do
    let t ← t.maintainChild isLeaf node r.val
    t.maintainChildren isLeaf node rest

/-! ## 挿入 -/

/-- `split`。後ろ半分を新しい page に移し、leaf なら連鎖に、inner page なら子の親に反映する。 -/
def split (t : BTree) (node : Nat) : Except Fault (BTree × Nat) := do
  let p ← t.page node
  let sibling := t.fresh
  let right := p.recordNum / 2
  let left := p.recordNum - right
  let t := { t with fresh := t.fresh + 1 }
  if p.isLeaf then
    let t := t.setPage sibling
      { isLeaf := true, prevLeaf := node, nextLeaf := p.nextLeaf, records := p.records.drop left }
    let t := t.setPage node { p with nextLeaf := sibling, records := p.records.take left }
    if p.nextLeaf = 0 then return (t, sibling)
    else
      let t ← t.modifyPage p.nextLeaf fun q => { q with prevLeaf := sibling }
      return (t, sibling)
  else
    let t := t.setPage sibling { isLeaf := false, records := p.records.drop left }
    let t := t.setPage node { p with records := p.records.take left }
    let t ← t.maintainChildren false sibling (p.records.drop left)
    return (t, sibling)

/-- `insert_into_parent`。 -/
def insertIntoParent : Nat → BTree → Nat → Key → Nat → Except Fault BTree
  | 0, _, _, _, _ => .error .outOfFuel
  | fuel + 1, t, oldNode, key, newNode => do
    let old ← t.page oldNode
    if oldNode = t.root then
      let newRoot := t.fresh
      let first ← old.read 0
      let t := { t with fresh := t.fresh + 1 }
      let t := t.setPage newRoot
        { isLeaf := false, records := [⟨first.key, oldNode⟩, ⟨key, newNode⟩] }
      let t ← t.modifyPage oldNode fun q => { q with parent := newRoot }
      let t ← t.modifyPage newNode fun q => { q with parent := newRoot }
      return t.setNewRoot newRoot
    else
      let father := old.parent
      let f ← t.page father
      let t ← t.modifyPage newNode fun q => { q with parent := father }
      -- 見つからなければ `-1 + 1` の位置になる
      let childIdx := match f.findChildRank oldNode with
        | none => 0
        | some i => i + 1
      let f ← f.insertPair childIdx key newNode
      let t := t.setPage father f
      if cardinality ≤ f.recordNum then
        let (t, fatherSibling) ← t.split father
        let sib ← t.page fatherSibling
        let first ← sib.read 0
        insertIntoParent fuel t father first.key fatherSibling
      else t.modifyPage newNode fun q => { q with parent := father }

/--
`upsert`（`insert` も同じ本体を持つ）。返り値は更新なら 3、挿入なら 4 である。
-/
def upsert (t : BTree) (key : Key) (payload : Payload) : Except Fault (BTree × Nat) := do
  let id ← t.findLeafPage key
  let leaf ← t.page id
  let (leaf', payload) ← leaf.insertInNode key payload
  let t := t.setPage id leaf'
  if leaf'.recordNum = leaf.recordNum then return (t, if payload = int64Max then 3 else 0)
  else if cardinality ≤ leaf'.recordNum then
    let (t, sibling) ← t.split id
    let sib ← t.page sibling
    let first ← sib.read 0
    let t ← insertIntoParent t.fresh t id first.key sibling
    return (t, 4)
  else return (t, 4)

/-- `insert`。`upsert` と同じ本体を持つ。 -/
def insert (t : BTree) (key : Key) (payload : Payload) : Except Fault (BTree × Nat) :=
  t.upsert key payload

/-! ## 削除 -/

/-- `erase_node`。leaf なら連鎖から外してから解放する。 -/
def eraseNode (t : BTree) (node : Nat) : Except Fault BTree := do
  let p ← t.page node
  if p.isLeaf then
    if p.nextLeaf = 0 then
      let t ← t.modifyPage p.prevLeaf fun q => { q with nextLeaf := 0 }
      return t.free node
    else
      let t ← t.modifyPage p.prevLeaf fun q => { q with nextLeaf := p.nextLeaf }
      let t ← t.modifyPage p.nextLeaf fun q => { q with prevLeaf := p.prevLeaf }
      return t.free node
  else return t.free node

/-- `adjust_root`。子が一つだけになった inner page の根は、その子に置き換える。 -/
def adjustRoot (t : BTree) (node : Nat) : Except Fault BTree := do
  let p ← t.page node
  if p.isLeaf ∧ p.recordNum = 0 then t.modifyPage node fun q => { q with isDeleted := true }
  else if ¬ p.isLeaf ∧ p.recordNum = 1 then
    let r ← p.read 0
    let t ← t.modifyPage r.val fun q => { q with parent := 0 }
    return t.setNewRoot r.val
  else return t

/-- `redistribute`。隣の page から record を一つ借り、親の区切りの鍵を直す。 -/
def redistribute (t : BTree) (neighborNode node parent index : Nat) : Except Fault BTree := do
  let nb ← t.page neighborNode
  let p ← t.page node
  if index = 0 then
    let rise ← nb.read 0
    let insertPos := p.recordNum
    let p ← p.insertPair insertPos rise.key rise.val
    let t := t.setPage node p
    let t ← t.maintainChild p.isLeaf node rise.val
    let nb ← nb.remove rise.key
    let t := t.setPage neighborNode nb
    let first ← nb.read 0
    t.modifyPage parent fun f =>
      { f with records := f.records.modify (index + 1) fun r => { r with key := first.key } }
  else
    let rise ← nb.read (nb.recordNum - 1)
    let p ← p.insertPair 0 rise.key rise.val
    let t := t.setPage node p
    let t ← t.maintainChild p.isLeaf node rise.val
    let nb ← nb.remove rise.key
    let t := t.setPage neighborNode nb
    t.modifyPage parent fun f =>
      { f with records := f.records.modify index fun r => { r with key := rise.key } }

/-- `coalesce` の loop。右の page の record を左の page の後ろに足していく。 -/
def appendRecords (t : BTree) (left : Nat) : List Record → Except Fault BTree
  | [] => .ok t
  | r :: rest => do
    let p ← t.page left
    let p ← p.insertPair p.recordNum r.key r.val
    let t := t.setPage left p
    let t ← t.maintainChild p.isLeaf left r.val
    t.appendRecords left rest

/-- `coalesce_or_redistribute` と `coalesce`。 -/
def coalesceOrRedistribute : Nat → BTree → Nat → Except Fault BTree
  | 0, _, _ => .error .outOfFuel
  | fuel + 1, t, node => do
    if node = t.root then t.adjustRoot node
    else
      let p ← t.page node
      if (cardinality + 1) / 2 ≤ p.recordNum then return t
      else
        let father := p.parent
        let f ← t.page father
        match f.findChildRank node with
        | none => .error .outOfBounds
        | some index =>
          let nr ← f.read (if index = 0 then 1 else index - 1)
          let neighbor := nr.val
          let nb ← t.page neighbor
          if cardinality + 1 ≤ p.recordNum + nb.recordNum then
            t.redistribute neighbor node father index
          else
            -- `index` が 0 なら左右を入れ替え、右の page を左に合わせる
            let (left, right, index) :=
              if index = 0 then (node, neighbor, 1) else (neighbor, node, index)
            let rp ← t.page right
            let t ← t.appendRecords left rp.records
            let t ← t.eraseNode right
            let t ← t.modifyPage father fun f => f.erasePair index
            coalesceOrRedistribute fuel t father

/--
`maintain_parent`。親の鍵を読み比べるだけで、何も書かない（局所変数に代入している）。
-/
def maintainParent (t : BTree) : Nat → Nat → Except Fault Unit
  | 0, _ => .error .outOfFuel
  | fuel + 1, id => do
    let curr ← t.page id
    if curr.parent = 0 then return ()
    else
      let parent ← t.page curr.parent
      match parent.findChildRank id with
      | none => .error .outOfBounds
      | some rank =>
        let r ← parent.read rank
        let first ← curr.read 0
        if r.key = first.key then return () else t.maintainParent fuel curr.parent

/-- `delete_entry`。 -/
def deleteEntry (t : BTree) (key : Key) : Except Fault (BTree × Bool) := do
  let id ← t.findLeafPage key
  let leaf ← t.page id
  let leaf' ← leaf.remove key
  let t := t.setPage id leaf'
  t.maintainParent t.fresh id
  if leaf'.recordNum ≠ leaf.recordNum then
    let t ← coalesceOrRedistribute t.fresh t id
    return (t, true)
  else return (t, false)

/-! ## 走査 -/

/-- `get_data` の前半。0 番目の子をたどって左端の leaf に降りる。 -/
def leftmostFrom (t : BTree) : Nat → Nat → Except Fault Nat
  | 0, _ => .error .outOfFuel
  | fuel + 1, id => do
    let p ← t.page id
    if p.isLeaf then return id
    else
      let r ← p.read 0
      t.leftmostFrom fuel r.val

/-- `next_leaf` の連鎖をたどって leaf の番地を集める。 -/
def chainFrom (t : BTree) : Nat → Nat → Except Fault (List Nat)
  | 0, _ => .error .outOfFuel
  | fuel + 1, id =>
    if id = 0 then .ok []
    else do
      let p ← t.page id
      let rest ← t.chainFrom fuel p.nextLeaf
      return id :: rest

/-- `get_data`。連鎖の順に record を並べる。 -/
def getData (t : BTree) : Except Fault (List (Key × Payload)) := do
  let first ← t.leftmostFrom t.fresh t.root
  let ids ← t.chainFrom t.fresh first
  let pages ← ids.mapM t.page
  return pages.flatMap fun p => p.records.map fun r => (r.key, UInt64.ofNat r.val)

/-- `range_query`。`lower` の在るべき leaf から連鎖の終わりまでを見て、区間の record を足していく。 -/
def rangeQuery (t : BTree) (lower upper : Key) (answers : List (Key × Payload)) :
    Except Fault (List (Key × Payload)) := do
  let first ← t.findLeafPage lower
  let ids ← t.chainFrom t.fresh first
  let pages ← ids.mapM t.page
  return answers ++ pages.flatMap fun p =>
    (p.records.filter fun r => decide (lower ≤ r.key ∧ r.key ≤ upper ∧ r.val ≠ 0)).map
      fun r => (r.key, UInt64.ofNat r.val)

end BTree

end Plin
