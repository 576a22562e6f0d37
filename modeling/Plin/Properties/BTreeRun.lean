import Plin.Properties.BTreeDelete

/-!
# B+ 木の走行

空の木から `upsert` と `delete_entry` を続けて呼んだときに、page の大きさと木の形が保たれるか
どうかを調べる。答えは **いつもそうだとは限らない**。

* 併合が合計 `cardinality` 個ちょうどで行われると、いっぱいの page が残る
  （`full_page_after_delete`）。次にその page へ書くと `assert` に失敗する。
* 左隣の inner page から借りるとき、その 0 番目の古い鍵が末尾の鍵と等しいと、末尾ではなく
  左端の子が消される（`leftmost_leaf_lost`）。

壊れるのはこの二つの場合だけである。どの削除の後始末もそこに落ちなければ（`runSafe`）、
走行のあらゆる時点で page は溢れず（`pages_lt_cardinality`）、木の形も保たれる（`wellShaped_run`）。
-/

namespace Plin

open Infra Level

/-! ## 走行 -/

/-- 木への操作。`insert` は `upsert` と同じ本体を持つ。 -/
inductive BTreeOp where
  | upsert (key : Key) (payload : Payload)
  | delete (key : Key)
deriving DecidableEq

namespace BTree

/-- 操作を一つ行う。 -/
def apply (t : BTree) : BTreeOp → Except Fault BTree
  | .upsert k p => do
    let (t, _) ← t.upsert k p
    return t
  | .delete k => do
    let (t, _) ← t.deleteEntry k
    return t

/-- 操作を順に行う。 -/
def run (t : BTree) : List BTreeOp → Except Fault BTree
  | [] => .ok t
  | op :: ops => do
    let t ← t.apply op
    t.run ops

/-- 一手が、再配置の二つの穴に落ちない。 -/
def stepSafe (t : BTree) : BTreeOp → Bool
  | .upsert _ _ => true
  | .delete k => t.deleteSafe k

/-- 走行のどの一手も、再配置の二つの穴に落ちない。失敗した手の後は問わない。 -/
def runSafe (t : BTree) : List BTreeOp → Bool
  | [] => true
  | op :: ops => t.stepSafe op && match t.apply op with
    | .ok t => t.runSafe ops
    | .error _ => true

end BTree

namespace BTreeOp

/-- 抽象的な写像への操作。 -/
def onMap (m : Key → Option Payload) : BTreeOp → Key → Option Payload
  | .upsert k p => fun q => if q = k then some p else m q
  | .delete k => fun q => if q = k then none else m q

/-- payload は 0 でなく、消す鍵は在る。 -/
def admissible (m : Key → Option Payload) : BTreeOp → Bool
  | .upsert _ p => p ≠ 0
  | .delete k => (m k).isSome

/-- 走行のどの操作も `admissible` である。 -/
def allAdmissible (m : Key → Option Payload) : List BTreeOp → Bool
  | [] => true
  | op :: ops => op.admissible m && allAdmissible (op.onMap m) ops

end BTreeOp

open BTreeOp

/-- 書かれてから消されていない値の写像。 -/
def treeMap (ops : List BTreeOp) : Key → Option Payload := ops.foldl BTreeOp.onMap fun _ => none

/-! ## 木の形 -/

namespace BTree

/-- 根から、子の番号の列に沿って降りる。 -/
def walk (t : BTree) : Nat → List Nat → Option Nat
  | id, [] => some id
  | id, i :: path =>
    match t.pages id with
    | none => none
    | some p => if p.isLeaf then none else (p.records[i]?).bind fun r => t.walk r.val path

/-- 部分木の leaf を左から右に並べたもの。 -/
def leavesUnder (t : BTree) : Nat → Nat → List Nat
  | 0, _ => []
  | fuel + 1, id =>
    match t.pages id with
    | none => []
    | some p => if p.isLeaf then [id] else p.records.flatMap fun r => t.leavesUnder fuel r.val

/-- 木の形が正しく、写像 `m` を表している。 -/
structure WellShaped (t : BTree) (m : Key → Option Payload) : Prop where
  /-- どの page にも根からの道は一つしかない。 -/
  path_unique : ∀ {path path' id}, t.walk t.root path = some id →
    t.walk t.root path' = some id → path = path'
  /-- 子の `parent` は、その子を持つ page である。 -/
  parent_eq : ∀ {path id p r}, t.walk t.root path = some id → t.pages id = some p →
    p.isLeaf = false → r ∈ p.records → ∃ c, t.pages r.val = some c ∧ c.parent = id
  /-- leaf の深さはどれも同じである。 -/
  leaf_depth : ∃ depth, ∀ {path id}, t.walk t.root path = some id →
    ∃ p, t.pages id = some p ∧ (p.isLeaf = true ↔ path.length = depth)
  /-- leaf の並びは `next_leaf` の連鎖である。 -/
  chain : ∃ first, t.leftmostFrom t.fresh t.root = .ok first ∧
    t.chainFrom t.fresh first = .ok (t.leavesUnder t.fresh t.root)
  /-- `get_data` の鍵は狭義に増え、写像の鍵とちょうど一致する。 -/
  data : ∃ es, t.getData = .ok es ∧ (es.map Prod.fst).Pairwise (· < ·) ∧
    ∀ k v, (k, v) ∈ es ↔ m k = some v

end BTree

/-! ## 段の積み重ねと木の形 -/

section Shape

variable {t : BTree} {leaf : Bool} {lower : Level} {uppers : List Level}

theorem walk_append (t : BTree) (a b : List Nat) (id : Nat) :
    t.walk id (a ++ b) = (t.walk id a).bind fun j => t.walk j b := by
  induction a generalizing id with
  | nil => rfl
  | cons i a ih =>
    rw [List.cons_append, BTree.walk, BTree.walk]
    cases t.pages id with
    | none => rfl
    | some p =>
      dsimp only
      split
      · rfl
      · cases p.records[i]? with
        | none => rfl
        | some r => exact ih r.val

theorem Linked.vals_eq {root : Nat} {up : Level} {rest : List Level}
    (h : Linked root leaf lower (up :: rest)) : (recs up).map Record.val = ids lower := by
  have := congrArg (List.map Prod.fst) h.1
  simpa [kids, recs, parents, ids, List.map_flatMap, Function.comp_def] using this

/-- inner page の子は下の段に在り、親はその page である。 -/
theorem Stack.child (h : Stack t leaf lower uppers) {id : Nat} {p : Page}
    (hm : (id, p) ∈ uppers.flatten) {r : Record} (hr : r ∈ p.records) :
    ∃ c, (r.val, c) ∈ lower ++ uppers.flatten ∧ c.parent = id := by
  induction uppers generalizing leaf lower with
  | nil => simp at hm
  | cons up rest ih =>
    rw [List.flatten_cons, List.mem_append] at hm
    rcases hm with hm | hm
    · have hk : (r.val, id) ∈ parents lower := by
        rw [← h.linked.1]
        exact List.mem_flatMap.mpr ⟨(id, p), hm, List.mem_map_of_mem hr⟩
      obtain ⟨x, hx, hxe⟩ := List.mem_map.mp hk
      obtain ⟨h₁, h₂⟩ := Prod.mk.inj hxe
      refine ⟨x.2, List.mem_append_left _ ?_, h₂⟩
      rw [← h₁]
      exact hx
    · obtain ⟨c, hc, hp⟩ := ih h.upper hm
      exact ⟨c, List.mem_append_right _ (by simpa using hc), hp⟩

/-- inner page の子の番地には重複がない。 -/
theorem Stack.children_nodup (h : Stack t leaf lower uppers) {id : Nat} {p : Page}
    (hm : (id, p) ∈ uppers.flatten) : (p.records.map Record.val).Nodup := by
  induction uppers generalizing leaf lower with
  | nil => simp at hm
  | cons up rest ih =>
    rw [List.flatten_cons, List.mem_append] at hm
    rcases hm with hm | hm
    · have hnd := h.nodup
      rw [ids_append] at hnd
      have hids := h.linked.vals_eq
      obtain ⟨U₁, U₂, rfl⟩ := List.append_of_mem hm
      have := (List.nodup_append.mp hnd).1
      rw [← hids, recs_append, recs_cons, List.map_append, List.map_append] at this
      exact (List.nodup_append.mp (List.nodup_append.mp this).2.1).1
    · exact ih h.upper hm

/-- 道の長さは、着いた page の段を決める。 -/
theorem Stack.walk_level (h : Stack t leaf lower uppers) {path : List Nat} {id : Nat}
    (hw : t.walk t.root path = some id) (hl : path.length ≤ uppers.length) :
    (path.length = uppers.length → ∃ p, (id, p) ∈ lower) ∧
      (path.length < uppers.length → ∃ p, (id, p) ∈ uppers.flatten) := by
  induction uppers generalizing leaf lower path id with
  | nil =>
    obtain rfl : path = [] := List.length_eq_zero_iff.mp (Nat.le_zero.mp hl)
    obtain ⟨p, rfl, -⟩ := h.linked
    obtain rfl : t.root = id := Option.some.inj hw
    exact ⟨fun _ => ⟨p, by simp⟩, by simp⟩
  | cons up rest ih =>
    constructor
    · intro he
      -- 最後の一歩の手前は一つ上の段に着いている
      obtain ⟨path, i, rfl⟩ : ∃ a i, path = a ++ [i] := by
        rcases List.eq_nil_or_concat path with rfl | ⟨a, i, rfl⟩
        · simp at he
        · exact ⟨a, i, List.concat_eq_append⟩
      rw [walk_append] at hw
      obtain ⟨j, hj, hw⟩ := Option.bind_eq_some_iff.mp hw
      have hlen : path.length = rest.length := by simpa using he
      obtain ⟨p, hp⟩ := (ih h.upper hj (Nat.le_of_eq hlen)).1 hlen
      rw [BTree.walk, h.heap (j, p) (List.mem_append_right _ (by simp [hp]))] at hw
      dsimp only at hw
      rw [(h.upperOk (j, p) (by simp [hp])).isLeaf, if_neg (by simp)] at hw
      obtain ⟨r, hr, hid⟩ := Option.bind_eq_some_iff.mp hw
      obtain rfl : r.val = id := Option.some.inj hid
      have hk : (r.val, j) ∈ parents lower := by
        rw [← h.linked.1]
        exact List.mem_flatMap.mpr ⟨(j, p), hp, List.mem_map_of_mem (List.mem_of_getElem? hr)⟩
      obtain ⟨x, hx, hxe⟩ := List.mem_map.mp hk
      refine ⟨x.2, ?_⟩
      rw [← (Prod.mk.inj hxe).1]
      exact hx
    · intro hlt
      have hle : path.length ≤ rest.length := Nat.le_of_lt_succ hlt
      rcases Nat.lt_or_eq_of_le hle with hlt' | heq
      · obtain ⟨p, hp⟩ := (ih h.upper hw hle).2 hlt'
        exact ⟨p, by rw [List.flatten_cons]; exact List.mem_append_right _ hp⟩
      · obtain ⟨p, hp⟩ := (ih h.upper hw hle).1 heq
        exact ⟨p, by simp [hp]⟩

/-- 根からの道は、leaf の段より先には延びない。 -/
theorem Stack.walk_length (h : Stack t true lower uppers) {path : List Nat} {id : Nat}
    (hw : t.walk t.root path = some id) : path.length ≤ uppers.length := by
  by_contra hlt
  have hsplit := List.take_append_drop uppers.length path
  rw [← hsplit, walk_append] at hw
  obtain ⟨j, hj, hw⟩ := Option.bind_eq_some_iff.mp hw
  have hlen : (path.take uppers.length).length = uppers.length := by
    rw [List.length_take]
    omega
  obtain ⟨p, hp⟩ := (h.walk_level hj (Nat.le_of_eq hlen)).1 hlen
  obtain ⟨i, rest, hd⟩ := List.exists_cons_of_length_pos (l := path.drop uppers.length) (by
    rw [List.length_drop]
    omega)
  rw [hd, BTree.walk, h.heap (j, p) (by simp [hp])] at hw
  dsimp only at hw
  rw [(h.lowerOk (j, p) hp).isLeaf, if_pos rfl] at hw
  simp at hw

/-- 道の着く page は段のどれかに在り、leaf かどうかは道の長さで決まる。 -/
theorem Stack.walk_mem (h : Stack t true lower uppers) {path : List Nat} {id : Nat}
    (hw : t.walk t.root path = some id) :
    ∃ p, (id, p) ∈ lower ++ uppers.flatten ∧ (p.isLeaf = true ↔ path.length = uppers.length) ∧
      (p.isLeaf = false → (id, p) ∈ uppers.flatten) := by
  have hle := h.walk_length hw
  rcases Nat.lt_or_eq_of_le hle with hlt | heq
  · obtain ⟨p, hp⟩ := (h.walk_level hw hle).2 hlt
    have hleaf : p.isLeaf = false := (h.upperOk (id, p) hp).isLeaf
    refine ⟨p, List.mem_append_right _ hp, ⟨fun hl => ?_, fun he => ?_⟩, fun _ => hp⟩
    · rw [hleaf] at hl
      simp at hl
    · omega
  · obtain ⟨p, hp⟩ := (h.walk_level hw hle).1 heq
    have hleaf : p.isLeaf = true := (h.lowerOk (id, p) hp).isLeaf
    refine ⟨p, List.mem_append_left _ hp, ⟨fun _ => heq, fun _ => hleaf⟩, fun hl => ?_⟩
    rw [hleaf] at hl
    simp at hl

/--
**どの page にも根からの道は一つしかない。**

親の pointer は一つなので、道を終わりから一歩ずつ戻る先はいつも同じである。
-/
theorem Stack.path_unique (h : Stack t true lower uppers) {path path' : List Nat} {id : Nat}
    (hw : t.walk t.root path = some id) (hw' : t.walk t.root path' = some id) : path = path' := by
  -- 最後の一歩の親
  have last : ∀ {a : List Nat} {i id : Nat}, t.walk t.root (a ++ [i]) = some id →
      ∃ j p r c, t.walk t.root a = some j ∧ (j, p) ∈ uppers.flatten ∧ p.records[i]? = some r ∧
        r.val = id ∧ t.pages id = some c ∧ c.parent = j ∧ 0 < j := by
    intro a i id hw
    rw [walk_append] at hw
    obtain ⟨j, hj, hw⟩ := Option.bind_eq_some_iff.mp hw
    obtain ⟨p, hp, -, hup⟩ := h.walk_mem hj
    rw [BTree.walk, h.heap (j, p) hp] at hw
    dsimp only at hw
    by_cases hl : p.isLeaf = true
    · rw [if_pos hl] at hw
      simp at hw
    · have hp' := hup (by simpa using hl)
      rw [if_neg hl] at hw
      obtain ⟨r, hr, hid⟩ := Option.bind_eq_some_iff.mp hw
      obtain rfl : r.val = id := Option.some.inj hid
      obtain ⟨c, hc, hpar⟩ := h.child hp' (List.mem_of_getElem? hr)
      exact ⟨j, p, r, c, hj, hp', hr, rfl, h.heap (r.val, c) hc, hpar, (h.bound (j, p) hp).1⟩
  have root : ∀ {a : List Nat} {i : Nat}, t.walk t.root (a ++ [i]) ≠ some t.root := by
    intro a i hw
    obtain ⟨j, p, r, c, -, -, -, -, hc, hpar, hpos⟩ := last hw
    obtain ⟨q, hq, hq₀, -⟩ := h.linked.root_mem
    rw [h.heap (t.root, q) hq] at hc
    rw [← Option.some.inj hc, hq₀] at hpar
    omega
  induction path using List.reverseRecOn generalizing path' id with
  | nil =>
    obtain rfl : t.root = id := Option.some.inj hw
    rcases List.eq_nil_or_concat path' with rfl | ⟨b, i, rfl⟩
    · rfl
    · rw [List.concat_eq_append] at hw'
      exact absurd hw' root
  | append_singleton a i ih =>
    rcases List.eq_nil_or_concat path' with rfl | ⟨b, i', rfl⟩
    · obtain rfl : t.root = id := Option.some.inj hw'
      exact absurd hw root
    · rw [List.concat_eq_append] at hw' ⊢
      obtain ⟨j, p, r, c, hj, hp, hr, hv, hc, hpar, -⟩ := last hw
      obtain ⟨j', p', r', c', hj', hp', hr', hv', hc', hpar', -⟩ := last hw'
      rw [hc] at hc'
      obtain rfl : j = j' := by rw [← hpar, ← hpar', Option.some.inj hc']
      obtain rfl := ih hj hj'
      have hpp := h.heap (j, p) (List.mem_append_right _ hp)
      rw [h.heap (j, p') (List.mem_append_right _ hp')] at hpp
      obtain rfl : p' = p := Option.some.inj hpp
      have hi : i < p'.records.length := (List.getElem?_eq_some_iff.mp hr).1
      obtain rfl : i = i' := by
        refine (List.getElem?_inj (by simpa using hi) (h.children_nodup hp)).mp ?_
        rw [List.getElem?_map, List.getElem?_map, hr, hr', Option.map_some, Option.map_some, hv,
          hv']
      rfl

/-- 段の page の下の leaf を左から並べると、leaf の段になる。 -/
theorem Stack.leavesUnder_eq (h : Stack t leaf lower uppers) {n : Nat} {l : List Nat}
    (hl : (ids lower).flatMap (t.leavesUnder n) = l) :
    t.leavesUnder (n + uppers.length) t.root = l := by
  induction uppers generalizing leaf lower n with
  | nil =>
    obtain ⟨p, rfl, -⟩ := h.linked
    simpa using hl
  | cons up rest ih =>
    rw [List.length_cons, ← Nat.add_assoc, Nat.add_right_comm]
    refine ih h.upper ?_
    rw [← hl, ← h.linked.vals_eq, recs, List.map_flatMap, List.flatMap_assoc, ids, List.flatMap_map]
    refine List.flatMap_congr fun x hx => ?_
    rw [BTree.leavesUnder, h.heap x (by simp [hx])]
    dsimp only
    rw [(h.upperOk x (by simp [hx])).isLeaf, if_neg (by simp), List.flatMap_map]

variable {m : SortedMap Key Payload} {leaves : Level}

/-- **不変条件を満たす木は正しい形をしている。** -/
theorem BTree.Holds.wellShaped (h : t.Holds m leaves uppers) : t.WellShaped m.find where
  path_unique := h.stack.path_unique
  parent_eq := by
    intro path id p r hw hp hl hr
    obtain ⟨q, hq, -, hup⟩ := h.stack.walk_mem hw
    rw [h.stack.heap (id, q) hq] at hp
    obtain rfl : q = p := Option.some.inj hp
    obtain ⟨c, hc, hpar⟩ := h.stack.child (hup hl) hr
    exact ⟨c, h.stack.heap (r.val, c) hc, hpar⟩
  leaf_depth := by
    refine ⟨uppers.length, fun {path id} hw => ?_⟩
    obtain ⟨p, hp, hl, -⟩ := h.stack.walk_mem hw
    exact ⟨p, h.stack.heap (id, p) hp, hl⟩
  chain := by
    obtain ⟨first, h₁, h₂⟩ := h.chain
    refine ⟨first, h₁, ?_⟩
    have hlt := h.stack.length_lt_fresh h.sized
    obtain ⟨n, hn⟩ : ∃ n, t.fresh = (n + 1) + uppers.length :=
      ⟨t.fresh - uppers.length - 1, by omega⟩
    have hleaves : (ids leaves).flatMap (t.leavesUnder (n + 1)) = ids leaves := by
      rw [ids, List.flatMap_map]
      refine (List.flatMap_congr fun x hx => ?_).trans (List.flatMap_pure_eq_map Prod.fst leaves)
      rw [BTree.leavesUnder, h.stack.heap x (by simp [hx])]
      dsimp only
      rw [if_pos (h.stack.lowerOk x hx).isLeaf]
      rfl
    rw [h₂, hn, h.stack.leavesUnder_eq hleaves]
  data := ⟨m.entries, h.getData, List.pairwise_map.mpr m.sorted, fun _ _ =>
    SortedMap.mem_entries_iff⟩

end Shape

/-! ## 走行の不変条件 -/

/-- 木が関数としての写像 `f` を表している。 -/
def BTree.Represents (t : BTree) (f : Key → Option Payload) : Prop :=
  ∃ m leaves uppers, t.Holds m leaves uppers ∧ m.find = f

theorem represents_new : BTree.new.Represents fun _ => none := by
  have hpages : ∀ {i p}, BTree.new.pages i = some p → i = 1 ∧ p = { isLeaf := true } := by
    intro i p hp
    change (if i = 1 then _ else _) = _ at hp
    split at hp
    · exact ⟨‹_›, (Option.some.inj hp).symm⟩
    · simp at hp
  refine ⟨.empty, [(1, { isLeaf := true })], [], ⟨⟨⟨_, rfl, rfl⟩, ?_, by simp, ?_, ?_, by simp⟩, ?_,
    ⟨rfl, rfl, trivial⟩, rfl, ?_, rfl⟩, rfl⟩
  · intro x hx
    obtain rfl : x = (1, { isLeaf := true }) := by simpa using hx
    rfl
  · intro x hx
    obtain rfl : x = (1, { isLeaf := true }) := by simpa using hx
    exact ⟨Nat.one_pos, Nat.lt_succ_self 1⟩
  · intro x hx
    obtain rfl : x = (1, { isLeaf := true }) := by simpa using hx
    exact ⟨rfl, by simp [Page.Solid]⟩
  · intro x hx
    obtain rfl : x = (1, { isLeaf := true }) := by simpa using hx
    exact ⟨by simp, by decide⟩
  · intro i p hp
    rw [(hpages hp).2]
    decide

theorem BTree.Represents.step {t : BTree} {f : Key → Option Payload} (h : t.Represents f)
    {op : BTreeOp} (ha : op.admissible f = true) (hs : t.stepSafe op = true) :
    ∃ t', t.apply op = .ok t' ∧ t'.Represents (op.onMap f) := by
  obtain ⟨m, leaves, uppers, hh, rfl⟩ := h
  cases op with
  | upsert k p =>
    obtain ⟨t', leaves', uppers', hcall, hh'⟩ := hh.upsert k (v := p) (by
      simpa [BTreeOp.admissible] using ha)
    refine ⟨t', ?_, m.upsert k p, leaves', uppers', hh', ?_⟩
    · show (t.upsert k p).bind _ = _
      rw [hcall]
      rfl
    · funext q
      exact SortedMap.find_upsert m k q p
  | delete k =>
    obtain ⟨t', leaves', uppers', hcall, hh'⟩ := hh.delete (k := k) ha hs
    refine ⟨t', ?_, m.erase k, leaves', uppers', hh', ?_⟩
    · show (t.deleteEntry k).bind _ = _
      rw [hcall]
      rfl
    · funext q
      exact SortedMap.find_erase m k q

/-- 走行のすべての一手が条件を満たせば、終わりの木も写像を表す。 -/
theorem BTree.Represents.run {ops : List BTreeOp} : ∀ {t : BTree} {f : Key → Option Payload},
    t.Represents f → allAdmissible f ops = true → t.runSafe ops = true →
    ∃ t', t.run ops = .ok t' ∧ t'.Represents (ops.foldl BTreeOp.onMap f) := by
  induction ops with
  | nil => exact fun h _ _ => ⟨_, rfl, h⟩
  | cons op ops ih =>
    intro t f h ha hs
    rw [BTreeOp.allAdmissible, Bool.and_eq_true] at ha
    rw [BTree.runSafe, Bool.and_eq_true] at hs
    obtain ⟨t₁, hcall, h₁⟩ := h.step ha.1 hs.1
    rw [hcall] at hs
    obtain ⟨t', hrun, h'⟩ := ih h₁ ha.2 hs.2
    refine ⟨t', ?_, h'⟩
    show (t.apply op).bind _ = _
    rw [hcall]
    exact hrun

/-! ## 結果 -/

/--
**条件を満たす走行では、どの page も溢れない。**

走行は失敗せずに終わり、その後の操作も（削除なら同じ条件のもとで）失敗しない。
-/
theorem pages_lt_cardinality {ops : List BTreeOp}
    (ha : allAdmissible (fun _ => none) ops = true) (hs : BTree.new.runSafe ops = true) :
    ∃ t, BTree.new.run ops = .ok t ∧
      (∀ id p, t.pages id = some p → p.recordNum < cardinality) ∧
      (∀ op : BTreeOp, op.admissible (treeMap ops) = true → t.stepSafe op = true →
        ∃ t', t.apply op = .ok t') ∧
      (∀ k, t.find k = .ok (treeMap ops k)) ∧ (∃ es, t.getData = .ok es) ∧
      ∀ lower upper answers, ∃ rows, t.rangeQuery lower upper answers = .ok rows := by
  obtain ⟨t, hrun, h⟩ := represents_new.run ha hs
  refine ⟨t, hrun, ?_, fun op hop hsop => ?_, ?_, ?_, fun lower upper answers => ?_⟩
  · obtain ⟨m, leaves, uppers, hh, -⟩ := h
    exact hh.small
  · obtain ⟨t', hcall, -⟩ := h.step hop hsop
    exact ⟨t', hcall⟩
  · obtain ⟨m, leaves, uppers, hh, hf⟩ := h
    intro k
    rw [hh.find k, hf]
    rfl
  · obtain ⟨m, leaves, uppers, hh, -⟩ := h
    exact ⟨_, hh.getData⟩
  · obtain ⟨m, leaves, uppers, hh, -⟩ := h
    exact ⟨_, hh.rangeQuery lower upper answers⟩

/-- 15 個の鍵を書き、一つ消して右隣から借りる走行。 -/
def borrowOps : List BTreeOp :=
  ((List.range 15).map fun i => .upsert (Key.ofNat (i + 1)) 1) ++ [.delete (Key.ofNat 1)]

theorem pages_lt_cardinality_borrow :
    (allAdmissible (fun _ => none) borrowOps = true ∧ BTree.new.runSafe borrowOps = true) ∧
    ∃ t, BTree.new.run borrowOps = .ok t ∧
      (∀ id p, t.pages id = some p → p.recordNum < cardinality) ∧
      (∀ op : BTreeOp, op.admissible (treeMap borrowOps) = true → t.stepSafe op = true →
        ∃ t', t.apply op = .ok t') ∧
      (∀ k, t.find k = .ok (treeMap borrowOps k)) ∧ (∃ es, t.getData = .ok es) ∧
      ∀ lower upper answers, ∃ rows, t.rangeQuery lower upper answers = .ok rows := by
  have ha : allAdmissible (fun _ => none) borrowOps = true := by decide +kernel
  have hs : BTree.new.runSafe borrowOps = true := by decide +kernel
  exact ⟨⟨ha, hs⟩, pages_lt_cardinality ha hs⟩

/-- 14 個の鍵を書くと leaf は 7 個ずつになり、一つ消すと合計 13 個の併合が起きる走行。 -/
def fullOps : List BTreeOp :=
  ((List.range 14).map fun i => .upsert (Key.ofNat (i + 1)) 1) ++ [.delete (Key.ofNat 14)]

/-- **いっぱいの page が残り、次の書き込みは `assert` に失敗する。** -/
theorem full_page_after_delete :
    allAdmissible (fun _ => none) fullOps = true ∧
    ∃ t p, BTree.new.run fullOps = .ok t ∧ t.pages t.root = some p ∧
      ¬ p.recordNum < cardinality ∧
      t.apply (.upsert (Key.ofNat 0) 1) = .error .assertFailed := by
  have h : (match BTree.new.run fullOps with
      | .error _ => false
      | .ok t => ((t.pages t.root).map Page.recordNum == some cardinality) &&
        match t.apply (.upsert (Key.ofNat 0) 1) with
        | .ok _ => false
        | .error e => decide (e = .assertFailed)) = true := by decide +kernel
  refine ⟨by decide +kernel, ?_⟩
  cases hrun : BTree.new.run fullOps with
  | error e => rw [hrun] at h; simp at h
  | ok t =>
    rw [hrun] at h
    dsimp only at h
    rw [Bool.and_eq_true, beq_iff_eq] at h
    obtain ⟨p, hp, hnum⟩ := Option.map_eq_some_iff.mp h.1
    refine ⟨t, p, rfl, hp, by rw [hnum]; exact lt_irrefl _, ?_⟩
    cases hup : t.apply (.upsert (Key.ofNat 0) 1) with
    | ok t' => rw [hup] at h; simp at h
    | error e =>
      rw [hup] at h
      rw [of_decide_eq_true h.2]

/-- **条件を満たす走行では、木の形が保たれ、`get_data` は書いて消していない鍵を並べる。** -/
theorem wellShaped_run {ops : List BTreeOp}
    (ha : allAdmissible (fun _ => none) ops = true) (hs : BTree.new.runSafe ops = true) :
    ∃ t, BTree.new.run ops = .ok t ∧ t.WellShaped (treeMap ops) := by
  obtain ⟨t, hrun, m, leaves, uppers, hh, hf⟩ := represents_new.run ha hs
  refine ⟨t, hrun, ?_⟩
  have := hh.wellShaped
  rwa [hf] at this

theorem wellShaped_run_borrow :
    (allAdmissible (fun _ => none) borrowOps = true ∧ BTree.new.runSafe borrowOps = true) ∧
    ∃ t, BTree.new.run borrowOps = .ok t ∧ t.WellShaped (treeMap borrowOps) := by
  have ha : allAdmissible (fun _ => none) borrowOps = true := by decide +kernel
  have hs : BTree.new.runSafe borrowOps = true := by decide +kernel
  exact ⟨⟨ha, hs⟩, wellShaped_run ha hs⟩

/-- 鍵 `a, a + 1, …` を書く。 -/
def upsertFrom (a n : Nat) : List BTreeOp :=
  (List.range n).map fun i => .upsert (Key.ofNat (a + i)) 1

/-- 鍵 `a, a - 1, …` を書く。 -/
def upsertDown (a n : Nat) : List BTreeOp :=
  (List.range n).map fun i => .upsert (Key.ofNat (a - i)) 1

/--
左の inner page の 0 番目の古い鍵と末尾の鍵が、どちらも 188 になる走行。最後の削除は leaf を併合し、
inner page がその左隣から借りる。
-/
def staleSeparatorOps : List BTreeOp :=
  upsertFrom 188 13 ++ upsertDown 187 8 ++ [.delete (Key.ofNat 194)] ++ upsertFrom 201 35 ++
    upsertDown 179 41 ++ [.delete (Key.ofNat 235)]

/-- **左端の leaf が木から失われ、書いて消していない鍵が `get_data` に現れない。** -/
theorem leftmost_leaf_lost :
    allAdmissible (fun _ => none) staleSeparatorOps = true ∧
    ∃ t, BTree.new.run staleSeparatorOps = .ok t ∧ ¬ t.WellShaped (treeMap staleSeparatorOps) := by
  have h : (match BTree.new.run staleSeparatorOps with
      | .error _ => false
      | .ok t => (treeMap staleSeparatorOps (Key.ofNat 139) == some 1) &&
        match t.getData with
        | .error _ => false
        | .ok es => decide ((Key.ofNat 139, (1 : Payload)) ∉ es)) = true := by decide +kernel
  refine ⟨by decide +kernel, ?_⟩
  cases hrun : BTree.new.run staleSeparatorOps with
  | error e => rw [hrun] at h; simp at h
  | ok t =>
    rw [hrun] at h
    dsimp only at h
    rw [Bool.and_eq_true, beq_iff_eq] at h
    refine ⟨t, rfl, fun hw => ?_⟩
    obtain ⟨es, hes, -, hmem⟩ := hw.data
    have hlost := h.2
    rw [hes] at hlost
    exact of_decide_eq_true hlost ((hmem _ _).mpr h.1)

end Plin
