import Mathlib.Algebra.GroupWithZero.Nat
import Plin.Index.Exact
import Plin.Properties.Leaf
import Plin.Properties.Block

/-!
# overflow tree の鍵の数

`overflow_number` は構築・`upsert`・`remove` の三箇所で数えられ、鍵は block ごとの overflow tree に入る。
`upsert` が鍵を置く先は五通りあり、数えるのは overflow tree に新しく入ったときだけである。

* 走行のどの時点でも、`overflow_number` はすべての block の overflow tree の鍵の数に等しい。
* `upsert` が分割を求めるのは、overflow tree に新しい鍵が入り、その数が `number_to_split` を超えたときに限る。

走行は leaf の列の上で考える。隣の leaf に移って書くこともあるので、呼び出しはどの leaf に対してもよく、
accelerator も何でもよい（`overflowNumber_exact`）。
-/

namespace Plin

open Infra

/-! ## block -/

namespace Block

variable {b : Block} {k : Key} {p : Payload}

/-- overflow tree に入っている鍵の数。 -/
def overflowEntries (b : Block) : Nat :=
  match b.overflowTree with
  | none => 0
  | some t => t.entries.length

theorem overflowEntries_upsertTree (b : Block) (k : Key) (p : Payload) (slots : List DataSlot) :
    ({ overflowTree := some ((b.overflowTree.getD SortedMap.empty).upsert k p), slots := slots } :
      Block).overflowEntries =
      if (b.treeGet k).isSome then b.overflowEntries else b.overflowEntries + 1 := by
  unfold overflowEntries treeGet
  cases b.overflowTree with
  | none => rfl
  | some t => exact length_insertEntries t.sorted

/-- 数が増えるのは、返り値が 4 のときだけである。 -/
theorem overflowEntries_upsert (b : Block) (k : Key) (p : Payload) :
    (b.upsert k p).2.overflowEntries =
      if (b.upsert k p).1 = 4 then b.overflowEntries + 1 else b.overflowEntries := by
  rcases upsert_cases b k p with ⟨x, s, y, -, -, -, he⟩ | ⟨-, x, s, y, -, -, -, he⟩ | ⟨-, -, he⟩
  · rw [he]
    rfl
  · rw [he]
    rfl
  · rw [he, overflowEntries_upsertTree]
    dsimp only
    cases (b.treeGet k).isSome <;> rfl

/-- 返り値は 4 以下である。5 と 6 は leaf が数え終わってから決める。 -/
theorem upsert_fst_le (b : Block) (k : Key) (p : Payload) : (b.upsert k p).1 ≤ 4 := by
  rcases upsert_cases b k p with ⟨x, s, y, -, -, -, he⟩ | ⟨-, x, s, y, -, -, -, he⟩ | ⟨-, -, he⟩
  · rw [he]
    exact (by decide : 1 ≤ 4)
  · rw [he]
    exact (by decide : 2 ≤ 4)
  · rw [he]
    dsimp only
    cases (b.treeGet k).isSome <;> decide

/-- 数が減るのは、返り値が 2 のときだけである。 -/
theorem overflowEntries_remove (b : Block) (k : Key) :
    (if (b.remove k).1 = 2 then (b.remove k).2.overflowEntries + 1
      else (b.remove k).2.overflowEntries) = b.overflowEntries := by
  rcases remove_cases b k with ⟨x, s, y, -, -, -, he⟩ | ⟨-, t, ht, hk, he⟩ | ⟨-, -, he⟩
  · rw [he]
    rfl
  · have hfind : (t.find k).isSome := by
      rw [treeGet, ht] at hk
      exact Option.isSome_iff_ne_none.mpr hk
    rw [he]
    unfold overflowEntries
    rw [ht]
    exact length_eraseEntries t.sorted hfind
  · rw [he]
    rfl

/-- まだ overflow tree に無い鍵を置くと、返る真偽のとおりに数が増える。 -/
theorem overflowEntries_place (h : b.treeGet k = none) :
    (b.place k p).2.overflowEntries =
      if (b.place k p).1 then b.overflowEntries + 1 else b.overflowEntries := by
  unfold place
  cases updateFirst freeFlag (fun _ => (⟨k, p⟩ : DataSlot)) b.slots with
  | some slots => rfl
  | none =>
    dsimp only
    rw [overflowEntries_upsertTree, h]
    rfl

/-- 置いた後の overflow tree に在るのは、前から在った鍵と置いた鍵だけである。 -/
theorem treeGet_place {k' : Key} (h : (b.place k p).2.treeGet k' ≠ none) :
    k' = k ∨ b.treeGet k' ≠ none := by
  unfold place at h
  cases hf : updateFirst freeFlag (fun _ => (⟨k, p⟩ : DataSlot)) b.slots with
  | some slots =>
    rw [hf] at h
    exact .inr h
  | none =>
    rw [hf] at h
    dsimp only at h
    rw [treeGet_upsertTree] at h
    by_cases hk : k' = k
    · exact .inl hk
    · rw [if_neg hk] at h
      exact .inr h

end Block

/-! ## leaf -/

namespace LeafNode

variable {D : Type} {l : LeafNode D} {leaves leaves₀ : List (LeafNode D)} {k : Key} {p : Payload}

/-- すべての block の overflow tree に入っている鍵の数。 -/
def overflowEntries (l : LeafNode D) : Nat := (l.blocks.map Block.overflowEntries).sum

/-- 一つの block を置き換えたときの数の変わり方。 -/
theorem sum_overflowEntries_set {blocks : List Block} {i : Nat} {b : Block}
    (hb : blocks[i]? = some b) (b' : Block) :
    ((blocks.set i b').map Block.overflowEntries).sum + b.overflowEntries =
      (blocks.map Block.overflowEntries).sum + b'.overflowEntries := by
  induction blocks generalizing i with
  | nil => cases hb
  | cons c blocks ih =>
    cases i with
    | zero =>
      obtain rfl : c = b := Option.some.inj hb
      simp only [List.set_cons_zero, List.map_cons, List.sum_cons]
      omega
    | succ i =>
      have hrest := ih hb
      simp only [List.set_cons_succ, List.map_cons, List.sum_cons]
      omega

/-- 数え上げが overflow tree の中身と合っている。leaf は捨てられておらず、lock も掛かっていない。 -/
structure Counted (l : LeafNode D) : Prop where
  count : l.overflowNumber = l.overflowEntries
  kept : l.isAbandoned = false
  unlocked : l.locked = 0

/-! ### 構築 -/

variable [Arith D]

/-- 構築の途中。overflow tree には置き終えた鍵だけが在る。 -/
structure Placed (l : LeafNode D) (keys : List Key) : Prop extends l.Counted where
  keys : ∀ b ∈ l.blocks, ∀ k, b.treeGet k ≠ none → k ∈ keys

theorem placed_initial (blockNumber : Nat) (keys : List Key) (startPos : Nat)
    (slope intercept : D) (prev : Option LeafId) :
    (initial blockNumber keys startPos slope intercept prev).Placed [] where
  count := by
    show 0 = ((List.replicate blockNumber Block.init).map Block.overflowEntries).sum
    rw [List.map_replicate, List.sum_replicate_nat]
    rfl
  kept := rfl
  unlocked := rfl
  keys := by
    intro b hb k hk
    obtain rfl : b = Block.init := List.eq_of_mem_replicate hb
    exact absurd rfl hk

/-- 新しい鍵を一つ置く。 -/
theorem Placed.dataPlacement {keys : List Key} (h : l.Placed keys) (hk : k ∉ keys) :
    (l.dataPlacement k p).Placed (k :: keys) := by
  unfold LeafNode.dataPlacement
  dsimp only
  cases hb : l.blocks[l.predict k]? with
  | none =>
    exact { h with
            keys := fun b hm q hq => List.mem_cons_of_mem _ (h.keys b hm q hq) }
  | some b =>
    have hnew : b.treeGet k = none := by
      by_contra hc
      exact hk (h.keys b (List.mem_of_getElem? hb) k hc)
    refine { count := ?_, kept := h.kept, unlocked := h.unlocked, keys := ?_ }
    · have hplace := Block.overflowEntries_place (p := p) hnew
      have hset := sum_overflowEntries_set hb (b.place k p).2
      have hcount := h.count
      unfold overflowEntries at hcount ⊢
      show (if (b.place k p).1 then l.overflowNumber + 1 else l.overflowNumber) = _
      dsimp only
      split at hplace <;> rename_i hflag <;> simp only [hflag, if_true, if_false,
        Bool.false_eq_true] <;> omega
    · intro c hc q hq
      rcases List.mem_or_eq_of_mem_set hc with hc | rfl
      · exact List.mem_cons_of_mem _ (h.keys c hc q hq)
      · rcases Block.treeGet_place hq with rfl | hq
        · exact List.mem_cons_self
        · exact List.mem_cons_of_mem _ (h.keys b (List.mem_of_getElem? hb) q hq)

/-- 鍵が重ならない data を順に置く。 -/
theorem Placed.foldl {data : List (Key × Payload)} :
    ∀ {l : LeafNode D} {keys : List Key}, l.Placed keys → (data.map Prod.fst).Nodup →
      (∀ k ∈ data.map Prod.fst, k ∉ keys) →
        (data.foldl (fun l e => l.dataPlacement e.1 e.2) l).Counted := by
  induction data with
  | nil => exact fun h _ _ => h.toCounted
  | cons e data ih =>
    intro l keys h hnodup hnew
    obtain ⟨he, hrest⟩ := List.nodup_cons.mp hnodup
    refine ih (h.dataPlacement (hnew e.1 (by simp))) hrest fun k hk hc => ?_
    rcases List.mem_cons.mp hc with rfl | hc
    · exact he hk
    · exact hnew k (List.mem_cons_of_mem _ hk) hc

/-- 狭義に増える鍵から作った leaf は、数え上げが合っている。 -/
theorem counted_new (blockNumber : Nat) {data : List (Key × Payload)}
    (hsort : (data.map Prod.fst).Pairwise (· < ·)) (startPos : Nat) (slope intercept : D)
    (prev : Option LeafId) : (new blockNumber data startPos slope intercept prev).Counted := by
  have hnodup : (data.map Prod.fst).Nodup := hsort.imp fun h => ne_of_lt h
  exact (placed_initial blockNumber _ startPos slope intercept prev).foldl hnodup
    fun k _ => List.not_mem_nil

/-! ### 一手 -/

variable {this : LeafId} {accelerator : Option (InnerSlot D)} {r : UpsertResult D}

/-- leaf `i` の `next` は leaf `j` を指す。 -/
def NextOf (leaves : List (LeafNode D)) (i j : LeafId) : Prop :=
  ∃ l, leaves[i]? = some l ∧ l.next = some j

/-- 自分に留まれば渡された accelerator を使い、`next` をたどって移った先では使わない。 -/
theorem locate_at {fuel : Nat} :
    ∀ {this : LeafId} {accelerator : Option (InnerSlot D)} {x : LeafId}
      {acc : Option (InnerSlot D)} {block : Nat},
      locate leaves k fuel this accelerator = some (.at x acc block) →
        (x = this ∧ acc = accelerator) ∨ acc = none ∧ Relation.TransGen (NextOf leaves) this x := by
  induction fuel with
  | zero =>
    intro this accelerator x acc block h
    cases h
  | succ fuel ih =>
    intro this accelerator x acc block h
    rw [locate] at h
    obtain ⟨l, hl, h⟩ := Option.bind_eq_some_iff.mp h
    split at h
    · cases h
    dsimp only at h
    cases hnext : l.next with
    | none =>
      rw [hnext, ite_self] at h
      cases h
      exact .inl ⟨rfl, rfl⟩
    | some n =>
      rw [hnext] at h
      have hstep : NextOf leaves this n := ⟨l, hl, hnext⟩
      -- 予測した block の番号は結論に関わらない
      have hany : ∀ bn predicted, (if sub32 bn 2 ≤ predicted then do
            let next ← leaves[n]?
            if next.firstKey ≤ k then locate leaves k fuel n none
            else some (.at this accelerator predicted)
          else some (.at this accelerator predicted)) = some (.at x acc block) →
          (x = this ∧ acc = accelerator) ∨
            acc = none ∧ Relation.TransGen (NextOf leaves) this x := by
        intro bn predicted h
        split at h
        · obtain ⟨next, -, h⟩ := Option.bind_eq_some_iff.mp h
          split at h
          · rcases ih h with ⟨rfl, hacc⟩ | ⟨hacc, hpath⟩
            · exact .inr ⟨hacc, .single hstep⟩
            · exact .inr ⟨hacc, .head hstep hpath⟩
          · cases h
            exact .inl ⟨rfl, rfl⟩
        · cases h
          exact .inl ⟨rfl, rfl⟩
      exact hany _ _ h

/-- leaf の lock 語が 0 なら、read lock が見つかるのは渡された accelerator だけである。 -/
theorem locate_locked (hfree : ∀ l ∈ leaves, l.locked = 0) {fuel : Nat} :
    ∀ {this : LeafId} {accelerator : Option (InnerSlot D)},
      locate leaves k fuel this accelerator = some .locked →
        ∃ a, accelerator = some a ∧ a.readLock = true := by
  induction fuel with
  | zero =>
    intro this accelerator h
    cases h
  | succ fuel ih =>
    intro this accelerator h
    rw [locate] at h
    obtain ⟨l, hl, h⟩ := Option.bind_eq_some_iff.mp h
    have hlock := hfree l (List.mem_of_getElem? hl)
    split at h
    · next hread =>
      cases accelerator with
      | none => simp [checkReadLock, hlock] at hread
      | some a => exact ⟨a, rfl, by simpa [checkReadLock] using hread⟩
    dsimp only at h
    cases hnext : l.next with
    | none =>
      rw [hnext, ite_self] at h
      cases h
    | some n =>
      rw [hnext] at h
      have hany : ∀ bn predicted, (if sub32 bn 2 ≤ predicted then do
            let next ← leaves[n]?
            if next.firstKey ≤ k then locate leaves k fuel n none
            else some (.at this accelerator predicted)
          else some (.at this accelerator predicted)) = some .locked → False := by
        intro bn predicted h
        split at h
        · obtain ⟨next, -, h⟩ := Option.bind_eq_some_iff.mp h
          split at h
          · obtain ⟨a, ha, -⟩ := ih h
            cases ha
          · cases h
        · cases h
      exact absurd h (hany _ _)

/-- `upsert` は、やり直しを返して何も書かないか、一つの block を書いて後始末をする。 -/
theorem upsert_eq_some (h : upsert leaves this k p accelerator = some r) :
    (r = ⟨7, leaves, none⟩ ∧
      (locate leaves k (leaves.length + 1) this accelerator = some .locked ∨
        ∃ x acc block l, locate leaves k (leaves.length + 1) this accelerator =
          some (.at x acc block) ∧ leaves[x]? = some l ∧ l.checkWriteLock acc = false)) ∨
    ∃ x acc block l b,
      locate leaves k (leaves.length + 1) this accelerator = some (.at x acc block) ∧
      leaves[x]? = some l ∧ l.blocks[slotBlock block]? = some b ∧
      r = let f := l.finishUpsert x acc (b.upsert k p).1
            (l.blocks.set (slotBlock block) (b.upsert k p).2)
        ⟨if l.isAbandoned then 7 else f.1, leaves.set x f.2.1, f.2.2⟩ := by
  unfold upsert at h
  obtain ⟨loc, hloc, h⟩ := Option.bind_eq_some_iff.mp h
  cases loc with
  | locked => exact .inl ⟨(Option.some.inj h).symm, .inl hloc⟩
  | «at» x acc block =>
    dsimp only at h
    obtain ⟨l, hl, h⟩ := Option.bind_eq_some_iff.mp h
    split at h
    · next hw =>
      refine .inl ⟨(Option.some.inj h).symm, .inr ⟨x, acc, block, l, hloc, hl, ?_⟩⟩
      simpa using hw
    · obtain ⟨b, hb, h⟩ := Option.bind_eq_some_iff.mp h
      exact .inr ⟨x, acc, block, l, b, hloc, hl, hb, (Option.some.inj h).symm⟩

/-- `remove` も同じである。 -/
theorem remove_eq_some {res : Nat × List (LeafNode D)}
    (h : remove leaves this k accelerator = some res) :
    res = (3, leaves) ∨ ∃ (x block : Nat) (l : LeafNode D) (b : Block),
      leaves[x]? = some l ∧ l.blocks[slotBlock block]? = some b ∧
      res = ((b.remove k).1, leaves.set x { l with
        blocks := l.blocks.set (slotBlock block) (b.remove k).2
        overflowNumber := if (b.remove k).1 = 2 then decOverflow l.overflowNumber
          else l.overflowNumber }) := by
  unfold remove at h
  obtain ⟨loc, hloc, h⟩ := Option.bind_eq_some_iff.mp h
  cases loc with
  | locked => exact .inl (Option.some.inj h).symm
  | «at» x acc block =>
    dsimp only at h
    obtain ⟨l, hl, h⟩ := Option.bind_eq_some_iff.mp h
    split at h
    · exact .inl (Option.some.inj h).symm
    · obtain ⟨b, hb, h⟩ := Option.bind_eq_some_iff.mp h
      refine .inr ⟨x, block, l, b, hl, hb, ?_⟩
      rw [← Option.some.inj h]
      split <;> rfl

/-- 書いた鍵が overflow tree に新しく入り、その数が上限を超えた。 -/
def SplitDue (l l' : LeafNode D) : Prop :=
  l'.overflowEntries = l.overflowEntries + 1 ∧ l'.numberToSplit < l'.overflowEntries

/--
`upsert` の報告の仕方。書いた leaf が分割を要するときに限り、その leaf を分割させる。

返り値は、呼ばれた leaf に書いたなら accelerator が有れば 5、無ければ 6 である。`next` をたどった先の
leaf に書いたときは、accelerator を使わないので 6 である。やり直しになるのは、渡された親 slot に lock が
掛かっているときだけである。
-/
inductive UpsertReport (leaves : List (LeafNode D)) (this : LeafId)
    (accelerator : Option (InnerSlot D)) (r : UpsertResult D) : Prop where
  | retry (h : r = ⟨7, leaves, none⟩)
      (busy : ∃ a, accelerator = some a ∧ (a.readLock = true ∨ a.writeLock = true))
  | here (l l' : LeafNode D) (from_ : leaves[this]? = some l) (to_ : r.leaves = leaves.set this l')
      (due : l.SplitDue l' →
        r.leafToSplit = some this ∧ r.ret = if accelerator.isSome then 5 else 6)
      (notDue : ¬ l.SplitDue l' → r.leafToSplit = none ∧ r.ret ≤ 4)
  | beyond (x : LeafId) (l l' : LeafNode D) (path : Relation.TransGen (NextOf leaves) this x)
      (from_ : leaves[x]? = some l) (to_ : r.leaves = leaves.set x l')
      (due : l.SplitDue l' → r.leafToSplit = some x ∧ r.ret = 6)
      (notDue : ¬ l.SplitDue l' → r.leafToSplit = none ∧ r.ret ≤ 4)

omit [Arith D] in
/-- 後始末は、overflow tree の中身に合わせて数える。 -/
theorem Counted.finishUpsert (h : l.Counted) (x : LeafId) (acc : Option (InnerSlot D)) {i : Nat}
    {b : Block} (hb : l.blocks[i]? = some b) (k : Key) (p : Payload) :
    let r := l.finishUpsert x acc (b.upsert k p).1 (l.blocks.set i (b.upsert k p).2)
    r.2.1.Counted ∧
      (l.SplitDue r.2.1 → r.2.2 = some x ∧ r.1 = if acc.isSome then 5 else 6) ∧
      (¬ l.SplitDue r.2.1 → r.2.2 = none ∧ r.1 ≤ 4) := by
  have hcount := h.count
  have hset := sum_overflowEntries_set hb (b.upsert k p).2
  have hup := Block.overflowEntries_upsert b k p
  have hle := Block.upsert_fst_le b k p
  unfold LeafNode.finishUpsert SplitDue
  unfold overflowEntries at hcount ⊢
  generalize b.upsert k p = u at *
  by_cases h4 : u.1 = 4
  · rw [if_pos h4] at hup
    have htotal : (((l.blocks.set i u.2).map Block.overflowEntries).sum) =
        l.overflowNumber + 1 := by omega
    by_cases hdue : l.numberToSplit < l.overflowNumber + 1
    · rw [if_pos h4, if_pos hdue]
      refine ⟨⟨htotal.symm, h.kept, h.unlocked⟩, fun _ => ⟨rfl, rfl⟩, fun hnot => ?_⟩
      refine absurd ⟨htotal.trans (congrArg (· + 1) hcount), ?_⟩ hnot
      exact lt_of_lt_of_eq hdue htotal.symm
    · rw [if_pos h4, if_neg hdue]
      refine ⟨⟨htotal.symm, h.kept, h.unlocked⟩, fun hyes => ?_, fun _ => ⟨rfl, le_rfl⟩⟩
      exact absurd (lt_of_lt_of_eq hyes.2 htotal) hdue
  · rw [if_neg h4] at hup
    have htotal : (((l.blocks.set i u.2).map Block.overflowEntries).sum) =
        l.overflowNumber := by omega
    rw [if_neg h4]
    refine ⟨⟨htotal.symm, h.kept, h.unlocked⟩, fun hyes => ?_, fun _ => ⟨rfl, hle⟩⟩
    have hgrew := htotal.symm.trans hyes.1
    omega

/-- 数え上げの合った leaf の列への `upsert`。 -/
theorem upsert_counted (h : ∀ l ∈ leaves, l.Counted)
    (hup : upsert leaves this k p accelerator = some r) :
    (∀ l ∈ r.leaves, l.Counted) ∧ UpsertReport leaves this accelerator r := by
  rcases upsert_eq_some hup with ⟨rfl, hbusy⟩ | ⟨x, acc, block, l, b, hloc, hl, hb, rfl⟩
  · refine ⟨h, .retry rfl ?_⟩
    rcases hbusy with hlocked | ⟨x, acc, block, l, hloc, hl, hw⟩
    · obtain ⟨a, ha, hread⟩ := locate_locked (fun l hl => (h l hl).unlocked) hlocked
      exact ⟨a, ha, .inl hread⟩
    · -- leaf 自身の lock は掛かっていないので、write lock は親 slot のものである
      cases acc with
      | none => simp [checkWriteLock, (h l (List.mem_of_getElem? hl)).unlocked] at hw
      | some a =>
        rcases locate_at hloc with ⟨-, hacc⟩ | ⟨hacc, -⟩
        · exact ⟨a, hacc.symm, .inr (by simpa [checkWriteLock] using hw)⟩
        · cases hacc
  · have hcl := h l (List.mem_of_getElem? hl)
    obtain ⟨hnew, hdue, hnot⟩ := hcl.finishUpsert x acc hb k p
    have hret : ∀ n, (if l.isAbandoned then 7 else n) = n := fun n => by rw [hcl.kept]; rfl
    refine ⟨fun c hc => ?_, ?_⟩
    · rcases List.mem_or_eq_of_mem_set hc with hc | rfl
      · exact h c hc
      · exact hnew
    · rcases locate_at hloc with ⟨rfl, rfl⟩ | ⟨rfl, hpath⟩
      · exact .here l _ hl rfl (fun h' => ⟨(hdue h').1, (hret _).trans (hdue h').2⟩)
          fun h' => ⟨(hnot h').1, (hret _).trans_le (hnot h').2⟩
      · exact .beyond x l _ hpath hl rfl (fun h' => ⟨(hdue h').1, (hret _).trans (hdue h').2⟩)
          fun h' => ⟨(hnot h').1, (hret _).trans_le (hnot h').2⟩

/-- 数え上げの合った leaf の列からの `remove`。消すのは在る鍵なので、数は 0 を下回らない。 -/
theorem remove_counted (h : ∀ l ∈ leaves, l.Counted) {res : Nat × List (LeafNode D)}
    (hrem : remove leaves this k accelerator = some res) : ∀ l ∈ res.2, l.Counted := by
  rcases remove_eq_some hrem with rfl | ⟨x, block, l, b, hl, hb, rfl⟩
  · exact h
  · intro c hc
    rcases List.mem_or_eq_of_mem_set hc with hc | rfl
    · exact h c hc
    · have hcl := h l (List.mem_of_getElem? hl)
      have hcount := hcl.count
      have hset := sum_overflowEntries_set hb (b.remove k).2
      have hrm := Block.overflowEntries_remove b k
      refine ⟨?_, hcl.kept, hcl.unlocked⟩
      unfold overflowEntries at hcount ⊢
      dsimp only
      unfold decOverflow
      split at hrm
      · next h2 =>
        rw [if_pos h2, if_neg (by omega)]
        omega
      · next h2 =>
        rw [if_neg h2]
        omega

/-! ### 走行 -/

/-- 狭義に増える鍵から構築子が作った leaf。`next` だけは構築の後で繋がれる。 -/
def Constructed (l : LeafNode D) : Prop :=
  ∃ (blockNumber : Nat) (data : List (Key × Payload)) (startPos : Nat) (slope intercept : D)
    (prev next : Option LeafId), (data.map Prod.fst).Pairwise (· < ·) ∧
      l = { new blockNumber data startPos slope intercept prev with next := next }

theorem Constructed.counted (h : l.Constructed) : l.Counted := by
  obtain ⟨blockNumber, data, startPos, slope, intercept, prev, next, hsort, rfl⟩ := h
  have hnew := counted_new blockNumber hsort startPos slope intercept prev
  exact ⟨hnew.count, hnew.kept, hnew.unlocked⟩

/-- leaf の列への呼び出しの走行。どの leaf をどの accelerator で呼んでもよい。 -/
inductive Runs (leaves₀ : List (LeafNode D)) : List (LeafNode D) → Prop where
  | start : Runs leaves₀ leaves₀
  | upsert {leaves : List (LeafNode D)} {this : LeafId} {key : Key} {payload : Payload}
      {accelerator : Option (InnerSlot D)} {r : UpsertResult D} (run : Runs leaves₀ leaves)
      (call : LeafNode.upsert leaves this key payload accelerator = some r) :
      Runs leaves₀ r.leaves
  | remove {leaves : List (LeafNode D)} {this : LeafId} {key : Key}
      {accelerator : Option (InnerSlot D)} {res : Nat × List (LeafNode D)}
      (run : Runs leaves₀ leaves)
      (call : LeafNode.remove leaves this key accelerator = some res) : Runs leaves₀ res.2

/-- 走行のどの時点でも数え上げは合っている。 -/
theorem Runs.counted (hstart : ∀ l ∈ leaves₀, l.Constructed) (hrun : Runs leaves₀ leaves) :
    ∀ l ∈ leaves, l.Counted := by
  induction hrun with
  | start => exact fun l hl => (hstart l hl).counted
  | upsert _ call ih => exact (upsert_counted ih call).1
  | remove _ call ih => exact remove_counted ih call

/-- 呼び出しに渡す accelerator。lock は掛かっておらず、model は leaf の block を指す。 -/
structure Usable (l : LeafNode D) (k : Key) (a : InnerSlot D) : Prop where
  read : a.readLock = false
  write : a.writeLock = false
  room : predictBlock k a.slope a.intercept a.blockNumber < l.blocks.length

/-- 隣の無い leaf への呼び出しは必ず終わり、やり直しにならない。 -/
theorem Counted.exists_upsert (h : l.Counted) (hl : leaves[this]? = some l)
    (hnext : l.next = none) (k : Key) (p : Payload)
    (hacc : ∀ a, accelerator = some a → l.Usable k a)
    (hown : accelerator = none → l.predict k < l.blocks.length) :
    ∃ r, LeafNode.upsert leaves this k p accelerator = some r ∧ r.ret ≠ 7 := by
  obtain ⟨block, hloc, hroom, hwrite⟩ : ∃ block,
      locate leaves k (leaves.length + 1) this accelerator = some (.at this accelerator block) ∧
        block < l.blocks.length ∧ l.checkWriteLock accelerator = true := by
    cases accelerator with
    | none =>
      refine ⟨l.predict k, ?_, hown rfl, by simp [checkWriteLock, h.unlocked]⟩
      simp [locate, hl, hnext, checkReadLock, h.unlocked]
    | some a =>
      have ha := hacc a rfl
      have hread : l.checkReadLock (some a) = true := by simp [checkReadLock, ha.read]
      refine ⟨predictBlock k a.slope a.intercept a.blockNumber, ?_, ha.room,
        by simp [checkWriteLock, ha.write]⟩
      rw [locate, hl]
      simp only [Option.bind_eq_bind, Option.bind_some, hread, Bool.not_true, Bool.false_eq_true,
        if_false, hnext, ite_self]
  have hlt : slotBlock block < l.blocks.length := lt_of_le_of_lt (slotBlock_le _) hroom
  have hb := List.getElem?_eq_getElem hlt
  refine ⟨_, upsert_of_locate hloc hl hwrite hb, ?_⟩
  obtain ⟨-, hdue, hnot⟩ := h.finishUpsert this accelerator hb k p
  rw [h.kept]
  by_cases hc : l.SplitDue (l.finishUpsert this accelerator
      (l.blocks[slotBlock block].upsert k p).1 (l.blocks.set (slotBlock block)
        (l.blocks[slotBlock block].upsert k p).2)).2.1
  · have h56 := (hdue hc).2
    exact fun h7 => absurd (h56.symm.trans h7) (by split <;> decide)
  · exact fun h7 => absurd (h7.symm.trans_le (hnot hc).2) (by decide)

end LeafNode

open LeafNode in
/--
**数え上げは正確である。**

狭義に増える鍵から作られた leaf の列に `upsert` と `remove` を続けて呼ぶどの走行のどの時点でも、
`overflow_number` は overflow tree に入っている鍵の数に等しく、次の `upsert` は
`UpsertReport` のとおりに分割を求める。隣の無い leaf への呼び出しは必ず終わる。
-/
theorem overflowNumber_exact {D : Type} [Arith D] {leaves₀ leaves : List (LeafNode D)}
    (hstart : ∀ l ∈ leaves₀, l.Constructed) (hrun : Runs leaves₀ leaves) :
    (∀ l ∈ leaves, l.overflowNumber = l.overflowEntries) ∧
      (∀ this k p accelerator r, LeafNode.upsert leaves this k p accelerator = some r →
        UpsertReport leaves this accelerator r) ∧
      ∀ this l, leaves[this]? = some l → l.next = none → ∀ k p accelerator,
        (∀ a, accelerator = some a → l.Usable k a) →
        (accelerator = none → l.predict k < l.blocks.length) →
          ∃ r, LeafNode.upsert leaves this k p accelerator = some r ∧ r.ret ≠ 7 := by
  have h := hrun.counted hstart
  refine ⟨fun l hl => (h l hl).count, ?_, ?_⟩
  · intro this k p accelerator r hr
    exact (upsert_counted h hr).2
  · intro this l hl hnext k p accelerator hacc hown
    exact (h l (List.mem_of_getElem? hl)).exists_upsert hl hnext k p hacc hown

/-- 28 個の偶数から作った三 block の leaf。15 個が slot に、13 個が overflow tree に入る。 -/
def crowdedLeaf : LeafNode ℚ :=
  { LeafNode.new 3 ((List.range 28).map fun i => (Key.ofNat (2 * i + 2), UInt64.ofNat i)) 0 0 0 none
    with next := none }

/--
鍵 5 を書くと overflow tree の鍵は 14 個になり、上限の 13 を超えたので分割を求める。返り値は親 slot が有れば 5、
無ければ 6 である。
-/
theorem overflowNumber_exact_crowded :
    crowdedLeaf.overflowNumber = crowdedLeaf.overflowEntries ∧
      ∀ accelerator ∈ [none, some (crowdedLeaf.getInfo 0)],
        ∃ r, LeafNode.upsert [crowdedLeaf] 0 (Key.ofNat 5) 7 accelerator = some r ∧
          (r.ret, r.leafToSplit) = (if accelerator.isSome then 5 else 6, some 0) ∧
          LeafNode.UpsertReport [crowdedLeaf] 0 accelerator r ∧
          ∀ l ∈ r.leaves, l.overflowNumber = l.overflowEntries := by
  have hstart : ∀ l ∈ [crowdedLeaf], l.Constructed := by
    intro l hl
    obtain rfl := List.mem_singleton.mp hl
    refine ⟨3, (List.range 28).map fun i => (Key.ofNat (2 * i + 2), UInt64.ofNat i), 0, 0, 0, none,
      none, by decide +kernel, rfl⟩
  refine ⟨(overflowNumber_exact hstart .start).1 _ (by simp), fun accelerator hacc => ?_⟩
  have hsome : (LeafNode.upsert [crowdedLeaf] 0 (Key.ofNat 5) 7 accelerator).map
      (fun r => (r.ret, r.leafToSplit)) = some (if accelerator.isSome then 5 else 6, some 0) := by
    rcases List.mem_cons.mp hacc with rfl | hacc
    · decide +kernel
    · rw [List.mem_singleton.mp hacc]
      decide +kernel
  obtain ⟨r, hr, hret⟩ := Option.map_eq_some_iff.mp hsome
  refine ⟨r, hr, hret, ?_, ?_⟩
  · exact (overflowNumber_exact hstart .start).2.1 _ _ _ _ _ hr
  · exact (overflowNumber_exact hstart (.upsert .start hr)).1

end Plin
