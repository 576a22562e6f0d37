import Mathlib.Data.List.Flatten
import Plin.Index.RangeQuery
import Plin.Properties.IndexRefines

/-!
# 連鎖の走査

走査は、下限の鍵の block から始まり、上限より大きい鍵の slot を見た block で止まる。予測が単調なら、block の順は
鍵の順である。**飛ばした block と、止まった後の block には、区間の鍵が無い**（`Contents.scanLeaves_eq`）。だから
走査が足すのは、連鎖の全ての block から区間の組を集めたものに等しい。

集まらないのは、overflow tree の payload 0 だけである（`Contents.mem_rangeRows`）。`btree_plus::range_query` は
null の record を飛ばす。
-/

namespace Plin

open Infra

/-! ## 一つの block -/

section Tree

variable {lower upper k : Key} {v : Payload} {tree : SortedMap Key Payload}

theorem mem_treeRange : (k, v) ∈ treeRange lower upper tree ↔
    InRange lower upper k ∧ tree.find k = some v ∧ v ≠ 0 := by
  rw [treeRange, List.mem_filter, decide_eq_true_iff, SortedMap.mem_entries_iff]
  constructor
  · rintro ⟨hfind, hin, hv⟩
    exact ⟨hin, hfind, hv⟩
  · rintro ⟨hin, hfind, hv⟩
    exact ⟨hfind, hin, hv⟩

theorem nodup_treeRange : (treeRange lower upper tree).Pairwise fun x y => x.1 ≠ y.1 :=
  (tree.sorted.imp fun h => ne_of_lt h).filter _

/-- 写像の鍵について同じ区間なら、足す組も同じである。 -/
theorem treeRange_congr {lower' upper' : Key}
    (h : ∀ k, tree.find k ≠ none → (InRange lower upper k ↔ InRange lower' upper' k)) :
    treeRange lower upper tree = treeRange lower' upper' tree := by
  refine List.filter_congr fun e he => ?_
  have hfind : tree.find e.1 ≠ none := by
    rw [SortedMap.mem_entries_iff.mp he]
    exact Option.some_ne_none _
  rw [decide_eq_decide, h e.1 hfind]

/-- 写像の鍵がどれも区間の外なら、何も足さない。 -/
theorem treeRange_eq_nil (h : ∀ k, tree.find k ≠ none → ¬ InRange lower upper k) :
    treeRange lower upper tree = [] := by
  rw [List.eq_nil_iff_forall_not_mem]
  rintro ⟨k, v⟩ hmem
  obtain ⟨hin, hfind, -⟩ := mem_treeRange.mp hmem
  exact h k (by simp [hfind]) hin

end Tree

namespace Block

variable {b : Block} {lower upper k : Key} {v : Payload}

/-- 区間の組は、slot にあるか、overflow tree にあって payload が 0 でない。 -/
theorem mem_range : (k, v) ∈ b.range lower upper ↔ InRange lower upper k ∧
    (⟨k, v⟩ ∈ b.slots ∨ b.treeGet k = some v ∧ v ≠ 0) := by
  have hslots : (k, v) ∈ (b.slots.filter fun s => decide (InRange lower upper s.key)).map
      (fun s => (s.key, s.payload)) ↔ InRange lower upper k ∧ ⟨k, v⟩ ∈ b.slots := by
    rw [List.mem_map]
    constructor
    · rintro ⟨s, hs, he⟩
      obtain ⟨rfl, rfl⟩ := Prod.mk.inj he
      obtain ⟨hmem, hin⟩ := List.mem_filter.mp hs
      exact ⟨of_decide_eq_true hin, hmem⟩
    · rintro ⟨hin, hmem⟩
      exact ⟨⟨k, v⟩, List.mem_filter.mpr ⟨hmem, decide_eq_true hin⟩, rfl⟩
  have htree : (k, v) ∈ (b.overflowTree.map (treeRange lower upper)).getD [] ↔
      InRange lower upper k ∧ b.treeGet k = some v ∧ v ≠ 0 := by
    rw [treeGet]
    cases b.overflowTree with
    | none => simp
    | some tree => exact mem_treeRange
  rw [Block.range, List.mem_append, hslots, htree, and_or_left]

/-- 区間の組は block の中身の一部である。 -/
theorem range_sublist (hupper : upper < freeFlag) : (b.range lower upper).Sublist
    (b.pairs.filter fun e => decide (e.1 ≠ freeFlag)) := by
  have hne {k : Key} (h : InRange lower upper k) : k ≠ freeFlag :=
    ne_of_lt (lt_of_le_of_lt h.2 hupper)
  rw [Block.range, pairs, List.filter_append]
  refine List.Sublist.append ?_ ?_
  · rw [List.filter_map, List.filter_filter]
    refine List.Sublist.map _ (List.monotone_filter_right _ fun s hs => ?_)
    have hkey := hne (of_decide_eq_true hs)
    simp [Block.isSentinel_iff, hkey, ← Bool.not_eq_true]
  · cases b.overflowTree with
    | none => simp
    | some tree =>
      refine List.monotone_filter_right _ fun e he => ?_
      exact decide_eq_true (hne (of_decide_eq_true he).1)

theorem get_of_mem_range (hupper : upper < freeFlag) (h : (k, v) ∈ b.range lower upper) :
    k ≠ freeFlag ∧ b.get k ≠ none := by
  obtain ⟨hmem, hk⟩ := List.mem_filter.mp ((range_sublist hupper).subset h)
  exact ⟨of_decide_eq_true hk, get_ne_none_of_mem hmem⟩

/-- 区間の外の鍵しか無い block からは、何も足さない。 -/
theorem range_eq_nil (hupper : upper < freeFlag)
    (h : ∀ k, k ≠ freeFlag → b.get k ≠ none → ¬ InRange lower upper k) :
    b.range lower upper = [] := by
  rw [List.eq_nil_iff_forall_not_mem]
  rintro ⟨k, v⟩ hmem
  obtain ⟨hk, hget⟩ := get_of_mem_range hupper hmem
  exact h k hk hget (mem_range.mp hmem).1

/-- block の鍵について同じ区間なら、足す組も同じである。 -/
theorem range_congr {lower' upper' : Key} (hupper : upper < freeFlag) (hupper' : upper' < freeFlag)
    (h : ∀ k, k ≠ freeFlag → b.get k ≠ none →
      (InRange lower upper k ↔ InRange lower' upper' k)) :
    b.range lower upper = b.range lower' upper' := by
  -- `FREE_FLAG` はどちらの区間にも入らない
  have hall {k : Key} (hget : b.get k ≠ none) :
      InRange lower upper k ↔ InRange lower' upper' k := by
    by_cases hk : k = freeFlag
    · rw [hk]
      exact iff_of_false (fun hin => not_lt.mpr hin.2 hupper) fun hin => not_lt.mpr hin.2 hupper'
    · exact h k hk hget
  have hslots : (b.slots.filter fun s => decide (InRange lower upper s.key)) =
      b.slots.filter fun s => decide (InRange lower' upper' s.key) := by
    refine List.filter_congr fun s hs => ?_
    rw [decide_eq_decide]
    refine hall ?_
    rw [get, Ne, Option.or_eq_none_iff, not_and_or]
    exact Or.inl fun hnone => slotGet_eq_none.mp hnone s hs rfl
  rw [Block.range, Block.range, hslots]
  cases htree : b.overflowTree with
  | none => rfl
  | some tree =>
    have htrees : treeRange lower upper tree = treeRange lower' upper' tree :=
      treeRange_congr fun k hfind => hall fun hnone => hfind (by
        simpa [treeGet, htree] using (Option.or_eq_none_iff.mp hnone).2)
    rw [Option.map_some, Option.map_some, htrees]

/-- 走査が止まる block には、上限より大きい鍵がある。 -/
theorem exists_of_passes (h : b.passes lower upper = true) :
    ∃ k, k ≠ freeFlag ∧ b.get k ≠ none ∧ upper < k := by
  obtain ⟨s, hs, hpass⟩ := List.any_eq_true.mp h
  obtain ⟨-, hlt, hfree, -⟩ := of_decide_eq_true hpass
  refine ⟨s.key, hfree, ?_, hlt⟩
  rw [get, Ne, Option.or_eq_none_iff, not_and_or]
  exact Or.inl fun hnone => slotGet_eq_none.mp hnone s hs rfl

end Block

namespace LeafNode

/-! ## block の走査 -/

section Scan

variable {blocks : List Block} {lower upper : Key}

/-- 止まった後の block に区間の組が無ければ、走査は残りの block の区間の組を全て足す。 -/
theorem scanBlocks_eq
    (hstop : ∀ (i j : Nat) (b b' : Block), i < j → blocks[i]? = some b → blocks[j]? = some b' →
      b.passes lower upper = true → b'.range lower upper = []) :
    ∀ (n block : Nat) (answers : List (Key × Payload)), block + n ≤ blocks.length →
      ∃ more, scanBlocks blocks lower upper n block answers =
          some (answers ++ ((blocks.drop block).take n).flatMap (Block.range lower upper), more) ∧
        (more = false → ∃ b ∈ blocks, b.passes lower upper = true)
  | 0, block, answers, _ => ⟨true, by simp [scanBlocks], nofun⟩
  | n + 1, block, answers, hlen => by
    have hlt : block < blocks.length := by omega
    have hget : blocks[block]? = some blocks[block] := List.getElem?_eq_getElem hlt
    have hcut : (blocks.drop block).take (n + 1) =
        blocks[block] :: (blocks.drop (block + 1)).take n := by
      rw [List.drop_eq_getElem_cons hlt, List.take_succ_cons]
    rw [scanBlocks, hget, hcut, List.flatMap_cons]
    simp only [Option.bind_eq_bind, Option.bind_some]
    by_cases hpass : blocks[block].passes lower upper = true
    · refine ⟨false, ?_, fun _ => ⟨_, List.getElem_mem hlt, hpass⟩⟩
      have hrest : ((blocks.drop (block + 1)).take n).flatMap (Block.range lower upper) = [] := by
        rw [List.flatMap_eq_nil_iff]
        intro b hb
        obtain ⟨j, hj⟩ := List.mem_iff_getElem?.mp (List.mem_of_mem_take hb)
        rw [List.getElem?_drop] at hj
        have hlater : block < block + 1 + j := by omega
        exact hstop block (block + 1 + j) _ b hlater hget hj hpass
      rw [if_pos hpass, hrest, List.append_nil]
    · rw [if_neg hpass]
      obtain ⟨more, hscan, hmore⟩ := scanBlocks_eq hstop n (block + 1)
        (answers ++ blocks[block].range lower upper) (by omega)
      exact ⟨more, by rw [hscan, List.append_assoc], hmore⟩

end Scan

variable {D : Type} [Arith D]

/-- leaf の区間の組。 -/
def rangeRows (lower upper : Key) (l : LeafNode D) : List (Key × Payload) :=
  (l.blocks.take l.blockNumber).flatMap (Block.range lower upper)

/-- leaf `l` で隣に移るかどうか。`find` と走査に共通である。 -/
def hop {α : Type} (leaves : List (LeafNode D)) (key : Key) (l : LeafNode D) (bn block : Nat)
    (stay : α) (go : LeafId → Option α) : Option α :=
  if sub32 bn 2 ≤ block then
    match l.next with
    | none => some stay
    | some n => do
      let next ← leaves[n]?
      if next.firstKey ≤ key then go n else some stay
  else some stay

/-- `accelerator` の有無に応じた予測。 -/
def predictVia (l : LeafNode D) (key : Key) (accelerator : Option (InnerSlot D)) : Nat :=
  match accelerator with
  | some a => predictBlock key a.slope a.intercept a.blockNumber
  | none => l.predict key

/-- `accelerator` の有無に応じた block の個数。 -/
def blocksVia (l : LeafNode D) (accelerator : Option (InnerSlot D)) : Nat :=
  (accelerator.map (·.blockNumber)).getD l.blockNumber

/-- `find` が選んだ leaf と block から始まる走査。 -/
def scanFrom (leaves : List (LeafNode D)) : Located D → Option (LeafId × Nat × Nat)
  | .locked => none
  | .at id acc block => (leaves[id]?).map fun l => (id, block, l.blocksVia acc)

section Seek

variable {leaves : List (LeafNode D)} {lower : Key} {l : LeafNode D} {this : LeafId}

theorem locate_hop (hl : leaves[this]? = some l) (fuel : Nat) (a : Option (InnerSlot D)) :
    locate leaves lower (fuel + 1) this a = if !l.checkReadLock a then some .locked else
      hop leaves lower l (l.blocksVia a) (l.predictVia lower a)
        (.at this a (l.predictVia lower a)) fun n => locate leaves lower fuel n none := by
  rw [locate, hl, Option.bind_eq_bind, Option.bind_some]
  unfold hop blocksVia predictVia
  cases l.next with
  | none => rfl
  | some n => rfl

theorem seek_hop (hl : leaves[this]? = some l) (fuel : Nat) (a : Option (InnerSlot D)) :
    seek leaves lower (fuel + 1) this a =
      hop leaves lower l (l.blocksVia a) (l.predictVia lower a)
        (this, l.predictVia lower a, l.blocksVia a) fun n => seek leaves lower fuel n none := by
  rw [seek, hl, Option.bind_eq_bind, Option.bind_some]
  unfold hop blocksVia predictVia
  cases l.next with
  | none => rfl
  | some n => rfl

omit [Arith D] in
/-- 移る先で `f` が対応していれば、移るかどうかの結果も対応する。 -/
theorem hop_map {α β : Type} {bn block : Nat} {stay : α} {go : LeafId → Option α} {r : α}
    {f : α → Option β} {go' : LeafId → Option β}
    (hgo : ∀ n, go n = some r → go' n = f r)
    (h : hop leaves lower l bn block stay go = some r) {stay' : β} (hstay : f stay = some stay') :
    hop leaves lower l bn block stay' go' = f r := by
  unfold hop at h ⊢
  split at h
  · next hblock =>
    rw [if_pos hblock]
    cases hnext : l.next with
    | none =>
      rw [hnext] at h
      rw [← Option.some.inj h, hstay]
    | some n =>
      rw [hnext] at h
      obtain ⟨next, hn, h⟩ := Option.bind_eq_some_iff.mp h
      simp only [hn, Option.bind_eq_bind, Option.bind_some]
      split at h
      · next hle =>
        rw [if_pos hle]
        exact hgo n h
      · next hle => rw [if_neg hle, ← Option.some.inj h, hstay]
  · next hblock => rw [if_neg hblock, ← Option.some.inj h, hstay]

/-- `find` が leaf と block を選べれば、走査もそこから始まる。 -/
theorem seek_of_locate {id : LeafId} {acc : Option (InnerSlot D)} {block : Nat} (fuel : Nat) :
    ∀ {this : LeafId} {a : Option (InnerSlot D)},
      locate leaves lower fuel this a = some (.at id acc block) →
      seek leaves lower fuel this a = scanFrom leaves (.at id acc block) := by
  induction fuel with
  | zero =>
    intro this a h
    cases h
  | succ fuel ih =>
    intro this a h
    cases hl : leaves[this]? with
    | none =>
      rw [locate, hl] at h
      cases h
    | some l =>
      rw [locate_hop hl] at h
      split at h
      · cases h
      · rw [seek_hop hl]
        have hstay : scanFrom leaves (.at this a (l.predictVia lower a)) =
            some (this, l.predictVia lower a, l.blocksVia a) := by
          rw [scanFrom, hl]
          rfl
        exact hop_map (fun n hn => ih hn) h hstay

end Seek

end LeafNode

variable {D : Type} [Arith D]

/-! ## leaf の走査 -/

/--
連鎖の走査の条件。上限より大きい鍵の slot を見た block より後ろに、区間の組は無い。
-/
structure Scans (lower upper : Key) (leaves : List (LeafNode D)) (c : List (Link D)) : Prop where
  stored : ∀ x ∈ c, leaves[x.1]? = some x.2
  next : ∀ {A B : List (Link D)} {x : Link D}, c = A ++ x :: B → x.2.next = firstId B none
  room : ∀ x ∈ c, x.2.blockNumber ≤ x.2.blocks.length
  stop : ∀ x ∈ c, ∀ (i j : Nat) (b b' : Block), i < j → x.2.blocks[i]? = some b →
    x.2.blocks[j]? = some b' → b.passes lower upper = true → b'.range lower upper = []
  later : c.Pairwise fun x y => (∃ b ∈ x.2.blocks, b.passes lower upper = true) →
    y.2.rangeRows lower upper = []

/-- leaf `z` の block `block` から先の区間の組。 -/
def LeafNode.rowsFrom (lower upper : Key) (l : LeafNode D) (block : Nat) : List (Key × Payload) :=
  ((l.blocks.drop block).take (l.blockNumber - block)).flatMap (Block.range lower upper)

omit [Arith D] in
theorem LeafNode.rowsFrom_zero (lower upper : Key) (l : LeafNode D) :
    l.rowsFrom lower upper 0 = l.rangeRows lower upper := by
  rw [rowsFrom, rangeRows, List.drop_zero, Nat.sub_zero]

omit [Arith D] in
/-- **走査は、残りの block の区間の組を全て足して終わる。** -/
theorem Scans.scanLeaves_eq {lower upper : Key} {leaves : List (LeafNode D)} {c : List (Link D)}
    (h : Scans lower upper leaves c) : ∀ {B A : List (Link D)} {z : Link D} {fuel block : Nat}
      (answers : List (Key × Payload)), c = A ++ z :: B → B.length < fuel →
      block ≤ z.2.blockNumber →
      LeafNode.scanLeaves leaves lower upper fuel z.1 block z.2.blockNumber answers =
        some (answers ++ z.2.rowsFrom lower upper block ++
          B.flatMap fun x => x.2.rangeRows lower upper)
  | B, A, z, fuel, block, answers, hc, hfuel, hblock => by
    obtain ⟨fuel, rfl⟩ : ∃ n, fuel = n + 1 := ⟨fuel - 1, by omega⟩
    have hz : z ∈ c := by rw [hc]; simp
    obtain ⟨more, hscan, hstop⟩ := LeafNode.scanBlocks_eq (h.stop z hz) (z.2.blockNumber - block)
      block answers (by have := h.room z hz; omega)
    rw [LeafNode.scanLeaves, h.stored z hz, Option.bind_eq_bind, Option.bind_some, hscan,
      Option.bind_eq_bind, Option.bind_some, ← LeafNode.rowsFrom]
    have hnext := h.next hc
    cases more with
    | false =>
      have hrest : (B.flatMap fun x => x.2.rangeRows lower upper) = [] := by
        have hlater := h.later
        rw [hc] at hlater
        rw [List.flatMap_eq_nil_iff]
        intro x hx
        exact (List.pairwise_cons.mp (List.pairwise_append.mp hlater).2.1).1 x hx (hstop rfl)
      rw [hrest, List.append_nil]
    | true =>
      cases B with
      | nil =>
        rw [hnext]
        simp [firstId]
      | cons w B =>
        have hw : w ∈ c := by rw [hc]; simp
        have hfuel' : B.length < fuel := by
          rw [List.length_cons] at hfuel
          omega
        have hrec := h.scanLeaves_eq (answers ++ z.2.rowsFrom lower upper block)
          (hc.trans (List.append_cons ..)) hfuel' (Nat.zero_le _)
        rw [LeafNode.rowsFrom_zero] at hrec
        rw [hnext]
        simp only [firstId, h.stored w hw, Option.bind_some]
        rw [hrec, List.flatMap_cons, List.append_assoc, List.append_assoc]

/-! ## block の順は鍵の順である -/

section Ordered

variable {lo hi lower upper : Key} {leaves : List (LeafNode D)} {c A B : List (Link D)}
  {m : Key → Option Payload} {x z : Link D}

/-- 走査に要る予測器の性質。単調であり、block は三つ以上ある。 -/
structure LeafNode.Scannable (lo hi : Key) (l : LeafNode D) : Prop where
  mono : ∀ a b, lo ≤ a → a ≤ b → b ≤ hi → l.predict a ≤ l.predict b
  three : 3 ≤ l.blockNumber

/-- 前の block の鍵は、後の block の鍵より小さい。 -/
theorem Contents.lt_of_block (hm : Contents c m) (h : Chain lo hi leaves c) (hx : x ∈ c)
    (hmono : x.2.Scannable lo hi) {i j : Nat} {b b' : Block} {k k' : Key} (hij : i < j)
    (hb : x.2.blocks[i]? = some b) (hb' : x.2.blocks[j]? = some b') (hk : k ≠ freeFlag)
    (hget : b.get k ≠ none) (hk' : k' ≠ freeFlag) (hget' : b'.get k' ≠ none) : k < k' := by
  have hi := hm.home x hx i b k hb hk hget
  have hj := hm.home x hx j b' k' hb' hk' hget'
  have hwithin := (h.sound x hx).keys k ⟨hk, b, List.mem_of_getElem? hb, hget⟩
  have hwithin' := (h.sound x hx).keys k' ⟨hk', b', List.mem_of_getElem? hb', hget'⟩
  by_contra hle
  have := hmono.mono k' k (le_trans (h.sound x hx).first.1 hwithin'.1) (not_lt.mp hle) hwithin.2
  omega

omit [Arith D] in
/-- 鍵が区間の外の leaf からは、何も足さない。 -/
theorem LeafNode.rangeRows_eq_nil {l : LeafNode D} (hupper : upper < freeFlag)
    (h : ∀ k, l.Stores k → ¬ InRange lower upper k) : l.rangeRows lower upper = [] := by
  rw [rangeRows, List.flatMap_eq_nil_iff]
  intro b hb
  exact Block.range_eq_nil hupper fun k hk hget => h k ⟨hk, b, List.mem_of_mem_take hb, hget⟩

/-- **連鎖の走査は、区間の組を落とさない。** -/
theorem Contents.scans (hm : Contents c m) (h : Chain lo hi leaves c)
    (hscan : ∀ x ∈ c, x.2.Scannable lo hi) (hsized : ∀ x ∈ c, x.2.blockNumber ≤ x.2.blocks.length)
    (hupper : upper < freeFlag) : Scans lower upper leaves c where
  stored := h.stored
  next := h.queue.next
  room := hsized
  stop := by
    intro x hx i j b b' hij hb hb' hpass
    obtain ⟨k, hk, hget, hlt⟩ := Block.exists_of_passes hpass
    refine Block.range_eq_nil hupper fun k' hk' hget' hin => ?_
    have := hm.lt_of_block h hx (hscan x hx) hij hb hb' hk hget hk' hget'
    exact absurd (lt_trans hlt this) (not_lt.mpr hin.2)
  later := by
    refine h.sorted.imp_of_mem fun {x y} hx hy hbefore => ?_
    rintro ⟨b, hb, hpass⟩
    obtain ⟨k, hk, hget, hlt⟩ := Block.exists_of_passes hpass
    refine LeafNode.rangeRows_eq_nil hupper fun k' hk' hin => ?_
    have hkey := hbefore.keys k ⟨hk, b, hb, hget⟩
    have hkey' := ((h.sound y hy).keys k' hk').1
    exact absurd (lt_trans hlt (lt_of_lt_of_le hkey hkey')) (not_lt.mpr hin.2)

/-- 下限の block より前の block には、区間の組が無い。 -/
theorem Contents.rowsFrom_eq (hm : Contents c m) (h : Chain lo hi leaves c) (hz : z ∈ c)
    (hscan : z.2.Scannable lo hi) (hupper : upper < freeFlag) (hlo : lo ≤ lower) :
    z.2.rowsFrom lower upper (z.2.predict lower) = z.2.rangeRows lower upper := by
  have hle : z.2.predict lower ≤ z.2.blockNumber :=
    (LeafNode.predictBlock_lt lower _ _ hscan.three
      (lt_trans (h.sound z hz).small (by decide))).le
  have hcut : z.2.blocks.take z.2.blockNumber = z.2.blocks.take (z.2.predict lower) ++
      (z.2.blocks.drop (z.2.predict lower)).take (z.2.blockNumber - z.2.predict lower) := by
    rw [← List.take_add, Nat.add_sub_cancel' hle]
  have hskip : (z.2.blocks.take (z.2.predict lower)).flatMap (Block.range lower upper) = [] := by
    rw [List.flatMap_eq_nil_iff]
    intro b hb
    obtain ⟨i, hi⟩ := List.mem_iff_getElem?.mp hb
    rw [List.getElem?_take] at hi
    split at hi
    · next hlt =>
      refine Block.range_eq_nil hupper fun k hk hget hin => ?_
      have hhome := hm.home z hz i b k hi hk hget
      have hwithin := (h.sound z hz).keys k ⟨hk, b, List.mem_of_getElem? hi, hget⟩
      have := hscan.mono lower k hlo hin.1 hwithin.2
      omega
    · cases hi
  rw [LeafNode.rangeRows, hcut, List.flatMap_append, hskip, List.nil_append]
  rfl

/-- 鍵以下の最後の leaf の、鍵の block から走査すれば、連鎖の区間の組が全て集まる。 -/
theorem Contents.scanLeaves_eq (hm : Contents c m) (h : Chain lo hi leaves c)
    (hscan : ∀ x ∈ c, x.2.Scannable lo hi) (hsized : ∀ x ∈ c, x.2.blockNumber ≤ x.2.blocks.length)
    (hupper : upper < freeFlag) (hlo : lo ≤ lower) (hpred : IsPred Link.firstKey lower c A z B)
    {fuel : Nat} (hfuel : B.length < fuel) (answers : List (Key × Payload)) :
    LeafNode.scanLeaves leaves lower upper fuel z.1 (z.2.predict lower) z.2.blockNumber answers =
      some (answers ++ c.flatMap fun x => x.2.rangeRows lower upper) := by
  have hz := hpred.mem
  have hle : z.2.predict lower ≤ z.2.blockNumber :=
    (LeafNode.predictBlock_lt lower _ _ (hscan z hz).three
      (lt_trans (h.sound z hz).small (by decide))).le
  have hbefore : (A.flatMap fun x => x.2.rangeRows lower upper) = [] := by
    rw [List.flatMap_eq_nil_iff]
    intro x hx
    have hsorted := h.sorted
    rw [hpred.eq] at hsorted
    have hxz := (List.pairwise_append.mp hsorted).2.2 x hx z List.mem_cons_self
    refine LeafNode.rangeRows_eq_nil hupper fun k hk hin => ?_
    exact absurd (lt_of_lt_of_le (hxz.keys k hk) hpred.le) (not_lt.mpr hin.1)
  rw [(hm.scans h hscan hsized hupper).scanLeaves_eq answers hpred.eq hfuel hle,
    hm.rowsFrom_eq h hz (hscan z hz) hupper hlo]
  conv_rhs => rw [hpred.eq]
  rw [List.flatMap_append, List.flatMap_cons, hbefore, List.nil_append, List.append_assoc]

/-! ## 集まる組 -/

omit [Arith D] in
theorem LeafNode.rangeRows_sublist {l : LeafNode D} (hupper : upper < freeFlag) :
    (l.rangeRows lower upper).Sublist l.pairs := by
  rw [rangeRows, pairs, List.filter_flatMap]
  exact ((List.take_sublist _ _).flatMap _).trans
    (List.Sublist.flatMap_right _ fun b _ => Block.range_sublist hupper)

omit [Arith D] in
theorem LeafNode.mem_rangeRows {l : LeafNode D} {k : Key} {v : Payload} :
    (k, v) ∈ l.rangeRows lower upper ↔
      ∃ b ∈ l.blocks.take l.blockNumber, (k, v) ∈ b.range lower upper := by
  rw [rangeRows, List.mem_flatMap]

omit [Arith D] in
theorem LeafNode.stores_of_mem_rangeRows {l : LeafNode D} (hupper : upper < freeFlag) {k : Key}
    {v : Payload} (h : (k, v) ∈ l.rangeRows lower upper) : l.Stores k := by
  obtain ⟨b, hb, hmem⟩ := LeafNode.mem_rangeRows.mp h
  obtain ⟨hk, hget⟩ := Block.get_of_mem_range hupper hmem
  exact ⟨hk, b, List.mem_of_mem_take hb, hget⟩

omit [Arith D] in
theorem LeafNode.rangeRows_congr {l : LeafNode D} {lower' upper' : Key} (hupper : upper < freeFlag)
    (hupper' : upper' < freeFlag)
    (h : ∀ k, l.Stores k → (InRange lower upper k ↔ InRange lower' upper' k)) :
    l.rangeRows lower upper = l.rangeRows lower' upper' :=
  List.flatMap_congr fun b hb => Block.range_congr hupper hupper' fun k hk hget =>
    h k ⟨hk, b, List.mem_of_mem_take hb, hget⟩

/-- どの鍵も高々一度だけ集まる。 -/
theorem Contents.nodup_rangeRows (hm : Contents c m) (h : Chain lo hi leaves c)
    (hupper : upper < freeFlag) :
    (c.flatMap fun x => x.2.rangeRows lower upper).Pairwise fun a b => a.1 ≠ b.1 := by
  rw [List.pairwise_flatMap]
  constructor
  · intro x hx
    have hnd := LeafNode.nodup_pairs (hm.inv x hx) x.2.predict (hm.home x hx)
    exact (List.pairwise_map.mp hnd).sublist (LeafNode.rangeRows_sublist hupper)
  · refine h.sorted.imp_of_mem fun {x y} hx hy hbefore => ?_
    rintro ⟨k, v⟩ hk ⟨k', v'⟩ hk'
    have hlt := hbefore.keys k (LeafNode.stores_of_mem_rangeRows hupper hk)
    have hle := ((h.sound y hy).keys k' (LeafNode.stores_of_mem_rangeRows hupper hk')).1
    exact ne_of_lt (lt_of_lt_of_le hlt hle)

/-- 鍵を持つ block は一つしか無い。 -/
theorem Contents.block_unique (hm : Contents c m) (h : Chain lo hi leaves c) {y : Link D}
    (hx : x ∈ c) (hy : y ∈ c) {b u : Block} {k : Key} (hk : k ≠ freeFlag) (hb : b ∈ x.2.blocks)
    (hu : u ∈ y.2.blocks) (hget : b.get k ≠ none) (hget' : u.get k ≠ none) : b = u := by
  have hstores : x.2.Stores k := ⟨hk, b, hb, hget⟩
  obtain ⟨A, z, B, hpred⟩ : ∃ A z B, IsPred Link.firstKey k c A z B :=
    exists_isPred ⟨x, hx, ((h.sound x hx).keys k hstores).1⟩
  obtain rfl : x = z := h.eq_of_stores hpred hx hstores
  obtain rfl : y = x := h.eq_of_stores hpred hy ⟨hk, u, hu, hget'⟩
  obtain ⟨i, hi⟩ := List.mem_iff_getElem?.mp hb
  obtain ⟨j, hj⟩ := List.mem_iff_getElem?.mp hu
  have hij : i = j := (hm.home y hx i b k hi hk hget).trans (hm.home y hy j u k hj hk hget').symm
  rw [hij, hj] at hi
  exact (Option.some.inj hi).symm

/-- 連鎖の leaf の overflow tree に、payload 0 の鍵 `k` がある。 -/
def Hidden (c : List (Link D)) (k : Key) : Prop :=
  ∃ x ∈ c, ∃ b ∈ x.2.blocks, b.treeGet k = some 0

/-- **集まるのは、写像の区間の組のうち、overflow tree の payload 0 でないものである。** -/
theorem Contents.mem_rangeRows (hm : Contents c m) (h : Chain lo hi leaves c)
    (hscan : ∀ x ∈ c, x.2.Scannable lo hi) (hupper : upper < freeFlag) {k : Key} {v : Payload} :
    (k, v) ∈ (c.flatMap fun x => x.2.rangeRows lower upper) ↔
      InRange lower upper k ∧ m k = some v ∧ ¬ Hidden c k := by
  rw [List.mem_flatMap]
  constructor
  · rintro ⟨x, hx, hmem⟩
    obtain ⟨b, hb, hmem⟩ := LeafNode.mem_rangeRows.mp hmem
    have hb := List.mem_of_mem_take hb
    obtain ⟨hmem', hk⟩ := List.mem_filter.mp ((Block.range_sublist hupper).subset hmem)
    have hk : k ≠ freeFlag := of_decide_eq_true hk
    have hinv := hm.inv x hx b hb
    have hget := Block.get_of_mem_pairs hinv hk hmem'
    obtain ⟨hin, hwhere⟩ := Block.mem_range.mp hmem
    refine ⟨hin, hm.sound x hx b hb k v hk hget, ?_⟩
    rintro ⟨y, hy, u, hu, htree⟩
    have hget' : u.get k ≠ none := by
      rw [Block.get, htree]
      cases slotGet u.slots k <;> simp
    obtain rfl := hm.block_unique h hx hy hk hb hu (by simp [hget]) hget'
    rcases hwhere with hslot | ⟨htree', hv⟩
    · have hnone := hinv.disjoint k hk fun hnone => slotGet_eq_none.mp hnone _ hslot rfl
      rw [htree] at hnone
      cases hnone
    · rw [htree] at htree'
      exact hv (Option.some.inj htree').symm
  · rintro ⟨hin, hv, hshown⟩
    obtain ⟨hk, x, hx, b, hb, hget⟩ := hm.complete k v hv
    obtain ⟨i, hi⟩ := List.mem_iff_getElem?.mp hb
    have hhome := hm.home x hx i b k hi hk (by simp [hget])
    have hlt : i < x.2.blockNumber := by
      rw [hhome]
      exact LeafNode.predictBlock_lt k _ _ (hscan x hx).three
        (lt_trans (h.sound x hx).small (by decide))
    have htake : b ∈ x.2.blocks.take x.2.blockNumber := by
      refine List.mem_of_getElem? (i := i) ?_
      rw [List.getElem?_take_of_lt hlt, hi]
    refine ⟨x, hx, LeafNode.mem_rangeRows.mpr ⟨b, htake, Block.mem_range.mpr ⟨hin, ?_⟩⟩⟩
    rcases Option.or_eq_some_iff.mp hget with hslot | ⟨-, htree⟩
    · obtain ⟨s, hs, rfl, rfl⟩ := Block.mem_slots_of_slotGet hslot
      exact Or.inl hs
    · refine Or.inr ⟨htree, ?_⟩
      rintro rfl
      exact hshown ⟨x, hx, b, hb, htree⟩

end Ordered

end Plin
