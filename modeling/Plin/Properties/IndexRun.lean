import Plin.Properties.IndexContents
import Plin.Properties.SlotHint

/-!
# 索引の実行

`bulk_load` から始めて `upsert` と `remove` を続けた索引の状態（`PlinIndex.Reached`）を調べる。

**`local_table` は、`get_leftmost_leaf` から `next` をたどった leaf の列そのものである**
（`Wired.tableMatches`）。分割が親 slot を置き換え損ねても、leaf を増やした分だけ `local_table` と連鎖は
揃って書き換わる。
-/

namespace Plin

open Infra

variable {D : Type} [Arith D]

/-- 索引への要求。 -/
inductive IndexOp where
  | upsert (key : Key) (payload : Payload)
  | remove (key : Key)

def IndexOp.key : IndexOp → Key
  | .upsert key _ => key
  | .remove key => key

namespace PlinIndex

/-- 要求を一つ実行する。`fuel` は `upsert` のやり直しの上限である。 -/
def perform (f : Fitter D) (fuel : Nat) (s : PlinIndex D) :
    IndexOp → Except IndexFault (PlinIndex D)
  | .upsert key payload => s.upsert f fuel key payload
  | .remove key => s.remove key

/--
`data` の `bulk_load` から始め、要求の列 `ops` を順に実行して着いた状態。

通る状態はどれも `ok` を満たし、要求はどれも `allow` を満たす。
-/
inductive Reached (f : Fitter D) (data : List (Key × Payload)) (ok : PlinIndex D → Prop)
    (allow : PlinIndex D → IndexOp → Prop) : List IndexOp → PlinIndex D → Prop
  | load {s : PlinIndex D} (h : bulkLoad f data = .ok s) (hok : ok s) :
      Reached f data ok allow [] s
  | step {ops : List IndexOp} {s s' : PlinIndex D} {fuel : Nat} {op : IndexOp}
      (h : Reached f data ok allow ops s) (hallow : allow s op)
      (hs : perform f fuel s op = .ok s') (hok : ok s') :
      Reached f data ok allow (ops ++ [op]) s'

/-- 内側の鍵への要求。 -/
def Interior (s : PlinIndex D) (op : IndexOp) : Prop := s.minKey < op.key ∧ op.key < s.maxKey

/-! ## `bulk_load` の直後 -/

variable {f : Fitter D} {data : List (Key × Payload)} {s : PlinIndex D} {ops : List IndexOp}

theorem Loaded.full (h : Loaded f data s) (hd : LoadData data) (hheap : s.leaves.length < 2 ^ 32) :
    ∀ nd ∈ s.inners, nd.Full := by
  have hlen : (loadSegments f data).length < 2 ^ 32 := by
    rw [h.leaves, List.length_map, loadChain, length_linkLeaves, length_loadLeaves] at hheap
    exact hheap
  have hsorted : ((loadSegments f data).map (·.firstKey)).Pairwise (· < ·) := by
    rw [← (h.freshChain hd).firstKeys, List.pairwise_map]
    exact (h.chain hd).firstKey_sorted
  refine buildLevels_full (fun n hn => ?_) h.levels hsorted (by simpa using hlen) (by simp)
  have : epsilonInnerNode / innerSlotsPerBlock = 1 := by decide
  unfold innerBlocksForLoad
  omega

/-- `bulk_load` の直後の索引の形。 -/
theorem Loaded.wired (h : Loaded f data s) (hd : LoadData data) (hp : s.Plausible) :
    ∃ t rest, s.Wired (loadChain f data) t rest ((loadChain f data).map Link.info) := by
  have hfull := h.full hd hp.heap
  obtain ⟨t, rest, hshape⟩ := h.shape hd fun nd hnd =>
    ((hp.inners nd hnd).tame (hfull nd hnd)).anti Set.inter_subset_left
  have hlen : s.leaves.length = (loadSegments f data).length := by
    rw [h.leaves, List.length_map, loadChain, length_linkLeaves, length_loadLeaves]
  have hpos := List.length_pos_iff.mpr h.segments_ne_nil
  have hheap := hp.heap
  refine ⟨t, rest, hshape.rooted, hshape.chain, rfl, hshape.table, hfull, ?_, ?_⟩
  · intro e he
    obtain ⟨x, hx, rfl⟩ := List.mem_map.mp he
    exact Or.inl ⟨x, hx, rfl⟩
  · rw [h.number, hlen]
    omega

/-! ## 実行 -/

/-- **着いた状態は形を満たす。** -/
theorem Reached.wired (hd : LoadData data) (h : Reached f data Plausible Interior ops s) :
    s.Plausible ∧ ∃ c t rest slots, s.Wired c t rest slots := by
  induction h with
  | load h hok =>
    obtain ⟨t, rest, hwired⟩ := (bulkLoad_loaded h).wired hd hok
    exact ⟨hok, _, t, rest, _, hwired⟩
  | @step ops s s' fuel op _ hallow hs hok ih =>
    obtain ⟨hp, c, t, rest, slots, hwired⟩ := ih
    cases op with
    | upsert key payload =>
      obtain ⟨c', t', rest', slots', hwired', -⟩ := hwired.upsert hp hok hallow.1 hallow.2 hs
      exact ⟨hok, c', t', rest', slots', hwired'⟩
    | remove key =>
      obtain ⟨c', hwired', -⟩ := hwired.remove hallow.1 hallow.2 hs
      exact ⟨hok, c', t, rest, slots, hwired'⟩

/--
`local_table` と leaf の連鎖 `c` が揃っている。

連鎖は `get_leftmost_leaf` から始まり、`prev` と `next` は互いに逆である。どの leaf の鍵も、自分の
`first_key` 以上で、後ろの leaf の `first_key` より小さい。
-/
structure TableMatches (s : PlinIndex D) (c : List (Link D)) : Prop where
  nonempty : c ≠ []
  first : s.getLeftmostLeaf = c.head?.map Prod.fst
  stored : ∀ x ∈ c, s.leaves[x.1]? = some x.2
  linked : DoublyLinked LeafNode.prev LeafNode.next none c none
  table : s.localTable = c.map fun x => ⟨x.2.firstKey, x.1⟩
  increasing : (s.localTable.map TRecord.key).Pairwise (· < ·)
  range : ∀ {A B : List (Link D)} {x : Link D}, c = A ++ x :: B → ∀ k, x.2.Stores k →
    x.2.firstKey ≤ k ∧ ∀ y ∈ B, k < y.2.firstKey

theorem Wired.tableMatches {c : List (Link D)} {t : Tier D} {rest : List (Tier D)}
    {slots : List (InnerSlot D)} (h : s.Wired c t rest slots) : s.TableMatches c := by
  obtain ⟨e, he, -⟩ := Option.map_eq_some_iff.mp h.rooted.low
  have hfirst := h.first
  rw [he] at hfirst
  refine ⟨?_, ?_, h.chain.stored, h.chain.linked, h.table, ?_, ?_⟩
  · rintro rfl
    cases hfirst
  · rw [h.rooted.getLeftmostLeaf_eq he]
    cases c with
    | nil => cases hfirst
    | cons x c =>
      obtain rfl := Option.some.inj hfirst
      rfl
  · rw [h.table, List.map_map, List.pairwise_map]
    exact h.chain.firstKey_sorted
  · rintro A B x rfl k hk
    refine ⟨((h.chain.sound x (by simp)).keys k hk).1, fun y hy => ?_⟩
    have hsorted := (List.pairwise_append.mp h.chain.sorted).2.1
    exact ((List.pairwise_cons.mp hsorted).1 y hy).keys k hk

theorem Regular.toPlausible (h : s.Regular) : s.Plausible :=
  ⟨fun nd hnd => (h.inners nd hnd).mono, fun l hl => (h.leaves l hl).tail, h.heap⟩

end PlinIndex

end Plin
