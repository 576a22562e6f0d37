import Plin.Properties.EndPath
import Plin.Properties.ExactLoad
import Plin.Properties.IndexRefines
import Plin.Properties.Orphan
import Plin.Properties.OverflowCount

/-!
# 分割の起きる索引

三つの leaf の索引を `bulk_load` で作る。真ん中の leaf の鍵は、`first_key` を除いて一つの block に集まっている。
**その手前に鍵を一つ書くと、真ん中の leaf は分割される**（`exists_splitRun`）。中身は一つの区分に学習し直され、新しい
leaf は一つである（`SplitOnce`）。
-/

namespace Plin

open Infra

/-! ## 丸めの無い演算で作った leaf -/

section Built

variable {b : LeafBuild} {l : LeafNode ℚ}

/-- 構築の前半は、最初と最後の鍵だけで決まる。 -/
theorem LeafNode.initial_congr {keys keys' : List Key} {bn startPos : Nat} {slope intercept : ℚ}
    {prev : Option LeafId} (hfirst : keys.headD freeFlag = keys'.headD freeFlag)
    (hlast : keys.getLastD freeFlag = keys'.getLastD freeFlag) :
    initial bn keys startPos slope intercept prev =
      initial bn keys' startPos slope intercept prev := by
  rw [initial, initial, hfirst, hlast]

theorem LeafNode.BuiltBy.relink (h : l.BuiltBy b) (prev next : Option LeafId) :
    LeafNode.BuiltBy b { l with prev := prev, next := next } where
  header := congrArg (fun m : LeafNode ℚ => { m with prev := prev, next := next })
    (LeafNode.SameHeader.header h)
  length := h.2

theorem LeafBuild.builtBy (b : LeafBuild) : b.leaf.BuiltBy b := ⟨rfl, rfl⟩

theorem LeafBuild.constructed (b : LeafBuild) (next : Option LeafId) :
    LeafNode.Constructed { b.leaf with next := next } :=
  ⟨b.blockNumber, b.data, b.startPos, b.slope, b.intercept, b.prev, next, b.sorted, rfl⟩

theorem LeafNode.BuiltBy.length_blocks (h : l.BuiltBy b) : l.blocks.length = b.blockNumber := by
  rw [LeafNode.SameHeader.length h]
  exact (LeafNode.new_header ..).length.trans List.length_replicate

/-- 構築子の作った leaf は、末尾の予測と番号の条件を満たす。 -/
theorem LeafNode.BuiltBy.regular (h : l.BuiltBy b) (hsmall : b.blockNumber ≤ 2 ^ 28) (lo hi : Key) :
    l.Regular lo hi where
  tail _ hk _ := h.tail (h.lastBuildKey ▸ hk)
  addressable _ _ _ := lt_of_lt_of_le (h.room _) (h.length_blocks.trans_le hsmall)

/-- 区分の鍵が二つ以上で傾きが負でなければ、その区分の leaf は条件を満たす構築で作られる。 -/
theorem exists_leafBuild {segs : List (Segment ℚ)} : ∀ {data : List (Key × Payload)}
    {startPos : Nat} {prev : Option LeafId} {id : LeafId},
    (∀ seg ∈ segs, 2 ≤ seg.number ∧ 0 ≤ seg.slope ∧ LeafNode.blockNumberFor seg.number ≤ 2 ^ 28) →
    (segs.map (·.number)).sum = data.length → (data.map Prod.fst).Pairwise (· < ·) →
    ∀ l ∈ freshLeaves segs data startPos prev id,
      ∃ b : LeafBuild, l = b.leaf ∧ b.blockNumber ≤ 2 ^ 28 := by
  induction segs with
  | nil => exact fun _ _ _ l hl => nomatch hl
  | cons seg segs ih =>
    intro data startPos prev id hsegs hsum hsorted l hl
    obtain ⟨hmany, hslope, hsmall⟩ := hsegs seg List.mem_cons_self
    rw [List.map_cons, List.sum_cons] at hsum
    rcases List.mem_cons.mp hl with rfl | hl
    · have hlen : (data.take seg.number).length = seg.number :=
        List.length_take_of_le (by omega)
      refine ⟨{
        blockNumber := LeafNode.blockNumberFor seg.number
        data := data.take seg.number
        startPos := startPos
        slope := seg.slope
        intercept := seg.intercept
        prev := prev
        wide := three_le_blockNumberFor seg.number
        small := by omega
        many := by omega
        sorted := by
          rw [List.map_take]
          exact hsorted.take
        upward := hslope }, rfl, hsmall⟩
    · refine ih (fun s hs => hsegs s (List.mem_cons_of_mem _ hs)) ?_ ?_ l hl
      · rw [List.length_drop]
        omega
      · rw [List.map_drop]
        exact hsorted.drop

/-- 傾きが負でなく、番号の折り返さない leaf。 -/
structure LeafNode.Upward (l : LeafNode ℚ) : Prop where
  slope : 0 ≤ l.slope
  wide : 3 ≤ l.blockNumber
  small : l.blockNumber ≤ 2 ^ 28

theorem LeafNode.BuiltBy.upward (h : l.BuiltBy b) (hsmall : b.blockNumber ≤ 2 ^ 28) :
    l.Upward where
  slope := h.model.1
  wide := b.wide.trans_eq h.blockNumber.symm
  small := h.blockNumber.trans_le hsmall

theorem LeafNode.Upward.congr {l l' : LeafNode ℚ} (h : l.Upward) (hmodel : l.SameModel l') :
    l'.Upward :=
  ⟨hmodel.slope ▸ h.slope, hmodel.blockNumber ▸ h.wide, hmodel.blockNumber ▸ h.small⟩

end Built

/-- block が持つ鍵は、slot と overflow tree に収まっている。 -/
theorem Block.length_le_of_get {b : Block} {keys : List Key} (hnd : keys.Nodup)
    (hget : ∀ k ∈ keys, k ≠ freeFlag ∧ b.get k ≠ none) :
    keys.length ≤ b.slots.length + b.overflowEntries := by
  have hsub : keys ⊆ b.pairs.map Prod.fst := by
    intro k hk
    obtain ⟨hne, hget⟩ := hget k hk
    obtain ⟨v, hv⟩ := Option.ne_none_iff_exists'.mp hget
    exact List.mem_map_of_mem (Block.mem_pairs_of_get hne hv)
  have htree : ((b.overflowTree.map SortedMap.entries).getD []).length = b.overflowEntries := by
    rw [Block.overflowEntries]
    cases b.overflowTree <;> rfl
  calc keys.length ≤ (b.pairs.map Prod.fst).length := (hnd.subperm hsub).length_le
    _ ≤ b.slots.length + b.overflowEntries := by
      rw [List.length_map, Block.pairs, List.length_append, List.length_map, htree]
      exact Nat.add_le_add_right (List.length_filter_le ..) _

/-- 鍵の block に書いた leaf。 -/
def LeafNode.written {D : Type} [Arith D] (l : LeafNode D) (key : Key) (payload : Payload) :
    LeafNode D :=
  { l with blocks := l.blocks.modify (l.home key) fun b => (b.upsert key payload).2 }

namespace PlinIndex

section Once

variable {D : Type} [Arith D] {f : Fitter D} {s s' : PlinIndex D} {c A B : List (Link D)}
  {t : Tier D} {rest : List (Tier D)} {slots : List (InnerSlot D)} {l z r y : Link D}
  {w l' : LeafNode D} {key : Key} {payload : Payload}

/-- 新しい leaf が一つで、親 slot の列が短ければ、分割は作り直さずに終わる。 -/
theorem Splitting.exists_split (h : Splitting f s A l z r B t rest slots) (hr : s.InnersRegular)
    {a : SlotAddr} (hent : s.Entered t slots z (some a)) (hfew : slots.length < innerSlotsPerBlock)
    (horphan : s.orphanNumber = 0) {y : Link D}
    (hone : splitChain f s.leaves.length l z r = [y]) :
    ∃ heap s₂, placeNodes ((s.onSlot lockSlot (some a)).withLeaves heap)
        ((splitChain f s.leaves.length l z r).map Link.info) (some a) = some s₂ ∧
      s.split f z.1 (some a) = .ok (afterSplit f s s₂ l z r (some a)) := by
  refine PlinIndex.exists_split h.wired.chain h.segments h.small fun heap => ?_
  obtain ⟨i, j, rfl, hi, hread⟩ := hent
  obtain ⟨t₁, slots₁, hroot, -, hsame, hcases⟩ :=
    h.wired.rooted.modifySlot (g := lockSlot) (j := j) (fun _ => rfl) (fun _ => rfl) hi
  have hroot' : ((s.onSlot lockSlot (some (.inner i j))).withLeaves heap).Rooted t₁ rest slots₁ :=
    hroot.congr rfl rfl rfl rfl
  have hlen : slots₁.length = slots.length := by
    rcases hcases with ⟨rfl, -⟩ | ⟨U, u, V, -, rfl, rfl⟩
    · rfl
    · simp
  have hy := h.within y.info (by rw [hone]; simp)
  obtain ⟨s₂, hup, hkept⟩ := hroot'.exists_upsertNode (hsame.regular hr) hy.1 hy.2.1
  refine ⟨s₂, ?_, (hkept (hlen.trans_lt hfew)).trans horphan⟩
  rw [hone]
  show ((_ : PlinIndex D).upsertNode y.info).bind (fun s => s.upsertNodes []) = _
  rw [hup]
  rfl

/-- 分割で学習し直される区分は、block の中身だけで決まる。 -/
theorem Wrote.splitSegments_eq (h : Wrote key payload z l') (f : Fitter D) :
    splitSegments f l' = splitSegments f (z.2.written key payload) := by
  obtain ⟨b, hb⟩ := h
  have hblocks : l'.blocks = (z.2.written key payload).blocks := by
    rw [hb.blocks, LeafNode.written, List.modify_eq_set_getElem?, hb.block]
    rfl
  have hdata : l'.getData.1 = (z.2.written key payload).getData.1 := by
    rw [LeafNode.getData, LeafNode.getData, hblocks]
  rw [splitSegments, splitSegments, hdata]

/-- `upsert key` は leaf `l` を分割する。`acc` は、親 slot を通して着いたときの写しである。 -/
structure SplitsAt (s : PlinIndex D) (key : Key) (id : LeafId) (acc : Option (InnerSlot D))
    (l : LeafNode D) : Prop where
  chosen : ∃ block, s.choose key = some (.at id acc block)
  stored : s.leaves[id]? = some l
  due : l.Due key
  left : l.prev ≠ none
  right : l.next ≠ none

/-- leaf `z` が一つの新しい leaf `y` に替わった、分割の後の索引。`w` は鍵を書いた後の leaf である。 -/
structure SplitOnce (f : Fitter D) (s s' : PlinIndex D) (A : List (Link D)) (l z r : Link D)
    (B : List (Link D)) (w : LeafNode D) (y : Link D) : Prop where
  leaves : s'.leaves = splitHeap (s.leaves.set z.1 w) l (z.1, w) r 1 [y]
  fresh : splitChain f s.leaves.length l (z.1, w) r = [y]
  inners : SameInners s.inners s'.inners
  bounds : SameBounds s s'
  /-- leaf が `first_key` を失っていれば、親 slot は捨てられた leaf を指したまま残る。 -/
  lost : ¬ w.Stores z.firstKey → s'.leafNumber = s.leafNumber + 1 ∧
    ∃ t rest slots, s'.Wired (spliced A l [y] r B) t rest slots ∧
      ∃ e ∈ slots, e.minKey = z.firstKey

/-- **親 slot の在る leaf の、一つの区分に学習し直される分割は、作り直さずに終わる。** -/
theorem Wired.exists_splitOnce (h : s.Wired (A ++ l :: z :: r :: B) t rest slots)
    (hlive : Live (A ++ l :: z :: r :: B) slots) (hr : s.Regular) (hlo : s.minKey < key)
    (hhi : key < s.maxKey) (hle : z.firstKey ≤ key) (hgt : ∀ x ∈ r :: B, key < x.firstKey)
    (hdue : z.2.Due key) (hslot : z.info ∈ slots) (hfew : slots.length < innerSlotsPerBlock)
    (horphan : s.orphanNumber = 0) (hheap : s.leaves.length + 1 < 2 ^ 32)
    (hwrite : ∀ w, Wrote key payload z w →
      ∃ seg, splitSegments f w = [seg] ∧ LeafNode.blockNumberFor seg.number < 2 ^ 29) :
    ∃ s' w y a, s.upsert f 1 key payload = .ok s' ∧ Wrote key payload z w ∧
      s.SplitsAt key z.1 (some a) z.2 ∧ SplitOnce f s s' A l z r B w y := by
  have hp := hr.toPlausible
  have hpred : IsPred Link.firstKey key (A ++ l :: z :: r :: B) (A ++ [l]) z (r :: B) :=
    ⟨by simp, hle, hgt⟩
  obtain ⟨X, x, Y, P, e, Q, hland, hdesc, hread⟩ := h.rooted.descend_eq
    (fun nd hnd => (hr.inners nd hnd).tame) hlo.le hhi.le
    fun i a _ _ => Stacked.pathReadable_of_regular hr.inners hlo.le hhi.le a _
  obtain ⟨u, hu, rfl⟩ := hlive e hland.pred.mem
  obtain ⟨A', z', B', w, acc, hpred', hwrote, hent, ⟨copy, block, hchoose, hcopy⟩, hcases⟩ :=
    h.upsertInner_eq (f := f) hp payload hhi.le hdesc hland rfl hread hu
  obtain ⟨-, rfl, -⟩ := hpred.unique hpred'
  -- 親 slot が在るので、分割は親 slot を通して行われる
  obtain ⟨a, rfl⟩ : ∃ a, acc = some a := by
    cases acc with
    | none => exact absurd rfl (hent _ hslot)
    | some a => exact ⟨a, rfl⟩
  obtain ⟨copy, rfl⟩ := Option.isSome_iff_exists.mp hcopy
  obtain ⟨-, hup⟩ := hcases.resolve_left fun hnot => hnot.1 hdue
  obtain ⟨seg, hseg, hsmall⟩ := hwrite w hwrote
  have hhead : LeafNode.SameHeader z.2 w := by
    obtain ⟨b, hb⟩ := hwrote
    exact hb.header
  have hfirst : Link.firstKey (z.1, w) = z.firstKey := hhead.firstKey
  have hlen : (s.withLeaves (s.leaves.set z.1 w)).leaves.length = s.leaves.length :=
    List.length_set
  have hwired : (s.withLeaves (s.leaves.set z.1 w)).Wired (A ++ l :: (z.1, w) :: r :: B) t rest
      slots := by
    have := h.wrote hhi.le hpred hwrote
    rwa [List.append_assoc] at this
  have hinfo : (A ++ l :: (z.1, w) :: r :: B).map Link.info =
      (A ++ l :: z :: r :: B).map Link.info := by
    rw [List.append_cons A l ((z.1, w) :: r :: B), map_info_eq hhead, ← List.append_cons]
  have hsplit : Splitting f (s.withLeaves (s.leaves.set z.1 w)) A l (z.1, w) r B t rest slots := by
    refine ⟨hwired, by rw [hseg]; simp, fun y hy => ?_⟩
    rw [hseg] at hy
    obtain ⟨seg', hmem, hbn⟩ := blockNumber_freshLeaves _ _ _ _ _ y hy
    rw [hbn, List.mem_singleton.mp hmem]
    exact lt_of_le_of_lt (Nat.mod_le _ _) hsmall
  obtain ⟨y, hone⟩ : ∃ y, splitChain f (s.withLeaves (s.leaves.set z.1 w)).leaves.length l
      (z.1, w) r = [y] := by
    rw [splitChain, hseg]
    exact ⟨_, rfl⟩
  have hent' : (s.withLeaves (s.leaves.set z.1 w)).Entered t slots (z.1, w) (some a) :=
    hent.withLeaves hhead _
  obtain ⟨heap, s₂, hplace, hs⟩ := hsplit.exists_split hr.inners hent' hfew horphan hone
  obtain ⟨t', slots', hwired', hsame, -, hleft⟩ :=
    hsplit.child hp.inners hent' (by rw [hone, hlen]; exact hheap) hplace
  have hbounds := @sameBounds_afterSplit D _ _ _ _ f l (z.1, w) r _ _ hplace
  obtain ⟨hprev, hnext⟩ := neighbors_ne_none h.chain
  refine ⟨_, w, y, copy, ?_, hwrote,
    ⟨⟨block, hchoose⟩, h.chain.stored z hpred.mem, hdue, hprev, hnext⟩, {
    leaves := by
      rw [← hone]
      rfl
    fresh := by
      rw [← hone, hlen]
    inners := hsame
    bounds := ⟨hbounds.min, hbounds.max, hbounds.left, hbounds.right⟩
    lost := fun hlost => ?_ }⟩
  · rw [PlinIndex.upsert, if_pos ⟨hlo, hhi⟩, hup 0]
    exact hs
  · obtain ⟨hstale, hnumber⟩ := hleft (hlive.congr hinfo) fun v hv heq =>
      hlost (by rw [← hfirst, ← heq]; exact hsplit.stored hv)
    rw [hone] at hwired' hnumber
    rw [hfirst] at hstale
    exact ⟨hnumber, t', rest, slots', hwired', hstale⟩

/-- 分割の後の leaf は、新しい leaf か、model の変わらない元の leaf である。 -/
theorem SplitOnce.forall_leaves (h : SplitOnce f s s' A l z r B w y)
    (hwired : s.Wired (A ++ l :: z :: r :: B) t rest slots) (hhead : LeafNode.SameHeader z.2 w)
    {P : LeafNode D → Prop} (hP : ∀ {m m'}, P m → LeafNode.SameModel m m' → P m')
    (hold : ∀ m ∈ s.leaves, P m) (hy : P y.2) : ∀ m ∈ s'.leaves, P m := by
  intro m hm
  have hmem : ∀ {x : Link D}, x ∈ A ++ l :: z :: r :: B → P x.2 :=
    fun hx => hold _ (List.mem_of_getElem? (hwired.chain.stored _ hx))
  have hz : P w := hP (hmem (x := z) (by simp)) hhead.sameModel
  rw [h.leaves, splitHeap] at hm
  rcases List.mem_append.mp hm with hm | hm
  · rcases List.mem_or_eq_of_mem_set hm with hm | rfl
    · rcases List.mem_or_eq_of_mem_set hm with hm | rfl
      · rcases List.mem_or_eq_of_mem_set hm with hm | rfl
        · rcases List.mem_or_eq_of_mem_set hm with hm | rfl
          · exact hold m hm
          · exact hz
        · exact hP (hmem (x := l) (by simp)) ⟨rfl, rfl, rfl, rfl⟩
      · exact hP hz ⟨rfl, rfl, rfl, rfl⟩
    · exact hP (hmem (x := r) (by simp)) ⟨rfl, rfl, rfl, rfl⟩
  · obtain ⟨x, hx, rfl⟩ := List.mem_map.mp hm
    rw [List.mem_singleton.mp hx]
    exact hy

/-- 新しい leaf の予測器が正しければ、分割の後もどの予測器も正しい。 -/
theorem SplitOnce.regular (h : SplitOnce f s s' A l z r B w y)
    (hwired : s.Wired (A ++ l :: z :: r :: B) t rest slots) (hr : s.Regular)
    (hhead : LeafNode.SameHeader z.2 w) (hheap : s.leaves.length + 1 < 2 ^ 32)
    (hy : y.2.Regular s.minKey s.maxKey) : s'.Regular where
  inners nd hnd := by
    rw [h.bounds.min, h.bounds.max]
    exact h.inners.regular hr.inners nd hnd
  leaves := by
    rw [h.bounds.min, h.bounds.max]
    exact h.forall_leaves hwired hhead LeafNode.Regular.congr hr.leaves hy
  heap := by
    rw [h.leaves, length_splitHeap, List.length_set]
    exact hheap

end Once

/-! ## 三つの leaf の索引 -/

/-- 遠く離れた二つの塊の鍵。 -/
def farKey (j i : Nat) : Key := Key.ofNat (2 ^ (40 + j) + i)

/-- 真ん中の leaf の `first_key`。 -/
def lostKey : Key := farKey 0 513

/-- 真ん中の leaf の鍵の塊の手前に書く鍵。 -/
def lateKey : Key := Key.ofNat (2 ^ 41 - 2 ^ 33)

/-- 一点目 `x₀` と `j` 番目の塊から成る区分の鍵。 -/
def farRow (x₀ : Key) (j : Nat) : List Key := x₀ :: (List.range 513).map (farKey j)

/-- その区分。 -/
def farSegment (x₀ : Key) (j y₀ : Nat) : Segment ℚ :=
  exactFitter.segment
    (Hull.stair epsilonLeafNode x₀ (farKey j 0) (farKey j 512) y₀ 513) x₀ 514

/-- 最後の二つの鍵の区分。 -/
def lastSegment : Segment ℚ :=
  exactFitter.segment (Hull.stair epsilonLeafNode (farKey 1 513) (farKey 1 514) (farKey 1 514)
    1028 1) (farKey 1 513) 2

/-- 鍵 0 と一つ目の塊、二つ目の塊、その後の二つの鍵。 -/
def lostKeys : List Key :=
  Key.ofNat 0 :: stairsKeys epsilonLeafNode (farKey 1 514) [farKey 0, farKey 1]

/-- `bulk_load` に渡す組。 -/
def lostData : List (Key × Payload) := lostKeys.map fun k => (k, 1)

section Keys

variable {u : Int}

theorem toUnits_farKey (hnat : ∀ n < 2 ^ 53, (Key.ofNat n).toUnits = n * u) {j i : Nat}
    (hj : j ≤ 1) (hi : i ≤ 514) : (farKey j i).toUnits = (2 ^ (40 + j) + i) * u := by
  have hpow : 2 ^ (40 + j) ≤ 2 ^ 41 := Nat.pow_le_pow_right (by decide) (by omega)
  rw [farKey, hnat _ (by omega)]
  push_cast
  rfl

/-- 塊 `j` は、手前の鍵 `x₀` から遠く離れた等間隔の並びである。 -/
theorem far_farKey {x₀ : Key} {n j : Nat} (hj : j ≤ 1) (hx₀ : x₀ = Key.ofNat n)
    (hn : n + 2 ^ 18 + 2 ^ 10 + 1 < 2 ^ (40 + j)) :
    ∃ d, Hull.Far epsilonLeafNode x₀ (farKey j 0) d ∧
      ∀ i ≤ 2 * epsilonLeafNode + 1, (farKey j i).toUnits = (farKey j 0).toUnits + i * d := by
  have hnat : ∀ n < 2 ^ 53, (Key.ofNat n).toUnits = n * (2 ^ 1074 : Int) :=
    fun n hn => Key.toUnits_ofNat hn
  have hu : (0 : Int) < 2 ^ 1074 := by positivity
  generalize (2 : Int) ^ 1074 = u at hnat hu
  have hpow : 2 ^ (40 + j) ≤ 2 ^ 41 := Nat.pow_le_pow_right (by decide) (by omega)
  have hbase := toUnits_farKey hnat hj (i := 0) (by omega)
  refine ⟨u, ⟨hu, ?_⟩, fun i hi => ?_⟩
  · rw [hbase, hx₀, hnat n (by omega), epsilonLeafNode, ← sub_mul, ← mul_assoc]
    refine mul_lt_mul_of_pos_right ?_ hu
    have hn' : ((n + 2 ^ 18 + 2 ^ 10 + 1 : Nat) : Int) < ((2 ^ (40 + j) : Nat) : Int) :=
      Int.ofNat_lt.mpr hn
    push_cast at hn' ⊢
    linarith
  · have hle : i ≤ 514 := by
      rw [epsilonLeafNode] at hi
      omega
    rw [hbase, toUnits_farKey hnat hj hle]
    push_cast
    ring

theorem stairs_lostKeys :
    Stairs epsilonLeafNode (farKey 1 514) (Key.ofNat 0) [farKey 0, farKey 1] :=
  ⟨far_farKey (by decide) rfl (by decide), far_farKey (by decide) rfl (by decide),
    (by decide +kernel : farKey 1 513 < farKey 1 514)⟩

theorem sorted_lostKeys : lostKeys.Pairwise (· < ·) := sorted_stairs stairs_lostKeys

theorem stairKeys_farKey (j : Nat) : stairKeys epsilonLeafNode (farKey j) =
    (List.range 513).map (farKey j) ++ [farKey j 513] := by
  rw [stairKeys, epsilonLeafNode, List.range_succ, List.map_append]
  rfl

theorem lostKeys_eq : lostKeys = farRow (Key.ofNat 0) 0 ++
    (farRow lostKey 1 ++ [farKey 1 513, farKey 1 514]) := by
  rw [lostKeys, stairsKeys, List.flatMap_cons, List.flatMap_singleton, stairKeys_farKey,
    stairKeys_farKey, farRow, farRow, lostKey]
  simp only [List.append_assoc, List.cons_append, List.nil_append]

theorem map_fst_lostData : lostData.map Prod.fst = lostKeys := by
  rw [lostData, List.map_map]
  exact List.map_id _

theorem segmentLoop_farKey {x₀ : Key} {n j : Nat} (hj : j ≤ 1) (hx₀ : x₀ = Key.ofNat n)
    (hn : n + 2 ^ 18 + 2 ^ 10 + 1 < 2 ^ (40 + j)) (rest : List Key) (y₀ : Nat) :
    segmentLoop exactFitter epsilonLeafNode (stairKeys epsilonLeafNode (farKey j) ++ rest) (y₀ + 1)
        y₀ x₀ x₀ 1 (exactFitter.start epsilonLeafNode x₀ y₀) =
      farSegment x₀ j y₀ :: segmentLoop exactFitter epsilonLeafNode rest (y₀ + 514 + 1) (y₀ + 514)
        (farKey j 513) (farKey j 513) 1
        (exactFitter.start epsilonLeafNode (farKey j 513) (y₀ + 514)) := by
  obtain ⟨d, hfar, hkey⟩ := far_farKey hj hx₀ hn
  exact segmentLoop_stairKeys hfar hkey rest y₀

theorem loadSegments_lostData : loadSegments exactFitter lostData =
    [farSegment (Key.ofNat 0) 0 0, farSegment lostKey 1 514, lastSegment] := by
  have hlast : farKey 1 513 < farKey 1 514 := stairs_lostKeys.2.2
  have hsecond : exactFitter.addPoint 1 (exactFitter.start epsilonLeafNode (farKey 1 513) 1028)
      (farKey 1 514) 1029 = some (Hull.stair epsilonLeafNode (farKey 1 513) (farKey 1 514)
        (farKey 1 514) 1028 1) := rfl
  have hend : segmentLoop exactFitter epsilonLeafNode [farKey 1 514] 1029 1028 (farKey 1 513)
      (farKey 1 513) 1 (exactFitter.start epsilonLeafNode (farKey 1 513) 1028) = [lastSegment] :=
    (segmentLoop_accept (ne_of_gt hlast) hsecond).trans (segmentLoop_end (by decide))
  rw [loadSegments, map_fst_lostData, lostKeys, stairsKeys, List.flatMap_cons,
    List.flatMap_singleton, List.append_assoc, makeSegmentation,
    segmentLoop_farKey (by decide) rfl (by decide)]
  refine congrArg (_ :: ·) ((@segmentLoop_farKey lostKey (2 ^ 40 + 513) 1 le_rfl rfl (by decide)
    [farKey 1 514] 514).trans ?_)
  rw [hend]

theorem sorted_lateRow : (farRow lateKey 1 ++ [farKey 1 513]).Pairwise (· < ·) := by
  obtain ⟨d, hfar, hkey⟩ := @far_farKey lateKey (2 ^ 41 - 2 ^ 33) 1 le_rfl rfl (by decide)
  have hsorted := sorted_stairKeys hfar hkey
  rwa [stairKeys_farKey] at hsorted

theorem slope_farSegment : ∀ seg ∈ [farSegment (Key.ofNat 0) 0 0, farSegment lostKey 1 514,
    lastSegment], 2 ≤ seg.number ∧ 0 ≤ seg.slope ∧ LeafNode.blockNumberFor seg.number ≤ 2 ^ 28 := by
  decide +kernel

theorem mem_farRow {x₀ : Key} {j : Nat} {k : Key} :
    k ∈ farRow x₀ j ↔ k = x₀ ∨ ∃ i < 513, farKey j i = k := by
  simp [farRow]

theorem length_farRow (x₀ : Key) (j : Nat) : (farRow x₀ j).length = 514 := by
  rw [farRow, List.length_cons, List.length_map, List.length_range]

theorem lostKey_lt_lateKey : lostKey < lateKey := by decide +kernel

theorem lateKey_lt_farKey {i : Nat} (hi : i ≤ 513) : lateKey < farKey 1 i := by
  have hsorted := sorted_lateRow
  rw [farRow, List.cons_append, List.pairwise_cons] at hsorted
  refine hsorted.1 _ ?_
  rw [← stairKeys_farKey, stairKeys]
  exact List.mem_map_of_mem (List.mem_range.mpr (Nat.lt_succ_of_le hi))

/-- 真ん中の leaf の区間にある鍵は、`first_key` と二つ目の塊である。 -/
theorem mem_lostKeys_iff {k : Key} (hlo : lostKey ≤ k) (hhi : k < farKey 1 513) :
    k ∈ lostKeys ↔ k ∈ farRow lostKey 1 := by
  have hsorted := sorted_lostKeys
  rw [lostKeys_eq] at hsorted ⊢
  obtain ⟨-, htail, hhead⟩ := List.pairwise_append.mp hsorted
  constructor
  · intro hk
    rcases List.mem_append.mp hk with hk | hk
    · exact absurd (hhead k hk lostKey (by simp [farRow])) (not_lt.mpr hlo)
    · rcases List.mem_append.mp hk with hk | hk
      · exact hk
      · -- 右の leaf の鍵は、右の leaf の `first_key` より小さくない
        have hle : farKey 1 513 ≤ k := by
          rcases List.mem_pair.mp hk with rfl | rfl
          · exact le_rfl
          · exact le_of_lt (by decide +kernel)
        exact absurd hhi (not_lt.mpr hle)
  · intro hk
    simp [hk]

end Keys

/-! ### 真ん中の leaf -/

/-- 構築子の作る真ん中の leaf。 -/
def midFresh : LeafNode ℚ :=
  LeafNode.new 71 ((farRow lostKey 1).map fun k => (k, 1)) 514 (farSegment lostKey 1 514).slope
    (farSegment lostKey 1 514).intercept (some 0)

/-- 右の leaf につないだ、真ん中の leaf。 -/
def midLeaf : LeafNode ℚ := { midFresh with next := some 2 }

/-- 真ん中の leaf の header。最初と最後の鍵だけで決まる。 -/
def midHeader : LeafNode ℚ :=
  LeafNode.initial 71 [lostKey, farKey 1 512] 514 (farSegment lostKey 1 514).slope
    (farSegment lostKey 1 514).intercept (some 0)

theorem getLastD_farRow (x₀ : Key) (j : Nat) : (farRow x₀ j).getLastD freeFlag = farKey j 512 := by
  rw [farRow, List.range_succ, List.map_append, ← List.cons_append, List.map_singleton,
    List.getLastD_concat]

theorem midFresh_header : LeafNode.SameHeader midHeader midFresh := by
  have hnew := LeafNode.new_header 71 ((farRow lostKey 1).map fun k => (k, (1 : Payload))) 514
    (farSegment lostKey 1 514).slope (farSegment lostKey 1 514).intercept (some 0)
  have hkeys : ((farRow lostKey 1).map fun k => (k, (1 : Payload))).map Prod.fst =
      farRow lostKey 1 := by
    rw [List.map_map]
    exact List.map_id _
  have hinit : LeafNode.initial 71 (farRow lostKey 1) 514 (farSegment lostKey 1 514).slope
      (farSegment lostKey 1 514).intercept (some 0) = midHeader := by
    refine LeafNode.initial_congr (by rw [farRow, List.headD_cons, List.headD_cons]) ?_
    rw [getLastD_farRow, List.getLastD_cons, List.getLastD_cons, List.getLastD_nil]
  rwa [hkeys, hinit] at hnew

/-- 真ん中の leaf は、block の中身と隣を除いて header の通りである。 -/
theorem midLeaf_header : midLeaf = { midHeader with
    next := some 2, blocks := midFresh.blocks, overflowNumber := midFresh.overflowNumber } := by
  rw [midLeaf, midFresh_header.header]

theorem predict_midLeaf (k : Key) : midLeaf.predict k = midHeader.predict k := by
  rw [midLeaf_header]
  rfl

theorem midHeader_predict : midHeader.predict lateKey = 69 ∧
    midHeader.predict (farKey 1 512) = 69 ∧ midHeader.predict lostKey ≠ 69 ∧
      0 ≤ midHeader.slope ∧ midHeader.numberToSplit = 319 :=
  ⟨by decide +kernel, by decide +kernel, by decide +kernel, by decide +kernel, by decide +kernel⟩

/-- 二つ目の塊の手前から塊の終わりまで、どの鍵も同じ block に送られる。 -/
theorem predict_midLeaf_late {k : Key} (hlo : lateKey ≤ k) (hhi : k ≤ farKey 1 512) :
    midLeaf.predict k = 69 := by
  obtain ⟨hlate, hlast, -, hslope, -⟩ := midHeader_predict
  have hmono {a b : Key} (hab : a ≤ b) : midHeader.predict a ≤ midHeader.predict b :=
    LeafNode.predictBlock_mono hslope (by decide) (by decide) hab
  rw [predict_midLeaf]
  exact le_antisymm (hlast ▸ hmono hhi) (hlate ▸ hmono hlo)

/-! ### `bulk_load` の後 -/

theorem loadData_lostData : LoadData lostData where
  strict := by
    rw [map_fst_lostData]
    exact sorted_lostKeys
  below := by
    intro e he
    have hmem : e.1 ∈ lostKeys := by
      rw [← map_fst_lostData]
      exact List.mem_map_of_mem he
    have hsorted := sorted_lostKeys
    rw [lostKeys, stairsKeys, ← List.cons_append] at hmem hsorted
    have hle : e.1 ≤ farKey 1 514 := by
      rcases List.mem_append.mp hmem with h | h
      · exact ((List.pairwise_append.mp hsorted).2.2 _ h _ (by simp)).le
      · rw [List.mem_singleton.mp h]
    exact lt_of_le_of_lt hle (by decide +kernel)

/-- **真ん中の leaf は `midLeaf` である。** -/
theorem loadChain_lostData :
    ∃ l r : Link ℚ, loadChain exactFitter lostData = [l, (1, midLeaf), r] := by
  have hcut : lostData = (farRow (Key.ofNat 0) 0).map (fun k => (k, (1 : Payload))) ++
      ((farRow lostKey 1).map (fun k => (k, 1)) ++ [(farKey 1 513, 1), (farKey 1 514, 1)]) := by
    rw [lostData, lostKeys_eq, List.map_append, List.map_append]
    rfl
  have hdrop : lostData.drop (farSegment (Key.ofNat 0) 0 0).number =
      (farRow lostKey 1).map (fun k => (k, 1)) ++ [(farKey 1 513, 1), (farKey 1 514, 1)] := by
    rw [hcut]
    exact List.drop_left' ((List.length_map _).trans (length_farRow _ _))
  have htake : (lostData.drop (farSegment (Key.ofNat 0) 0 0).number).take
      (farSegment lostKey 1 514).number = (farRow lostKey 1).map fun k => (k, 1) := by
    rw [hdrop]
    exact List.take_left' ((List.length_map _).trans (length_farRow _ _))
  rw [loadChain, loadLeaves, loadSegments_lostData, freshLeaves, freshLeaves, freshLeaves, htake]
  exact ⟨_, _, rfl⟩

theorem exists_build_lostData {l : LeafNode ℚ} (hl : l ∈ loadLeaves exactFitter lostData) :
    ∃ b : LeafBuild, l = b.leaf ∧ b.blockNumber ≤ 2 ^ 28 := by
  have hd := loadData_lostData
  refine exists_leafBuild ?_ ?_ hd.strict l hl
  · intro seg hseg
    rw [loadSegments_lostData] at hseg
    exact slope_farSegment seg hseg
  · rw [loadSegments, sum_number_makeSegmentation exactFitter epsilonLeafNode hd.strict,
      List.length_map]

theorem firstKeys_lostData : (loadSegments exactFitter lostData).map (·.firstKey) =
    [Key.ofNat 0, lostKey, farKey 1 513] := by
  rw [loadSegments_lostData]
  rfl

/-- **三つの leaf の索引を `bulk_load` で作る。** -/
theorem exists_lostIndex : ∃ s : PlinIndex ℚ, bulkLoad exactFitter lostData = .ok s ∧
    s.Regular ∧ s.minKey = Key.ofNat 0 ∧ s.maxKey = farKey 1 514 := by
  have hsmall : ∀ l ∈ loadLeaves exactFitter lostData, l.blockNumber < 2 ^ 29 := by
    intro l hl
    obtain ⟨b, rfl, -⟩ := exists_build_lostData hl
    exact b.builtBy.blockNumber ▸ b.small
  have hne : lostData ≠ [] := by
    rw [lostData, lostKeys]
    exact List.cons_ne_nil _ _
  obtain ⟨s, hs, -, -⟩ := exists_flatIndex hne loadData_lostData hsmall firstKeys_lostData
    (by decide +kernel) (by decide +kernel)
  have hload := bulkLoad_loaded hs
  have hheap : s.leaves.length < 2 ^ 32 := by
    obtain ⟨l, r, hchain⟩ := loadChain_lostData
    rw [hload.leaves, hchain]
    exact (by decide : 3 < 2 ^ 32)
  have hinners : s.InnersRegular := fun nd hnd =>
    have h := hload.rising loadData_lostData rising_exactFitter hheap nd hnd
    InnerNode.regular_of_slope (nonneg_rat.mp h.slope) h.wide h.small _ _
  have hmin := hload.min
  have hmax := hload.max
  rw [map_fst_lostData, lostKeys] at hmin
  rw [map_fst_lostData, lostKeys, stairsKeys, ← List.cons_append, List.getLast?_concat] at hmax
  refine ⟨s, hs, ⟨hinners, fun l hl => ?_, hheap⟩, (Option.some.inj hmin).symm,
    (Option.some.inj hmax).symm⟩
  obtain ⟨x, hx, rfl⟩ := hload.mem_leaves.mp hl
  obtain ⟨l, hl, heq⟩ := linkLeaves_spec hx
  obtain ⟨b, rfl, hle⟩ := exists_build_lostData hl
  rw [heq]
  exact (b.builtBy.relink b.leaf.prev x.2.next).regular hle _ _

/-! ### 一つの block に集まった鍵 -/

theorem midLeaf_firstKey : midLeaf.firstKey = lostKey := by
  rw [midLeaf_header]
  rfl

/--
中身が写像 `m` で、真ん中の leaf `w` の鍵が、`first_key` を除いて二つ目の塊である索引。

二つ目の塊は一つの block に送られる。
-/
structure Crowded (s : PlinIndex ℚ) (m : Key → Option Payload) (l r : Link ℚ) (w : LeafNode ℚ)
    (t : Tier ℚ) (rest : List (Tier ℚ)) (slots : List (InnerSlot ℚ)) : Prop where
  implements : s.Implements m [l, (1, w), r] t rest slots
  slots : slots = [l, (1, w), r].map Link.info
  regular : s.Regular
  min : s.minKey = Key.ofNat 0
  max : s.maxKey = farKey 1 514
  number : s.leafNumber = 3
  heap : s.leaves.length = 3
  orphans : s.orphanNumber = 0
  header : LeafNode.SameHeader midLeaf w
  counted : w.Counted
  upward : ∀ m ∈ s.leaves, m.Upward
  block : ∀ b, w.blocks[69]? = some b → b.Packed ∧ b.slots.length = leafRealSlotsPerBlock
  next : r.firstKey = farKey 1 513
  keys : ∀ k, lostKey < k → k < farKey 1 513 → (m k ≠ none ↔ ∃ i < 513, farKey 1 i = k)

theorem lookup_lostData_ne_none {k : Key} : lostData.lookup k ≠ none ↔ k ∈ lostKeys := by
  rw [← map_fst_lostData, Option.ne_none_iff_exists']
  simp only [lookup_eq_some_iff_mem loadData_lostData.nodup, List.mem_map, Prod.exists,
    exists_and_right, exists_eq_right]

/-- 構築したばかりの leaf は、どの溢れも数え終えている。 -/
theorem counted_lostData {s : PlinIndex ℚ} (hload : Loaded exactFitter lostData s) :
    ∀ m ∈ s.leaves, m.Counted := by
  intro m hm
  obtain ⟨x, hx, rfl⟩ := hload.mem_leaves.mp hm
  obtain ⟨l, hl, heq⟩ := linkLeaves_spec hx
  obtain ⟨b, rfl, -⟩ := exists_build_lostData hl
  rw [heq]
  exact (b.constructed x.2.next).counted

theorem upward_lostData {s : PlinIndex ℚ} (hload : Loaded exactFitter lostData s) :
    ∀ m ∈ s.leaves, m.Upward := by
  intro m hm
  obtain ⟨x, hx, rfl⟩ := hload.mem_leaves.mp hm
  obtain ⟨l, hl, heq⟩ := linkLeaves_spec hx
  obtain ⟨b, rfl, hsmall⟩ := exists_build_lostData hl
  rw [heq]
  exact (b.builtBy.relink b.leaf.prev x.2.next).upward hsmall

/-- **`bulk_load` の後の三つの leaf の索引では、真ん中の leaf の鍵は一つの block に集まっている。** -/
theorem exists_crowded : ∃ (s : PlinIndex ℚ) (l r : Link ℚ) (t : Tier ℚ) (rest : List (Tier ℚ))
    (slots : List (InnerSlot ℚ)), bulkLoad exactFitter lostData = .ok s ∧
      s.Refines (fun k => lostData.lookup k) [l, (1, midLeaf), r] t rest slots ∧
      Crowded s (fun k => lostData.lookup k) l r midLeaf t rest slots := by
  obtain ⟨s, hs, hreg, hmin, hmax⟩ := exists_lostIndex
  have hload := bulkLoad_loaded hs
  obtain ⟨t, rest, href⟩ := hload.refines loadData_lostData hreg.toPlausible
  obtain ⟨l, r, hchain⟩ := loadChain_lostData
  have hfirst := (hload.freshChain loadData_lostData).firstKeys
  rw [firstKeys_lostData, hchain] at hfirst
  have hmid : (1, midLeaf) ∈ loadChain exactFitter lostData := by
    rw [hchain]
    simp
  have hlen : s.leaves.length = 3 := by
    rw [hload.leaves, hchain]
    rfl
  rw [hchain] at href
  have hnext : r.firstKey = farKey 1 513 := by
    have := congrArg (List.getLastD · freeFlag) hfirst
    exact this
  have hmem : (1, midLeaf) ∈ [l, (1, midLeaf), r] := by simp
  have hstored : s.leaves[1]? = some midLeaf := href.wired.chain.stored (1, midLeaf) hmem
  refine ⟨s, l, r, t, rest, _, hs, href, {
    implements := href.toImplements
    slots := rfl
    regular := hreg
    min := hmin
    max := hmax
    number := by
      rw [hload.number, loadSegments_lostData]
      rfl
    heap := hlen
    orphans := hload.orphans
    header := LeafNode.SameHeader.refl midLeaf
    counted := counted_lostData hload midLeaf (List.mem_of_getElem? hstored)
    upward := upward_lostData hload
    block := fun b hb =>
      have hb := List.mem_of_getElem? hb
      ⟨href.packed _ hmem b hb, length_slots_linkLeaves _ hmid b hb⟩
    next := hnext
    keys := fun k hlo hhi => ?_ }⟩
  rw [lookup_lostData_ne_none, mem_lostKeys_iff hlo.le hhi, mem_farRow]
  exact or_iff_right hlo.ne'

/-- 鍵を書いた後の真ん中の leaf の鍵。 -/
def keptKeys (m : Key → Option Payload) : List Key :=
  (if m lostKey = none then [] else [lostKey]) ++ farRow lateKey 1

section Kept

variable {m : Key → Option Payload}

theorem mem_keptKeys {k : Key} : k ∈ keptKeys m ↔
    (k = lostKey ∧ m lostKey ≠ none) ∨ k = lateKey ∨ ∃ i < 513, farKey 1 i = k := by
  rw [keptKeys, List.mem_append, mem_farRow]
  refine or_congr_left ?_
  split
  · next h => simp [h]
  · next h => simp [h]

theorem sorted_keptKeys : (keptKeys m).Pairwise (· < ·) := by
  have hrow := (List.pairwise_append.mp sorted_lateRow).1
  rw [keptKeys]
  split
  · exact hrow
  · refine List.pairwise_cons.mpr ⟨fun k hk => ?_, hrow⟩
    rcases mem_farRow.mp hk with rfl | ⟨i, hi, rfl⟩
    · exact lostKey_lt_lateKey
    · exact lostKey_lt_lateKey.trans (lateKey_lt_farKey (by omega))

theorem length_keptKeys : 514 ≤ (keptKeys m).length ∧ (keptKeys m).length ≤ 515 := by
  rw [keptKeys, List.length_append, length_farRow]
  split
  · decide
  · decide

/-- 塊はほとんど一点に見えるので、塊の真ん中を通る緩い直線が全ての鍵の位置を表す。 -/
theorem fitted_keptKeys : Fitted epsilonLeafNode (keptKeys m).zipIdx := by
  have hlate : lateKey.toRat = 2 ^ 41 - 2 ^ 33 := by
    rw [lateKey, toRat_ofNat (by norm_num)]
    norm_num
  have hlost : lostKey.toRat = 2 ^ 40 + 513 := by
    rw [lostKey, farKey, toRat_ofNat (by norm_num)]
    norm_num
  have hfar {i : Nat} (hi : i < 513) : (farKey 1 i).toRat = 2 ^ 41 + i := by
    rw [farKey, toRat_ofNat (by omega)]
    push_cast
    norm_num
  generalize hfront : (if m lostKey = none then [] else [lostKey]) = front
  have hcases : front = [] ∨ front = [lostKey] := by
    rw [← hfront]
    split
    · exact .inl rfl
    · exact .inr rfl
  refine ⟨⟨1 / 2 ^ 32, 257 + front.length - 2 ^ 41 / 2 ^ 32⟩, fun e he => ?_⟩
  rw [keptKeys, hfront, List.zipIdx_append, List.mem_append, farRow, List.zipIdx_cons,
    List.mem_cons] at he
  rcases he with he | rfl | he
  · rcases hcases with rfl | rfl
    · cases he
    · rw [List.mem_singleton.mp he]
      norm_num [Line.eval, hlost, epsilonLeafNode]
  · rw [Line.eval, hlate, abs_le]
    norm_num [epsilonLeafNode]
    constructor <;> linarith
  · obtain ⟨k, j⟩ := e
    obtain ⟨hle, hget⟩ := List.mk_mem_zipIdx_iff_le_and_getElem?_sub.mp he
    obtain ⟨i, rfl⟩ := Nat.exists_eq_add_of_le hle
    rw [Nat.zero_add, Nat.add_sub_cancel_left, List.getElem?_map] at hget
    obtain ⟨i', hi', rfl⟩ := Option.map_eq_some_iff.mp hget
    obtain ⟨hlt, rfl⟩ := List.getElem?_eq_some_iff.mp hi'
    rw [List.length_range] at hlt
    rw [List.getElem_range, Line.eval, hfar hlt, abs_le]
    have hcast : (i : ℚ) ≤ 512 := by exact_mod_cast Nat.le_of_lt_succ hlt
    have hpos : (0 : ℚ) ≤ i := Nat.cast_nonneg i
    push_cast
    norm_num [epsilonLeafNode]
    constructor <;> linarith

/-- **書いた後の鍵は、一つの区分に学習し直される。** -/
theorem exists_keptSegment : ∃ seg,
    makeSegmentation exactFitter epsilonLeafNode (keptKeys m) = [seg] ∧
      seg.number = (keptKeys m).length ∧ 0 ≤ seg.slope ∧
      (keptKeys m).head? = some seg.firstKey := by
  have hne : keptKeys m ≠ [] := List.ne_nil_of_length_pos (by have := @length_keptKeys m; omega)
  obtain ⟨seg, hseg, hd⟩ := makeSegmentation_of_fitted (by decide) sorted_keptKeys hne
    (fitted_keptKeys (m := m))
  refine ⟨seg, hseg, hd.number.trans List.length_zipIdx, hd.upward, ?_⟩
  have hfirst := hd.first
  rwa [← List.head?_map, List.zipIdx_map_fst] at hfirst

end Kept

namespace Crowded

variable {s : PlinIndex ℚ} {m : Key → Option Payload} {l r : Link ℚ} {w : LeafNode ℚ} {t : Tier ℚ}
  {rest : List (Tier ℚ)} {slots : List (InnerSlot ℚ)}

theorem firstKey (h : Crowded s m l r w t rest slots) : Link.firstKey (1, w) = lostKey := by
  rw [Link.firstKey, h.header.firstKey, midLeaf_firstKey]

/-- 書く鍵は、索引の内側の鍵である。 -/
theorem interior (h : Crowded s m l r w t rest slots) :
    s.minKey < lateKey ∧ lateKey < s.maxKey := by
  rw [h.min, h.max]
  exact ⟨by decide +kernel, by decide +kernel⟩

/-- 真ん中の leaf は、区間の鍵以下の最後の leaf である。 -/
theorem isPred (h : Crowded s m l r w t rest slots) {k : Key} (hlo : lostKey ≤ k)
    (hhi : k < farKey 1 513) :
    IsPred Link.firstKey k [l, (1, w), r] [l] (1, w) [r] :=
  ⟨rfl, h.firstKey.trans_le hlo, fun y hy => by rwa [List.mem_singleton.mp hy, h.next]⟩

theorem predict_late (h : Crowded s m l r w t rest slots) {k : Key} (hlo : lateKey ≤ k)
    (hhi : k ≤ farKey 1 512) : w.predict k = 69 := by
  rw [h.header.predict, predict_midLeaf_late hlo hhi]

theorem home_late (h : Crowded s m l r w t rest slots) : w.home lateKey = 69 := by
  rw [LeafNode.home, h.predict_late le_rfl (lateKey_lt_farKey (by decide)).le]
  rfl

/-- **二つ目の塊は一つの block に集まり、overflow tree に 498 個以上の鍵がある。** -/
theorem exists_block (h : Crowded s m l r w t rest slots) : ∃ u, w.blocks[69]? = some u ∧
    u.Packed ∧ u.get lateKey = none ∧ 498 ≤ u.overflowEntries := by
  have hchain := h.implements.wired.chain
  have hroom := (hchain.sound (1, w) (by simp)).room lateKey
  have hlate : lateKey ≤ farKey 1 512 := (lateKey_lt_farKey (by decide)).le
  have hlast : farKey 1 512 < farKey 1 513 := by decide +kernel
  have hfree : ∀ {k : Key}, k ≤ farKey 1 512 → k ≠ freeFlag := fun hk =>
    ne_of_lt (lt_of_le_of_lt hk (by decide +kernel))
  rw [show (1, w).2 = w from rfl, h.predict_late le_rfl hlate] at hroom
  obtain ⟨u, hu⟩ : ∃ u, w.blocks[69]? = some u := ⟨_, List.getElem?_eq_getElem hroom⟩
  obtain ⟨hpacked, hslots⟩ := h.block u hu
  have hget : ∀ {k : Key}, lateKey ≤ k → k ≤ farKey 1 512 → u.get k = m k := by
    intro k hlo hhi
    refine hchain.get_eq h.implements.contents
      (h.isPred (lostKey_lt_lateKey.le.trans hlo) (lt_of_le_of_lt hhi hlast)) (hfree hhi) ?_
    rw [show (1, w).2 = w from rfl, h.predict_late hlo hhi]
    exact hu
  refine ⟨u, hu, hpacked, ?_, ?_⟩
  · rw [hget le_rfl hlate]
    by_contra hne
    obtain ⟨i, hi, heq⟩ := (h.keys _ lostKey_lt_lateKey (lateKey_lt_farKey le_rfl)).mp hne
    exact absurd heq (lateKey_lt_farKey (by omega)).ne'
  · have hsorted := (List.pairwise_cons.mp (List.pairwise_append.mp sorted_lateRow).1).2
    have hcount := Block.length_le_of_get (b := u) (hsorted.imp ne_of_lt) (by
      intro k hk
      obtain ⟨i, hi, rfl⟩ := List.mem_map.mp hk
      have hi' := List.mem_range.mp hi
      have hle : farKey 1 i ≤ farKey 1 512 := by
        rw [List.range_succ, List.map_append] at hk hsorted
        rcases List.mem_append.mp hk with hk | hk
        · exact ((List.pairwise_append.mp hsorted).2.2 _ hk _ (by simp)).le
        · rw [List.mem_singleton.mp hk]
      have hlo := (lateKey_lt_farKey (i := i) (by omega)).le
      rw [hget hlo hle]
      exact ⟨hfree hle, (h.keys _ (lostKey_lt_lateKey.trans_le hlo)
        (lt_of_le_of_lt hle hlast)).mpr ⟨i, hi', rfl⟩⟩)
    rw [List.length_map, List.length_range, hslots, leafRealSlotsPerBlock, leafSlotsPerBlock]
      at hcount
    omega

/-- **塊の手前に鍵を書くと、真ん中の leaf は分割される。** -/
theorem due (h : Crowded s m l r w t rest slots) : w.Due lateKey := by
  obtain ⟨u, hu, hpacked, hget, hmany⟩ := h.exists_block
  have htree : u.overflowTree ≠ none := by
    intro hnone
    rw [Block.overflowEntries, hnone] at hmany
    exact absurd hmany (by decide)
  obtain ⟨hslot, htreeGet⟩ := Option.or_eq_none_iff.mp hget
  have hle : u.overflowEntries ≤ w.overflowNumber := by
    rw [h.counted.count, LeafNode.overflowEntries]
    exact List.single_le_sum (fun _ _ => Nat.zero_le _) _
      (List.mem_map_of_mem (List.mem_of_getElem? hu))
  have hnumber : w.numberToSplit = 319 := by
    rw [h.header.numberToSplit, midLeaf_header]
    exact midHeader_predict.2.2.2.2
  refine ⟨by omega, u, ?_, hslot, hpacked htree, htreeGet⟩
  rw [h.home_late]
  exact hu

section Wrote

variable {v : LeafNode ℚ} {payload : Payload}

/-- 鍵を書いた後の連鎖と、その中身。 -/
theorem written (h : Crowded s m l r w t rest slots) (hwrote : Wrote lateKey payload (1, w) v) :
    ∃ leaves, Chain s.minKey s.maxKey leaves ([l] ++ (1, v) :: [r]) ∧
      Contents ([l] ++ (1, v) :: [r]) fun k =>
        if k = lateKey then some payload else m k := by
  have hlate : lateKey < farKey 1 513 := lateKey_lt_farKey le_rfl
  have hhi := h.interior.2
  have hfree : lateKey ≠ freeFlag := ne_of_lt (hhi.trans h.implements.wired.rooted.bound)
  have hpred := h.isPred lostKey_lt_lateKey.le hlate
  refine ⟨_, (h.implements.wired.wrote hhi.le hpred hwrote).chain, ?_⟩
  obtain ⟨b, hb⟩ := hwrote
  have hpacked : b.Packed := by
    have hblock := hb.block
    rw [show (1, w).2 = w from rfl, h.home_late] at hblock
    exact (h.block b hblock).1
  have hhome : w.home lateKey = w.predict lateKey := by
    rw [h.home_late, h.predict_late le_rfl (lateKey_lt_farKey (by decide)).le]
  have hrew : LeafNode.Rewritten (1, w).2 v ((1, w).2.predict lateKey) b
      (b.upsert lateKey payload).2 := hhome ▸ hb
  have hinv := h.implements.contents.inv _ hpred.mem b hb.mem_block
  exact h.implements.contents.rewritten h.implements.wired.chain hpred hfree hrew
    (Block.inv_upsert hfree hinv (hpacked.upsertSafe _)) fun k hk => Block.get_upsert hfree hk

/-- 鍵を書いた後の真ん中の leaf が持つ鍵は、`first_key` と書いた鍵と二つ目の塊である。 -/
theorem stores_iff (h : Crowded s m l r w t rest slots)
    (hwrote : Wrote lateKey payload (1, w) v) (k : Key) : v.Stores k ↔ k ∈ keptKeys m := by
  obtain ⟨leaves, hchain, hcontents⟩ := h.written hwrote
  have hfirst : Link.firstKey (1, v) = lostKey := by
    obtain ⟨b, hb⟩ := hwrote
    exact hb.header.firstKey.trans h.firstKey
  have hstores : (1, v).2.Stores k ↔ _ := hchain.stores_iff hcontents
  rw [hfirst, List.forall_mem_singleton, h.next] at hstores
  rw [show v.Stores k ↔ (1, v).2.Stores k from Iff.rfl, hstores, mem_keptKeys]
  constructor
  · rintro ⟨hk, hlo, hhi⟩
    by_cases heq : k = lateKey
    · exact Or.inr (Or.inl heq)
    · rw [if_neg heq] at hk
      rcases hlo.eq_or_lt with rfl | hlo
      · exact Or.inl ⟨rfl, hk⟩
      · exact Or.inr (Or.inr ((h.keys _ hlo hhi).mp hk))
  · rintro (⟨rfl, hk⟩ | rfl | ⟨i, hi, rfl⟩)
    · rw [if_neg lostKey_lt_lateKey.ne]
      exact ⟨hk, le_rfl, lostKey_lt_lateKey.trans (lateKey_lt_farKey le_rfl)⟩
    · rw [if_pos rfl]
      exact ⟨by simp, lostKey_lt_lateKey.le, lateKey_lt_farKey le_rfl⟩
    · have hlt := lateKey_lt_farKey (i := i) (by omega)
      have hlast : farKey 1 i < farKey 1 513 := by
        have hsorted := (List.pairwise_append.mp sorted_lateRow).2.2
        exact hsorted _ (mem_farRow.mpr (Or.inr ⟨i, hi, rfl⟩)) _ (by simp)
      have hlo := lostKey_lt_lateKey.trans hlt
      rw [if_neg hlt.ne']
      exact ⟨(h.keys _ hlo hlast).mpr ⟨i, hi, rfl⟩, hlo.le, hlast⟩

theorem getData_keys (h : Crowded s m l r w t rest slots)
    (hwrote : Wrote lateKey payload (1, w) v) : v.getData.1.map Prod.fst = keptKeys m := by
  obtain ⟨leaves, hchain, hcontents⟩ := h.written hwrote
  exact hchain.getData_keys hcontents h.implements.wired.rooted.bound (z := (1, v)) (by simp)
    sorted_keptKeys (h.stores_iff hwrote)

theorem exists_splitSegment (h : Crowded s m l r w t rest slots)
    (hwrote : Wrote lateKey payload (1, w) v) : ∃ seg, splitSegments exactFitter v = [seg] ∧
      LeafNode.blockNumberFor seg.number < 2 ^ 29 := by
  obtain ⟨seg, hseg, hnumber, -, -⟩ := @exists_keptSegment m
  have hlen := @length_keptKeys m
  refine ⟨seg, by rw [splitSegments, h.getData_keys hwrote, hseg], ?_⟩
  unfold LeafNode.blockNumberFor
  omega

/-- 新しい leaf は、残った鍵の先頭から始まり、その予測器は正しい。 -/
theorem fresh (h : Crowded s m l r w t rest slots) (hwrote : Wrote lateKey payload (1, w) v)
    {n : LeafId} {y : Link ℚ} (hy : splitChain exactFitter n l (1, v) r = [y]) :
    (keptKeys m).head? = some y.firstKey ∧ y.2.Upward ∧ ∀ lo hi, y.2.Regular lo hi := by
  have hkeys := h.getData_keys hwrote
  obtain ⟨seg, hseg, hnumber, hslope, hhead⟩ := @exists_keptSegment m
  rw [← hkeys] at hseg
  have hsegs : splitSegments exactFitter v = [seg] := hseg
  have hsorted : (v.getData.1.map Prod.fst).Pairwise (· < ·) := by
    rw [hkeys]
    exact sorted_keptKeys
  have hmem : y ∈ splitChain exactFitter n l (1, v) r := by
    rw [hy]
    exact List.mem_singleton_self y
  obtain ⟨u, hu, heq⟩ := linkLeaves_spec hmem
  constructor
  · obtain ⟨-, -, hfirst⟩ := freshLeaves_spec 0 (some l.1) n (covers_splitSegments exactFitter v)
      (hsorted.imp le_of_lt)
    have hmf := List.mem_map_of_mem (f := LeafNode.firstKey) hu
    rw [hfirst, hsegs] at hmf
    rw [hhead, Link.firstKey, heq]
    exact congrArg some (List.mem_singleton.mp hmf).symm
  · have hlen := @length_keptKeys m
    have hblocks : LeafNode.blockNumberFor seg.number ≤ 2 ^ 28 := by
      unfold LeafNode.blockNumberFor
      omega
    obtain ⟨b, rfl, hsmall⟩ := exists_leafBuild (by
      intro seg' hseg'
      rw [hsegs] at hseg'
      rw [List.mem_singleton.mp hseg']
      exact ⟨by omega, hslope, hblocks⟩) (by
      rw [hsegs, ← List.length_map Prod.fst, hkeys]
      exact hnumber) hsorted u hu
    have hbuilt := b.builtBy.relink b.leaf.prev y.2.next
    rw [heq]
    exact ⟨hbuilt.upward hsmall, fun lo hi => hbuilt.regular hsmall lo hi⟩

/-- **塊の手前に鍵を書くと、真ん中の leaf は一つの新しい leaf に替わる。** -/
theorem exists_split (h : Crowded s m l r w t rest slots) (payload : Payload) :
    ∃ s' v y a, s.upsert exactFitter 1 lateKey payload = .ok s' ∧
      Wrote lateKey payload (1, w) v ∧ s.SplitsAt lateKey 1 (some a) w ∧
      SplitOnce exactFitter s s' [] l (1, w) r [] v y ∧ s'.Regular ∧
      (∀ m ∈ s'.leaves, m.Upward) ∧ (keptKeys m).head? = some y.firstKey := by
  have hwired := h.implements.wired
  obtain ⟨hlo, hhi⟩ := h.interior
  have hheap : s.leaves.length + 1 < 2 ^ 32 := by
    rw [h.heap]
    decide
  have hfew : slots.length < innerSlotsPerBlock := by
    rw [h.slots]
    exact (by decide : 3 < innerSlotsPerBlock)
  have hgt : ∀ x ∈ [r], lateKey < x.firstKey := by
    intro x hx
    rw [List.mem_singleton.mp hx, h.next]
    exact lateKey_lt_farKey le_rfl
  obtain ⟨s', v, y, a, hs', hwrote, hat, honce⟩ := Wired.exists_splitOnce (A := []) (z := (1, w))
    (B := []) hwired h.implements.live h.regular hlo hhi
    (h.firstKey.trans_le lostKey_lt_lateKey.le) hgt h.due (by rw [h.slots]; simp) hfew h.orphans
    hheap fun v hv => h.exists_splitSegment hv
  obtain ⟨hfirst, hup, hreg⟩ := h.fresh hwrote honce.fresh
  have hhead : LeafNode.SameHeader w v := by
    obtain ⟨b, hb⟩ := hwrote
    exact hb.header
  exact ⟨s', v, y, a, hs', hwrote, hat, honce,
    honce.regular hwired h.regular hhead hheap (hreg _ _),
    honce.forall_leaves hwired hhead LeafNode.Upward.congr h.upward hup, hfirst⟩

theorem single (h : Crowded s m l r w t rest slots) (hwrote : Wrote lateKey payload (1, w) v) :
    (splitSegments exactFitter (w.written lateKey payload)).length = 1 := by
  obtain ⟨seg, hseg, -⟩ := h.exists_splitSegment hwrote
  have hsame : splitSegments exactFitter v =
      splitSegments exactFitter (w.written lateKey payload) :=
    hwrote.splitSegments_eq exactFitter
  rw [← hsame, hseg, List.length_singleton]

end Wrote

theorem kept (h : Crowded s m l r w t rest slots) (hk : m lostKey ≠ none) :
    w.Stores w.firstKey := by
  refine h.implements.wired.chain.stores_firstKey (z := (1, w)) h.implements.contents (by simp) ?_
  rwa [h.firstKey]

end Crowded

/-! ### 分割の起きる実行 -/

/--
`bulk_load` の後の `s` に鍵を一つ書き、真ん中の leaf が分割されて `s'` に着く。

真ん中の leaf は `first_key` を持っており、書いた後の中身は一つの区分に学習し直される。
-/
structure SplitRun (s s' : PlinIndex ℚ) : Prop where
  load : bulkLoad exactFitter lostData = .ok s
  regular : s.Regular
  upward : ∀ m ∈ s.leaves, m.Upward
  interior : s.Interior (.upsert lateKey 7)
  splits : ∃ a, s.SplitsAt lateKey 1 (some a) midLeaf
  kept : midLeaf.Stores midLeaf.firstKey
  single : (splitSegments exactFitter (midLeaf.written lateKey 7)).length = 1
  upsert : perform exactFitter 1 s (.upsert lateKey 7) = .ok s'
  regular' : s'.Regular
  upward' : ∀ m ∈ s'.leaves, m.Upward
  min' : s'.minKey = Key.ofNat 0
  max' : s'.maxKey = farKey 1 514

/-- **分割の起きる実行が在る。** -/
theorem exists_splitRun : ∃ s s' : PlinIndex ℚ, SplitRun s s' := by
  obtain ⟨s, l, r, t, rest, slots, hs, -, h⟩ := exists_crowded
  obtain ⟨s', v, y, a, hs', hwrote, hat, honce, hreg, hup, -⟩ := h.exists_split 7
  have hlost : lostData.lookup lostKey ≠ none :=
    lookup_lostData_ne_none.mpr
      ((mem_lostKeys_iff le_rfl (by decide +kernel)).mpr (by simp [farRow]))
  exact ⟨s, s', hs, h.regular, h.upward, h.interior, ⟨a, hat⟩, h.kept hlost, h.single hwrote, hs',
    hreg, hup, honce.bounds.min.trans h.min, honce.bounds.max.trans h.max⟩

/-- 着く leaf は一つなので、分割されるのは真ん中の leaf に限る。 -/
theorem SplitRun.eq_midLeaf {s s' : PlinIndex ℚ} (h : SplitRun s s') {id : LeafId}
    {acc : Option (InnerSlot ℚ)} {l : LeafNode ℚ} (hat : s.SplitsAt lateKey id acc l) :
    acc ≠ none ∧ l = midLeaf := by
  obtain ⟨a, hmid⟩ := h.splits
  obtain ⟨block, hchoose⟩ := hmid.chosen
  obtain ⟨block', hchoose'⟩ := hat.chosen
  have hsame := Option.some.inj (hchoose.symm.trans hchoose')
  cases hsame
  exact ⟨Option.some_ne_none a, Option.some.inj (hat.stored.symm.trans hmid.stored)⟩

theorem farKey_mem_lostKeys {i : Nat} (hi : i < 513) : farKey 1 i ∈ lostKeys := by
  rw [lostKeys_eq]
  exact List.mem_append_right _ (List.mem_append_left _ (mem_farRow.mpr (Or.inr ⟨i, hi, rfl⟩)))

/-- どの鍵も、`bulk_load` したときの payload は 1 である。 -/
theorem lookup_lostData {k : Key} (hk : k ∈ lostKeys) : lostData.lookup k = some 1 :=
  (lookup_eq_some_iff_mem loadData_lostData.nodup).mpr (List.mem_map_of_mem hk)

theorem applyAll_lateKey (k : Key) :
    IndexOp.applyAll (fun k => lostData.lookup k) [.upsert lateKey 7] k =
      if k = lateKey then some 7 else lostData.lookup k := rfl

end PlinIndex

end Plin
