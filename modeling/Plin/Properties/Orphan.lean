import Plin.Properties.Chain
import Plin.Properties.ModelCorrection

/-!
# 親 slot の無い leaf

分割でできた leaf は、親 slot が置かれるまでは左の leaf の `next` からしか届かない。丸めの無い演算では、
構築子の作った leaf の連鎖のどこから始めても、`find` / `upsert` / `remove` は**連鎖の中で鍵以下の最後の
leaf** の block を読み書きする（`orphan_reachable`）。
-/

namespace Plin

open Infra

/-- 構築子 `LeafNode` に渡すもの。block 数の上限は `set_block_number` の assert である。 -/
structure LeafBuild where
  blockNumber : Nat
  data : List (Key × Payload)
  startPos : Nat
  slope : ℚ
  intercept : ℚ
  prev : Option LeafId
  wide : 3 ≤ blockNumber
  small : blockNumber < 2 ^ 29
  many : 2 ≤ data.length
  sorted : (data.map Prod.fst).Pairwise (· < ·)
  upward : 0 ≤ slope

namespace LeafBuild

/-- 構築に使った鍵。 -/
def keys (b : LeafBuild) : List Key := b.data.map Prod.fst

/-- 構築子の作る leaf。 -/
def leaf (b : LeafBuild) : LeafNode ℚ :=
  LeafNode.new b.blockNumber b.data b.startPos b.slope b.intercept b.prev

def first (b : LeafBuild) : Key := b.keys.headD freeFlag

def last (b : LeafBuild) : Key := b.keys.getLastD freeFlag

theorem exists_keys (b : LeafBuild) : ∃ x y ys, b.keys = x :: y :: ys := by
  have hmany := b.many
  unfold keys
  cases hd : b.data with
  | nil => simp [hd] at hmany
  | cons e es =>
    cases es with
    | nil => simp [hd] at hmany
    | cons e' es => exact ⟨_, _, _, rfl⟩

theorem last_mem (b : LeafBuild) : b.last ∈ b.keys := by
  obtain ⟨x, y, ys, hkeys⟩ := b.exists_keys
  rw [last, hkeys, List.getLastD_cons]
  exact List.getLastD_mem_cons

theorem first_lt_last (b : LeafBuild) : b.first < b.last := by
  obtain ⟨x, y, ys, hkeys⟩ := b.exists_keys
  have hsorted : b.keys.Pairwise (· < ·) := b.sorted
  rw [hkeys] at hsorted
  rw [first, last, hkeys, List.headD_cons, List.getLastD_cons, List.getLastD_cons]
  exact (List.pairwise_cons.mp hsorted).1 _ List.getLastD_mem_cons

end LeafBuild

/-! ## 末尾の block -/

/-- 位置が `size - 1` 以上の鍵は、末尾の二つの block に送られる。 -/
theorem LeafNode.predictBlock_tail {slope intercept : ℚ} {bn : Nat} (h3 : 3 ≤ bn)
    (h32 : bn < 2 ^ 32) {k : Key}
    (hk : (((bn - 2) * leafSlotsPerBlock : Nat) : ℚ) - 1 ≤ line (slope, intercept) k) :
    sub32 bn 2 ≤ predictBlock k slope intercept bn := by
  have hpos : ((bn - 3 : Nat) : ℚ) ≤ position k slope intercept / (leafSlotsPerBlock : Nat) := by
    have hcast : (((bn - 2) * leafSlotsPerBlock : Nat) : ℚ) =
        ((bn - 3 : Nat) : ℚ) * 16 + 16 := by
      rw [show bn - 2 = bn - 3 + 1 by omega, leafSlotsPerBlock]
      push_cast
      ring
    have hline : position k slope intercept = line (slope, intercept) k + 1 / 2 := by
      unfold position line
      show k.toRat * slope + intercept + 0.5 = k.toRat * slope + intercept + 1 / 2
      norm_num
    rw [hcast] at hk
    rw [hline, leafSlotsPerBlock, le_div_iff₀ (by norm_num)]
    push_cast
    linarith
  have htrunc := le_truncRat hpos
  rw [sub32_eq (by omega) h32]
  unfold predictBlock
  rw [show Arith.toInt64 (position k slope intercept / Arith.ofNat leafSlotsPerBlock) =
    truncRat (position k slope intercept / (leafSlotsPerBlock : Nat)) from rfl,
    sub32_eq (by omega) h32, sub32_eq (by omega) h32]
  dsimp only
  rw [if_neg (by omega)]
  split_ifs with hover
  · omega
  · omega

/-- 傾きが負でなければ、予測は単調である。 -/
theorem LeafNode.predictBlock_mono {slope intercept : ℚ} (hslope : 0 ≤ slope) {bn : Nat}
    (h3 : 3 ≤ bn) (h32 : bn < 2 ^ 32) {a b : Key} (hab : a ≤ b) :
    predictBlock a slope intercept bn ≤ predictBlock b slope intercept bn := by
  have hpos : position a slope intercept / (leafSlotsPerBlock : Nat) ≤
      position b slope intercept / ((leafSlotsPerBlock : Nat) : ℚ) := by
    have hkey := mul_le_mul_of_nonneg_right (Key.toRat_strictMono.monotone hab) hslope
    refine div_le_div_of_nonneg_right ?_ (Nat.cast_nonneg _)
    show a.toRat * slope + intercept + 0.5 ≤ b.toRat * slope + intercept + 0.5
    linarith
  have htrunc := truncRat_mono hpos
  unfold predictBlock
  rw [show Arith.toInt64 (position a slope intercept / Arith.ofNat leafSlotsPerBlock) =
      truncRat (position a slope intercept / (leafSlotsPerBlock : Nat)) from rfl,
    show Arith.toInt64 (position b slope intercept / Arith.ofNat leafSlotsPerBlock) =
      truncRat (position b slope intercept / (leafSlotsPerBlock : Nat)) from rfl,
    sub32_eq h3 h32, sub32_eq (by omega) h32]
  dsimp only
  split_ifs <;> omega

/-- 構築子の作った leaf から、つながりと block の中身だけを変えた leaf。 -/
def LeafNode.BuiltBy (b : LeafBuild) (l : LeafNode ℚ) : Prop :=
  LeafNode.SameHeader { b.leaf with prev := l.prev, next := l.next } l

namespace LeafNode.BuiltBy

variable {b : LeafBuild} {l : LeafNode ℚ}

/-- 構築の前半で決まる header。 -/
theorem header (h : l.BuiltBy b) : l = { LeafNode.initial b.blockNumber b.keys b.startPos b.slope
    b.intercept b.prev with
      prev := l.prev, next := l.next, blocks := l.blocks, overflowNumber := l.overflowNumber } := by
  have hnew := LeafNode.new_header b.blockNumber b.data b.startPos b.slope b.intercept b.prev
  have hheader := SameHeader.header h
  rw [LeafBuild.leaf, hnew.header] at hheader
  exact hheader

theorem firstKey (h : l.BuiltBy b) : l.firstKey = b.first := by
  rw [h.header]
  rfl

theorem lastBuildKey (h : l.BuiltBy b) : l.lastBuildKey = b.last := by
  rw [h.header]
  rfl

theorem locked (h : l.BuiltBy b) : l.locked = 0 := by
  rw [h.header]
  rfl

theorem blockNumber (h : l.BuiltBy b) : l.blockNumber = b.blockNumber := by
  have := b.small
  rw [h.header]
  exact Nat.mod_eq_of_lt (by omega)

theorem room (h : l.BuiltBy b) (k : Key) : l.predict k < l.blocks.length := by
  have hroom := LeafNode.new_room b.blockNumber b.data b.startPos b.slope b.intercept b.prev
    b.wide k
  rw [SameHeader.predict h, SameHeader.length h]
  exact hroom

/-- 引き伸ばした model は単調で、最後の構築の鍵を末尾に送る。 -/
theorem model (h : l.BuiltBy b) : 0 ≤ l.slope ∧
    (((b.blockNumber - 2) * leafSlotsPerBlock : Nat) : ℚ) - 1 ≤
      line (l.slope, l.intercept) b.last := by
  have hsmall := b.small
  have hwide := b.wide
  have hbn : b.blockNumber % 2 ^ 32 = b.blockNumber := Nat.mod_eq_of_lt (by omega)
  have hsub : sub32 b.blockNumber 2 = b.blockNumber - 2 := sub32_eq (by omega) (by omega)
  obtain ⟨slope, intercept, hslope, hmodel⟩ : ∃ slope intercept : ℚ, 0 ≤ slope ∧
      (l.slope, l.intercept) = modelCorrection slope intercept
        ((b.blockNumber - 2) * leafSlotsPerBlock) b.first b.last := by
    have hmodel : (l.slope, l.intercept) = modelCorrection
        (b.slope * (leafSlotsPerBlock : Nat) / (0.5 * (leafRealSlotsPerBlock : Nat)))
        ((b.intercept - b.startPos - b.first.toRat * b.slope) * (leafSlotsPerBlock : Nat) /
          (0.5 * (leafRealSlotsPerBlock : Nat)))
        (sub32 (b.blockNumber % 2 ^ 32) 2 * leafSlotsPerBlock) b.first b.last := by
      rw [h.header]
      rfl
    rw [hbn, hsub] at hmodel
    have hratio : (0 : ℚ) ≤ 0.5 * (leafRealSlotsPerBlock : Nat) :=
      mul_nonneg (by norm_num) (Nat.cast_nonneg _)
    exact ⟨_, _, div_nonneg (mul_nonneg b.upward (Nat.cast_nonneg _)) hratio, hmodel⟩
  have hsize : (b.blockNumber - 2) * leafSlotsPerBlock < 2 ^ 64 := by
    rw [leafSlotsPerBlock]
    omega
  have hsize' : 1 ≤ (b.blockNumber - 2) * leafSlotsPerBlock := by
    rw [leafSlotsPerBlock]
    omega
  have hcases := @modelCorrection_cases slope intercept _ b.first b.last hsize' hsize
  rw [← hmodel] at hcases
  exact hcases.last hslope b.first_lt_last hsize'

/-- **最後の構築の鍵より後ろは、末尾の二つの block に送られる。** -/
theorem tail (h : l.BuiltBy b) {k : Key} (hk : b.last ≤ k) :
    sub32 l.blockNumber 2 ≤ l.predict k := by
  have hsmall := b.small
  obtain ⟨hnonneg, hlast⟩ := h.model
  rw [LeafNode.predict, h.blockNumber]
  exact predictBlock_tail b.wide (by omega) (hlast.trans (line_mono hnonneg hk))

end LeafNode.BuiltBy

/-! ## 連鎖 -/

/-- 連鎖の leaf と、それを作った構築。 -/
structure Orphan where
  id : LeafId
  leaf : LeafNode ℚ
  build : LeafBuild
  built : leaf.BuiltBy build

def Orphan.firstKey (o : Orphan) : Key := o.leaf.firstKey

def Orphan.link (o : Orphan) : Link ℚ := (o.id, o.leaf)

/-- `next` でつながった leaf の列。どの構築の鍵も次の leaf の `first_key` より小さい。 -/
structure OrphanChain (leaves : List (LeafNode ℚ)) (c : List Orphan) : Prop where
  stored : ∀ o ∈ c, leaves[o.id]? = some o.leaf
  next : ∀ {A B : List Orphan} {o : Orphan}, c = A ++ o :: B →
    o.leaf.next = B.head?.map Orphan.id
  below : c.IsChain fun o o' => ∀ k ∈ o.build.keys, k < o'.leaf.firstKey

namespace OrphanChain

variable {leaves : List (LeafNode ℚ)} {c : List Orphan}

theorem sorted (h : OrphanChain leaves c) : c.Pairwise fun o o' =>
    o.leaf.firstKey < o'.leaf.firstKey ∧ o.leaf.lastBuildKey < o'.leaf.firstKey := by
  have : IsTrans Orphan fun o o' =>
      o.leaf.firstKey < o'.leaf.firstKey ∧ o.leaf.lastBuildKey < o'.leaf.firstKey :=
    ⟨fun _ _ _ h₁ h₂ => ⟨h₁.1.trans h₂.1, h₁.2.trans h₂.1⟩⟩
  refine List.isChain_iff_pairwise.mp (h.below.imp fun o o' hlt => ?_)
  have hlast := hlt _ o.build.last_mem
  rw [o.built.firstKey, o.built.lastBuildKey]
  exact ⟨o.build.first_lt_last.trans hlast, hlast⟩

theorem queue (h : OrphanChain leaves c) : Queue leaves (c.map Orphan.link) where
  stored x hx := by
    obtain ⟨o, ho, rfl⟩ := List.mem_map.mp hx
    exact h.stored o ho
  next := by
    intro A B x hc
    obtain ⟨A', C, rfl, rfl, hC⟩ := List.map_eq_append_iff.mp hc
    obtain ⟨o, B', rfl, rfl, rfl⟩ := List.map_eq_cons_iff.mp hC
    refine (h.next rfl).trans ?_
    cases B' <;> rfl
  sorted := List.pairwise_map.mpr h.sorted
  small x hx := by
    obtain ⟨o, -, rfl⟩ := List.mem_map.mp hx
    have := o.build.small
    rwa [← o.built.blockNumber] at this
  unlocked x hx := by
    obtain ⟨o, -, rfl⟩ := List.mem_map.mp hx
    exact o.built.locked

/-- 連鎖は heap より長くならない。 -/
theorem length_le (h : OrphanChain leaves c) : c.length ≤ leaves.length := by
  have hnodup : ((c.map Orphan.link).map Prod.fst).Nodup := by
    rw [List.map_map]
    refine List.pairwise_map.mpr (h.sorted.imp_of_mem fun {o o'} ho ho' hlt heq => ?_)
    have hsame : o.leaf = o'.leaf := by
      have := h.stored o ho
      rw [show o.id = o'.id from heq, h.stored o' ho'] at this
      exact (Option.some.inj this).symm
    rw [hsame] at hlt
    exact lt_irrefl _ hlt.1
  have := Chain.length_le h.queue.stored hnodup
  rwa [List.length_map] at this

end OrphanChain

/-- **連鎖のどこから始めても、鍵以下の最後の leaf の block を読み書きする。** 始めの leaf では親 slot の写しを
使ってもよい。 -/
theorem orphan_reachable {leaves : List (LeafNode ℚ)} {c X W : List Orphan} {o : Orphan}
    (h : OrphanChain leaves c) (hc : c = X ++ o :: W) {key : Key} (hkey : o.firstKey ≤ key)
    {accelerator : Option (InnerSlot ℚ)}
    (hacc : accelerator = none ∨ accelerator = some (o.leaf.getInfo o.id)) :
    ∃ A z B, IsPred Orphan.firstKey key c A z B ∧ ∃ block b, z.leaf.blocks[block]? = some b ∧
      (∀ p, LeafNode.find leaves o.id key p accelerator = some (b.find key p)) ∧
      (∀ p, ∃ ret l' split, LeafNode.upsert leaves o.id key p accelerator =
        some ⟨ret, leaves.set z.id l', split⟩ ∧
          l'.blocks = z.leaf.blocks.set block (b.upsert key p).2) ∧
      ∃ l', LeafNode.remove leaves o.id key accelerator =
        some ((b.remove key).1, leaves.set z.id l') ∧
          l'.blocks = z.leaf.blocks.set block (b.remove key).2 := by
  have hqueue := h.queue
  -- 構築した最後の鍵より先の鍵は、末尾の二つの block に予測される
  have htail : ∀ x ∈ c.map Orphan.link, x.2.lastBuildKey ≤ key →
      sub32 x.2.blockNumber 2 ≤ x.2.predict key := by
    intro x hx hk
    obtain ⟨y, -, rfl⟩ := List.mem_map.mp hx
    exact y.built.tail (y.built.lastBuildKey ▸ hk)
  have hfuel : (W.map Orphan.link).length < leaves.length + 1 := by
    have hlen := h.length_le
    rw [hc, List.length_append, List.length_cons] at hlen
    rw [List.length_map]
    omega
  have hok : o.leaf.AccOk o.id accelerator := by
    rintro s rfl
    rcases hacc with hacc | hacc
    · cases hacc
    · exact Option.some.inj hacc
  have hcut : c.map Orphan.link = X.map Orphan.link ++ o.link :: W.map Orphan.link := by
    rw [hc, List.map_append, List.map_cons]
  obtain ⟨A, z, B, hpred, hlocate⟩ := hqueue.locate_eq htail hcut hkey hfuel hok
  rw [← List.map_cons] at hpred
  obtain ⟨A', C, hcut, rfl, hC⟩ := List.map_eq_append_iff.mp hpred.eq
  obtain ⟨z', B', rfl, rfl, rfl⟩ := List.map_eq_cons_iff.mp hC
  have hz : z' ∈ c := by
    rw [hc, hcut]
    simp
  have hstored : leaves[z'.id]? = some z'.leaf := h.stored z' hz
  obtain ⟨b, hb⟩ : ∃ b, z'.leaf.blocks[z'.leaf.home key]? = some b := by
    have hroom := lt_of_le_of_lt (LeafNode.slotBlock_le (z'.leaf.predict key)) (z'.built.room key)
    exact ⟨_, List.getElem?_eq_getElem hroom⟩
  have hwrite : z'.leaf.checkWriteLock (if A'.map Orphan.link = [] then accelerator else none) =
      true := by
    have hnone : z'.leaf.checkWriteLock none = true := by
      simp [LeafNode.checkWriteLock, z'.built.locked]
    split
    · rcases hacc with rfl | rfl
      · exact hnone
      · rfl
    · exact hnone
  -- `find`、`upsert`、`remove` は同じ leaf の同じ block を扱う
  refine ⟨X ++ A', z', B', ⟨by rw [hc, hcut, List.append_assoc], hpred.le, ?_⟩,
    z'.leaf.home key, b, hb, ?_, ?_, ?_⟩
  · intro y hy
    exact hpred.gt y.link (List.mem_map_of_mem hy)
  · intro p
    exact LeafNode.find_of_locate hlocate hstored hb
  · intro p
    obtain ⟨n, hleaf⟩ := LeafNode.finishUpsert_leaf z'.leaf z'.id
      (if A'.map Orphan.link = [] then accelerator else none) (b.upsert key p).1
      (z'.leaf.blocks.set (z'.leaf.home key) (b.upsert key p).2)
    exact ⟨_, _, _, LeafNode.upsert_of_locate hlocate hstored hwrite hb,
      congrArg LeafNode.blocks hleaf⟩
  · obtain ⟨n, hremove⟩ := LeafNode.remove_of_locate hlocate hstored hwrite hb
    exact ⟨_, hremove, rfl⟩

/-- 二つの鍵の leaf。 -/
def pairBuild (n : Nat) (h : Key.ofNat n < Key.ofNat (n + 1)) : LeafBuild where
  blockNumber := 3
  data := [(Key.ofNat n, 7), (Key.ofNat (n + 1), 8)]
  startPos := 0
  slope := 1
  intercept := 0
  prev := none
  wide := by decide
  small := by decide
  many := le_refl 2
  sorted := by simpa using h
  upward := by norm_num

/-- 構築子の作ったまま、隣につないだ leaf。 -/
def LeafBuild.orphan (b : LeafBuild) (id : LeafId) (next : Option LeafId) : Orphan where
  id := id
  leaf := { b.leaf with next := next }
  build := b
  built := ⟨rfl, rfl⟩

/-- `[0, 1]` の leaf と `[2, 3]` の leaf。鍵 `3` は左の leaf から始めても右の leaf で扱われる。 -/
theorem orphan_reachable_next :
    ∃ o₀ o₁ : Orphan, o₀.firstKey = Key.ofNat 0 ∧ o₁.firstKey = Key.ofNat 2 ∧
      ∃ b ∈ o₁.leaf.blocks, LeafNode.find [o₀.leaf, o₁.leaf] 0 (Key.ofNat 3) 9
        (some (o₀.leaf.getInfo 0)) = some (b.find (Key.ofNat 3) 9) := by
  have h01 : Key.ofNat 0 < Key.ofNat (0 + 1) := by decide +kernel
  have h23 : Key.ofNat 2 < Key.ofNat (2 + 1) := by decide +kernel
  let o₀ := (pairBuild 0 h01).orphan 0 (some 1)
  let o₁ := (pairBuild 2 h23).orphan 1 none
  have hf₀ : o₀.firstKey = Key.ofNat 0 :=
    LeafNode.BuiltBy.firstKey (b := pairBuild 0 h01) o₀.built
  have hf₁ : o₁.firstKey = Key.ofNat 2 :=
    LeafNode.BuiltBy.firstKey (b := pairBuild 2 h23) o₁.built
  have hchain : OrphanChain [o₀.leaf, o₁.leaf] [o₀, o₁] := by
    refine ⟨?_, ?_, ?_⟩
    · intro o ho
      rcases List.mem_pair.mp ho with rfl | rfl <;> rfl
    · intro A B o hc
      rcases List.cons_eq_append_iff.mp hc with ⟨rfl, h⟩ | ⟨A, rfl, h⟩
      · obtain ⟨rfl, rfl⟩ := List.cons.inj h
        rfl
      · rcases List.cons_eq_append_iff.mp h with ⟨rfl, h⟩ | ⟨A, rfl, h⟩
        · obtain ⟨rfl, rfl⟩ := List.cons.inj h
          rfl
        · simp at h
    · refine List.isChain_pair.mpr fun k hk => ?_
      rw [show o₁.leaf.firstKey = Key.ofNat 2 from hf₁]
      rcases List.mem_pair.mp (show k ∈ [Key.ofNat 0, Key.ofNat 1] from hk) with rfl | rfl
      · decide +kernel
      · decide +kernel
  have hexpect : IsPred Orphan.firstKey (Key.ofNat 3) [o₀, o₁] [o₀] o₁ [] :=
    ⟨rfl, by rw [hf₁]; decide +kernel, by simp⟩
  have hstart : o₀.firstKey ≤ Key.ofNat 3 := by
    rw [hf₀]
    decide +kernel
  obtain ⟨A, z, B, hpred, block, b, hb, hfind, -⟩ :=
    @orphan_reachable _ [o₀, o₁] [] [o₁] o₀ hchain rfl _ hstart _ (Or.inr rfl)
  obtain ⟨-, rfl, -⟩ := hpred.unique hexpect
  exact ⟨o₀, o₁, hf₀, hf₁, b, List.mem_of_getElem? hb, hfind 9⟩

end Plin
