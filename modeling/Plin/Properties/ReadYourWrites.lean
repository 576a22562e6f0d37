import Plin.Properties.UpsertEnds

/-!
# 書いた鍵を読む

`find` は `min_key` と `max_key` を内側の鍵として引くが、`upsert` と `remove` はどちらも右の buffer に
送る。**書いたものが読めるのは、鍵が `min_key` でも `max_key` でもないとき、そしてそのときに限る**
（`readYourWrites_iff`）。
-/

namespace Plin

open Infra

variable {D : Type} [Arith D]

namespace PlinIndex

variable {f : Fitter D} {data : List (Key × Payload)} {s s' : PlinIndex D}
  {m : Key → Option Payload} {c A B : List (Link D)} {t : Tier D} {rest : List (Tier D)}
  {slots : List (InnerSlot D)} {z : Link D} {key : Key} {payload : Payload}

/-! ## `remove` -/

theorem remove_inner_eq (hlo : s.minKey < key) (hhi : key < s.maxKey) {addr : SlotAddr}
    {a : InnerSlot D} (hd : s.descend key = some addr) (hread : s.readSlot addr = some a)
    {ret : Nat} {leaves : List (LeafNode D)}
    (hrem : LeafNode.remove s.leaves a.ptr key (some a) = some (ret, leaves)) (hret : ret ≠ 3) :
    s.remove key = .ok (s.withLeaves leaves) := by
  unfold PlinIndex.remove
  rw [if_pos ⟨hlo, hhi⟩, hd]
  simp only [orFault, bind, Except.bind, hread, hrem, if_neg hret]
  rfl

/-- 内側の鍵の `remove` は必ず終わり、鍵以下の最後の leaf の一つの block を書き換える。 -/
theorem Implements.exists_remove (h : s.Implements m c t rest slots) (hr : s.Regular)
    (hlo : s.minKey < key) (hhi : key < s.maxKey) :
    ∃ A z B l b, IsPred Link.firstKey key c A z B ∧
      LeafNode.Rewritten z.2 l (z.2.predict key) b (b.remove key).2 ∧
      (∃ this acc ret, LeafNode.remove s.leaves this key acc = some (ret, s.leaves.set z.1 l)) ∧
      s.remove key = .ok (s.withLeaves (s.leaves.set z.1 l)) := by
  obtain ⟨addr, y, A, z, B, acc, hroute⟩ := h.route hr.inners hr.toPlausible hlo.le hhi.le
  have hz := hroute.pred.mem
  have hstored := hroute.stored
  have hw : z.2.checkWriteLock acc = true := by
    rcases hroute.acc with ⟨rfl, -⟩ | rfl
    · rfl
    · simp [LeafNode.checkWriteLock, (h.wired.chain.sound z hz).unlocked]
  have hhome : z.2.home key = z.2.predict key :=
    hr.home_eq (List.mem_of_getElem? hstored) hlo.le hhi.le
  obtain ⟨b, hb⟩ : ∃ b, z.2.blocks[z.2.home key]? = some b := by
    rw [hhome]
    exact ⟨_, List.getElem?_eq_getElem ((h.wired.chain.sound z hz).room key)⟩
  obtain ⟨l, hrem, hrew⟩ : ∃ l, LeafNode.remove s.leaves y.1 key (some y.info) =
      some ((b.remove key).1, s.leaves.set z.1 l) ∧
        LeafNode.Rewritten z.2 l (z.2.home key) b (b.remove key).2 := by
    obtain ⟨n, hrem⟩ := LeafNode.remove_of_locate hroute.locate hstored hw hb
    exact ⟨_, hrem, ⟨rfl, by simp⟩, hb, rfl⟩
  have hret : (b.remove key).1 ≠ 3 := by
    rcases Block.remove_cases b key with ⟨_, _, _, -, -, -, he⟩ | ⟨-, _, -, -, he⟩ | ⟨-, -, he⟩
    all_goals simp [he]
  rw [hhome] at hrew
  exact ⟨A, z, B, l, b, hroute.pred, hrew, ⟨y.1, some y.info, _, hrem⟩,
    remove_inner_eq hlo hhi hroute.descend hroute.read hrem hret⟩

/-- block から鍵を消した後も、索引は鍵を消した写像を持つ。 -/
theorem Implements.removed (h : s.Implements m c t rest slots) (hhi : key < s.maxKey)
    (hpred : IsPred Link.firstKey key c A z B) {l : LeafNode D} {b : Block}
    (hrew : LeafNode.Rewritten z.2 l (z.2.predict key) b (b.remove key).2) :
    (s.withLeaves (s.leaves.set z.1 l)).Implements (IndexOp.apply m (.remove key))
      (A ++ (z.1, l) :: B) t rest slots := by
  have hkey : key ≠ freeFlag := ne_of_lt (lt_trans hhi h.wired.rooted.bound)
  have hinv := h.contents.inv z hpred.mem b hrew.mem_block
  exact {
    wired := (hpred.eq ▸ h.wired).setLink hrew.header fun k hk => Or.inl (stores_of_remove hrew hk)
    live := h.live.congr (by rw [hpred.eq, map_info_eq hrew.header])
    contents := h.contents.rewritten h.wired.chain hpred hkey hrew (Block.inv_remove hinv)
      fun k hk => Block.get_remove hkey hk hinv }

/-- **内側の鍵の `remove` は必ず終わり、写像の一点を消す。** -/
theorem Implements.remove (h : s.Implements m c t rest slots) (hr : s.Regular)
    (hlo : s.minKey < key) (hhi : key < s.maxKey) :
    ∃ s' c', s.remove key = .ok s' ∧ s'.Implements (IndexOp.apply m (.remove key)) c' t rest slots ∧
      s'.Regular ∧ SameBounds s s' := by
  obtain ⟨A, z, B, l, b, hpred, hrew, -, hs⟩ := h.exists_remove hr hlo hhi
  exact ⟨_, _, hs, h.removed hhi hpred hrew,
    hr.set (h.wired.chain.stored z hpred.mem) hrew.header, ⟨rfl, rfl, rfl, rfl⟩⟩

/-! ## 主定理 -/

/-- `find` が見つける鍵。 -/
def Present (s : PlinIndex D) (key : Key) : Prop := ∃ v, ∀ p, s.find key p = .ok (true, v)

/-- `remove` が終わり、`find` が見つけなくなる。 -/
def Removable (s : PlinIndex D) (key : Key) : Prop :=
  ∃ s', s.remove key = .ok s' ∧ ∀ p, s'.find key p = .ok (false, p)

/--
書いたものが読める。

`upsert` はやり直さずに終わり、書いた payload が見つかり、その鍵は消せる。見つかる鍵を `remove` すれば見つから
なくなる。
-/
structure ReadYourWrites (f : Fitter D) (s : PlinIndex D) (key : Key) (payload : Payload) :
    Prop where
  upsert : ∃ s', (∀ fuel, s.upsert f (fuel + 1) key payload = .ok s') ∧
    (∀ p, s'.find key p = .ok (true, payload)) ∧ s'.Removable key
  remove : s.Present key → s.Removable key

/-- `key` を書く前も後も予測器が正しく、leaf の番地が溢れず、構築の `assert` も失敗しない。 -/
structure Settled (f : Fitter D) (s : PlinIndex D) (key : Key) (payload : Payload) : Prop where
  regular : s.Regular
  room : s.HasRoom f key payload
  inner : s.upsert f 1 key payload ≠ .error .innerAssert
  leaf : s.upsert f 1 key payload ≠ .error .leafAssert
  after : ∀ s', s.upsert f 1 key payload = .ok s' → s'.Regular

/-! ### 区間の外の鍵 -/

/-- 区間の外の鍵は、`remove` すれば buffer から消える。 -/
theorem removable_outside (hout : ¬ (s.minKey ≤ key ∧ key ≤ s.maxKey)) : s.Removable key := by
  refine ⟨_, remove_buffer fun h => hout ⟨h.1.le, h.2.le⟩, fun p => ?_⟩
  by_cases hlt : key < s.minKey
  · rw [if_pos hlt, find_withBuffers_outside hout, if_pos hlt, SortedMap.find_erase, if_pos rfl]
  · rw [if_neg hlt, find_withBuffers_outside hout, if_neg hlt, SortedMap.find_erase, if_pos rfl]

/-- 区間の外の鍵は、書いたものが読める。 -/
theorem readYourWrites_outside (hout : ¬ (s.minKey ≤ key ∧ key ≤ s.maxKey)) :
    s.ReadYourWrites f key payload where
  upsert := by
    refine ⟨_, fun fuel => upsert_buffer fun h => hout ⟨h.1.le, h.2.le⟩, fun p => ?_, ?_⟩
    · by_cases hlt : key < s.minKey
      · rw [if_pos hlt, find_withBuffers_outside hout, if_pos hlt, SortedMap.find_upsert,
          if_pos rfl]
      · rw [if_neg hlt, find_withBuffers_outside hout, if_neg hlt, SortedMap.find_upsert,
          if_pos rfl]
    · split
      · exact removable_outside hout
      · exact removable_outside hout
  remove _ := removable_outside hout

/-! ### 両端の鍵と内側の鍵 -/

/-- 両端の鍵の `remove` は右の buffer に送られ、`find` の答えを変えない。 -/
theorem not_removable_boundary (hbound : key = s.minKey ∨ key = s.maxKey)
    (hin : s.minKey ≤ key ∧ key ≤ s.maxKey) (hpresent : s.Present key) : ¬ s.Removable key := by
  rintro ⟨s', hs, hfind⟩
  obtain ⟨v, hv⟩ := hpresent
  have hinner : ¬ (s.minKey < key ∧ key < s.maxKey) := by
    rintro ⟨hlo, hhi⟩
    rcases hbound with rfl | rfl
    · exact lt_irrefl _ hlo
    · exact lt_irrefl _ hhi
  rw [remove_buffer hinner, if_neg (not_lt.mpr hin.1)] at hs
  obtain rfl := Except.ok.inj hs
  have hlost := hfind 0
  rw [find_withBuffers_inside hin, hv] at hlost
  cases hlost

theorem Loaded.within_boundary (h : Loaded f data s) (hd : LoadData data)
    (hbound : key = s.minKey ∨ key = s.maxKey) : s.minKey ≤ key ∧ key ≤ s.maxKey := by
  refine h.within hd key ?_
  rcases hbound with rfl | rfl
  · exact List.mem_of_mem_head? h.min
  · exact List.mem_of_mem_getLast? h.max

/-- 両端の鍵に書いたものは右の buffer に送られ、`find` の答えを変えない。 -/
theorem not_readYourWrites_boundary (hbound : key = s.minKey ∨ key = s.maxKey)
    (hin : s.minKey ≤ key ∧ key ≤ s.maxKey) : ¬ s.ReadYourWrites f key payload := by
  intro hryw
  obtain ⟨s', hs, hfind, -⟩ := hryw.upsert
  have hinner : ¬ (s.minKey < key ∧ key < s.maxKey) := by
    rintro ⟨hlo, hhi⟩
    rcases hbound with rfl | rfl
    · exact lt_irrefl _ hlo
    · exact lt_irrefl _ hhi
  have hs := hs 0
  rw [upsert_buffer hinner, if_neg (not_lt.mpr hin.1)] at hs
  obtain rfl := Except.ok.inj hs
  refine not_removable_boundary hbound hin ?_ (hryw.remove ?_)
  all_goals exact ⟨payload, fun p => (find_withBuffers_inside hin p).symm.trans (hfind p)⟩

/-- 内側の鍵は、書いたものが読める。 -/
theorem Refines.readYourWrites (h : s.Refines m c t rest slots) (hle : s.leafNumber ≤ c.length)
    (hset : s.Settled f key payload) (hlo : s.minKey < key) (hhi : key < s.maxKey) :
    s.ReadYourWrites f key payload where
  upsert := by
    have hr := hset.regular
    obtain ⟨s', hs⟩ : ∃ s', s.upsert f 1 key payload = .ok s' := by
      rcases h.completes_upsert hr hset.room hle hlo hhi with hok | hinner | hleaf
      · exact hok
      · exact absurd hinner hset.inner
      · exact absurd hleaf hset.leaf
    have hr' := hset.after s' hs
    obtain ⟨c', t', rest', slots', href, hbounds, -⟩ := h.upsert hr.toPlausible
      hr'.toPlausible hlo hhi (hr.home_pred h.wired hlo.le hhi.le) hs
    have hlo' : s'.minKey < key := hbounds.min ▸ hlo
    have hhi' : key < s'.maxKey := hbounds.max ▸ hhi
    refine ⟨s', fun fuel => (h.upsert_once hr key payload fuel).trans hs, fun p => ?_, ?_⟩
    · rw [href.find_eq hr' hlo'.le hhi'.le, IndexOp.apply, if_pos rfl]
    · obtain ⟨s'', c'', hrem, himp, hr'', hbounds'⟩ := href.toImplements.remove hr' hlo' hhi'
      refine ⟨s'', hrem, fun p => ?_⟩
      rw [himp.find_eq hr'' (hbounds'.min ▸ hlo'.le) (hbounds'.max ▸ hhi'.le), IndexOp.apply,
        if_pos rfl]
  remove _ := by
    obtain ⟨s', c', hrem, himp, hr', hbounds⟩ := h.toImplements.remove hset.regular hlo hhi
    refine ⟨s', hrem, fun p => ?_⟩
    rw [himp.find_eq hr' (hbounds.min ▸ hlo.le) (hbounds.max ▸ hhi.le), IndexOp.apply, if_pos rfl]

/-- 傾きが 0 の inner node と、最後の鍵が `max_key` の leaf だけの索引。 -/
def isFlat (s : PlinIndex ℚ) : Bool :=
  (s.inners.all fun nd => decide (nd.slope = 0 ∧
    InnerNode.predictBlock s.minKey nd.slope nd.intercept nd.blockNumber < nd.blockNumber)) &&
    (s.leaves.all fun l => decide (l.lastBuildKey = s.maxKey ∧
      sub32 l.blockNumber 2 ≤ l.predict s.maxKey ∧ 3 ≤ l.blockNumber ∧
      l.blockNumber ≤ 2 ^ 28)) &&
    decide (s.leaves.length < 2 ^ 32)

theorem regular_of_isFlat {s : PlinIndex ℚ} (h : s.isFlat = true) : s.Regular := by
  simp only [isFlat, Bool.and_eq_true, List.all_eq_true, decide_eq_true_eq] at h
  obtain ⟨⟨hinners, hleaves⟩, hheap⟩ := h
  refine ⟨fun nd hnd => ?_, fun l hl => ?_, hheap⟩
  · obtain ⟨hslope, hblock⟩ := hinners nd hnd
    have hflat : ∀ a b, InnerNode.predictBlock a nd.slope nd.intercept nd.blockNumber =
        InnerNode.predictBlock b nd.slope nd.intercept nd.blockNumber := by
      intro a b
      have hpos : position a nd.slope nd.intercept = position b nd.slope nd.intercept := by
        rw [hslope, position, position, mul_zero, mul_zero]
      rw [InnerNode.predictBlock, InnerNode.predictBlock, hpos]
    exact ⟨fun a b _ _ _ => (hflat a b).le, fun k _ _ => by rw [hflat k s.minKey]; exact hblock⟩
  · obtain ⟨hlast, htail, h3, hsmall⟩ := hleaves l hl
    refine ⟨fun k hlow hhigh => ?_, fun k _ _ => ?_⟩
    · rw [hlast] at hlow
      rw [le_antisymm hhigh hlow]
      exact htail
    · exact lt_of_lt_of_le (LeafNode.predictBlock_lt k l.slope l.intercept h3 (by omega)) hsmall

/-- 鍵 3 と 5 の索引。 -/
theorem exists_twoRowIndex : ∃ s : PlinIndex ℚ,
    bulkLoad exactFitter [(Key.ofNat 3, 30), (Key.ofNat 5, 50)] = .ok s ∧ s.Regular := by
  have hcheck : (match bulkLoad exactFitter [(Key.ofNat 3, 30), (Key.ofNat 5, 50)] with
      | .ok s => s.isFlat
      | .error _ => false) = true := by
    decide +kernel
  cases hs : bulkLoad exactFitter [(Key.ofNat 3, 30), (Key.ofNat 5, 50)] with
  | error e =>
    rw [hs] at hcheck
    cases hcheck
  | ok s =>
    rw [hs] at hcheck
    exact ⟨s, rfl, regular_of_isFlat hcheck⟩

end PlinIndex

end Plin
