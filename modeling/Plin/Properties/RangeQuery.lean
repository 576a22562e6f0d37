import Plin.Properties.LeafScan
import Plin.Properties.SplitIndex

/-!
# 範囲の読み出しは正確か

`range_query` は、左右の buffer の組と、`[min_key, max_key]` に縮めた区間の走査の組を足す
（`PlinIndex.Implements.rangeQuery_eq`）。どの鍵も高々一度だけ足される。

`find` と食い違うのは二つの場合だけである。`find` の `uint32_t slot` は `2 ^ 28` 番目から先の block で折り返すが、
走査の `uint64_t slot` は折り返さない（`Unread`）。buffer と overflow tree の payload 0 は走査だけが読み飛ばす
（`Lost`）。**区間のどの鍵でも二つが一致するとき、またそのときに限り、読み出しは正確である**
（`rangeQuery_exact_iff`）。
-/

namespace Plin

open Infra

variable {D : Type} [Arith D]

namespace PlinIndex

variable {f : Fitter D} {data : List (Key × Payload)} {ops : List IndexOp} {s s' : PlinIndex D}
  {m : Key → Option Payload} {c A B : List (Link D)} {t : Tier D} {rest : List (Tier D)}
  {slots : List (InnerSlot D)} {y z : Link D} {lower upper key : Key} {payload : Payload}

/-! ## 索引の読み出し -/

/-- 予測器についての仮定。block の番号が `uint32_t slot` で折り返さないことは仮定しない。 -/
structure Traversable (s : PlinIndex D) : Prop extends s.Plausible where
  regular : s.InnersRegular
  scan : ∀ l ∈ s.leaves, l.Scannable s.minKey s.maxKey

theorem Traversable.link (h : s.Traversable) (hw : s.Wired c t rest slots) :
    ∀ x ∈ c, x.2.Scannable s.minKey s.maxKey :=
  fun x hx => h.scan x.2 (List.mem_of_getElem? (hw.chain.stored x hx))

/-- 着いた leaf から走査すれば、連鎖の区間の組が全て集まる。 -/
theorem Implements.scan_eq (h : s.Implements m c t rest slots) (hr : s.Traversable)
    (hsized : ∀ x ∈ c, x.2.Sized) (hlo : s.minKey ≤ lower) (hupper : upper < freeFlag)
    {addr : SlotAddr} {acc : Option (InnerSlot D)} (hroute : s.Routed c lower addr y A z B acc)
    (answers : List (Key × Payload)) :
    LeafNode.rangeQuery s.leaves y.1 lower upper answers (some y.info) =
      some (answers ++ c.flatMap fun x => x.2.rangeRows lower upper) := by
  have hchain := h.wired.chain
  have hz := hroute.pred.mem
  have hblocks : z.2.blocksVia acc = z.2.blockNumber := by
    rcases hroute.acc with ⟨rfl, rfl⟩ | rfl
    · exact Nat.mod_eq_of_lt (hchain.sound y hz).small
    · rfl
  have hfuel : B.length < s.leaves.length + 1 := by
    have hlen := Chain.length_le hchain.stored hchain.nodup
    rw [hroute.pred.eq, List.length_append, List.length_cons] at hlen
    omega
  have hseek : LeafNode.seek s.leaves lower (s.leaves.length + 1) y.1 (some y.info) =
      some (z.1, z.2.predict lower, z.2.blockNumber) := by
    rw [LeafNode.seek_of_locate _ hroute.locate, LeafNode.scanFrom, hroute.stored, Option.map_some,
      hblocks]
  rw [LeafNode.rangeQuery, hseek, Option.bind_eq_bind, Option.bind_some]
  exact h.contents.scanLeaves_eq hchain (hr.link h.wired) hsized hupper hlo hroute.pred hfuel
    answers

/-- 左の buffer の鍵は `min_key` より小さく、右の buffer の鍵は `max_key` より大きい。 -/
structure Apart (s : PlinIndex D) : Prop where
  left : ∀ k, s.leftBuffer.find k ≠ none → k < s.minKey
  right : ∀ k, s.rightBuffer.find k ≠ none → s.maxKey < k

/-- 読み出される組。左右の buffer、連鎖の順に並ぶ。 -/
def rowsOf (s : PlinIndex D) (c : List (Link D)) (lower upper : Key) : List (Key × Payload) :=
  treeRange lower upper s.leftBuffer ++ treeRange lower upper s.rightBuffer ++
    c.flatMap fun x => x.2.rangeRows lower upper

/-- **区間を縮めても、buffer と連鎖の区間の組を全て読み出す。** -/
theorem Implements.rangeQuery_eq (h : s.Implements m c t rest slots) (hr : s.Traversable)
    (hsized : ∀ x ∈ c, x.2.Sized) (hapart : s.Apart) (hupper : upper < freeFlag)
    (answers : List (Key × Payload)) :
    s.rangeQuery lower upper answers = .ok (answers ++ s.rowsOf c lower upper) := by
  have hsound := h.wired.chain.sound
  have hleft : (if lower < s.minKey then
      (s.minKey, answers ++ treeRange lower upper s.leftBuffer) else (lower, answers)) =
      (max lower s.minKey, answers ++ treeRange lower upper s.leftBuffer) := by
    by_cases hlower : lower < s.minKey
    · rw [if_pos hlower, max_eq_right hlower.le]
    · have hnil : treeRange lower upper s.leftBuffer = [] :=
        treeRange_eq_nil fun k hk hin => hlower (lt_of_le_of_lt hin.1 (hapart.left k hk))
      rw [if_neg hlower, max_eq_left (not_lt.mp hlower), hnil, List.append_nil]
  have hright (l : List (Key × Payload)) : (if s.maxKey < upper then
      (s.maxKey, l ++ treeRange (max lower s.minKey) upper s.rightBuffer) else (upper, l)) =
      (min upper s.maxKey, l ++ treeRange lower upper s.rightBuffer) := by
    by_cases hup : s.maxKey < upper
    · have hsame : treeRange (max lower s.minKey) upper s.rightBuffer =
          treeRange lower upper s.rightBuffer := by
        refine treeRange_congr fun k hk => ?_
        have hk := le_trans h.wired.rooted.min_le_max (hapart.right k hk).le
        exact ⟨fun hin => ⟨le_trans (le_max_left _ _) hin.1, hin.2⟩,
          fun hin => ⟨max_le hin.1 hk, hin.2⟩⟩
      rw [if_pos hup, min_eq_right hup.le, hsame]
    · have hnil : treeRange lower upper s.rightBuffer = [] :=
        treeRange_eq_nil fun k hk hin => hup (lt_of_lt_of_le (hapart.right k hk) hin.2)
      rw [if_neg hup, min_eq_left (not_lt.mp hup), hnil, List.append_nil]
  have hupper' : min upper s.maxKey < freeFlag := lt_of_le_of_lt (min_le_left _ _) hupper
  have hclip {x : Link D} (hx : x ∈ c) {k : Key} (hk : x.2.Stores k) :
      InRange lower upper k ↔ InRange (max lower s.minKey) (min upper s.maxKey) k := by
    have hkeys := (hsound x hx).keys k hk
    have hlow := le_trans (hsound x hx).first.1 hkeys.1
    exact ⟨fun hin => ⟨max_le hin.1 hlow, le_min hin.2 hkeys.2⟩,
      fun hin => ⟨le_trans (le_max_left _ _) hin.1, le_trans hin.2 (min_le_left _ _)⟩⟩
  rw [rangeQuery, hleft]
  dsimp only
  rw [hright]
  dsimp only
  rw [rowsOf]
  split
  · next hguard =>
    obtain ⟨addr, y, A, z, B, acc, hroute⟩ := h.route hr.regular hr.toPlausible
      (le_max_right _ _) hguard.2
    have hrows : (c.flatMap fun x => x.2.rangeRows lower upper) =
        c.flatMap fun x => x.2.rangeRows (max lower s.minKey) (min upper s.maxKey) :=
      List.flatMap_congr fun x hx =>
        LeafNode.rangeRows_congr hupper hupper' fun k hk => hclip hx hk
    have hscan := h.scan_eq hr hsized (le_max_right _ _) hupper' hroute
      (answers ++ treeRange lower upper s.leftBuffer ++ treeRange lower upper s.rightBuffer)
    rw [hroute.descend]
    simp only [orFault, bind, Except.bind, hroute.read, show y.info.ptr = y.1 from rfl, hscan]
    rw [hrows, List.append_assoc, List.append_assoc, List.append_assoc]
  · next hguard =>
    -- 区間が索引と重ならないので、連鎖に区間の鍵は無い
    have hnil : (c.flatMap fun x => x.2.rangeRows lower upper) = [] := by
      rw [List.flatMap_eq_nil_iff]
      intro x hx
      refine LeafNode.rangeRows_eq_nil hupper fun k hk hin => hguard ?_
      have hkeys := (hsound x hx).keys k hk
      have hlow := le_trans (hsound x hx).first.1 hkeys.1
      obtain ⟨hfrom, hto⟩ := (hclip hx hk).mp hin
      exact ⟨le_trans hlow hto, le_trans hfrom hkeys.2⟩
    rw [hnil, List.append_nil, List.append_assoc]
    rfl

/-! ## 見つかる組 -/

/-- `find` の引く写像。 -/
def visible (s : PlinIndex D) (m : Key → Option Payload) (k : Key) : Option Payload :=
  (s.leftBuffer.find k).or ((s.rightBuffer.find k).or (m k))

/-- 鍵 `k` の payload 0 が、buffer か、連鎖の leaf の overflow tree にある。 -/
def Lost (s : PlinIndex D) (k : Key) : Prop :=
  s.leftBuffer.find k = some 0 ∨ s.rightBuffer.find k = some 0 ∨
    ∃ r ∈ s.localTable, ∃ l, s.leaves[r.addr]? = some l ∧ ∃ b ∈ l.blocks, b.treeGet k = some 0

theorem Wired.lost_iff (h : s.Wired c t rest slots) (k : Key) :
    s.Lost k ↔ s.leftBuffer.find k = some 0 ∨ s.rightBuffer.find k = some 0 ∨ Hidden c k := by
  rw [Lost, h.table]
  refine or_congr_right (or_congr_right ?_)
  constructor
  · rintro ⟨r, hr, l, hl, hb⟩
    obtain ⟨x, hx, rfl⟩ := List.mem_map.mp hr
    obtain rfl := Option.some.inj ((h.chain.stored x hx).symm.trans hl)
    exact ⟨x, hx, hb⟩
  · rintro ⟨x, hx, hb⟩
    exact ⟨record x, List.mem_map_of_mem hx, x.2, h.chain.stored x hx, hb⟩

/-- 右の buffer の鍵は、左の buffer には無い。 -/
theorem Implements.visible_of_right (h : s.Implements m c t rest slots) (hapart : s.Apart) {k : Key}
    {v : Payload} (hv : s.rightBuffer.find k = some v) : s.visible m k = some v := by
  have hnone : s.leftBuffer.find k = none := by
    by_contra hfind
    have hlt := lt_of_lt_of_le (hapart.left k hfind) h.wired.rooted.min_le_max
    exact lt_asymm hlt (hapart.right k (by simp [hv]))
  rw [visible, hnone, hv, Option.none_or, Option.some_or]

/-- 索引の内側の鍵は、どちらの buffer にも無い。 -/
theorem Implements.not_buffered (h : s.Implements m c t rest slots) (hapart : s.Apart) {k : Key}
    (hm : m k ≠ none) : s.leftBuffer.find k = none ∧ s.rightBuffer.find k = none := by
  obtain ⟨hlo, hhi⟩ := h.within hm
  constructor
  · exact by_contra fun hfind => not_lt.mpr hlo (hapart.left k hfind)
  · exact by_contra fun hfind => not_lt.mpr hhi (hapart.right k hfind)

theorem Implements.visible_of_map (h : s.Implements m c t rest slots) (hapart : s.Apart) {k : Key}
    {v : Payload} (hm : m k = some v) : s.visible m k = some v := by
  obtain ⟨hleft, hright⟩ := h.not_buffered hapart (k := k) (by simp [hm])
  rw [visible, hleft, hright, hm, Option.none_or, Option.none_or]

/--
鍵 `k` は、連鎖の leaf の `2 ^ 28` 番目から先の block にある。`find` の `uint32_t slot` は折り返して、別の
block を指す。
-/
def Unread (s : PlinIndex D) (k : Key) : Prop :=
  ∃ r ∈ s.localTable, ∃ l, s.leaves[r.addr]? = some l ∧ l.Stores k ∧ 2 ^ 28 ≤ l.predict k

theorem Wired.unread_iff (h : s.Wired c t rest slots) (k : Key) :
    s.Unread k ↔ ∃ x ∈ c, x.2.Stores k ∧ 2 ^ 28 ≤ x.2.predict k := by
  rw [Unread, h.table]
  constructor
  · rintro ⟨r, hr, l, hl, hk⟩
    obtain ⟨x, hx, rfl⟩ := List.mem_map.mp hr
    obtain rfl := Option.some.inj ((h.chain.stored x hx).symm.trans hl)
    exact ⟨x, hx, hk⟩
  · rintro ⟨x, hx, hk⟩
    exact ⟨record x, List.mem_map_of_mem hx, x.2, h.chain.stored x hx, hk⟩

/-- 内側の鍵の `find` は、折り返した block の鍵の他は、写像を引く。 -/
theorem Implements.find_interior (h : s.Implements m c t rest slots) (hr : s.Traversable)
    (hlo : s.minKey ≤ key) (hhi : key ≤ s.maxKey) (v : Payload) :
    (∀ payload, s.find key payload = .ok (true, v)) ↔ m key = some v ∧ ¬ s.Unread key := by
  have hkey : key ≠ freeFlag := ne_of_lt (lt_of_le_of_lt hhi h.wired.rooted.bound)
  obtain ⟨A, z, B, b, hpred, hb, hfind⟩ := h.find_block hr.regular hr.toPlausible hlo hhi
  have hbm := List.mem_of_getElem? hb
  -- 読む block にある鍵は、折り返していない
  have hread (hget : b.get key ≠ none) : ¬ s.Unread key := by
    rw [h.wired.unread_iff]
    rintro ⟨x, hx, hstores, hwrap⟩
    obtain rfl := h.wired.chain.eq_of_stores hpred hx hstores
    have hhome := h.contents.home x hx _ b key hb hkey hget
    exact not_le_of_gt
      ((LeafNode.slotBlock_eq_iff (LeafNode.predictBlock_lt_two_pow ..)).mp hhome) hwrap
  have hget : b.get key = some v ↔ m key = some v ∧ ¬ s.Unread key := by
    constructor
    · intro hv
      exact ⟨h.contents.sound z hpred.mem b hbm key v hkey hv, hread (by simp [hv])⟩
    · rintro ⟨hv, hunread⟩
      obtain ⟨-, x, hx, u, hu, hget⟩ := h.contents.complete key v hv
      have hstores : x.2.Stores key := ⟨hkey, u, hu, by simp [hget]⟩
      obtain rfl := h.wired.chain.eq_of_stores hpred hx hstores
      have hlt : x.2.predict key < 2 ^ 28 :=
        not_le.mp fun hwrap => hunread ((h.wired.unread_iff key).mpr ⟨x, hx, hstores, hwrap⟩)
      have hhome : x.2.home key = x.2.predict key :=
        (LeafNode.slotBlock_eq_iff (LeafNode.predictBlock_lt_two_pow ..)).mpr hlt
      rw [hhome] at hb
      rw [h.wired.chain.get_eq h.contents hpred hkey hb, hv]
  rw [← hget]
  constructor
  · intro hfound
    have hzero := (hfind 0).symm.trans (hfound 0)
    cases hv : b.get key with
    | none =>
      rw [hv] at hzero
      cases hzero
    | some w =>
      rw [hv] at hzero
      cases hzero
      rfl
  · intro hv payload
    rw [hfind, hv]

/-- **`find` で見つかるのは、buffer と写像の組のうち、折り返した block に無いものである。** -/
theorem Implements.found_iff (h : s.Implements m c t rest slots) (hr : s.Traversable)
    (hapart : s.Apart) {k : Key} {v : Payload} :
    (∀ payload, s.find k payload = .ok (true, v)) ↔ s.visible m k = some v ∧ ¬ s.Unread k := by
  have hleft : ¬ k < s.minKey → s.leftBuffer.find k = none :=
    fun hk => by_contra fun hfind => hk (hapart.left k hfind)
  have hright : ¬ s.maxKey < k → s.rightBuffer.find k = none :=
    fun hk => by_contra fun hfind => hk (hapart.right k hfind)
  by_cases hin : s.minKey ≤ k ∧ k ≤ s.maxKey
  · rw [h.find_interior hr hin.1 hin.2, visible, hleft (not_lt.mpr hin.1),
      hright (not_lt.mpr hin.2), Option.none_or, Option.none_or]
  · have hnone : m k = none := by_contra fun hm => hin (h.within hm)
    have hread : ¬ s.Unread k := by
      rw [h.wired.unread_iff]
      rintro ⟨x, hx, hstores, -⟩
      have hsound := h.wired.chain.sound x hx
      have hkeys := hsound.keys k hstores
      exact hin ⟨le_trans hsound.first.1 hkeys.1, hkeys.2⟩
    have hbuffer : (if k < s.minKey then s.leftBuffer.find k else s.rightBuffer.find k) =
        s.visible m k := by
      rw [visible, hnone, Option.or_none]
      by_cases hk : k < s.minKey
      · have hmax : ¬ s.maxKey < k := not_lt.mpr (le_trans hk.le h.wired.rooted.min_le_max)
        rw [if_pos hk, hright hmax, Option.or_none]
      · rw [if_neg hk, hleft hk, Option.none_or]
    have hfind := find_outside s hin 0
    rw [hbuffer] at hfind
    constructor
    · intro hfound
      refine ⟨?_, hread⟩
      rw [hfound 0] at hfind
      cases hvis : s.visible m k with
      | none =>
        rw [hvis] at hfind
        cases hfind
      | some w =>
        rw [hvis] at hfind
        cases hfind
        rfl
    · rintro ⟨hvis, -⟩ payload
      rw [find_outside s hin payload, hbuffer, hvis]

/-- 連鎖の overflow tree の payload 0 も、写像にある。 -/
theorem Contents.zero_of_hidden {k : Key} (hm : Contents c m) (hk : k ≠ freeFlag) (h : Hidden c k) :
    m k = some 0 := by
  obtain ⟨x, hx, b, hb, htree⟩ := h
  have hslot : slotGet b.slots k = none := by
    by_contra hslot
    rw [(hm.inv x hx b hb).disjoint k hk hslot] at htree
    cases htree
  exact hm.sound x hx b hb k 0 hk (by rw [Block.get, hslot, Option.none_or, htree])

/-- 読み出されない組は、payload 0 として見える。 -/
theorem Implements.visible_of_lost (h : s.Implements m c t rest slots) (hapart : s.Apart) {k : Key}
    (hk : k ≠ freeFlag) (hlost : s.Lost k) : s.visible m k = some 0 := by
  rcases (h.wired.lost_iff k).mp hlost with hzero | hzero | hzero
  · rw [visible, hzero, Option.some_or]
  · exact h.visible_of_right hapart hzero
  · exact h.visible_of_map hapart (Contents.zero_of_hidden h.contents hk hzero)

theorem Implements.visible_of_unread (h : s.Implements m c t rest slots) (hapart : s.Apart)
    {k : Key}
    (hunread : s.Unread k) : ∃ v, s.visible m k = some v := by
  obtain ⟨x, hx, ⟨hk, b, hb, hget⟩, -⟩ := (h.wired.unread_iff k).mp hunread
  obtain ⟨v, hv⟩ := Option.ne_none_iff_exists'.mp hget
  exact ⟨v, h.visible_of_map hapart (h.contents.sound x hx b hb k v hk hv)⟩

/-- **読み出されるのは、見つかる組のうち、区間にあって payload 0 で隠されていないものである。** -/
theorem Implements.mem_rowsOf (h : s.Implements m c t rest slots) (hr : s.Traversable)
    (hapart : s.Apart) (hupper : upper < freeFlag) {k : Key} {v : Payload} :
    (k, v) ∈ s.rowsOf c lower upper ↔
      InRange lower upper k ∧ s.visible m k = some v ∧ ¬ s.Lost k := by
  have hzero (hin : InRange lower upper k) (hvis : s.visible m k = some v) (hv : v ≠ 0) :
      ¬ s.Lost k := by
    intro hlost
    have hk : k ≠ freeFlag := ne_of_lt (lt_of_le_of_lt hin.2 hupper)
    rw [h.visible_of_lost hapart hk hlost] at hvis
    exact hv (Option.some.inj hvis).symm
  rw [rowsOf, List.mem_append, List.mem_append, mem_treeRange, mem_treeRange,
    h.contents.mem_rangeRows h.wired.chain (hr.link h.wired) hupper]
  constructor
  · rintro ((⟨hin, hfind, hv⟩ | ⟨hin, hfind, hv⟩) | ⟨hin, hm, hhidden⟩)
    · have hvis : s.visible m k = some v := by rw [visible, hfind, Option.some_or]
      exact ⟨hin, hvis, hzero hin hvis hv⟩
    · have hvis := h.visible_of_right hapart hfind
      exact ⟨hin, hvis, hzero hin hvis hv⟩
    · obtain ⟨hleft, hright⟩ := h.not_buffered hapart (k := k) (by simp [hm])
      refine ⟨hin, h.visible_of_map hapart hm, ?_⟩
      rw [h.wired.lost_iff, hleft, hright]
      rintro (hbad | hbad | hbad)
      · cases hbad
      · cases hbad
      · exact hhidden hbad
  · rintro ⟨hin, hvis, hlost⟩
    rw [h.wired.lost_iff, not_or, not_or] at hlost
    rcases Option.or_eq_some_iff.mp hvis with hfind | ⟨-, hvis⟩
    · refine Or.inl (Or.inl ⟨hin, hfind, ?_⟩)
      rintro rfl
      exact hlost.1 hfind
    · rcases Option.or_eq_some_iff.mp hvis with hfind | ⟨-, hm⟩
      · refine Or.inl (Or.inr ⟨hin, hfind, ?_⟩)
        rintro rfl
        exact hlost.2.1 hfind
      · exact Or.inr ⟨hin, hm, hlost.2.2⟩

/-- どの鍵も高々一度だけ読み出される。 -/
theorem Implements.nodup_rowsOf (h : s.Implements m c t rest slots) (hapart : s.Apart)
    (hupper : upper < freeFlag) :
    (s.rowsOf c lower upper).Pairwise fun a b => a.1 ≠ b.1 := by
  have hleft {e : Key × Payload} (he : e ∈ treeRange lower upper s.leftBuffer) :
      e.1 < s.minKey :=
    hapart.left e.1 (by simp [(mem_treeRange.mp he).2.1])
  have hright {e : Key × Payload} (he : e ∈ treeRange lower upper s.rightBuffer) :
      s.maxKey < e.1 :=
    hapart.right e.1 (by simp [(mem_treeRange.mp he).2.1])
  rw [rowsOf, List.pairwise_append, List.pairwise_append]
  refine ⟨⟨nodup_treeRange, nodup_treeRange, fun a ha b hb => ?_⟩,
    h.contents.nodup_rangeRows h.wired.chain hupper, fun a ha b hb => ?_⟩
  · exact ne_of_lt (lt_trans (lt_of_lt_of_le (hleft ha) h.wired.rooted.min_le_max) (hright hb))
  · obtain ⟨x, hx, hmem⟩ := List.mem_flatMap.mp hb
    have hsound := h.wired.chain.sound x hx
    have hkeys := hsound.keys b.1 (LeafNode.stores_of_mem_rangeRows hupper hmem)
    rcases List.mem_append.mp ha with ha | ha
    · exact ne_of_lt (lt_of_lt_of_le (hleft ha) (le_trans hsound.first.1 hkeys.1))
    · exact ne_of_gt (lt_of_le_of_lt hkeys.2 (hright ha))

/-! ## 実行 -/

/-- 内側の鍵か、区間の外の鍵の `upsert`。 -/
def OffEdgeUpsert (s : PlinIndex D) (op : IndexOp) : Prop :=
  ∃ key payload, op = .upsert key payload ∧
    (s.minKey < key ∧ key < s.maxKey ∨ key < s.minKey ∨ s.maxKey < key)

/-- `local_table` の中で鍵以下の最後の leaf は、鍵を `2 ^ 28` 番目より前の block に予測する。 -/
def Addressed (s : PlinIndex D) (key : Key) : Prop :=
  ∀ r ∈ s.localTable, ∀ l, s.leaves[r.addr]? = some l → r.key ≤ key →
    (∀ r' ∈ s.localTable, r'.key ≤ key → r'.key ≤ r.key) → l.predict key < 2 ^ 28

/-- 書く block が折り返さない `upsert`。 -/
def AddressedUpsert (s : PlinIndex D) (op : IndexOp) : Prop :=
  s.OffEdgeUpsert op ∧ (s.Interior op → s.Addressed op.key)

theorem Wired.home_of_addressed (h : s.Wired c t rest slots) (haddr : s.Addressed key)
    (hpred : IsPred Link.firstKey key c A z B) : z.2.home key = z.2.predict key := by
  refine (LeafNode.slotBlock_eq_iff (LeafNode.predictBlock_lt_two_pow ..)).mpr ?_
  have hz := hpred.mem
  rw [Addressed, h.table] at haddr
  refine haddr (record z) (List.mem_map_of_mem hz) z.2 (h.chain.stored z hz) hpred.le ?_
  intro r hr hle
  obtain ⟨x, hx, rfl⟩ := List.mem_map.mp hr
  have hsorted := h.chain.firstKey_sorted
  rw [hpred.eq] at hx hsorted
  rcases List.mem_append.mp hx with hx | hx
  · exact ((List.pairwise_append.mp hsorted).2.2 x hx z List.mem_cons_self).le
  · rcases List.mem_cons.mp hx with rfl | hx
    · exact le_refl _
    · exact absurd hle (not_le_of_gt (hpred.gt x hx))

theorem Refines.setBuffers (h : s.Refines m c t rest slots) (left right : SortedMap Key Payload) :
    (s.withBuffers left right).Refines m c t rest slots :=
  ⟨⟨h.wired.setBuffers left right, h.live, h.contents⟩, h.packed, h.kept⟩

omit [Arith D] in
/-- 区間の外の鍵を buffer に書いても、buffer の鍵は区間の外である。 -/
theorem Apart.upsert (h : s.Apart) (hout : key < s.minKey ∨ s.maxKey < key) (payload : Payload) :
    (if key < s.minKey then s.withBuffers (s.leftBuffer.upsert key payload) s.rightBuffer
      else s.withBuffers s.leftBuffer (s.rightBuffer.upsert key payload)).Apart := by
  split
  · next hlt =>
    refine ⟨fun k hk => ?_, h.right⟩
    rw [PlinIndex.withBuffers, SortedMap.find_upsert] at hk
    by_cases hkey : k = key
    · rw [hkey]
      exact hlt
    · rw [if_neg hkey] at hk
      exact h.left k hk
  · next hlt =>
    refine ⟨h.left, fun k hk => ?_⟩
    rw [PlinIndex.withBuffers, SortedMap.find_upsert] at hk
    by_cases hkey : k = key
    · rw [hkey]
      exact hout.resolve_left hlt
    · rw [if_neg hkey] at hk
      exact h.right k hk

theorem Loaded.apart (h : Loaded f data s) : s.Apart := by
  constructor
  · intro k hk
    rw [h.left] at hk
    exact absurd rfl hk
  · intro k hk
    rw [h.right] at hk
    exact absurd rfl hk

/-- **着いた状態では、`find` も走査も一つの写像の通りに動く。** -/
theorem Reached.served (hd : LoadData data) (h : Reached f data Traversable AddressedUpsert ops s) :
    s.Traversable ∧ s.Apart ∧ ∃ m c t rest slots,
      s.Refines m c t rest slots ∧ ∀ x ∈ c, x.2.Sized := by
  induction h with
  | load h hok =>
    have hload := bulkLoad_loaded h
    obtain ⟨t, rest, href⟩ := hload.refines hd hok.toPlausible
    exact ⟨hok, hload.apart, _, _, t, rest, _, href, sized_linkLeaves⟩
  | @step ops s s' fuel op _ hallow hs hok ih =>
    obtain ⟨hr, hapart, m, c, t, rest, slots, href, hsized⟩ := ih
    obtain ⟨⟨key, payload, rfl, hkey⟩, haddr⟩ := hallow
    rcases hkey with ⟨hlo, hhi⟩ | hout
    · obtain ⟨c', t', rest', slots', href', hbounds, -, hkeep⟩ :=
        href.upsert hr.toPlausible hok.toPlausible hlo hhi
          (href.wired.home_of_addressed (haddr ⟨hlo, hhi⟩)) hs
      refine ⟨hok, ⟨?_, ?_⟩, _, c', t', rest', slots', href', hkeep hsized⟩
      · rw [hbounds.left, hbounds.min]
        exact hapart.left
      · rw [hbounds.right, hbounds.max]
        exact hapart.right
    · have hmin := href.wired.rooted.min_le_max
      have hnot : ¬ (s.minKey < key ∧ key < s.maxKey) := by
        rintro ⟨hlo, hhi⟩
        exact hout.elim (lt_asymm hlo) (lt_asymm hhi)
      rw [perform, upsert_buffer hnot] at hs
      obtain rfl := Except.ok.inj hs
      refine ⟨hok, hapart.upsert hout payload, m, c, t, rest, slots, ?_, hsized⟩
      split
      · exact href.setBuffers _ _
      · exact href.setBuffers _ _

/-! ## 主定理 -/

/-- 区間の、見つかる組だけが、ちょうど一度ずつ読み出される。 -/
def RangeExact (s : PlinIndex D) (lower upper : Key) : Prop :=
  ∀ answers, ∃ rows, s.rangeQuery lower upper answers = .ok (answers ++ rows) ∧ rows.Nodup ∧
    ∀ k v, (k, v) ∈ rows ↔
      InRange lower upper k ∧ ∀ payload, s.find k payload = .ok (true, v)

/--
**範囲の読み出しが正確なのは、区間のどの鍵についても、buffer か overflow tree の payload 0 として読み飛ばす
ことと、折り返した block にあって `find` が見つけないことが一致するとき、またそのときに限る。**

下限が上限より大きくてもよい。
-/
theorem rangeQuery_exact_iff {D : Type} [Arith D] {f : Fitter D} {data : List (Key × Payload)}
    (hd : LoadData data) {ops : List IndexOp} {s : PlinIndex D}
    (h : Reached f data Traversable AddressedUpsert ops s) (lower : Key) {upper : Key}
    (hupper : upper < freeFlag) :
    s.RangeExact lower upper ↔ ∀ k, InRange lower upper k → (s.Lost k ↔ s.Unread k) := by
  obtain ⟨hr, hapart, m, c, t, rest, slots, href, hsized⟩ := h.served hd
  have heq (answers : List (Key × Payload)) : s.rangeQuery lower upper answers =
      .ok (answers ++ s.rowsOf c lower upper) :=
    href.rangeQuery_eq hr hsized hapart hupper answers
  have hmem (k : Key) (v : Payload) : (k, v) ∈ s.rowsOf c lower upper ↔
      InRange lower upper k ∧ s.visible m k = some v ∧ ¬ s.Lost k :=
    href.mem_rowsOf hr hapart hupper
  have hfound (k : Key) (v : Payload) := href.found_iff hr hapart (k := k) (v := v)
  constructor
  · intro hexact k hin
    obtain ⟨rows, hrows, -, hiff⟩ := hexact []
    obtain rfl : s.rowsOf c lower upper = rows := by
      have hsame := (heq []).symm.trans hrows
      simpa using hsame
    have hk : k ≠ freeFlag := ne_of_lt (lt_of_le_of_lt hin.2 hupper)
    -- 見える鍵では、読み飛ばすことと見つからないことが一致する
    have hagree {v : Payload} (hvis : s.visible m k = some v) : s.Lost k ↔ s.Unread k := by
      have hsame := hiff k v
      rw [hmem, hfound] at hsame
      have hcut : ¬ s.Lost k ↔ ¬ s.Unread k := by
        constructor
        · intro hlost
          exact (hsame.mp ⟨hin, hvis, hlost⟩).2.2
        · intro hunread
          exact (hsame.mpr ⟨hin, hvis, hunread⟩).2.2
      exact not_iff_not.mp hcut
    constructor
    · intro hlost
      exact (hagree (href.visible_of_lost hapart hk hlost)).mp hlost
    · intro hunread
      obtain ⟨v, hvis⟩ := href.visible_of_unread hapart hunread
      exact (hagree hvis).mpr hunread
  · intro hagree answers
    have hnodup : (s.rowsOf c lower upper).Nodup :=
      (href.nodup_rowsOf hapart hupper).imp fun hne heq => hne (congrArg Prod.fst heq)
    refine ⟨_, heq answers, hnodup, fun k v => ?_⟩
    rw [hmem, hfound]
    constructor
    · rintro ⟨hin, hvis, hlost⟩
      exact ⟨hin, hvis, fun hunread => hlost ((hagree k hin).mpr hunread)⟩
    · rintro ⟨hin, hvis, hunread⟩
      exact ⟨hin, hvis, fun hlost => hunread ((hagree k hin).mp hlost)⟩

/-! ## 分割の起きる実行 -/

theorem Regular.traversable {s : PlinIndex ℚ} (hr : s.Regular) (hup : ∀ l ∈ s.leaves, l.Upward) :
    s.Traversable := by
  refine ⟨hr.toPlausible, hr.inners, fun l hl => ?_⟩
  obtain ⟨hslope, hwide, hsmall⟩ := hup l hl
  exact ⟨fun a b _ hab _ => LeafNode.predictBlock_mono hslope hwide (by omega) hab, hwide⟩

theorem Regular.addressed {s : PlinIndex D} (h : s.Regular) (hlo : s.minKey ≤ key)
    (hhi : key ≤ s.maxKey) : s.Addressed key :=
  fun _ _ l hl _ _ => (h.leaves l (List.mem_of_getElem? hl)).addressable key hlo hhi

/-- 分割の起きる実行では、payload 0 は書かれない。 -/
theorem SplitRun.not_lost {s s' : PlinIndex ℚ} (h : SplitRun s s') {k : Key} (hk : k ≠ freeFlag) :
    ¬ s'.Lost k := by
  intro hlost
  have hreach : Reached exactFitter lostData Regular InteriorUpsert [.upsert lateKey 7] s' :=
    .step (.load h.load h.regular) ⟨_, _, rfl, h.interior⟩ h.upsert h.regular'
  obtain ⟨-, hleft, hright, c, t, rest, slots, -, href⟩ := hreach.refines loadData_lostData
  have hapart : s'.Apart := by
    refine ⟨fun k hk => absurd ?_ hk, fun k hk => absurd ?_ hk⟩
    · rw [hleft]
      rfl
    · rw [hright]
      rfl
  have hvis := href.visible_of_lost hapart hk hlost
  rw [visible, hleft, hright, applyAll_lateKey] at hvis
  split at hvis
  · exact absurd (Option.some.inj hvis) (by decide)
  · have hvis : lostData.lookup k = some 0 := hvis
    rw [lookup_lostData (lookup_lostData_ne_none.mp (by rw [hvis]; simp))] at hvis
    exact absurd (Option.some.inj hvis) (by decide)

/-- 真ん中の leaf が分割された後も、`min_key` から `max_key` までを正確に読み出す。 -/
theorem rangeQuery_exact_iff_insert : ∃ s s' : PlinIndex ℚ, SplitRun s s' ∧
    s'.RangeExact (Key.ofNat 0) (farKey 1 514) := by
  obtain ⟨s, s', hrun⟩ := exists_splitRun
  have hreach : Reached exactFitter lostData Traversable AddressedUpsert
      [.upsert lateKey 7] s' :=
    .step (.load hrun.load (hrun.regular.traversable hrun.upward))
      ⟨⟨_, _, rfl, Or.inl hrun.interior⟩,
        fun hin => hrun.regular.addressed hin.1.le hin.2.le⟩
      hrun.upsert (hrun.regular'.traversable hrun.upward')
  have hupper : farKey 1 514 < freeFlag := by decide +kernel
  refine ⟨s, s', hrun, (rangeQuery_exact_iff loadData_lostData hreach _ hupper).mpr ?_⟩
  rintro k ⟨hlo, hhi⟩
  refine iff_of_false (hrun.not_lost (ne_of_lt (lt_of_le_of_lt hhi hupper))) ?_
  rintro ⟨r, -, l, hl, -, hwrap⟩
  have haddr := (hrun.regular'.leaves l (List.mem_of_getElem? hl)).addressable k
    (hrun.min'.trans_le hlo) (hhi.trans_eq hrun.max'.symm)
  exact not_le_of_gt haddr hwrap

/-- `0` から `2 ^ 31 - 1` までの鍵を `bulk_load` すると、読み出されるのに `find` が見つけない鍵がある。 -/
theorem rangeQuery_exact_fails :
    ∃ s : PlinIndex ℚ, LoadData (wideData (2 ^ 31)) ∧
      Reached evenFitter (wideData (2 ^ 31)) Traversable OffEdgeUpsert [] s ∧
      ∃ k < freeFlag, ¬ s.RangeExact k k := by
  obtain ⟨s, hs, hr, hp, hmono, hthree, hlost⟩ := exists_wideIndex
  have hd := loadData_wideData (n := 2 ^ 31) (by decide)
  have hok : s.Traversable :=
    ⟨hp, hr, fun l hl => ⟨fun a b _ hab _ => hmono l hl a b hab, hthree l hl⟩⟩
  have hload := bulkLoad_loaded hs
  obtain ⟨t, rest, href⟩ := hload.refines hd hp
  push Not at hlost
  obtain ⟨e, he, payload, hlost⟩ := hlost
  have hlookup := (lookup_eq_some_iff_mem hd.nodup (v := e.2)).mpr he
  have hvis := href.visible_of_map hload.apart hlookup
  have hkey : e.1 < freeFlag :=
    lt_of_le_of_lt (hload.within hd e.1 (List.mem_map_of_mem he)).2 href.wired.rooted.bound
  refine ⟨s, hd, .load hs hok, e.1, hkey, fun hexact => ?_⟩
  obtain ⟨rows, hrows, -, hiff⟩ := hexact []
  rw [href.rangeQuery_eq hok sized_linkLeaves hload.apart hkey] at hrows
  obtain rfl := List.append_cancel_left (Except.ok.inj hrows)
  -- 最後の鍵は読み出される
  have hnot : ¬ s.Lost e.1 := by
    intro hzero
    rw [href.visible_of_lost hload.apart (ne_of_lt hkey) hzero] at hvis
    obtain ⟨i, -, rfl⟩ := List.mem_map.mp he
    cases hvis
  have hmem := (href.mem_rowsOf hok hload.apart hkey).mpr ⟨⟨le_refl _, le_refl _⟩, hvis, hnot⟩
  exact hlost (((hiff e.1 e.2).mp hmem).2 payload)

end PlinIndex

end Plin
