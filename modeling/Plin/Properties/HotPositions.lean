import Mathlib.Data.List.Induction
import Plin.Cloud.CloudServer
import Plin.Infra.TopN
import Plin.Properties.RangeMap

/-!
# Cloud の選ぶ行

Cloud は workload の記録から、End ごとによく引かれる行の番号を選ぶ。選んだ列は、その End の行のうち
記録に現れた回数の上位である（`buildHotPositionsByEnd_topN`）。表をたどる順にも、同じ回数の行の並び方にも
依らない。

行の持ち主は番号で決まる（`end_for_position`）が、送る前の検査は区間で引く（`locate_end`）。二つが一致する
のは、**どの End の区間も、その End の 100 万行の最初と最後の鍵を含むとき**に限る
（`endForPosition_eq_locateEnd_iff`）。
-/

namespace Plin

open Infra

/-! ## 数える -/

/-- 行の番号を一つ数える。 -/
theorem mem_keys_countPosition (counts : List (Int × Nat)) (pos x : Int) :
    x ∈ (countPosition counts pos).map Prod.fst ↔ x ∈ counts.map Prod.fst ∨ x = pos := by
  induction counts with
  | nil => simp [countPosition]
  | cons e rest ih =>
    rw [countPosition]
    split
    · next he =>
      rw [List.map_cons, List.map_cons]
      constructor
      · exact Or.inl
      · rintro (h | rfl)
        · exact h
        · rw [he]
          exact List.mem_cons_self
    · rw [List.map_cons, List.map_cons, List.mem_cons, List.mem_cons, ih, or_assoc]

theorem nodup_countPosition {counts : List (Int × Nat)} (h : (counts.map Prod.fst).Nodup)
    (pos : Int) : ((countPosition counts pos).map Prod.fst).Nodup := by
  induction counts with
  | nil => simp [countPosition]
  | cons e rest ih =>
    rw [List.map_cons, List.nodup_cons] at h
    rw [countPosition]
    split
    · rw [List.map_cons, List.nodup_cons]
      exact h
    · next he =>
      rw [List.map_cons, List.nodup_cons, mem_keys_countPosition]
      refine ⟨?_, ih h.2⟩
      rintro (hmem | heq)
      · exact h.1 hmem
      · exact he heq

/-- 数えた行の回数は一つ増え、ほかの行の回数は変わらない。 -/
theorem mem_countPosition {counts : List (Int × Nat)} (h : (counts.map Prod.fst).Nodup)
    {pos : Int} {e : Int × Nat} (he : e ∈ countPosition counts pos) :
    (e ∈ counts ∧ e.1 ≠ pos) ∨ (e.1 = pos ∧ ((pos, e.2 - 1) ∈ counts ∧ 0 < e.2 ∨
      pos ∉ counts.map Prod.fst ∧ e.2 = 1)) := by
  induction counts with
  | nil =>
    obtain rfl : e = (pos, 1) := by simpa [countPosition] using he
    exact Or.inr ⟨rfl, Or.inr ⟨by simp, rfl⟩⟩
  | cons a rest ih =>
    rw [List.map_cons, List.nodup_cons] at h
    rw [countPosition] at he
    split at he
    · next ha =>
      rcases List.mem_cons.mp he with rfl | he
      · refine Or.inr ⟨ha, Or.inl ⟨?_, Nat.succ_pos _⟩⟩
        rw [← ha]
        exact List.mem_cons_self
      · refine Or.inl ⟨List.mem_cons_of_mem _ he, ?_⟩
        rintro rfl
        exact h.1 (ha ▸ List.mem_map_of_mem he)
    · next ha =>
      rcases List.mem_cons.mp he with rfl | he
      · exact Or.inl ⟨List.mem_cons_self, ha⟩
      · rcases ih h.2 he with ⟨hmem, hne⟩ | ⟨hpos, ⟨hmem, hlt⟩ | ⟨hnone, hone⟩⟩
        · exact Or.inl ⟨List.mem_cons_of_mem _ hmem, hne⟩
        · exact Or.inr ⟨hpos, Or.inl ⟨List.mem_cons_of_mem _ hmem, hlt⟩⟩
        · refine Or.inr ⟨hpos, Or.inr ⟨?_, hone⟩⟩
          rw [List.map_cons, List.mem_cons, not_or]
          exact ⟨fun h => ha h.symm, hnone⟩

/-- **一つ数えると、記録の終わりに一つ足した表になる。** -/
theorem tally_countPosition {log : List Int} {counts : List (Int × Nat)} (h : Tally log counts)
    (pos : Int) : Tally (log ++ [pos]) (countPosition counts pos) where
  nodup := nodup_countPosition h.nodup pos
  mem x := by rw [mem_keys_countPosition, h.mem, List.mem_append, List.mem_singleton]
  count e he := by
    rw [List.count_append, List.count_singleton]
    rcases mem_countPosition h.nodup he with ⟨hmem, hne⟩ | ⟨hpos, ⟨hmem, hlt⟩ | ⟨hnone, hone⟩⟩
    · rw [if_neg (by simpa using hne.symm), h.count e hmem]
      rfl
    · have hcount : e.2 - 1 = log.count pos := h.count _ hmem
      rw [hpos, if_pos (by simp), ← hcount]
      omega
    · have hzero : log.count pos = 0 := List.count_eq_zero.mpr fun hc => hnone ((h.mem pos).mpr hc)
      rw [hpos, if_pos (by simp), hzero, hone]

/-- End `endId` の行が引かれた記録。 -/
def hitsOf (rows : List WorkloadRecord) (dataSize : Nat) (endId : Int) : List Int :=
  (rows.map WorkloadRecord.keyPos).filter fun pos => endForPosition pos dataSize = endId

/-- `counts` を作る loop は、その End の記録を数える。 -/
theorem tally_positionCounts (rows : List WorkloadRecord) (dataSize : Nat) (endId : Int) :
    Tally (hitsOf rows dataSize endId) (positionCounts rows dataSize endId) := by
  unfold positionCounts hitsOf
  induction rows using List.reverseRecOn with
  | nil => exact tally_nil
  | append_singleton rows r ih =>
    rw [List.foldl_append, List.foldl_cons, List.foldl_nil, List.map_append, List.filter_append]
    split
    · next hend =>
      have hone : ([r].map WorkloadRecord.keyPos).filter
          (fun pos => endForPosition pos dataSize = endId) = [r.keyPos] :=
        List.filter_cons_of_pos (by simpa using hend)
      rw [hone]
      exact tally_countPosition ih r.keyPos
    · next hend =>
      have hnone : ([r].map WorkloadRecord.keyPos).filter
          (fun pos => endForPosition pos dataSize = endId) = [] :=
        List.filter_cons_of_neg (by simpa using hend)
      rw [hnone, List.append_nil]
      exact ih

/-! ## 並べて選ぶ -/

/-- 回数の多い順に並べる `std::sort` の比較。 -/
theorem pairwise_ranked (l : List (Int × Nat)) :
    (l.mergeSort fun a b => decide (b.2 ≤ a.2)).Pairwise fun a b => b.2 ≤ a.2 := by
  have h := @List.pairwise_mergeSort _ (fun a b : Int × Nat => decide (b.2 ≤ a.2))
    (fun a b c => by simp only [decide_eq_true_eq]; omega)
    (fun a b => by simp only [Bool.or_eq_true, decide_eq_true_eq]; omega) l
  exact h.imp fun hab => of_decide_eq_true hab

/-- 表を並べた列の先頭は、その End の行の上位である。 -/
theorem isTopN_ranked (rows : List WorkloadRecord) (dataSize : Nat) (endId : Int)
    {ranked : List (Int × Nat)} (hperm : ranked.Perm (positionCounts rows dataSize endId))
    (hsorted : ranked.Pairwise fun a b => b.2 ≤ a.2) (n : Nat) :
    IsTopN (fun pos => (rows.map WorkloadRecord.keyPos).count pos) (hitsOf rows dataSize endId) n
      ((ranked.take n).map Prod.fst) := by
  refine ((tally_positionCounts rows dataSize endId).isTopN hperm hsorted n).congr
    fun pos hpos => ?_
  exact List.count_filter (List.mem_filter.mp hpos).2

theorem getElem?_buildHotPositionsByEnd (iteration : List (Int × Nat) → List (Int × Nat))
    (rows : List WorkloadRecord) (dataSize : Nat) (maxPerEnd : Int) {e : Nat} (hlo : 1 ≤ e)
    (hhi : e ≤ 10) :
    (buildHotPositionsByEnd iteration rows dataSize maxPerEnd)[e]? =
      some ((((iteration (positionCounts rows dataSize e)).mergeSort
        fun a b => decide (b.2 ≤ a.2)).take maxPerEnd.toNat).map Prod.fst) := by
  rw [buildHotPositionsByEnd, List.getElem?_map, List.getElem?_range (by omega), Option.map_some,
    if_neg (by omega)]

/--
**End `e` の列は、その End の行のうち記録に現れた回数の上位 `max_per_end` 個である。**

`ranked` は `std::sort` の残しうる列で、同じ回数の行の順は問わない。
-/
theorem buildHotPositionsByEnd_topN {iteration : List (Int × Nat) → List (Int × Nat)}
    (hiter : ∀ l, (iteration l).Perm l) (rows : List WorkloadRecord) (dataSize : Nat)
    (maxPerEnd : Int) {e : Nat} (hlo : 1 ≤ e) (hhi : e ≤ 10) :
    (∃ out, (buildHotPositionsByEnd iteration rows dataSize maxPerEnd)[e]? = some out ∧
      IsTopN (fun pos => (rows.map WorkloadRecord.keyPos).count pos) (hitsOf rows dataSize e)
        maxPerEnd.toNat out) ∧
    ∀ ranked : List (Int × Nat), ranked.Perm (positionCounts rows dataSize e) →
      (ranked.Pairwise fun a b => b.2 ≤ a.2) →
      IsTopN (fun pos => (rows.map WorkloadRecord.keyPos).count pos) (hitsOf rows dataSize e)
        maxPerEnd.toNat ((ranked.take maxPerEnd.toNat).map Prod.fst) := by
  constructor
  · refine ⟨_, getElem?_buildHotPositionsByEnd iteration rows dataSize maxPerEnd hlo hhi, ?_⟩
    exact isTopN_ranked rows dataSize e ((List.mergeSort_perm _ _).trans (hiter _))
      (pairwise_ranked _) _
  · intro ranked hperm hsorted
    exact isTopN_ranked rows dataSize e hperm hsorted _

theorem buildHotPositionsByEnd_topN_reverse :
    ∃ out, (buildHotPositionsByEnd List.reverse [⟨2⟩, ⟨1⟩, ⟨9⟩, ⟨2⟩] 3 1)[1]? = some out ∧
      IsTopN (fun pos => ([⟨2⟩, ⟨1⟩, ⟨9⟩, ⟨2⟩].map WorkloadRecord.keyPos).count pos)
        (hitsOf [⟨2⟩, ⟨1⟩, ⟨9⟩, ⟨2⟩] 3 1) 1 out :=
  (@buildHotPositionsByEnd_topN List.reverse List.reverse_perm [⟨2⟩, ⟨1⟩, ⟨9⟩, ⟨2⟩] 3 1 1
    (by decide) (by decide)).1

/-! ## 行の持ち主 -/

/-- End `endId` の最初の行。行は 0 から数える。 -/
def firstRow (endId : Int) : Nat := (endId.toNat - 1) * 1000000

/-- End `endId` の最後の行。End 10 は残りの行を全部持つ。 -/
def lastRow (endId : Int) (dataSize : Nat) : Nat :=
  if endId = 10 then dataSize - 1 else min (endId.toNat * 1000000) dataSize - 1

/-- 行は、その行の End の最初と最後の間にある。 -/
theorem endForPosition_block {pos : Int} {n : Nat} (hpos : 0 < pos) (hle : pos ≤ n) :
    1 ≤ endForPosition pos n ∧ endForPosition pos n ≤ 10 ∧
      firstRow (endForPosition pos n) ≤ (pos - 1).toNat ∧
      (pos - 1).toNat ≤ lastRow (endForPosition pos n) n ∧
      lastRow (endForPosition pos n) n < n := by
  unfold firstRow lastRow endForPosition
  rw [if_neg (by omega)]
  dsimp only
  by_cases hten : 10 < (pos - 1) / 1000000 + 1
  · rw [if_pos hten, if_pos rfl]
    omega
  · rw [if_neg hten]
    split <;> omega

/-- End の最初と最後の行は、その End の行である。 -/
theorem endForPosition_firstRow {endId : Int} {n : Nat} (hlo : 1 ≤ endId) (hhi : endId ≤ 10)
    (hn : firstRow endId < n) :
    endForPosition (firstRow endId + 1) n = endId ∧ endForPosition (lastRow endId n + 1) n = endId ∧
      lastRow endId n < n := by
  unfold firstRow at hn
  unfold endForPosition firstRow lastRow
  dsimp only
  refine ⟨?_, ?_, ?_⟩
  · rw [if_neg (by omega)]
    split <;> omega
  · split
    · rw [if_neg (by omega)]
      split <;> omega
    · rw [if_neg (by omega)]
      split <;> omega
  · split <;> omega

/-- どの End の区間も、その End の最初と最後の行の鍵を含む。`topology.yaml` の区間はこのように作られる。 -/
def Aligned (rm : RangeMap) (data : List (Key × Payload)) : Prop :=
  ∀ e ∈ rm.ends, ∀ a b, data[firstRow e.id]? = some a → data[lastRow e.id data.length]? = some b →
    e.keyLo ≤ a.1 ∧ b.1 ≤ e.keyHi

/-- End の番号は 1 から 10 である。 -/
def RangeMap.Numbered (rm : RangeMap) : Prop :=
  (rm.ends.map EndInfo.id).Perm [1, 2, 3, 4, 5, 6, 7, 8, 9, 10]

instance (rm : RangeMap) : Decidable rm.Numbered := inferInstanceAs (Decidable (List.Perm _ _))

namespace RangeMap.Numbered

variable {rm : RangeMap}

theorem bounds (h : rm.Numbered) {e : EndInfo} (he : e ∈ rm.ends) : 1 ≤ e.id ∧ e.id ≤ 10 := by
  have hmem : e.id ∈ [1, 2, 3, 4, 5, 6, 7, 8, 9, 10] := h.mem_iff.mp (List.mem_map_of_mem he)
  simp only [List.mem_cons, List.not_mem_nil, or_false] at hmem
  omega

theorem exists_end (h : rm.Numbered) {i : Int} (hlo : 1 ≤ i) (hhi : i ≤ 10) :
    ∃ e ∈ rm.ends, e.id = i := by
  have hmem : i ∈ rm.ends.map EndInfo.id := by
    rw [h.mem_iff]
    simp only [List.mem_cons, List.not_mem_nil, or_false]
    omega
  exact List.mem_map.mp hmem

theorem eq_of_id (h : rm.Numbered) {a b : EndInfo} (ha : a ∈ rm.ends) (hb : b ∈ rm.ends)
    (hid : a.id = b.id) : a = b :=
  List.inj_on_of_nodup_map (h.nodup_iff.mpr (by decide)) ha hb hid

end RangeMap.Numbered

section Rows

variable {rm : RangeMap} {data : List (Key × Payload)}

/-- 整列した data の鍵は、位置の順に増える。 -/
theorem key_le_of_sorted (hsorted : data.Pairwise fun a b => a.1 ≤ b.1) {i j : Nat}
    {a b : Key × Payload} (ha : data[i]? = some a) (hb : data[j]? = some b) (hij : i ≤ j) :
    a.1 ≤ b.1 := by
  rcases Nat.eq_or_lt_of_le hij with rfl | hlt
  · rw [Option.some.inj (ha.symm.trans hb)]
  · obtain ⟨hi, rfl⟩ := List.getElem?_eq_some_iff.mp ha
    obtain ⟨hj, rfl⟩ := List.getElem?_eq_some_iff.mp hb
    exact List.pairwise_iff_getElem.mp hsorted i j hi hj hlt

/-- 区間が揃っていれば、行の鍵は行の End の区間に入る。 -/
theorem Aligned.locateEnd_eq (h : Aligned rm data) (hsep : rm.Separated) (hnum : rm.Numbered)
    (hsorted : data.Pairwise fun a b => a.1 ≤ b.1) {pos : Int} (hpos : 0 < pos)
    (hle : pos ≤ data.length) {row : Key × Payload} (hrow : data[(pos - 1).toNat]? = some row) :
    endForPosition pos data.length = rm.locateEnd row.1 := by
  obtain ⟨hlo, hhi, hfirst, hlast, hlt⟩ := endForPosition_block hpos hle
  obtain ⟨e, he, hid⟩ := hnum.exists_end hlo hhi
  rw [← hid] at hfirst hlast hlt ⊢
  have hget : firstRow e.id < data.length := by omega
  have ha := List.getElem?_eq_getElem hget
  have hb := List.getElem?_eq_getElem hlt
  obtain ⟨hkeyLo, hkeyHi⟩ := h e he _ _ ha hb
  refine (RangeMap.locateEnd_eq hsep he ⟨?_, ?_⟩).symm
  · exact le_trans hkeyLo (key_le_of_sorted hsorted ha hrow hfirst)
  · exact le_trans (key_le_of_sorted hsorted hrow hb hlast) hkeyHi

/--
**行の番号と区間は、区間が行に揃っているとき、そのときに限り、同じ持ち主を指す。**

揃っていれば、`build_hot_positions_by_end` が End `e` に選んだ行は、どれも `send_hot_update` の検査に通る。
-/
theorem endForPosition_eq_locateEnd_iff (hsep : rm.Separated) (hnum : rm.Numbered)
    (hsorted : data.Pairwise fun a b => a.1 ≤ b.1)
    (hcover : ∀ row ∈ data, ∃ e ∈ rm.ends, e.Contains row.1) :
    ((∀ pos : Int, 0 < pos → pos ≤ data.length → ∀ row, data[(pos - 1).toNat]? = some row →
      endForPosition pos data.length = rm.locateEnd row.1) ↔ Aligned rm data) ∧
    (Aligned rm data → ∀ (iteration : List (Int × Nat) → List (Int × Nat)),
      (∀ l, (iteration l).Perm l) → ∀ (workload : List WorkloadRecord) (maxPerEnd : Int) (e : Nat),
      1 ≤ e → e ≤ 10 → ∃ out,
        (buildHotPositionsByEnd iteration workload data.length maxPerEnd)[e]? = some out ∧
        ∀ pos ∈ out, ∃ row, data[(pos - 1).toNat]? = some row ∧ rm.locateEnd row.1 = e) := by
  refine ⟨⟨fun h e he a b ha hb => ?_, fun h pos hpos hle row hrow => ?_⟩, ?_⟩
  · obtain ⟨hlo, hhi⟩ := hnum.bounds he
    have hget := (List.getElem?_eq_some_iff.mp ha).1
    obtain ⟨hfirst, hlast, hlt⟩ := endForPosition_firstRow hlo hhi hget
    -- 鍵の入る区間の End の番号は、行の End の番号に等しい
    have hcontains : ∀ {i : Nat} {row : Key × Payload}, data[i]? = some row →
        endForPosition (i + 1) data.length = e.id → e.Contains row.1 := by
      intro i row hrow hend
      obtain ⟨e', he', hk⟩ := hcover row (List.mem_of_getElem? hrow)
      have hi := (List.getElem?_eq_some_iff.mp hrow).1
      have hloc := h (i + 1) (by omega) (by omega) row (by simpa using hrow)
      rw [hend, RangeMap.locateEnd_eq hsep he' hk] at hloc
      rwa [hnum.eq_of_id he he' hloc]
    exact ⟨(hcontains ha hfirst).1, (hcontains hb hlast).2⟩
  · exact h.locateEnd_eq hsep hnum hsorted hpos hle hrow
  · intro h iteration hiter workload maxPerEnd e hlo hhi
    have hout := getElem?_buildHotPositionsByEnd iteration workload data.length maxPerEnd hlo hhi
    refine ⟨_, hout, fun pos hpos => ?_⟩
    have htop := isTopN_ranked workload data.length e ((List.mergeSort_perm _ _).trans (hiter _))
      (pairwise_ranked _) maxPerEnd.toNat
    have hend : endForPosition pos data.length = e := by
      simpa using (List.mem_filter.mp (htop.mem pos hpos)).2
    obtain ⟨hpos0, hle⟩ : 0 < pos ∧ pos ≤ data.length := by
      by_contra hc
      rw [endForPosition, if_pos (by omega)] at hend
      omega
    have hlt : (pos - 1).toNat < data.length := by omega
    refine ⟨data[(pos - 1).toNat], List.getElem?_eq_getElem hlt, ?_⟩
    rw [← hend]
    exact (h.locateEnd_eq hsep hnum hsorted hpos0 hle (List.getElem?_eq_getElem hlt)).symm

end Rows

/-- 鍵を十ずつ分けた配置。 -/
def decadeMap : RangeMap where
  edges := [⟨1, [1, 2, 3, 4, 5]⟩, ⟨2, [6, 7, 8, 9, 10]⟩]
  ends := (List.range 10).map fun (i : Nat) =>
    ⟨i + 1, if i < 5 then 1 else 2, Key.ofNat (10 * i), Key.ofNat (10 * i + 9)⟩

theorem decadeMap_separated : decadeMap.Separated := by
  have hbefore : decadeMap.ends.Pairwise fun a b => a.keyLo ≤ b.keyLo ∧ a.keyHi < b.keyLo := by
    decide +kernel
  exact ⟨hbefore.imp And.left, by decide +kernel,
    hbefore.imp fun h => EndInfo.not_contains_both h.2⟩

/-- 二行だけの data では、二行目は End 2 の鍵なのに End 1 の行と数えられ、どの End にも送られない。 -/
theorem endForPosition_ne_locateEnd :
    decadeMap.Separated ∧ decadeMap.Numbered ∧
      ([(Key.ofNat 5, 1), (Key.ofNat 15, 2)] : List (Key × Payload)).Pairwise
        (fun a b => a.1 ≤ b.1) ∧
      (∀ row ∈ ([(Key.ofNat 5, 1), (Key.ofNat 15, 2)] : List (Key × Payload)),
        ∃ e ∈ decadeMap.ends, e.Contains row.1) ∧
      endForPosition 2 2 = 1 ∧ decadeMap.locateEnd (Key.ofNat 15) = 2 ∧
      buildHotPositionsByEnd id [⟨2⟩] 2 4 = [[], [2], [], [], [], [], [], [], [], [], []] ∧
      (CloudServer.new id 1 decadeMap [(Key.ofNat 5, 1), (Key.ofNat 15, 2)] [⟨2⟩]).hotPairs 1 = [] ∧
      (CloudServer.new id 1 decadeMap [(Key.ofNat 5, 1), (Key.ofNat 15, 2)] [⟨2⟩]).hotPairs 2 =
        [] :=
  ⟨decadeMap_separated, by decide +kernel, by decide +kernel, by decide +kernel, by decide,
    by decide +kernel, by decide +kernel, by decide +kernel, by decide +kernel⟩

/-! ### 百万行ずつの配置 -/

/-- 鍵を百万ずつ分けた配置。 -/
def millionMap : RangeMap where
  edges := [⟨1, [1, 2, 3, 4, 5]⟩, ⟨2, [6, 7, 8, 9, 10]⟩]
  ends := (List.range 10).map fun (i : Nat) =>
    ⟨i + 1, if i < 5 then 1 else 2, Key.ofNat (1000000 * i), Key.ofNat (1000000 * i + 999999)⟩

/-- 鍵が `0, 1, 2, ...` の data。 -/
def millionRows (n : Nat) : List (Key × Payload) := (List.range n).map fun i => (Key.ofNat i, 1)

theorem millionMap_separated : millionMap.Separated := by
  have hbefore : millionMap.ends.Pairwise fun a b => a.keyLo ≤ b.keyLo ∧ a.keyHi < b.keyLo := by
    decide +kernel
  exact ⟨hbefore.imp And.left, by decide +kernel,
    hbefore.imp fun h => EndInfo.not_contains_both h.2⟩

section MillionRows

variable {n : Nat}

theorem length_millionRows : (millionRows n).length = n := by
  rw [millionRows, List.length_map, List.length_range]

theorem getElem?_millionRows {i : Nat} (hi : i < n) :
    (millionRows n)[i]? = some (Key.ofNat i, 1) := by
  rw [millionRows, List.getElem?_map, List.getElem?_range hi]
  rfl

theorem eq_of_getElem?_millionRows {i : Nat} {row : Key × Payload}
    (h : (millionRows n)[i]? = some row) : i < n ∧ row.1 = Key.ofNat i := by
  have hi := (List.getElem?_eq_some_iff.mp h).1
  rw [length_millionRows] at hi
  rw [getElem?_millionRows hi] at h
  exact ⟨hi, by rw [← Option.some.inj h]⟩

theorem sorted_millionRows (hn : n < 2 ^ 53) :
    (millionRows n).Pairwise fun a b => a.1 ≤ b.1 := by
  rw [millionRows, List.pairwise_map]
  refine List.pairwise_lt_range.imp_of_mem fun _ hj hij => ?_
  have hj' := List.mem_range.mp hj
  exact (Key.ofNat_lt hij (by omega)).le

theorem cover_millionRows (hn : n ≤ 10000000) :
    ∀ row ∈ millionRows n, ∃ e ∈ millionMap.ends, e.Contains row.1 := by
  intro row hrow
  obtain ⟨i, hi, rfl⟩ := List.mem_map.mp hrow
  have hi' := List.mem_range.mp hi
  refine ⟨_, List.mem_map.mpr ⟨i / 1000000, List.mem_range.mpr (by omega), rfl⟩, ?_, ?_⟩
  · exact Key.ofNat_le (by omega) (by omega)
  · exact Key.ofNat_le (by omega) (by omega)

/-- **鍵が行の番号なら、百万ずつの配置は行に揃っている。** -/
theorem aligned_millionRows (hn : n ≤ 10000000) : Aligned millionMap (millionRows n) := by
  intro e he a b ha hb
  obtain ⟨i, hi, rfl⟩ := List.mem_map.mp he
  have hi' := List.mem_range.mp hi
  obtain ⟨hfirst, ha'⟩ := eq_of_getElem?_millionRows ha
  obtain ⟨hlast, hb'⟩ := eq_of_getElem?_millionRows hb
  rw [ha', hb']
  rw [length_millionRows] at hlast ⊢
  unfold firstRow at hfirst ⊢
  unfold lastRow at hlast ⊢
  dsimp only at hfirst hlast ⊢
  refine ⟨Key.ofNat_le (by omega) (by omega), Key.ofNat_le ?_ (by omega)⟩
  split <;> omega

end MillionRows

theorem endForPosition_eq_locateEnd_million :
    Aligned millionMap (millionRows 2500000) ∧
      endForPosition 1000001 2500000 = millionMap.locateEnd (Key.ofNat 1000000) := by
  have haligned : Aligned millionMap (millionRows 2500000) := aligned_millionRows (by decide)
  have howner := (endForPosition_eq_locateEnd_iff millionMap_separated (by decide +kernel)
    (sorted_millionRows (n := 2500000) (by decide)) (cover_millionRows (by decide))).1.mpr
    haligned 1000001 (by decide) (by rw [length_millionRows]; decide) (Key.ofNat 1000000, 1)
    (getElem?_millionRows (by decide))
  rw [length_millionRows] at howner
  exact ⟨haligned, howner⟩

end Plin
