import Mathlib.Algebra.GroupWithZero.Nat
import Plin.Index.Segmentation

/-!
# 区分は鍵の列を切り分ける

`make_segmentation` の結果について索引が使う事実は、幾何の計算（`Fitter`）に依らない。

- 区分は鍵の列を前から順に切り分け、`first_key` は各部分の先頭の鍵である（`Covers`）。
- 鍵が狭義に増えていれば、切り残しは無い（`sum_number_makeSegmentation`）。
- 最後のほかの区分は二点以上を含むので、区分の数は鍵の数の半分ほどしか無い
  （`length_makeSegmentation_le`）。inner node の段を積む loop が終わるのはこのためである。
-/

namespace Plin

variable {D : Type}

/-- 区分の列が鍵の列を前から切り分ける。後の区分の鍵は、前の区分のどの鍵よりも大きい。 -/
def Covers : List (Segment D) → List Key → Prop
  | [], _ => True
  | seg :: segs, keys =>
    0 < seg.number ∧ seg.number ≤ keys.length ∧ keys.head? = some seg.firstKey ∧
      (∀ k ∈ keys.take seg.number, ∀ s ∈ segs, k < s.firstKey) ∧
      Covers segs (keys.drop seg.number)

/-- 切り分けた区分の `first_key` は、切り分けられた列の中にある。 -/
theorem Covers.firstKey_mem {segs : List (Segment D)} {keys : List Key} (h : Covers segs keys) :
    ∀ s ∈ segs, s.firstKey ∈ keys := by
  induction segs generalizing keys with
  | nil => simp
  | cons seg segs ih =>
    obtain ⟨_, _, hhead, _, hrest⟩ := h
    intro s hs
    rcases List.mem_cons.mp hs with rfl | hs
    · exact List.mem_of_mem_head? hhead
    · exact List.mem_of_mem_drop (ih hrest s hs)

/-- `first_key` の列は狭義に増える。 -/
theorem Covers.sorted {segs : List (Segment D)} {keys : List Key} (h : Covers segs keys) :
    (segs.map (·.firstKey)).Pairwise (· < ·) := by
  induction segs generalizing keys with
  | nil => simp
  | cons seg segs ih =>
    obtain ⟨hpos, _, hhead, hlt, hrest⟩ := h
    rw [List.map_cons, List.pairwise_cons]
    refine ⟨?_, ih hrest⟩
    intro k hk
    obtain ⟨s, hs, rfl⟩ := List.mem_map.mp hk
    refine hlt _ ?_ s hs
    cases keys with
    | nil => simp at hhead
    | cons a keys =>
      obtain rfl : a = seg.firstKey := by simpa using hhead
      rw [List.take_cons hpos]
      simp

/-! ## loop の不変条件 -/

section Loop

variable {f : Fitter D} {epsilon : Nat}

/-- 読みかけの区分の始まりより小さい `first_key` は出てこない。 -/
theorem le_firstKey_segmentLoop {rest : List Key} :
    ∀ {i start : Nat} {first p : Key} {count : Nat} {state : f.State}, first ≤ p →
      (p :: rest).Pairwise (· ≤ ·) →
      ∀ s ∈ segmentLoop f epsilon rest i start first p count state, first ≤ s.firstKey := by
  induction rest with
  | nil =>
    intro i start first p count state _ _ s hs
    simp only [segmentLoop, List.mem_singleton] at hs
    rw [hs]
    exact le_refl _
  | cons k rest ih =>
    intro i start first p count state hfp hsort s hs
    obtain ⟨hp, hrest⟩ := List.pairwise_cons.mp hsort
    have hpk : p ≤ k := hp k (by simp)
    rw [segmentLoop] at hs
    split at hs
    · next he => exact ih hfp (by rw [← he]; exact hrest) s hs
    · split at hs
      · exact ih (le_trans hfp hpk) hrest s hs
      · rcases List.mem_cons.mp hs with rfl | hs
        · exact le_refl _
        · exact le_trans (le_trans hfp hpk) (ih (le_refl k) hrest s hs)

/-- 読みかけの部分 `cur` を添えた loop の不変条件。 -/
theorem covers_segmentLoop {rest : List Key} :
    ∀ {cur : List Key} {i start : Nat} {first p : Key} {count : Nat} {state : f.State},
      cur.length = i - start → cur.head? = some first → p ∈ cur → (∀ k ∈ cur, k ≤ p) →
      (cur ++ rest).Pairwise (· ≤ ·) →
      Covers (segmentLoop f epsilon rest i start first p count state) (cur ++ rest) := by
  induction rest with
  | nil =>
    intro cur i start first p count state hlen hhead hp _ _
    have hpos : 0 < cur.length := List.length_pos_of_mem hp
    refine ⟨?_, ?_, ?_, by simp, trivial⟩
    · show 0 < if count = 1 then 1 else i - start
      split <;> omega
    · show (if count = 1 then 1 else i - start) ≤ _
      rw [List.append_nil]
      split <;> omega
    · rw [List.append_nil]
      exact hhead
  | cons k rest ih =>
    intro cur i start first p count state hlen hhead hp hmax hsort
    have hpos : 0 < cur.length := List.length_pos_of_mem hp
    have hpk : p ≤ k := (List.pairwise_append.mp hsort).2.2 p hp k (by simp)
    have hheadk : (cur ++ [k]).head? = some first := by
      rw [List.head?_append, hhead]
      rfl
    rw [segmentLoop]
    split
    · next he =>
      rw [List.append_cons] at hsort ⊢
      refine ih (by simp; omega) hheadk (by simp [hp]) ?_ hsort
      intro q hq
      rcases List.mem_append.mp hq with hq | hq
      · exact hmax q hq
      · rw [List.mem_singleton.mp hq, he]
    · next hne =>
      split
      · rw [List.append_cons] at hsort ⊢
        refine ih (by simp; omega) hheadk (by simp) ?_ hsort
        intro q hq
        rcases List.mem_append.mp hq with hq | hq
        · exact le_trans (hmax q hq) hpk
        · rw [List.mem_singleton.mp hq]
      -- model に入らない鍵が来たので、ここで segment を閉じる
      · have hnum : (f.segment state first (i - start)).number = cur.length := hlen.symm
        have hrest : (k :: rest).Pairwise (· ≤ ·) := (List.pairwise_append.mp hsort).2.1
        refine ⟨by omega, by rw [hnum]; simp, ?_, ?_, ?_⟩
        · rw [List.head?_append, hhead]
          rfl
        · intro q hq s hs
          rw [hnum, List.take_left] at hq
          have hks : k ≤ s.firstKey := le_firstKey_segmentLoop (le_refl k) hrest s hs
          exact lt_of_le_of_lt (hmax q hq)
            (lt_of_lt_of_le (lt_of_le_of_ne hpk (fun h => hne h.symm)) hks)
        · rw [hnum, List.drop_left]
          show Covers _ ([k] ++ rest)
          exact ih (by simp) rfl (by simp) (by simp) hrest

/-- 鍵に重なりが無ければ `points_in_hull` は読んだ鍵の数に等しく、切り残しは無い。 -/
theorem sum_number_segmentLoop {rest : List Key} :
    ∀ {i start : Nat} {first p : Key} {count : Nat} {state : f.State},
      start + count = i → (p :: rest).Pairwise (· < ·) →
      ((segmentLoop f epsilon rest i start first p count state).map (·.number)).sum =
        count + rest.length := by
  induction rest with
  | nil =>
    intro i start first p count state hc _
    simp only [segmentLoop, Fitter.segment, List.map_cons, List.map_nil, List.sum_cons,
      List.sum_nil, List.length_nil]
    split <;> omega
  | cons k rest ih =>
    intro i start first p count state hc hsort
    obtain ⟨hp, hrest⟩ := List.pairwise_cons.mp hsort
    have hne : k ≠ p := (hp k (by simp)).ne'
    rw [segmentLoop, if_neg hne, List.length_cons]
    split
    · rw [ih (by omega) hrest]
      omega
    · rw [List.map_cons, List.sum_cons, ih rfl hrest]
      show i - start + _ = _
      omega

/-- 閉じた区分は二点以上を含む。一点だけの区分は次の点を必ず受け入れるからである。 -/
theorem length_segmentLoop_le {rest : List Key} :
    ∀ {i start : Nat} {first p : Key} {count : Nat} {state : f.State},
      0 < count → start + count ≤ i →
      2 * (segmentLoop f epsilon rest i start first p count state).length ≤
        i - start + rest.length + 1 := by
  induction rest with
  | nil =>
    intro i start first p count state hpos hc
    simp only [segmentLoop, List.length_singleton, List.length_nil]
    omega
  | cons k rest ih =>
    intro i start first p count state hpos hc
    rw [segmentLoop, List.length_cons]
    split
    · have h : 2 * (segmentLoop f epsilon rest (i + 1) start first p count state).length ≤
          i + 1 - start + rest.length + 1 := ih hpos (by omega)
      omega
    · split
      · next state' _ =>
        have h : 2 * (segmentLoop f epsilon rest (i + 1) start first k (count + 1) state').length ≤
            i + 1 - start + rest.length + 1 := ih (by omega) (by omega)
        omega
      · next hadd =>
        have hcount : count ≠ 1 := by
          intro h1
          simp [Fitter.addPoint, h1] at hadd
        have h : 2 * (segmentLoop f epsilon rest (i + 1) i k k 1 (f.start epsilon k i)).length ≤
            i + 1 - i + rest.length + 1 := ih (by omega) (by omega)
        rw [List.length_cons]
        omega

theorem segmentLoop_ne_nil {rest : List Key} :
    ∀ {i start : Nat} {first p : Key} {count : Nat} {state : f.State},
      segmentLoop f epsilon rest i start first p count state ≠ [] := by
  induction rest with
  | nil => simp [segmentLoop]
  | cons k rest ih =>
    intro i start first p count state
    rw [segmentLoop]
    split
    · exact ih
    · split
      · exact ih
      · simp

end Loop

/-! ## `make_segmentation` -/

variable (f : Fitter D) (epsilon : Nat) {keys : List Key}

theorem covers_makeSegmentation (h : keys.Pairwise (· ≤ ·)) :
    Covers (makeSegmentation f epsilon keys) keys := by
  cases keys with
  | nil => trivial
  | cons k rest =>
    show Covers _ ([k] ++ rest)
    exact covers_segmentLoop rfl rfl (by simp) (by simp) h

theorem sum_number_makeSegmentation (h : keys.Pairwise (· < ·)) :
    ((makeSegmentation f epsilon keys).map (·.number)).sum = keys.length := by
  cases keys with
  | nil => rfl
  | cons k rest =>
    rw [makeSegmentation, sum_number_segmentLoop (by rfl) h, List.length_cons]
    omega

theorem length_makeSegmentation_le :
    2 * (makeSegmentation f epsilon keys).length ≤ keys.length + 1 := by
  cases keys with
  | nil => simp [makeSegmentation]
  | cons k rest =>
    have h : 2 * (segmentLoop f epsilon rest 1 0 k k 1 (f.start epsilon k 0)).length ≤
        1 - 0 + rest.length + 1 := length_segmentLoop_le (by omega) (by omega)
    rw [makeSegmentation, List.length_cons]
    omega

theorem makeSegmentation_eq_nil : makeSegmentation f epsilon keys = [] ↔ keys = [] := by
  cases keys with
  | nil => simp [makeSegmentation]
  | cons k rest => simp [makeSegmentation, segmentLoop_ne_nil]

/-- 最初の区分は、列の先頭の鍵から始まる。 -/
theorem head?_makeSegmentation (h : keys.Pairwise (· < ·)) :
    ((makeSegmentation f epsilon keys).map (·.firstKey)).head? = keys.head? := by
  have hcov := covers_makeSegmentation f epsilon (h.imp fun hab => le_of_lt hab)
  cases hsegs : makeSegmentation f epsilon keys with
  | nil =>
    rw [(makeSegmentation_eq_nil f epsilon).mp hsegs]
    rfl
  | cons seg segs =>
    rw [hsegs] at hcov
    exact hcov.2.2.1.symm

end Plin
