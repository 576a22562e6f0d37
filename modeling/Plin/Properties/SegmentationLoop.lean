import Plin.Index.SegmentationLoop
import Plin.Properties.Segmentation

/-!
# 区分の個数と始まり

添字の loop は、鍵が狭義に増えていれば例外を投げずに終わり、`makeSegmentation` と同じ区分を渡す
（`makeSegmentationLoop_eq`）。返り値は区分の個数である。

区分の `number` は正で、和は鍵の個数になる。前の区分の `number` の和が、次の区分の最初の鍵の位置である
（`makeSegmentationLoop_accounting`）。`bulk_load` と `split` と `rebuild_inner_nodes` はこの位置から列を
切り出す。点を受け入れるかどうかの判定（`Fitter`）には依らない。
-/

namespace Plin

variable {D : Type} {f : Fitter D} {epsilon : Nat}

/-! ## loop は `makeSegmentation` の通りに進む -/

namespace SegmentRun

theorem run_done {keys : List Key} {st : SegmentRun f} (h : keys.length ≤ st.i) :
    run epsilon keys st = some st := by
  rw [run, dif_neg (by omega)]

theorem run_step {keys : List Key} {st st' : SegmentRun f} {k : Key} (hget : keys[st.i]? = some k)
    (hstep : st.step epsilon k = some st') : run epsilon keys st = run epsilon keys st' := by
  obtain ⟨hi, rfl⟩ := List.getElem?_eq_some_iff.mp hget
  rw [run, dif_pos hi]
  split
  · next hnone => rw [hstep] at hnone; cases hnone
  · next st'' hsome => rw [Option.some.inj (hsome.symm.trans hstep)]

/-- 点を断られた後の状態。区分を一つ渡し、model は空である。 -/
def rejected (st : SegmentRun f) (k : Key) : SegmentRun f :=
  { i := st.i, start := st.i, c := st.c + 1, p := k
    opt := { st.opt with points := 0, lastX := k }
    out := st.out ++ [f.segment st.opt.shape st.opt.firstX (st.i - st.start)] }

/-- 断られた点から始めた状態。 -/
def restarted (epsilon : Nat) (st : SegmentRun f) (k : Key) : SegmentRun f :=
  { st.rejected k with i := st.i + 1, opt := .single epsilon k st.i }

/-- 空の model は、断られた点をもう一度読むと受け入れる。 -/
theorem step_rejected (st : SegmentRun f) (k : Key) :
    (st.rejected k).step epsilon k = some (st.restarted epsilon k) := by
  have hzero : (st.rejected k).opt.points = 0 := rfl
  rw [step, if_neg (by simp [rejected]), FitterModel.addPoint, if_neg (by omega), if_pos hzero]
  rfl

/-- 前の鍵より大きい鍵を読む一周。断られたときだけ、区分を一つ渡して同じ点に留まる。 -/
theorem step_next {st : SegmentRun f} {k : Key} (hpos : 0 < st.opt.points)
    (hlast : st.opt.lastX = st.p) (hk : st.p < k) :
    (∃ shape, f.addPoint st.opt.points st.opt.shape k st.i = some shape ∧
      st.step epsilon k = some { st with
        i := st.i + 1
        p := k
        opt := { st.opt with points := st.opt.points + 1, lastX := k, shape := shape } }) ∨
    (f.addPoint st.opt.points st.opt.shape k st.i = none ∧
      st.step epsilon k = some (st.rejected k)) := by
  have hskip : ¬ (st.i ≠ st.start ∧ k = st.p) := fun h => hk.ne' h.2
  have hthrow : ¬ (0 < st.opt.points ∧ k ≤ st.opt.lastX) :=
    fun h => not_le_of_gt hk (hlast ▸ h.2)
  rw [step, if_neg hskip, FitterModel.addPoint, if_neg hthrow, if_neg (by omega), Fitter.addPoint]
  by_cases hone : st.opt.points = 1
  · rw [if_pos hone, if_pos hone]
    refine Or.inl ⟨_, rfl, ?_⟩
    rw [Option.map_some, if_pos rfl, hone]
  · rw [if_neg hone, if_neg hone]
    cases hext : f.extend st.opt.shape k st.i with
    | none => exact Or.inr ⟨rfl, rfl⟩
    | some shape => exact Or.inl ⟨shape, rfl, rfl⟩

/-- **残りの鍵が狭義に増えていれば、loop は `segmentLoop` の区分を渡して終わる。** -/
theorem run_eq {keys rest : List Key} {st : SegmentRun f} (hrest : keys.drop st.i = rest)
    (hi : st.i ≤ keys.length) (hpos : 0 < st.opt.points) (hlast : st.opt.lastX = st.p)
    (hsorted : (st.p :: rest).Pairwise (· < ·)) :
    ∃ st', run epsilon keys st = some st' ∧
      st'.out ++ [st'.opt.getSegment (keys.length - st'.start)] =
        st.out ++ segmentLoop f epsilon rest st.i st.start st.opt.firstX st.p st.opt.points
          st.opt.shape ∧
      st'.c + st.out.length = st.c + st'.out.length := by
  induction rest generalizing st with
  | nil =>
    have hlen : keys.length = st.i := Nat.le_antisymm (List.drop_eq_nil_iff.mp hrest) hi
    refine ⟨st, run_done hlen.le, ?_, rfl⟩
    rw [segmentLoop, hlen]
    rfl
  | cons k rest ih =>
    have hget : keys[st.i]? = some k := by rw [← List.head?_drop, hrest, List.head?_cons]
    have hlt := (List.getElem?_eq_some_iff.mp hget).1
    have htail : keys.drop (st.i + 1) = rest := by
      rw [← List.drop_drop, hrest, List.drop_one, List.tail_cons]
    obtain ⟨hhead, hsorted'⟩ := List.pairwise_cons.mp hsorted
    have hk : st.p < k := hhead k List.mem_cons_self
    rw [segmentLoop, if_neg hk.ne']
    rcases @step_next _ f epsilon st k hpos hlast hk with ⟨shape, hadd, hstep⟩ | ⟨hadd, hstep⟩
    · rw [run_step hget hstep, hadd]
      exact ih htail hlt (Nat.succ_pos _) rfl hsorted'
    · -- 断られた点は、次の周で新しい区分の最初の点になる
      obtain ⟨st', hrun, hout, hc⟩ :=
        @ih (st.restarted epsilon k) htail hlt Nat.one_pos rfl hsorted'
      have hgetr : keys[(st.rejected k).i]? = some k := hget
      rw [run_step hget hstep, run_step hgetr (step_rejected st k), hadd]
      refine ⟨st', hrun, ?_, ?_⟩
      · rw [hout]
        exact (List.append_cons ..).symm
      · have hlen : (st.restarted epsilon k).out.length = st.out.length + 1 := List.length_append ..
        have hc' : (st.restarted epsilon k).c = st.c + 1 := rfl
        omega

end SegmentRun

/-- **狭義に増える鍵の列では、添字の loop は終わり、`makeSegmentation` の区分とその個数を返す。** -/
theorem makeSegmentationLoop_eq (f : Fitter D) (epsilon : Nat) {keys : List Key}
    (h : keys.Pairwise (· < ·)) :
    makeSegmentationLoop f epsilon keys =
      some ((makeSegmentation f epsilon keys).length, makeSegmentation f epsilon keys) := by
  cases keys with
  | nil => rfl
  | cons k rest =>
    obtain ⟨st, hrun, hout, hc⟩ := @SegmentRun.run_eq _ f epsilon (k :: rest) rest
      { i := 1, start := 0, c := 0, p := k, opt := .single epsilon k 0, out := [] } rfl
      (by simp) Nat.one_pos rfl h
    have hsegs : st.out ++ [st.opt.getSegment ((k :: rest).length - st.start)] =
        makeSegmentation f epsilon (k :: rest) := hout
    have hcount : st.c + 1 = (makeSegmentation f epsilon (k :: rest)).length := by
      have hc' : st.c + 0 = 0 + st.out.length := hc
      rw [← hsegs, List.length_append, List.length_singleton]
      omega
    rw [makeSegmentationLoop, hrun, Option.map_some, hsegs, hcount]

/-! ## 区分の始まり -/

/-- 切り分けた区分の始まりは、前の区分の `number` の和である。 -/
theorem Covers.getElem?_firstKey {segs : List (Segment D)} {keys : List Key}
    (h : Covers segs keys) :
    ∀ (j : Nat) (s : Segment D), segs[j]? = some s →
      keys[((segs.take j).map Segment.number).sum]? = some s.firstKey := by
  induction segs generalizing keys with
  | nil => simp
  | cons seg segs ih =>
    obtain ⟨_, _, hhead, _, hrest⟩ := h
    intro j s hs
    cases j with
    | zero =>
      obtain rfl : seg = s := by simpa using hs
      rw [← hhead, List.head?_eq_getElem?]
      rfl
    | succ j =>
      rw [List.take_succ_cons, List.map_cons, List.sum_cons, ← List.getElem?_drop]
      exact ih hrest j s (by simpa using hs)

theorem Covers.number_pos {segs : List (Segment D)} {keys : List Key} (h : Covers segs keys) :
    ∀ s ∈ segs, 1 ≤ s.number := by
  induction segs generalizing keys with
  | nil => simp
  | cons seg segs ih =>
    obtain ⟨hpos, _, _, _, hrest⟩ := h
    exact List.forall_mem_cons.mpr ⟨hpos, ih hrest⟩

/--
**区分の個数と始まり。**

狭義に増える一つ以上の鍵に対して loop は終わり、返り値は渡した区分の個数である。`number` は正で、和は鍵の
個数になり、`j` 番目の区分の `first_key` は、前の `number` の和の位置の鍵である。
-/
theorem makeSegmentationLoop_accounting (f : Fitter D) (epsilon : Nat) {keys : List Key}
    (hne : keys ≠ []) (h : keys.Pairwise (· < ·)) :
    ∃ segs : List (Segment D), makeSegmentationLoop f epsilon keys = some (segs.length, segs) ∧
      1 ≤ segs.length ∧ (∀ s ∈ segs, 1 ≤ s.number) ∧
      (segs.map Segment.number).sum = keys.length ∧
      ∀ (j : Nat) (s : Segment D), segs[j]? = some s →
        keys[((segs.take j).map Segment.number).sum]? = some s.firstKey := by
  have hcovers := covers_makeSegmentation f epsilon (h.imp le_of_lt)
  refine ⟨_, makeSegmentationLoop_eq f epsilon h, ?_, hcovers.number_pos,
    sum_number_makeSegmentation f epsilon h, hcovers.getElem?_firstKey⟩
  exact List.length_pos_iff.mpr (mt (makeSegmentation_eq_nil f epsilon).mp hne)

theorem makeSegmentationLoop_accounting_three :
    ∃ segs : List (Segment ℚ),
      makeSegmentationLoop exactFitter 0 [Key.ofNat 1, Key.ofNat 2, Key.ofNat 4] =
        some (segs.length, segs) ∧ (segs.map Segment.number).sum = 3 := by
  obtain ⟨segs, hrun, -, -, hsum, -⟩ := makeSegmentationLoop_accounting exactFitter 0
    (show [Key.ofNat 1, Key.ofNat 2, Key.ofNat 4] ≠ [] by simp) (by decide +kernel)
  exact ⟨segs, hrun, hsum⟩

end Plin
