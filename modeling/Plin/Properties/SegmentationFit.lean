import Plin.Infra.Greedy
import Plin.Properties.Hull
import Plin.Properties.Segmentation

/-!
# 区分の誤差と個数

丸めの無い計算では、`make_segmentation` の区分は鍵の位置を ε 以内で当てる
（`makeSegmentation_describes`）。そのような切り分けの中で、**区分の数は最小である**
（`length_makeSegmentation_optimal`）。

点を断るのは、その点までの帯を通る一次式が無いときに限る（`Tracks.addPoint_none`）。帯を通れることは連続する
部分列に遺伝するので、左から読めるだけ読む loop は貪欲な切り分け（`Greedy`）になり、個数の最小性は
貪欲な切り分けの性質から出る。
-/

namespace Plin

open Infra

/-- 位置を付けた鍵。 -/
abbrev Sample := Key × Nat

/-- 全ての鍵の位置を ε 以内で返す一次式がある。 -/
def Fitted (epsilon : Nat) (run : List Sample) : Prop :=
  ∃ f : Line ℚ, ∀ e ∈ run, |f.eval e.1.toRat - e.2| ≤ epsilon

theorem Fitted.of_infix {epsilon : Nat} {run run' : List Sample} (h : Fitted epsilon run)
    (hsub : run' <:+: run) : Fitted epsilon run' := by
  obtain ⟨f, hf⟩ := h
  exact ⟨f, fun e he => hf e (hsub.subset he)⟩

/-- 区分が鍵の並びを表す。 -/
structure Describes (epsilon : Nat) (seg : Segment ℚ) (run : List Sample) : Prop where
  number : seg.number = run.length
  first : run.head?.map Prod.fst = some seg.firstKey
  upward : 0 ≤ seg.slope
  near : ∀ e ∈ run,
    |seg.slope * (e.1.toRat - seg.firstKey.toRat) + seg.intercept - e.2| ≤ epsilon

theorem Describes.fitted {epsilon : Nat} {seg : Segment ℚ} {run : List Sample}
    (h : Describes epsilon seg run) : Fitted epsilon run := by
  refine ⟨⟨seg.slope, seg.intercept - seg.slope * seg.firstKey.toRat⟩, fun e he => ?_⟩
  have hnear := h.near e he
  rw [mul_sub] at hnear
  rwa [Line.eval, ← add_sub_assoc, add_sub_right_comm]

namespace Hull

open Point

/-! ## 帯 -/

section Band

variable {epsilon : Nat} {run : List Sample} {e : Sample} {f : Line ℚ}

/-- 床の点。 -/
def floors (epsilon : Nat) (run : List Sample) : Set Point :=
  {p | ∃ e ∈ run, p = below epsilon e.1 e.2}

/-- 天井の点。 -/
def ceilings (epsilon : Nat) (run : List Sample) : Set Point :=
  {p | ∃ e ∈ run, p = above epsilon e.1 e.2}

theorem floors_concat : floors epsilon (run ++ [e]) =
    insert (below epsilon e.1 e.2) (floors epsilon run) := by
  ext p
  simp only [floors, Set.mem_ofPred_eq, List.mem_append, List.mem_singleton, Set.mem_insert_iff,
    or_and_right, exists_or, exists_eq_left]
  exact or_comm

theorem ceilings_concat : ceilings epsilon (run ++ [e]) =
    insert (above epsilon e.1 e.2) (ceilings epsilon run) := by
  ext p
  simp only [ceilings, Set.mem_ofPred_eq, List.mem_append, List.mem_singleton, Set.mem_insert_iff,
    or_and_right, exists_or, exists_eq_left]
  exact or_comm

/-- 帯を通ることは、誤差が ε 以内であることである。 -/
theorem between_iff : Between (floors epsilon run) (ceilings epsilon run) f ↔
    ∀ e ∈ run, |f.eval e.1.toUnits - e.2| ≤ epsilon := by
  have hfloor (e : Sample) : 0 ≤ f.gap (below epsilon e.1 e.2).pt ↔
      -(epsilon : ℚ) ≤ f.eval e.1.toUnits - e.2 := by
    rw [Line.gap, pt_fst, pt_snd, below]
    push_cast
    constructor <;> intro h <;> linarith
  have hceil (e : Sample) : f.gap (above epsilon e.1 e.2).pt ≤ 0 ↔
      f.eval e.1.toUnits - e.2 ≤ (epsilon : ℚ) := by
    rw [Line.gap, pt_fst, pt_snd, above]
    push_cast
    constructor <;> intro h <;> linarith
  constructor
  · intro h e he
    exact abs_le.mpr ⟨(hfloor e).mp (h.floor _ ⟨e, he, rfl⟩),
      (hceil e).mp (h.ceiling _ ⟨e, he, rfl⟩)⟩
  · intro h
    constructor
    · rintro p ⟨e, he, rfl⟩
      exact (hfloor e).mpr (abs_le.mp (h e he)).1
    · rintro p ⟨e, he, rfl⟩
      exact (hceil e).mpr (abs_le.mp (h e he)).2

/-- 鍵の単位を変えても、帯を通る一次式の有無は変わらない。 -/
theorem fitted_iff :
    Fitted epsilon run ↔ ∃ f, Between (floors epsilon run) (ceilings epsilon run) f := by
  have hpow : (2 : ℚ) ^ 1074 ≠ 0 := pow_ne_zero _ two_ne_zero
  constructor
  · rintro ⟨f, hf⟩
    refine ⟨⟨f.slope / 2 ^ 1074, f.intercept⟩, between_iff.mpr fun e he => ?_⟩
    have h := hf e he
    rw [Line.eval, Key.toRat, ← mul_div_assoc] at h
    rwa [Line.eval, div_mul_eq_mul_div]
  · rintro ⟨f, hf⟩
    refine ⟨⟨f.slope * 2 ^ 1074, f.intercept⟩, fun e he => ?_⟩
    have h := between_iff.mp hf e he
    rw [Line.eval] at h
    rwa [Line.eval, Key.toRat, mul_assoc, mul_div_cancel₀ _ hpow]

end Band

/-! ## 傾き -/

/-- 位置が増えていく鍵の帯に下り坂の一次式が通れば、同じだけ急な上り坂の一次式も通る。 -/
theorem Between.mirror {run : List Sample} {epsilon : Nat} {f : Line ℚ}
    (hf : Between (floors epsilon run) (ceilings epsilon run) f) (hdown : f.slope ≤ 0)
    (hrise : run.Pairwise fun a b => a.1 < b.1 ∧ a.2 < b.2) (hne : run ≠ []) :
    ∃ g : Line ℚ, Between (floors epsilon run) (ceilings epsilon run) g ∧ g.slope = -f.slope := by
  have hmono {a b : Sample} (h : a.1 < b.1 ∧ a.2 < b.2) :
      (a.1.toUnits : ℚ) ≤ b.1.toUnits ∧ (a.2 : ℚ) ≤ b.2 :=
    ⟨by exact_mod_cast (Key.toUnits_strictMono h.1).le, by exact_mod_cast h.2.le⟩
  obtain ⟨first, rest, hfirst⟩ := List.exists_cons_of_ne_nil hne
  obtain ⟨init, last, hlast⟩ := run.eq_nil_or_concat'.resolve_left hne
  have hleft (e : Sample) (he : e ∈ run) :
      (first.1.toUnits : ℚ) ≤ e.1.toUnits ∧ (first.2 : ℚ) ≤ e.2 := by
    rw [hfirst] at he hrise
    rcases List.mem_cons.mp he with rfl | he
    · exact ⟨le_rfl, le_rfl⟩
    · exact hmono ((List.pairwise_cons.mp hrise).1 e he)
  have hright (e : Sample) (he : e ∈ run) :
      (e.1.toUnits : ℚ) ≤ last.1.toUnits ∧ (e.2 : ℚ) ≤ last.2 := by
    rw [hlast] at he hrise
    rcases List.mem_append.mp he with he | he
    · exact hmono ((List.pairwise_append.mp hrise).2.2 e he last (by simp))
    · rw [List.mem_singleton.mp he]
      exact ⟨le_rfl, le_rfl⟩
  have hbound := between_iff.mp hf
  obtain ⟨-, hfirst'⟩ := abs_le.mp (hbound first (by rw [hfirst]; simp))
  obtain ⟨hlast', -⟩ := abs_le.mp (hbound last (by rw [hlast]; simp))
  -- 最後の床の高さから始めて、最初の天井の高さまで上る
  refine ⟨⟨-f.slope, f.slope * first.1.toUnits + (last.2 - epsilon)⟩,
    between_iff.mpr fun e he => ?_, rfl⟩
  obtain ⟨hx, hy⟩ := hleft e he
  obtain ⟨hx', hy'⟩ := hright e he
  have hm := mul_le_mul_of_nonpos_left hx hdown
  have hm' := mul_le_mul_of_nonpos_left hx' hdown
  rw [Line.eval] at hfirst' hlast'
  rw [Line.eval, abs_le]
  constructor <;> dsimp only <;> linarith

/-- 最も緩い直線と最も急な直線の傾きの平均は、負にならない。 -/
theorem Fits.slope_nonneg {h : Hull} {run : List Sample} {epsilon : Nat}
    (hf : h.Fits (floors epsilon run) (ceilings epsilon run))
    (hrise : run.Pairwise fun a b => a.1 < b.1 ∧ a.2 < b.2) (hne : run ≠ []) :
    0 ≤ ((Line.through h.rect0.pt h.rect2.pt).slope +
      (Line.through h.rect1.pt h.rect3.pt).slope) / 2 := by
  -- 帯を通る一次式の傾きは、最も急な直線の傾きを超えない
  have hsteep {g : Line ℚ} (hg : Between (floors epsilon run) (ceilings epsilon run) g) :
      g.slope ≤ (Line.through h.rect1.pt h.rect3.pt).slope := by
    have hlt := pt_lt.mpr hf.steep.lt
    refine Line.slope_le hlt ?_ ?_
    · rw [Line.eval_through_left]
      exact sub_nonneg.mp (hg.floor _ (hf.steep.sub _ hf.steep.mem_head))
    · rw [Line.eval_through_right hlt.ne]
      exact sub_nonpos.mp (hg.ceiling _ hf.steep.mem)
  have hflat := hsteep hf.between_flat
  rcases le_total 0 (Line.through h.rect0.pt h.rect2.pt).slope with hup | hdown
  · linarith
  · obtain ⟨g, hg, hslope⟩ := hf.between_flat.mirror hdown hrise hne
    have := hsteep hg
    linarith

/-! ## 読みかけの区分 -/

/-- 読みかけの区分の鍵が `run` であるときの状態。 -/
structure Tracks (epsilon : Nat) (run : List Sample) (h : Hull) : Prop where
  epsilon_eq : h.epsilon = epsilon
  rising : run.Pairwise fun a b => a.1 < b.1 ∧ a.2 < b.2
  one : ∀ e, run = [e] → h = Hull.start epsilon e.1 e.2
  many : 2 ≤ run.length → h.Fits (floors epsilon run) (ceilings epsilon run)

namespace Tracks

variable {epsilon : Nat} {run : List Sample} {h h' : Hull} {k : Key} {y : Nat}

theorem start (k : Key) (y : Nat) : Tracks epsilon [(k, y)] (Hull.start epsilon k y) where
  epsilon_eq := rfl
  rising := List.pairwise_singleton ..
  one e he := by rw [← List.singleton_inj.mp he]
  many hlen := absurd hlen (by simp)

theorem floors_lt (hk : ∀ e ∈ run, e.1 < k) : ∀ a ∈ floors epsilon run, a.x < k.toUnits := by
  rintro _ ⟨e, he, rfl⟩
  exact Key.toUnits_strictMono (hk e he)

theorem ceilings_lt (hk : ∀ e ∈ run, e.1 < k) : ∀ c ∈ ceilings epsilon run, c.x < k.toUnits := by
  rintro _ ⟨e, he, rfl⟩
  exact Key.toUnits_strictMono (hk e he)

/-- 受け入れた鍵は、区分に加わる。 -/
theorem addPoint_some (ht : Tracks epsilon run h) (hpos : 0 < epsilon) (hne : run ≠ [])
    (hk : ∀ e ∈ run, e.1 < k) (hy : ∀ e ∈ run, e.2 < y)
    (ha : exactFitter.addPoint run.length h k y = some h') :
    Tracks epsilon (run ++ [(k, y)]) h' := by
  have hlen := List.length_pos_iff.mpr hne
  have hrise : (run ++ [(k, y)]).Pairwise fun a b => a.1 < b.1 ∧ a.2 < b.2 := by
    refine List.pairwise_append.mpr ⟨ht.rising, List.pairwise_singleton .., fun e he e' he' => ?_⟩
    rw [List.mem_singleton.mp he']
    exact ⟨hk e he, hy e he⟩
  unfold Fitter.addPoint at ha
  by_cases hone : run.length = 1
  · obtain ⟨e, rfl⟩ := List.length_eq_one_iff.mp hone
    rw [if_pos hone] at ha
    obtain rfl := Option.some.inj ha
    rw [ht.one e rfl]
    refine ⟨rfl, hrise, fun e' he' => by simp at he', fun _ => ?_⟩
    have hfits := @fits_second epsilon e.1 k e.2 y (hk e (by simp))
    rw [floors_concat, ceilings_concat]
    have hfloor : floors epsilon [e] = {below epsilon e.1 e.2} := by
      ext p
      simp [floors]
    have hceil : ceilings epsilon [e] = {above epsilon e.1 e.2} := by
      ext p
      simp [ceilings]
    rw [hfloor, hceil]
    exact hfits
  · rw [if_neg hone] at ha
    have hpos' : 0 < h.epsilon := by
      rw [ht.epsilon_eq]
      exact_mod_cast hpos
    obtain ⟨hfits, heps⟩ := (ht.many (by omega)).extend_some hpos' (floors_lt hk)
      (ceilings_lt hk) ha
    refine ⟨heps.trans ht.epsilon_eq, hrise, fun e he => ?_, fun _ => ?_⟩
    · have hone' := congrArg List.length he
      rw [List.length_append, List.length_singleton, List.length_singleton] at hone'
      omega
    · rw [floors_concat, ceilings_concat]
      rwa [ht.epsilon_eq] at hfits

/-- **断った鍵を足した区分は、どの一次式でも表せない。** -/
theorem addPoint_none (ht : Tracks epsilon run h) (hne : run ≠ []) (hk : ∀ e ∈ run, e.1 < k)
    (ha : exactFitter.addPoint run.length h k y = none) : ¬Fitted epsilon (run ++ [(k, y)]) := by
  have hlen := List.length_pos_iff.mpr hne
  unfold Fitter.addPoint at ha
  split at ha
  · cases ha
  · rw [fitted_iff, floors_concat, ceilings_concat]
    rintro ⟨f, hf⟩
    have hnone := (ht.many (by omega)).extend_none (floors_lt hk) (ceilings_lt hk) ha f
    rw [ht.epsilon_eq] at hnone
    exact hnone hf

/-- **閉じた区分は、足した鍵を表す。** -/
theorem describes (ht : Tracks epsilon run h) {first : Key}
    (hfirst : run.head?.map Prod.fst = some first) :
    Describes epsilon (exactFitter.segment h first run.length) run := by
  by_cases hone : run.length = 1
  · obtain ⟨e, rfl⟩ := List.length_eq_one_iff.mp hone
    have hline : h.line first = (0, (e.2 : ℚ)) := by
      have hpoint : (Hull.start epsilon e.1 e.2).onePoint = true := decide_eq_true ⟨rfl, rfl⟩
      rw [ht.one e rfl, Hull.line, if_pos hpoint]
      refine Prod.ext rfl ?_
      show ((((e.2 : Int) + epsilon : Int) : ℚ) + ((e.2 : Int) - epsilon : Int)) / 2 = e.2
      push_cast
      ring
    refine ⟨rfl, hfirst, ?_, fun e' he => ?_⟩
    · show 0 ≤ (h.line first).1
      rw [hline]
    · obtain rfl := List.mem_singleton.mp he
      show |(h.line first).1 * (e'.1.toRat - first.toRat) + (h.line first).2 - e'.2| ≤ epsilon
      rw [hline]
      simp
  · have hne : run ≠ [] := by
      rintro rfl
      cases hfirst
    have hlen := List.length_pos_iff.mpr hne
    have hfits := ht.many (by omega)
    refine ⟨rfl, hfirst, ?_, fun e he => ?_⟩
    · show 0 ≤ (h.line first).1
      rw [hfits.line_slope]
      exact mul_nonneg (hfits.slope_nonneg ht.rising hne) (by positivity)
    · obtain ⟨f, hb, hf⟩ := hfits.line first
      show |(h.line first).1 * (e.1.toRat - first.toRat) + (h.line first).2 - e.2| ≤ epsilon
      rw [hf]
      exact between_iff.mp hb e he

end Tracks

end Hull

/-! ## loop -/

section Loop

variable {epsilon : Nat}

/-- 読みかけの区分 `run` の後を読む loop は、帯を通れなくなる所でだけ切る。 -/
theorem greedy_segmentLoop (hpos : 0 < epsilon) {rest : List Key} :
    ∀ {run : List Sample} {i start : Nat} {first p : Key} {h : exactFitter.State}, run ≠ [] →
      i = start + run.length → run.head?.map Prod.fst = some first →
      (∀ e ∈ run, e.1 ≤ p ∧ e.2 < i) → (p :: rest).Pairwise (· < ·) → Hull.Tracks epsilon run h →
      ∃ runs, Greedy (Fitted epsilon) runs (run ++ rest.zipIdx i) ∧
        List.Forall₂ (Describes epsilon)
          (segmentLoop exactFitter epsilon rest i start first p run.length h) runs := by
  induction rest with
  | nil =>
    intro run i start first p h hne hi hfirst _ _ ht
    refine ⟨[run], ?_, ?_⟩
    · rw [List.zipIdx_nil, List.append_nil]
      exact .last hne (ht.describes hfirst).fitted
    · have hnum : (if run.length = 1 then 1 else i - start) = run.length := by
        split <;> omega
      rw [segmentLoop, hnum]
      exact .cons (ht.describes hfirst) .nil
  | cons k rest ih =>
    intro run i start first p h hne hi hfirst hle hsorted ht
    obtain ⟨hp, hrest⟩ := List.pairwise_cons.mp hsorted
    have hpk := hp k List.mem_cons_self
    have hk (e : Sample) (he : e ∈ run) : e.1 < k := (hle e he).1.trans_lt hpk
    rw [segmentLoop, if_neg hpk.ne', List.zipIdx_cons]
    cases ha : exactFitter.addPoint run.length h k i with
    | some h' =>
      have ht' := ht.addPoint_some hpos hne hk (fun e he => (hle e he).2) ha
      have hfirst' : (run ++ [(k, i)]).head?.map Prod.fst = some first := by
        obtain ⟨e, run, rfl⟩ := List.exists_cons_of_ne_nil hne
        exact hfirst
      have hle' (e : Sample) (he : e ∈ run ++ [(k, i)]) : e.1 ≤ k ∧ e.2 < i + 1 := by
        rcases List.mem_append.mp he with he | he
        · exact ⟨(hk e he).le, (hle e he).2.trans (Nat.lt_succ_self i)⟩
        · rw [List.mem_singleton.mp he]
          exact ⟨le_rfl, Nat.lt_succ_self i⟩
      have hlen : (run ++ [(k, i)]).length = run.length + 1 := List.length_append ..
      obtain ⟨runs, hg, hd⟩ := @ih (run ++ [(k, i)]) (i + 1) start first k h' (by simp)
        (by rw [hlen]; omega) hfirst' hle' hrest ht'
      rw [hlen] at hd
      rw [List.append_cons]
      exact ⟨runs, hg, hd⟩
    | none =>
      obtain ⟨runs, hg, hd⟩ := @ih [(k, i)] (i + 1) i k k (exactFitter.start epsilon k i) (by simp)
        rfl rfl (by simp) hrest (Hull.Tracks.start k i)
      have hstop := ht.addPoint_none hne hk ha
      refine ⟨run :: runs, .cut hne (ht.describes hfirst).fitted hstop hg, ?_⟩
      have hnum : i - start = run.length := by omega
      rw [hnum]
      exact .cons (ht.describes hfirst) hd

/--
`make_segmentation` は、鍵の列を貪欲に切り分けて、その一つ一つを区分で表す。
-/
theorem exists_greedy (hpos : 0 < epsilon) {keys : List Key} (hsorted : keys.Pairwise (· < ·)) :
    ∃ runs, Greedy (Fitted epsilon) runs keys.zipIdx ∧
      List.Forall₂ (Describes epsilon) (makeSegmentation exactFitter epsilon keys) runs := by
  cases keys with
  | nil => exact ⟨[], .nil, .nil⟩
  | cons k rest =>
    exact @greedy_segmentLoop _ hpos rest [(k, 0)] 1 0 k k (exactFitter.start epsilon k 0) (by simp)
      rfl rfl (by simp) hsorted (Hull.Tracks.start k 0)

/-- 一つの一次式で表せる鍵の列は、一つの区分になる。 -/
theorem makeSegmentation_of_fitted (hpos : 0 < epsilon) {keys : List Key}
    (hsorted : keys.Pairwise (· < ·)) (hne : keys ≠ []) (h : Fitted epsilon keys.zipIdx) :
    ∃ seg, makeSegmentation exactFitter epsilon keys = [seg] ∧
      Describes epsilon seg keys.zipIdx := by
  obtain ⟨runs, hg, hd⟩ := exists_greedy hpos hsorted
  obtain rfl := hg.eq_of_ok Fitted.of_infix h (mt List.zipIdx_eq_nil_iff.mp hne)
  obtain ⟨seg, segs, hseg, hrest, heq⟩ := List.forall₂_cons_right_iff.mp hd
  obtain rfl := List.forall₂_nil_right_iff.mp hrest
  exact ⟨seg, heq, hseg⟩

/-- **区分は鍵の列を切り分け、その全ての鍵の位置を ε 以内で返す。** -/
theorem makeSegmentation_describes (hpos : 0 < epsilon) {keys : List Key}
    (hsorted : keys.Pairwise (· < ·)) :
    ∃ runs : List (List Sample), runs.flatten = keys.zipIdx ∧ (∀ run ∈ runs, run ≠ []) ∧
      List.Forall₂ (Describes epsilon) (makeSegmentation exactFitter epsilon keys) runs := by
  obtain ⟨runs, hg, hd⟩ := exists_greedy hpos hsorted
  exact ⟨runs, hg.flatten, hg.ne_nil, hd⟩

/-- 鍵 0 の後、鍵 1000 から詰まる列。 -/
def burstKeys : List Key := [0, 1000, 1001, 1002, 1003].map Key.ofNat

/-- ε が 1 なら、五つ目の鍵は同じ区分に入らず、区分は二つになる。 -/
theorem makeSegmentation_describes_two :
    (makeSegmentation exactFitter 1 burstKeys).map (·.number) = [4, 1] ∧
      ∃ runs : List (List Sample), runs.flatten = burstKeys.zipIdx ∧ (∀ run ∈ runs, run ≠ []) ∧
        List.Forall₂ (Describes 1) (makeSegmentation exactFitter 1 burstKeys) runs :=
  ⟨by decide +kernel, @makeSegmentation_describes 1 Nat.one_pos burstKeys (by decide +kernel)⟩

/--
**区分の数は最小である。** 鍵の列をどう切り分けても、各部分が誤差 ε の一次式で表せる限り、部分の数は
区分の数より少なくならない。
-/
theorem length_makeSegmentation_optimal (hpos : 0 < epsilon) {keys : List Key}
    (hsorted : keys.Pairwise (· < ·)) {runs : List (List Sample)}
    (hflat : runs.flatten = keys.zipIdx) (hfit : ∀ run ∈ runs, Fitted epsilon run) :
    (makeSegmentation exactFitter epsilon keys).length ≤ runs.length := by
  obtain ⟨runs', hg, hd⟩ := exists_greedy hpos hsorted
  rw [hd.length_eq]
  exact hg.length_le Fitted.of_infix hflat hfit

/-- 四つ目の鍵までは緩い一次式で表せるので、五つの鍵の区分は二つで足りる。 -/
theorem length_makeSegmentation_optimal_two :
    (makeSegmentation exactFitter 1 burstKeys).length ≤ 2 := by
  refine @length_makeSegmentation_optimal 1 Nat.one_pos burstKeys (by decide +kernel)
    [burstKeys.zipIdx.take 4, burstKeys.zipIdx.drop 4] rfl fun run hrun => ?_
  rcases List.mem_pair.mp hrun with rfl | rfl
  · exact ⟨⟨1 / 1002, 1⟩, by decide +kernel⟩
  · exact ⟨⟨0, 4⟩, by decide +kernel⟩

end Loop

/-! ## 区分と鍵の列 -/

/-- 区分の列が、`pos` 番目から始まる鍵の列を前から順に表す。 -/
def Modelled (epsilon : Nat) : List (Segment ℚ) → List Key → Nat → Prop
  | [], keys, _ => keys = []
  | seg :: segs, keys, pos =>
    Describes epsilon seg ((keys.take seg.number).zipIdx pos) ∧
      Modelled epsilon segs (keys.drop seg.number) (pos + seg.number)

theorem modelled_of_runs {epsilon : Nat} {segs : List (Segment ℚ)} {runs : List (List Sample)}
    (h : List.Forall₂ (Describes epsilon) segs runs) :
    ∀ {keys : List Key} {pos : Nat}, runs.flatten = keys.zipIdx pos →
      Modelled epsilon segs keys pos := by
  induction h with
  | nil =>
    intro keys pos hflat
    exact List.zipIdx_eq_nil_iff.mp hflat.symm
  | @cons seg run segs runs hseg _ ih =>
    intro keys pos hflat
    have hlen : seg.number ≤ keys.length := by
      have := congrArg List.length hflat
      rw [List.flatten_cons, List.length_append, List.length_zipIdx] at this
      have := hseg.number
      omega
    have htake : (keys.take seg.number).length = seg.number := List.length_take_of_le hlen
    -- 先頭の部分は、列の先頭の `number` 個である
    rw [List.flatten_cons, ← List.take_append_drop seg.number keys, List.zipIdx_append,
      htake] at hflat
    obtain ⟨hrun, hrest⟩ := List.append_inj hflat (by rw [List.length_zipIdx, htake, hseg.number])
    exact ⟨hrun ▸ hseg, ih hrest⟩

theorem modelled_makeSegmentation {epsilon : Nat} (hpos : 0 < epsilon) {keys : List Key}
    (hsorted : keys.Pairwise (· < ·)) :
    Modelled epsilon (makeSegmentation exactFitter epsilon keys) keys 0 := by
  obtain ⟨runs, hg, hd⟩ := exists_greedy hpos hsorted
  exact modelled_of_runs hd hg.flatten

end Plin
