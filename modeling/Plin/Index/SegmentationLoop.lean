import Plin.Index.Segmentation

/-!
# `make_segmentation` の添字の loop

`makeSegmentation` は、断られた点から新しい区分を始める所までを一度に書く。source の loop は、断られると
`--i` で同じ点に戻り、次の周で空になった `OptimalPiecewiseLinearModel` に足し直す。ここではその通りに書く。

## 停止性

fuel は使わない。断られた点では `i` は進まないが、model が空になる。空の model は次の点を必ず受け入れるので、
残りの点の二倍に「model が空でない」を足した量が減る。
-/

namespace Plin

variable {D : Type} {f : Fitter D}

/-- `OptimalPiecewiseLinearModel`。`points` は `points_in_hull`、`shape` は `rectangle` と凸包である。 -/
structure FitterModel (f : Fitter D) where
  points : Nat
  firstX : Key
  lastX : Key
  shape : f.State

namespace FitterModel

/-- 一点だけの model。 -/
def single (epsilon : Nat) (x : Key) (y : Nat) : FitterModel f :=
  { points := 1, firstX := x, lastX := x, shape := f.start epsilon x y }

/-- `add_point`。`none` は `Points must be increasing by x.` の例外である。 -/
def addPoint (epsilon : Nat) (m : FitterModel f) (x : Key) (y : Nat) :
    Option (Bool × FitterModel f) :=
  if 0 < m.points ∧ x ≤ m.lastX then none
  else if m.points = 0 then some (true, single epsilon x y)
  else if m.points = 1 then
    some (true, { m with points := 2, lastX := x, shape := f.second m.shape x y })
  else
    match f.extend m.shape x y with
    | none => some (false, { m with points := 0, lastX := x })
    | some shape => some (true, { m with points := m.points + 1, lastX := x, shape := shape })

/-- `get_segment`。一点だけなら `number` は 1 に固定される。 -/
def getSegment (m : FitterModel f) (number : Nat) : Segment D :=
  f.segment m.shape m.firstX (if m.points = 1 then 1 else number)

end FitterModel

/-- loop の局所変数と、`out` に渡した区分。 -/
structure SegmentRun (f : Fitter D) where
  i : Nat
  start : Nat
  c : Nat
  p : Key
  opt : FitterModel f
  out : List (Segment D)

namespace SegmentRun

/-- 鍵 `k` を読む一周。断られると、`--i` と `++i` で `i` は変わらない。 -/
def step (epsilon : Nat) (st : SegmentRun f) (k : Key) : Option (SegmentRun f) :=
  if st.i ≠ st.start ∧ k = st.p then some { st with i := st.i + 1 }
  else
    (st.opt.addPoint epsilon k st.i).map fun r =>
      if r.1 then { st with i := st.i + 1, p := k, opt := r.2 }
      else
        { st with
          start := st.i
          c := st.c + 1
          p := k
          opt := r.2
          out := st.out ++ [r.2.getSegment (st.i - st.start)] }

/-- 残りの点と、空でない model。 -/
def remaining (n : Nat) (st : SegmentRun f) : Nat := 2 * (n - st.i) + min st.opt.points 1

theorem remaining_step {epsilon n : Nat} {st st' : SegmentRun f} {k : Key}
    (h : st.step epsilon k = some st') (hi : st.i < n) : st'.remaining n < st.remaining n := by
  unfold remaining
  unfold step at h
  split at h
  · obtain rfl := Option.some.inj h
    dsimp only
    omega
  · obtain ⟨r, hadd, rfl⟩ := Option.map_eq_some_iff.mp h
    unfold FitterModel.addPoint at hadd
    split_ifs at hadd with hthrow hzero hone
    · obtain rfl := Option.some.inj hadd
      simp only [if_true, FitterModel.single]
      omega
    · obtain rfl := Option.some.inj hadd
      simp only [if_true]
      omega
    · split at hadd
      · obtain rfl := Option.some.inj hadd
        simp only [Bool.false_eq_true, if_false]
        omega
      · obtain rfl := Option.some.inj hadd
        simp only [if_true]
        omega

/-- loop。`none` は例外である。 -/
def run (epsilon : Nat) (keys : List Key) (st : SegmentRun f) : Option (SegmentRun f) :=
  if hi : st.i < keys.length then
    match hstep : st.step epsilon keys[st.i] with
    | none => none
    | some st' => run epsilon keys st'
  else some st
termination_by st.remaining keys.length
decreasing_by exact remaining_step hstep hi

end SegmentRun

/-- `make_segmentation`。返り値と、`out` に渡した区分である。 -/
def makeSegmentationLoop (f : Fitter D) (epsilon : Nat) :
    List Key → Option (Nat × List (Segment D))
  | [] => some (0, [])
  | k :: rest =>
    (SegmentRun.run epsilon (k :: rest)
      { i := 1, start := 0, c := 0, p := k, opt := .single epsilon k 0, out := [] }).map
        fun (st : SegmentRun f) =>
          (st.c + 1, st.out ++ [st.opt.getSegment ((k :: rest).length - st.start)])

end Plin
