import Plin.Index.Exact

/-!
# 鍵の列の区分（`piecewise_linear_model.h`）

`make_segmentation` は鍵の列を左から読み、一次式で表せる範囲を一つの区分にまとめていく。
点を区分に足せるかどうかを決める幾何の計算（`OptimalPiecewiseLinearModel::add_point` の三点目
以降）は `long double` で行われるので、`Fitter` に抽象する。**最初の二点は必ず受け入れられる**
ことと、三点目以降で断られると区分が閉じることは source の制御構造であり、loop の側に書く。

丸めの無い計算による `Fitter` の実現が `exactFitter` である。
-/

namespace Plin

/-- `EPSILON_LEAF_NODE`。 -/
def epsilonLeafNode : Nat := 256

/-- `EPSILON_INNER_NODE`。 -/
def epsilonInnerNode : Nat := 8

/-- `Segment`。 -/
structure Segment (D : Type) where
  firstKey : Key
  slope : D
  intercept : D
  number : Nat
deriving DecidableEq

/-- `OptimalPiecewiseLinearModel` の幾何の部分。 -/
structure Fitter (D : Type) where
  State : Type
  /-- 最初の点を置いた状態。 -/
  start : Nat → Key → Nat → State
  /-- 二番目の点を足す。 -/
  second : State → Key → Nat → State
  /-- 三番目以降の点を足す。帯からはみ出せば `none`。 -/
  extend : State → Key → Nat → Option State
  /-- `get_floating_point_segment(first_key)`。 -/
  line : State → Key → D × D

namespace Fitter

variable {D : Type}

/-- `add_point`。`count` は `points_in_hull` である。 -/
def addPoint (f : Fitter D) (count : Nat) (state : f.State) (x : Key) (y : Nat) :
    Option f.State :=
  if count = 1 then some (f.second state x y) else f.extend state x y

/-- 区分を一つ閉じる。 -/
def segment (f : Fitter D) (state : f.State) (first : Key) (number : Nat) : Segment D :=
  { firstKey := first, slope := (f.line state first).1, intercept := (f.line state first).2
    number := number }

end Fitter

variable {D : Type}

/--
`make_segmentation` の loop。

`i` は次に読む位置、`start` は区分の始まり、`p` は最後に足した鍵、`count` は `points_in_hull` である。
断られた点では区分を閉じ、`--i` によって同じ点から新しい区分を始める。最後の区分だけは、
点が一つなら `number` が 1 に固定される（`get_segment`）。
-/
def segmentLoop (f : Fitter D) (epsilon : Nat) :
    List Key → (i start : Nat) → (first p : Key) → (count : Nat) → f.State → List (Segment D)
  | [], i, start, first, _, count, state =>
    [f.segment state first (if count = 1 then 1 else i - start)]
  | k :: rest, i, start, first, p, count, state =>
    if k = p then segmentLoop f epsilon rest (i + 1) start first p count state
    else
      match f.addPoint count state k i with
      | some state' => segmentLoop f epsilon rest (i + 1) start first k (count + 1) state'
      | none =>
        f.segment state first (i - start) ::
          segmentLoop f epsilon rest (i + 1) i k k 1 (f.start epsilon k i)

/-- `make_segmentation`。 -/
def makeSegmentation (f : Fitter D) (epsilon : Nat) : List Key → List (Segment D)
  | [] => []
  | k :: rest => segmentLoop f epsilon rest 1 0 k k 1 (f.start epsilon k 0)

/-! ## 丸めの無い幾何 -/

/-- 平面の点。`x` は最小の非正規化数を単位にした鍵、`y` は位置である。 -/
structure Point where
  x : Int
  y : Int
deriving DecidableEq

/-- 傾き。`dx` と `dy` の組で持つ。 -/
structure Slope where
  dx : Int
  dy : Int
deriving DecidableEq

namespace Slope

/-- `operator<`。 -/
def lt (a b : Slope) : Bool := a.dy * b.dx < a.dx * b.dy

/-- `long double` への変換。単位を鍵の値に戻す。 -/
def toRat (a : Slope) : ℚ := a.dy * 2 ^ 1074 / a.dx

end Slope

namespace Point

/-- `operator-`。 -/
def sub (a b : Point) : Slope := ⟨a.x - b.x, a.y - b.y⟩

/-- `cross`。 -/
def cross (o a b : Point) : Int := (a.sub o).dx * (b.sub o).dy - (a.sub o).dy * (b.sub o).dx

end Point

/-- `OptimalPiecewiseLinearModel` の状態。`lower` と `upper` は ε をずらした後の点を持つ。 -/
structure Hull where
  epsilon : Int
  lower : List Point
  upper : List Point
  lowerStart : Nat
  upperStart : Nat
  rect0 : Point
  rect1 : Point
  rect2 : Point
  rect3 : Point

namespace Hull

open Point

/-- 先頭から傾きが極値である間を進む loop。`worse` になる点で止まる。 -/
def extreme (worse : Slope → Slope → Bool) (p : Point) : List Point → Nat → Slope → Nat → Nat
  | [], _, _, best => best
  | q :: rest, i, cur, best =>
    if worse (q.sub p) cur then best else extreme worse p rest (i + 1) (q.sub p) i

/-- 末尾から `bad` である点を除く loop。`start` より前には戻らない。 -/
def popWhile (bad : Point → Point → Bool) (start : Nat) : Nat → List Point → List Point
  | 0, l => l
  | fuel + 1, l =>
    if start + 2 ≤ l.length then
      match l[l.length - 2]?, l[l.length - 1]? with
      | some a, some b => if bad a b then popWhile bad start fuel l.dropLast else l
      | _, _ => l
    else l

/-- 位置 `y` の鍵 `x` を ε だけ上にずらした点。 -/
def above (epsilon : Int) (x : Key) (y : Nat) : Point := ⟨x.toUnits, y + epsilon⟩

/-- 位置 `y` の鍵 `x` を ε だけ下にずらした点。 -/
def below (epsilon : Int) (x : Key) (y : Nat) : Point := ⟨x.toUnits, y - epsilon⟩

/-- `add_point` の一点目。 -/
def start (epsilon : Nat) (x : Key) (y : Nat) : Hull :=
  let p1 := above epsilon x y
  let p2 := below epsilon x y
  { epsilon := epsilon, lower := [p2], upper := [p1], lowerStart := 0, upperStart := 0
    rect0 := p1, rect1 := p2, rect2 := p1, rect3 := p2 }

/-- `add_point` の二点目。 -/
def second (h : Hull) (x : Key) (y : Nat) : Hull :=
  let p1 := above h.epsilon x y
  let p2 := below h.epsilon x y
  { h with rect2 := p2, rect3 := p1, lower := h.lower ++ [p2], upper := h.upper ++ [p1] }

/-- 上側の制約が狭まるときの更新。 -/
def tightenUpper (h : Hull) (p1 : Point) : Hull :=
  match h.lower.drop h.lowerStart with
  | [] => h
  | q :: rest =>
    let i := extreme (fun a b => b.lt a) p1 rest (h.lowerStart + 1) (q.sub p1) h.lowerStart
    let upper := popWhile (fun a b => cross a b p1 ≤ 0) h.upperStart h.upper.length h.upper
    { h with rect1 := h.lower.getD i q, rect3 := p1, lowerStart := i, upper := upper ++ [p1] }

/-- 下側の制約が狭まるときの更新。 -/
def tightenLower (h : Hull) (p2 : Point) : Hull :=
  match h.upper.drop h.upperStart with
  | [] => h
  | q :: rest =>
    let i := extreme (fun a b => a.lt b) p2 rest (h.upperStart + 1) (q.sub p2) h.upperStart
    let lower := popWhile (fun a b => 0 ≤ cross a b p2) h.lowerStart h.lower.length h.lower
    { h with rect0 := h.upper.getD i q, rect2 := p2, upperStart := i, lower := lower ++ [p2] }

/--
`add_point` の三点目以降。

`slope1` と `slope2` は更新の前に一度だけ計算される。
-/
def extend (h : Hull) (x : Key) (y : Nat) : Option Hull :=
  let p1 := above h.epsilon x y
  let p2 := below h.epsilon x y
  let slope1 := h.rect2.sub h.rect0
  let slope2 := h.rect3.sub h.rect1
  if (p1.sub h.rect2).lt slope1 || slope2.lt (p2.sub h.rect3) then none
  else
    let h' := if (p1.sub h.rect1).lt slope2 then h.tightenUpper p1 else h
    some (if slope1.lt (p2.sub h'.rect0) then h'.tightenLower p2 else h')

/-- `one_point`。 -/
def onePoint (h : Hull) : Bool := h.rect0 = h.rect2 ∧ h.rect1 = h.rect3

/-- `get_intersection`。 -/
def intersection (h : Hull) : ℚ × ℚ :=
  let slope1 := h.rect2.sub h.rect0
  let slope2 := h.rect3.sub h.rect1
  if h.onePoint || slope1.dy * slope2.dx = slope1.dx * slope2.dy then (h.rect0.x, h.rect0.y)
  else
    let p0p1 := h.rect1.sub h.rect0
    let a : Int := slope1.dx * slope2.dy - slope1.dy * slope2.dx
    let b : ℚ := (p0p1.dx * slope2.dy - p0p1.dy * slope2.dx : Int) / a
    (h.rect0.x + b * slope1.dx, h.rect0.y + b * slope1.dy)

/-- `get_floating_point_segment`。傾きは許される範囲の中央を取る。 -/
def line (h : Hull) (origin : Key) : ℚ × ℚ :=
  if h.onePoint then (0, (h.rect0.y + h.rect1.y) / 2)
  else
    let i := h.intersection
    let slope := ((h.rect2.sub h.rect0).toRat + (h.rect3.sub h.rect1).toRat) / 2
    (slope, i.2 - (i.1 / 2 ^ 1074 - origin.toRat) * slope)

end Hull

/-- 丸めの無い計算による `OptimalPiecewiseLinearModel`。 -/
def exactFitter : Fitter ℚ where
  State := Hull
  start := Hull.start
  second := Hull.second
  extend := Hull.extend
  line := Hull.line

end Plin
