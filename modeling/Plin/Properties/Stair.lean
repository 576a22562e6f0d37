import Plin.Properties.Segmentation
import Plin.Properties.ModelCorrection

/-!
# 離れた点から始まる階段の区分

一点目から遠く離れた所に鍵が等間隔に並ぶとき、丸めの無い `OptimalPiecewiseLinearModel` の状態は簡単である。凸包は
いつも二点だけで、傾きの下限だけが狭まっていく（`Hull.extend_stair`）。**並びの `2 * epsilon + 2` 個目の鍵で帯が
尽き、そこで区分が閉じる**（`segmentLoop_stairKeys`）。

区分の個数や切れ目を、鍵の列を実際に読まずに知りたいときに使う。
-/

namespace Plin

namespace Hull

open Point

/--
点 `(x₀, y₀)` の後に、`x₁` から始まる等間隔の並びを `x` まで足した状態。並びは `i` 個の鍵を持つ。
-/
def stair (epsilon : Nat) (x₀ x₁ x : Key) (y₀ i : Nat) : Hull where
  epsilon := epsilon
  lower := [below epsilon x₀ y₀, below epsilon x (y₀ + i)]
  upper := [above epsilon x₀ y₀, above epsilon x₁ (y₀ + 1)]
  lowerStart := 0
  upperStart := 0
  rect0 := above epsilon x₀ y₀
  rect1 := below epsilon x₀ y₀
  rect2 := below epsilon x (y₀ + i)
  rect3 := above epsilon x₁ (y₀ + 1)

/-- 階段の形。並びの間隔は `d` で、一点目からは `epsilon` に比べて十分に離れている。 -/
structure Far (epsilon : Nat) (x₀ x₁ : Key) (d : Int) : Prop where
  pos : 0 < d
  gap : (2 * epsilon + 1) * ((2 * epsilon + 1) * d) < x₁.toUnits - x₀.toUnits

theorem slope_lt_iff {a b : Slope} : a.lt b = true ↔ a.dy * b.dx < a.dx * b.dy := decide_eq_true_iff

section Step

variable {epsilon : Nat} {x₀ x₁ x x' : Key} {y₀ i : Nat} {d : Int}

/-- 隙間は間隔より大きい。 -/
theorem Far.lt (h : Far epsilon x₀ x₁ d) : (2 * epsilon + 1) * d < x₁.toUnits - x₀.toUnits := by
  have hpos := h.pos
  have hnonneg : 0 ≤ 2 * (epsilon : Int) * ((2 * epsilon + 1) * d) := by positivity
  linarith [h.gap]

/-- 次の鍵は、傾きの上限を破らない。 -/
theorem stair_not_under (h : Far epsilon x₀ x₁ d) (hi : 1 ≤ i)
    (hx : x.toUnits = x₁.toUnits + (i - 1) * d) (hx' : x'.toUnits = x₁.toUnits + i * d) :
    ¬((above epsilon x' (y₀ + i + 1)).sub (below epsilon x (y₀ + i))).lt
      ((below epsilon x (y₀ + i)).sub (above epsilon x₀ y₀)) = true := by
  have hlt := h.lt
  have hed : 0 ≤ epsilon * d := mul_nonneg (Int.natCast_nonneg _) h.pos.le
  have hid : 0 ≤ (i - 1 : Int) * (epsilon * d) := mul_nonneg (by omega) hed
  have heg : 0 ≤ epsilon * (x₁.toUnits - x₀.toUnits) :=
    mul_nonneg (Int.natCast_nonneg _) (by linarith [h.pos])
  rw [slope_lt_iff, not_lt]
  simp only [Point.sub, above, below, hx, hx']
  push_cast
  linarith

/-- 次の鍵が傾きの下限を破るのは、並びが `2 * epsilon + 1` 個になったときである。 -/
theorem stair_over_iff (h : Far epsilon x₀ x₁ d) (hle : i ≤ 2 * epsilon + 1)
    (hx' : x'.toUnits = x₁.toUnits + i * d) :
    ((above epsilon x₁ (y₀ + 1)).sub (below epsilon x₀ y₀)).lt
      ((below epsilon x' (y₀ + i + 1)).sub (above epsilon x₁ (y₀ + 1))) = true ↔
        i = 2 * epsilon + 1 := by
  have hd := h.pos
  have hgap := h.gap
  have hlt := h.lt
  rw [slope_lt_iff]
  simp only [Point.sub, above, below]
  rcases Nat.lt_or_eq_of_le hle with hi | rfl
  · refine iff_of_false (not_lt.mpr ?_) hi.ne
    have h1 : ((y₀ + i + 1 : Nat) : Int) - epsilon - ((y₀ + 1 : Nat) + epsilon) ≤ 0 := by omega
    have h2 : 0 ≤ x₁.toUnits - x₀.toUnits := by
      have : 0 ≤ (2 * (epsilon : Int) + 1) * d := by positivity
      linarith
    have h3 : 0 ≤ x'.toUnits - x₁.toUnits := by
      rw [hx', add_sub_cancel_left]
      positivity
    have h4 : 0 ≤ ((y₀ + 1 : Nat) : Int) + epsilon - (y₀ - epsilon) := by omega
    exact le_trans (mul_nonpos_of_nonneg_of_nonpos h2 h1) (mul_nonneg h4 h3)
  · refine iff_of_true ?_ rfl
    have h1 : ((y₀ + (2 * epsilon + 1) + 1 : Nat) : Int) - epsilon -
        ((y₀ + 1 : Nat) + epsilon) = 1 := by
      push_cast
      ring
    have h2 : ((y₀ + 1 : Nat) : Int) + epsilon - (y₀ - epsilon) = 2 * epsilon + 1 := by
      push_cast
      ring
    rw [h1, h2, hx', mul_one, add_sub_cancel_left]
    push_cast
    exact hgap

/-- 傾きの上限は、並びの最初の鍵が決めたまま変わらない。 -/
theorem stair_not_tightenUpper (h : Far epsilon x₀ x₁ d)
    (hx' : x'.toUnits = x₁.toUnits + i * d) :
    ¬((above epsilon x' (y₀ + i + 1)).sub (below epsilon x₀ y₀)).lt
      ((above epsilon x₁ (y₀ + 1)).sub (below epsilon x₀ y₀)) = true := by
  have hlt := h.lt
  have hig : 0 ≤ (i : Int) * (x₁.toUnits - x₀.toUnits - (2 * epsilon + 1) * d) :=
    mul_nonneg (Int.natCast_nonneg _) (by linarith)
  rw [slope_lt_iff, not_lt]
  simp only [Point.sub, above, below, hx']
  push_cast
  linarith

/-- 傾きの下限は、鍵を足すごとに狭まる。 -/
theorem stair_tightenLower (h : Far epsilon x₀ x₁ d)
    (hx : x.toUnits = x₁.toUnits + (i - 1) * d) (hx' : x'.toUnits = x₁.toUnits + i * d) :
    ((below epsilon x (y₀ + i)).sub (above epsilon x₀ y₀)).lt
      ((below epsilon x' (y₀ + i + 1)).sub (above epsilon x₀ y₀)) = true := by
  have hlt := h.lt
  have hed : 0 ≤ epsilon * d := mul_nonneg (Int.natCast_nonneg _) h.pos.le
  rw [slope_lt_iff]
  simp only [Point.sub, above, below, hx, hx']
  push_cast
  linarith

/-- 下限を決める上側の点は、一点目のままである。 -/
theorem stair_extreme (h : Far epsilon x₀ x₁ d) (hi : 1 ≤ i) (hle : i ≤ 2 * epsilon)
    (hx' : x'.toUnits = x₁.toUnits + i * d) :
    ((above epsilon x₁ (y₀ + 1)).sub (below epsilon x' (y₀ + i + 1))).lt
      ((above epsilon x₀ y₀).sub (below epsilon x' (y₀ + i + 1))) = true := by
  have hlt := h.lt
  have hed : 0 ≤ epsilon * d := mul_nonneg (Int.natCast_nonneg _) h.pos.le
  have hid : 0 < (i : Int) * d := mul_pos (by omega) h.pos
  have hig : 0 ≤ (2 * epsilon - i : Int) * (x₁.toUnits - x₀.toUnits) :=
    mul_nonneg (by omega) (by linarith [h.pos])
  rw [slope_lt_iff]
  simp only [Point.sub, above, below, hx']
  push_cast
  linarith

/-- 並びの途中の点は、下側の凸包に残らない。 -/
theorem stair_cross (h : Far epsilon x₀ x₁ d)
    (hx : x.toUnits = x₁.toUnits + (i - 1) * d) (hx' : x'.toUnits = x₁.toUnits + i * d) :
    0 ≤ cross (below epsilon x₀ y₀) (below epsilon x (y₀ + i))
      (below epsilon x' (y₀ + i + 1)) := by
  have hlt := h.lt
  have hed : 0 ≤ epsilon * d := mul_nonneg (Int.natCast_nonneg _) h.pos.le
  simp only [cross, Point.sub, below, hx, hx']
  push_cast
  linarith

/-- 下側の凸包の途中の点は除かれ、次の鍵の点に代わる。 -/
theorem tightenLower_stair (h : Far epsilon x₀ x₁ d) (hi : 1 ≤ i) (hle : i ≤ 2 * epsilon)
    (hx : x.toUnits = x₁.toUnits + (i - 1) * d) (hx' : x'.toUnits = x₁.toUnits + i * d) :
    (stair epsilon x₀ x₁ x y₀ i).tightenLower (below epsilon x' (y₀ + i + 1)) =
      stair epsilon x₀ x₁ x' y₀ (i + 1) := by
  have hextreme := @stair_extreme epsilon x₀ x₁ x' y₀ i d h hi hle hx'
  have hcross := @stair_cross epsilon x₀ x₁ x x' y₀ i d h hx hx'
  have hbest : extreme (fun a b => a.lt b) (below epsilon x' (y₀ + i + 1))
      [above epsilon x₁ (y₀ + 1)] 1
      ((above epsilon x₀ y₀).sub (below epsilon x' (y₀ + i + 1))) 0 = 0 := by
    rw [extreme, if_pos hextreme]
  have hpop : popWhile (fun a b => 0 ≤ cross a b (below epsilon x' (y₀ + i + 1))) 0 2
      [below epsilon x₀ y₀, below epsilon x (y₀ + i)] = [below epsilon x₀ y₀] := by
    simp [popWhile, hcross]
  change Hull.mk epsilon
    (popWhile (fun a b => 0 ≤ cross a b (below epsilon x' (y₀ + i + 1))) 0 2
      [below epsilon x₀ y₀, below epsilon x (y₀ + i)] ++ [below epsilon x' (y₀ + i + 1)])
    [above epsilon x₀ y₀, above epsilon x₁ (y₀ + 1)] 0
    (extreme (fun a b => a.lt b) (below epsilon x' (y₀ + i + 1)) [above epsilon x₁ (y₀ + 1)] 1
      ((above epsilon x₀ y₀).sub (below epsilon x' (y₀ + i + 1))) 0)
    ([above epsilon x₀ y₀, above epsilon x₁ (y₀ + 1)].getD
      (extreme (fun a b => a.lt b) (below epsilon x' (y₀ + i + 1)) [above epsilon x₁ (y₀ + 1)] 1
        ((above epsilon x₀ y₀).sub (below epsilon x' (y₀ + i + 1))) 0) (above epsilon x₀ y₀))
    (below epsilon x₀ y₀) (below epsilon x' (y₀ + i + 1)) (above epsilon x₁ (y₀ + 1)) = _
  rw [hbest, hpop]
  rfl

/-- **並びの次の鍵を足すと、下側の点だけが進む。帯が尽きれば断られる。** -/
theorem extend_stair (h : Far epsilon x₀ x₁ d) (hi : 1 ≤ i) (hle : i ≤ 2 * epsilon + 1)
    (hx : x.toUnits = x₁.toUnits + (i - 1) * d) (hx' : x'.toUnits = x₁.toUnits + i * d) :
    (stair epsilon x₀ x₁ x y₀ i).extend x' (y₀ + i + 1) =
      if i = 2 * epsilon + 1 then none else some (stair epsilon x₀ x₁ x' y₀ (i + 1)) := by
  have hunder := @stair_not_under epsilon x₀ x₁ x x' y₀ i d h hi hx hx'
  have hover := @stair_over_iff epsilon x₀ x₁ x' y₀ i d h hle hx'
  have hupper := @stair_not_tightenUpper epsilon x₀ x₁ x' y₀ i d h hx'
  have hlower := @stair_tightenLower epsilon x₀ x₁ x x' y₀ i d h hx hx'
  by_cases hend : i = 2 * epsilon + 1
  · rw [if_pos hend]
    unfold extend
    exact if_pos (by rw [Bool.or_eq_true]; exact .inr (hover.mpr hend))
  · rw [if_neg hend]
    have hgo : ¬ (((above epsilon x' (y₀ + i + 1)).sub (below epsilon x (y₀ + i))).lt
          ((below epsilon x (y₀ + i)).sub (above epsilon x₀ y₀)) ||
        ((above epsilon x₁ (y₀ + 1)).sub (below epsilon x₀ y₀)).lt
          ((below epsilon x' (y₀ + i + 1)).sub (above epsilon x₁ (y₀ + 1)))) = true := by
      rw [Bool.or_eq_true, not_or]
      exact ⟨hunder, fun ho => hend (hover.mp ho)⟩
    have hsame : (if ((above epsilon x' (y₀ + i + 1)).sub (stair epsilon x₀ x₁ x y₀ i).rect1).lt
          ((stair epsilon x₀ x₁ x y₀ i).rect3.sub (stair epsilon x₀ x₁ x y₀ i).rect1) = true then
        (stair epsilon x₀ x₁ x y₀ i).tightenUpper (above epsilon x' (y₀ + i + 1))
      else stair epsilon x₀ x₁ x y₀ i) = stair epsilon x₀ x₁ x y₀ i := if_neg hupper
    unfold extend
    refine (if_neg hgo).trans (congrArg some ?_)
    rw [show (stair epsilon x₀ x₁ x y₀ i).epsilon = epsilon from rfl, hsame]
    exact (if_pos hlower).trans (tightenLower_stair h hi (by omega) hx hx')

end Step

end Hull

section Loop

variable {D : Type} {f : Fitter D} {epsilon : Nat} {k p first : Key} {rest : List Key}
  {i start count : Nat} {state state' : f.State}

/-- 受け入れられた鍵では、区分が続く。 -/
theorem segmentLoop_accept (hne : k ≠ p) (h : f.addPoint count state k i = some state') :
    segmentLoop f epsilon (k :: rest) i start first p count state =
      segmentLoop f epsilon rest (i + 1) start first k (count + 1) state' := by
  rw [segmentLoop, if_neg hne, h]

/-- 断られた鍵から、新しい区分が始まる。 -/
theorem segmentLoop_reject (hne : k ≠ p) (h : f.addPoint count state k i = none) :
    segmentLoop f epsilon (k :: rest) i start first p count state =
      f.segment state first (i - start) ::
        segmentLoop f epsilon rest (i + 1) i k k 1 (f.start epsilon k i) := by
  rw [segmentLoop, if_neg hne, h]

/-- 鍵が尽きると、読んだ分が区分になる。 -/
theorem segmentLoop_end (hcount : count ≠ 1) :
    segmentLoop f epsilon [] i start first p count state =
      [f.segment state first (i - start)] := by
  rw [segmentLoop, if_neg hcount]

end Loop

section Climb

variable {epsilon : Nat} {x₀ : Key} {key : Nat → Key} {d : Int}

theorem Hull.Far.addPoint_stair (hfar : Hull.Far epsilon x₀ (key 0) d)
    (hkey : ∀ j ≤ 2 * epsilon + 1, (key j).toUnits = (key 0).toUnits + j * d) (y₀ : Nat) {j : Nat}
    (hj : 1 ≤ j) (hle : j ≤ 2 * epsilon + 1) : key j ≠ key (j - 1) ∧
      exactFitter.addPoint (j + 1) (Hull.stair epsilon x₀ (key 0) (key (j - 1)) y₀ j) (key j)
        (y₀ + j + 1) = if j = 2 * epsilon + 1 then none
          else some (Hull.stair epsilon x₀ (key 0) (key j) y₀ (j + 1)) := by
  have hnow := hkey j hle
  have hprev := hkey (j - 1) (by omega)
  rw [Nat.cast_sub hj, Nat.cast_one] at hprev
  constructor
  · intro heq
    rw [← heq, hnow] at hprev
    have := hfar.pos
    linarith
  · have hcount : ¬ j + 1 = 1 := by omega
    exact (if_neg hcount).trans (Hull.extend_stair hfar hj hle hprev hnow)

/-- 階段の `2 * epsilon + 1` 個の鍵は、どれも受け入れられる。`key` のうち `key j` から先を読む。 -/
theorem segmentLoop_climb (hfar : Hull.Far epsilon x₀ (key 0) d)
    (hkey : ∀ j ≤ 2 * epsilon + 1, (key j).toUnits = (key 0).toUnits + j * d)
    (rest : List Key) (y₀ : Nat) :
    ∀ n j, 1 ≤ j → j + n = 2 * epsilon + 1 →
      segmentLoop exactFitter epsilon ((List.range' j n).map key ++ rest) (y₀ + j + 1) y₀ x₀
          (key (j - 1)) (j + 1) (Hull.stair epsilon x₀ (key 0) (key (j - 1)) y₀ j) =
        segmentLoop exactFitter epsilon rest (y₀ + (2 * epsilon + 1) + 1) y₀ x₀
          (key (2 * epsilon)) (2 * epsilon + 1 + 1)
          (Hull.stair epsilon x₀ (key 0) (key (2 * epsilon)) y₀ (2 * epsilon + 1)) := by
  intro n
  induction n with
  | zero =>
    intro j hj hsum
    obtain rfl : j = 2 * epsilon + 1 := by omega
    rfl
  | succ n ih =>
    intro j hj hsum
    obtain ⟨hne, haccept⟩ := hfar.addPoint_stair hkey y₀ hj (by omega)
    rw [if_neg (by omega)] at haccept
    rw [List.range'_succ, List.map_cons, List.cons_append]
    exact (segmentLoop_accept hne haccept).trans (ih (j + 1) (by omega) (by omega))

/-- 一つ目の点から、階段の `2 * epsilon + 1` 個の鍵を読む。 -/
theorem segmentLoop_climbAll (hfar : Hull.Far epsilon x₀ (key 0) d)
    (hkey : ∀ j ≤ 2 * epsilon + 1, (key j).toUnits = (key 0).toUnits + j * d)
    (rest : List Key) (y₀ : Nat) :
    segmentLoop exactFitter epsilon ((List.range (2 * epsilon + 1)).map key ++ rest) (y₀ + 1) y₀
        x₀ x₀ 1 (exactFitter.start epsilon x₀ y₀) =
      segmentLoop exactFitter epsilon rest (y₀ + (2 * epsilon + 1) + 1) y₀ x₀ (key (2 * epsilon))
        (2 * epsilon + 1 + 1)
        (Hull.stair epsilon x₀ (key 0) (key (2 * epsilon)) y₀ (2 * epsilon + 1)) := by
  have hne : key 0 ≠ x₀ := by
    intro heq
    have hgap := hfar.lt
    rw [heq, sub_self] at hgap
    have hpos := hfar.pos
    have : 0 ≤ (2 * (epsilon : Int) + 1) * d := by positivity
    linarith
  have hsecond : exactFitter.addPoint 1 (exactFitter.start epsilon x₀ y₀) (key 0) (y₀ + 1) =
      some (Hull.stair epsilon x₀ (key 0) (key 0) y₀ 1) := rfl
  rw [List.range_eq_range', List.range'_succ, List.map_cons, List.cons_append]
  exact (segmentLoop_accept hne hsecond).trans
    (segmentLoop_climb hfar hkey rest y₀ (2 * epsilon) 1 le_rfl (by omega))

end Climb

/-! ## 階段の連なり -/

/-- 一つの階段の鍵。最後の鍵は断られて、次の区分の一点目になる。 -/
def stairKeys (epsilon : Nat) (key : Nat → Key) : List Key :=
  (List.range (2 * epsilon + 2)).map key

/-- 階段の連なりと、その後の一つの鍵。どの階段も、前の階段の最後の鍵から十分に離れている。 -/
def Stairs (epsilon : Nat) (last : Key) : Key → List (Nat → Key) → Prop
  | x₀, [] => x₀ < last
  | x₀, key :: rest =>
    (∃ d, Hull.Far epsilon x₀ (key 0) d ∧
      ∀ j ≤ 2 * epsilon + 1, (key j).toUnits = (key 0).toUnits + j * d) ∧
    Stairs epsilon last (key (2 * epsilon + 1)) rest

/-- 連なりの鍵の列。 -/
def stairsKeys (epsilon : Nat) (last : Key) (stairs : List (Nat → Key)) : List Key :=
  stairs.flatMap (stairKeys epsilon) ++ [last]

/--
**階段は `2 * epsilon + 1` 個の鍵を足した所で閉じ、次の鍵から新しい区分が始まる。**
-/
theorem segmentLoop_stairKeys {epsilon : Nat} {x₀ : Key} {key : Nat → Key} {d : Int}
    (hfar : Hull.Far epsilon x₀ (key 0) d)
    (hkey : ∀ j ≤ 2 * epsilon + 1, (key j).toUnits = (key 0).toUnits + j * d)
    (rest : List Key) (y₀ : Nat) :
    segmentLoop exactFitter epsilon (stairKeys epsilon key ++ rest) (y₀ + 1) y₀ x₀ x₀ 1
        (exactFitter.start epsilon x₀ y₀) =
      exactFitter.segment (Hull.stair epsilon x₀ (key 0) (key (2 * epsilon)) y₀ (2 * epsilon + 1))
          x₀ (2 * epsilon + 2) ::
        segmentLoop exactFitter epsilon rest (y₀ + (2 * epsilon + 2) + 1)
          (y₀ + (2 * epsilon + 2)) (key (2 * epsilon + 1)) (key (2 * epsilon + 1)) 1
          (exactFitter.start epsilon (key (2 * epsilon + 1)) (y₀ + (2 * epsilon + 2))) := by
  obtain ⟨hne, hreject⟩ := hfar.addPoint_stair hkey y₀ (j := 2 * epsilon + 1) (by omega) le_rfl
  rw [if_pos rfl] at hreject
  rw [stairKeys, List.range_succ, List.map_append, List.append_assoc]
  refine (segmentLoop_climbAll hfar hkey _ y₀).trans ((segmentLoop_reject hne hreject).trans ?_)
  rw [show y₀ + (2 * epsilon + 1) + 1 - y₀ = 2 * epsilon + 2 by omega]
  rfl

/-- 階段の鍵は一点目より大きく、増えていく。 -/
theorem sorted_stairKeys {epsilon : Nat} {x₀ : Key} {key : Nat → Key} {d : Int}
    (hfar : Hull.Far epsilon x₀ (key 0) d)
    (hkey : ∀ j ≤ 2 * epsilon + 1, (key j).toUnits = (key 0).toUnits + j * d) :
    (x₀ :: stairKeys epsilon key).Pairwise (· < ·) := by
  have hpos := hfar.pos
  have hgap := hfar.lt
  have hwide : 0 ≤ (2 * (epsilon : Int) + 1) * d := by positivity
  rw [List.pairwise_cons, stairKeys, List.pairwise_map]
  refine ⟨fun k hk => ?_, ?_⟩
  · obtain ⟨j, hj, rfl⟩ := List.mem_map.mp hk
    have hle : j ≤ 2 * epsilon + 1 := by
      have := List.mem_range.mp hj
      omega
    have hj' : 0 ≤ (j : Int) * d := by positivity
    refine Key.toUnits_strictMono.lt_iff_lt.mp ?_
    rw [hkey j hle]
    linarith
  · refine List.pairwise_lt_range.imp_of_mem fun {i j} hi hj hij => ?_
    have hi' := List.mem_range.mp hi
    have hj' := List.mem_range.mp hj
    refine Key.toUnits_strictMono.lt_iff_lt.mp ?_
    rw [hkey i (by omega), hkey j (by omega)]
    have : (i : Int) * d < j * d := mul_lt_mul_of_pos_right (by omega) hpos
    linarith

/-- **連なりの鍵は増えていく。** -/
theorem sorted_stairs {epsilon : Nat} {last : Key} : ∀ {stairs : List (Nat → Key)} {x₀ : Key},
    Stairs epsilon last x₀ stairs → (x₀ :: stairsKeys epsilon last stairs).Pairwise (· < ·)
  | [], x₀, h => by
    have hlt : x₀ < last := h
    simpa [stairsKeys] using hlt
  | key :: rest, x₀, ⟨⟨d, hfar, hkey⟩, hrest⟩ => by
    have hhead := sorted_stairKeys hfar hkey
    have htail := sorted_stairs hrest
    have hsplit : stairKeys epsilon key =
        (List.range (2 * epsilon + 1)).map key ++ [key (2 * epsilon + 1)] := by
      rw [stairKeys, List.range_succ, List.map_append]
      rfl
    have hcut : stairsKeys epsilon last (key :: rest) =
        stairKeys epsilon key ++ stairsKeys epsilon last rest := by
      rw [stairsKeys, List.flatMap_cons, List.append_assoc]
      rfl
    obtain ⟨hlast, hrest'⟩ := List.pairwise_cons.mp htail
    rw [hcut, ← List.cons_append, List.pairwise_append]
    refine ⟨hhead, hrest', fun a ha b hb => ?_⟩
    -- 階段の最後の鍵は、その前のどの鍵よりも小さくない
    have hle : a ≤ key (2 * epsilon + 1) := by
      rw [hsplit, ← List.cons_append] at ha hhead
      rcases List.mem_append.mp ha with ha | ha
      · exact ((List.pairwise_append.mp hhead).2.2 a ha _ List.mem_cons_self).le
      · rw [List.mem_singleton.mp ha]
    exact lt_of_le_of_lt hle (hlast b hb)

/-- **連なりの区分は、一点目と、各階段の最後の鍵から始まる。** -/
theorem firstKeys_stairs {epsilon : Nat} {last : Key} : ∀ {stairs : List (Nat → Key)} {x₀ : Key}
    (y₀ : Nat), Stairs epsilon last x₀ stairs → (segmentLoop exactFitter epsilon
        (stairsKeys epsilon last stairs) (y₀ + 1) y₀ x₀ x₀ 1
        (exactFitter.start epsilon x₀ y₀)).map (·.firstKey) =
      x₀ :: stairs.map fun key => key (2 * epsilon + 1)
  | [], x₀, y₀, h => by
    have hsecond : exactFitter.addPoint 1 (exactFitter.start epsilon x₀ y₀) last (y₀ + 1) =
        some (Hull.stair epsilon x₀ last last y₀ 1) := rfl
    rw [stairsKeys, List.flatMap_nil, List.nil_append, List.map_nil,
      segmentLoop_accept (ne_of_gt h) hsecond]
    rfl
  | key :: rest, x₀, y₀, ⟨⟨d, hfar, hkey⟩, hrest⟩ => by
    rw [stairsKeys, List.flatMap_cons, List.append_assoc]
    rw [segmentLoop_stairKeys hfar hkey (rest.flatMap (stairKeys epsilon) ++ [last]) y₀,
      List.map_cons]
    exact congrArg (x₀ :: ·) (firstKeys_stairs (y₀ + (2 * epsilon + 2)) hrest)

theorem makeSegmentation_stairs {epsilon : Nat} {last x₀ : Key} {stairs : List (Nat → Key)}
    (h : Stairs epsilon last x₀ stairs) :
    (makeSegmentation exactFitter epsilon (x₀ :: stairsKeys epsilon last stairs)).map
        (·.firstKey) = x₀ :: stairs.map fun key => key (2 * epsilon + 1) :=
  firstKeys_stairs 0 h

end Plin
