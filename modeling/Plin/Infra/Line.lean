import Mathlib.Algebra.Order.Field.Basic
import Mathlib.Tactic.FieldSimp
import Mathlib.Tactic.Linarith
import Mathlib.Tactic.Ring

/-!
# 平面の点の間を通る直線

順序体の上の一次式と、点の上下関係である。二つの一次式の差は一次式なので、**二箇所での大小が
その間と外での大小を決める**（`Line.eval_le_between`、`Line.eval_le_right`、`Line.eval_le_left`）。

点の列が上に凸（`Concave`）なら、一度一次式から下に離れた列は、その先でも離れていく
（`Concave.gap_mono`）。
-/

namespace Plin.Infra

/-- 一次式。 -/
@[ext] structure Line (K : Type*) where
  slope : K
  intercept : K

namespace Line

section Field

variable {K : Type*} [Field K] {f g : Line K} {p q : K × K}

/-- `x` での値。 -/
def eval (f : Line K) (x : K) : K := f.slope * x + f.intercept

/-- 点が一次式の下にどれだけ離れているか。 -/
def gap (f : Line K) (p : K × K) : K := f.eval p.1 - p.2

/-- 二点を通る直線。 -/
def through (p q : K × K) : Line K :=
  { slope := (q.2 - p.2) / (q.1 - p.1)
    intercept := p.2 - (q.2 - p.2) / (q.1 - p.1) * p.1 }

/-- 二つの一次式の中央。 -/
def mid (f g : Line K) : Line K :=
  { slope := (f.slope + g.slope) / 2, intercept := (f.intercept + g.intercept) / 2 }

@[simp] theorem eval_through_left (p q : K × K) : (through p q).eval p.1 = p.2 := by
  rw [eval, through]
  ring

theorem eval_through_right (h : p.1 ≠ q.1) : (through p q).eval q.1 = q.2 := by
  have hne : q.1 - p.1 ≠ 0 := sub_ne_zero.mpr h.symm
  rw [eval, through]
  field_simp
  ring

@[simp] theorem gap_through_left (p q : K × K) : (through p q).gap p = 0 := by
  rw [gap, eval_through_left, sub_self]

theorem gap_through_right (h : p.1 ≠ q.1) : (through p q).gap q = 0 := by
  rw [gap, eval_through_right h, sub_self]

theorem eval_mid (f g : Line K) (x : K) : (f.mid g).eval x = (f.eval x + g.eval x) / 2 := by
  rw [eval, mid, eval, eval]
  ring

/-- 上下を入れ替えた一次式。 -/
def neg (f : Line K) : Line K := { slope := -f.slope, intercept := -f.intercept }

theorem eval_neg (f : Line K) (x : K) : f.neg.eval x = -f.eval x := by
  rw [eval, neg, eval]
  ring

theorem gap_neg (f : Line K) (p : K × K) : f.neg.gap (p.1, -p.2) = -f.gap p := by
  rw [gap, eval_neg, gap]
  ring

theorem through_neg (p q : K × K) : through (p.1, -p.2) (q.1, -q.2) = (through p q).neg := by
  rw [through, through, neg]
  ext <;> ring

theorem eval_sub (f : Line K) (a b : K) : f.eval b - f.eval a = f.slope * (b - a) := by
  rw [eval, eval]
  ring

end Field

variable {K : Type*} [Field K] [LinearOrder K] [IsStrictOrderedRing K] {f g : Line K}
  {a b x : K}

/-! ## 二つの一次式の大小 -/

/-- 左で大きくて右で小さい一次式は、傾きが小さい。 -/
theorem slope_le (hab : a < b) (ha : g.eval a ≤ f.eval a) (hb : f.eval b ≤ g.eval b) :
    f.slope ≤ g.slope := by
  have hf := eval_sub f a b
  have hg := eval_sub g a b
  exact le_of_mul_le_mul_right (by linarith) (sub_pos.mpr hab)

theorem eval_le_of_slope_right (hs : f.slope ≤ g.slope) (ha : f.eval a ≤ g.eval a) (hx : a ≤ x) :
    f.eval x ≤ g.eval x := by
  have hf := eval_sub f a x
  have hg := eval_sub g a x
  have hm := mul_le_mul_of_nonneg_right hs (sub_nonneg.mpr hx)
  linarith

theorem eval_le_of_slope_left (hs : f.slope ≤ g.slope) (ha : g.eval a ≤ f.eval a) (hx : x ≤ a) :
    g.eval x ≤ f.eval x := by
  have hf := eval_sub f x a
  have hg := eval_sub g x a
  have hm := mul_le_mul_of_nonneg_right hs (sub_nonneg.mpr hx)
  linarith

/-- 両端で大小が同じ向きなら、その間でも同じ向きである。 -/
theorem eval_le_between (ha : f.eval a ≤ g.eval a) (hb : f.eval b ≤ g.eval b) (hax : a ≤ x)
    (hxb : x ≤ b) : f.eval x ≤ g.eval x := by
  rcases le_total f.slope g.slope with hs | hs
  · exact eval_le_of_slope_right hs ha hax
  · exact eval_le_of_slope_left hs hb hxb

/-- 大小が入れ替わったら、その右では入れ替わったままである。 -/
theorem eval_le_right (hab : a < b) (ha : g.eval a ≤ f.eval a) (hb : f.eval b ≤ g.eval b)
    (hx : b ≤ x) : f.eval x ≤ g.eval x :=
  eval_le_of_slope_right (slope_le hab ha hb) hb hx

/-- 大小が入れ替わる所の左では、入れ替わる前のままである。 -/
theorem eval_le_left (hab : a < b) (ha : g.eval a ≤ f.eval a) (hb : f.eval b ≤ g.eval b)
    (hx : x ≤ a) : g.eval x ≤ f.eval x :=
  eval_le_of_slope_left (slope_le hab ha hb) ha hx

/-- `r` が `q` と `p` の間の直線より上にあれば、`q` は `r` と `p` の間の直線より下にある。 -/
theorem gap_through_swap {p q r : K × K} (hqr : q.1 ≤ r.1) (hrp : r.1 < p.1)
    (hr : (through q p).gap r ≤ 0) : 0 ≤ (through r p).gap q := by
  have hqp := lt_of_le_of_lt hqr hrp
  have hle : (through q p).eval q.1 ≤ (through r p).eval q.1 := by
    refine eval_le_left hrp ?_ ?_ hqr
    · rw [eval_through_left]
      exact sub_nonpos.mp hr
    · rw [eval_through_right hrp.ne, eval_through_right hqp.ne]
  rw [eval_through_left] at hle
  exact sub_nonneg.mpr hle

/-- `p` に引いた直線の下にあることは、左に戻る点について推移する。 -/
theorem gap_through_trans {p q r b : K × K} (hqr : q.1 ≤ r.1) (hrp : r.1 < p.1) (hbp : b.1 < p.1)
    (hq : 0 ≤ (through r p).gap q) (hr : 0 ≤ (through b p).gap r) : 0 ≤ (through b p).gap q := by
  refine sub_nonneg.mpr ((sub_nonneg.mp hq).trans ?_)
  refine eval_le_left hrp ?_ ?_ hqr
  · rw [eval_through_left]
    exact sub_nonneg.mp hr
  · rw [eval_through_right hrp.ne, eval_through_right hbp.ne]

/-- `a` と `p` を上に越える一次式は、二点を結ぶ線分の下にある `b` も越える。 -/
theorem gap_nonneg_of_under {a b p : K × K} (hab : a.1 < b.1) (hbp : b.1 ≤ p.1)
    (h : (through a b).gap p ≤ 0) (ha : 0 ≤ f.gap a) (hp : 0 ≤ f.gap p) : 0 ≤ f.gap b := by
  have hle : (through a b).eval b.1 ≤ f.eval b.1 := by
    refine eval_le_between ?_ ?_ hab.le hbp
    · rw [eval_through_left]
      exact sub_nonneg.mp ha
    · exact (sub_nonpos.mp h).trans (sub_nonneg.mp hp)
  rw [eval_through_right hab.ne] at hle
  exact sub_nonneg.mpr hle

end Line

/-! ## 凸な点の列 -/

section Chain

variable {K : Type*} [Field K] [LinearOrder K] {P : Type*} (pt : P → K × K)

/-- 左から右へ並び、隣り合う三点がどれも上に凸に曲がる列。まっすぐでもよい。 -/
def Concave : List P → Prop
  | a :: b :: c :: rest =>
    (pt a).1 < (pt b).1 ∧ 0 ≤ (Line.through (pt a) (pt b)).gap (pt c) ∧ Concave (b :: c :: rest)
  | [a, b] => (pt a).1 < (pt b).1
  | _ => True

variable {pt} {a b : P} {l : List P}

theorem Concave.tail (h : Concave pt (a :: l)) : Concave pt l := by
  rcases l with _ | ⟨b, _ | ⟨c, l⟩⟩
  · trivial
  · trivial
  · exact h.2.2

theorem Concave.head_lt (h : Concave pt (a :: b :: l)) : (pt a).1 < (pt b).1 := by
  rcases l with _ | ⟨c, l⟩
  · exact h
  · exact h.1

theorem Concave.sorted (h : Concave pt l) : l.Pairwise fun a b => (pt a).1 < (pt b).1 := by
  induction l with
  | nil => exact List.Pairwise.nil
  | cons a l ih =>
    have hl := ih h.tail
    refine List.pairwise_cons.mpr ⟨fun c hc => ?_, hl⟩
    cases l with
    | nil => cases hc
    | cons b l =>
      rcases List.mem_cons.mp hc with rfl | hc
      · exact h.head_lt
      · exact h.head_lt.trans ((List.pairwise_cons.mp hl).1 c hc)

theorem Concave.of_append_right {l₁ : List P} (h : Concave pt (l₁ ++ l)) : Concave pt l := by
  induction l₁ with
  | nil => exact h
  | cons a l₁ ih => exact ih h.tail

theorem Concave.of_append_left {l₁ : List P} (h : Concave pt (l₁ ++ l)) : Concave pt l₁ := by
  induction l₁ with
  | nil => trivial
  | cons a l₁ ih =>
    have ih := ih h.tail
    rcases l₁ with _ | ⟨b, _ | ⟨c, l₁⟩⟩
    · trivial
    · exact h.head_lt
    · exact ⟨h.1, h.2.1, ih⟩

/-- 末尾に点を足しても凸なのは、最後の三点が凸に曲がるときである。 -/
theorem Concave.concat {p : P} (h : Concave pt (l ++ [a])) (hp : (pt a).1 < (pt p).1)
    (hbend : ∀ l' b, l = l' ++ [b] → 0 ≤ (Line.through (pt b) (pt a)).gap (pt p)) :
    Concave pt (l ++ [a] ++ [p]) := by
  rw [List.append_assoc]
  induction l with
  | nil => exact hp
  | cons b l ih =>
    have ih := ih h.tail fun l' c hl => hbend (b :: l') c (by rw [hl]; rfl)
    rcases l with _ | ⟨c, _ | ⟨d, l⟩⟩
    · exact ⟨h, hbend [] b rfl, hp⟩
    · exact ⟨h.1, h.2.1, ih⟩
    · exact ⟨h.1, h.2.1, ih⟩

end Chain

variable {K : Type*} [Field K] [LinearOrder K] [IsStrictOrderedRing K] {P : Type*} {pt : P → K × K}

/-- **凸な列は、一次式から下に離れ始めたら、その先でも離れていく。** -/
theorem Concave.gap_mono {a b : P} {l : List P} {f : Line K} (h : Concave pt (a :: b :: l))
    (hab : f.gap (pt a) ≤ f.gap (pt b)) : ∀ c ∈ l, f.gap (pt b) ≤ f.gap (pt c) := by
  induction l generalizing a b with
  | nil => simp
  | cons c l ih =>
    have hbc := h.tail.head_lt
    -- `c` は `a` と `b` を通る直線の下にあり、その直線は `f` から離れていく
    have hc : f.gap (pt b) ≤ f.gap (pt c) := by
      have hsub := Line.eval_sub f (pt a).1 (pt b).1
      have hline := Line.eval_sub (Line.through (pt a) (pt b)) (pt a).1 (pt b).1
      rw [Line.eval_through_left, Line.eval_through_right h.head_lt.ne] at hline
      have hgap := h.2.1
      unfold Line.gap at hab hgap ⊢
      have hslope : (Line.through (pt a) (pt b)).slope ≤ f.slope :=
        le_of_mul_le_mul_right (by linarith) (sub_pos.mpr h.head_lt)
      have hm := mul_le_mul_of_nonneg_right hslope (sub_nonneg.mpr hbc.le)
      have hf := Line.eval_sub f (pt b).1 (pt c).1
      have hg := Line.eval_sub (Line.through (pt a) (pt b)) (pt b).1 (pt c).1
      rw [Line.eval_through_right h.head_lt.ne] at hg
      linarith
    intro d hd
    rcases List.mem_cons.mp hd with rfl | hd
    · exact hc
    · exact hc.trans (ih h.tail hc d hd)

end Plin.Infra
