import Plin.Index.Segmentation
import Plin.Infra.Line
import Plin.Properties.ModelCorrection

/-!
# `OptimalPiecewiseLinearModel` の不変量

`add_point` は、位置を ε だけ下げた点（床）と上げた点（天井）の間の帯を通る一次式を、二本の直線で
持つ。`rect0` と `rect2` を通る直線が最も緩く、`rect1` と `rect3` を通る直線が最も急である（`Hull.Fits`）。

- 受け入れた点は帯に加わり（`Hull.Fits.extend_some`）、**断るのは帯を通る一次式が無くなるときに限る**
  （`Hull.Fits.extend_none`）。
- `line` の一次式は帯を通る（`Hull.Fits.line`）。

二本の直線の更新は上下を入れ替えると同じ計算なので（`Hull.tightenLower_eq`）、最も急な直線の側（`Hull.Steep`）
だけを調べる。凸包から除いた点は、残りの点を越える一次式が必ず越える。これが `Steep.enough` である。
-/

namespace Plin

open Infra

namespace Point

/-- 有理数の平面の点。 -/
def pt (p : Point) : ℚ × ℚ := (p.x, p.y)

/-- 上下を入れ替えた点。 -/
def flip (p : Point) : Point := ⟨p.x, -p.y⟩

@[simp] theorem flip_flip (p : Point) : p.flip.flip = p := by
  rw [flip, flip, neg_neg]

@[simp] theorem flip_x (p : Point) : p.flip.x = p.x := rfl

@[simp] theorem flip_y (p : Point) : p.flip.y = -p.y := rfl

@[simp] theorem pt_fst (p : Point) : p.pt.1 = p.x := rfl

@[simp] theorem pt_snd (p : Point) : p.pt.2 = p.y := rfl

theorem pt_lt {a b : Point} : a.pt.1 < b.pt.1 ↔ a.x < b.x := Int.cast_lt

theorem pt_le {a b : Point} : a.pt.1 ≤ b.pt.1 ↔ a.x ≤ b.x := Int.cast_le

/-- 二点を通る直線との上下。分母を払った整数の式である。 -/
theorem gap_mul {a b : Point} (p : Point) (h : a.x < b.x) :
    (Line.through a.pt b.pt).gap p.pt * ((b.x - a.x : Int) : ℚ) =
      (((b.y - a.y) * (p.x - a.x) - (b.x - a.x) * (p.y - a.y) : Int) : ℚ) := by
  have hne : ((b.x : ℚ) - a.x) ≠ 0 := sub_ne_zero.mpr (by exact_mod_cast h.ne')
  rw [Line.gap, Line.eval, Line.through]
  push_cast
  simp only [pt]
  field_simp
  ring

theorem gap_pos_iff {a b p : Point} (h : a.x < b.x) :
    0 < (Line.through a.pt b.pt).gap p.pt ↔
      (b.x - a.x) * (p.y - a.y) < (b.y - a.y) * (p.x - a.x) := by
  have hpos : (0 : ℚ) < ((b.x - a.x : Int) : ℚ) := by exact_mod_cast sub_pos.mpr h
  rw [← mul_pos_iff_of_pos_right hpos, gap_mul p h, Int.cast_pos, sub_pos]

theorem gap_neg_iff {a b p : Point} (h : a.x < b.x) :
    (Line.through a.pt b.pt).gap p.pt < 0 ↔
      (b.y - a.y) * (p.x - a.x) < (b.x - a.x) * (p.y - a.y) := by
  have hpos : (0 : ℚ) < ((b.x - a.x : Int) : ℚ) := by exact_mod_cast sub_pos.mpr h
  rw [← sub_neg (a := (b.y - a.y) * (p.x - a.x)), ← Int.cast_lt_zero (R := ℚ), ← gap_mul p h]
  exact ⟨fun h' => mul_neg_of_neg_of_pos h' hpos, fun h' => neg_of_mul_neg_left h' hpos.le⟩

/-! ### 傾きの比較 -/

section Slope

variable {a b p : Point}

/-- 右端への傾きの比較。 -/
theorem sub_end_lt (h : a.x < b.x) :
    (a.sub b).lt (p.sub b) = true ↔ 0 < (Line.through a.pt b.pt).gap p.pt := by
  rw [gap_pos_iff h, Slope.lt, decide_eq_true_iff]
  simp only [sub]
  constructor <;> intro h <;> linarith

/-- 左端からの傾きの比較。 -/
theorem sub_start_lt (h : a.x < b.x) :
    (p.sub a).lt (b.sub a) = true ↔ 0 < (Line.through a.pt b.pt).gap p.pt := by
  rw [gap_pos_iff h, Slope.lt, decide_eq_true_iff]
  simp only [sub]
  constructor <;> intro h <;> linarith

/-- 右端から先への傾きの比較。 -/
theorem sub_beyond_lt (h : a.x < b.x) :
    (p.sub b).lt (b.sub a) = true ↔ 0 < (Line.through a.pt b.pt).gap p.pt := by
  rw [gap_pos_iff h, Slope.lt, decide_eq_true_iff]
  simp only [sub]
  constructor <;> intro h <;> linarith

theorem lt_sub_beyond (h : a.x < b.x) :
    (b.sub a).lt (p.sub b) = true ↔ (Line.through a.pt b.pt).gap p.pt < 0 := by
  rw [gap_neg_iff h, Slope.lt, decide_eq_true_iff]
  simp only [sub]
  constructor <;> intro h <;> linarith

/-- 曲がる向き。 -/
theorem cross_neg (h : a.x < b.x) :
    cross a b p < 0 ↔ 0 < (Line.through a.pt b.pt).gap p.pt := by
  rw [gap_pos_iff h]
  simp only [cross, sub]
  constructor <;> intro h <;> linarith

end Slope

end Point

/-! ## 上下の入れ替え -/

/-- 上下を入れ替えた傾き。 -/
def Slope.flip (a : Slope) : Slope := ⟨a.dx, -a.dy⟩

theorem Slope.lt_flip (a b : Slope) : a.flip.lt b.flip = b.lt a := by
  rw [lt, lt, decide_eq_decide]
  simp only [flip]
  constructor <;> intro h <;> linarith

namespace Point

theorem sub_flip (p q : Point) : p.flip.sub q.flip = (p.sub q).flip := by
  simp only [sub, flip, Slope.flip]
  rw [neg_sub_neg, neg_sub]

theorem cross_flip (o a b : Point) : cross o.flip a.flip b.flip = -cross o a b := by
  simp only [cross, sub_flip, Slope.flip]
  ring

end Point

namespace Hull

open Point

/-! ## 極値を探す loop -/

/--
凸な列の先頭から進む loop は、`p` に引いた直線の下に列の全ての点が収まる点で止まる。列の点は `p` の左か、
`p` の真下にある。
-/
theorem extreme_spec {p : Point} {rest : List Point} :
    ∀ {q : Point} {best : Nat}, Concave pt (q :: rest) → q.x < p.x →
      (∀ a ∈ rest, a.x < p.x ∨ a.x = p.x ∧ a.y < p.y) →
      ∃ l b l', q :: rest = l ++ b :: l' ∧
        extreme (fun a b => b.lt a) p rest (best + 1) (q.sub p) best = best + l.length ∧
        b.x < p.x ∧ ∀ a ∈ q :: rest, 0 ≤ (Line.through b.pt p.pt).gap a.pt := by
  induction rest with
  | nil =>
    intro q best _ hq _
    refine ⟨[], q, [], rfl, rfl, hq, fun a ha => ?_⟩
    rw [List.mem_singleton.mp ha, Line.gap_through_left]
  | cons r rest ih =>
    intro q best hc hq hrest
    rw [extreme]
    by_cases hstop : (q.sub p).lt (r.sub p) = true
    · -- `r` から先は、`q` と `p` の間の直線から離れていく
      have hr := (sub_end_lt hq).mp hstop
      have hgap : (Line.through q.pt p.pt).gap q.pt ≤ (Line.through q.pt p.pt).gap r.pt := by
        rw [Line.gap_through_left]
        exact hr.le
      refine ⟨[], q, r :: rest, rfl, if_pos hstop, hq, fun a ha => ?_⟩
      rcases List.mem_cons.mp ha with rfl | ha
      · rw [Line.gap_through_left]
      · rcases List.mem_cons.mp ha with rfl | ha
        · exact hr.le
        · exact hr.le.trans (hc.gap_mono hgap a ha)
    · have hr : (Line.through q.pt p.pt).gap r.pt ≤ 0 :=
        not_lt.mp fun h => hstop ((sub_end_lt hq).mpr h)
      have hqr : q.x < r.x := pt_lt.mp hc.head_lt
      have hrp : r.x < p.x := by
        refine (hrest r List.mem_cons_self).resolve_right fun hv => ?_
        -- `p` の真下の点は直線の下にある
        have hp : (Line.through q.pt p.pt).eval r.pt.1 = p.y := by
          rw [pt_fst, hv.1]
          exact Line.eval_through_right (p := q.pt) (q := p.pt) (pt_lt.mpr hq).ne
        rw [Line.gap, hp, pt_snd, sub_nonpos] at hr
        exact absurd hv.2 (not_lt.mpr (by exact_mod_cast hr))
      rw [if_neg hstop]
      obtain ⟨l, b, l', hl, hres, hb, hall⟩ :=
        @ih r (best + 1) hc.tail hrp fun a ha => hrest a (List.mem_cons_of_mem _ ha)
      refine ⟨q :: l, b, l', by rw [hl]; rfl, by rw [hres, List.length_cons]; omega, hb,
        fun a ha => ?_⟩
      rcases List.mem_cons.mp ha with rfl | ha
      · have hqr' := pt_le.mpr hqr.le
        have hrp' := pt_lt.mpr hrp
        exact Line.gap_through_trans hqr' hrp' (pt_lt.mpr hb)
          (Line.gap_through_swap hqr' hrp' hr) (hall r List.mem_cons_self)
      · exact hall a ha

/-! ## 凸包の末尾を除く loop -/

theorem exists_last_two {l : List Point} (h : 2 ≤ l.length) :
    ∃ l₀ a b, l = l₀ ++ [a] ++ [b] := by
  obtain rfl | ⟨l₁, b, rfl⟩ := l.eq_nil_or_concat'
  · simp at h
  · obtain rfl | ⟨l₀, a, rfl⟩ := l₁.eq_nil_or_concat'
    · simp at h
    · exact ⟨l₀, a, b, rfl⟩

/-- 除いた点は、残った点と新しい点 `p` を上に越える一次式の下にある。残りに `p` を足した列は凸である。 -/
theorem popWhile_spec {p : Point} {start : Nat} :
    ∀ {fuel : Nat} {l : List Point}, l.length ≤ fuel → start < l.length →
      Concave pt (l.drop start) → (∀ a ∈ l.drop start, a.x < p.x) →
      ∃ n, start < n ∧ n ≤ l.length ∧
        popWhile (fun a b => 0 ≤ cross a b p) start fuel l = l.take n ∧
        Concave pt ((l.take n).drop start ++ [p]) ∧
        ∀ f : Line ℚ, (∀ a ∈ (l.take n).drop start, 0 ≤ f.gap a.pt) → 0 ≤ f.gap p.pt →
          ∀ a ∈ l.drop start, 0 ≤ f.gap a.pt := by
  intro fuel
  induction fuel with
  | zero =>
    intro l hlen hstart
    omega
  | succ fuel ih =>
    intro l hlen hstart hc hx
    by_cases hmore : start + 2 ≤ l.length
    · obtain ⟨l₀, a, b, rfl⟩ := exists_last_two (by omega : 2 ≤ l.length)
      have hlen' : (l₀ ++ [a] ++ [b]).length = l₀.length + 2 := by simp
      have hget : (l₀ ++ [a] ++ [b])[(l₀ ++ [a] ++ [b]).length - 2]? = some a := by simp
      have hget' : (l₀ ++ [a] ++ [b])[(l₀ ++ [a] ++ [b]).length - 1]? = some b := by simp
      have hdrop₀ : (l₀ ++ [a]).drop start = l₀.drop start ++ [a] :=
        List.drop_append_of_le_length (by omega)
      have hdrop : (l₀ ++ [a] ++ [b]).drop start = (l₀ ++ [a]).drop start ++ [b] :=
        List.drop_append_of_le_length (by rw [List.length_append]; omega)
      rw [hdrop] at hc hx ⊢
      have hab : a.x < b.x := by
        rw [hdrop₀, List.append_assoc] at hc
        exact pt_lt.mp hc.of_append_right
      have hbp : b.x < p.x := hx b (List.mem_append_right _ (List.mem_singleton_self b))
      rw [popWhile, if_pos hmore, hget, hget']
      dsimp only
      by_cases hbad : 0 ≤ cross a b p
      · rw [if_pos (decide_eq_true hbad), List.dropLast_concat]
        obtain ⟨n, hn, hle, hpop, hconc, hall⟩ := @ih (l₀ ++ [a]) (by simp at hlen ⊢; omega)
          (by simp; omega) hc.of_append_left fun c hc => hx c (List.mem_append_left _ hc)
        have htake : (l₀ ++ [a] ++ [b]).take n = (l₀ ++ [a]).take n :=
          List.take_append_of_le_length hle
        refine ⟨n, hn, hle.trans (by simp), by rw [hpop, htake], by rwa [htake], ?_⟩
        intro f hf hp c hcm
        rw [htake] at hf
        have hleft := hall f hf hp
        rcases List.mem_append.mp hcm with hcm | hcm
        · exact hleft c hcm
        · -- 除いた点は、両隣を結ぶ線分の下にある
          obtain rfl := List.mem_singleton.mp hcm
          have hgap := not_lt.mp fun h => absurd ((cross_neg hab).mpr h) (not_lt.mpr hbad)
          exact Line.gap_nonneg_of_under (pt_lt.mpr hab) (pt_lt.mpr hbp).le hgap
            (hleft a (by rw [hdrop₀]; simp)) hp
      · rw [if_neg (by simpa using hbad)]
        have hgap := (cross_neg hab).mp (not_le.mp hbad)
        refine ⟨_, hstart, le_rfl, List.take_length.symm, ?_, fun f hf _ => ?_⟩
        · rw [List.take_length, hdrop]
          refine Concave.concat hc (pt_lt.mpr hbp) fun l' c hl' => ?_
          rw [hdrop₀] at hl'
          obtain ⟨-, hac⟩ := List.append_inj' hl' rfl
          obtain rfl := List.singleton_inj.mp hac
          exact hgap.le
        · rwa [List.take_length, hdrop] at hf
    · rw [popWhile, if_neg hmore]
      obtain ⟨a, ha⟩ := List.length_eq_one_iff.mp
        (show (l.drop start).length = 1 by rw [List.length_drop]; omega)
      refine ⟨l.length, hstart, le_rfl, (List.take_length).symm, ?_, fun f hf _ => ?_⟩
      · rw [List.take_length, ha]
        exact pt_lt.mpr (hx a (by rw [ha]; exact List.mem_cons_self))
      · rwa [List.take_length] at hf

/-! ## 帯を通る一次式 -/

/-- 床の点 `F` より上、天井の点 `C` より下を通る一次式。 -/
structure Between (F C : Set Point) (f : Line ℚ) : Prop where
  floor : ∀ a ∈ F, 0 ≤ f.gap a.pt
  ceiling : ∀ c ∈ C, f.gap c.pt ≤ 0

/--
床の点 `a` と天井の点 `c` を通る直線は、帯を通る最も急な一次式である。`A` は床の凸包の、`a` から先の部分で
ある。**床の全ての点を調べる代わりに、`A` を調べれば足りる。**
-/
structure Steep (F C : Set Point) (A : List Point) (a c : Point) : Prop where
  head : A.head? = some a
  lt : a.x < c.x
  mem : c ∈ C
  sub : ∀ b ∈ A, b ∈ F
  between : Between F C (Line.through a.pt c.pt)
  concave : Concave pt A
  enough : ∀ f : Line ℚ, (∀ q ∈ C, f.gap q.pt ≤ 0) → f.slope ≤ (Line.through a.pt c.pt).slope →
    (∀ b ∈ A, 0 ≤ f.gap b.pt) → ∀ b ∈ F, 0 ≤ f.gap b.pt

namespace Steep

variable {F C : Set Point} {A : List Point} {a c p : Point}

theorem mem_head (h : Steep F C A a c) : a ∈ A := List.mem_of_mem_head? h.head

/-- 帯を通る一次式は、`c` から先では最も急な直線より上に出ない。 -/
theorem eval_le (h : Steep F C A a c) {f : Line ℚ} (hf : Between F C f) {x : ℚ} (hx : c.x ≤ x) :
    f.eval x ≤ (Line.through a.pt c.pt).eval x := by
  have hac := pt_lt.mpr h.lt
  refine Line.eval_le_right hac ?_ ?_ hx
  · rw [Line.eval_through_left]
    exact sub_nonneg.mp (hf.floor a (h.sub a h.mem_head))
  · rw [Line.eval_through_right hac.ne]
    exact sub_nonpos.mp (hf.ceiling c h.mem)

/-- 最も急な直線より上に天井を足す。 -/
theorem addCeiling (h : Steep F C A a c) (hp : (Line.through a.pt c.pt).gap p.pt ≤ 0) :
    Steep F (insert p C) A a c where
  head := h.head
  lt := h.lt
  mem := Set.mem_insert_of_mem p h.mem
  sub := h.sub
  between := ⟨h.between.floor, Set.forall_mem_insert.mpr ⟨hp, h.between.ceiling⟩⟩
  concave := h.concave
  enough f hf := h.enough f fun q hq => hf q (Set.mem_insert_of_mem p hq)

/-- 帯を通るどの一次式も越える床は、凸包に足さなくてもよい。 -/
theorem skipFloor (h : Steep F C A a c) (hp : ∀ f, Between F C f → 0 ≤ f.gap p.pt) :
    Steep (insert p F) C A a c where
  head := h.head
  lt := h.lt
  mem := h.mem
  sub b hb := Set.mem_insert_of_mem p (h.sub b hb)
  between := ⟨Set.forall_mem_insert.mpr ⟨hp _ h.between, h.between.floor⟩, h.between.ceiling⟩
  concave := h.concave
  enough f hf hs hA := by
    have hF := h.enough f hf hs hA
    exact Set.forall_mem_insert.mpr ⟨hp f ⟨hF, hf⟩, hF⟩

/-- 床を凸包の末尾に足す。除く点は、残りの点と足す点を越える一次式が越える点である。 -/
theorem pushFloor (h : Steep F C A a c) {A' : List Point}
    (hp : 0 ≤ (Line.through a.pt c.pt).gap p.pt) (hhead : A'.head? = some a)
    (hsub : ∀ b ∈ A', b ∈ A) (hc : Concave pt (A' ++ [p]))
    (hpop : ∀ f : Line ℚ, (∀ b ∈ A', 0 ≤ f.gap b.pt) → 0 ≤ f.gap p.pt → ∀ b ∈ A, 0 ≤ f.gap b.pt) :
    Steep (insert p F) C (A' ++ [p]) a c where
  head := by rw [List.head?_append, hhead]; rfl
  lt := h.lt
  mem := h.mem
  sub := by
    intro b hb
    rcases List.mem_append.mp hb with hb | hb
    · exact Set.mem_insert_of_mem p (h.sub b (hsub b hb))
    · exact List.mem_singleton.mp hb ▸ Set.mem_insert p F
  between := ⟨Set.forall_mem_insert.mpr ⟨hp, h.between.floor⟩, h.between.ceiling⟩
  concave := hc
  enough f hf hs hA := by
    have hp := hA p (by simp)
    have hA' := hpop f (fun b hb => hA b (List.mem_append_left _ hb)) hp
    exact Set.forall_mem_insert.mpr ⟨hp, h.enough f hf hs hA'⟩

/--
天井 `p` が最も急な直線より下に来たら、`p` に引いた直線の下に凸包の全ての点が収まる点 `b` から引き直す。
`g` は帯を通り、`p` より上に出ない一次式である。
-/
theorem tighten (h : Steep F C A a c) {g : Line ℚ} (hg : Between F C g) (hgp : g.gap p.pt ≤ 0)
    (hp : 0 < (Line.through a.pt c.pt).gap p.pt) (hx : ∀ q ∈ C, q.x < p.x) {b : Point}
    {l l' : List Point} (hA : A = l ++ b :: l') (hb : b.x < p.x)
    (hall : ∀ q ∈ A, 0 ≤ (Line.through b.pt p.pt).gap q.pt) :
    Steep F (insert p C) (b :: l') b p := by
  have hbA : b ∈ A := by rw [hA]; simp
  have hbF := h.sub b hbA
  have hbp := pt_lt.mpr hb
  have hend : (Line.through b.pt p.pt).eval p.pt.1 = p.pt.2 := Line.eval_through_right hbp.ne
  -- 新しい直線は、`b` から `p` までは元の直線より、`b` の左では `g` より上に出ない
  have hceil : ∀ q ∈ C, (Line.through b.pt p.pt).gap q.pt ≤ 0 := by
    intro q hq
    refine sub_nonpos.mpr ?_
    rcases le_total b.pt.1 q.pt.1 with hbq | hqb
    · refine le_trans (Line.eval_le_between ?_ ?_ hbq (pt_lt.mpr (hx q hq)).le)
        (sub_nonpos.mp (h.between.ceiling q hq))
      · rw [Line.eval_through_left]
        exact sub_nonneg.mp (h.between.floor b hbF)
      · rw [hend]
        exact (sub_pos.mp hp).le
    · refine le_trans (Line.eval_le_left hbp ?_ ?_ hqb) (sub_nonpos.mp (hg.ceiling q hq))
      · rw [Line.eval_through_left]
        exact sub_nonneg.mp (hg.floor b hbF)
      · rw [hend]
        exact sub_nonpos.mp hgp
  have hslope : (Line.through b.pt p.pt).slope ≤ (Line.through a.pt c.pt).slope := by
    have hap : a.pt.1 < p.pt.1 := (pt_lt.mpr h.lt).trans (pt_lt.mpr (hx c h.mem))
    refine Line.slope_le hap ?_ ?_
    · rw [Line.eval_through_left]
      exact sub_nonneg.mp (hall a h.mem_head)
    · rw [hend]
      exact (sub_pos.mp hp).le
  have hfloor := h.enough _ hceil hslope hall
  refine ⟨rfl, hb, Set.mem_insert p C, fun q hq => ?_, ⟨hfloor, ?_⟩, ?_, fun f hf hs hl' => ?_⟩
  · exact h.sub q (by rw [hA]; exact List.mem_append_right _ hq)
  · exact Set.forall_mem_insert.mpr ⟨(Line.gap_through_right hbp.ne).le, hceil⟩
  · have hc := h.concave
    rw [hA] at hc
    exact hc.of_append_right
  · -- `b` の左の点は、`b` を越えて傾きの小さい一次式が越える
    refine h.enough f (fun q hq => hf q (Set.mem_insert_of_mem p hq)) (hs.trans hslope) ?_
    intro q hq
    rw [hA] at hq
    rcases List.mem_append.mp hq with hq' | hq'
    · have hsorted := h.concave.sorted
      rw [hA] at hsorted
      have hqb := (List.pairwise_append.mp hsorted).2.2 q hq' b List.mem_cons_self
      refine sub_nonneg.mpr ((sub_nonneg.mp (hall q (by rw [hA]; simp [hq']))).trans ?_)
      refine Line.eval_le_of_slope_left hs ?_ hqb.le
      rw [Line.eval_through_left]
      exact sub_nonneg.mp (hl' b List.mem_cons_self)
    · exact hl' q hq'

end Steep

/-! ## 上下の入れ替え -/

/-- 上下を入れ替えた状態。 -/
def flip (h : Hull) : Hull :=
  { epsilon := h.epsilon, lower := h.upper.map Point.flip, upper := h.lower.map Point.flip
    lowerStart := h.upperStart, upperStart := h.lowerStart
    rect0 := h.rect1.flip, rect1 := h.rect0.flip, rect2 := h.rect3.flip, rect3 := h.rect2.flip }

theorem map_flip_flip (l : List Point) : (l.map Point.flip).map Point.flip = l := by
  rw [List.map_map]
  exact List.map_id'' Point.flip_flip l

@[simp] theorem flip_flip (h : Hull) : h.flip.flip = h := by
  simp only [flip, map_flip_flip, Point.flip_flip]

/-- 点を写しても、loop の止まる所は変わらない。 -/
theorem extreme_map {worse worse' : Slope → Slope → Bool} {p p' : Point} {f : Point → Point}
    {g : Slope → Slope} (hw : ∀ a b, worse' (g a) (g b) = worse a b)
    (hp : ∀ q, (f q).sub p' = g (q.sub p)) {l : List Point} :
    ∀ {i best : Nat} {cur : Slope},
      extreme worse' p' (l.map f) i (g cur) best = extreme worse p l i cur best := by
  induction l with
  | nil =>
    intro i best cur
    rfl
  | cons q l ih =>
    intro i best cur
    rw [List.map_cons, extreme, extreme, hp, hw]
    split
    · rfl
    · exact ih

theorem popWhile_map {bad bad' : Point → Point → Bool} {f : Point → Point}
    (hb : ∀ a b, bad' (f a) (f b) = bad a b) (start : Nat) :
    ∀ {fuel : Nat} {l : List Point},
      popWhile bad' start fuel (l.map f) = (popWhile bad start fuel l).map f := by
  intro fuel
  induction fuel with
  | zero =>
    intro l
    rfl
  | succ fuel ih =>
    intro l
    rw [popWhile, popWhile, List.length_map, List.getElem?_map, List.getElem?_map]
    split
    · rw [List.getElem?_eq_getElem (by omega : l.length - 2 < l.length),
        List.getElem?_eq_getElem (by omega : l.length - 1 < l.length)]
      simp only [Option.map_some, hb]
      split
      · rw [← List.map_dropLast, ih]
      · rfl
    · rfl

/-- 上側の凸包から除く loop を、下側の凸包の向きで読む。 -/
theorem popWhile_flip (p : Point) (start fuel : Nat) (l : List Point) :
    (popWhile (fun a b => cross a b p ≤ 0) start fuel l).map Point.flip =
      popWhile (fun a b => 0 ≤ cross a b p.flip) start fuel (l.map Point.flip) := by
  refine (popWhile_map (fun a b => ?_) start).symm
  rw [cross_flip, decide_eq_decide, neg_nonneg]

theorem getD_map_flip (l : List Point) (i : Nat) (q : Point) :
    (l.map Point.flip).getD i q.flip = (l.getD i q).flip := by
  rw [List.getD_eq_getElem?_getD, List.getElem?_map, Option.getD_map, List.getD_eq_getElem?_getD]

/-- **下側の更新は、上下を入れ替えた上側の更新である。** -/
theorem tightenLower_eq (h : Hull) (p : Point) :
    h.tightenLower p = (h.flip.tightenUpper p.flip).flip := by
  have hdrop : h.flip.lower.drop h.flip.lowerStart =
      (h.upper.drop h.upperStart).map Point.flip := List.map_drop.symm
  unfold tightenLower tightenUpper
  rw [hdrop]
  cases h.upper.drop h.upperStart with
  | nil => exact (flip_flip h).symm
  | cons q rest =>
    have hi : extreme (fun a b => b.lt a) p.flip (rest.map Point.flip) (h.upperStart + 1)
        (q.flip.sub p.flip) h.upperStart =
          extreme (fun a b => a.lt b) p rest (h.upperStart + 1) (q.sub p) h.upperStart := by
      rw [sub_flip]
      exact extreme_map (fun a b => Slope.lt_flip b a) fun q => sub_flip q p
    have hpop := popWhile_flip p.flip h.lowerStart h.lower.length (h.lower.map Point.flip)
    rw [map_flip_flip, Point.flip_flip] at hpop
    simp only [List.map_cons, flip, hi, map_flip_flip, Point.flip_flip, List.map_append,
      List.length_map, hpop, List.map_nil, getD_map_flip]

theorem pt_flip (p : Point) : p.flip.pt = (p.pt.1, -p.pt.2) := by
  rw [Point.flip, pt, pt, Int.cast_neg]

theorem gap_flip (f : Line ℚ) (p : Point) : f.neg.gap p.flip.pt = -f.gap p.pt := by
  rw [pt_flip, Line.gap_neg]

theorem gap_through_flip (a b p : Point) :
    (Line.through a.flip.pt b.flip.pt).gap p.flip.pt = -(Line.through a.pt b.pt).gap p.pt := by
  rw [pt_flip a, pt_flip b, Line.through_neg, gap_flip]

/-- 上下を入れ替えた点の集合。 -/
def flipSet (C : Set Point) : Set Point := {p | p.flip ∈ C}

@[simp] theorem flip_mem_flipSet {C : Set Point} {p : Point} : p.flip ∈ flipSet C ↔ p ∈ C := by
  rw [flipSet, Set.mem_ofPred_eq, Point.flip_flip]

@[simp] theorem flipSet_flipSet (C : Set Point) : flipSet (flipSet C) = C := by
  ext p
  simp only [flipSet, Set.mem_ofPred_eq, Point.flip_flip]

theorem flip_eq_iff {p q : Point} : q.flip = p ↔ q = p.flip := by
  constructor
  · rintro rfl
    exact (Point.flip_flip q).symm
  · rintro rfl
    exact Point.flip_flip p

theorem flipSet_insert (p : Point) (C : Set Point) :
    flipSet (insert p C) = insert p.flip (flipSet C) := by
  ext q
  simp only [flipSet, Set.mem_ofPred_eq, Set.mem_insert_iff, flip_eq_iff]

theorem Between.flip {F C : Set Point} {f : Line ℚ} (h : Between F C f) :
    Between (flipSet C) (flipSet F) f.neg where
  floor a ha := by
    rw [← Point.flip_flip a, gap_flip]
    exact neg_nonneg.mpr (h.ceiling _ ha)
  ceiling c hc := by
    rw [← Point.flip_flip c, gap_flip]
    exact neg_nonpos.mpr (h.floor _ hc)

theorem Between.unflip {F C : Set Point} {f : Line ℚ} (h : Between (flipSet C) (flipSet F) f) :
    Between F C f.neg := by
  have h' := h.flip
  rwa [flipSet_flipSet, flipSet_flipSet] at h'

/-! ## 状態の不変条件 -/

/-- `rect1` と `rect3` を通る直線は、帯を通る最も急な一次式である。 -/
def Half (h : Hull) (F C : Set Point) : Prop :=
  Steep F C (h.lower.drop h.lowerStart) h.rect1 h.rect3

/-- 床の点 `F` と天井の点 `C` を足し終えた状態。 -/
structure Fits (h : Hull) (F C : Set Point) : Prop where
  steep : h.Half F C
  flat : h.flip.Half (flipSet C) (flipSet F)

namespace Fits

variable {h : Hull} {F C : Set Point} {p : Point}

theorem flip (hf : h.Fits F C) : h.flip.Fits (flipSet C) (flipSet F) where
  steep := hf.flat
  flat := by
    rw [flip_flip, flipSet_flipSet, flipSet_flipSet]
    exact hf.steep

theorem flat_lt (hf : h.Fits F C) : h.rect0.x < h.rect2.x := hf.flat.lt

/-- `rect0` と `rect2` を通る直線も帯を通る。 -/
theorem between_flat (hf : h.Fits F C) : Between F C (Line.through h.rect0.pt h.rect2.pt) := by
  have hb := hf.flat.between.unflip
  have hneg : (Line.through h.rect0.flip.pt h.rect2.flip.pt).neg =
      Line.through h.rect0.pt h.rect2.pt := by
    rw [pt_flip, pt_flip, Line.through_neg]
    exact Line.ext (neg_neg _) (neg_neg _)
  rw [← hneg]
  exact hb

/-- 右端の先で、帯を通る一次式は `rect0` と `rect2` を通る直線より下に出ない。 -/
theorem flat_le (hf : h.Fits F C) {f : Line ℚ} (hb : Between F C f) {x : ℚ}
    (hx : h.rect2.x ≤ x) : (Line.through h.rect0.pt h.rect2.pt).eval x ≤ f.eval x := by
  have hle := hf.flat.eval_le hb.flip hx
  rw [show h.flip.rect1 = h.rect0.flip from rfl, show h.flip.rect3 = h.rect2.flip from rfl,
    pt_flip, pt_flip, Line.through_neg, Line.eval_neg, Line.eval_neg] at hle
  exact neg_le_neg_iff.mp hle

/-- 足した天井を上側の凸包の末尾に置く。最も緩い直線は変わらない。 -/
theorem pushUpper (hf : h.Fits F C) (hxc : ∀ c ∈ C, c.x < p.x)
    (hge : (Line.through h.rect0.pt h.rect2.pt).gap p.pt ≤ 0) :
    Steep (flipSet (insert p C)) (flipSet F)
      (((popWhile (fun a b => cross a b p ≤ 0) h.upperStart h.upper.length h.upper ++ [p]).map
        Point.flip).drop h.upperStart) h.rect0.flip h.rect2.flip := by
  have hflat : Steep (flipSet C) (flipSet F) ((h.upper.map Point.flip).drop h.upperStart)
      h.rect0.flip h.rect2.flip := hf.flat
  have hstart : h.upperStart < (h.upper.map Point.flip).length := by
    have hpos := List.length_pos_of_mem hflat.mem_head
    rw [List.length_drop] at hpos
    omega
  obtain ⟨n, hn, hle, hpop, hconc, hall⟩ := @popWhile_spec p.flip h.upperStart h.upper.length
    (h.upper.map Point.flip) (List.length_map _).le hstart hflat.concave
    fun a ha => hxc a.flip (hflat.sub a ha)
  have htake : ((h.upper.map Point.flip).take n).drop h.upperStart =
      ((h.upper.map Point.flip).drop h.upperStart).take (n - h.upperStart) := List.drop_take ..
  rw [List.map_append, popWhile_flip, hpop, flipSet_insert, List.map_singleton,
    List.drop_append_of_le_length (by rw [List.length_take]; omega)]
  refine hflat.pushFloor ?_ ?_ (fun b hb => ?_) hconc hall
  · rw [gap_through_flip]
    exact neg_nonneg.mpr hge
  · rw [htake, List.head?_take, if_neg (by omega)]
    exact hflat.head
  · rw [htake] at hb
    exact List.mem_of_mem_take hb

/-- 天井 `p` が最も急な直線より下に来たら、上側の更新がその直線を引き直す。 -/
theorem tightenUpper (hf : h.Fits F C) (hx : ∀ a ∈ F, a.x < p.x ∨ a.x = p.x ∧ a.y < p.y)
    (hxc : ∀ c ∈ C, c.x < p.x) (hge : (Line.through h.rect0.pt h.rect2.pt).gap p.pt ≤ 0)
    (hp : 0 < (Line.through h.rect1.pt h.rect3.pt).gap p.pt) :
    (h.tightenUpper p).Fits F (insert p C) := by
  have hmem := hf.steep.mem_head
  have hhead := hf.steep.head
  rcases hd : h.lower.drop h.lowerStart with _ | ⟨q, rest⟩
  · rw [hd] at hmem
    cases hmem
  · rw [hd] at hhead
    obtain rfl : q = h.rect1 := Option.some.inj hhead
    have hsteep : Steep F C (h.rect1 :: rest) h.rect1 h.rect3 := hd ▸ hf.steep
    obtain ⟨l, b, l', hl, hi, hb, hall⟩ := @extreme_spec p rest h.rect1 h.lowerStart
      hsteep.concave (hsteep.lt.trans (hxc _ hsteep.mem)) fun a ha =>
        hx a (hsteep.sub a (List.mem_cons_of_mem _ ha))
    have hdrop : h.lower.drop (h.lowerStart + l.length) = b :: l' := by
      rw [← List.drop_drop, hd, hl, List.drop_left]
    have hget : h.lower.getD (h.lowerStart + l.length) h.rect1 = b := by
      have hb' := @List.getElem?_drop _ h.lower (h.lowerStart + l.length) 0
      rw [hdrop, Nat.add_zero] at hb'
      rw [List.getD_eq_getElem?_getD, ← hb']
      rfl
    unfold Hull.tightenUpper
    rw [hd]
    dsimp only
    rw [hi, hget]
    constructor
    · have ht := hsteep.tighten hf.between_flat hge hp hxc hl hb hall
      rwa [← hdrop] at ht
    · exact hf.pushUpper hxc hge

/-- 最も急な直線より上の天井は、凸包を変えずに足せる。 -/
theorem skipUpper (hf : h.Fits F C) (hxc : ∀ c ∈ C, c.x < p.x)
    (hp : (Line.through h.rect1.pt h.rect3.pt).gap p.pt ≤ 0) : h.Fits F (insert p C) where
  steep := hf.steep.addCeiling hp
  flat := by
    rw [flipSet_insert]
    refine hf.flat.skipFloor fun f hb => ?_
    -- 帯を通る一次式は、右端の先では最も急な直線より上に出ない
    have hle := hf.steep.eval_le hb.unflip (x := p.pt.1)
      (pt_le.mpr (hxc _ hf.steep.mem).le)
    have hgap : f.neg.gap p.pt ≤ 0 :=
      (sub_le_sub_right hle _).trans hp
    have hneg := gap_flip f.neg p
    rw [show f.neg.neg = f from Line.ext (neg_neg _) (neg_neg _)] at hneg
    rw [hneg]
    exact neg_nonneg.mpr hgap

/-- 天井を一つ足す。 -/
theorem addCeiling (hf : h.Fits F C) (hx : ∀ a ∈ F, a.x < p.x ∨ a.x = p.x ∧ a.y < p.y)
    (hxc : ∀ c ∈ C, c.x < p.x) (hge : (Line.through h.rect0.pt h.rect2.pt).gap p.pt ≤ 0) :
    (if (p.sub h.rect1).lt (h.rect3.sub h.rect1) then h.tightenUpper p else h).Fits F
      (insert p C) := by
  have hiff := sub_start_lt (p := p) hf.steep.lt
  by_cases hp : (p.sub h.rect1).lt (h.rect3.sub h.rect1) = true
  · rw [if_pos hp]
    exact hf.tightenUpper hx hxc hge (hiff.mp hp)
  · rw [if_neg hp]
    exact hf.skipUpper hxc (not_lt.mp fun h' => hp (hiff.mpr h'))

/-- 床を一つ足す。 -/
theorem addFloor (hf : h.Fits F C) (hx : ∀ c ∈ C, c.x < p.x ∨ c.x = p.x ∧ p.y < c.y)
    (hxf : ∀ a ∈ F, a.x < p.x) (hle : 0 ≤ (Line.through h.rect1.pt h.rect3.pt).gap p.pt) :
    (if (h.rect2.sub h.rect0).lt (p.sub h.rect0) then h.tightenLower p else h).Fits (insert p F)
      C := by
  have hadd := hf.flip.addCeiling (p := p.flip) (fun c hc => ?_) (fun a ha => hxf a.flip ha) ?_
  · have hflip := hadd.flip
    rw [flipSet_flipSet, flipSet_insert, flipSet_flipSet, Point.flip_flip, apply_ite Hull.flip,
      flip_flip, ← tightenLower_eq] at hflip
    have hlt : (p.flip.sub h.flip.rect1).lt (h.flip.rect3.sub h.flip.rect1) =
        (h.rect2.sub h.rect0).lt (p.sub h.rect0) := by
      rw [show h.flip.rect1 = h.rect0.flip from rfl, show h.flip.rect3 = h.rect2.flip from rfl,
        sub_flip, sub_flip, Slope.lt_flip]
    rwa [hlt] at hflip
  · rcases hx c.flip hc with h' | ⟨h', hy⟩
    · exact Or.inl h'
    · refine Or.inr ⟨h', ?_⟩
      rw [flip_y] at hy ⊢
      omega
  · rw [show h.flip.rect0 = h.rect1.flip from rfl, show h.flip.rect2 = h.rect3.flip from rfl,
      gap_through_flip]
    exact neg_nonpos.mpr hle

end Fits

/-! ## `add_point` -/

section Extend

variable {h h' : Hull} {F C : Set Point} {x : Key} {y : Nat}

theorem tightenUpper_flat (h : Hull) (p : Point) :
    (h.tightenUpper p).rect0 = h.rect0 ∧ (h.tightenUpper p).rect2 = h.rect2 ∧
      (h.tightenUpper p).epsilon = h.epsilon := by
  unfold tightenUpper
  split <;> exact ⟨rfl, rfl, rfl⟩

theorem tightenLower_epsilon (h : Hull) (p : Point) : (h.tightenLower p).epsilon = h.epsilon := by
  rw [tightenLower_eq]
  exact (tightenUpper_flat h.flip p.flip).2.2

theorem tightenUpper_rect3 (hf : h.Fits F C) (p : Point) : (h.tightenUpper p).rect3 = p := by
  unfold tightenUpper
  split
  · next hd =>
    have hmem := hf.steep.mem_head
    rw [hd] at hmem
    cases hmem
  · rfl

/-- **受け入れた点は、帯に加わる。** -/
theorem Fits.extend_some (hf : h.Fits F C) (hpos : 0 < h.epsilon)
    (hF : ∀ a ∈ F, a.x < x.toUnits) (hC : ∀ c ∈ C, c.x < x.toUnits)
    (he : h.extend x y = some h') :
    h'.Fits (insert (below h.epsilon x y) F) (insert (above h.epsilon x y) C) ∧
      h'.epsilon = h.epsilon := by
  unfold Hull.extend at he
  dsimp only at he
  split at he
  · cases he
  · next hin =>
    rw [Bool.or_eq_true, not_or] at hin
    have hge : (Line.through h.rect0.pt h.rect2.pt).gap (above h.epsilon x y).pt ≤ 0 :=
      not_lt.mp fun h' => hin.1 ((sub_beyond_lt hf.flat_lt).mpr h')
    have hle : 0 ≤ (Line.through h.rect1.pt h.rect3.pt).gap (below h.epsilon x y).pt :=
      not_lt.mp fun h' => hin.2 ((lt_sub_beyond hf.steep.lt).mpr h')
    have hadd := hf.addCeiling (p := above h.epsilon x y) (fun a ha => Or.inl (hF a ha)) hC hge
    have hvert : (below h.epsilon x y).y < (above h.epsilon x y).y := by
      show (y : Int) - h.epsilon < y + h.epsilon
      omega
    obtain ⟨h₁, h₁def⟩ : ∃ h₁, h₁ = if ((above h.epsilon x y).sub h.rect1).lt
      (h.rect3.sub h.rect1) then h.tightenUpper (above h.epsilon x y) else h := ⟨_, rfl⟩
    have hrect : h₁.rect0 = h.rect0 ∧ h₁.rect2 = h.rect2 ∧ h₁.epsilon = h.epsilon := by
      rw [h₁def]
      split
      · exact tightenUpper_flat h _
      · exact ⟨rfl, rfl, rfl⟩
    rw [← h₁def] at hadd he
    have hfloor := hadd.addFloor (p := below h.epsilon x y) ?_ hF ?_
    · rw [hrect.1, hrect.2.1] at hfloor
      rw [hrect.1] at he
      obtain rfl := Option.some.inj he
      refine ⟨hfloor, ?_⟩
      split
      · rw [tightenLower_epsilon, hrect.2.2]
      · exact hrect.2.2
    · exact Set.forall_mem_insert.mpr ⟨Or.inr ⟨rfl, hvert⟩, fun c hc => Or.inl (hC c hc)⟩
    · -- 引き直した直線は、新しい天井を通る
      by_cases hp : ((above h.epsilon x y).sub h.rect1).lt (h.rect3.sub h.rect1) = true
      · rw [if_pos hp] at h₁def
        have h3 : h₁.rect3 = above h.epsilon x y := by rw [h₁def, tightenUpper_rect3 hf]
        have hlt := pt_lt.mpr hadd.steep.lt
        rw [h3] at hlt ⊢
        have hend := Line.eval_through_right hlt.ne
        refine sub_nonneg.mpr ?_
        rw [show (below h.epsilon x y).pt.1 = (above h.epsilon x y).pt.1 from rfl, hend]
        exact Int.cast_le.mpr hvert.le
      · rw [if_neg hp] at h₁def
        rw [h₁def]
        exact hle

/-- **断られた点を加えた帯は、どの一次式も通れない。** -/
theorem Fits.extend_none (hf : h.Fits F C) (hF : ∀ a ∈ F, a.x < x.toUnits)
    (hC : ∀ c ∈ C, c.x < x.toUnits) (he : h.extend x y = none) (f : Line ℚ) :
    ¬Between (insert (below h.epsilon x y) F) (insert (above h.epsilon x y) C) f := by
  intro hb
  have hb' : Between F C f := ⟨fun a ha => hb.floor a (Set.mem_insert_of_mem _ ha),
    fun c hc => hb.ceiling c (Set.mem_insert_of_mem _ hc)⟩
  unfold Hull.extend at he
  dsimp only at he
  split at he
  · next hout =>
    rcases Bool.or_eq_true _ _ ▸ hout with hout | hout
    · -- 最も緩い直線が、新しい天井より上にある
      have hgap := (sub_beyond_lt hf.flat_lt).mp hout
      have hle := hf.flat_le hb' (x := (above h.epsilon x y).pt.1)
        (pt_le.mpr (hF _ hf.flat.mem).le)
      have hc := hb.ceiling _ (Set.mem_insert _ C)
      exact absurd ((sub_pos.mp hgap).trans_le hle) (not_lt.mpr (sub_nonpos.mp hc))
    · -- 最も急な直線が、新しい床より下にある
      have hgap := (lt_sub_beyond hf.steep.lt).mp hout
      have hle := hf.steep.eval_le hb' (x := (below h.epsilon x y).pt.1)
        (pt_le.mpr (hC _ hf.steep.mem).le)
      have ha := hb.floor _ (Set.mem_insert _ F)
      exact absurd (hle.trans_lt (sub_neg.mp hgap)) (not_lt.mpr (sub_nonneg.mp ha))
  · cases he

end Extend

/-- 二点だけの帯では、左の床と右の天井を通る直線が最も急である。 -/
theorem steep_pair {a b c d : Point} (hab : a.x < b.x) (hca : c.x = a.x) (hdb : d.x = b.x)
    (hac : a.y ≤ c.y) (hbd : b.y ≤ d.y) : Steep {b, a} {d, c} [a, b] a d := by
  have had : a.x < d.x := hdb ▸ hab
  have hend := Line.eval_through_right (p := a.pt) (q := d.pt) (pt_lt.mpr had).ne
  refine ⟨rfl, had, Set.mem_insert d _, ?_, ⟨?_, ?_⟩, pt_lt.mpr hab, fun f _ _ hA => ?_⟩
  · simp [or_comm]
  · refine Set.forall_mem_insert.mpr ⟨sub_nonneg.mpr ?_, fun q hq => ?_⟩
    · rw [show b.pt.1 = d.pt.1 by rw [pt_fst, pt_fst, hdb], hend]
      exact Int.cast_le.mpr hbd
    · rw [Set.mem_singleton_iff.mp hq, Line.gap_through_left]
  · refine Set.forall_mem_insert.mpr ⟨sub_nonpos.mpr hend.le, fun q hq => ?_⟩
    rw [Set.mem_singleton_iff.mp hq]
    refine sub_nonpos.mpr ?_
    rw [show c.pt.1 = a.pt.1 by rw [pt_fst, pt_fst, hca], Line.eval_through_left]
    exact Int.cast_le.mpr hac
  · intro q hq
    exact hA q (by simpa [or_comm] using hq)

/-- 二点目を足した状態。 -/
theorem fits_second {epsilon : Nat} {x x' : Key} {y y' : Nat} (hx : x < x') :
    ((Hull.start epsilon x y).second x' y').Fits {below epsilon x' y', below epsilon x y}
      {above epsilon x' y', above epsilon x y} := by
  have hx' := Key.toUnits_strictMono hx
  have hle (y : Nat) : (y : Int) - epsilon ≤ y + epsilon := by omega
  refine ⟨steep_pair hx' rfl rfl (hle y) (hle y'), ?_⟩
  have hset (a b : Point) : flipSet {a, b} = {a.flip, b.flip} := by
    ext q
    simp only [flipSet, Set.mem_ofPred_eq, Set.mem_insert_iff, Set.mem_singleton_iff, flip_eq_iff]
  rw [hset, hset]
  exact steep_pair hx' rfl rfl (neg_le_neg (hle y)) (neg_le_neg (hle y'))

/-! ## `get_floating_point_segment` -/

section Line

variable {h : Hull} {F C : Set Point}

/-- 帯を通る二つの一次式の中央も、帯を通る。 -/
theorem Between.mid {f g : Line ℚ} (hf : Between F C f) (hg : Between F C g) :
    Between F C (f.mid g) where
  floor a ha := by
    have := sub_nonneg.mp (hf.floor a ha)
    have := sub_nonneg.mp (hg.floor a ha)
    rw [Line.gap, Line.eval_mid]
    linarith
  ceiling c hc := by
    have := sub_nonpos.mp (hf.ceiling c hc)
    have := sub_nonpos.mp (hg.ceiling c hc)
    rw [Line.gap, Line.eval_mid]
    linarith

theorem sub_toRat (a b : Point) :
    (b.sub a).toRat = (Line.through a.pt b.pt).slope * 2 ^ 1074 := by
  simp only [Slope.toRat, sub, Line.through, pt]
  rw [Int.cast_sub, Int.cast_sub, div_mul_eq_mul_div]

theorem Fits.onePoint_eq (hf : h.Fits F C) : h.onePoint = false := by
  have hne : h.rect0 ≠ h.rect2 := fun h' => absurd (h' ▸ hf.flat_lt) (lt_irrefl _)
  exact decide_eq_false fun h' => hne h'.1

/-- 二本の直線の交点は、どちらの直線の上にもある。平行なら `rect0` で代える。 -/
theorem Fits.intersection (hf : h.Fits F C) :
    ∃ f : Line ℚ, Between F C f ∧
      f.slope = ((Line.through h.rect0.pt h.rect2.pt).slope +
        (Line.through h.rect1.pt h.rect3.pt).slope) / 2 ∧
      f.eval h.intersection.1 = h.intersection.2 := by
  have hdx₁ : ((h.rect2.x : ℚ) - h.rect0.x) ≠ 0 :=
    sub_ne_zero.mpr (by exact_mod_cast hf.flat_lt.ne')
  have hdx₂ : ((h.rect3.x : ℚ) - h.rect1.x) ≠ 0 :=
    sub_ne_zero.mpr (by exact_mod_cast hf.steep.lt.ne')
  unfold Hull.intersection
  dsimp only
  rw [hf.onePoint_eq, Bool.false_or]
  by_cases hpar : (h.rect2.sub h.rect0).dy * (h.rect3.sub h.rect1).dx =
      (h.rect2.sub h.rect0).dx * (h.rect3.sub h.rect1).dy
  · rw [if_pos (decide_eq_true hpar)]
    have hslope : (Line.through h.rect0.pt h.rect2.pt).slope =
        (Line.through h.rect1.pt h.rect3.pt).slope := by
      have hpar' : ((h.rect2.y : ℚ) - h.rect0.y) * (h.rect3.x - h.rect1.x) =
          (h.rect2.x - h.rect0.x) * (h.rect3.y - h.rect1.y) := by exact_mod_cast hpar
      simp only [Line.through, pt]
      rw [div_eq_div_iff hdx₁ hdx₂]
      linarith
    refine ⟨_, hf.between_flat, ?_, Line.eval_through_left ..⟩
    rw [← hslope]
    ring
  · rw [if_neg (by simpa using hpar)]
    refine ⟨_, hf.between_flat.mid hf.steep.between, rfl, ?_⟩
    have hcross : ((h.rect2.x : ℚ) - h.rect0.x) * (h.rect3.y - h.rect1.y) -
        (h.rect2.y - h.rect0.y) * (h.rect3.x - h.rect1.x) ≠ 0 :=
      sub_ne_zero.mpr fun h' => hpar (by exact_mod_cast h'.symm)
    rw [Line.eval_mid]
    simp only [Line.eval, Line.through, pt, sub]
    push_cast
    field_simp
    ring

/-- 傾きは許される範囲の中央である。 -/
theorem Fits.line_slope (hf : h.Fits F C) {origin : Key} :
    (h.line origin).1 = ((Line.through h.rect0.pt h.rect2.pt).slope +
      (Line.through h.rect1.pt h.rect3.pt).slope) / 2 * 2 ^ 1074 := by
  rw [Hull.line, hf.onePoint_eq, if_neg Bool.false_ne_true]
  dsimp only
  rw [sub_toRat, sub_toRat, ← add_mul, mul_div_right_comm]

/-- **`line` の一次式は、帯を通る。** -/
theorem Fits.line (hf : h.Fits F C) (origin : Key) :
    ∃ f : Line ℚ, Between F C f ∧ ∀ k : Key,
      (h.line origin).1 * (k.toRat - origin.toRat) + (h.line origin).2 = f.eval k.toUnits := by
  obtain ⟨f, hb, hslope, hi⟩ := hf.intersection
  refine ⟨f, hb, fun k => ?_⟩
  have hsub := Line.eval_sub f h.intersection.1 k.toUnits
  have hintercept : (h.line origin).2 = h.intersection.2 -
      (h.intersection.1 / 2 ^ 1074 - origin.toRat) * (h.line origin).1 := by
    rw [Hull.line, hf.onePoint_eq, if_neg Bool.false_ne_true]
  rw [hintercept, hf.line_slope, ← hslope, ← hi, Key.toRat]
  -- 単位 `2 ^ (-1074)` は打ち消し合う
  have hpow : (2 : ℚ) ^ 1074 ≠ 0 := pow_ne_zero _ two_ne_zero
  generalize (2 : ℚ) ^ 1074 = c at hpow
  have hcancel : f.slope * c * (k.toUnits / c - origin.toRat) -
      (h.intersection.1 / c - origin.toRat) * (f.slope * c) =
        f.slope * (k.toUnits - h.intersection.1) := by
    field_simp
    ring
  linarith

end Line

end Hull

end Plin
