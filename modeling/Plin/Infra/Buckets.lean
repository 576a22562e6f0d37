import Mathlib.Data.List.Basic
import Mathlib.Data.List.Perm.Basic

/-!
# 安定な計数整列の配置

要素に番号 `f` を付け、番号の小さい順に、同じ番号の中では元の順に並べる配置を扱う。

番号 `j` の要素が始まる位置は「番号が `j` より小さい要素の個数」`offset f l j` である。
要素を前から一つずつ、番号ごとの書き込み位置に置いていく手続きの途中の状態を
`Filled` で表す。全部置き終えれば、各区間は番号ごとの要素の列そのものになり
（`Filled.slice`）、全体は元の列の並べ替えになる（`Filled.perm`）。
-/

namespace Plin.Infra

variable {α : Type} (f : α → Nat)

/-- 番号が `j` の要素を元の順に並べたもの。 -/
def bucket (l : List α) (j : Nat) : List α := l.filter (fun a => f a = j)

/-- 番号が `j` の区間の始まり。 -/
def offset (l : List α) (j : Nat) : Nat := (l.filter (fun a => f a < j)).length

@[simp] theorem offset_zero (l : List α) : offset f l 0 = 0 := by simp [offset]

theorem offset_succ (l : List α) (j : Nat) :
    offset f l (j + 1) = offset f l j + (bucket f l j).length := by
  unfold offset bucket
  induction l with
  | nil => rfl
  | cons a l ih =>
    rcases Nat.lt_trichotomy (f a) j with h | h | h
    · have h1 : f a < j + 1 := by omega
      have h2 : f a ≠ j := by omega
      simp only [List.filter_cons, h, h1, h2, decide_true, decide_false, if_true,
        Bool.false_eq_true, if_false, List.length_cons, ih]
      omega
    · have h1 : f a < j + 1 := by omega
      have h2 : ¬ f a < j := by omega
      simp only [List.filter_cons, h1, h2, decide_eq_true h, decide_true, decide_false, if_true,
        Bool.false_eq_true, if_false, List.length_cons, ih]
      omega
    · have h1 : ¬ f a < j + 1 := by omega
      have h2 : ¬ f a < j := by omega
      have h3 : f a ≠ j := by omega
      simp only [List.filter_cons, h1, h2, h3, decide_false, Bool.false_eq_true, if_false, ih]

theorem offset_mono (l : List α) {i j : Nat} (h : i ≤ j) : offset f l i ≤ offset f l j := by
  induction j with
  | zero => exact Nat.le_of_eq (congrArg _ (Nat.le_zero.mp h))
  | succ j ih =>
    rcases Nat.lt_or_ge i (j + 1) with hi | hi
    · rw [offset_succ]
      exact Nat.le_trans (ih (by omega)) (Nat.le_add_right _ _)
    · exact Nat.le_of_eq (congrArg _ (Nat.le_antisymm h hi))

theorem offset_eq_length {l : List α} {n : Nat} (h : ∀ a ∈ l, f a < n) :
    offset f l n = l.length := by
  unfold offset
  rw [List.filter_eq_self.mpr]
  intro a ha
  exact decide_eq_true (h a ha)

/-- 番号ごとに集め直すと、番号が `n` より小さい要素の並べ替えになる。 -/
theorem flatMap_bucket_perm (l : List α) (n : Nat) :
    ((List.range n).flatMap (bucket f l)).Perm (l.filter (fun a => f a < n)) := by
  induction n with
  | zero => simp
  | succ n ih =>
    rw [List.range_succ, List.flatMap_append, List.flatMap_cons, List.flatMap_nil, List.append_nil]
    refine (ih.append_right _).trans ?_
    have hlt : l.filter (fun a => f a < n)
        = (l.filter (fun a => f a < n + 1)).filter (fun a => f a < n) := by
      rw [List.filter_filter]
      refine List.filter_congr fun a _ => ?_
      by_cases h : f a < n
      · simp [h, Nat.lt_succ_of_lt h]
      · simp [h]
    have heq : bucket f l n
        = (l.filter (fun a => f a < n + 1)).filter (fun a => !decide (f a < n)) := by
      unfold bucket
      rw [List.filter_filter]
      refine List.filter_congr fun a _ => ?_
      by_cases h : f a = n
      · simp [h]
      · by_cases h' : f a < n
        · simp [h, h']
        · have : ¬ f a < n + 1 := by omega
          simp [h, this]
    rw [hlt, heq]
    exact List.filter_append_perm _ _

/-! ## 一つずつ置く手続き -/

/-- `l` のうち `done` までを置いた状態。番号 `j` の `c` 番目は区間の `c` 番目に在る。 -/
structure Filled (l done recs : List α) : Prop where
  length : recs.length = l.length
  placed : ∀ j c, c < (bucket f done j).length →
    recs[offset f l j + c]? = (bucket f done j)[c]?

variable {f} {l done recs : List α} {a : α}

theorem bucket_mono (h : done <+: l) (j : Nat) : bucket f done j <+: bucket f l j :=
  h.filter _

theorem bucket_snoc (done : List α) (a : α) (j : Nat) :
    bucket f (done ++ [a]) j = bucket f done j ++ if f a = j then [a] else [] := by
  unfold bucket
  rw [List.filter_append]
  by_cases h : f a = j <;> simp [h]

/-- 次に書く位置は列の中にある。 -/
theorem offset_add_lt (h : done ++ [a] <+: l) :
    offset f l (f a) + (bucket f done (f a)).length < l.length := by
  have hb := (bucket_mono (f := f) h (f a)).length_le
  rw [bucket_snoc, if_pos rfl, List.length_append, List.length_singleton] at hb
  have hs := offset_succ f l (f a)
  have hl : offset f l (f a + 1) ≤ l.length := List.length_filter_le _ _
  omega

/-- 要素を一つ、その番号の書き込み位置に置く。 -/
theorem Filled.step (hf : Filled f l done recs) (h : done ++ [a] <+: l) :
    Filled f l (done ++ [a])
      (recs.set (offset f l (f a) + (bucket f done (f a)).length) a) where
  length := by rw [List.length_set]; exact hf.length
  placed := by
    intro j c hc
    rw [bucket_snoc] at hc ⊢
    have hpos := offset_add_lt (f := f) h
    by_cases hj : f a = j
    · subst hj
      rw [if_pos rfl] at hc ⊢
      rw [List.length_append, List.length_singleton] at hc
      rcases Nat.lt_or_ge c (bucket f done (f a)).length with hlt | hge
      · rw [List.getElem?_set_ne (by omega), hf.placed (f a) c hlt,
          List.getElem?_append_left hlt]
      · obtain rfl : c = (bucket f done (f a)).length := by omega
        rw [List.getElem?_set_self (by rw [hf.length]; exact hpos),
          List.getElem?_append_right (Nat.le_refl _)]
        simp
    · rw [if_neg hj, List.append_nil] at hc ⊢
      -- 別の番号の区間には書いていない
      have hdone : done <+: l := (List.prefix_append done [a]).trans h
      have hcl : c < (bucket f l j).length :=
        Nat.lt_of_lt_of_le hc (bucket_mono hdone j).length_le
      have hal : (bucket f done (f a)).length < (bucket f l (f a)).length := by
        have := (bucket_mono (f := f) h (f a)).length_le
        rw [bucket_snoc, if_pos rfl, List.length_append, List.length_singleton] at this
        omega
      have hne : offset f l (f a) + (bucket f done (f a)).length ≠ offset f l j + c := by
        have h1 := offset_succ f l j
        have h2 := offset_succ f l (f a)
        rcases Nat.lt_or_ge (f a) j with hlt | hge
        · have := offset_mono f l (show f a + 1 ≤ j by omega)
          omega
        · have := offset_mono f l (show j + 1 ≤ f a by omega)
          omega
      rw [List.getElem?_set_ne hne, hf.placed j c hc]

/-- 置き終えた列の各区間は、番号ごとの要素の列である。 -/
theorem Filled.slice (hf : Filled f l l recs) (j : Nat) :
    (recs.drop (offset f l j)).take (bucket f l j).length = bucket f l j := by
  refine List.ext_getElem? fun c => ?_
  rw [List.getElem?_take, List.getElem?_drop]
  split
  · next hc => exact hf.placed j c hc
  · next hc => exact (List.getElem?_eq_none (by omega)).symm

theorem Filled.take (hf : Filled f l l recs) (n : Nat) :
    recs.take (offset f l n) = (List.range n).flatMap (bucket f l) := by
  induction n with
  | zero => simp
  | succ n ih =>
    rw [offset_succ, List.take_add, ih, hf.slice, List.range_succ, List.flatMap_append]
    simp

/-- **置き終えた列は元の列の並べ替えである。** -/
theorem Filled.perm (hf : Filled f l l recs) {n : Nat} (h : ∀ a ∈ l, f a < n) :
    recs.Perm l := by
  have ht := hf.take n
  rw [offset_eq_length f h, ← hf.length, List.take_length] at ht
  rw [ht]
  refine (flatMap_bucket_perm f l n).trans ?_
  rw [List.filter_eq_self.mpr]
  intro a ha
  exact decide_eq_true (h a ha)

end Plin.Infra
