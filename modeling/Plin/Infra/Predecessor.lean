import Mathlib.Order.Basic
import Mathlib.Order.Defs.LinearOrder
import Mathlib.Data.List.TakeWhile
import Mathlib.Tactic.Push
import Mathlib.Order.Lattice

/-!
# list の中の直前の要素

`key` の値が `k` 以下である最後の要素で list を切る。切り方は一通りしか無く（`IsPred.unique`）、
`k` 以下の要素が一つでもあれば存在する（`exists_isPred`）。

段に分かれた list では、段を選んでから段の中で選んでも同じ切り方になる（`IsPred.flatMap`）。
-/

namespace Plin.Infra

variable {α β K : Type} [LinearOrder K] {key : α → K} {k : K}

/-- `l` を `k` 以下の最後の要素 `e` で切る。 -/
structure IsPred (key : α → K) (k : K) (l a : List α) (e : α) (b : List α) : Prop where
  eq : l = a ++ e :: b
  le : key e ≤ k
  gt : ∀ y ∈ b, k < key y

theorem IsPred.mem {l a b : List α} {e : α} (h : IsPred key k l a e b) : e ∈ l := by
  rw [h.eq]
  simp

/-- 切れ目の要素を入れ替えた list の要素。 -/
theorem IsPred.mem_set {l a b : List α} {e e' x : α} (h : IsPred key k l a e b)
    (hx : x ∈ a ++ e' :: b) : x = e' ∨ x ∈ l := by
  rw [h.eq]
  rcases List.mem_append.mp hx with hx | hx
  · exact Or.inr (List.mem_append_left _ hx)
  · rcases List.mem_cons.mp hx with hx | hx
    · exact Or.inl hx
    · exact Or.inr (List.mem_append_right _ (List.mem_cons_of_mem _ hx))

theorem exists_isPred {l : List α} (h : ∃ x ∈ l, key x ≤ k) :
    ∃ a e b, IsPred key k l a e b := by
  induction l with
  | nil => simp at h
  | cons x l ih =>
    by_cases hl : ∃ y ∈ l, key y ≤ k
    · obtain ⟨a, e, b, hp⟩ := ih hl
      exact ⟨x :: a, e, b, by rw [hp.eq]; rfl, hp.le, hp.gt⟩
    · push Not at hl
      obtain ⟨y, hy, hle⟩ := h
      rcases List.mem_cons.mp hy with rfl | hy
      · exact ⟨[], y, l, rfl, hle, hl⟩
      · exact absurd hle (not_le_of_gt (hl y hy))

/-- 昇順の list の要素は、自分の値の直前の要素である。 -/
theorem isPred_of_mem {l : List α} (hs : l.Pairwise fun x y => key x < key y) {e : α}
    (he : e ∈ l) : ∃ a b, IsPred key (key e) l a e b := by
  obtain ⟨a, b, rfl⟩ := List.append_of_mem he
  exact ⟨a, b, rfl, le_rfl, (List.pairwise_cons.mp (List.pairwise_append.mp hs).2.1).1⟩

/-- 切り方は一通りである。 -/
theorem IsPred.unique {l a b a' b' : List α} {e e' : α} (h : IsPred key k l a e b)
    (h' : IsPred key k l a' e' b') : a = a' ∧ e = e' ∧ b = b' := by
  have he : a ++ e :: b = a' ++ e' :: b' := h.eq.symm.trans h'.eq
  rcases List.append_eq_append_iff.mp he with ⟨c, rfl, hc⟩ | ⟨c, rfl, hc⟩
  · cases c with
    | nil =>
      obtain ⟨rfl, rfl⟩ := List.cons.inj hc
      simp
    | cons x c =>
      obtain ⟨rfl, rfl⟩ := List.cons.inj hc
      exact absurd h'.le (not_le_of_gt (h.gt e' (by simp)))
  · cases c with
    | nil =>
      obtain ⟨rfl, rfl⟩ := List.cons.inj hc
      simp
    | cons x c =>
      obtain ⟨rfl, rfl⟩ := List.cons.inj hc
      exact absurd h.le (not_le_of_gt (h'.gt e (by simp)))

/-- 同じ値を並べた二つの list では、切る場所も同じである。 -/
theorem IsPred.transfer {γ : Type} {l a b : List α} {e : α} {l' : List β} {f : α → γ} {g : β → γ}
    {κ : γ → K} (hmap : l.map f = l'.map g) (h : IsPred (fun x => κ (f x)) k l a e b) :
    ∃ a' e' b', IsPred (fun y => κ (g y)) k l' a' e' b' ∧ g e' = f e := by
  rw [h.eq, List.map_append, List.map_cons] at hmap
  obtain ⟨a', l₂, rfl, ha, hl₂⟩ := List.map_eq_append_iff.mp hmap.symm
  obtain ⟨e', b', rfl, he, hb⟩ := List.map_eq_cons_iff.mp hl₂
  refine ⟨a', e', b', ⟨rfl, by rw [he]; exact h.le, fun y hy => ?_⟩, he⟩
  obtain ⟨x, hx, hxy⟩ := List.mem_map.mp (hb ▸ List.mem_map_of_mem hy : g y ∈ b.map f)
  rw [← hxy]
  exact h.gt x hx

/-- `k` 以下の部分と `k` を超える部分をつないだ list では、切る場所は境目である。 -/
theorem IsPred.append_eq {X Y a b : List α} {e : α} (h : IsPred key k (X ++ Y) a e b)
    (hX : ∀ x ∈ X, key x ≤ k) (hY : ∀ y ∈ Y, k < key y) : X = a ++ [e] ∧ Y = b := by
  have he : X ++ Y = a ++ ([e] ++ b) := h.eq
  rw [← List.append_assoc] at he
  rcases List.append_eq_append_iff.mp he with ⟨c, hc, rfl⟩ | ⟨c, rfl, rfl⟩
  · rcases List.eq_nil_or_concat c with rfl | ⟨c', x, rfl⟩
    · simpa using hc.symm
    · rw [List.concat_eq_append, ← List.append_assoc] at hc
      have hx : e = x := by simpa using (List.append_inj' hc rfl).2
      exact absurd h.le (not_le_of_gt (hY e (by simp [hx])))
  · cases c with
    | nil => simp
    | cons x c => exact absurd (hX x (by simp)) (not_le_of_gt (h.gt x (by simp)))

/-- 段を選び、段の中で選ぶ。後ろの段がすべて `k` を超えていれば、全体での切り方になる。 -/
theorem IsPred.flatMap {f : β → List α} {A B : List β} {n : β} {a b : List α} {e : α}
    (h : IsPred key k (f n) a e b) (hB : ∀ m ∈ B, ∀ y ∈ f m, k < key y) :
    IsPred key k ((A ++ n :: B).flatMap f) (A.flatMap f ++ a) e (b ++ B.flatMap f) where
  eq := by simp [h.eq]
  le := h.le
  gt := by
    intro y hy
    rcases List.mem_append.mp hy with hy | hy
    · exact h.gt y hy
    · obtain ⟨m, hm, hym⟩ := List.mem_flatMap.mp hy
      exact hB m hm y hym

/-- 整列した list では、先頭から `k` 以下の間を数えれば切る場所が分かる。 -/
theorem isPred_takeWhile {l : List α} (hs : l.Pairwise fun x y => key x < key y) {i : Nat}
    (hi : (l.takeWhile fun x => decide (key x ≤ k)).length = i + 1) :
    ∃ e, l[i]? = some e ∧ IsPred key k l (l.take i) e (l.drop (i + 1)) := by
  have hlt : i < l.length := by
    have hpre : l.takeWhile (fun x => decide (key x ≤ k)) <+: l := List.takeWhile_prefix _
    have := hpre.length_le
    omega
  have hpre : l.takeWhile (fun x => decide (key x ≤ k)) = l.take (i + 1) := by
    rw [← hi]
    exact List.prefix_iff_eq_take.mp (List.takeWhile_prefix _)
  refine ⟨l[i], List.getElem?_eq_getElem hlt, ?_, ?_, ?_⟩
  · rw [← List.drop_eq_getElem_cons hlt, List.take_append_drop]
  · have hmem : l[i] ∈ l.takeWhile fun x => decide (key x ≤ k) := by
      rw [hpre]
      exact List.mem_take_iff_getElem.mpr ⟨i, by omega, rfl⟩
    simpa using List.mem_takeWhile_imp hmem
  · intro y hy
    rw [← List.takeWhile_append_dropWhile (p := fun x => decide (key x ≤ k)) (l := l)] at hy hs
    rw [← hi, List.drop_left] at hy
    cases hd : l.dropWhile fun x => decide (key x ≤ k) with
    | nil => simp [hd] at hy
    | cons z d =>
      have hz : k < key z := by
        have := List.head_dropWhile_not (fun x => decide (key x ≤ k)) (l := l) (by simp [hd])
        simpa [hd] using this
      rw [hd] at hy hs
      rcases List.mem_cons.mp hy with rfl | hy
      · exact hz
      · exact lt_trans hz ((List.pairwise_cons.mp (List.pairwise_append.mp hs).2.1).1 y hy)

end Plin.Infra
