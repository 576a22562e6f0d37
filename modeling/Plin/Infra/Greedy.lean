import Mathlib.Data.List.Infix

/-!
# 貪欲な切り分け

列を左から読み、条件 `ok` が成り立つ間だけ読み進めて切る切り分けである（`Greedy`）。条件が連続する部分列に
遺伝するなら、**どの切り分けよりも部分の数が少ない**（`Greedy.length_le`）。

どの切り分けも、同じ数の部分では貪欲な切り分けより先に進めない。そこで、切り分けられる列が貪欲な方の列を
末尾に含むことを不変条件にする。
-/

namespace Plin.Infra

variable {α : Type*} {ok : List α → Prop}

/-- `ok` が成り立つ間だけ読み進める切り分け。次の部分の先頭は、前の部分に足せない要素である。 -/
inductive Greedy (ok : List α → Prop) : List (List α) → List α → Prop
  | nil : Greedy ok [] []
  | last {r : List α} (hne : r ≠ []) (hok : ok r) : Greedy ok [r] r
  | cut {r : List α} {k : α} {rest : List α} {rs : List (List α)} (hne : r ≠ []) (hok : ok r)
      (hstop : ¬ok (r ++ [k])) (hrest : Greedy ok rs (k :: rest)) :
      Greedy ok (r :: rs) (r ++ k :: rest)

namespace Greedy

variable {rs : List (List α)} {l : List α}

theorem flatten (h : Greedy ok rs l) : rs.flatten = l := by
  induction h with
  | nil => rfl
  | last _ _ => simp
  | cut _ _ _ _ ih => rw [List.flatten_cons, ih]

theorem ne_nil (h : Greedy ok rs l) : ∀ r ∈ rs, r ≠ [] := by
  induction h with
  | nil => simp
  | last hne _ => simpa using hne
  | cut hne _ _ _ ih => exact List.forall_mem_cons.mpr ⟨hne, ih⟩

/-- 貪欲な切り分けの列を末尾に含む列は、より少ない部分には切り分けられない。 -/
theorem length_le_of_suffix (hok : ∀ {l l'}, ok l → l' <:+: l → ok l') (h : Greedy ok rs l) :
    ∀ {ds : List (List α)}, l <:+ ds.flatten → (∀ d ∈ ds, ok d) → rs.length ≤ ds.length := by
  induction h with
  | nil =>
    intro ds _ _
    exact Nat.zero_le _
  | last hne _ =>
    intro ds hds _
    refine List.length_pos_iff.mpr fun h => hne ?_
    rw [h] at hds
    exact List.suffix_nil.mp hds
  | @cut r k rest rs hne _ hstop _ ih =>
    intro ds hds hall
    cases ds with
    | nil => simp at hds
    | cons d ds =>
      obtain ⟨hd, hall⟩ := List.forall_mem_cons.mp hall
      obtain ⟨w, hw⟩ := hds
      rw [List.flatten_cons, ← List.append_assoc] at hw
      refine Nat.succ_le_succ (ih ?_ hall)
      rcases List.append_eq_append_iff.mp hw with ⟨t, hd', ht⟩ | ⟨t, -, ht⟩
      · cases t with
        | nil => exact ⟨[], ht⟩
        | cons k' t =>
          -- 最初の部分が `k` まで進めば、そこには `r ++ [k]` が含まれる
          obtain ⟨rfl, -⟩ := List.cons_eq_cons.mp ht
          refine absurd (hok hd ⟨w, t, ?_⟩) hstop
          rw [hd', List.append_assoc, List.append_assoc, List.append_assoc]
          rfl
      · exact ⟨t, ht.symm⟩

/-- **部分の数は最小である。** -/
theorem length_le (hok : ∀ {l l'}, ok l → l' <:+: l → ok l') (h : Greedy ok rs l)
    {ds : List (List α)} (hds : ds.flatten = l) (hall : ∀ d ∈ ds, ok d) : rs.length ≤ ds.length :=
  h.length_le_of_suffix hok (hds ▸ List.suffix_rfl) hall

/-- 全体で `ok` なら切らない。 -/
theorem eq_of_ok (h : Greedy ok rs l) (hok : ∀ {l l'}, ok l → l' <:+: l → ok l') (hl : ok l)
    (hne : l ≠ []) : rs = [l] := by
  cases h with
  | nil => exact absurd rfl hne
  | last _ _ => rfl
  | @cut r k rest rs _ _ hstop _ =>
    exact absurd (hok hl ⟨[], rest, by simp⟩) hstop

/-- 最初の部分は、`ok` である最も長い先頭である。 -/
theorem eq_cons {r : List α} {k : α} {rest : List α} (h : Greedy ok rs (r ++ k :: rest))
    (hok : ∀ {l l'}, ok l → l' <:+: l → ok l') (hr : ok r) (hstop : ¬ok (r ++ [k])) :
    ∃ rs', rs = r :: rs' ∧ Greedy ok rs' (k :: rest) := by
  have hlong : ¬ok (r ++ k :: rest) := fun h => hstop (hok h ⟨[], rest, by simp⟩)
  generalize hl : r ++ k :: rest = l at h hlong
  cases h with
  | nil => simp at hl
  | last _ hall => exact absurd hall hlong
  | @cut r' k' rest' rs' _ hr' hstop' hrest =>
    rcases List.append_eq_append_iff.mp hl with ⟨t, ht, ht'⟩ | ⟨t, ht, ht'⟩
    · cases t with
      | nil =>
        rw [List.append_nil] at ht
        rw [List.nil_append] at ht'
        exact ⟨rs', by rw [ht], ht' ▸ hrest⟩
      | cons a t =>
        -- 長すぎれば `r ++ [k]` を含む
        obtain ⟨rfl, -⟩ := List.cons_eq_cons.mp ht'
        exact absurd (hok hr' ⟨[], t, by rw [ht]; simp⟩) hstop
    · cases t with
      | nil =>
        rw [List.append_nil] at ht
        rw [List.nil_append] at ht'
        exact ⟨rs', by rw [ht], ht' ▸ hrest⟩
      | cons a t =>
        -- 短すぎれば、足せない要素を `r` が含む
        obtain ⟨rfl, -⟩ := List.cons_eq_cons.mp ht'
        exact absurd (hok hr ⟨[], t, by rw [ht]; simp⟩) hstop'

end Greedy

end Plin.Infra
