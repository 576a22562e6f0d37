import Mathlib.Data.List.Dedup
import Mathlib.Data.List.Nodup

/-!
# 得点の高い順に選ぶ

候補を得点の高い順に並べて先頭を取ると、上位の列になる（`isTopN_take`）。同点の候補の並び方は問わない。

得点を記録の中の個数とするときは、記録を一つずつ読んで表に数える。読み終えた部分と表の対応が `Tally` である。
-/

namespace Plin.Infra

variable {α : Type} [DecidableEq α]

/-- 候補 `cands` から、得点の高い順に `n` 個を選んだ列。候補が足りなければ全部を選ぶ。 -/
structure IsTopN (score : α → Nat) (cands : List α) (n : Nat) (out : List α) : Prop where
  nodup : out.Nodup
  mem : ∀ x ∈ out, x ∈ cands
  length : out.length = min n cands.dedup.length
  ordered : out.Pairwise fun a b => score b ≤ score a
  best : ∀ x ∈ cands, x ∉ out → ∀ y ∈ out, score x ≤ score y

/-- 並べた列の先頭を取る。 -/
theorem isTopN_take {score : α → Nat} {cands ranked : List α} (hnodup : ranked.Nodup)
    (hmem : ∀ x, x ∈ ranked ↔ x ∈ cands) (hsorted : ranked.Pairwise fun a b => score b ≤ score a)
    (n : Nat) : IsTopN score cands n (ranked.take n) where
  nodup := hnodup.sublist (List.take_sublist n ranked)
  mem x hx := (hmem x).mp (List.mem_of_mem_take hx)
  length := by
    have hperm : ranked.Perm cands.dedup :=
      (List.perm_ext_iff_of_nodup hnodup cands.nodup_dedup).mpr fun x => by
        rw [hmem, List.mem_dedup]
    rw [List.length_take, hperm.length_eq]
  ordered := hsorted.sublist (List.take_sublist n ranked)
  best x hx hout y hy := by
    -- 選ばれなかった候補は、選ばれたどの候補よりも後ろにある
    have hcut : ranked.take n ++ ranked.drop n = ranked := List.take_append_drop n ranked
    have hdrop : x ∈ ranked.drop n := by
      have hx' := (hmem x).mpr hx
      rw [← hcut] at hx'
      exact (List.mem_append.mp hx').resolve_left hout
    rw [← hcut] at hsorted
    exact (List.pairwise_append.mp hsorted).2.2 y hy x hdrop

/-- 候補の上で同じ得点なら、選ばれる列も同じ条件を満たす。 -/
theorem IsTopN.congr {score score' : α → Nat} {cands out : List α} {n : Nat}
    (h : IsTopN score cands n out) (heq : ∀ x ∈ cands, score x = score' x) :
    IsTopN score' cands n out where
  nodup := h.nodup
  mem := h.mem
  length := h.length
  ordered := h.ordered.imp_of_mem fun ha hb hab => by
    rw [← heq _ (h.mem _ ha), ← heq _ (h.mem _ hb)]
    exact hab
  best x hx hout y hy := by
    rw [← heq x hx, ← heq y (h.mem y hy)]
    exact h.best x hx hout y hy

/-- 表 `counts` は、記録 `log` の中の個数を表す。 -/
structure Tally (log : List α) (counts : List (α × Nat)) : Prop where
  nodup : (counts.map Prod.fst).Nodup
  mem : ∀ x, x ∈ counts.map Prod.fst ↔ x ∈ log
  count : ∀ e ∈ counts, e.2 = log.count e.1

theorem tally_nil : Tally ([] : List α) [] where
  nodup := List.nodup_nil
  mem := by simp
  count := by simp

/-- **表を個数の多い順に並べ替えれば、先頭が上位の列になる。** -/
theorem Tally.isTopN {log : List α} {counts ranked : List (α × Nat)} (h : Tally log counts)
    (hperm : ranked.Perm counts) (hsorted : ranked.Pairwise fun a b => b.2 ≤ a.2) (n : Nat) :
    IsTopN (fun x => log.count x) log n ((ranked.take n).map Prod.fst) := by
  have hkeys := hperm.map Prod.fst
  rw [List.map_take]
  refine isTopN_take (hkeys.nodup_iff.mpr h.nodup) (fun x => hkeys.mem_iff.trans (h.mem x)) ?_ n
  rw [List.pairwise_map]
  refine hsorted.imp_of_mem fun ha hb hab => ?_
  rw [← h.count _ (hperm.mem_iff.mp ha), ← h.count _ (hperm.mem_iff.mp hb)]
  exact hab

end Plin.Infra
