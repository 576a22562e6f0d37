import Mathlib.Data.Fintype.Card
import Mathlib.Logic.Relation

/-!
# thread の交錯

遷移系の到達可能性と、一つの共有の状態を読み書きする thread の組の遷移系である。どの thread が
いつ一歩進むかは自由なので、到達できる状態はすべての交錯を尽くす。

**一歩が保つ性質は、到達できるどの状態でも成り立つ**（`Reach.invariant`）。
-/

namespace Plin.Infra

/-! ## 到達可能性 -/

section Reach

variable {S E : Type*} {step : S → E → S → Prop} {P : S → E → Prop}

/-- どの一歩も条件 `P` を満たす実行で `s` から `t` に行ける。 -/
def Reach (step : S → E → S → Prop) (P : S → E → Prop) : S → S → Prop :=
  Relation.ReflTransGen fun s s' => ∃ e, P s e ∧ step s e s'

/-- 条件を付けない到達可能性。 -/
def Reachable (step : S → E → S → Prop) : S → S → Prop := Reach step fun _ _ => True

theorem Reach.refl (s : S) : Reach step P s s := Relation.ReflTransGen.refl

theorem Reach.tail {s t u : S} (h : Reach step P s t) {e : E} (hP : P t e) (hs : step t e u) :
    Reach step P s u :=
  Relation.ReflTransGen.tail h ⟨e, hP, hs⟩

/-- 不変量の規則。 -/
theorem Reach.invariant {s t : S} (h : Reach step P s t) (I : S → Prop) (hs : I s)
    (hstep : ∀ s e s', I s → P s e → step s e s' → I s') : I t := by
  induction h with
  | refl => exact hs
  | tail _ hlast ih =>
    obtain ⟨e, hP, he⟩ := hlast
    exact hstep _ e _ ih hP he

theorem Reachable.invariant {s t : S} (h : Reachable step s t) (I : S → Prop) (hs : I s)
    (hstep : ∀ s e s', I s → step s e s' → I s') : I t :=
  Reach.invariant h I hs fun s e s' hI _ => hstep s e s' hI

theorem Reachable.tail {s t u : S} (h : Reachable step s t) {e : E} (hs : step t e u) :
    Reachable step s u :=
  Reach.tail h trivial hs

/-- 条件を弱めても、同じ実行で行ける。 -/
theorem Reach.mono {s t : S} {Q : S → E → Prop} (h : Reach step P s t)
    (hPQ : ∀ s e, P s e → Q s e) : Reach step Q s t :=
  h.invariant (Reach step Q s) (Reach.refl s) fun s e _ hs he hstep => hs.tail (hPQ s e he) hstep

theorem Reach.reachable {s t : S} (h : Reach step P s t) : Reachable step s t :=
  h.invariant (Reachable step s) (Reach.refl s) fun _ _ _ hs _ hstep => hs.tail hstep

end Reach

/-! ## thread の組 -/

/-- 共有の状態と、thread ごとの実行位置。 -/
@[ext] structure Threads (T M L : Type*) where
  shared : M
  pc : T → L

section Threads

variable {T M L : Type*} [DecidableEq T]

/-- thread `t` だけが進んだ後の状態。 -/
def Threads.move (c : Threads T M L) (t : T) (m : M) (l : L) : Threads T M L :=
  ⟨m, Function.update c.pc t l⟩

@[simp] theorem Threads.move_shared (c : Threads T M L) (t : T) (m : M) (l : L) :
    (c.move t m l).shared = m := rfl

@[simp] theorem Threads.move_pc_self (c : Threads T M L) (t : T) (m : M) (l : L) :
    (c.move t m l).pc t = l := Function.update_self ..

theorem Threads.move_pc_ne (c : Threads T M L) {t u : T} (m : M) (l : L) (h : u ≠ t) :
    (c.move t m l).pc u = c.pc u := Function.update_of_ne h ..

/--
交錯。thread は共有の状態と自分の実行位置だけを見て進み（`step`）、thread でないものは
共有の状態だけを変える（`env`）。
-/
inductive Interleave (step : M → L → M → L → Prop) (env : M → M → Prop) :
    Threads T M L → Option T → Threads T M L → Prop
  | thread {c : Threads T M L} (t : T) {m : M} {l : L} (h : step c.shared (c.pc t) m l) :
      Interleave step env c (some t) (c.move t m l)
  | env {c : Threads T M L} {m : M} (h : env c.shared m) :
      Interleave step env c none ⟨m, c.pc⟩

/-- 動いた後の実行位置は、動いた thread と動かない thread に分けて見る。 -/
theorem Threads.move_pc_cases (c : Threads T M L) (t u : T) (m : M) (l : L) :
    (u = t ∧ (c.move t m l).pc u = l) ∨ (u ≠ t ∧ (c.move t m l).pc u = c.pc u) := by
  by_cases h : u = t
  · exact Or.inl ⟨h, h ▸ c.move_pc_self u m l⟩
  · exact Or.inr ⟨h, c.move_pc_ne m l h⟩

/--
thread ごとの条件は、動いた thread がそれを保ち、他の thread の条件を壊さなければ、動いた後も成り立つ。
-/
theorem Threads.move_local {P : T → M → L → Prop} {c : Threads T M L} {t : T} {m : M} {l : L}
    (h : ∀ u, P u c.shared (c.pc u)) (hown : P t m l)
    (hstable : ∀ u, u ≠ t → P u c.shared (c.pc u) → P u m (c.pc u)) (u : T) :
    P u (c.move t m l).shared ((c.move t m l).pc u) := by
  rcases c.move_pc_cases t u m l with ⟨rfl, e⟩ | ⟨hu, e⟩
  · rw [e]
    exact hown
  · rw [e]
    exact hstable u hu (h u)

/-- 動いた thread の実行位置と共有の状態を並べ、残りは変わらないと言えば一歩になる。 -/
theorem Interleave.of_frame {step : M → L → M → L → Prop} {env : M → M → Prop}
    {c c' : Threads T M L} (t : T) (h : step c.shared (c.pc t) c'.shared (c'.pc t))
    (hframe : ∀ u, u ≠ t → c'.pc u = c.pc u) : Interleave step env c (some t) c' := by
  have hc : c' = c.move t c'.shared (c'.pc t) := by
    refine Threads.ext rfl (funext fun u => ?_)
    rcases c.move_pc_cases t u c'.shared (c'.pc t) with ⟨rfl, e⟩ | ⟨hu, e⟩
    · exact e.symm
    · rw [e, hframe u hu]
  rw [hc]
  exact .thread t h

end Threads

/-! ## thread を数える -/

section Count

variable {T M L : Type*} [Fintype T] (p : L → Prop) [DecidablePred p]

/-- 実行位置が `p` を満たす thread の個数。 -/
def Threads.count (c : Threads T M L) : Nat := (Finset.univ.filter fun t => p (c.pc t)).card

variable {p}

theorem Threads.count_eq_zero {c : Threads T M L} : c.count p = 0 ↔ ∀ t, ¬ p (c.pc t) := by
  simp [count, Finset.filter_eq_empty_iff]

theorem Threads.count_pos {c : Threads T M L} : 0 < c.count p ↔ ∃ t, p (c.pc t) := by
  rw [Nat.pos_iff_ne_zero, ne_eq, count_eq_zero]
  push Not
  rfl

/-- 一つ以下なら、満たす thread は一つに決まる。 -/
theorem Threads.eq_of_count_le_one {c : Threads T M L} (h : c.count p ≤ 1) {t u : T}
    (ht : p (c.pc t)) (hu : p (c.pc u)) : t = u :=
  Finset.card_le_one.mp h t (by simp [ht]) u (by simp [hu])

/-- 数えられていない thread が一つでもあれば、個数は thread の総数より小さい。 -/
theorem Threads.count_lt_card {c : Threads T M L} {t : T} (ht : ¬ p (c.pc t)) :
    c.count p < Fintype.card T := by
  refine Finset.card_lt_card (Finset.filter_ssubset.mpr ⟨t, Finset.mem_univ t, ht⟩)

variable [DecidableEq T]

theorem Threads.count_move_same {c : Threads T M L} {t : T} {m : M} {l : L}
    (h : p l ↔ p (c.pc t)) : (c.move t m l).count p = c.count p := by
  refine congrArg Finset.card (Finset.filter_congr fun u _ => ?_)
  by_cases hu : u = t
  · subst hu
    rw [move_pc_self, h]
  · rw [move_pc_ne c m l hu]

theorem Threads.count_move_enter {c : Threads T M L} {t : T} {m : M} {l : L}
    (hl : p l) (ht : ¬ p (c.pc t)) : (c.move t m l).count p = c.count p + 1 := by
  have hset : (Finset.univ.filter fun u => p ((c.move t m l).pc u)) =
      insert t (Finset.univ.filter fun u => p (c.pc u)) := by
    ext u
    by_cases hu : u = t
    · subst hu
      simp [hl]
    · simp [move_pc_ne c m l hu, hu]
  rw [count, hset, Finset.card_insert_of_notMem (by simp [ht]), count]

theorem Threads.count_move_leave {c : Threads T M L} {t : T} {m : M} {l : L}
    (hl : ¬ p l) (ht : p (c.pc t)) : (c.move t m l).count p + 1 = c.count p := by
  have hset : (Finset.univ.filter fun u => p (c.pc u)) =
      insert t (Finset.univ.filter fun u => p ((c.move t m l).pc u)) := by
    ext u
    by_cases hu : u = t
    · subst hu
      simp [ht]
    · simp [move_pc_ne c m l hu, hu]
  rw [count, count, hset, Finset.card_insert_of_notMem (by simp [hl])]

end Count

end Plin.Infra
