/-!
# 一つずつの呼び出し

呼び手は要求を一つ送り、答えを受け取るまで次を送らない。要求と答えは先入れ先出しの列で運ばれ、
受け手は要求を一つずつ処理する。答えには要求の番号が付いていないので、呼び手は順だけを頼りに
答えを自分の要求に結び付ける。

**要求は、送りの列、受け手、返しの列のどれか一か所にだけ在る**（`Flight`）。このことは送る、取り出す、
返す、受け取るの四つの動きで保たれるので、受け取った答えは必ず出ている要求への答えである。
-/

namespace Plin.Infra

variable {R A : Type}

/--
呼び手の出している要求、送りの列、受け手の処理している要求、返しの列の関係。

`ans r a` は `a` が `r` への答えであること。
-/
inductive Flight (ans : R → A → Prop) : Option R → List R → Option R → List A → Prop
  | quiet : Flight ans none [] none []
  | sent (r : R) : Flight ans (some r) [r] none []
  | taken (r : R) : Flight ans (some r) [] (some r) []
  | answered (r : R) (a : A) (h : ans r a) : Flight ans (some r) [] none [a]

namespace Flight

variable {ans : R → A → Prop} {c b : Option R} {fwd : List R} {back : List A} {r : R} {a : A}

/-- 出している要求が無ければ、どこにも何も無い。 -/
theorem eq_of_none (h : Flight ans none fwd b back) : fwd = [] ∧ b = none ∧ back = [] := by
  cases h
  exact ⟨rfl, rfl, rfl⟩

/-- 送る。 -/
theorem send (h : Flight ans none fwd b back) (r : R) :
    Flight ans (some r) (fwd ++ [r]) b back := by
  cases h
  exact .sent r

/-- 受け手が取り出す。 -/
theorem take (h : Flight ans c (r :: fwd) b back) : b = none ∧ Flight ans c fwd (some r) back := by
  cases h
  exact ⟨rfl, .taken r⟩

/-- 送りの列の要求は高々一つである。 -/
theorem tail_eq_nil (h : Flight ans c (r :: fwd) b back) : fwd = [] := by
  cases h
  rfl

/-- 受け手が返す。 -/
theorem reply (h : Flight ans c fwd (some r) back) (ha : ans r a) :
    Flight ans c fwd none (back ++ [a]) := by
  cases h
  exact .answered r a ha

/-- **呼び手が受け取った答えは、出している要求への答えである。** -/
theorem accept (h : Flight ans (some r) fwd b (a :: back)) :
    ans r a ∧ Flight ans none fwd b back := by
  cases h with
  | answered _ _ ha => exact ⟨ha, .quiet⟩

/-- 受け手が処理しているものは、呼び手の出している要求である。 -/
theorem caller_eq (h : Flight ans c fwd (some r) back) : c = some r := by
  cases h
  rfl

end Flight

end Plin.Infra
