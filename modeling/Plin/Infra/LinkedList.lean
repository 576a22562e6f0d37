import Mathlib.Data.List.Basic

/-!
# 双方向の連鎖

番地 `I` と node `N` の組の列が、`prev` と `next` で双方向につながっていることを述べる。
列の前と後ろの番地は外から与えるので、連鎖は途中で切ってもつないでもよい（`doublyLinked_append`）。
-/

namespace Plin.Infra

variable {I N : Type} {prev next : N → Option I} {p n : Option I}

/-- 連鎖の最初の番地。空なら、その後ろの番地。 -/
def firstId : List (I × N) → Option I → Option I
  | [], n => n
  | x :: _, _ => some x.1

/-- 連鎖の最後の番地。空なら、その前の番地。 -/
def lastId : Option I → List (I × N) → Option I
  | p, [] => p
  | _, x :: c => lastId (some x.1) c

/-- 前の番地 `p` と後ろの番地 `n` の間につながった連鎖。 -/
def DoublyLinked (prev next : N → Option I) : Option I → List (I × N) → Option I → Prop
  | _, [], _ => True
  | p, x :: c, n => prev x.2 = p ∧ next x.2 = firstId c n ∧ DoublyLinked prev next (some x.1) c n

theorem firstId_append (a b : List (I × N)) (n : Option I) :
    firstId (a ++ b) n = firstId a (firstId b n) := by
  cases a <;> rfl

theorem lastId_append (p : Option I) (a b : List (I × N)) :
    lastId p (a ++ b) = lastId (lastId p a) b := by
  induction a generalizing p with
  | nil => rfl
  | cons x a ih => exact ih (some x.1)

/-- 連鎖は途中で切ってもつないでもよい。 -/
theorem doublyLinked_append {a b : List (I × N)} :
    DoublyLinked prev next p (a ++ b) n ↔
      DoublyLinked prev next p a (firstId b n) ∧ DoublyLinked prev next (lastId p a) b n := by
  induction a generalizing p with
  | nil => simp [DoublyLinked, lastId]
  | cons x a ih =>
    rw [List.cons_append, DoublyLinked, ih, DoublyLinked, firstId_append, lastId]
    tauto

/-- 中ほどの node の前後の番地。 -/
theorem DoublyLinked.middle {a b : List (I × N)} {x : I × N}
    (h : DoublyLinked prev next p (a ++ x :: b) n) :
    prev x.2 = lastId p a ∧ next x.2 = firstId b n := by
  obtain ⟨_, h₁, h₂, _⟩ := doublyLinked_append.mp h
  exact ⟨h₁, h₂⟩

end Plin.Infra
