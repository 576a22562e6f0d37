import Mathlib.Data.List.TakeWhile
import Mathlib.Data.List.Infix
import Mathlib.Algebra.Group.Int.Defs

/-!
# 文字列の探索と整数の十進表記

`std::string` の探索と `std::stoi`。文字列は文字の list で表す。

`name:` の形の印を探すと、**`:` で区切った断片のうち `name` で終わる最初のもの**で見つかる
（`indexOf_of_suffix` / `indexOf_of_not_suffix`）。断片の中に `:` は無いので、印が途中から始まることは無い。
-/

namespace Plin.Infra

/-- 文字列。 -/
abbrev Text := List Char

namespace Text

/-- `find(pat)`。 -/
def indexOf (pat : Text) : Text → Option Nat
  | [] => if pat = [] then some 0 else none
  | c :: s => if pat.isPrefixOf (c :: s) then some 0 else (indexOf pat s).map (· + 1)

variable {name c s rest : Text}

theorem indexOf_append_self (pat s : Text) : indexOf pat (pat ++ s) = some 0 := by
  cases h : pat ++ s with
  | nil =>
    obtain ⟨rfl, -⟩ := List.append_eq_nil_iff.mp h
    rfl
  | cons c t => rw [indexOf, if_pos (by rw [← h]; simp)]

/-- `:` の無い断片から始まる一致は、断片の直後の `:` で終わる。 -/
theorem eq_of_isPrefixOf (hname : ':' ∉ name) (hc : ':' ∉ c)
    (h : (name ++ [':']).isPrefixOf (c ++ ':' :: rest) = true) : name = c := by
  rw [List.isPrefixOf_iff_prefix] at h
  obtain ⟨t, ht⟩ := h
  rw [List.append_assoc] at ht
  rcases List.append_eq_append_iff.mp ht with ⟨w, rfl, hw⟩ | ⟨w, rfl, hw⟩
  · cases w with
    | nil => simp
    | cons x w =>
      have hx : x = ':' := (List.cons.inj hw).1.symm
      exact absurd (by simp [hx]) hc
  · cases w with
    | nil => simp
    | cons x w =>
      have hx : x = ':' := (List.cons.inj hw).1.symm
      exact absurd (by simp [hx]) hname

/-- `name` で終わる断片では、断片の終わりで見つかる。 -/
theorem indexOf_of_suffix (hname : ':' ∉ name) (hc : ':' ∉ c) (rest : Text) :
    indexOf (name ++ [':']) (c ++ name ++ ':' :: rest) = some c.length := by
  induction c with
  | nil =>
    have h := indexOf_append_self (name ++ [':']) rest
    rw [List.append_assoc] at h
    exact h
  | cons x c ih =>
    rw [List.mem_cons, not_or] at hc
    rw [List.cons_append, List.cons_append, indexOf, if_neg, ih hc.2]
    · rfl
    · intro h
      have hfrag : ':' ∉ x :: c ++ name := by simp [hc, hname]
      have hlen := congrArg List.length (eq_of_isPrefixOf hname hfrag h)
      simp at hlen
      omega

/-- `name` で終わらない断片は飛ばされる。 -/
theorem indexOf_of_not_suffix (hname : ':' ∉ name) (hc : ':' ∉ c) (hsuffix : ¬ name <:+ c)
    (rest : Text) :
    indexOf (name ++ [':']) (c ++ ':' :: rest) =
      (indexOf (name ++ [':']) rest).map (· + (c.length + 1)) := by
  induction c with
  | nil =>
    rw [List.nil_append, indexOf, if_neg]
    · rfl
    · intro h
      exact hsuffix (eq_of_isPrefixOf (c := []) hname hc h ▸ List.suffix_refl _)
  | cons x c ih =>
    have hc' := hc
    rw [List.mem_cons, not_or] at hc'
    rw [List.cons_append, indexOf, if_neg,
      ih hc'.2 fun h => hsuffix (h.trans (List.suffix_cons x c)), Option.map_map]
    · rfl
    · intro h
      exact hsuffix (eq_of_isPrefixOf hname hc h ▸ List.suffix_refl _)

/-- 断片の終わり方は、最後の語だけで決まる。 -/
theorem not_suffix_append {w : Text} (h₁ : ¬ name <:+ w) (h₂ : ¬ w <:+ name) (x : Text) :
    ¬ name <:+ x ++ w := by
  intro h
  rcases List.suffix_or_suffix_of_suffix h (List.suffix_append x w) with h' | h'
  · exact h₁ h'
  · exact h₂ h'

/-! ## 空白 -/

/-- 前後に空白の付いた文字列から空白を落とす。 -/
theorem dropWhile_append_of_all {p : Char → Bool} {a b : Text} (ha : ∀ x ∈ a, p x = true)
    (hb : ∀ x, b.head? = some x → p x = false) : (a ++ b).dropWhile p = b := by
  rw [List.dropWhile_append_of_pos ha]
  cases b with
  | nil => rfl
  | cons x b => exact List.dropWhile_cons_of_neg (by simp [hb x rfl])

theorem takeWhile_append_of_all {p : Char → Bool} {a b : Text} (ha : ∀ x ∈ a, p x = true)
    (hb : ∀ x, b.head? = some x → p x = false) : (a ++ b).takeWhile p = a := by
  rw [List.takeWhile_append_of_pos ha]
  cases b with
  | nil => simp
  | cons x b => rw [List.takeWhile_cons_of_neg (by simp [hb x rfl]), List.append_nil]

/-! ## 整数 -/

/-- `isspace`。 -/
def isSpace (c : Char) : Bool :=
  c = ' ' || c = '\t' || c = '\n' || c = '\r' || c = '\x0b' || c = '\x0c'

/-- 符号を外す。 -/
def splitSign : Text → Bool × Text
  | '-' :: s => (true, s)
  | '+' :: s => (false, s)
  | s => (false, s)

/-- `std::stoi`。先頭の空白と符号の後の数字を読み、その後ろは読まない。`none` は例外である。 -/
def stoi (s : Text) : Option Int :=
  let (negative, s) := splitSign (s.dropWhile isSpace)
  let digits := s.takeWhile Char.isDigit
  if digits = [] then none
  else
    let n : Int := Nat.ofDigitChars 10 digits 0
    let n := if negative then -n else n
    if -2 ^ 31 ≤ n ∧ n < 2 ^ 31 then some n else none

/-- 整数の十進表記。 -/
def printInt : Int → Text
  | .ofNat n => Nat.toDigits 10 n
  | .negSucc n => '-' :: Nat.toDigits 10 (n + 1)

theorem mem_toDigits {n : Nat} {x : Char} (h : x ∈ Nat.toDigits 10 n) : x.isDigit = true :=
  Nat.isDigit_of_mem_toDigits (by decide) (by decide) h

/-- 十進表記の文字。 -/
theorem mem_printInt {i : Int} {x : Char} (h : x ∈ printInt i) : x = '-' ∨ x.isDigit = true := by
  cases i with
  | ofNat n => exact Or.inr (mem_toDigits h)
  | negSucc n =>
    rcases List.mem_cons.mp h with rfl | h
    · exact Or.inl rfl
    · exact Or.inr (mem_toDigits h)

theorem printInt_ne_nil (i : Int) : printInt i ≠ [] := by
  cases i with
  | ofNat n => exact Nat.toDigits_ne_nil
  | negSucc n => simp [printInt]

theorem isSpace_of_isDigit {x : Char} (h : x.isDigit = true) : isSpace x = false := by
  by_contra hs
  rw [Bool.not_eq_false] at hs
  simp only [isSpace, Bool.or_eq_true, decide_eq_true_eq] at hs
  rcases hs with ((((rfl | rfl) | rfl) | rfl) | rfl) | rfl <;> revert h <;> decide

/-- **十進表記は、後ろに数字でない文字が続いても `stoi` で読み戻せる。** -/
theorem stoi_printInt {i : Int} (hlo : -2 ^ 31 ≤ i) (hhi : i < 2 ^ 31) {junk : Text}
    (hjunk : ∀ x, junk.head? = some x → x.isDigit = false) :
    stoi (printInt i ++ junk) = some i := by
  have hdigits (n : Nat) : (Nat.toDigits 10 n ++ junk).takeWhile Char.isDigit = Nat.toDigits 10 n :=
    takeWhile_append_of_all (fun x hx => mem_toDigits hx) hjunk
  cases i with
  | ofNat n =>
    have hspace : (Nat.toDigits 10 n ++ junk).dropWhile isSpace = Nat.toDigits 10 n ++ junk := by
      cases hd : Nat.toDigits 10 n with
      | nil => exact absurd hd Nat.toDigits_ne_nil
      | cons x ds =>
        have hx : x.isDigit = true := mem_toDigits (by rw [hd]; simp)
        exact List.dropWhile_cons_of_neg (by simp [isSpace_of_isDigit hx])
    have hsign : splitSign (Nat.toDigits 10 n ++ junk) = (false, Nat.toDigits 10 n ++ junk) := by
      cases hd : Nat.toDigits 10 n with
      | nil => exact absurd hd Nat.toDigits_ne_nil
      | cons x ds =>
        have hx : x.isDigit = true := mem_toDigits (by rw [hd]; simp)
        rw [List.cons_append, splitSign]
        · intro s hs
          rw [(List.cons.inj hs).1] at hx
          revert hx
          decide
        · intro s hs
          rw [(List.cons.inj hs).1] at hx
          revert hx
          decide
    rw [stoi, printInt, hspace, hsign]
    dsimp only
    rw [hdigits, if_neg Nat.toDigits_ne_nil, Nat.ofDigitChars_ten_toDigits]
    exact if_pos ⟨hlo, hhi⟩
  | negSucc n =>
    have hspace : ('-' :: Nat.toDigits 10 (n + 1) ++ junk).dropWhile isSpace =
        '-' :: (Nat.toDigits 10 (n + 1) ++ junk) :=
      List.dropWhile_cons_of_neg (by decide)
    rw [stoi, printInt, hspace, splitSign]
    dsimp only
    rw [hdigits, if_neg Nat.toDigits_ne_nil, Nat.ofDigitChars_ten_toDigits]
    exact if_pos ⟨hlo, hhi⟩

end Text

end Plin.Infra
