import Mathlib.Order.Basic
import Mathlib.Order.Defs.LinearOrder
import Mathlib.Order.Lattice

/-!
# 整列した連想 list による有限写像

鍵が狭義に増える連想 list を有限写像として使う。整列していることは structure の
field に持たせるので、壊れた写像は作れない。

読むのは `find`、書くのは `upsert` と `erase` だけで、二つの書き込みが `find` に
どう見えるか（`find_upsert` / `find_erase`）が外に出す性質のすべてである。
-/

namespace Plin.Infra

variable {K V : Type} [LinearOrder K]

/-! ## 連想 list の操作 -/

/-- 連想 list を引く。 -/
def lookupEntries (k : K) : List (K × V) → Option V
  | [] => none
  | (a, v) :: l => if k = a then some v else lookupEntries k l

/-- 昇順を保って入れる。鍵が在れば値を差し替える。 -/
def insertEntries (k : K) (v : V) : List (K × V) → List (K × V)
  | [] => [(k, v)]
  | (a, w) :: l =>
    if k < a then (k, v) :: (a, w) :: l
    else if k = a then (k, v) :: l
    else (a, w) :: insertEntries k v l

/-- 鍵を落とす。 -/
def eraseEntries (k : K) (l : List (K × V)) : List (K × V) := l.filter (fun e => e.1 ≠ k)

theorem lookupEntries_eq_none {k : K} {l : List (K × V)} (h : ∀ e ∈ l, e.1 ≠ k) :
    lookupEntries k l = none := by
  induction l with
  | nil => rfl
  | cons e l ih =>
    obtain ⟨a, v⟩ := e
    rw [lookupEntries, if_neg (fun he => h (a, v) (by simp) he.symm)]
    exact ih fun e he => h e (by simp [he])

theorem mem_of_lookupEntries {k : K} {v : V} {l : List (K × V)}
    (h : lookupEntries k l = some v) : (k, v) ∈ l := by
  induction l with
  | nil => simp [lookupEntries] at h
  | cons e l ih =>
    obtain ⟨a, w⟩ := e
    rw [lookupEntries] at h
    split at h
    · next he => subst he; simp at h; simp [h]
    · exact List.mem_cons_of_mem _ (ih h)

theorem mem_insertEntries {k : K} {v : V} {l : List (K × V)} {e : K × V}
    (h : e ∈ insertEntries k v l) : e = (k, v) ∨ e ∈ l := by
  induction l with
  | nil => simpa [insertEntries] using h
  | cons d l ih =>
    obtain ⟨a, w⟩ := d
    rw [insertEntries] at h
    split at h
    · simpa using h
    · split at h
      · rcases List.mem_cons.mp h with h | h
        · exact Or.inl h
        · exact Or.inr (List.mem_cons_of_mem _ h)
      · rcases List.mem_cons.mp h with h | h
        · exact Or.inr (by simp [h])
        · rcases ih h with h | h
          · exact Or.inl h
          · exact Or.inr (List.mem_cons_of_mem _ h)

theorem insertEntries_sorted {k : K} {v : V} {l : List (K × V)}
    (h : l.Pairwise (fun a b => a.1 < b.1)) :
    (insertEntries k v l).Pairwise (fun a b => a.1 < b.1) := by
  induction l with
  | nil => simp [insertEntries]
  | cons d l ih =>
    obtain ⟨a, w⟩ := d
    obtain ⟨hd, hl⟩ := List.pairwise_cons.mp h
    rw [insertEntries]
    split
    · next hk =>
      refine List.pairwise_cons.mpr ⟨?_, h⟩
      intro e he
      rcases List.mem_cons.mp he with he | he
      · rw [he]; exact hk
      · exact lt_trans hk (hd e he)
    · next hk =>
      split
      · next he => exact List.pairwise_cons.mpr ⟨fun e hm => by rw [he]; exact hd e hm, hl⟩
      · next hne =>
        refine List.pairwise_cons.mpr ⟨?_, ih hl⟩
        intro e he
        rcases mem_insertEntries he with he | he
        · rw [he]; exact lt_of_le_of_ne (not_lt.mp hk) (fun hc => hne hc.symm)
        · exact hd e he

theorem lookupEntries_insertEntries (k k' : K) (v : V) (l : List (K × V)) :
    lookupEntries k' (insertEntries k v l) = if k' = k then some v else lookupEntries k' l := by
  induction l with
  | nil => simp [insertEntries, lookupEntries]
  | cons d l ih =>
    obtain ⟨a, w⟩ := d
    rw [insertEntries]
    split
    · simp [lookupEntries]
    · split
      · next he => subst he; by_cases hk : k' = k <;> simp [lookupEntries, hk]
      · next hne =>
        rw [lookupEntries, ih, lookupEntries]
        by_cases hk : k' = k
        · subst hk; simp [hne]
        · simp [hk]

/-- 新しい鍵のときだけ、一つ長くなる。 -/
theorem length_insertEntries {k : K} {v : V} {l : List (K × V)}
    (h : l.Pairwise (fun a b => a.1 < b.1)) :
    (insertEntries k v l).length =
      if (lookupEntries k l).isSome then l.length else l.length + 1 := by
  induction l with
  | nil => rfl
  | cons d l ih =>
    obtain ⟨a, w⟩ := d
    obtain ⟨hd, hl⟩ := List.pairwise_cons.mp h
    rw [insertEntries, lookupEntries]
    split
    · next hk =>
      have hnone : lookupEntries k l = none :=
        lookupEntries_eq_none fun e he => ne_of_gt (lt_trans hk (hd e he))
      simp [ne_of_lt hk, hnone]
    · next hk =>
      split
      · simp
      · next hne =>
        rw [List.length_cons, ih hl, List.length_cons]
        split <;> rfl

/-! 区間ごとに見る。鍵より小さい部分と大きい部分は、書き込みで動かない。 -/

theorem lookupEntries_append (k : K) (a b : List (K × V)) :
    lookupEntries k (a ++ b) = (lookupEntries k a).or (lookupEntries k b) := by
  induction a with
  | nil => rfl
  | cons e a ih =>
    obtain ⟨c, w⟩ := e
    rw [List.cons_append, lookupEntries, lookupEntries, ih]
    split <;> rfl

theorem insertEntries_append_left {k : K} {v : V} {a b : List (K × V)} (h : ∀ e ∈ a, e.1 < k) :
    insertEntries k v (a ++ b) = a ++ insertEntries k v b := by
  induction a with
  | nil => rfl
  | cons e a ih =>
    obtain ⟨c, w⟩ := e
    have hc : c < k := h (c, w) (by simp)
    rw [List.cons_append, insertEntries, if_neg (not_lt_of_gt hc), if_neg (ne_of_gt hc),
      ih fun e he => h e (by simp [he])]
    rfl

theorem insertEntries_of_lt {k : K} {v : V} {l : List (K × V)} (h : ∀ e ∈ l, k < e.1) :
    insertEntries k v l = (k, v) :: l := by
  cases l with
  | nil => rfl
  | cons e l =>
    obtain ⟨c, w⟩ := e
    rw [insertEntries, if_pos (h (c, w) (by simp))]

theorem insertEntries_append_right {k : K} {v : V} {a b : List (K × V)} (h : ∀ e ∈ b, k < e.1) :
    insertEntries k v (a ++ b) = insertEntries k v a ++ b := by
  induction a with
  | nil => exact insertEntries_of_lt h
  | cons e a ih =>
    obtain ⟨c, w⟩ := e
    rw [List.cons_append, insertEntries, insertEntries, ih]
    split
    · rfl
    · split <;> rfl

theorem eraseEntries_append (k : K) (a b : List (K × V)) :
    eraseEntries k (a ++ b) = eraseEntries k a ++ eraseEntries k b := List.filter_append ..

theorem eraseEntries_eq_self {k : K} {l : List (K × V)} (h : ∀ e ∈ l, e.1 ≠ k) :
    eraseEntries k l = l :=
  List.filter_eq_self.mpr fun e he => decide_eq_true (h e he)

theorem lookupEntries_eraseEntries (k k' : K) (l : List (K × V)) :
    lookupEntries k' (eraseEntries k l) = if k' = k then none else lookupEntries k' l := by
  induction l with
  | nil => simp [eraseEntries, lookupEntries]
  | cons d l ih =>
    obtain ⟨a, w⟩ := d
    unfold eraseEntries at ih ⊢
    by_cases ha : a = k
    · rw [List.filter_cons_of_neg (by simp [ha]), ih, lookupEntries]
      by_cases hk : k' = k
      · simp [hk]
      · simp [hk, ha]
    · rw [List.filter_cons_of_pos (by simp [ha]), lookupEntries, ih, lookupEntries]
      by_cases hk : k' = k
      · subst hk; simp [Ne.symm ha]
      · simp [hk]

/-- 在る鍵を落とすと、ちょうど一つ短くなる。 -/
theorem length_eraseEntries {k : K} {l : List (K × V)} (h : l.Pairwise (fun a b => a.1 < b.1))
    (hk : (lookupEntries k l).isSome) : (eraseEntries k l).length + 1 = l.length := by
  induction l with
  | nil => simp [lookupEntries] at hk
  | cons d l ih =>
    obtain ⟨a, w⟩ := d
    obtain ⟨hd, hl⟩ := List.pairwise_cons.mp h
    unfold eraseEntries at ih ⊢
    by_cases ha : a = k
    · subst ha
      have hself := eraseEntries_eq_self fun e he => ne_of_gt (hd e he)
      unfold eraseEntries at hself
      rw [List.filter_cons_of_neg (by simp), hself, List.length_cons]
    · rw [lookupEntries, if_neg (Ne.symm ha)] at hk
      rw [List.filter_cons_of_pos (by simp [ha]), List.length_cons, ih hl hk, List.length_cons]

/-! ## 有限写像 -/

/-- 鍵が狭義に増える連想 list。 -/
structure SortedMap (K V : Type) [LinearOrder K] where
  entries : List (K × V)
  sorted : entries.Pairwise (fun a b => a.1 < b.1)

namespace SortedMap

instance [DecidableEq V] : DecidableEq (SortedMap K V) := fun a b =>
  decidable_of_iff (a.entries = b.entries) (by cases a; cases b; simp)

def empty : SortedMap K V := ⟨[], List.Pairwise.nil⟩

def find (m : SortedMap K V) (k : K) : Option V := lookupEntries k m.entries

def upsert (m : SortedMap K V) (k : K) (v : V) : SortedMap K V :=
  ⟨insertEntries k v m.entries, insertEntries_sorted m.sorted⟩

def erase (m : SortedMap K V) (k : K) : SortedMap K V :=
  ⟨eraseEntries k m.entries, m.sorted.sublist List.filter_sublist⟩

@[simp] theorem find_empty (k : K) : (empty : SortedMap K V).find k = none := rfl

@[simp] theorem find_upsert (m : SortedMap K V) (k k' : K) (v : V) :
    (m.upsert k v).find k' = if k' = k then some v else m.find k' :=
  lookupEntries_insertEntries k k' v m.entries

@[simp] theorem find_erase (m : SortedMap K V) (k k' : K) :
    (m.erase k).find k' = if k' = k then none else m.find k' :=
  lookupEntries_eraseEntries k k' m.entries

/-- 写像に入っている組は、鍵を引いて出てくる組である。 -/
theorem mem_entries_iff {m : SortedMap K V} {k : K} {v : V} :
    (k, v) ∈ m.entries ↔ m.find k = some v := by
  refine ⟨?_, mem_of_lookupEntries⟩
  obtain ⟨l, hl⟩ := m
  show (k, v) ∈ l → lookupEntries k l = some v
  intro h
  induction l with
  | nil => simp at h
  | cons d l ih =>
    obtain ⟨a, w⟩ := d
    obtain ⟨hd, hs⟩ := List.pairwise_cons.mp hl
    rw [lookupEntries]
    rcases List.mem_cons.mp h with h | h
    · cases h; simp
    · rw [if_neg (ne_of_gt (hd _ h)), ih hs h]

end SortedMap

end Plin.Infra
