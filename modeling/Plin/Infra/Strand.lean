import Mathlib.Data.List.Chain
import Mathlib.Data.List.Nodup

/-!
# 途中でつなぎ替えられる双方向の列

`prev` と `next` で双方向につながった node の列から一つを取り除き、代わりに新しい列を入れる。`next` を一つ
書いて前からつなぎ、その後で `prev` を一つ書いて後ろからつなぐ。二つの書き込みの間は、**`next` をたどる列は
途切れないが、`prev` は一箇所だけ古い**。その箇所を `late` で表す。
-/

namespace Plin.Infra

variable {I : Type*}

/-- 先頭のほかの node には、一つ前が在る。 -/
theorem exists_before {R : I → I → Prop} {ids : List I} {a b : I} (h : (a :: ids).IsChain R)
    (hb : b ∈ ids) : ∃ d ∈ a :: ids, R d b := by
  induction ids generalizing a with
  | nil => cases hb
  | cons i ids ih =>
    obtain ⟨hai, hrest⟩ := List.isChain_cons_cons.mp h
    rcases List.mem_cons.mp hb with rfl | hb
    · exact ⟨a, List.mem_cons_self, hai⟩
    · obtain ⟨d, hd, hdb⟩ := ih hrest hb
      exact ⟨d, List.mem_cons_of_mem _ hd, hdb⟩

/-- 末尾のほかの node には、一つ後が在る。 -/
theorem exists_after {R : I → I → Prop} {ids : List I} {a b : I} (h : (ids ++ [b]).IsChain R)
    (ha : a ∈ ids) : ∃ d ∈ ids ++ [b], R a d := by
  obtain ⟨A, B, rfl⟩ := List.append_of_mem ha
  rw [List.append_assoc, List.cons_append] at h ⊢
  have hrest := (List.isChain_split.mp h).2
  cases hB : B ++ [b] with
  | nil => simp at hB
  | cons d C =>
    rw [hB] at hrest
    exact ⟨d, by simp, (List.isChain_cons_cons.mp hrest).1⟩

/-- node の前後。`late a b` は、`b` の `prev` がこれから `a` に書かれることを言う。 -/
structure Strand (I : Type*) where
  prev : I → Option I
  next : I → Option I
  late : I → I → Prop

/-- `ids` は `next` でつながり、`late` のほかは `prev` でもつながっている。 -/
structure Woven (s : Strand I) (ids : List I) : Prop where
  nodup : ids.Nodup
  forward : ids.IsChain fun a b => s.next a = some b
  back : ids.IsChain fun a b => s.prev b = some a ∨ s.late a b
  front : ∀ a ∈ ids.head?, s.prev a = none
  tail : ∀ a ∈ ids.getLast?, s.next a = none

namespace Woven

variable {s s' : Strand I} {ids A B new : List I} {l x r : I}

/-- 隣り合う二つ。 -/
theorem next_eq (h : Woven s (A ++ x :: r :: B)) : s.next x = some r :=
  (List.isChain_append_cons_cons.mp h.forward).2.1

theorem prev_eq (h : Woven s (A ++ l :: x :: B)) : s.prev x = some l ∨ s.late l x :=
  (List.isChain_append_cons_cons.mp h.back).2.1

/-- 先頭でない node の一つ前。 -/
theorem exists_prev (h : Woven s ids) (hx : x ∈ ids) (hp : s.prev x ≠ none) :
    ∃ A B a, ids = A ++ a :: x :: B ∧ (s.prev x = some a ∨ s.late a x) := by
  obtain ⟨A, B, rfl⟩ := List.append_of_mem hx
  rcases List.eq_nil_or_concat A with rfl | ⟨A, a, rfl⟩
  · exact absurd (h.front x rfl) hp
  · rw [List.concat_eq_append, List.append_assoc, List.singleton_append] at h ⊢
    exact ⟨A, B, a, rfl, h.prev_eq⟩

/-- `prev` が古くない node の隣。 -/
theorem exists_neighbors (h : Woven s ids) (hx : x ∈ ids) (hp : s.prev x = some l)
    (hlate : ∀ a, ¬ s.late a x) (hn : s.next x = some r) : ∃ A B, ids = A ++ l :: x :: r :: B := by
  obtain ⟨A, B, a, rfl, hprev⟩ := h.exists_prev hx (by rw [hp]; exact Option.some_ne_none l)
  obtain rfl := Option.some.inj ((hprev.resolve_right (hlate a)).symm.trans hp)
  cases B with
  | nil =>
    rw [h.tail x (by simp)] at hn
    cases hn
  | cons b B =>
    rw [List.append_cons] at h
    obtain rfl := Option.some.inj (h.next_eq.symm.trans hn)
    exact ⟨A, B, rfl⟩

/-- 三つの node は異なる。 -/
theorem ne_neighbors (h : Woven s (A ++ l :: x :: r :: B)) : l ≠ x ∧ l ≠ r ∧ x ≠ r := by
  have hnd := (List.nodup_append.mp h.nodup).2.1
  simp only [List.nodup_cons, List.mem_cons, not_or] at hnd
  exact ⟨hnd.1.1, hnd.1.2.1, hnd.2.1.1⟩

/--
**`x` の代わりに新しい列 `new` を前からつなぐ。** `l` の `next` が変わり、`r` の `prev` はまだ古い。
-/
theorem splice (h : Woven s (A ++ l :: x :: r :: B)) (hnd : new.Nodup)
    (hfresh : ∀ a ∈ new, a ∉ A ++ l :: x :: r :: B)
    (hprev : ∀ a ∉ new, s'.prev a = s.prev a)
    (hnext : ∀ a ∉ new, a ≠ l → s'.next a = s.next a)
    (hlate : ∀ a b, s.late a b → s'.late a b)
    (hforward : (l :: (new ++ [r])).IsChain fun a b => s'.next a = some b)
    (hback : (l :: new).IsChain fun a b => s'.prev b = some a)
    (hlast : ∀ a ∈ (l :: new).getLast?, s'.late a r) :
    Woven s' (A ++ l :: (new ++ r :: B)) := by
  have hold : ∀ a ∈ A ++ l :: x :: r :: B, a ∉ new := fun a ha hnew => hfresh a hnew ha
  obtain ⟨-, hndl, hA⟩ := List.nodup_append.mp h.nodup
  obtain ⟨hl, hndx⟩ := List.nodup_cons.mp hndl
  obtain ⟨hx, -⟩ := List.nodup_cons.mp hndx
  have hkeep : (A ++ l :: r :: B).Sublist (A ++ l :: x :: r :: B) :=
    (List.Sublist.refl A).append ((List.sublist_cons_self x _).cons_cons l)
  have hleft : A ++ [l] ⊆ A ++ l :: x :: r :: B := by
    rw [List.append_cons A l (x :: r :: B)]
    exact List.subset_append_left _ _
  obtain ⟨hfA, -, hf⟩ := List.isChain_append_cons_cons.mp h.forward
  obtain ⟨-, hfB⟩ := List.isChain_cons_cons.mp hf
  obtain ⟨hbA, -, hb⟩ := List.isChain_append_cons_cons.mp h.back
  obtain ⟨-, hbB⟩ := List.isChain_cons_cons.mp hb
  have hback' : ∀ a b, b ∉ new → s.prev b = some a ∨ s.late a b →
      s'.prev b = some a ∨ s'.late a b :=
    fun a b hb hab => hab.imp (fun hp => (hprev b hb).trans hp) (hlate a b)
  refine ⟨?_, ?_, ?_, ?_, ?_⟩
  · have hperm : (A ++ l :: (new ++ r :: B)).Perm (new ++ (A ++ l :: r :: B)) := by
      have h₁ : A ++ l :: (new ++ r :: B) = (A ++ [l]) ++ (new ++ r :: B) := by simp
      have h₂ : A ++ l :: r :: B = (A ++ [l]) ++ r :: B := by simp
      rw [h₁, h₂]
      exact List.perm_append_comm_assoc _ _ _
    exact hperm.nodup_iff.mpr (List.nodup_append.mpr ⟨hnd, hkeep.nodup h.nodup,
      fun a ha b hb hab => hfresh a ha (hab ▸ hkeep.subset hb)⟩)
  · refine List.isChain_split.mpr ⟨hfA.imp_of_mem_imp fun a b ha hb hab => ?_, ?_⟩
    · -- `l` の次は `x` であり、`x` は `l` より前に現れない
      have hne : a ≠ l := by
        rintro rfl
        obtain rfl := Option.some.inj (h.next_eq.symm.trans hab)
        rcases List.mem_append.mp hb with hb | hb
        · exact hA _ hb _ (by simp) rfl
        · exact h.ne_neighbors.1 (List.mem_singleton.mp hb).symm
      exact (hnext a (hold a (hleft ha)) hne).trans hab
    · rw [← List.cons_append]
      refine List.isChain_split.mpr ⟨hforward, hfB.imp_of_mem_imp fun a b ha _ hab => ?_⟩
      have hne : a ≠ l := fun hal => hl (List.mem_cons_of_mem x (hal ▸ ha))
      exact (hnext a (hold a (by simp [List.mem_cons.mp ha])) hne).trans hab
  · refine List.isChain_split.mpr ⟨hbA.imp_of_mem_imp fun a b _ hb hab => ?_, ?_⟩
    · exact hback' a b (hold b (hleft hb)) hab
    · rw [← List.cons_append]
      refine List.isChain_split.mpr ⟨?_, hbB.imp_of_mem_imp fun a b _ hb hab => ?_⟩
      · refine List.isChain_append.mpr ⟨hback.imp fun a b hab => Or.inl hab, .singleton r, ?_⟩
        intro a ha b hb
        obtain rfl : r = b := by simpa using hb
        exact Or.inr (hlast a ha)
      · exact hback' a b (hold b (by simp [List.mem_cons.mp hb])) hab
  · intro a ha
    have ha' : a ∈ (A ++ l :: x :: r :: B).head? := by
      cases A <;> exact ha
    exact (hprev a (hold a (List.mem_of_mem_head? ha'))).trans (h.front a ha')
  · intro a ha
    have hcut : ∀ c : List I, (c ++ r :: B).getLast? = (r :: B).getLast? := by
      intro c
      rw [List.getLast?_append_of_ne_nil _ (List.cons_ne_nil r B)]
    have ha' : a ∈ (A ++ l :: x :: r :: B).getLast? := by
      rw [show A ++ l :: x :: r :: B = (A ++ [l, x]) ++ r :: B by simp, hcut]
      rwa [show A ++ l :: (new ++ r :: B) = (A ++ l :: new) ++ r :: B by simp, hcut] at ha
    have har : a ∈ r :: B := by
      rw [show A ++ l :: x :: r :: B = (A ++ [l, x]) ++ r :: B by simp, hcut] at ha'
      exact List.mem_of_mem_getLast? ha'
    have hne : a ≠ l := fun hal => hl (List.mem_cons_of_mem x (hal ▸ har))
    exact (hnext a (hold a (List.mem_of_mem_getLast? ha')) hne).trans (h.tail a ha')

/-- **後ろからもつなぐ。** -/
theorem settle (h : Woven s (A ++ l :: r :: B)) (hnext : ∀ a, s'.next a = s.next a)
    (hprev : ∀ a, a ≠ r → s'.prev a = s.prev a) (hr : s'.prev r = some l)
    (hlate : ∀ a b, b ≠ r → s.late a b → s'.late a b) : Woven s' (A ++ l :: r :: B) := by
  obtain ⟨-, hndl, hA⟩ := List.nodup_append.mp h.nodup
  obtain ⟨hl, hndr⟩ := List.nodup_cons.mp hndl
  have hleft : ∀ a ∈ A ++ [l], a ≠ r := by
    intro a ha har
    rcases List.mem_append.mp ha with ha | ha
    · exact hA a ha r (by simp) har
    · exact hl (by simp [← har, List.mem_singleton.mp ha])
  have hback : ∀ a b, b ≠ r → s.prev b = some a ∨ s.late a b →
      s'.prev b = some a ∨ s'.late a b :=
    fun a b hb hab => hab.imp (fun hp => (hprev b hb).trans hp) (hlate a b hb)
  obtain ⟨hbA, -, hbB⟩ := List.isChain_append_cons_cons.mp h.back
  refine ⟨h.nodup, h.forward.imp fun a b hab => (hnext a).trans hab, ?_, ?_,
    fun a ha => (hnext a).trans (h.tail a ha)⟩
  · refine List.isChain_append_cons_cons.mpr ⟨?_, Or.inl hr, ?_⟩
    · exact hbA.imp_of_mem_imp fun a b _ hb hab => hback a b (hleft b hb) hab
    · refine hbB.imp_of_mem_tail_imp fun a b _ hb hab => hback a b (fun hbr => ?_) hab
      exact (List.nodup_cons.mp hndr).1 (hbr ▸ hb)
  · intro a ha
    have hmem : a ∈ A ++ [l] := by
      cases A with
      | nil => exact List.mem_singleton.mpr (Option.some.inj ha).symm
      | cons b A => exact (Option.some.inj ha) ▸ List.mem_cons_self
    exact (hprev a (hleft a hmem)).trans (h.front a ha)

end Woven

end Plin.Infra
