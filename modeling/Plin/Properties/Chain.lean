import Plin.Infra.LinkedList
import Plin.Infra.Predecessor
import Plin.Properties.LeafData

/-!
# leaf の連鎖

leaf は `prev` と `next` でつながり、`first_key` の順に並ぶ。**どの leaf の鍵も、次の leaf の
`first_key` より小さい**（`Chain`）。

索引が内側の鍵を読み書きするとき、`locate` は親 slot の指す leaf から始めて、予測が末尾の block に
入る間は隣に移る。この動きは header とつながりだけで決まる（`Queue`）。最後の構築の鍵より後ろを末尾の
block に送る予測器（`LeafNode.Regular`）なら、**連鎖の中で鍵以下の最後の leaf** に着く
（`Queue.locate_eq`）。
-/

namespace Plin

open Infra

variable {D : Type} [Arith D]

/-- 連鎖の一つ分。番地と leaf の組。 -/
abbrev Link (D : Type) := LeafId × LeafNode D

/-- 連鎖の一つ分の `first_key`。 -/
def Link.firstKey (x : Link D) : Key := x.2.firstKey

/-- 連鎖の一つ分に対応する親 slot。 -/
def Link.info (x : Link D) : InnerSlot D := x.2.getInfo x.1

namespace LeafNode

/-- 予測器の性質。最後の構築の鍵より後ろは末尾の二つの block に送り、番号は折り返さない。 -/
structure Regular (lo hi : Key) (l : LeafNode D) : Prop where
  tail : ∀ k, l.lastBuildKey ≤ k → k ≤ hi → sub32 l.blockNumber 2 ≤ l.predict k
  addressable : ∀ k, lo ≤ k → k ≤ hi → l.predict k < 2 ^ 28

/-- 連鎖にある leaf の形。 -/
structure Sound (lo hi : Key) (l : LeafNode D) : Prop where
  small : l.blockNumber < 2 ^ 29
  room : ∀ k, l.predict k < l.blocks.length
  unlocked : l.locked = 0
  kept : l.isAbandoned = false
  first : lo ≤ l.firstKey ∧ l.firstKey ≤ hi
  keys : ∀ k, l.Stores k → l.firstKey ≤ k ∧ k ≤ hi

/-- `l` の鍵はどれも `l'` の `first_key` より小さい。 -/
structure Before (l l' : LeafNode D) : Prop where
  first : l.firstKey < l'.firstKey
  build : l.lastBuildKey < l'.firstKey
  keys : ∀ k, l.Stores k → k < l'.firstKey

end LeafNode

/-- leaf の連鎖。 -/
structure Chain (lo hi : Key) (leaves : List (LeafNode D)) (c : List (Link D)) : Prop where
  stored : ∀ x ∈ c, leaves[x.1]? = some x.2
  nodup : (c.map Prod.fst).Nodup
  linked : DoublyLinked LeafNode.prev LeafNode.next none c none
  sorted : c.Pairwise fun x y => x.2.Before y.2
  sound : ∀ x ∈ c, x.2.Sound lo hi

/-- `locate` の読む分の連鎖。header とつながりだけを見る。 -/
structure Queue (leaves : List (LeafNode D)) (c : List (Link D)) : Prop where
  stored : ∀ x ∈ c, leaves[x.1]? = some x.2
  next : ∀ {A B : List (Link D)} {x : Link D}, c = A ++ x :: B → x.2.next = firstId B none
  sorted : c.Pairwise fun x y => x.2.firstKey < y.2.firstKey ∧ x.2.lastBuildKey < y.2.firstKey
  small : ∀ x ∈ c, x.2.blockNumber < 2 ^ 29
  unlocked : ∀ x ∈ c, x.2.locked = 0

theorem Chain.queue {lo hi : Key} {leaves : List (LeafNode D)} {c : List (Link D)}
    (h : Chain lo hi leaves c) : Queue leaves c where
  stored := h.stored
  next := by
    rintro A B x rfl
    exact h.linked.middle.2
  sorted := h.sorted.imp fun hb => ⟨hb.first, hb.build⟩
  small x hx := (h.sound x hx).small
  unlocked x hx := (h.sound x hx).unlocked

namespace LeafNode

/-! ## 隣に移るかどうか -/

variable {key : Key} {leaves : List (LeafNode D)} {l : LeafNode D} {this : LeafId}

/-- 親 slot を使わないか、leaf の `get_info` の写しを使う。 -/
def AccOk (l : LeafNode D) (this : LeafId) (a : Option (InnerSlot D)) : Prop :=
  ∀ s, a = some s → s = l.getInfo this

/-- 親 slot の model は leaf の model の写しなので、どちらで予測しても同じである。 -/
theorem locate_succ (hl : leaves[this]? = some l) (hsmall : l.blockNumber < 2 ^ 29)
    (hlock : l.locked = 0) {a : Option (InnerSlot D)} (ha : l.AccOk this a) (fuel : Nat) :
    locate leaves key (fuel + 1) this a =
      if sub32 l.blockNumber 2 ≤ l.predict key then
        match l.next with
        | none => some (.at this a (l.predict key))
        | some n => (leaves[n]?).bind fun next =>
          if next.firstKey ≤ key then locate leaves key fuel n none
          else some (.at this a (l.predict key))
      else some (.at this a (l.predict key)) := by
  cases a with
  | none =>
    have hread : l.checkReadLock none = true := by simp [checkReadLock, hlock]
    rw [locate, hl, Option.bind_eq_bind, Option.bind_some]
    cases l.next <;> simp only [hread, Bool.not_true, Bool.false_eq_true, if_false,
      Option.map_none, Option.getD_none]
  | some s =>
    have hsi := ha s rfl
    have hbn : s.blockNumber = l.blockNumber := by
      rw [hsi]
      exact Nat.mod_eq_of_lt hsmall
    have hread : l.checkReadLock (some s) = true := by
      rw [hsi]
      rfl
    have hpredict : predictBlock key s.slope s.intercept s.blockNumber = l.predict key := by
      rw [hbn, hsi]
      rfl
    rw [locate, hl, Option.bind_eq_bind, Option.bind_some]
    cases l.next <;> simp only [hread, Bool.not_true, Bool.false_eq_true, if_false,
      Option.map_some, Option.getD_some, hpredict, ← hbn]

end LeafNode

namespace Queue

variable {key : Key} {leaves : List (LeafNode D)} {c : List (Link D)}

/-- 次の leaf の `first_key` が鍵より大きければ、その leaf に留まる。 -/
theorem locate_stay (h : Queue leaves c) {A B : List (Link D)} {z : Link D}
    (hc : c = A ++ z :: B) (hB : ∀ w ∈ B, key < w.firstKey) {a : Option (InnerSlot D)}
    (ha : z.2.AccOk z.1 a) (fuel : Nat) :
    LeafNode.locate leaves key (fuel + 1) z.1 a = some (.at z.1 a (z.2.predict key)) := by
  have hz : z ∈ c := by rw [hc]; simp
  have hnext := h.next hc
  rw [LeafNode.locate_succ (h.stored z hz) (h.small z hz) (h.unlocked z hz) ha]
  cases B with
  | nil =>
    rw [hnext]
    simp [firstId]
  | cons w B =>
    have hw : w ∈ c := by rw [hc]; simp
    have hlt : ¬ w.2.firstKey ≤ key := not_le_of_gt (hB w (by simp))
    rw [hnext]
    simp only [firstId, h.stored w hw, Option.bind_some, if_neg hlt]
    exact ite_self _

/-- **`locate` は連鎖の中で鍵以下の最後の leaf に着く。** 移った先では親 slot を使わない。 -/
theorem locate_eq (h : Queue leaves c)
    (htail : ∀ x ∈ c, x.2.lastBuildKey ≤ key → sub32 x.2.blockNumber 2 ≤ x.2.predict key)
    {W : List (Link D)} :
    ∀ {X : List (Link D)} {y : Link D} {fuel : Nat} {a : Option (InnerSlot D)},
      c = X ++ y :: W → y.firstKey ≤ key → W.length < fuel → y.2.AccOk y.1 a →
      ∃ A z B, IsPred Link.firstKey key (y :: W) A z B ∧
        LeafNode.locate leaves key fuel y.1 a =
          some (.at z.1 (if A = [] then a else none) (z.2.predict key)) := by
  induction W with
  | nil =>
    intro X y fuel a hc hy hfuel ha
    obtain ⟨fuel, rfl⟩ : ∃ n, fuel = n + 1 := ⟨fuel - 1, by omega⟩
    refine ⟨[], y, [], ⟨rfl, hy, by simp⟩, ?_⟩
    exact h.locate_stay hc (by simp) ha fuel
  | cons w W ih =>
    intro X y fuel a hc hy hfuel ha
    obtain ⟨fuel, rfl⟩ : ∃ n, fuel = n + 1 := ⟨fuel - 1, by omega⟩
    have hyc : y ∈ c := by rw [hc]; simp
    have hwc : w ∈ c := by rw [hc]; simp
    have hsorted := h.sorted
    rw [hc] at hsorted
    have hcut := List.pairwise_cons.mp (List.pairwise_append.mp hsorted).2.1
    by_cases hw : w.firstKey ≤ key
    · -- 鍵は次の leaf より後ろなので、予測は末尾の block に入る
      have hyw := (hcut.1 w (by simp)).2
      have hblock : sub32 y.2.blockNumber 2 ≤ y.2.predict key :=
        htail y hyc (le_of_lt (lt_of_lt_of_le hyw hw))
      have hnext := h.next hc
      rw [List.append_cons] at hc
      obtain ⟨A, z, B, hpred, hloc⟩ := @ih _ _ fuel none hc hw
        (by rw [List.length_cons] at hfuel; omega) (fun s hs => by cases hs)
      refine ⟨y :: A, z, B, ⟨by rw [hpred.eq]; rfl, hpred.le, hpred.gt⟩, ?_⟩
      rw [LeafNode.locate_succ (h.stored y hyc) (h.small y hyc) (h.unlocked y hyc) ha,
        if_pos hblock, hnext]
      simp only [firstId, h.stored w hwc, Option.bind_some]
      rw [if_pos (show w.2.firstKey ≤ key from hw), hloc]
      simp
    · have hgt : ∀ v ∈ w :: W, key < v.firstKey := by
        intro v hv
        rcases List.mem_cons.mp hv with rfl | hv
        · exact not_le.mp hw
        · exact lt_trans (not_le.mp hw) ((List.pairwise_cons.mp hcut.2).1 v hv).1
      refine ⟨[], y, w :: W, ⟨rfl, hy, hgt⟩, ?_⟩
      exact h.locate_stay hc hgt ha fuel

end Queue

namespace Chain

variable {lo hi key : Key} {leaves : List (LeafNode D)} {c : List (Link D)}

theorem firstKey_sorted (h : Chain lo hi leaves c) :
    c.Pairwise fun x y => x.firstKey < y.firstKey :=
  h.sorted.imp fun hb => hb.first

omit [Arith D] in
/-- 番地は重ならないので、連鎖は heap より長くならない。 -/
theorem length_le (hs : ∀ x ∈ c, leaves[x.1]? = some x.2) (hn : (c.map Prod.fst).Nodup) :
    c.length ≤ leaves.length := by
  have h : (c.map Prod.fst).length ≤ (List.range leaves.length).length := by
    refine (List.subperm_of_subset hn ?_).length_le
    intro i hi
    obtain ⟨x, hx, rfl⟩ := List.mem_map.mp hi
    exact List.mem_range.mpr (List.getElem?_eq_some_iff.mp (hs x hx)).1
  simpa using h

/-- 次の leaf の `first_key` が鍵より大きければ、その leaf に留まる。 -/
theorem locate_stay (h : Chain lo hi leaves c) {A B : List (Link D)} {z : Link D}
    (hc : c = A ++ z :: B) (hB : ∀ w ∈ B, key < w.firstKey) {a : Option (InnerSlot D)}
    (ha : z.2.AccOk z.1 a) (fuel : Nat) :
    LeafNode.locate leaves key (fuel + 1) z.1 a = some (.at z.1 a (z.2.predict key)) :=
  h.queue.locate_stay hc hB ha fuel

theorem locate_eq (h : Chain lo hi leaves c) (hr : ∀ x ∈ c, x.2.Regular lo hi) (hhi : key ≤ hi)
    {W X : List (Link D)} {y : Link D} {fuel : Nat} {a : Option (InnerSlot D)}
    (hc : c = X ++ y :: W) (hy : y.firstKey ≤ key) (hfuel : W.length < fuel)
    (ha : y.2.AccOk y.1 a) :
    ∃ A z B, IsPred Link.firstKey key (y :: W) A z B ∧
      LeafNode.locate leaves key fuel y.1 a =
        some (.at z.1 (if A = [] then a else none) (z.2.predict key)) :=
  h.queue.locate_eq (fun x hx hk => (hr x hx).tail key hk hhi) hc hy hfuel ha

/-- 予測器の性質を仮定しなくても、連鎖の途中から始めた `locate` は連鎖のどれかの leaf に着く。 -/
theorem locate_total (h : Chain lo hi leaves c) (key : Key) {W : List (Link D)} :
    ∀ {X : List (Link D)} {y : Link D} {fuel : Nat} {a : Option (InnerSlot D)},
      c = X ++ y :: W → W.length < fuel → y.2.AccOk y.1 a →
      ∃ z ∈ c, ∃ acc, LeafNode.locate leaves key fuel y.1 a =
        some (.at z.1 acc (z.2.predict key)) := by
  induction W with
  | nil =>
    intro X y fuel a hc hfuel ha
    obtain ⟨fuel, rfl⟩ : ∃ n, fuel = n + 1 := ⟨fuel - 1, by omega⟩
    exact ⟨y, by rw [hc]; simp, a, h.locate_stay hc (by simp) ha fuel⟩
  | cons w W ih =>
    intro X y fuel a hc hfuel ha
    obtain ⟨fuel, rfl⟩ : ∃ n, fuel = n + 1 := ⟨fuel - 1, by omega⟩
    have hyc : y ∈ c := by rw [hc]; simp
    have hwc : w ∈ c := by rw [hc]; simp
    have hlink := h.linked
    rw [hc] at hlink
    have hnext := hlink.middle.2
    rw [LeafNode.locate_succ (h.stored y hyc) (h.sound y hyc).small (h.sound y hyc).unlocked ha,
      hnext]
    simp only [firstId, h.stored w hwc, Option.bind_some]
    by_cases hblock : sub32 y.2.blockNumber 2 ≤ y.2.predict key
    · by_cases hw : w.2.firstKey ≤ key
      · rw [if_pos hblock, if_pos hw]
        rw [List.append_cons] at hc
        exact @ih _ _ fuel none hc (by rw [List.length_cons] at hfuel; omega)
          (fun s hs => by cases hs)
      · exact ⟨y, hyc, a, by rw [if_pos hblock, if_neg hw]⟩
    · exact ⟨y, hyc, a, by rw [if_neg hblock]⟩

/-! ## 一つの leaf の書き換え -/

/-- header が同じで、増える鍵が自分の範囲にある leaf への書き換えは、連鎖を保つ。 -/
theorem setLeaf (h : Chain lo hi leaves c) {A B : List (Link D)} {z : Link D} {l : LeafNode D}
    (hc : c = A ++ z :: B) (hhead : LeafNode.SameHeader z.2 l)
    (hkeys : ∀ k, l.Stores k → z.2.Stores k ∨
      (z.firstKey ≤ k ∧ k ≤ hi ∧ ∀ w ∈ B, k < w.firstKey)) :
    Chain lo hi (leaves.set z.1 l) (A ++ (z.1, l) :: B) := by
  obtain ⟨hst, hnd, hlink, hsort, hsound⟩ := h
  subst hc
  have hz := hsound z (by simp)
  have hlt : z.1 < leaves.length := (List.getElem?_eq_some_iff.mp (hst z (by simp))).1
  have hheader := hhead.header
  rw [List.map_append, List.map_cons, List.nodup_append, List.nodup_cons] at hnd
  have hne : ∀ x, x ∈ A ∨ x ∈ B → x.1 ≠ z.1 := by
    rintro x (hx | hx) he
    · exact hnd.2.2 x.1 (List.mem_map_of_mem hx) z.1 (by simp) he
    · exact hnd.2.1.1 (by rw [← he]; exact List.mem_map_of_mem hx)
  -- header が同じなので、番地と順序の条件は元の leaf のものがそのまま使える
  have hfirst : l.firstKey = z.2.firstKey := by rw [hheader]
  have hbuild : l.lastBuildKey = z.2.lastBuildKey := by rw [hheader]
  refine ⟨?_, ?_, ?_, ?_, ?_⟩
  · intro x hx
    rcases List.mem_append.mp hx with hx | hx
    · rw [List.getElem?_set_ne (Ne.symm (hne x (Or.inl hx)))]
      exact hst x (by simp [hx])
    · rcases List.mem_cons.mp hx with rfl | hx
      · exact List.getElem?_set_self hlt
      · rw [List.getElem?_set_ne (Ne.symm (hne x (Or.inr hx)))]
        exact hst x (by simp [hx])
  · rw [List.map_append, List.map_cons, List.nodup_append, List.nodup_cons]
    exact hnd
  · rw [doublyLinked_append] at hlink ⊢
    obtain ⟨hA, hp, hn, hB⟩ := hlink
    exact ⟨hA, by rw [← hp, hheader], by rw [← hn, hheader], hB⟩
  · rw [List.pairwise_append, List.pairwise_cons] at hsort ⊢
    obtain ⟨hA, ⟨hzB, hB⟩, hAz⟩ := hsort
    refine ⟨hA, ⟨?_, hB⟩, ?_⟩
    · intro w hw
      have hb := hzB w hw
      refine ⟨by rw [hfirst]; exact hb.first, by rw [hbuild]; exact hb.build, ?_⟩
      intro k hk
      rcases hkeys k hk with hk | hk
      · exact hb.keys k hk
      · exact hk.2.2 w hw
    · intro x hx y hy
      rcases List.mem_cons.mp hy with rfl | hy
      · have hb := hAz x hx z (by simp)
        exact ⟨by rw [hfirst]; exact hb.first, by rw [hfirst]; exact hb.build,
          fun k hk => by rw [hfirst]; exact hb.keys k hk⟩
      · exact hAz x hx y (by simp [hy])
  · intro x hx
    rcases List.mem_append.mp hx with hx | hx
    · exact hsound x (by simp [hx])
    · rcases List.mem_cons.mp hx with rfl | hx
      · refine ⟨by rw [hheader]; exact hz.small, ?_, by rw [hheader]; exact hz.unlocked,
          by rw [hheader]; exact hz.kept, by rw [hfirst]; exact hz.first, ?_⟩
        · intro k
          rw [hhead.predict, hhead.length]
          exact hz.room k
        · intro k hk
          rw [hfirst]
          rcases hkeys k hk with hk | hk
          · exact hz.keys k hk
          · exact ⟨hk.1, hk.2.1⟩
      · exact hsound x (by simp [hx])

end Chain

end Plin
