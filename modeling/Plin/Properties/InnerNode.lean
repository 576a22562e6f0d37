import Mathlib.Order.Interval.Set.Defs
import Plin.Infra.Predecessor
import Plin.Index.InnerNode

/-!
# inner node の性質

inner node の slot の列は空きを挟んで並ぶ。中身を空きでない slot の列 `entries` と見ると、

- 探索は鍵以下の最後の子を見つける（`search_eq`）。
- 構築の `data_placement` は子を末尾に足す（`dataPlacement_spec`）。
- `upsert_node` は子を置き換えるか、直後に足すか、何もしない（`upsertHere_spec`）。

要になる不変条件は `Packed` である。**どの子も、予測された block の先頭から自分の場所までが
すべて埋まっている。** 予測が単調なら、探索を始める場所と目当ての子の間に空きは無い。
-/

namespace Plin

open Infra

variable {D : Type} [Arith D]

/-- 親 slot が inner node の model の写しを持っている。 -/
structure InnerSlot.Models (a : InnerSlot D) (nd : InnerNode D) : Prop where
  slope : a.slope = nd.slope
  intercept : a.intercept = nd.intercept
  blockNumber : a.blockNumber = nd.blockNumber

namespace InnerNode

/-- 空きでない slot の列。 -/
def occupied (slots : List (InnerSlot D)) : List (InnerSlot D) :=
  slots.filter fun s => !s.isFree

/-- 子の列。 -/
def entries (nd : InnerNode D) : List (InnerSlot D) := occupied nd.slots

/-- 鍵を探し始める slot の番号。 -/
def startSlot (nd : InnerNode D) (key : Key) : Nat :=
  predictSlot key nd.slope nd.intercept nd.blockNumber

theorem startSlot_of_models {a : InnerSlot D} {nd : InnerNode D} (h : a.Models nd) (key : Key) :
    predictSlot key a.slope a.intercept a.blockNumber = nd.startSlot key := by
  rw [h.slope, h.intercept, h.blockNumber]
  rfl

/-- 予測器の性質。鍵の範囲の上で単調であり、予測は block の列からはみ出さない。 -/
structure Regular (lo hi : Key) (nd : InnerNode D) : Prop where
  mono : ∀ a b, lo ≤ a → a ≤ b → b ≤ hi →
    predictBlock a nd.slope nd.intercept nd.blockNumber ≤
      predictBlock b nd.slope nd.intercept nd.blockNumber
  inside : ∀ k, lo ≤ k → k ≤ hi →
    predictBlock k nd.slope nd.intercept nd.blockNumber < nd.blockNumber

/--
鍵の集まり `K` の上で単調な予測器で、slot の列の外を読まない限り予測は block の列からはみ出さない。

slot の列の外を読む探索は続けられないので、成功した操作についてはこれで足りる。`K` は、子の鍵と探す鍵だけでよい。
-/
structure Tame (K : Set Key) (nd : InnerNode D) : Prop where
  mono : ∀ a ∈ K, ∀ b ∈ K, a ≤ b →
    predictBlock a nd.slope nd.intercept nd.blockNumber ≤
      predictBlock b nd.slope nd.intercept nd.blockNumber
  inside : ∀ k ∈ K, nd.startSlot k < nd.slots.length →
    predictBlock k nd.slope nd.intercept nd.blockNumber < nd.blockNumber

theorem Regular.tame {lo hi : Key} {nd : InnerNode D} (h : nd.Regular lo hi) :
    nd.Tame (Set.Icc lo hi) :=
  ⟨fun a ha b hb hab => h.mono a b ha.1 hab hb.2, fun k hk _ => h.inside k hk.1 hk.2⟩

theorem Tame.anti {K L : Set Key} {nd : InnerNode D} (h : nd.Tame K) (hsub : L ⊆ K) : nd.Tame L :=
  ⟨fun a ha b hb hab => h.mono a (hsub ha) b (hsub hb) hab, fun k hk => h.inside k (hsub hk)⟩

/-- `block_number` が 4 以上なら、最後の block は予測されない。 -/
theorem predictBlock_lt_pred (key : Key) (slope intercept : D) {bn : Nat} (h4 : 4 ≤ bn)
    (h32 : bn < 2 ^ 32) : predictBlock key slope intercept bn < bn - 1 := by
  unfold predictBlock
  rw [sub32_eq h4 h32, sub32_eq (by omega) h32]
  dsimp only
  split
  · omega
  · split <;> omega

/-- `block_number` が 4 以上なら、予測がはみ出すことは無い。 -/
theorem predictBlock_lt (key : Key) (slope intercept : D) {bn : Nat} (h4 : 4 ≤ bn)
    (h32 : bn < 2 ^ 32) : predictBlock key slope intercept bn < bn :=
  lt_of_lt_of_le (predictBlock_lt_pred key slope intercept h4 h32) (Nat.sub_le ..)

/-- 予測は、変換した位置について単調である。 -/
theorem predictBlock_le {slope intercept : D} {bn : Nat} (h4 : 4 ≤ bn) (h32 : bn < 2 ^ 32)
    {a b : Key} (h : Arith.toInt64 (position a slope intercept / Arith.ofNat innerSlotsPerBlock) ≤
      Arith.toInt64 (position b slope intercept / Arith.ofNat innerSlotsPerBlock)) :
    predictBlock a slope intercept bn ≤ predictBlock b slope intercept bn := by
  unfold predictBlock
  rw [sub32_eq h4 h32, sub32_eq (by omega) h32]
  dsimp only
  split_ifs <;> omega

/-- slot の番号 `i` に子がある。 -/
def OccupiedAt (slots : List (InnerSlot D)) (i : Nat) : Prop :=
  ∃ s, slots[i]? = some s ∧ s.isFree = false

/--
slot の列の不変条件。子は鍵の順に並び、予測された block の先頭から自分の場所までは埋まっている。
-/
structure Packed (nd : InnerNode D) : Prop where
  length : nd.blockNumber * innerSlotsPerBlock ≤ nd.slots.length
  small : nd.blockNumber < 2 ^ 29
  sorted : nd.slots.Pairwise fun s t => s.isFree = false → t.isFree = false → s.minKey < t.minKey
  packed : ∀ i s, nd.slots[i]? = some s → s.isFree = false →
    i < nd.blockNumber * innerSlotsPerBlock ∧ nd.startSlot s.minKey ≤ i ∧
      ∀ j, nd.startSlot s.minKey ≤ j → j ≤ i → OccupiedAt nd.slots j

/-- 子の鍵の集まり。 -/
def children (nd : InnerNode D) : Set Key := {k | ∃ s ∈ nd.entries, s.minKey = k}

/-- 子の鍵が集まりに収まっている。 -/
def Within (K : Set Key) (nd : InnerNode D) : Prop := ∀ s ∈ nd.entries, s.minKey ∈ K

variable {nd : InnerNode D} {K : Set Key} {key : Key}

omit [Arith D] in
theorem isFree_eq_false {s : InnerSlot D} : s.isFree = false ↔ s.minKey ≠ freeFlag := by
  simp [InnerSlot.isFree]

omit [Arith D] in
theorem mem_occupied {slots : List (InnerSlot D)} {s : InnerSlot D} :
    s ∈ occupied slots ↔ s ∈ slots ∧ s.isFree = false := by
  simp [occupied]

omit [Arith D] in
@[simp] theorem occupied_append (a b : List (InnerSlot D)) :
    occupied (a ++ b) = occupied a ++ occupied b := List.filter_append ..

omit [Arith D] in
theorem occupied_cons_of_not_free {s : InnerSlot D} (h : s.isFree = false)
    (l : List (InnerSlot D)) : occupied (s :: l) = s :: occupied l := by
  simp [occupied, h]

omit [Arith D] in
theorem occupied_cons_of_free {s : InnerSlot D} (h : s.isFree = true) (l : List (InnerSlot D)) :
    occupied (s :: l) = occupied l := by
  simp [occupied, h]

omit [Arith D] in
/-- 番兵は鍵より大きいので、slot の列の切り方は子の列の切り方になる。 -/
theorem isPred_occupied {slots A B : List (InnerSlot D)} {e : InnerSlot D} (hk : key < freeFlag)
    (h : IsPred InnerSlot.minKey key slots A e B) :
    IsPred InnerSlot.minKey key (occupied slots) (occupied A) e (occupied B) where
  eq := by
    have he : e.isFree = false := isFree_eq_false.mpr (ne_of_lt (lt_of_le_of_lt h.le hk))
    rw [h.eq, occupied_append, occupied_cons_of_not_free he]
  le := h.le
  gt := fun y hy => h.gt y (mem_occupied.mp hy).1

theorem Packed.sorted_entries (h : nd.Packed) :
    nd.entries.Pairwise fun s t => s.minKey < t.minKey := by
  unfold entries occupied
  rw [List.pairwise_filter]
  exact h.sorted.imp fun hst hs ht => hst (by simpa using hs) (by simpa using ht)

theorem startSlot_mono (hr : nd.Tame K) {a b : Key} (ha : a ∈ K) (hb : b ∈ K) (hab : a ≤ b) :
    nd.startSlot a ≤ nd.startSlot b :=
  Nat.mul_le_mul_right _ (hr.mono a ha b hb hab)

theorem startSlot_inside (hr : nd.Tame K) (hkey : key ∈ K)
    (hin : nd.startSlot key < nd.slots.length) :
    nd.startSlot key + innerSlotsPerBlock ≤ nd.blockNumber * innerSlotsPerBlock := by
  have := Nat.mul_le_mul_right innerSlotsPerBlock (hr.inside key hkey hin)
  unfold startSlot predictSlot
  rw [Nat.succ_mul] at this
  exact this

/-! ## 探索 -/

omit [Arith D] in
/-- 左へ進む探索は、間がすべて空きなら最初の子で止まる。 -/
theorem searchLeft_eq {slots : List (InnerSlot D)} {q p : Nat} (hq : OccupiedAt slots q)
    (hqp : q < p) (hp : p ≤ slots.length) (hfree : ∀ j, q < j → j < p → ¬ OccupiedAt slots j) :
    searchLeft slots p = some q := by
  induction p with
  | zero => omega
  | succ p ih =>
    have hlt : p < slots.length := by omega
    have hs : slots[p]? = some slots[p] := List.getElem?_eq_getElem hlt
    rw [searchLeft, hs]
    simp only [Option.bind_eq_bind, Option.bind_some]
    by_cases hqp' : q = p
    · subst hqp'
      obtain ⟨s, hsq, hs'⟩ := hq
      rw [hs] at hsq
      obtain rfl := Option.some.inj hsq
      simp [hs']
    · have hnot : slots[p].isFree = true := by
        by_contra hc
        exact hfree p (by omega) (by omega) ⟨_, hs, by simpa using hc⟩
      rw [if_pos hnot]
      exact ih (by omega) (by omega) fun j h1 h2 => hfree j h1 (by omega)

/-- 切った後ろにある子は、探索を始める slot より前には無い。 -/
theorem not_occupiedAt_of_gt (hp : nd.Packed) (hr : nd.Tame K) (hw : nd.Within K)
    (hkey : key ∈ K) {A B : List (InnerSlot D)} {e : InnerSlot D}
    (h : IsPred InnerSlot.minKey key nd.slots A e B) {j : Nat} (hj : A.length < j)
    (hjs : j < nd.startSlot key) : ¬ OccupiedAt nd.slots j := by
  rintro ⟨s, hs, hfree⟩
  have hsB : s ∈ B := by
    rw [h.eq, List.getElem?_append_right (by omega)] at hs
    obtain ⟨i, hi⟩ : ∃ i, j - A.length = i + 1 := ⟨j - A.length - 1, by omega⟩
    rw [hi, List.getElem?_cons_succ] at hs
    exact List.mem_of_getElem? hs
  have hmem : s ∈ nd.entries := mem_occupied.mpr ⟨List.mem_of_getElem? hs, hfree⟩
  have hle := startSlot_mono hr hkey (hw s hmem) (le_of_lt (h.gt s hsB))
  have := (hp.packed j s hs hfree).2.1
  omega

/-- 切った場所の子は埋まっており、そこまでの slot も予測の先頭から埋まっている。 -/
theorem occupiedAt_of_le (hp : nd.Packed) (hr : nd.Tame K) (hw : nd.Within K)
    (hk : key < freeFlag) (hkey : key ∈ K) {A B : List (InnerSlot D)} {e : InnerSlot D}
    (h : IsPred InnerSlot.minKey key nd.slots A e B) :
    A.length < nd.blockNumber * innerSlotsPerBlock ∧
      ∀ j, nd.startSlot key ≤ j → j ≤ A.length → OccupiedAt nd.slots j := by
  have he : e.isFree = false := isFree_eq_false.mpr (ne_of_lt (lt_of_le_of_lt h.le hk))
  have hget : nd.slots[A.length]? = some e := by rw [h.eq]; simp
  have hmem : e ∈ nd.entries := mem_occupied.mpr ⟨h.mem, he⟩
  obtain ⟨hlt, _, hocc⟩ := hp.packed A.length e hget he
  refine ⟨hlt, fun j hj => hocc j ?_⟩
  exact le_trans (startSlot_mono hr (hw e hmem) hkey h.le) hj

omit [Arith D] in
theorem occupiedAt_self (hk : key < freeFlag) {A B : List (InnerSlot D)} {e : InnerSlot D}
    (h : IsPred InnerSlot.minKey key nd.slots A e B) : OccupiedAt nd.slots A.length :=
  ⟨e, by rw [h.eq]; simp, isFree_eq_false.mpr (ne_of_lt (lt_of_le_of_lt h.le hk))⟩

omit [Arith D] in
/-- 切った場所より前の子は、切った場所の子より小さい。 -/
theorem minKey_le_of_mem_drop {slots A B : List (InnerSlot D)} {e : InnerSlot D}
    (hs : slots.Pairwise fun s t => s.isFree = false → t.isFree = false → s.minKey < t.minKey)
    (hk : key < freeFlag) (h : IsPred InnerSlot.minKey key slots A e B) {p : Nat}
    (hocc : ∀ j, p ≤ j → j ≤ A.length → OccupiedAt slots j) :
    ∀ s ∈ A.drop p, s.isFree = false ∧ s.minKey ≤ key := by
  have he : e.isFree = false := isFree_eq_false.mpr (ne_of_lt (lt_of_le_of_lt h.le hk))
  intro s hsA
  obtain ⟨i, hi, his⟩ := List.mem_iff_getElem.mp hsA
  rw [List.length_drop] at hi
  rw [List.getElem_drop] at his
  obtain ⟨t, ht, htf⟩ := hocc (p + i) (by omega) (by omega)
  rw [h.eq, List.getElem?_append_left (by omega), List.getElem?_eq_getElem (by omega)] at ht
  obtain rfl : s = t := his.symm.trans (Option.some.inj ht)
  rw [h.eq] at hs
  have hlt := (List.pairwise_append.mp hs).2.2 s (List.mem_of_mem_drop hsA) e (by simp) htf he
  exact ⟨htf, le_trans (le_of_lt hlt) h.le⟩

omit [Arith D] in
/-- 切った場所まで条件が続き、次の slot で破れる列の `takeWhile` の長さ。 -/
theorem length_takeWhile_isPred {A B : List (InnerSlot D)} {e : InnerSlot D} {p : Nat}
    {f : InnerSlot D → Bool} (hA : ∀ s ∈ A.drop p, f s = true)
    (he : f e = true) (hB : ∀ s ∈ B, f s = false) :
    ((A.drop p ++ e :: B).takeWhile f).length = A.length - p + 1 := by
  have hB' : B.takeWhile f = [] := by
    cases B with
    | nil => rfl
    | cons b B => simp [hB b (by simp)]
  rw [List.takeWhile_append_of_pos hA, List.takeWhile_cons_of_pos he, hB']
  simp

/-- **探索は鍵以下の最後の子を見つける。** -/
theorem search_eq (hp : nd.Packed) (hr : nd.Tame K) (hw : nd.Within K)
    (hk : key < freeFlag) (hkey : key ∈ K)
    (hslt : nd.startSlot key < nd.slots.length) {A B : List (InnerSlot D)}
    {e : InnerSlot D} (h : IsPred InnerSlot.minKey key nd.slots A e B) {a : InnerSlot D}
    (ha : a.Models nd) : nd.search key a = some A.length := by
  obtain ⟨hAlt, hocc⟩ := occupiedAt_of_le hp hr hw hk hkey h
  unfold search
  rw [startSlot_of_models ha, ha.blockNumber]
  simp only [Option.bind_eq_bind]
  rw [List.getElem?_eq_getElem hslt, Option.bind_some]
  by_cases hA : A.length < nd.startSlot key
  · -- 目当ての子は左にある。始めの slot は空きか、鍵より大きい子である
    have hsB : nd.slots[nd.startSlot key] ∈ B := by
      have hget := List.getElem?_eq_getElem hslt
      nth_rewrite 1 [h.eq] at hget
      rw [List.getElem?_append_right (by omega)] at hget
      obtain ⟨i, hi⟩ : ∃ i, nd.startSlot key - A.length = i + 1 :=
        ⟨nd.startSlot key - A.length - 1, by omega⟩
      rw [hi, List.getElem?_cons_succ] at hget
      exact List.mem_of_getElem? hget
    rw [if_pos (by simp [h.gt _ hsB])]
    exact searchLeft_eq (occupiedAt_self hk h) hA (by omega)
      fun j h1 h2 => not_occupiedAt_of_gt hp hr hw hkey h h1 h2
  · have hA' : nd.startSlot key ≤ A.length := by omega
    -- 始めの slot から目当ての子までは、鍵以下の子で埋まっている
    have hdrop := minKey_le_of_mem_drop hp.sorted hk h hocc
    have hs : nd.slots[nd.startSlot key].isFree = false ∧
        nd.slots[nd.startSlot key].minKey ≤ key := by
      obtain ⟨s, hs, hsf⟩ := hocc _ (le_refl _) hA'
      rw [List.getElem?_eq_getElem hslt] at hs
      obtain rfl := Option.some.inj hs
      refine ⟨hsf, ?_⟩
      rcases Nat.lt_or_ge (nd.startSlot key) A.length with hlt | hge
      · refine (hdrop _ ?_).2
        refine List.mem_iff_getElem.mpr ⟨0, by rw [List.length_drop]; omega, ?_⟩
        simp [h.eq, hlt]
      · have : nd.slots[nd.startSlot key]? = some e := by
          rw [h.eq, show nd.startSlot key = A.length by omega]
          simp
        rw [List.getElem?_eq_getElem hslt] at this
        rw [Option.some.inj this]
        exact h.le
    rw [if_neg (by simp [hs.1, hs.2])]
    have hsmall := hp.small
    have hmod : nd.blockNumber * innerSlotsPerBlock % 2 ^ 32 =
        nd.blockNumber * innerSlotsPerBlock := by
      unfold innerSlotsPerBlock
      omega
    have he : e.isFree = false := isFree_eq_false.mpr (ne_of_lt (lt_of_le_of_lt h.le hk))
    -- 右への loop が見る slot の列を、目当ての子で切る
    have hcut : (nd.slots.take (nd.blockNumber * innerSlotsPerBlock)).drop (nd.startSlot key) =
        A.drop (nd.startSlot key) ++
          e :: B.take (nd.blockNumber * innerSlotsPerBlock - A.length - 1) := by
      obtain ⟨m, hm⟩ : ∃ m, nd.blockNumber * innerSlotsPerBlock = A.length + (m + 1) :=
        ⟨nd.blockNumber * innerSlotsPerBlock - A.length - 1, by omega⟩
      rw [hm, h.eq, List.take_length_add_append, List.take_succ_cons,
        List.drop_append_of_le_length hA']
      congr 3
      omega
    unfold searchRight
    rw [hmod, hcut, length_takeWhile_isPred (by simpa using hdrop) (by simp [he, h.le]) ?_]
    · congr 1
      omega
    · intro s hsB
      simp [h.gt s (List.mem_of_mem_take hsB)]

/-! ## 割り込み -/

omit [Arith D] in
/-- 空き `f` までを一つずらして `node` を割り込ませた列の読み出し。 -/
theorem getElem?_shift {A M B : List (InnerSlot D)} (f node : InnerSlot D) (i : Nat) :
    (A ++ node :: (M ++ B))[i]? =
      if i = A.length then some node
      else if A.length < i ∧ i ≤ A.length + M.length then (A ++ (M ++ f :: B))[i - 1]?
      else (A ++ (M ++ f :: B))[i]? := by
  rcases Nat.lt_trichotomy i A.length with h | h | h
  · rw [if_neg (by omega), if_neg (by omega), List.getElem?_append_left h,
      List.getElem?_append_left h]
  · rw [if_pos h, h]
    simp
  · obtain ⟨d, rfl⟩ : ∃ d, i = A.length + (d + 1) := ⟨i - A.length - 1, by omega⟩
    rw [if_neg (by omega), List.getElem?_append_right (by omega)]
    by_cases hd : d < M.length
    · rw [if_pos (by omega), List.getElem?_append_right (by omega),
        show A.length + (d + 1) - A.length = d + 1 by omega, List.getElem?_cons_succ,
        show A.length + (d + 1) - 1 - A.length = d by omega, List.getElem?_append_left hd,
        List.getElem?_append_left hd]
    · rw [if_neg (by omega), List.getElem?_append_right (by omega),
        show A.length + (d + 1) - A.length = d + 1 by omega, List.getElem?_cons_succ,
        List.getElem?_append_right (by omega), List.getElem?_append_right (by omega),
        show d + 1 - M.length = d - M.length + 1 by omega, List.getElem?_cons_succ]

omit [Arith D] in
/-- 割り込みの後も、埋まっていた場所は埋まっている。 -/
theorem OccupiedAt.shift {A M B : List (InnerSlot D)} {f node : InnerSlot D}
    (hnode : node.isFree = false) (hM : ∀ s ∈ M, s.isFree = false) {j : Nat}
    (h : OccupiedAt (A ++ (M ++ f :: B)) j) : OccupiedAt (A ++ node :: (M ++ B)) j := by
  unfold OccupiedAt
  rw [getElem?_shift f node j]
  by_cases hj : j = A.length
  · exact ⟨node, by simp [hj], hnode⟩
  · rw [if_neg hj]
    by_cases hm : A.length < j ∧ j ≤ A.length + M.length
    · have hlt : j - 1 - A.length < M.length := by omega
      refine ⟨M[j - 1 - A.length], ?_, hM _ (List.getElem_mem hlt)⟩
      rw [if_pos hm, List.getElem?_append_right (by omega), List.getElem?_append_left hlt,
        List.getElem?_eq_getElem hlt]
    · rw [if_neg hm]
      exact h

/-- 鍵の順に合う場所への割り込みは `Packed` を保つ。 -/
theorem Packed.shift (h : nd.Packed) {A M B : List (InnerSlot D)} {f node : InnerSlot D}
    (hslots : nd.slots = A ++ (M ++ f :: B)) (hnode : node.isFree = false)
    (hM : ∀ s ∈ M, s.isFree = false)
    (hlt : ∀ s ∈ A, s.isFree = false → s.minKey < node.minKey)
    (hgt : ∀ s ∈ M ++ B, s.isFree = false → node.minKey < s.minKey)
    (hbound : A.length + M.length < nd.blockNumber * innerSlotsPerBlock)
    (hstart : nd.startSlot node.minKey ≤ A.length)
    (hocc : ∀ j, nd.startSlot node.minKey ≤ j → j < A.length → OccupiedAt nd.slots j) :
    Packed { nd with slots := A ++ node :: (M ++ B) } where
  length := by
    have := h.length
    rw [hslots] at this
    simp only [List.length_append, List.length_cons] at this ⊢
    omega
  small := h.small
  sorted := by
    have hs := h.sorted
    rw [hslots, List.pairwise_append, List.pairwise_append, List.pairwise_cons] at hs
    obtain ⟨hA, ⟨hMp, ⟨_, hB⟩, hMB⟩, hAM⟩ := hs
    show (A ++ node :: (M ++ B)).Pairwise _
    rw [List.pairwise_append, List.pairwise_cons, List.pairwise_append]
    refine ⟨hA, ⟨?_, hMp, hB, fun s hs t ht => hMB s hs t (by simp [ht])⟩, ?_⟩
    · intro s hs _ hsf
      exact hgt s hs hsf
    · intro s hs t ht hsf htf
      rcases List.mem_cons.mp ht with rfl | ht
      · exact hlt s hs hsf
      · refine hAM s hs t ?_ hsf htf
        rcases List.mem_append.mp ht with ht | ht <;> simp [ht]
  packed := by
    -- 埋まっていた位置は、ずらした後も埋まっている
    have hmono : ∀ j, OccupiedAt nd.slots j → OccupiedAt (A ++ node :: (M ++ B)) j := by
      intro j hj
      rw [hslots] at hj
      exact hj.shift hnode hM
    intro i s hi hs
    change (A ++ node :: (M ++ B))[i]? = some s at hi
    rw [getElem?_shift f node i, ← hslots] at hi
    show i < nd.blockNumber * innerSlotsPerBlock ∧ nd.startSlot s.minKey ≤ i ∧
      ∀ j, nd.startSlot s.minKey ≤ j → j ≤ i → OccupiedAt (A ++ node :: (M ++ B)) j
    by_cases hA : i = A.length
    · rw [if_pos hA] at hi
      obtain rfl := Option.some.inj hi
      refine ⟨by omega, by omega, fun j h1 h2 => ?_⟩
      rcases Nat.lt_or_ge j A.length with hj | hj
      · exact hmono j (hocc j h1 hj)
      · exact ⟨node, by rw [show j = A.length by omega]; simp, hnode⟩
    · rw [if_neg hA] at hi
      -- 割り込んだ所から空きまでの子だけが、一つ右に動いた
      by_cases hm : A.length < i ∧ i ≤ A.length + M.length
      · rw [if_pos hm] at hi
        obtain ⟨h1, h2, h3⟩ := h.packed (i - 1) s hi hs
        refine ⟨by omega, by omega, fun j hj1 hj2 => ?_⟩
        rcases Nat.lt_or_ge j i with hj | hj
        · exact hmono j (h3 j hj1 (by omega))
        · have hji : j = i := by omega
          refine ⟨s, ?_, hs⟩
          rw [hji, getElem?_shift f node i, if_neg hA, if_pos hm, ← hslots]
          exact hi
      · rw [if_neg hm] at hi
        obtain ⟨h1, h2, h3⟩ := h.packed i s hi hs
        exact ⟨h1, h2, fun j hj1 hj2 => hmono j (h3 j hj1 hj2)⟩

/-- 鍵の同じ子への置き換えは `Packed` を保つ。 -/
theorem Packed.replace (h : nd.Packed) {A B : List (InnerSlot D)} {e node : InnerSlot D}
    (hslots : nd.slots = A ++ e :: B) (hkey : node.minKey = e.minKey) :
    Packed { nd with slots := A ++ node :: B } where
  length := by
    have := h.length
    rw [hslots] at this
    simpa using this
  small := h.small
  sorted := by
    have hfree : node.isFree = e.isFree := by simp [InnerSlot.isFree, hkey]
    have hs := h.sorted
    rw [hslots, List.pairwise_append, List.pairwise_cons] at hs
    obtain ⟨hA, ⟨heB, hB⟩, hAe⟩ := hs
    show (A ++ node :: B).Pairwise _
    rw [List.pairwise_append, List.pairwise_cons]
    refine ⟨hA, ⟨?_, hB⟩, ?_⟩
    · intro s hs hn
      rw [hkey]
      exact heB s hs (hfree ▸ hn)
    · intro s hs t ht hsf htf
      rcases List.mem_cons.mp ht with rfl | ht
      · rw [hkey]
        exact hAe s hs e (by simp) hsf (hfree ▸ htf)
      · exact hAe s hs t (by simp [ht]) hsf htf
  packed := by
    have hfree : node.isFree = e.isFree := by simp [InnerSlot.isFree, hkey]
    have hget : ∀ j, (A ++ node :: B)[j]? = if j = A.length then some node else nd.slots[j]? := by
      intro j
      rw [hslots]
      rcases Nat.lt_trichotomy j A.length with hj | hj | hj
      · rw [if_neg (by omega), List.getElem?_append_left hj, List.getElem?_append_left hj]
      · simp [hj]
      · obtain ⟨d, rfl⟩ : ∃ d, j = A.length + (d + 1) := ⟨j - A.length - 1, by omega⟩
        rw [if_neg (by omega), List.getElem?_append_right (by omega),
          List.getElem?_append_right (by omega),
          show A.length + (d + 1) - A.length = d + 1 by omega, List.getElem?_cons_succ,
          List.getElem?_cons_succ]
    have hmono : ∀ j, OccupiedAt nd.slots j → OccupiedAt (A ++ node :: B) j := by
      rintro j ⟨s, hj, hs⟩
      by_cases hA : j = A.length
      · refine ⟨node, by rw [hget j, if_pos hA], ?_⟩
        rw [hslots, hA] at hj
        have : e = s := by simpa using hj
        rw [hfree, this]
        exact hs
      · exact ⟨s, by rw [hget j, if_neg hA]; exact hj, hs⟩
    intro i s hi hs
    change (A ++ node :: B)[i]? = some s at hi
    show i < nd.blockNumber * innerSlotsPerBlock ∧ nd.startSlot s.minKey ≤ i ∧
      ∀ j, nd.startSlot s.minKey ≤ j → j ≤ i → OccupiedAt (A ++ node :: B) j
    -- どの位置の子も、置き換える前の子と鍵が同じである
    have hold : ∃ t, nd.slots[i]? = some t ∧ t.isFree = false ∧ t.minKey = s.minKey := by
      rw [hget i] at hi
      by_cases hA : i = A.length
      · rw [if_pos hA] at hi
        obtain rfl := Option.some.inj hi
        exact ⟨e, by rw [hslots, hA]; simp, hfree ▸ hs, hkey.symm⟩
      · rw [if_neg hA] at hi
        exact ⟨s, hi, hs, rfl⟩
    obtain ⟨t, ht, htf, htk⟩ := hold
    obtain ⟨h1, h2, h3⟩ := h.packed i t ht htf
    rw [htk] at h2 h3
    exact ⟨h1, h2, fun j hj1 hj2 => hmono j (h3 j hj1 hj2)⟩
/-! ## 構築 -/

/-- 予測器の性質は slot の中身に依らない。 -/
theorem Tame.withSlots (h : nd.Tame K) {slots : List (InnerSlot D)}
    (hlen : slots.length = nd.slots.length) : Tame K { nd with slots := slots } :=
  ⟨h.mono, fun k hk hin => h.inside k hk (hlen ▸ hin)⟩

/-- `data_placement` は、予測した slot から右に最初に見つかった空きに子を置く。 -/
theorem dataPlacement_eq_map (nd : InnerNode D) (key : Key) (node : InnerSlot D) :
    nd.dataPlacement key node = (((nd.slots.take (max (nd.startSlot key + innerSlotsPerBlock)
      (nd.blockNumber * innerSlotsPerBlock))).drop (nd.startSlot key)).findIdx?
        InnerSlot.isFree).map
      fun i => { nd with slots := nd.slots.set (nd.startSlot key + i) node } := by
  unfold dataPlacement startSlot
  dsimp only
  split
  · next hnone =>
    rw [hnone]
    rfl
  · next i hi =>
    rw [hi]
    rfl

/-- 構築の間に変わるのは slot の列だけである。 -/
theorem dataPlacement_header {nd' : InnerNode D} {node : InnerSlot D}
    (h : nd.dataPlacement key node = some nd') :
    nd' = { nd with slots := nd'.slots } ∧ nd'.slots.length = nd.slots.length := by
  rw [dataPlacement_eq_map] at h
  obtain ⟨i, -, rfl⟩ := Option.map_eq_some_iff.mp h
  exact ⟨rfl, List.length_set⟩

theorem placeAll_header {data : List (Key × InnerSlot D)} :
    ∀ {nd nd' : InnerNode D}, nd.placeAll data = some nd' →
      nd' = { nd with slots := nd'.slots } ∧ nd'.slots.length = nd.slots.length := by
  induction data with
  | nil =>
    intro nd nd' h
    obtain rfl := Option.some.inj h
    exact ⟨rfl, rfl⟩
  | cons e data ih =>
    intro nd nd' h
    obtain ⟨nd₁, h₁, h₂⟩ := Option.bind_eq_some_iff.mp h
    refine ⟨?_, (ih h₂).2.trans (dataPlacement_header h₁).2⟩
    rw [(ih h₂).1, (dataPlacement_header h₁).1]

/-- `data_placement` は空きに置くので、前からある子は残る。 -/
theorem mem_entries_dataPlacement {nd' : InnerNode D} {node s : InnerSlot D}
    (h : nd.dataPlacement key node = some nd') (hnode : node.isFree = false)
    (hs : s = node ∨ s ∈ nd.entries) : s ∈ nd'.entries := by
  rw [dataPlacement_eq_map] at h
  obtain ⟨i, hi, rfl⟩ := Option.map_eq_some_iff.mp h
  obtain ⟨hlt, hfree, -⟩ := List.findIdx?_eq_some_iff_getElem.mp hi
  rw [List.length_drop, List.length_take] at hlt
  simp only [List.getElem_drop, List.getElem_take] at hfree
  rcases hs with rfl | hs
  · exact mem_occupied.mpr ⟨List.mem_set (by omega) _, hnode⟩
  · obtain ⟨hmem, hsf⟩ := mem_occupied.mp hs
    obtain ⟨j, hj⟩ := List.mem_iff_getElem?.mp hmem
    have hne : nd.startSlot key + i ≠ j := by
      rintro rfl
      rw [List.getElem?_eq_getElem (by omega)] at hj
      obtain rfl := Option.some.inj hj
      exact Bool.noConfusion (hfree.symm.trans hsf)
    refine mem_occupied.mpr ⟨List.mem_of_getElem? (i := j) ?_, hsf⟩
    rw [List.getElem?_set_ne hne]
    exact hj

/-- 置いた子は、どれも残る。 -/
theorem mem_entries_placeAll {data : List (Key × InnerSlot D)} :
    ∀ {nd nd' : InnerNode D}, nd.placeAll data = some nd' →
      (∀ e ∈ data, e.2.isFree = false) →
      ∀ s, (∃ e ∈ data, s = e.2) ∨ s ∈ nd.entries → s ∈ nd'.entries := by
  induction data with
  | nil =>
    intro nd nd' h _ s hs
    obtain rfl := Option.some.inj h
    simpa using hs
  | cons e data ih =>
    intro nd nd' h hfree s hs
    obtain ⟨nd₁, h₁, h₂⟩ := Option.bind_eq_some_iff.mp h
    rw [List.forall_mem_cons] at hfree
    refine ih h₂ hfree.2 s ?_
    rcases hs with ⟨e', he', rfl⟩ | hs
    · rcases List.mem_cons.mp he' with rfl | he'
      · exact .inr (mem_entries_dataPlacement h₁ hfree.1 (.inl rfl))
      · exact .inl ⟨e', he', rfl⟩
    · exact .inr (mem_entries_dataPlacement h₁ hfree.1 (.inr hs))

/-- 構築で slot に現れるのは、空きか渡した子である。 -/
theorem mem_slots_placeAll {data : List (Key × InnerSlot D)} :
    ∀ {nd nd' : InnerNode D}, nd.placeAll data = some nd' →
      ∀ s ∈ nd'.slots, s ∈ nd.slots ∨ ∃ e ∈ data, s = e.2 := by
  induction data with
  | nil =>
    intro nd nd' h s hs
    obtain rfl := Option.some.inj h
    exact .inl hs
  | cons e data ih =>
    intro nd nd' h s hs
    obtain ⟨nd₁, h₁, h₂⟩ := Option.bind_eq_some_iff.mp h
    rw [dataPlacement_eq_map] at h₁
    obtain ⟨i, -, rfl⟩ := Option.map_eq_some_iff.mp h₁
    rcases ih h₂ s hs with hs | ⟨e', he', rfl⟩
    · rcases List.mem_or_eq_of_mem_set hs with hs | rfl
      · exact .inl hs
      · exact .inr ⟨e, List.mem_cons_self, rfl⟩
    · exact .inr ⟨e', List.mem_cons_of_mem _ he', rfl⟩

/-- 構築された node の子は、渡された子である。 -/
theorem mem_entries_new {bn startPos : Nat} {data : List (Key × InnerSlot D)}
    {slope intercept : D} (h : new bn data startPos slope intercept = some nd) {e : InnerSlot D}
    (he : e ∈ nd.entries) : ∃ x ∈ data, e = x.2 := by
  obtain ⟨nd', hplace, hcheck⟩ := Option.bind_eq_some_iff.mp h
  split at hcheck
  · obtain rfl := Option.some.inj hcheck
    obtain ⟨hmem, hfree⟩ := mem_occupied.mp he
    refine (mem_slots_placeAll hplace e hmem).resolve_left fun hinit => ?_
    rw [List.eq_of_mem_replicate hinit] at hfree
    simp [InnerSlot.isFree, InnerSlot.free] at hfree
  · cases hcheck

/-- どの子よりも大きい鍵の `data_placement` は、子を末尾に足す。 -/
theorem dataPlacement_spec {nd' : InnerNode D} {node : InnerSlot D} (hp : nd.Packed)
    (hr : nd.Tame K) (hk : key < freeFlag) (hkey : key ∈ K) (hnode : node.minKey = key)
    (hlt : ∀ s ∈ nd.entries, s.minKey ∈ K ∧ s.minKey < key)
    (h : nd.dataPlacement key node = some nd') :
    nd'.Packed ∧ nd'.entries = nd.entries ++ [node] := by
  have hlen := hp.length
  have hpos : 0 < innerSlotsPerBlock := by decide
  rw [dataPlacement_eq_map] at h
  obtain ⟨i, hi', rfl⟩ := Option.map_eq_some_iff.mp h
  obtain ⟨hlt', hfree, hocc⟩ := List.findIdx?_eq_some_iff_getElem.mp hi'
  rw [List.length_drop, List.length_take] at hlt'
  have hin := startSlot_inside hr hkey (by omega)
  rw [Nat.max_eq_right hin] at hlt'
  simp only [List.getElem_drop, List.getElem_take] at hfree hocc
  set t := nd.startSlot key + i with ht
  have htlt : t < nd.slots.length := by omega
  have hslots : nd.slots = nd.slots.take t ++ ([] ++ nd.slots[t] :: nd.slots.drop (t + 1)) := by
    rw [List.nil_append, ← List.drop_eq_getElem_cons htlt, List.take_append_drop]
  have hset : nd.slots.set t node = nd.slots.take t ++ node :: ([] ++ nd.slots.drop (t + 1)) :=
    List.set_eq_take_append_cons_drop.trans (by rw [if_pos htlt]; rfl)
  have hnf : node.isFree = false := isFree_eq_false.mpr (by rw [hnode]; exact ne_of_lt hk)
  have hbelow : ∀ j, nd.startSlot key ≤ j → j < t → OccupiedAt nd.slots j := by
    intro j h1 h2
    have := hocc (j - nd.startSlot key) (by omega)
    refine ⟨nd.slots[j], List.getElem?_eq_getElem (by omega), ?_⟩
    simpa [show nd.startSlot key + (j - nd.startSlot key) = j by omega] using this
  -- 埋まった slot が後ろにあれば、その子の予測の先頭から埋まっているはずで `t` と食い違う
  have habove : ∀ s ∈ nd.slots.drop (t + 1), s.isFree = true := by
    intro s hs
    by_contra hc
    obtain ⟨d, hd, hsd⟩ := List.mem_iff_getElem.mp hs
    rw [List.length_drop] at hd
    rw [List.getElem_drop] at hsd
    have hget : nd.slots[t + 1 + d]? = some s := by
      rw [← hsd]
      exact List.getElem?_eq_getElem (by omega)
    have hsf : s.isFree = false := by simpa using hc
    have hmem := hlt s (mem_occupied.mpr ⟨List.mem_of_getElem? hget, hsf⟩)
    have hle := startSlot_mono hr hmem.1 hkey (le_of_lt hmem.2)
    obtain ⟨u, hu, huf⟩ := (hp.packed _ s hget hsf).2.2 t (by omega) (by omega)
    rw [List.getElem?_eq_getElem htlt] at hu
    obtain rfl := Option.some.inj hu
    exact absurd (hfree.symm.trans huf) (by simp)
  have hnone : occupied (nd.slots.drop (t + 1)) = [] := by
    simpa [occupied] using habove
  refine ⟨?_, ?_⟩
  · have hshift : Packed { nd with
        slots := nd.slots.take t ++ node :: ([] ++ nd.slots.drop (t + 1)) } := by
      refine hp.shift hslots hnf (by simp) ?_ ?_ ?_ ?_ ?_
      · intro s hs hsf
        rw [hnode]
        exact (hlt s (mem_occupied.mpr ⟨List.mem_of_mem_take hs, hsf⟩)).2
      · intro s hs hsf
        rw [habove s (by simpa using hs)] at hsf
        cases hsf
      · rw [List.length_take, List.length_nil]
        omega
      · rw [hnode, List.length_take]
        omega
      · intro j h1 h2
        rw [hnode] at h1
        rw [List.length_take] at h2
        exact hbelow j h1 (by omega)
    rw [← hset] at hshift
    exact hshift
  · show occupied (nd.slots.set t node) = occupied nd.slots ++ [node]
    nth_rewrite 2 [hslots]
    rw [hset, List.nil_append, List.nil_append, occupied_append, occupied_append,
      occupied_cons_of_not_free hnf, occupied_cons_of_free hfree, hnone]
    simp

/-- 鍵の順に並んだ子をすべて置く。 -/
theorem placeAll_spec {data : List (Key × InnerSlot D)} :
    ∀ {nd nd' : InnerNode D}, nd.Packed → nd.Tame K →
      (nd.entries.map InnerSlot.minKey ++ data.map Prod.fst).Pairwise (· < ·) →
      (∀ s ∈ nd.entries, s.minKey ∈ K) →
      (∀ e ∈ data, e.1 ∈ K ∧ e.1 < freeFlag ∧ e.2.minKey = e.1) →
      nd.placeAll data = some nd' →
      nd'.Packed ∧ nd'.entries = nd.entries ++ data.map Prod.snd := by
  induction data with
  | nil =>
    intro nd nd' hp _ _ _ _ h
    obtain rfl := Option.some.inj h
    exact ⟨hp, by simp⟩
  | cons e data ih =>
    intro nd nd' hp hr hsort hin hdata h
    obtain ⟨h1, h2, h3⟩ := hdata e (by simp)
    obtain ⟨_, hrest, hcross⟩ := List.pairwise_append.mp hsort
    rw [placeAll] at h
    obtain ⟨nd₁, hnd₁, hrec⟩ := Option.bind_eq_some_iff.mp h
    obtain ⟨hp₁, he₁⟩ := dataPlacement_spec hp hr h2 h1 h3
      (fun s hs => ⟨hin s hs, hcross _ (List.mem_map_of_mem hs) _ (by simp)⟩) hnd₁
    have hr₁ : nd₁.Tame K := by
      rw [(dataPlacement_header hnd₁).1]
      exact hr.withSlots (dataPlacement_header hnd₁).2
    obtain ⟨hp₂, he₂⟩ := ih hp₁ hr₁ (by simpa [he₁, h3] using hsort) (by
      intro s hs
      rw [he₁] at hs
      rcases List.mem_append.mp hs with hs | hs
      · exact hin s hs
      · rw [List.mem_singleton.mp hs, h3]
        exact h1) (fun e' he' => hdata e' (by simp [he'])) hrec
    exact ⟨hp₂, by rw [he₂, he₁]; simp⟩

/-- 子の列が鍵の順に並び、鍵は番兵より小さい。 -/
structure SortedData (K : Set Key) (data : List (Key × InnerSlot D)) : Prop where
  sorted : (data.map Prod.fst).Pairwise (· < ·)
  within : ∀ e ∈ data, e.1 ∈ K ∧ e.1 < freeFlag ∧ e.2.minKey = e.1

/-- **構築された inner node は、渡された子をそのまま並べて持つ。** -/
theorem new_spec {bn startPos : Nat} {data : List (Key × InnerSlot D)} {slope intercept : D}
    (h : new bn data startPos slope intercept = some nd) (hr : nd.Tame K)
    (hd : SortedData K data) :
    nd.Packed ∧ nd.entries = data.map Prod.snd ∧
      nd.firstKey = (data.map Prod.fst).headD freeFlag := by
  obtain ⟨nd', hplace, hcheck⟩ := Option.bind_eq_some_iff.mp h
  split at hcheck
  · next hsmall =>
    obtain rfl := Option.some.inj hcheck
    set nd₀ := initial bn (data.map Prod.fst) startPos slope intercept with hnd₀
    obtain ⟨hhead, hlength⟩ := placeAll_header hplace
    have hr₀ : nd₀.Tame K := by
      rw [hhead] at hr
      exact ⟨hr.mono, fun k hk hin => hr.inside k hk (lt_of_lt_of_eq hin hlength.symm)⟩
    have hfree : ∀ s ∈ nd₀.slots, s.isFree = true := by
      intro s hs
      rw [List.eq_of_mem_replicate hs]
      simp [InnerSlot.isFree, InnerSlot.free]
    have hempty : nd₀.entries = [] := by
      simpa [entries, occupied] using hfree
    have hp₀ : nd₀.Packed := by
      refine ⟨?_, ?_, ?_, ?_⟩
      · simp only [hnd₀, initial, List.length_replicate, innerSlotsPerBlock]
        omega
      · rw [hhead] at hsmall
        exact hsmall
      · refine List.pairwise_of_forall_mem_list fun s hs t _ hc => ?_
        rw [hfree s hs] at hc
        cases hc
      · intro i s hi hs
        rw [hfree s (List.mem_of_getElem? hi)] at hs
        cases hs
    obtain ⟨hp, he⟩ := placeAll_spec hp₀ hr₀ (by simpa [hempty] using hd.sorted)
      (by simp [hempty]) hd.within hplace
    refine ⟨hp, by rw [he, hempty]; simp, ?_⟩
    rw [hhead]
    rfl
  · cases hcheck

/-- 渡された子の鍵は、構築された node の子の鍵である。 -/
theorem mem_children_new {bn startPos : Nat} {data : List (Key × InnerSlot D)}
    {slope intercept : D} (h : new bn data startPos slope intercept = some nd)
    (hdata : ∀ e ∈ data, e.1 < freeFlag ∧ e.2.minKey = e.1) : ∀ e ∈ data, e.1 ∈ nd.children := by
  obtain ⟨nd', hplace, hcheck⟩ := Option.bind_eq_some_iff.mp h
  split at hcheck
  · obtain rfl := Option.some.inj hcheck
    intro e he
    refine ⟨e.2, mem_entries_placeAll hplace (fun u hu => ?_) _ (.inl ⟨e, he, rfl⟩),
      (hdata e he).2⟩
    exact isFree_eq_false.mpr ((hdata u hu).2 ▸ (hdata u hu).1.ne)
  · cases hcheck

/-! ## `upsert_node` -/

/-- block の中では、埋まっている slot は block の先頭から続く。 -/
theorem Packed.occupiedAt_of_block (hp : nd.Packed) {k : Key} {i j : Nat}
    (hi : OccupiedAt nd.slots i)
    (h1 : nd.startSlot k ≤ i) (h2 : i < nd.startSlot k + innerSlotsPerBlock)
    (h3 : nd.startSlot k ≤ j) (h4 : j ≤ i) : OccupiedAt nd.slots j := by
  obtain ⟨s, hs, hsf⟩ := hi
  obtain ⟨_, hstart, hocc⟩ := hp.packed i s hs hsf
  refine hocc j ?_ h4
  unfold startSlot predictSlot at *
  unfold innerSlotsPerBlock at *
  omega

omit [Arith D] in
/-- 左へ進む探索は、手前に子があれば必ず止まる。 -/
theorem exists_searchLeft {slots : List (InnerSlot D)} {q p : Nat} (hq : OccupiedAt slots q)
    (hqp : q < p) (hp : p ≤ slots.length) :
    ∃ last, searchLeft slots p = some last ∧ OccupiedAt slots last ∧ q ≤ last ∧ last < p ∧
      ∀ j, last < j → j < p → ¬ OccupiedAt slots j := by
  induction p with
  | zero => omega
  | succ p ih =>
    by_cases hocc : OccupiedAt slots p
    · exact ⟨p, searchLeft_eq hocc (by omega) hp (by omega), hocc, by omega, by omega, by omega⟩
    · have hne : q ≠ p := by
        rintro rfl
        exact hocc hq
      obtain ⟨last, hl, hlo, h1, h2, h3⟩ := ih (by omega) (by omega)
      have hfree : ∀ j, last < j → j < p + 1 → ¬ OccupiedAt slots j := by
        intro j hj1 hj2
        rcases Nat.lt_or_ge j p with hj | hj
        · exact h3 j hj1 hj
        · rw [show j = p by omega]
          exact hocc
      exact ⟨last, searchLeft_eq hlo (by omega) hp hfree, hlo, h1, by omega, hfree⟩

omit [Arith D] in
theorem insertIdx_length_append (A B : List (InnerSlot D)) (node : InnerSlot D) :
    (A ++ B).insertIdx A.length node = A ++ node :: B := by
  induction A with
  | nil => rfl
  | cons a A ih => simp [ih]

/-- 割り込ませる場所。予測した block の先頭か、直前の子の次の大きい方である。 -/
theorem insertInBlock_target (hp : nd.Packed) (hr : nd.Tame K) (hw : nd.Within K)
    (hk : key < freeFlag) (hkey : key ∈ K) {A B : List (InnerSlot D)} {e : InnerSlot D}
    (h : IsPred InnerSlot.minKey key nd.slots A e B) :
    (if nd.startSlot key ≤ A.length then
      nd.startSlot key + 1 + ((nd.slots.drop (nd.startSlot key + 1)).takeWhile
        fun s => decide (s.minKey ≤ key)).length
    else nd.startSlot key) = max (nd.startSlot key) (A.length + 1) := by
  obtain ⟨_, hocc⟩ := occupiedAt_of_le hp hr hw hk hkey h
  split
  · next hle =>
    have hdrop := minKey_le_of_mem_drop hp.sorted hk h hocc
    have hcut : nd.slots.drop (nd.startSlot key) = A.drop (nd.startSlot key) ++ e :: B := by
      rw [h.eq, List.drop_append_of_le_length hle]
    have hlen : ((A.drop (nd.startSlot key) ++ e :: B).takeWhile
        fun s => decide (s.minKey ≤ key)).length = A.length - nd.startSlot key + 1 :=
      length_takeWhile_isPred (fun s hs => by simp [(hdrop s hs).2]) (by simp [h.le])
        (fun s hs => by simp [h.gt s hs])
    rw [← hcut] at hlen
    have hlt : nd.startSlot key < nd.slots.length := by
      rw [h.eq, List.length_append, List.length_cons]
      omega
    rw [List.drop_eq_getElem_cons hlt] at hlen
    rw [List.takeWhile_cons] at hlen
    split at hlen
    · rw [List.length_cons] at hlen
      omega
    · simp at hlen
  · omega

/-- 割り込みは、割り込ませる場所から最初の空きまでを一つずらす。 -/
theorem insertInBlock_shift (hp : nd.Packed) (hr : nd.Tame K) (hw : nd.Within K)
    {node : InnerSlot D} (hk : node.minKey < freeFlag) (hkey : node.minKey ∈ K)
    (hslt : nd.startSlot node.minKey < nd.slots.length)
    {A B : List (InnerSlot D)} {e : InnerSlot D}
    (h : IsPred InnerSlot.minKey node.minKey nd.slots A e B)
    (hfree : ¬ OccupiedAt nd.slots (nd.startSlot node.minKey + innerSlotsPerBlock - 1)) :
    ∃ X M f Y, nd.slots = X ++ (M ++ f :: Y) ∧
      X.length = max (nd.startSlot node.minKey) (A.length + 1) ∧
      X.length + M.length < nd.startSlot node.minKey + innerSlotsPerBlock ∧ f.isFree = true ∧
      (∀ s ∈ M, s.isFree = false) ∧
      nd.insertInBlock node (nd.startSlot node.minKey) A.length =
        some { nd with slots := X ++ node :: (M ++ Y) } := by
  have htarget := insertInBlock_target hp hr hw hk hkey h
  have hin := startSlot_inside hr hkey hslt
  have hlen := hp.length
  have h8 : innerSlotsPerBlock = 8 := rfl
  obtain ⟨_, hocc⟩ := occupiedAt_of_le hp hr hw hk hkey h
  generalize hpd : nd.startSlot node.minKey = p at *
  -- 直前の子は block の最後の slot より前にある
  have hAlt : A.length < p + innerSlotsPerBlock - 1 := by
    by_contra hc
    exact hfree (hocc _ (by omega) (by omega))
  obtain ⟨last, hlast, hlastocc, hAlast, hlastlt, hlastfree⟩ :=
    exists_searchLeft (occupiedAt_self hk h) hAlt (by omega)
  generalize ht : max p (A.length + 1) = t at *
  -- `t` は割り込ませる場所、`u` は埋める空き
  obtain ⟨u, hu⟩ : ∃ u, u = max (last + 1) t := ⟨_, rfl⟩
  have hult : u < nd.slots.length := by omega
  have hufree : nd.slots[u].isFree = true := by
    by_contra hc
    have hocc' : OccupiedAt nd.slots u := ⟨_, List.getElem?_eq_getElem hult, by simpa using hc⟩
    rcases Nat.lt_or_ge u (p + innerSlotsPerBlock - 1) with h' | h'
    · exact hlastfree u (by omega) h' hocc'
    · rw [show u = p + innerSlotsPerBlock - 1 by omega] at hocc'
      exact hfree hocc'
  have hmid : ∀ j, t ≤ j → j < u → OccupiedAt nd.slots j := by
    intro j h1 h2
    exact hp.occupiedAt_of_block (k := node.minKey) hlastocc (by omega) (by omega) (by omega)
      (by omega)
  have htlen : (nd.slots.take t).length = t := by
    rw [List.length_take]
    omega
  obtain ⟨M, hM⟩ : ∃ M, M = (nd.slots.drop t).take (u - t) := ⟨_, rfl⟩
  have hMlen : M.length = u - t := by
    rw [hM, List.length_take, List.length_drop]
    omega
  have hslots : nd.slots = nd.slots.take t ++ (M ++ nd.slots[u] :: nd.slots.drop (u + 1)) := by
    rw [← List.drop_eq_getElem_cons hult, hM]
    nth_rewrite 1 [← List.take_append_drop t nd.slots]
    congr 1
    nth_rewrite 1 [← List.take_append_drop (u - t) (nd.slots.drop t)]
    rw [List.drop_drop, show t + (u - t) = u by omega]
  refine ⟨nd.slots.take t, M, nd.slots[u], nd.slots.drop (u + 1), hslots, htlen, by omega, hufree,
    ?_, ?_⟩
  · intro s hs
    obtain ⟨i, hi, hsi⟩ := List.mem_iff_getElem.mp hs
    obtain ⟨r, hr', hrf⟩ := hmid (t + i) (by omega) (by omega)
    rw [hslots, List.getElem?_append_right (by omega), List.getElem?_append_left (by omega),
      htlen, show t + i - t = i by omega, List.getElem?_eq_getElem hi, hsi] at hr'
    rw [Option.some.inj hr']
    exact hrf
  · unfold insertInBlock
    rw [htarget, hlast]
    simp only [Option.bind_eq_bind, Option.bind_some]
    split
    · have hut : u = t := by omega
      rw [if_pos (by omega), List.set_eq_take_append_cons_drop, if_pos (by omega), hM, hut]
      simp
    · have hul : last + 1 = u := by omega
      have herase : nd.slots.eraseIdx u = nd.slots.take t ++ (M ++ nd.slots.drop (u + 1)) := by
        nth_rewrite 1 [hslots]
        rw [List.eraseIdx_append_of_length_le (by omega), htlen,
          List.eraseIdx_append_of_length_le (by omega), hMlen, Nat.sub_self,
          List.eraseIdx_cons_zero]
      have hins := insertIdx_length_append (nd.slots.take t) (M ++ nd.slots.drop (u + 1)) node
      rw [htlen] at hins
      rw [hul, herase, hins]

/-- 空きのある block への割り込みは、直前の子の次に子を足す。 -/
theorem insertInBlock_spec {node : InnerSlot D} (hp : nd.Packed) (hr : nd.Tame K)
    (hw : nd.Within K) (hk : node.minKey < freeFlag) (hkey : node.minKey ∈ K)
    (hslt : nd.startSlot node.minKey < nd.slots.length)
    {A B : List (InnerSlot D)} {e : InnerSlot D}
    (h : IsPred InnerSlot.minKey node.minKey nd.slots A e B) (hne : e.minKey ≠ node.minKey)
    (hfree : ¬ OccupiedAt nd.slots (nd.startSlot node.minKey + innerSlotsPerBlock - 1)) :
    ∃ slots, nd.insertInBlock node (nd.startSlot node.minKey) A.length =
        some { nd with slots := slots } ∧ Packed { nd with slots := slots } ∧
      slots.length = nd.slots.length ∧
      occupied slots = occupied A ++ e :: node :: occupied B := by
  obtain ⟨X, M, f, Y, hslots, hX, hXM, hf, hM, hres⟩ :=
    insertInBlock_shift hp hr hw hk hkey hslt h hfree
  have hin := startSlot_inside hr hkey hslt
  obtain ⟨_, hocc⟩ := occupiedAt_of_le hp hr hw hk hkey h
  have he : e.isFree = false := isFree_eq_false.mpr (ne_of_lt (lt_of_le_of_lt h.le hk))
  have hnf : node.isFree = false := isFree_eq_false.mpr (ne_of_lt hk)
  have hsort := hp.sorted
  rw [h.eq] at hsort
  -- 割り込ませる場所より前の子は直前の子まで、後ろの slot は直前の子より後である
  have hlt : ∀ s ∈ X, s.isFree = false → s.minKey < node.minKey := by
    intro s hs hsf
    obtain ⟨i, hi, hsi⟩ := List.mem_iff_getElem.mp hs
    have hget : nd.slots[i]? = some s := by
      rw [hslots, List.getElem?_append_left hi, List.getElem?_eq_getElem hi, hsi]
    have hiA : i ≤ A.length := by
      by_contra hc
      exact not_occupiedAt_of_gt hp hr hw hkey h (by omega) (by omega) ⟨s, hget, hsf⟩
    have hele : e.minKey < node.minKey := lt_of_le_of_ne h.le hne
    rw [h.eq] at hget
    rcases Nat.lt_or_ge i A.length with hiA' | hiA'
    · rw [List.getElem?_append_left hiA'] at hget
      have := (List.pairwise_append.mp hsort).2.2 s (List.mem_of_getElem? hget) e (by simp) hsf he
      exact lt_trans this hele
    · rw [show i = A.length by omega] at hget
      rw [show s = e by simpa using hget.symm]
      exact hele
  have hgt : ∀ s ∈ M ++ Y, node.minKey < s.minKey := by
    have hdrop : (M ++ f :: Y) = B.drop (X.length - (A.length + 1)) := by
      have h1 : nd.slots.drop X.length = M ++ f :: Y := by rw [hslots]; simp
      have h2 : nd.slots.drop (A.length + 1) = B := by rw [h.eq, List.drop_append]; simp
      rw [← h1, ← h2, List.drop_drop]
      congr 1
      omega
    intro s hs
    have hmem : s ∈ M ++ f :: Y := by
      rcases List.mem_append.mp hs with hs | hs <;> simp [hs]
    rw [hdrop] at hmem
    exact h.gt s (List.mem_of_mem_drop hmem)
  have hcut := isPred_occupied hk h
  rw [hslots, occupied_append, occupied_append, occupied_cons_of_free hf,
    ← occupied_append] at hcut
  obtain ⟨hoX, hoY⟩ := hcut.append_eq
    (fun s hs => le_of_lt (hlt s (mem_occupied.mp hs).1 (mem_occupied.mp hs).2))
    (fun s hs => hgt s (mem_occupied.mp hs).1)
  refine ⟨_, hres, ?_, ?_, ?_⟩
  · refine hp.shift hslots hnf hM hlt (fun s hs _ => hgt s hs) (by omega) (by omega) ?_
    intro j h1 h2
    exact hocc j h1 (by omega)
  · rw [hslots]
    simp only [List.length_append, List.length_cons]
    omega
  · rw [occupied_append, occupied_cons_of_not_free hnf, hoX, hoY]
    simp

/-- `upsert_node` が一つの node でする三通りのこと。 -/
inductive UpsertOutcome (nd : InnerNode D) (node e : InnerSlot D) (a b : List (InnerSlot D)) :
    Nat × InnerNode D → Prop where
  /-- 鍵の同じ子を置き換えた。 -/
  | updated (slots : List (InnerSlot D)) (hkey : e.minKey = node.minKey)
      (hentries : occupied slots = a ++ node :: b) :
      UpsertOutcome nd node e a b (1, { nd with slots := slots })
  /-- 直前の子の次に足した。 -/
  | inserted (slots : List (InnerSlot D)) (hkey : e.minKey ≠ node.minKey)
      (hentries : occupied slots = a ++ e :: node :: b) :
      UpsertOutcome nd node e a b (2, { nd with slots := slots })
  /-- 予測した block に空きが無い。 -/
  | failed (hkey : e.minKey ≠ node.minKey) : UpsertOutcome nd node e a b (3, nd)

/-- **`upsert_node` は直前の子を置き換えるか、その次に足すか、何もしない。** -/
theorem upsertHere_spec {node a : InnerSlot D} (hp : nd.Packed) (hr : nd.Tame K)
    (hw : nd.Within K) (hk : node.minKey < freeFlag) (hkey : node.minKey ∈ K)
    (hslt : nd.startSlot node.minKey < nd.slots.length)
    {A B : List (InnerSlot D)} {e : InnerSlot D}
    (h : IsPred InnerSlot.minKey node.minKey nd.slots A e B) (ha : a.Models nd) :
    ∃ r, nd.upsertHere node a A.length = some r ∧ r.2.Packed ∧
      r.2.slots.length = nd.slots.length ∧
      UpsertOutcome nd node e (occupied A) (occupied B) r := by
  have hin := startSlot_inside hr hkey hslt
  have hlen := hp.length
  have h8 : innerSlotsPerBlock = 8 := rfl
  have hget : nd.slots[A.length]? = some e := by rw [h.eq]; simp
  have hnf : node.isFree = false := isFree_eq_false.mpr (ne_of_lt hk)
  unfold upsertHere
  rw [hget, startSlot_of_models ha]
  simp only [Option.bind_eq_bind, Option.bind_some]
  by_cases hsame : e.minKey = node.minKey
  · have hset : nd.slots.set A.length node = A ++ node :: B := by rw [h.eq]; simp
    rw [if_pos hsame, hset]
    refine ⟨_, rfl, hp.replace h.eq hsame.symm, by rw [h.eq]; simp, ?_⟩
    exact .updated _ hsame (by rw [occupied_append, occupied_cons_of_not_free hnf])
  · have hlt : nd.startSlot node.minKey + innerSlotsPerBlock - 1 < nd.slots.length := by omega
    rw [if_neg hsame, List.getElem?_eq_getElem hlt]
    simp only [Option.bind_some]
    by_cases hfree : nd.slots[nd.startSlot node.minKey + innerSlotsPerBlock - 1].isFree = true
    · rw [if_pos hfree]
      have hnocc : ¬ OccupiedAt nd.slots (nd.startSlot node.minKey + innerSlotsPerBlock - 1) := by
        rintro ⟨s, hs, hsf⟩
        rw [List.getElem?_eq_getElem hlt] at hs
        obtain rfl := Option.some.inj hs
        rw [hfree] at hsf
        cases hsf
      obtain ⟨slots, hs, hpk, hlength, hocc⟩ :=
        insertInBlock_spec hp hr hw hk hkey hslt h hsame hnocc
      exact ⟨(2, { nd with slots := slots }), by rw [hs]; rfl, hpk, hlength,
        .inserted slots hsame hocc⟩
    · rw [if_neg hfree]
      exact ⟨_, rfl, hp, rfl, .failed hsame⟩

/-! ### 空きのある node -/

omit [Arith D] in
/-- 続けて埋まっている slot の数だけ、子が在る。 -/
theorem length_le_entries {p n : Nat} (h : ∀ j, p ≤ j → j < p + n → OccupiedAt nd.slots j) :
    n ≤ nd.entries.length := by
  have hrun : occupied ((nd.slots.drop p).take n) = (nd.slots.drop p).take n := by
    refine List.filter_eq_self.mpr fun s hs => ?_
    obtain ⟨i, hi⟩ := List.mem_iff_getElem?.mp hs
    obtain ⟨hlt, -⟩ := List.getElem?_eq_some_iff.mp hi
    rw [List.length_take] at hlt
    rw [List.getElem?_take_of_lt (by omega), List.getElem?_drop] at hi
    obtain ⟨u, hu, hfree⟩ := h (p + i) (by omega) (by omega)
    obtain rfl := Option.some.inj (hi.symm.trans hu)
    rw [hfree]
    rfl
  have hsub : ((nd.slots.drop p).take n).Sublist nd.slots :=
    (List.take_sublist ..).trans (List.drop_sublist ..)
  have hle := (hsub.filter fun s => !s.isFree).length_le
  rw [show ((nd.slots.drop p).take n).filter (fun s => !s.isFree) = (nd.slots.drop p).take n
    from hrun, List.length_take, List.length_drop] at hle
  have hlen : n = 0 ∨ p + n ≤ nd.slots.length := by
    rcases Nat.eq_zero_or_pos n with hn | hn
    · exact Or.inl hn
    · obtain ⟨u, hu, -⟩ := h (p + n - 1) (by omega) (by omega)
      have := (List.getElem?_eq_some_iff.mp hu).1
      omega
  show n ≤ (nd.slots.filter fun s => !s.isFree).length
  omega

/-- 子が一つの block を埋める数に足りなければ、予測した block には空きが在る。 -/
theorem upsertHere_ne_three {node a : InnerSlot D} (hp : nd.Packed) (ha : a.Models nd) {slot : Nat}
    (hfew : nd.entries.length < innerSlotsPerBlock) {r : Nat × InnerNode D}
    (h : nd.upsertHere node a slot = some r) : r.1 ≠ 3 := by
  unfold upsertHere at h
  obtain ⟨s, -, h⟩ := Option.bind_eq_some_iff.mp h
  split at h
  · obtain rfl := Option.some.inj h
    exact (by decide : 1 ≠ 3)
  · obtain ⟨last, hlast, h⟩ := Option.bind_eq_some_iff.mp h
    rw [startSlot_of_models ha] at hlast
    split at h
    · obtain ⟨nd', -, rfl⟩ := Option.map_eq_some_iff.mp h
      exact (by decide : 2 ≠ 3)
    · next hfree =>
      -- 最後の slot が埋まっていれば、block は先頭から埋まっている
      have hocc : OccupiedAt nd.slots (nd.startSlot node.minKey + innerSlotsPerBlock - 1) :=
        ⟨last, hlast, by simpa using hfree⟩
      have h8 : innerSlotsPerBlock = 8 := rfl
      have hle := @length_le_entries D nd (nd.startSlot node.minKey) innerSlotsPerBlock
        fun j h1 h2 => hp.occupiedAt_of_block hocc (by omega) (by omega) h1 (by omega)
      omega

end InnerNode

end Plin
