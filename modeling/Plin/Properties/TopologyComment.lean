import Plin.Properties.TopologyRoundtrip

/-!
# 行末の注釈

`trim` は前後の空白を落としてから、` #` から後ろを落とす。**注釈を落とした後には、注釈の前の空白が残る。**
`key: value` の行と項目の行は、値を取り出すときにもう一度 `trim` するので、残った空白は結果に関わらない。
見出しの `edges:` と `ends:` は行の全体と比べるので、空白が残ると見出しと認められない。

注釈を足しても読んだ結果が変わらないのは、この見出しの後に二つ以上の空白を置く場合を除いてである
（`load_inlineComment_iff`）。
-/

namespace Plin

open Infra

/-! ## 注釈を探す -/

/-- ` #` の場所。 -/
theorem indexOf_mark_cons (x : Char) (s : Text) :
    Text.indexOf [' ', '#'] (x :: s) =
      if x = ' ' ∧ s.head? = some '#' then some 0
      else (Text.indexOf [' ', '#'] s).map (· + 1) := by
  rw [Text.indexOf]
  refine if_congr ?_ rfl rfl
  rw [List.isPrefixOf_iff_prefix, List.cons_prefix_cons, eq_comm]
  refine and_congr_right fun _ => ?_
  cases s with
  | nil => simp
  | cons y s => simp [List.cons_prefix_cons, eq_comm]

/-- 後ろに何が続いても、先に見つかる注釈は変わらない。 -/
theorem indexOf_mark_append {s : Text} {i : Nat} (h : Text.indexOf [' ', '#'] s = some i)
    (r : Text) : Text.indexOf [' ', '#'] (s ++ r) = some i := by
  induction s generalizing i with
  | nil => cases h
  | cons x s ih =>
    rw [indexOf_mark_cons] at h
    rw [List.cons_append, indexOf_mark_cons]
    split at h
    · next hx =>
      have hs : s ≠ [] := by
        rintro rfl
        cases hx.2
      rw [if_pos ⟨hx.1, by rw [List.head?_append_of_ne_nil _ hs]; exact hx.2⟩]
      exact h
    · next hx =>
      obtain ⟨j, hj, rfl⟩ := Option.map_eq_some_iff.mp h
      have hs : s ≠ [] := by
        rintro rfl
        cases hj
      rw [if_neg (by rw [List.head?_append_of_ne_nil _ hs]; exact hx), ih hj]
      rfl

theorem indexOf_mark_le {s : Text} {i : Nat} (h : Text.indexOf [' ', '#'] s = some i) :
    i ≤ s.length := by
  induction s generalizing i with
  | nil => cases h
  | cons x s ih =>
    rw [indexOf_mark_cons] at h
    split at h
    · rw [← Option.some.inj h]
      exact Nat.zero_le _
    · obtain ⟨j, hj, rfl⟩ := Option.map_eq_some_iff.mp h
      exact Nat.succ_le_succ (ih hj)

/-- `#` の無い文字列を続けても、注釈は現れない。 -/
theorem indexOf_mark_none {s w : Text} (h : Text.indexOf [' ', '#'] s = none) (hw : '#' ∉ w) :
    Text.indexOf [' ', '#'] (s ++ w) = none := by
  induction s with
  | nil => exact indexOf_comment hw
  | cons x s ih =>
    rw [indexOf_mark_cons] at h
    rw [List.cons_append, indexOf_mark_cons]
    split at h
    · cases h
    · next hx =>
      rw [if_neg, ih (Option.map_eq_none_iff.mp h)]
      · rfl
      · rintro ⟨hspace, hhead⟩
        cases s with
        | nil => exact hw (List.mem_of_head? hhead)
        | cons y s => exact hx ⟨hspace, hhead⟩

/-- 足した注釈は、その前に注釈が無ければ、足した場所で見つかる。 -/
theorem indexOf_mark_self {u d : Text} (h : Text.indexOf [' ', '#'] (u ++ [' ']) = none) :
    Text.indexOf [' ', '#'] (u ++ ' ' :: '#' :: d) = some u.length := by
  induction u with
  | nil => rfl
  | cons x u ih =>
    rw [List.cons_append, indexOf_mark_cons] at h
    rw [List.cons_append, indexOf_mark_cons]
    split at h
    · cases h
    · next hx =>
      rw [if_neg, ih (Option.map_eq_none_iff.mp h)]
      · rfl
      · rintro ⟨hspace, hhead⟩
        cases u with
        | nil => cases hhead
        | cons y u => exact hx ⟨hspace, hhead⟩

/-! ## 空白を落とす -/

/-- `trim` の空白を落とした部分。 -/
def stripBlanks (s : Text) : Text := (s.dropWhile isBlankChar).rdropWhile isBlankChar

theorem trim_eq_strip (s : Text) :
    trim s = match Text.indexOf [' ', '#'] (stripBlanks s) with
      | some i => (stripBlanks s).take i
      | none => stripBlanks s := rfl

/-- 空白だけの文字列。 -/
def AllBlank (s : Text) : Prop := ∀ c ∈ s, isBlankChar c = true

theorem AllBlank.append {a b : Text} (ha : AllBlank a) (hb : AllBlank b) : AllBlank (a ++ b) := by
  intro c hc
  exact (List.mem_append.mp hc).elim (ha c) (hb c)

theorem allBlank_replicate (n : Nat) : AllBlank (List.replicate n ' ') := by
  intro c hc
  rw [(List.mem_replicate.mp hc).2]
  rfl

theorem AllBlank.hash_not_mem {s : Text} (h : AllBlank s) : '#' ∉ s :=
  fun hc => absurd (h '#' hc) (by decide)

/-- 空白でない文字で始まり、空白でない文字で終わる。空でもよい。 -/
structure Stripped (t : Text) : Prop where
  head : ∀ x, t.head? = some x → isBlankChar x = false
  last : ∀ x, t.getLast? = some x → isBlankChar x = false

/-- 前後の空白を落とすと、間が残る。 -/
theorem Stripped.strip_eq {t a b : Text} (h : Stripped t) (ha : AllBlank a) (hb : AllBlank b) :
    stripBlanks (a ++ t ++ b) = t := by
  unfold stripBlanks
  rw [List.append_assoc]
  cases t with
  | nil =>
    have hall : (a ++ ([] ++ b)).dropWhile isBlankChar = [] :=
      List.dropWhile_eq_nil_iff.mpr (ha.append hb)
    rw [hall]
    rfl
  | cons x t =>
    have hhead : ∀ y, (x :: t ++ b).head? = some y → isBlankChar y = false := h.head
    rw [Text.dropWhile_append_of_all ha hhead, rdropWhile_append h.last hb]

/-- どの文字列も、空白を落とした部分の前後に空白を付けたものである。 -/
theorem exists_strip (s : Text) :
    ∃ a b, AllBlank a ∧ AllBlank b ∧ Stripped (stripBlanks s) ∧ s = a ++ stripBlanks s ++ b := by
  have hfront : s = s.takeWhile isBlankChar ++ s.dropWhile isBlankChar :=
    (List.takeWhile_append_dropWhile ..).symm
  have hback : s.dropWhile isBlankChar = stripBlanks s ++
      (s.dropWhile isBlankChar).rtakeWhile isBlankChar :=
    (List.rdropWhile_append_rtakeWhile ..).symm
  refine ⟨s.takeWhile isBlankChar, (s.dropWhile isBlankChar).rtakeWhile isBlankChar, ?_, ?_, ?_, ?_⟩
  · exact fun c hc => List.mem_takeWhile_imp hc
  · exact fun c hc => List.mem_rtakeWhile_imp hc
  · constructor
    · intro x hx
      have hhead := List.head?_dropWhile_not isBlankChar s
      rw [hback, List.head?_append_of_ne_nil _ (List.ne_nil_of_mem (List.mem_of_head? hx)),
        hx] at hhead
      exact hhead
    · intro x hx
      have hne := List.ne_nil_of_mem (List.mem_of_getLast? hx)
      have hlast := List.rdropWhile_last_not isBlankChar _ hne
      rw [List.getLast?_eq_getLast_of_ne_nil hne] at hx
      rw [← Option.some.inj hx]
      exact Bool.eq_false_iff.mpr hlast
  · rw [List.append_assoc, ← hback, ← hfront]

/-! ## 注釈を足した行 -/

/-- 注釈を足した行。`n` 個の空白と `#` の後に `c` が続く。 -/
def annotate (line : Text) (n : Nat) (c : Text) : Text :=
  line ++ List.replicate n ' ' ++ '#' :: c

/-- `#` で始まる文字列は、空白を落としても `#` で始まる。 -/
theorem exists_strip_hash (c : Text) :
    ∃ d b, AllBlank b ∧ Stripped ('#' :: d) ∧ '#' :: c = '#' :: d ++ b := by
  obtain ⟨a, b, ha, hb, hstrip, heq⟩ := exists_strip ('#' :: c)
  obtain rfl : a = [] := by
    cases a with
    | nil => rfl
    | cons x a =>
      have hx : '#' = x := (List.cons.inj heq).1
      exact absurd (ha x List.mem_cons_self) (by rw [← hx]; decide)
  rw [List.nil_append] at heq
  cases hs : stripBlanks ('#' :: c) with
  | nil =>
    rw [hs, List.nil_append] at heq
    exact absurd (heq ▸ List.mem_cons_self) hb.hash_not_mem
  | cons x d =>
    rw [hs] at heq hstrip
    obtain rfl : '#' = x := (List.cons.inj heq).1
    exact ⟨d, b, hb, hstrip, heq⟩

/-- 足した注釈も含めて、空白を落とした部分。 -/
theorem strip_annotate {a t b : Text} (ha : AllBlank a) (ht : Stripped t) (hne : t ≠ [])
    (n : Nat) (c : Text) :
    ∃ d, stripBlanks (annotate (a ++ t ++ b) n c) =
      t ++ (b ++ List.replicate n ' ') ++ '#' :: d := by
  obtain ⟨d, b', hb', hstrip, heq⟩ := exists_strip_hash c
  refine ⟨d, ?_⟩
  have htext : annotate (a ++ t ++ b) n c =
      a ++ (t ++ (b ++ List.replicate n ' ') ++ '#' :: d) ++ b' := by
    rw [annotate, heq]
    simp only [List.append_assoc, List.cons_append]
  rw [htext]
  refine Stripped.strip_eq ⟨fun x hx => ?_, fun x hx => ?_⟩ ha hb'
  · rw [List.append_assoc, List.head?_append_of_ne_nil _ hne] at hx
    exact ht.head x hx
  · rw [List.getLast?_append_of_ne_nil _ (List.cons_ne_nil _ _)] at hx
    exact hstrip.last x hx

/-- もとの行に注釈があれば、足した注釈は一緒に落ちる。 -/
theorem trim_annotate_of_comment {line : Text} {i : Nat}
    (h : Text.indexOf [' ', '#'] (stripBlanks line) = some i) (n : Nat) (c : Text) :
    trim (annotate line n c) = trim line := by
  obtain ⟨a, b, ha, -, hstrip, heq⟩ := exists_strip line
  have hne : stripBlanks line ≠ [] := by
    intro hnil
    rw [hnil] at h
    cases h
  obtain ⟨d, hd⟩ := @strip_annotate a (stripBlanks line) b ha hstrip hne n c
  rw [← heq] at hd
  have hi := indexOf_mark_append h (b ++ List.replicate n ' ' ++ '#' :: d)
  have hle : i ≤ (stripBlanks line).length := indexOf_mark_le h
  rw [trim_eq_strip line, h, trim_eq_strip, hd, List.append_assoc, hi]
  exact List.take_append_of_le_length hle

/-- もとの行に注釈が無ければ、注釈の前の空白が残る。 -/
theorem trim_annotate_of_plain {a t b : Text} (ha : AllBlank a) (hb : AllBlank b)
    (ht : Stripped t) (hne : t ≠ []) (h : Text.indexOf [' ', '#'] t = none) (n : Nat) (c : Text) :
    trim (annotate (a ++ t ++ b) (n + 1) c) = t ++ (b ++ List.replicate n ' ') := by
  obtain ⟨d, hd⟩ := @strip_annotate a t b ha ht hne (n + 1) c
  have htext : t ++ (b ++ List.replicate (n + 1) ' ') ++ '#' :: d =
      (t ++ (b ++ List.replicate n ' ')) ++ ' ' :: '#' :: d := by
    rw [List.replicate_succ']
    simp only [List.append_assoc, List.cons_append, List.nil_append]
  have hnone : Text.indexOf [' ', '#'] (t ++ (b ++ List.replicate n ' ') ++ [' ']) = none := by
    rw [List.append_assoc]
    exact indexOf_mark_none h ((hb.append (allBlank_replicate n)).append
      (allBlank_replicate 1)).hash_not_mem
  rw [trim_eq_strip, hd, htext, indexOf_mark_self hnone]
  exact List.take_left' rfl

/-- 空白だけの行は、注釈の行になる。 -/
theorem trim_annotate_of_blank {line : Text} (h : AllBlank line) (n : Nat) (c : Text) :
    (trim (annotate line n c)).head? = some '#' :=
  trim_comment (h.append (allBlank_replicate n))

/-! ## 残った空白は値に関わらない -/

theorem trim_append_blank {s w : Text} (hw : AllBlank w) : trim (s ++ w) = trim s := by
  obtain ⟨a, b, ha, hb, hstrip, heq⟩ := exists_strip s
  have hs : stripBlanks (s ++ w) = stripBlanks s := by
    rw [heq, List.append_assoc, hstrip.strip_eq ha (hb.append hw), ← heq]
  rw [trim_eq_strip, hs, trim_eq_strip]

theorem splitKv_append_blank {s w : Text} (hw : AllBlank w) : splitKv (s ++ w) = splitKv s := by
  by_cases hmem : ':' ∈ s
  · obtain ⟨k, v, rfl, hk⟩ := List.eq_append_cons_of_mem hmem
    rw [List.append_assoc, List.cons_append, splitKv_colon hk, splitKv_colon hk,
      trim_append_blank hw]
  · have hcolon : ':' ∉ w := fun hc => absurd (hw ':' hc) (by decide)
    rw [splitKv, splitKv, if_neg hmem, if_neg (by simp [hmem, hcolon])]

/-- 空白を含まない語が先頭にあるかどうかは、後ろの空白に関わらない。 -/
theorem prefix_append_blank {p t w : Text} (hp : ∀ c ∈ p, isBlankChar c = false) (hw : AllBlank w) :
    p <+: t ++ w ↔ p <+: t := by
  refine ⟨fun h => ?_, fun h => h.trans (List.prefix_append t w)⟩
  rcases List.prefix_or_prefix_of_prefix h (List.prefix_append t w) with h' | ⟨q, rfl⟩
  · exact h'
  · cases q with
    | nil => simp
    | cons x q =>
      have hx : x ∈ w := by
        have hq := (List.prefix_append_right_inj t).mp h
        exact hq.subset List.mem_cons_self
      exact absurd (hw x hx) (by rw [hp x (by simp)]; decide)

/-- 空白を含まない語に等しいのは、後ろの空白が無いときだけである。 -/
theorem append_blank_eq {p t w : Text} (hp : ∀ c ∈ p, isBlankChar c = false) (hw : AllBlank w)
    (h : t ++ w = p) : w = [] := by
  refine List.eq_nil_iff_forall_not_mem.mpr fun x hx => ?_
  exact absurd (hw x hx) (by rw [hp x (by rw [← h]; simp [hx])]; decide)

namespace LoadState

variable {st : LoadState} {t w : Text}

theorem cloudLine_append_blank (hw : AllBlank w) : st.cloudLine (t ++ w) = st.cloudLine t := by
  unfold cloudLine
  rw [splitKv_append_blank hw]

theorem trim_drop_append_blank {n : Nat} (hn : n ≤ t.length) (hw : AllBlank w) :
    trim ((t ++ w).drop n) = trim (t.drop n) := by
  rw [List.drop_append_of_le_length hn, trim_append_blank hw]

theorem edgeLine_append_blank (hne : t ≠ []) (hw : AllBlank w) :
    st.edgeLine (t ++ w) = st.edgeLine t := by
  unfold edgeLine
  rw [List.head?_append_of_ne_nil _ hne, splitKv_append_blank hw,
    trim_drop_append_blank (List.length_pos_iff.mpr hne) hw]

theorem endLine_append_blank (stod : Text → Option Key) (hne : t ≠ []) (hw : AllBlank w) :
    st.endLine stod (t ++ w) = st.endLine stod t := by
  unfold endLine
  rw [List.head?_append_of_ne_nil _ hne, splitKv_append_blank hw,
    trim_drop_append_blank (List.length_pos_iff.mpr hne) hw]

/-- 節の見出しのうち、行の全体と比べるもの。 -/
def IsHeading (t : Text) : Prop := t = "edges:".toList ∨ t = "ends:".toList

theorem IsHeading.char {t : Text} (h : IsHeading t) : ∀ c ∈ t, isBlankChar c = false := by
  rcases h with rfl | rfl <;> simp [isBlankChar]

/-- **残った空白は、見出しの行のほかでは読み方に関わらない。** -/
theorem step_trailing (stod : Text → Option Key) {raw raw' : Text} (ht : trim raw = t)
    (ht' : trim raw' = t ++ w) (hw : AllBlank w) (hne : t ≠ []) (hhead : IsHeading t → w = [])
    (st : LoadState) : step stod st raw' = step stod st raw := by
  rcases eq_or_ne w [] with rfl | hwne
  · unfold step
    rw [ht', ht, List.append_nil]
  · have hnot : ∀ {p : Text}, IsHeading p → ¬ t ++ w = p ∧ ¬ t = p := by
      intro p hp
      refine ⟨fun h => hwne (append_blank_eq hp.char hw h), ?_⟩
      rintro rfl
      exact hwne (hhead hp)
    have hcloud : "cloud:".toList.isPrefixOf (t ++ w) = "cloud:".toList.isPrefixOf t := by
      rw [Bool.eq_iff_iff, List.isPrefixOf_iff_prefix, List.isPrefixOf_iff_prefix]
      exact prefix_append_blank (by simp [isBlankChar]) hw
    unfold step
    rw [ht', ht]
    dsimp only
    rw [List.head?_append_of_ne_nil _ hne, hcloud, if_neg (hnot (Or.inl rfl)).1,
      if_neg (hnot (Or.inr rfl)).1, if_neg (hnot (Or.inl rfl)).2, if_neg (hnot (Or.inr rfl)).2,
      cloudLine_append_blank hw, edgeLine_append_blank hne hw, endLine_append_blank stod hne hw]
    by_cases hpre : "cloud:".toList.isPrefixOf t = true
    · have hlen : 6 ≤ t.length := (List.isPrefixOf_iff_prefix.mp hpre).length_le
      rw [trim_drop_append_blank hlen hw]
      simp only [List.append_eq_nil_iff, hne, false_and]
    · simp only [List.append_eq_nil_iff, hne, false_and, if_neg hpre]

end LoadState

/-! ## file の中の一行 -/

theorem getlines_append_newline (b s cur : Text) :
    getlines cur (b ++ '\n' :: s) = getlines cur (b ++ ['\n']) ++ getlines [] s := by
  induction b generalizing cur with
  | nil => simp [getlines]
  | cons c b ih =>
    rw [List.cons_append, List.cons_append, getlines, getlines]
    split
    · rw [ih, List.cons_append]
    · exact ih _

/-- 行の前は、file の始まりか改行である。 -/
def StartsLine (before : Text) : Prop := before = [] ∨ ∃ b, before = b ++ ['\n']

/-- 行の後は、file の終わりか改行である。 -/
def EndsLine (after : Text) : Prop := after = [] ∨ ∃ a, after = '\n' :: a

/-- 一行は一行として読まれる。 -/
theorem getlines_middle {before line after : Text} (hb : StartsLine before) (ha : EndsLine after)
    (hline : '\n' ∉ line) (hne : line ≠ []) :
    getlines [] (before ++ line ++ after) =
      getlines [] before ++ line :: getlines [] (after.drop 1) := by
  have hafter : getlines [] (line ++ after) = line :: getlines [] (after.drop 1) := by
    rcases ha with rfl | ⟨a, rfl⟩
    · rw [List.append_nil, getlines_last hline [] hne]
      rfl
    · exact getlines_line hline [] a
  rcases hb with rfl | ⟨b, rfl⟩
  · exact hafter
  · rw [List.append_assoc, List.append_assoc, List.singleton_append, getlines_append_newline,
      hafter]

/-- loop を抜けたときの変数。cloud と edge と end を含む。 -/
def LoadState.readLines (stod : Text → Option Key) (port : Nat) (text : Text) : Option LoadState :=
  (getlines [] text).foldlM (LoadState.step stod) (LoadState.initial port)

/-- 二つの file は、途中の変数も含めて同じに読まれる。 -/
def SameLoad (stod : Text → Option Key) (sorter : EndSorter) (port : Nat) (text text' : Text) :
    Prop :=
  LoadState.readLines stod port text = LoadState.readLines stod port text' ∧
    Topology.load stod sorter port text = Topology.load stod sorter port text'

/-- 見出しの後に、`#` まで二つ以上の空白がある。 -/
def LosesHeading (line : Text) (n : Nat) : Prop :=
  ∃ a p b, AllBlank a ∧ AllBlank b ∧ LoadState.IsHeading p ∧ line = a ++ p ++ b ∧ 1 < b.length + n

theorem trim_heading {a p b : Text} (ha : AllBlank a) (hb : AllBlank b)
    (hp : LoadState.IsHeading p) : trim (a ++ p ++ b) = p := by
  have htidy : Tidy p := by
    rcases hp with rfl | rfl
    · exact (isLine_heading (Or.inr (Or.inl rfl))).tidy
    · exact (isLine_heading (Or.inr (Or.inr rfl))).tidy
  exact htidy.trim_eq ha hb

/-- **見出しの後の二つ以上の空白を除けば、注釈は行の読み方に関わらない。** -/
theorem LoadState.step_annotate (stod : Text → Option Key) {line : Text} {n : Nat} (hn : 1 ≤ n)
    (h : ¬ LosesHeading line n) (c : Text) (st : LoadState) :
    step stod st (annotate line n c) = step stod st line := by
  obtain ⟨a, b, ha, hb, hstrip, heq⟩ := exists_strip line
  obtain ⟨m, rfl⟩ : ∃ m, n = m + 1 := ⟨n - 1, by omega⟩
  rcases eq_or_ne (stripBlanks line) [] with hnil | hne
  · have hall : AllBlank line := by
      rw [heq, hnil, List.append_nil]
      exact ha.append hb
    unfold step
    dsimp only
    rw [if_pos (Or.inr (trim_annotate_of_blank hall _ c)), trim_blank hall, if_pos (Or.inl rfl)]
  · cases hmark : Text.indexOf [' ', '#'] (stripBlanks line) with
    | some i =>
      unfold step
      rw [trim_annotate_of_comment hmark]
    | none =>
      have htrim : trim line = stripBlanks line := by rw [trim_eq_strip, hmark]
      have htrim' := trim_annotate_of_plain ha hb hstrip hne hmark m c
      rw [← heq] at htrim'
      refine step_trailing stod htrim htrim' (hb.append (allBlank_replicate m)) hne ?_ st
      intro hp
      have hlen : ¬ 1 < b.length + (m + 1) :=
        fun hlt => h ⟨a, stripBlanks line, b, ha, hb, hp, heq, hlt⟩
      refine List.eq_nil_of_length_eq_zero ?_
      rw [List.length_append, List.length_replicate]
      omega

/-- 見出しと認められない行は、節の前では読み飛ばされる。 -/
theorem LoadState.step_lost (stod : Text → Option Key) {line : Text} {n : Nat} (hn : 1 ≤ n)
    (h : LosesHeading line n) (c : Text) {st : LoadState} (hsec : st.sec = .none) :
    step stod st (annotate line n c) = some st := by
  obtain ⟨a, p, b, ha, hb, hp, rfl, hlen⟩ := h
  obtain ⟨m, rfl⟩ : ∃ m, n = m + 1 := ⟨n - 1, by omega⟩
  have hstrip : Stripped p ∧ p ≠ [] ∧ Text.indexOf [' ', '#'] p = none ∧
      "cloud:".toList.isPrefixOf p = false := by
    rcases hp with rfl | rfl
    · exact ⟨⟨by simp [isBlankChar], by simp [isBlankChar]⟩, by simp, rfl, rfl⟩
    · exact ⟨⟨by simp [isBlankChar], by simp [isBlankChar]⟩, by simp, rfl, rfl⟩
  obtain ⟨hstrip, hne, hmark, hcloud⟩ := hstrip
  have hw : AllBlank (b ++ List.replicate m ' ') := hb.append (allBlank_replicate m)
  have hwne : b ++ List.replicate m ' ' ≠ [] := by
    intro hnil
    have := congrArg List.length hnil
    rw [List.length_append, List.length_replicate, List.length_nil] at this
    omega
  have hnot : ∀ {q : Text}, IsHeading q → ¬ p ++ (b ++ List.replicate m ' ') = q :=
    fun hq heq => hwne (append_blank_eq hq.char hw heq)
  have hcloud' : ¬ "cloud:".toList.isPrefixOf (p ++ (b ++ List.replicate m ' ')) = true := by
    rw [List.isPrefixOf_iff_prefix, prefix_append_blank (by simp [isBlankChar]) hw,
      ← List.isPrefixOf_iff_prefix, hcloud]
    decide
  unfold step
  rw [trim_annotate_of_plain ha hb hstrip hne hmark]
  dsimp only
  rw [if_neg hcloud', if_neg (hnot (Or.inl rfl)), if_neg (hnot (Or.inr rfl)), hsec]
  split <;> rfl

/-! ## 読んだ結果 -/

section Load

variable (stod : Text → Option Key) (sorter : EndSorter) (port : Nat)

/-- 読んだ行だけで結果が決まる。 -/
theorem load_eq_readLines (text : Text) :
    Topology.load stod sorter port text =
      match LoadState.readLines stod port text with
      | none => .error .thrown
      | some st =>
        let st := st.flushEdge.flushEnd
        if st.cloud.host = [] ∨ st.cloud.port = 0 then .error .cloudIncomplete
        else if st.edges = [] ∨ st.ends = [] then .error .listEmpty
        else .ok { cloud := st.cloud, edges := st.edges, ends := sorter.sort st.ends } := rfl

/-- 見出しの後の file の残り。`q` はもう一方の見出しである。 -/
def afterHeading (q : Text) : Text :=
  "\n-\n".toList ++ q ++ "\n-\ncloud:\nhost: c\nport: 1".toList

theorem endsLine_afterHeading (q : Text) : EndsLine (afterHeading q) := Or.inr ⟨_, rfl⟩

/-- 見出しと認められないと、項目が一つも読まれない。 -/
theorem not_sameLoad {line : Text} {n : Nat} (hn : 1 ≤ n) (h : LosesHeading line n)
    (hline : '\n' ∉ line) {c : Text} (hc : '\n' ∉ c) :
    ∃ after, EndsLine after ∧
      ¬ SameLoad stod sorter port ([] ++ line ++ after) ([] ++ annotate line n c ++ after) := by
  have hlost := fun st hsec => @LoadState.step_lost stod line n hn h c st hsec
  obtain ⟨a, p, b, ha, hb, hp, heq, -⟩ := h
  have hne : line ≠ [] := by
    rw [heq]
    rcases hp with rfl | rfl <;> simp
  have hline' : '\n' ∉ annotate line n c := by
    simp [annotate, hline, hc]
  have hne' : annotate line n c ≠ [] := by simp [annotate]
  have hstep : LoadState.step stod (LoadState.initial port) line =
      LoadState.step stod (LoadState.initial port) p := by
    have hself := trim_heading (a := []) (b := []) (by simp [AllBlank]) (by simp [AllBlank]) hp
    rw [List.nil_append, List.append_nil] at hself
    unfold LoadState.step
    rw [heq, trim_heading ha hb hp, hself]
  have hfirst : ∀ q, LoadState.readLines stod port ([] ++ line ++ afterHeading q) =
      (LoadState.step stod (LoadState.initial port) p).bind fun st =>
        (getlines [] ((afterHeading q).drop 1)).foldlM (LoadState.step stod) st := by
    intro q
    rw [LoadState.readLines, getlines_middle (Or.inl rfl) (endsLine_afterHeading q) hline hne,
      ← hstep]
    rfl
  have hsecond : ∀ q, LoadState.readLines stod port ([] ++ annotate line n c ++ afterHeading q) =
      (getlines [] ((afterHeading q).drop 1)).foldlM (LoadState.step stod)
        (LoadState.initial port) := by
    intro q
    rw [LoadState.readLines, getlines_middle (Or.inl rfl) (endsLine_afterHeading q) hline'
      hne']
    show ((LoadState.step stod (LoadState.initial port) (annotate line n c)).bind _) = _
    rw [hlost _ rfl]
    rfl
  rcases hp with rfl | rfl
  · refine ⟨afterHeading "ends:".toList, endsLine_afterHeading _, fun hsame => ?_⟩
    have hload := hsame.2
    rw [load_eq_readLines, load_eq_readLines, hfirst, hsecond] at hload
    cases hload
  · refine ⟨afterHeading "edges:".toList, endsLine_afterHeading _, fun hsame => ?_⟩
    have hload := hsame.2
    rw [load_eq_readLines, load_eq_readLines, hfirst, hsecond] at hload
    cases hload

/--
**注釈を足しても読んだ結果が変わらないのは、見出しの後に二つ以上の空白を置かないとき、そのときに限る。**

`line` は file の中の一行で、その前後は何であってもよい。
-/
theorem load_inlineComment_iff {line : Text} (hline : '\n' ∉ line) (hne : line ≠ []) {n : Nat}
    (hn : 1 ≤ n) {c : Text} (hc : '\n' ∉ c) :
    (∀ before after, StartsLine before → EndsLine after →
      SameLoad stod sorter port (before ++ line ++ after)
        (before ++ annotate line n c ++ after)) ↔ ¬ LosesHeading line n := by
  constructor
  · intro h hlost
    obtain ⟨after, hafter, hnot⟩ := not_sameLoad stod sorter port hn hlost hline hc
    exact hnot (h [] after (Or.inl rfl) hafter)
  · intro h before after hbefore hafter
    have hline' : '\n' ∉ annotate line n c := by
      simp [annotate, hline, hc]
    have hread : LoadState.readLines stod port (before ++ line ++ after) =
        LoadState.readLines stod port (before ++ annotate line n c ++ after) := by
      rw [LoadState.readLines, LoadState.readLines, getlines_middle hbefore hafter hline hne,
        getlines_middle hbefore hafter hline' (by simp [annotate]), List.foldlM_append,
        List.foldlM_append]
      refine bind_congr fun st => ?_
      rw [List.foldlM_cons, List.foldlM_cons, LoadState.step_annotate stod hn h c st]
    refine ⟨hread, ?_⟩
    rw [load_eq_readLines, load_eq_readLines, hread]

end Load

theorem load_inlineComment_port :
    SameLoad natStod stableSorter 0 ("cloud:\n".toList ++ "  port: 7000 ".toList ++ [])
      ("cloud:\n".toList ++ annotate "  port: 7000 ".toList 2 " control".toList ++ []) := by
  refine (load_inlineComment_iff natStod stableSorter 0 (by decide) (by decide) (by decide)
    (by decide)).mpr ?_ _ _ (Or.inr ⟨"cloud:".toList, by decide⟩) (Or.inl rfl)
  rintro ⟨a, p, b, ha, hb, hp, heq, -⟩
  have htrim := trim_heading ha hb hp
  rw [← heq] at htrim
  rcases hp with rfl | rfl <;> revert htrim <;> decide

/-- 見本の file の見出しに、二つの空白を置いて注釈を足す。 -/
theorem load_inlineComment_fails :
    Topology.load natStod stableSorter 0
      ("cloud:\n  host: c\n  port: 7000\n".toList ++ "edges:".toList ++
        ("\n  - \x7b id: 1, host: a, port: 7101, ends: [1] \x7d\nends:\n" ++
          "  - \x7b id: 1, edge: 1, host: b, port: 7201, key_range: [0, 5] \x7d\n").toList) =
      .ok (tinyTopology 1) ∧
    Topology.load natStod stableSorter 0
      ("cloud:\n  host: c\n  port: 7000\n".toList ++ annotate "edges:".toList 2 " list".toList ++
        ("\n  - \x7b id: 1, host: a, port: 7101, ends: [1] \x7d\nends:\n" ++
          "  - \x7b id: 1, edge: 1, host: b, port: 7201, key_range: [0, 5] \x7d\n").toList) =
      .error .listEmpty := by
  -- 文字列の定数を文字の列に直してから計算する
  rewrite [String.toList_append, String.toList_ofList, String.toList_ofList, String.toList_ofList,
    String.toList_ofList, String.toList_ofList]
  decide +kernel

end Plin
