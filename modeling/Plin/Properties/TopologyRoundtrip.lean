import Mathlib.Data.List.Permutation
import Mathlib.Data.List.Rotate
import Plin.Properties.Routing
import Plin.Properties.TopologyText

/-!
# 配置の file の往復

`topology.yaml` の書き方で書いた配置は、`load` で読み戻せる（`topology_roundtrip`）。

項目は次の項目か見出しか file の終わりで確定するので、**確定していない項目も含めた列**
（`flushEdge.edges` / `flushEnd.ends`）を見る。一つの節はそれぞれ一つの列だけを伸ばすので、節の順は結果に
関わらない。
-/

namespace Plin

open Infra

/-! ## 行 -/

/-- 改行も前後の空白も `#` も無い行。 -/
structure IsLine (c : Text) : Prop where
  tidy : Tidy c
  newline : '\n' ∉ c

theorem not_mem_itemLine {x : Char} (hx : IsMark x) {pad body : Text} (hpad : Blank pad)
    (hbody : x ∉ body) : x ∉ itemLine pad body := by
  have hdash : x ≠ '-' := by rcases hx with rfl | rfl | rfl <;> decide
  simp [itemLine, hdash, hx.not_mem_blank hpad, hbody]

/-- 括弧で囲んだ項目。 -/
structure IsBody (s : Text) : Prop where
  tidy : Tidy s
  newline : '\n' ∉ s
  brace : s.head? = some '\x7b'

theorem isBody_of_fields {fs : List Field} (hfs : fs ≠ []) {p : Text} (hp : Blank p)
    (h : ∀ x, IsMark x → ∀ f ∈ fs, f.Free x) :
    IsBody ('\x7b' :: fieldsText (p ++ ['\x7d']) fs) := by
  have hfree : ∀ x, x = '#' ∨ x = '\n' → x ∉ '\x7b' :: fieldsText (p ++ ['\x7d']) fs := by
    intro x hx
    have hmark : IsMark x := Or.inr hx
    have htail : x ∉ p ++ ['\x7d'] := by
      have := hmark.not_mem_blank hp
      rcases hx with rfl | rfl <;> simp [this]
    have hfields := not_mem_fieldsText (by rcases hx with rfl | rfl <;> decide)
      (by rcases hx with rfl | rfl <;> decide) htail (h x hmark)
    refine List.not_mem_cons_of_ne_of_not_mem ?_ hfields
    rcases hx with rfl | rfl <;> decide
  have hlast : ∃ t, fieldsText (p ++ ['\x7d']) fs = t ++ ['\x7d'] := by
    clear h hfree
    induction fs with
    | nil => exact absurd rfl hfs
    | cons f fs ih =>
      cases fs with
      | nil => exact ⟨f.text ++ p, by simp [fieldsText]⟩
      | cons g fs =>
        obtain ⟨t, ht⟩ := ih (by simp)
        exact ⟨f.text ++ ',' :: t, by simp [fieldsText, ht]⟩
  obtain ⟨t, ht⟩ := hlast
  refine ⟨⟨by simp, ?_, ?_, hfree _ (Or.inl rfl)⟩, hfree _ (Or.inr rfl), rfl⟩
  · rintro x hx
    obtain rfl : '\x7b' = x := by simpa using hx
    rfl
  · intro x hx
    rw [ht, ← List.cons_append, List.getLast?_concat] at hx
    obtain rfl := Option.some.inj hx
    rfl

theorem IsBody.isLine {s : Text} (h : IsBody s) : IsLine s := ⟨h.tidy, h.newline⟩

/-- 項目の行も前後に空白が無い。 -/
theorem isLine_itemLine {pad body : Text} (h : IsLine body) (hpad : Blank pad) :
    IsLine (itemLine pad body) where
  tidy := by
    refine ⟨by simp [itemLine], ?_, ?_, not_mem_itemLine (Or.inr (Or.inl rfl)) hpad h.tidy.comment⟩
    · rintro x hx
      obtain rfl : '-' = x := by simpa [itemLine] using hx
      rfl
    · intro x hx
      rw [itemLine, ← List.cons_append, List.getLast?_append_of_ne_nil _ h.tidy.nonempty] at hx
      exact h.tidy.last x hx
  newline := not_mem_itemLine (Or.inr (Or.inr rfl)) hpad h.newline

/-- 語は一行に書ける。 -/
theorem IsWord.isLine {v : Text} (hv : IsWord v) : IsLine v :=
  ⟨hv.tidy, IsMark.not_mem_word (Or.inr (Or.inr rfl)) hv⟩

/-- `name: value` の行。 -/
theorem isLine_keyValue {name p v : Text} (hname : IsWord name) (hp : Blank p) (hv : IsLine v) :
    IsLine (name ++ ':' :: (p ++ v)) := by
  have hfree : ∀ x, x = '#' ∨ x = '\n' → x ∉ name ++ ':' :: (p ++ v) := by
    intro x hx
    have hmark : IsMark x := Or.inr hx
    have hne : x ≠ ':' := by rcases hx with rfl | rfl <;> decide
    have hvalue : x ∉ v := by
      rcases hx with rfl | rfl
      · exact hv.tidy.comment
      · exact hv.newline
    simp [hmark.not_mem_word hname, hmark.not_mem_blank hp, hvalue, hne]
  refine ⟨⟨by simp, ?_, ?_, hfree _ (Or.inl rfl)⟩, hfree _ (Or.inr rfl)⟩
  · intro x hx
    rw [List.head?_append_of_ne_nil _ hname.nonempty] at hx
    exact hname.tidy.head x hx
  · intro x hx
    rw [show name ++ ':' :: (p ++ v) = name ++ ':' :: p ++ v by simp,
      List.getLast?_append_of_ne_nil _ hv.tidy.nonempty] at hx
    exact hv.tidy.last x hx

/-! ## 空行と字下げ -/

/-- 空白の後の最初の文字は、`trim` の後も最初にある。 -/
theorem trim_head {indent text : Text} {c : Char} (h : ∀ x ∈ indent, isBlankChar x = true)
    (hc : isBlankChar c = false) : ∃ t, trim (indent ++ c :: text) = c :: t := by
  have hdrop : (indent ++ c :: text).dropWhile isBlankChar = c :: text := by
    refine Text.dropWhile_append_of_all h fun x hx => ?_
    obtain rfl : c = x := by simpa using hx
    exact hc
  obtain ⟨t, ht⟩ : ∃ t, (c :: text).rdropWhile isBlankChar = c :: t := by
    have hpre := List.rdropWhile_prefix isBlankChar (l := c :: text)
    cases hr : (c :: text).rdropWhile isBlankChar with
    | nil =>
      rw [List.rdropWhile_eq_nil_iff] at hr
      exact absurd (hr c List.mem_cons_self) (by simp [hc])
    | cons d t =>
      rw [hr, List.cons_prefix_cons] at hpre
      exact ⟨t, by rw [hpre.1]⟩
  unfold trim
  rw [hdrop, ht]
  dsimp only
  cases hi : Text.indexOf [' ', '#'] (c :: t) with
  | none => exact ⟨t, rfl⟩
  | some i =>
    -- 一致は ` ` から始まるので、先頭ではない
    cases i with
    | zero =>
      have hne : ' ' ≠ c := by
        rintro rfl
        cases hc
      rw [Text.indexOf, if_neg (by simp [hne])] at hi
      obtain ⟨j, -, hj⟩ := Option.map_eq_some_iff.mp hi
      omega
    | succ i => exact ⟨t.take i, rfl⟩

/-- `#` の行は、`trim` の後も `#` で始まる。 -/
theorem trim_comment {indent text : Text} (h : ∀ c ∈ indent, isBlankChar c = true) :
    (trim (indent ++ '#' :: text)).head? = some '#' := by
  obtain ⟨t, ht⟩ := @trim_head indent text '#' h rfl
  rw [ht]
  rfl

section Run

variable (stod : Text → Option Key)

theorem LoadState.step_filler {line : Text} (h : Filler line) (st : LoadState) :
    LoadState.step stod st line = some st := by
  obtain ⟨indent, text, hindent, -, rfl | rfl⟩ := h
  · unfold step
    rw [trim_blank (isBlankChar_of_blank hindent)]
    rfl
  · unfold step
    dsimp only
    rw [if_pos (Or.inr (trim_comment (isBlankChar_of_blank hindent)))]

/-- 字下げは読み方に関わらない。 -/
theorem LoadState.step_indent {c indent trail : Text} (hc : Tidy c) (hindent : Blank indent)
    (htrail : ∀ x ∈ trail, x = ' ' ∨ x = '\t' ∨ x = '\r') (st : LoadState) :
    LoadState.step stod st (indent ++ c ++ trail) = LoadState.step stod st c := by
  have hblank : ∀ x ∈ trail, isBlankChar x = true := by
    intro x hx
    rcases htrail x hx with rfl | rfl | rfl <;> rfl
  unfold step
  rw [hc.trim_eq (isBlankChar_of_blank hindent) hblank, hc.trim_self]

/-- **空行と `#` の行と字下げは、読んだ結果に関わらない。** -/
theorem foldlM_laid {content lines : List Text} (h : Laid content lines)
    (hc : ∀ c ∈ content, IsLine c) (st : LoadState) :
    lines.foldlM (LoadState.step stod) st = content.foldlM (LoadState.step stod) st := by
  induction h generalizing st with
  | nil => rfl
  | filler hline _ ih =>
    rw [List.foldlM_cons, LoadState.step_filler stod hline]
    exact ih hc st
  | line hindent htrail _ ih =>
    obtain ⟨hhead, hrest⟩ := List.forall_mem_cons.mp hc
    rw [List.foldlM_cons, List.foldlM_cons,
      LoadState.step_indent stod hhead.tidy hindent htrail]
    exact bind_congr fun st' => ih hrest st'

/-! ## file を行に分ける -/

theorem getlines_line {l : Text} (h : '\n' ∉ l) (cur rest : Text) :
    getlines cur (l ++ '\n' :: rest) = (cur ++ l) :: getlines [] rest := by
  induction l generalizing cur with
  | nil => simp [getlines]
  | cons c l ih =>
    rw [List.mem_cons, not_or] at h
    rw [List.cons_append, getlines, if_neg (Ne.symm h.1), ih h.2]
    simp

theorem getlines_last {l : Text} (h : '\n' ∉ l) (cur : Text) (hne : cur ++ l ≠ []) :
    getlines cur l = [cur ++ l] := by
  induction l generalizing cur with
  | nil =>
    rw [List.append_nil] at hne ⊢
    rw [getlines, if_neg hne]
  | cons c l ih =>
    rw [List.mem_cons, not_or] at h
    rw [getlines, if_neg (Ne.symm h.1), ih h.2 _ (by simp)]
    simp

theorem getlines_flatMap {lines : List Text} (h : ∀ l ∈ lines, '\n' ∉ l) (rest : Text) :
    getlines [] (lines.flatMap (· ++ ['\n']) ++ rest) = lines ++ getlines [] rest := by
  induction lines with
  | nil => rfl
  | cons l lines ih =>
    obtain ⟨hl, hlines⟩ := List.forall_mem_cons.mp h
    rw [List.flatMap_cons, List.append_assoc, List.append_assoc, List.singleton_append,
      getlines_line hl, ih hlines]
    rfl

/-- 書いた行がそのまま読まれる。 -/
theorem getlines_joined {lines : List Text} {text : Text} (hj : Joined lines text)
    (h : ∀ l ∈ lines, '\n' ∉ l) : getlines [] text = lines := by
  rcases hj with rfl | ⟨first, last, hne, rfl, rfl⟩
  · have := getlines_flatMap h []
    simpa [getlines] using this
  · rw [getlines_flatMap fun l hl => h l (by simp [hl]),
      getlines_last (h last (by simp)) [] (by simpa using hne)]
    rfl

theorem newline_not_mem_laid {content lines : List Text} (h : Laid content lines)
    (hc : ∀ c ∈ content, IsLine c) : ∀ l ∈ lines, '\n' ∉ l := by
  have hblank : ∀ {s : Text}, Blank s → '\n' ∉ s := IsMark.not_mem_blank (Or.inr (Or.inr rfl))
  induction h with
  | nil => simp
  | filler hline _ ih =>
    refine List.forall_mem_cons.mpr ⟨?_, ih hc⟩
    obtain ⟨indent, text, hindent, htext, rfl | rfl⟩ := hline
    · exact hblank hindent
    · simp [hblank hindent, htext]
  | @line _ _ c indent trail hindent htrail _ ih =>
    obtain ⟨hhead, hrest⟩ := List.forall_mem_cons.mp hc
    have htrail' : '\n' ∉ trail := by
      intro hmem
      rcases htrail _ hmem with h | h | h <;> exact absurd h (by decide)
    refine List.forall_mem_cons.mpr ⟨?_, ih hrest⟩
    simp [hblank hindent, hhead.newline, htrail']

/-! ## 節 -/

namespace LoadState

theorem flush_cloud (st : LoadState) : st.flushEdge.flushEnd.cloud = st.cloud := by
  unfold flushEnd flushEdge
  split_ifs <;> rfl

theorem flush_edges (st : LoadState) : st.flushEdge.flushEnd.edges = st.flushEdge.edges := by
  unfold flushEnd
  split_ifs <;> rfl

theorem flush_ends (st : LoadState) : st.flushEdge.flushEnd.ends = st.flushEnd.ends := by
  unfold flushEnd flushEdge
  split_ifs <;> simp_all

/-- 見出しを読んだ後の状態。 -/
def enter (st : LoadState) (sec : TopologySection) : LoadState :=
  { st.flushEdge.flushEnd with sec }

theorem enter_edges (st : LoadState) (sec : TopologySection) :
    (st.enter sec).flushEdge.edges = st.flushEdge.edges := by
  unfold enter flushEnd flushEdge
  split_ifs <;> simp_all

theorem enter_ends (st : LoadState) (sec : TopologySection) :
    (st.enter sec).flushEnd.ends = st.flushEnd.ends := by
  unfold enter flushEnd flushEdge
  split_ifs <;> simp_all

theorem enter_cloud (st : LoadState) (sec : TopologySection) : (st.enter sec).cloud = st.cloud :=
  st.flush_cloud

end LoadState

/-- **行の列 `block` は、cloud を `c` で書き換え、`edges` に `es`、`ends` に `ns` を足す。** -/
def Adds (block : List Text) (c : CloudInfo → CloudInfo) (es : List EdgeEntry)
    (ns : List EndEntry) : Prop :=
  ∀ st : LoadState, ∃ st', block.foldlM (LoadState.step stod) st = some st' ∧
    st'.cloud = c st.cloud ∧ st'.flushEdge.edges = st.flushEdge.edges ++ es ∧
    st'.flushEnd.ends = st.flushEnd.ends ++ ns

variable {stod}

theorem Adds.append {a b : List Text} {c d : CloudInfo → CloudInfo} {es fs : List EdgeEntry}
    {ns ms : List EndEntry} (ha : Adds stod a c es ns) (hb : Adds stod b d fs ms) :
    Adds stod (a ++ b) (d ∘ c) (es ++ fs) (ns ++ ms) := by
  intro st
  obtain ⟨st₁, hrun₁, hcloud₁, hedges₁, hends₁⟩ := ha st
  obtain ⟨st₂, hrun₂, hcloud₂, hedges₂, hends₂⟩ := hb st₁
  refine ⟨st₂, ?_, ?_, ?_, ?_⟩
  · rw [List.foldlM_append, hrun₁]
    exact hrun₂
  · rw [hcloud₂, hcloud₁]
    rfl
  · rw [hedges₂, hedges₁, List.append_assoc]
  · rw [hends₂, hends₁, List.append_assoc]

/-! ### `cloud` -/

/-- 最初の `:` で分ける。 -/
theorem splitKv_colon {k : Text} (hk : ':' ∉ k) (v : Text) :
    splitKv (k ++ ':' :: v) = some (trim k, trim v) := by
  have hcolon : ∀ c ∈ k, (decide (c ≠ ':')) = true := by
    intro c hc
    simpa using fun h : c = ':' => hk (h ▸ hc)
  have hhead : ∀ x, (':' :: v).head? = some x → (decide (x ≠ ':')) = false := by
    intro x hx
    obtain rfl : ':' = x := by simpa using hx
    rfl
  rw [splitKv, if_pos (by simp), Text.takeWhile_append_of_all hcolon hhead,
    Text.dropWhile_append_of_all hcolon hhead, List.drop_one, List.tail_cons]

theorem splitKv_keyValue {name p v : Text} (hname : IsWord name) (hp : Blank p) (hv : Tidy v) :
    splitKv (name ++ ':' :: (p ++ v)) = some (name, v) := by
  have hvalue : trim (p ++ v) = v := by
    have := hv.trim_eq (isBlankChar_of_blank hp) (b := []) (by simp)
    rwa [List.append_nil] at this
  rw [splitKv_colon (fun hc => (hname.chars _ hc).2.2.2.2 rfl), hname.tidy.trim_self, hvalue]

/-- 見出しでない行は、その節の読み方で読まれる。 -/
theorem LoadState.step_content {line : Text} (hline : Tidy line)
    (hcloud : ¬ "cloud:".toList.isPrefixOf line) (hedges : line ≠ "edges:".toList)
    (hends : line ≠ "ends:".toList) (st : LoadState) :
    LoadState.step stod st line =
      match st.sec with
      | .none => some st
      | .cloud => st.cloudLine line
      | .edges => st.edgeLine line
      | .ends => st.endLine stod line := by
  have hcomment : line.head? ≠ some '#' := fun h => hline.comment (List.mem_of_head? h)
  unfold step
  rw [hline.trim_self]
  dsimp only
  rw [if_neg (by simp [hline.nonempty, hcomment]), if_neg hcloud, if_neg hedges]
  refine (if_neg hends).trans ?_
  cases st.sec <;> rfl

/-- field の名。 -/
def fieldNames : List Text :=
  ["id", "edge", "host", "port", "ends", "key_lo", "key_hi"].map String.toList

theorem isWord_fieldName {name : Text} (h : name ∈ fieldNames) : IsWord name := by
  simp only [fieldNames, List.map_cons, List.map_nil, List.mem_cons, List.not_mem_nil,
    or_false] at h
  rcases h with rfl | rfl | rfl | rfl | rfl | rfl | rfl
  all_goals exact ⟨by decide, by simp [isBlankChar]⟩

/-- `name: value` の行は、見出しでも、項目の始まりでも、括弧の始まりでもない。 -/
theorem not_heading_keyValue {name p v : Text} (hname : name ∈ fieldNames) (hv : v ≠ []) :
    ¬ "cloud:".toList.isPrefixOf (name ++ ':' :: (p ++ v)) ∧
      name ++ ':' :: (p ++ v) ≠ "edges:".toList ∧ name ++ ':' :: (p ++ v) ≠ "ends:".toList ∧
      (name ++ ':' :: (p ++ v)).head? ≠ some '-' ∧
      (name ++ ':' :: (p ++ v)).head? ≠ some '\x7b' := by
  simp only [fieldNames, List.map_cons, List.map_nil, List.mem_cons, List.not_mem_nil,
    or_false] at hname
  rcases hname with rfl | rfl | rfl | rfl | rfl | rfl | rfl
  all_goals simp [hv]

/-- `key: value` の行。 -/
theorem LoadState.step_keyValue {name p v : Text} (hname : name ∈ fieldNames) (hp : Blank p)
    (hv : IsLine v) (st : LoadState) :
    LoadState.step stod st (name ++ ':' :: (p ++ v)) =
      match st.sec with
      | .none => some st
      | .cloud => st.cloudLine (name ++ ':' :: (p ++ v))
      | .edges => st.edgeLine (name ++ ':' :: (p ++ v))
      | .ends => st.endLine stod (name ++ ':' :: (p ++ v)) := by
  obtain ⟨hcloud, hedges, hends, -⟩ := @not_heading_keyValue name p v hname hv.tidy.nonempty
  exact step_content (isLine_keyValue (isWord_fieldName hname) hp hv).tidy hcloud hedges hends st

theorem isWord_host : IsWord "host".toList := isWord_fieldName (by simp [fieldNames])

theorem isWord_port : IsWord "port".toList := isWord_fieldName (by simp [fieldNames])

theorem adds_cloudBlock {c : CloudInfo} {block : List Text} (h : CloudBlock c block)
    (hhost : IsHost c.host) (hport : c.port < 2 ^ 16) :
    Adds stod block (fun _ => c) [] [] := by
  obtain ⟨p, q, hp, hq, rfl⟩ := h
  intro st
  have hheading : LoadState.step stod st "cloud:".toList = some (st.enter .cloud) := rfl
  have hfirst : LoadState.step stod (st.enter .cloud) ("host:".toList ++ (p ++ c.host)) =
      some { st.enter .cloud with cloud := { st.cloud with host := c.host } } := by
    have hstep := @LoadState.step_keyValue stod "host".toList p c.host (by simp [fieldNames]) hp
      hhost.isWord.isLine (st.enter .cloud)
    refine hstep.trans ?_
    change (st.enter .cloud).cloudLine _ = _
    rw [LoadState.cloudLine, splitKv_keyValue isWord_host hp hhost.isWord.tidy]
    dsimp only
    rw [if_pos rfl, st.enter_cloud]
  have hsecond : LoadState.step stod
      { st.enter .cloud with cloud := { st.cloud with host := c.host } }
      ("port:".toList ++ (q ++ Text.printInt c.port)) =
        some { st.enter .cloud with cloud := c } := by
    have hstep := @LoadState.step_keyValue stod "port".toList q _ (by simp [fieldNames]) hq
      (isWord_printInt c.port).isLine
      { st.enter .cloud with cloud := { st.cloud with host := c.host } }
    refine hstep.trans ?_
    rw [LoadState.cloudLine, splitKv_keyValue isWord_port hq (isWord_printInt c.port).tidy]
    dsimp only
    rw [if_neg (by decide), if_pos rfl, parsePort_printInt hport]
    rfl
  refine ⟨{ st.enter .cloud with cloud := c }, ?_, rfl, ?_, ?_⟩
  · simp only [List.foldlM_cons, List.foldlM_nil, hheading, hfirst, hsecond, Option.bind_eq_bind,
      Option.bind_some, Option.pure_def]
  · rw [List.append_nil, ← st.enter_edges .cloud]
    unfold LoadState.flushEdge
    split_ifs <;> rfl
  · rw [List.append_nil, ← st.enter_ends .cloud]
    unfold LoadState.flushEnd
    split_ifs <;> rfl

/-! ### `edges` と `ends` -/

/-- 項目の行は見出しではない。 -/
theorem LoadState.step_item {pad body : Text} (hbody : IsLine body) (hpad : Blank pad)
    (st : LoadState) :
    LoadState.step stod st (itemLine pad body) =
      match st.sec with
      | .none => some st
      | .cloud => st.cloudLine (itemLine pad body)
      | .edges => st.edgeLine (itemLine pad body)
      | .ends => st.endLine stod (itemLine pad body) :=
  step_content (isLine_itemLine hbody hpad).tidy (by simp [itemLine]) (by simp [itemLine])
    (by simp [itemLine]) st

theorem head_itemLine (pad body : Text) : (itemLine pad body).head? = some '-' := rfl

theorem trim_item {pad body : Text} (hbody : Tidy body) (hpad : Blank pad) :
    trim ((itemLine pad body).drop 1) = body := by
  have := hbody.trim_eq (isBlankChar_of_blank hpad) (b := []) (by simp)
  rwa [List.append_nil] at this

theorem LoadState.step_edgeItem {pads : Nat → Text} (hpads : ∀ i, Blank (pads i)) {e : EdgeEntry}
    (hid : IsInt e.id) (hhost : IsHost e.host) (hport : e.port < 2 ^ 16) (hne : e.endIds ≠ [])
    (hids : ∀ i ∈ e.endIds, IsInt i) (st : LoadState) (hsec : st.sec = .edges) :
    LoadState.step stod st (itemLine (pads 0) (edgeBody pads e)) =
      some { st.flushEdge with inEdge := true, curEdge := e } := by
  have hbody : IsBody (edgeBody pads e) :=
    isBody_of_fields (by simp [edgeFields]) (hpads 9) fun x hx => edgeFields_free hpads hhost hx
  rw [LoadState.step_item hbody.isLine (hpads 0), hsec]
  dsimp only
  rw [LoadState.edgeLine, if_pos (head_itemLine _ _)]
  dsimp only
  rw [trim_item hbody.tidy (hpads 0), if_pos hbody.brace,
    EdgeEntry.parseInline_edgeBody hpads hid hhost hport hne hids]
  rfl

theorem LoadState.step_endItem {fmt : NumberFormat stod} {pads : Nat → Text}
    (hpads : ∀ i, Blank (pads i)) {e : EndEntry} (hid : IsInt e.id) (hedge : IsInt e.edgeId)
    (hhost : IsHost e.host) (hport : e.port < 2 ^ 16) (hlo : e.keyLo.Finite) (hhi : e.keyHi.Finite)
    (st : LoadState) (hsec : st.sec = .ends) :
    LoadState.step stod st (itemLine (pads 0) (endBody fmt pads e)) =
      some { st.flushEnd with inEnd := true, curEnd := e } := by
  have hbody : IsBody (endBody fmt pads e) :=
    isBody_of_fields (by simp [endFields]) (hpads 14) fun x hx => endFields_free hpads hhost hx
  rw [LoadState.step_item hbody.isLine (hpads 0), hsec]
  dsimp only
  rw [LoadState.endLine, if_pos (head_itemLine _ _)]
  dsimp only
  rw [trim_item hbody.tidy (hpads 0), if_pos hbody.brace,
    EndEntry.parseInline_endBody hpads hid hedge hhost hport hlo hhi]
  rfl

/-- 項目を読むごとに、前の項目が確定する。 -/
theorem foldlM_edgeItems {edges : List EdgeEntry} {items : List Text}
    (h : List.Forall₂ (fun (e : EdgeEntry) line => ∃ pads : Nat → Text,
      (∀ i, Blank (pads i)) ∧ line = itemLine (pads 0) (edgeBody pads e)) edges items)
    (hedges : ∀ e ∈ edges, IsInt e.id ∧ IsHost e.host ∧ e.port < 2 ^ 16 ∧ e.endIds ≠ [] ∧
      ∀ i ∈ e.endIds, IsInt i) (st : LoadState) (hsec : st.sec = .edges) :
    ∃ st', items.foldlM (LoadState.step stod) st = some st' ∧ st'.cloud = st.cloud ∧
      st'.flushEdge.edges = st.flushEdge.edges ++ edges ∧
      st'.flushEnd.ends = st.flushEnd.ends := by
  induction h generalizing st with
  | nil => exact ⟨st, rfl, rfl, by simp, rfl⟩
  | @cons e line edges items hline hrest ih =>
    obtain ⟨pads, hpads, rfl⟩ := hline
    obtain ⟨⟨hid, hhost, hport, hne, hids⟩, hedges'⟩ := List.forall_mem_cons.mp hedges
    have hstep := @LoadState.step_edgeItem stod _ hpads _ hid hhost hport hne hids st hsec
    have hsec' : st.flushEdge.sec = .edges := by
      rw [← hsec, LoadState.flushEdge]
      split_ifs <;> rfl
    obtain ⟨st', hrun, hcloud, hedge, hend⟩ :=
      ih hedges' { st.flushEdge with inEdge := true, curEdge := e } hsec'
    refine ⟨st', ?_, hcloud.trans ?_, hedge.trans ?_, hend.trans ?_⟩
    · rw [List.foldlM_cons, hstep]
      exact hrun
    · unfold LoadState.flushEdge
      split_ifs <;> rfl
    · simp [LoadState.flushEdge]
    · unfold LoadState.flushEdge LoadState.flushEnd
      split_ifs <;> simp_all

theorem foldlM_endItems {fmt : NumberFormat stod} {ends : List EndEntry} {items : List Text}
    (h : List.Forall₂ (fun (e : EndEntry) line => ∃ pads : Nat → Text,
      (∀ i, Blank (pads i)) ∧ line = itemLine (pads 0) (endBody fmt pads e)) ends items)
    (hends : ∀ e ∈ ends, IsInt e.id ∧ IsInt e.edgeId ∧ IsHost e.host ∧ e.port < 2 ^ 16 ∧
      e.keyLo.Finite ∧ e.keyHi.Finite) (st : LoadState) (hsec : st.sec = .ends) :
    ∃ st', items.foldlM (LoadState.step stod) st = some st' ∧ st'.cloud = st.cloud ∧
      st'.flushEdge.edges = st.flushEdge.edges ∧
      st'.flushEnd.ends = st.flushEnd.ends ++ ends := by
  induction h generalizing st with
  | nil => exact ⟨st, rfl, rfl, rfl, by simp⟩
  | @cons e line ends items hline hrest ih =>
    obtain ⟨pads, hpads, rfl⟩ := hline
    obtain ⟨⟨hid, hedge, hhost, hport, hlo, hhi⟩, hends'⟩ := List.forall_mem_cons.mp hends
    have hstep := @LoadState.step_endItem stod fmt _ hpads _ hid hedge hhost hport hlo hhi st hsec
    have hsec' : st.flushEnd.sec = .ends := by
      rw [← hsec, LoadState.flushEnd]
      split_ifs <;> rfl
    obtain ⟨st', hrun, hcloud, hedge', hend⟩ :=
      ih hends' { st.flushEnd with inEnd := true, curEnd := e } hsec'
    refine ⟨st', ?_, hcloud.trans ?_, hedge'.trans ?_, hend.trans ?_⟩
    · rw [List.foldlM_cons, hstep]
      exact hrun
    · unfold LoadState.flushEnd
      split_ifs <;> rfl
    · unfold LoadState.flushEdge LoadState.flushEnd
      split_ifs <;> simp_all
    · simp [LoadState.flushEnd]

theorem adds_edgesBlock {edges : List EdgeEntry} {block : List Text} (h : EdgesBlock edges block)
    (hedges : ∀ e ∈ edges, IsInt e.id ∧ IsHost e.host ∧ e.port < 2 ^ 16 ∧ e.endIds ≠ [] ∧
      ∀ i ∈ e.endIds, IsInt i) : Adds stod block id edges [] := by
  obtain ⟨items, rfl, hitems⟩ := h
  intro st
  have hheading : LoadState.step stod st "edges:".toList = some (st.enter .edges) := rfl
  obtain ⟨st', hrun, hcloud, hedge, hend⟩ :=
    @foldlM_edgeItems stod _ _ hitems hedges (st.enter .edges) rfl
  refine ⟨st', ?_, ?_, ?_, ?_⟩
  · rw [List.foldlM_cons, hheading]
    exact hrun
  · rw [hcloud, st.enter_cloud]
    rfl
  · rw [hedge, st.enter_edges]
  · rw [hend, st.enter_ends, List.append_nil]

theorem adds_endsBlock {fmt : NumberFormat stod} {ends : List EndEntry} {block : List Text}
    (h : EndsBlock fmt ends block)
    (hends : ∀ e ∈ ends, IsInt e.id ∧ IsInt e.edgeId ∧ IsHost e.host ∧ e.port < 2 ^ 16 ∧
      e.keyLo.Finite ∧ e.keyHi.Finite) : Adds stod block id [] ends := by
  obtain ⟨items, rfl, hitems⟩ := h
  intro st
  have hheading : LoadState.step stod st "ends:".toList = some (st.enter .ends) := rfl
  obtain ⟨st', hrun, hcloud, hedge, hend⟩ := foldlM_endItems hitems hends (st.enter .ends) rfl
  refine ⟨st', ?_, ?_, ?_, ?_⟩
  · rw [List.foldlM_cons, hheading]
    exact hrun
  · rw [hcloud, st.enter_cloud]
    rfl
  · rw [hedge, st.enter_edges, List.append_nil]
  · rw [hend, st.enter_ends]

/-! ### 節の行 -/

theorem isLine_heading {s : Text} (h : s = "cloud:".toList ∨ s = "edges:".toList ∨
    s = "ends:".toList) : IsLine s := by
  rcases h with rfl | rfl | rfl
  all_goals
    refine ⟨⟨by decide, ?_, ?_, by decide⟩, by decide⟩
    · rintro x hx
      cases hx
      rfl
    · rintro x hx
      cases hx
      rfl

theorem isLine_cloudBlock {c : CloudInfo} {block : List Text} (h : CloudBlock c block)
    (hhost : IsHost c.host) : ∀ l ∈ block, IsLine l := by
  obtain ⟨p, q, hp, hq, rfl⟩ := h
  simp only [List.forall_mem_cons]
  exact ⟨isLine_heading (Or.inl rfl),
    @isLine_keyValue "host".toList p c.host isWord_host hp hhost.isWord.isLine,
    @isLine_keyValue "port".toList q _ isWord_port hq (isWord_printInt _).isLine, by simp⟩

theorem isLine_edgesBlock {edges : List EdgeEntry} {block : List Text} (h : EdgesBlock edges block)
    (hhost : ∀ e ∈ edges, IsHost e.host) : ∀ l ∈ block, IsLine l := by
  obtain ⟨items, rfl, hitems⟩ := h
  refine List.forall_mem_cons.mpr ⟨isLine_heading (Or.inr (Or.inl rfl)), ?_⟩
  induction hitems with
  | nil => simp
  | @cons e line edges items hline _ ih =>
    obtain ⟨pads, hpads, rfl⟩ := hline
    obtain ⟨hhead, hrest⟩ := List.forall_mem_cons.mp hhost
    refine List.forall_mem_cons.mpr ⟨isLine_itemLine (IsBody.isLine ?_) (hpads 0), ih hrest⟩
    exact isBody_of_fields (by simp [edgeFields]) (hpads 9) fun x hx =>
      edgeFields_free hpads hhead hx

theorem isLine_endsBlock {fmt : NumberFormat stod} {ends : List EndEntry} {block : List Text}
    (h : EndsBlock fmt ends block) (hhost : ∀ e ∈ ends, IsHost e.host) :
    ∀ l ∈ block, IsLine l := by
  obtain ⟨items, rfl, hitems⟩ := h
  refine List.forall_mem_cons.mpr ⟨isLine_heading (Or.inr (Or.inr rfl)), ?_⟩
  induction hitems with
  | nil => simp
  | @cons e line ends items hline _ ih =>
    obtain ⟨pads, hpads, rfl⟩ := hline
    obtain ⟨hhead, hrest⟩ := List.forall_mem_cons.mp hhost
    refine List.forall_mem_cons.mpr ⟨isLine_itemLine (IsBody.isLine ?_) (hpads 0), ih hrest⟩
    exact isBody_of_fields (by simp [endFields]) (hpads 14) fun x hx =>
      endFields_free hpads hhead hx

omit stod in
/-- 三つの並べ替え。 -/
theorem perm_three {α : Type} {a b c : α} {l : List α} (h : l.Perm [a, b, c]) :
    l = [a, b, c] ∨ l = [b, a, c] ∨ l = [c, b, a] ∨ l = [b, c, a] ∨ l = [c, a, b] ∨
      l = [a, c, b] := by
  have hperms : [a, b, c].permutations =
      [[a, b, c], [b, a, c], [c, b, a], [b, c, a], [c, a, b], [a, c, b]] := by
    simp [List.permutations]
  have hmem := List.mem_permutations.mpr h
  rw [hperms] at hmem
  simpa using hmem

/-- **三つの節は、どの順に書いても同じ結果になる。** -/
theorem adds_blocks {a b c : List Text} {cloud : CloudInfo} {es : List EdgeEntry}
    {ns : List EndEntry} (ha : Adds stod a (fun _ => cloud) [] []) (hb : Adds stod b id es [])
    (hc : Adds stod c id [] ns) {blocks : List (List Text)} (h : blocks.Perm [a, b, c]) :
    Adds stod blocks.flatten (fun _ => cloud) es ns := by
  rcases perm_three h with rfl | rfl | rfl | rfl | rfl | rfl
  · simpa using ha.append (hb.append hc)
  · simpa using hb.append (ha.append hc)
  · simpa using hc.append (hb.append ha)
  · simpa using hb.append (hc.append ha)
  · simpa using hc.append (ha.append hb)
  · simpa using ha.append (hc.append hb)

/-- **配置の往復。** 書いた配置は、同じ cloud、同じ順の edge、`key_lo` の順に並べた同じ端点として
読み戻される。字下げ、空行、`#` の行、節の順は結果に関わらない。 -/
theorem topology_roundtrip (fmt : NumberFormat stod) (sorter : EndSorter) (port : Nat)
    {t : Topology} (ht : t.Printable) {text : Text} (h : Renders fmt t text) :
    ∃ t', Topology.load stod sorter port text = .ok t' ∧ t'.cloud = t.cloud ∧
      t'.edges = t.edges ∧ t'.ends.Perm t.ends ∧
      t'.ends.Pairwise fun a b => a.keyLo ≤ b.keyLo := by
  obtain ⟨cloud, edges, ends, blocks, lines, hcloud, hedges, hends, hperm, hlaid, hjoined⟩ := h
  have hadds : Adds stod blocks.flatten (fun _ => t.cloud) t.edges t.ends :=
    adds_blocks (adds_cloudBlock hcloud ht.cloudHost ht.cloudPort.2)
      (adds_edgesBlock hedges ht.edges) (adds_endsBlock hends ht.ends) hperm
  have hlines : ∀ l ∈ blocks.flatten, IsLine l := by
    intro l hl
    obtain ⟨block, hblock, hl⟩ := List.mem_flatten.mp hl
    have hmem := hperm.subset hblock
    simp only [List.mem_cons, List.not_mem_nil, or_false] at hmem
    rcases hmem with rfl | rfl | rfl
    · exact isLine_cloudBlock hcloud ht.cloudHost l hl
    · exact isLine_edgesBlock hedges (fun e he => (ht.edges e he).2.1) l hl
    · exact isLine_endsBlock hends (fun e he => (ht.ends e he).2.2.1) l hl
  obtain ⟨st, hrun, hc, he, hn⟩ := hadds (LoadState.initial port)
  have hinit : (LoadState.initial port).flushEdge.edges = [] ∧
      (LoadState.initial port).flushEnd.ends = [] := ⟨rfl, rfl⟩
  rw [hinit.1, List.nil_append] at he
  rw [hinit.2, List.nil_append] at hn
  refine ⟨{ cloud := t.cloud, edges := t.edges, ends := sorter.sort t.ends }, ?_, rfl, rfl,
    sorter.perm _, sorter.sorted _⟩
  unfold Topology.load
  rw [getlines_joined hjoined (newline_not_mem_laid hlaid hlines), foldlM_laid stod hlaid hlines,
    hrun]
  dsimp only
  rw [st.flush_cloud, st.flush_edges, st.flush_ends, hc, he, hn, if_neg, if_neg]
  · simp [ht.someEdge, ht.someEnd]
  · have := ht.cloudPort.1
    simp only [ht.cloudHost.nonempty, false_or]
    omega

end Run

/-! ## file の例 -/

/-- 番号を `.` の個数で書いた鍵も読む `stod`。 -/
def dotStod : Text → Option Key
  | '+' :: s => some (Key.ofOrd s.length)
  | '-' :: s => some (Key.ofOrd (-s.length))
  | s => natStod s

/-- 百より小さい整数の鍵だけを十進で書く。 -/
def dotPrint (k : Key) : Text :=
  ((List.range 100).find? fun n => decide (Key.ofNat n = k)).elim
    (if 0 ≤ k.ord then '+' :: List.replicate k.ord.toNat '.'
      else '-' :: List.replicate (-k.ord).toNat '.')
    (Nat.toDigits 10)

theorem dotPrint_cases (k : Key) :
    (∃ n ∈ List.range 100, k = Key.ofNat n ∧ dotPrint k = Nat.toDigits 10 n) ∨
      dotPrint k = if 0 ≤ k.ord then '+' :: List.replicate k.ord.toNat '.'
        else '-' :: List.replicate (-k.ord).toNat '.' := by
  cases hfind : (List.range 100).find? fun n => decide (Key.ofNat n = k) with
  | none => exact Or.inr (by rw [dotPrint, hfind, Option.elim_none])
  | some n =>
    have hk : decide (Key.ofNat n = k) = true := @List.find?_some _ _ n _ hfind
    exact Or.inl ⟨n, List.mem_of_find?_eq_some hfind, (of_decide_eq_true hk).symm,
      by rw [dotPrint, hfind, Option.elim_some]⟩

theorem dotStod_toDigits : ∀ n ∈ List.range 100,
    dotStod (Nat.toDigits 10 n) = some (Key.ofNat n) := by
  decide +kernel

def dotFormat : NumberFormat dotStod where
  print := dotPrint
  inverts k _ := by
    rcases dotPrint_cases k with ⟨n, hn, rfl, hprint⟩ | hprint
    · rw [hprint]
      exact dotStod_toDigits n hn
    · rw [hprint]
      split_ifs with hpos
      · rw [dotStod, List.length_replicate, Int.toNat_of_nonneg hpos]
        exact congrArg some (Key.ext (Key.ord_ofOrd k.lower k.upper))
      · rw [dotStod, List.length_replicate, Int.toNat_of_nonneg (by omega), neg_neg]
        exact congrArg some (Key.ext (Key.ord_ofOrd k.lower k.upper))
  nonempty k := by
    rcases dotPrint_cases k with ⟨n, -, -, hprint⟩ | hprint
    · rw [hprint]
      exact Nat.toDigits_ne_nil
    · rw [hprint]
      split_ifs <;> simp
  chars k c hc := by
    rcases dotPrint_cases k with ⟨n, -, -, hprint⟩ | hprint
    · rw [hprint] at hc
      exact Or.inl (Nat.isDigit_of_mem_toDigits (by decide) (by decide) hc)
    · rw [hprint] at hc
      split_ifs at hc
      · rcases List.mem_cons.mp hc with rfl | hc
        · decide
        · rw [(List.mem_replicate.mp hc).2]
          decide
      · rcases List.mem_cons.mp hc with rfl | hc
        · decide
        · rw [(List.mem_replicate.mp hc).2]
          decide

/-- 字下げの空白。`tight` の場所には空白を置かない。 -/
def spaced (tight : List Nat) (i : Nat) : Text := if i ∈ tight then [] else [' ']

theorem blank_spaced (tight : List Nat) (i : Nat) : Blank (spaced tight i) := by
  unfold spaced Blank
  split_ifs <;> simp

theorem blank_replicate (n : Nat) : Blank (List.replicate n ' ') := fun _ hc =>
  Or.inl (List.mem_replicate.mp hc).2

/-- 空白 `n` 個で字下げした行。 -/
theorem Laid.indented (n : Nat) {c : Text} {content lines : List Text} (h : Laid content lines) :
    Laid (c :: content) ((List.replicate n ' ' ++ c) :: lines) := by
  have hline := @Laid.line _ _ c _ [] (blank_replicate n) (by simp) h
  rwa [List.append_nil] at hline

theorem isHost_letter {c : Char} (h : c = 'a' ∨ c = 'b' ∨ c = 'c') : IsHost [c] := by
  refine ⟨by simp, fun x hx => ?_⟩
  obtain rfl := List.mem_singleton.mp hx
  rcases h with rfl | rfl | rfl <;> decide

/-- file に書かれた順の配置。 -/
def wideWritten : Topology := { wideTopology with ends := wideTopology.ends.rotate 2 }

theorem wideWritten_printable : wideWritten.Printable where
  cloudHost := isHost_letter (by simp)
  cloudPort := by decide
  someEdge := by decide
  edges e he := by
    rcases List.mem_pair.mp he with rfl | rfl
    all_goals
      refine ⟨⟨by decide, by decide⟩, isHost_letter (by simp), by decide, by decide, ?_⟩
      simp [IsInt]
  someEnd := by decide
  ends e he := by
    have he' : e ∈ wideTopology.ends := List.mem_rotate.mp he
    simp only [wideTopology, List.mem_cons, List.not_mem_nil, or_false] at he'
    rcases he' with rfl | rfl | rfl
    all_goals
      exact ⟨⟨by decide, by decide⟩, ⟨by decide, by decide⟩, isHost_letter (by simp), by decide,
        ⟨by decide +kernel, by decide +kernel⟩, ⟨by decide +kernel, by decide +kernel⟩⟩

/-- 見本の file は、見本の配置を書いたものである。 -/
theorem wideWritten_renders : Renders dotFormat wideWritten wideTopologyText := by
  refine ⟨_, _, _, _, _, ⟨[' '], [' '], blank_replicate 1, blank_replicate 1, rfl⟩,
    ⟨_, rfl, .cons ⟨spaced [10], blank_spaced _, rfl⟩
      (.cons ⟨spaced [10], blank_spaced _, rfl⟩ .nil)⟩,
    ⟨_, rfl, .cons ⟨spaced [11, 13], blank_spaced _, rfl⟩
      (.cons ⟨spaced [11, 13], blank_spaced _, rfl⟩
        (.cons ⟨spaced [11, 13], blank_spaced _, rfl⟩ .nil))⟩, .refl _,
    .indented 0 (.indented 2 (.indented 2 (.indented 0 (.indented 2 (.indented 2 (.indented 0
      (.indented 2 (.indented 2 (.indented 2 .nil))))))))), Or.inl ?_⟩
  -- 文字列の定数を文字の列に直してから比べる
  unfold wideTopologyText
  rewrite [String.toList_append, String.toList_append, String.toList_append, String.toList_append,
    String.toList_append, String.toList_ofList, String.toList_ofList, String.toList_ofList,
    String.toList_ofList, String.toList_ofList, String.toList_ofList]
  decide +kernel

/-- 二つの Edge と三つの End を、End を鍵の順に並べずに書いた file。 -/
theorem topology_roundtrip_wide :
    ∃ t', Topology.load dotStod stableSorter 0 wideTopologyText = .ok t' ∧
      t'.edges = wideWritten.edges ∧ t'.ends.Perm wideWritten.ends ∧
      t'.ends.Pairwise fun a b => a.keyLo ≤ b.keyLo := by
  obtain ⟨t', hload, -, hedges, hends⟩ := topology_roundtrip dotFormat stableSorter 0
    wideWritten_printable wideWritten_renders
  exact ⟨t', hload, hedges, hends⟩

end Plin
