import Plin.Common.Topology

/-!
# 配置の file の書き方

`topology.yaml` の書き方（`Renders`）と、一行の項目が元の値に読み戻されること（`parseInline_edgeBody` /
`parseInline_endBody`）。行の字下げ、空行、`#` の行、区切りの後の空白は自由で、節の順も問わない。

**項目の field は `name:` の最初の場所で見つかる**。`:` は field の名の後にしか現れず、どの名も他の名で
終わらないからである。
-/

namespace Plin

open Infra

/-! ## 書き方 -/

/-- 行の中の空白。 -/
def Blank (s : Text) : Prop := ∀ c ∈ s, c = ' ' ∨ c = '\t'

/-- host の名。 -/
structure IsHost (h : Text) : Prop where
  nonempty : h ≠ []
  chars : ∀ c ∈ h, Text.isSpace c = false ∧ c ≠ ':' ∧ c ≠ ',' ∧ c ≠ '#' ∧ c ≠ '[' ∧ c ≠ ']' ∧
    c ≠ '\x7b' ∧ c ≠ '\x7d'

/-- `int` の値。 -/
def IsInt (n : Int) : Prop := -2 ^ 31 ≤ n ∧ n < 2 ^ 31

/-- 有限の鍵。 -/
def Key.Finite (k : Key) : Prop := -infOrd < k.ord ∧ k.ord < infOrd

/-- `double` の書き方。`stod` で読み戻せて、数字と符号と小数点と `e` だけを使う。 -/
structure NumberFormat (stod : Text → Option Key) where
  print : Key → Text
  inverts : ∀ k, k.Finite → stod (print k) = some k
  nonempty : ∀ k, print k ≠ []
  chars : ∀ k, ∀ c ∈ print k, c.isDigit = true ∨ c = '+' ∨ c = '-' ∨ c = '.' ∨ c = 'e' ∨ c = 'E'

/-- 一つの field。`gap` は名の前の空白、`pad` は `:` の後の空白である。 -/
structure Field where
  gap : Text
  name : Text
  pad : Text
  value : Text

def Field.text (f : Field) : Text := f.gap ++ f.name ++ ':' :: (f.pad ++ f.value)

/-- `,` で区切った field の列。後ろに `tail` が続く。 -/
def fieldsText (tail : Text) : List Field → Text
  | [] => tail
  | [f] => f.text ++ tail
  | f :: fs => f.text ++ ',' :: fieldsText tail fs

/-- `,` で区切った整数の列。 -/
def intListText (pads : Nat → Text) (i : Nat) : List Int → Text
  | [] => []
  | [x] => pads i ++ Text.printInt x
  | x :: xs => pads i ++ Text.printInt x ++ ',' :: intListText pads (i + 1) xs

/-- `edges` の項目の field。 -/
def edgeFields (pads : Nat → Text) (e : EdgeEntry) : List Field :=
  [⟨pads 1, "id".toList, pads 2, Text.printInt e.id⟩,
    ⟨pads 3, "host".toList, pads 4, e.host⟩,
    ⟨pads 5, "port".toList, pads 6, Text.printInt e.port⟩,
    ⟨pads 7, "ends".toList, pads 8, '[' :: (intListText pads 10 e.endIds ++ [']'])⟩]

/-- `{ id: 1, host: 127.0.0.1, port: 7101, ends: [1, 2] }`。 -/
def edgeBody (pads : Nat → Text) (e : EdgeEntry) : Text :=
  '\x7b' :: fieldsText (pads 9 ++ ['\x7d']) (edgeFields pads e)

/-- `ends` の項目の field。 -/
def endFields {stod : Text → Option Key} (fmt : NumberFormat stod) (pads : Nat → Text)
    (e : EndEntry) : List Field :=
  [⟨pads 1, "id".toList, pads 2, Text.printInt e.id⟩,
    ⟨pads 3, "edge".toList, pads 4, Text.printInt e.edgeId⟩,
    ⟨pads 5, "host".toList, pads 6, e.host⟩,
    ⟨pads 7, "port".toList, pads 8, Text.printInt e.port⟩,
    ⟨pads 9, "key_range".toList, pads 10, '[' :: (pads 11 ++ fmt.print e.keyLo ++
      ',' :: (pads 12 ++ fmt.print e.keyHi ++ pads 13 ++ [']']))⟩]

/-- `{ id: 1, edge: 1, host: 127.0.0.1, port: 7201, key_range: [-1e13, 0] }`。 -/
def endBody {stod : Text → Option Key} (fmt : NumberFormat stod) (pads : Nat → Text)
    (e : EndEntry) : Text :=
  '\x7b' :: fieldsText (pads 14 ++ ['\x7d']) (endFields fmt pads e)

/-- 項目の行。 -/
def itemLine (pad body : Text) : Text := '-' :: (pad ++ body)

/-- `cloud` の節。 -/
def CloudBlock (c : CloudInfo) (lines : List Text) : Prop :=
  ∃ p q, Blank p ∧ Blank q ∧
    lines = ["cloud:".toList, "host:".toList ++ (p ++ c.host),
      "port:".toList ++ (q ++ Text.printInt c.port)]

/-- `edges` の節。 -/
def EdgesBlock (edges : List EdgeEntry) (lines : List Text) : Prop :=
  ∃ items, lines = "edges:".toList :: items ∧ List.Forall₂ (fun (e : EdgeEntry) line =>
    ∃ pads : Nat → Text, (∀ i, Blank (pads i)) ∧ line = itemLine (pads 0) (edgeBody pads e))
      edges items

/-- `ends` の節。 -/
def EndsBlock {stod : Text → Option Key} (fmt : NumberFormat stod) (ends : List EndEntry)
    (lines : List Text) : Prop :=
  ∃ items, lines = "ends:".toList :: items ∧ List.Forall₂ (fun (e : EndEntry) line =>
    ∃ pads : Nat → Text, (∀ i, Blank (pads i)) ∧ line = itemLine (pads 0) (endBody fmt pads e))
      ends items

/-- 空行か `#` の行。 -/
def Filler (line : Text) : Prop :=
  ∃ indent text, Blank indent ∧ '\n' ∉ text ∧
    (line = indent ∨ line = indent ++ '#' :: text)

/-- 字下げと行末の空白を付け、間に空行と `#` の行を挟む。 -/
inductive Laid : List Text → List Text → Prop
  | nil : Laid [] []
  | filler {content lines : List Text} {line : Text} (h : Filler line)
      (hrest : Laid content lines) : Laid content (line :: lines)
  | line {content lines : List Text} {c indent trail : Text} (hindent : Blank indent)
      (htrail : ∀ x ∈ trail, x = ' ' ∨ x = '\t' ∨ x = '\r') (hrest : Laid content lines) :
      Laid (c :: content) ((indent ++ c ++ trail) :: lines)

/-- 行を改行で終える。最後の行が空でなければ、その改行は無くてもよい。 -/
def Joined (lines : List Text) (text : Text) : Prop :=
  text = lines.flatMap (· ++ ['\n']) ∨
    ∃ first last, last ≠ [] ∧ lines = first ++ [last] ∧ text = first.flatMap (· ++ ['\n']) ++ last

/-- 配置 `t` を書いた file。 -/
def Renders {stod : Text → Option Key} (fmt : NumberFormat stod) (t : Topology) (text : Text) :
    Prop :=
  ∃ (cloud edges ends : List Text) (blocks : List (List Text)) (lines : List Text),
    CloudBlock t.cloud cloud ∧ EdgesBlock t.edges edges ∧ EndsBlock fmt t.ends ends ∧
    blocks.Perm [cloud, edges, ends] ∧ Laid blocks.flatten lines ∧ Joined lines text

/-- 書ける配置。 -/
structure Topology.Printable (t : Topology) : Prop where
  cloudHost : IsHost t.cloud.host
  cloudPort : 0 < t.cloud.port ∧ t.cloud.port < 2 ^ 16
  someEdge : t.edges ≠ []
  edges : ∀ e ∈ t.edges, IsInt e.id ∧ IsHost e.host ∧ e.port < 2 ^ 16 ∧ e.endIds ≠ [] ∧
    ∀ i ∈ e.endIds, IsInt i
  someEnd : t.ends ≠ []
  ends : ∀ e ∈ t.ends, IsInt e.id ∧ IsInt e.edgeId ∧ IsHost e.host ∧ e.port < 2 ^ 16 ∧
    e.keyLo.Finite ∧ e.keyHi.Finite

/-! ## `trim` -/

/-- 前後に空白が無く、`#` を含まない。 -/
structure Tidy (s : Text) : Prop where
  nonempty : s ≠ []
  head : ∀ x, s.head? = some x → isBlankChar x = false
  last : ∀ x, s.getLast? = some x → isBlankChar x = false
  comment : '#' ∉ s

theorem indexOf_comment {s : Text} (h : '#' ∉ s) : Text.indexOf [' ', '#'] s = none := by
  induction s with
  | nil => rfl
  | cons c s ih =>
    rw [List.mem_cons, not_or] at h
    rw [Text.indexOf, if_neg, ih h.2]
    · rfl
    · intro hpre
      rw [List.isPrefixOf_iff_prefix, List.cons_prefix_cons] at hpre
      exact h.2 (hpre.2.subset (by simp))

theorem isBlankChar_of_blank {s : Text} (h : Blank s) : ∀ c ∈ s, isBlankChar c = true := by
  intro c hc
  rcases h c hc with rfl | rfl <;> rfl

theorem rdropWhile_append {a b : Text} (ha : ∀ x, a.getLast? = some x → isBlankChar x = false)
    (hb : ∀ c ∈ b, isBlankChar c = true) : (a ++ b).rdropWhile isBlankChar = a := by
  unfold List.rdropWhile
  rw [List.reverse_append, Text.dropWhile_append_of_all (by simpa using hb) (by simpa using ha),
    List.reverse_reverse]

/-- `trim` は前後の空白だけを落とす。 -/
theorem Tidy.trim_eq {s a b : Text} (h : Tidy s) (ha : ∀ c ∈ a, isBlankChar c = true)
    (hb : ∀ c ∈ b, isBlankChar c = true) : trim (a ++ s ++ b) = s := by
  have hhead : ∀ x, (s ++ b).head? = some x → isBlankChar x = false := by
    intro x hx
    rw [List.head?_append_of_ne_nil _ h.nonempty] at hx
    exact h.head x hx
  unfold trim
  rw [List.append_assoc, Text.dropWhile_append_of_all ha hhead, rdropWhile_append h.last hb]
  dsimp only
  rw [indexOf_comment h.comment]

theorem Tidy.trim_self {s : Text} (h : Tidy s) : trim s = s := by
  have := h.trim_eq (a := []) (b := []) (by simp) (by simp)
  simpa using this

theorem trim_blank {s : Text} (h : ∀ c ∈ s, isBlankChar c = true) : trim s = [] := by
  unfold trim
  have : s.dropWhile isBlankChar = [] := List.dropWhile_eq_nil_iff.mpr h
  rw [this]
  rfl

/-! ## field を探す -/

/-- field の後ろ。 -/
def afterFields (tail : Text) : List Field → Text
  | [] => tail
  | fs => ',' :: fieldsText tail fs

theorem fieldsText_cons (tail : Text) (f : Field) (fs : List Field) :
    fieldsText tail (f :: fs) =
      f.gap ++ f.name ++ ':' :: (f.pad ++ f.value ++ afterFields tail fs) := by
  cases fs with
  | nil => simp [fieldsText, Field.text, afterFields]
  | cons g fs => simp [fieldsText, Field.text, afterFields]

/-- 文字 `x` を含まない field。 -/
def Field.Free (x : Char) (f : Field) : Prop := x ∉ f.gap ∧ x ∉ f.name ∧ x ∉ f.pad ∧ x ∉ f.value

/-- `:` を含まない field。 -/
def Field.Plain (f : Field) : Prop := f.Free ':'

/-- **`name:` は、その名の field で見つかる。** -/
theorem afterName_fieldsText (tail : Text) (f : Field) (hf : f.Plain) (pre post : List Field)
    (hpre : ∀ g ∈ pre, g.Plain ∧ ¬ f.name <:+ g.name ∧ ¬ g.name <:+ f.name) {lead : Text}
    (hlead : ':' ∉ lead) :
    afterName f.name (lead ++ fieldsText tail (pre ++ f :: post)) =
      some (f.pad ++ f.value ++ afterFields tail post) := by
  induction pre generalizing lead with
  | nil =>
    have hfrag : ':' ∉ lead ++ f.gap := by simp [hlead, hf.1]
    have hindex := Text.indexOf_of_suffix hf.2.1 hfrag (f.pad ++ f.value ++ afterFields tail post)
    have htext : lead ++ fieldsText tail ([] ++ f :: post) =
        lead ++ f.gap ++ f.name ++ ':' :: (f.pad ++ f.value ++ afterFields tail post) := by
      rw [List.nil_append, fieldsText_cons]
      simp
    rw [afterName, htext, hindex, Option.map_some]
    congr 1
    rw [show lead ++ f.gap ++ f.name ++ ':' :: (f.pad ++ f.value ++ afterFields tail post) =
      (lead ++ f.gap ++ f.name ++ [':']) ++ (f.pad ++ f.value ++ afterFields tail post) by simp]
    exact List.drop_left' (by simp; omega)
  | cons g pre ih =>
    obtain ⟨⟨hg, hn₁, hn₂⟩, hrest⟩ := List.forall_mem_cons.mp hpre
    have hfrag : ':' ∉ lead ++ g.gap ++ g.name := by simp [hlead, hg.1, hg.2.1]
    have hafter : afterFields tail (pre ++ f :: post) =
        ',' :: fieldsText tail (pre ++ f :: post) := by
      cases pre <;> rfl
    have hlead' : ':' ∉ g.pad ++ g.value ++ [','] := by simp [hg.2.2.1, hg.2.2.2]
    have htext : lead ++ fieldsText tail (g :: pre ++ f :: post) =
        lead ++ g.gap ++ g.name ++ ':' ::
          (g.pad ++ g.value ++ [','] ++ fieldsText tail (pre ++ f :: post)) := by
      rw [List.cons_append, fieldsText_cons, hafter]
      simp
    have hindex := Text.indexOf_of_not_suffix hf.2.1 hfrag
      (Text.not_suffix_append hn₁ hn₂ (lead ++ g.gap))
      (g.pad ++ g.value ++ [','] ++ fieldsText tail (pre ++ f :: post))
    have hih := ih hrest hlead'
    rw [afterName] at hih
    obtain ⟨pos, hpos, hdrop⟩ := Option.map_eq_some_iff.mp hih
    rw [afterName, htext, hindex, hpos, Option.map_some, Option.map_some]
    congr 1
    rw [← hdrop]
    rw [show lead ++ g.gap ++ g.name ++ ':' ::
        (g.pad ++ g.value ++ [','] ++ fieldsText tail (pre ++ f :: post)) =
      (lead ++ g.gap ++ g.name ++ [':']) ++
        (g.pad ++ g.value ++ [','] ++ fieldsText tail (pre ++ f :: post)) by simp,
      show pos + ((lead ++ g.gap ++ g.name).length + 1) + (f.name.length + 1) =
        (lead ++ g.gap ++ g.name ++ [':']).length + (pos + (f.name.length + 1)) by
          simp only [List.length_append, List.length_singleton]; omega,
      ← List.drop_drop, List.drop_left]

/-- どの名も他の名で終わらない。 -/
def NamesApart (fs : List Field) : Prop :=
  (fs.map Field.name).Pairwise fun a b => ¬ b <:+ a ∧ ¬ a <:+ b

/-- field の列から、`i` 番目の field を探す。 -/
theorem afterName_field {fs : List Field} {i : Nat} {f : Field} (hget : fs[i]? = some f)
    (hplain : ∀ g ∈ fs, g.Plain) (hnames : NamesApart fs) (tail : Text) {lead : Text}
    (hlead : ':' ∉ lead) :
    afterName f.name (lead ++ fieldsText tail fs) =
      some (f.pad ++ f.value ++ afterFields tail (fs.drop (i + 1))) := by
  obtain ⟨hi, rfl⟩ := List.getElem?_eq_some_iff.mp hget
  have hcut : fs = fs.take i ++ fs[i] :: fs.drop (i + 1) := by
    rw [← List.drop_eq_getElem_cons hi, List.take_append_drop]
  have h := afterName_fieldsText tail fs[i] (hplain _ (List.getElem_mem hi)) (fs.take i)
    (fs.drop (i + 1)) (fun g hg => ?_) hlead
  · rw [← hcut] at h
    exact h
  · refine ⟨hplain g (List.mem_of_mem_take hg), ?_⟩
    rw [NamesApart, List.pairwise_map, hcut, List.pairwise_append] at hnames
    exact hnames.2.2 g hg fs[i] List.mem_cons_self

/-! ## 値を読む -/

/-- 空白も区切りも含まない値。 -/
structure IsWord (s : Text) : Prop where
  nonempty : s ≠ []
  chars : ∀ c ∈ s, isBlankChar c = false ∧ c ≠ ',' ∧ c ≠ '\x7d' ∧ c ≠ '#' ∧ c ≠ ':'

theorem IsWord.tidy {s : Text} (h : IsWord s) : Tidy s where
  nonempty := h.nonempty
  head x hx := (h.chars x (List.mem_of_head? hx)).1
  last x hx := (h.chars x (List.mem_of_getLast? hx)).1
  comment hc := (h.chars '#' hc).2.2.2.1 rfl

theorem IsHost.isWord {h : Text} (hh : IsHost h) : IsWord h where
  nonempty := hh.nonempty
  chars c hc := by
    obtain ⟨hspace, hcolon, hcomma, hhash, -, -, -, hbrace⟩ := hh.chars c hc
    refine ⟨?_, hcomma, hbrace, hhash, hcolon⟩
    simp only [Text.isSpace, Bool.or_eq_false_iff, decide_eq_false_iff_not] at hspace
    simp [isBlankChar, hspace]

/-- 数字と符号と小数点。 -/
theorem isWord_of_numeral {s : Text} (hne : s ≠ [])
    (h : ∀ c ∈ s, c.isDigit = true ∨ c = '+' ∨ c = '-' ∨ c = '.' ∨ c = 'e' ∨ c = 'E') :
    IsWord s where
  nonempty := hne
  chars c hc := by
    rcases h c hc with hd | rfl | rfl | rfl | rfl | rfl
    · have hne : ∀ x : Char, x.isDigit = false → c ≠ x := by
        rintro x hx rfl
        rw [hd] at hx
        cases hx
      refine ⟨?_, hne _ (by decide), hne _ (by decide), hne _ (by decide), hne _ (by decide)⟩
      simp [isBlankChar, hne ' ' (by decide), hne '\t' (by decide), hne '\r' (by decide),
        hne '\n' (by decide)]
    all_goals decide

theorem isWord_printInt (i : Int) : IsWord (Text.printInt i) :=
  isWord_of_numeral (Text.printInt_ne_nil i) fun c hc => by
    rcases Text.mem_printInt hc with rfl | hd
    · simp
    · exact Or.inl hd

theorem skipBlanks_append {p s : Text} (hp : Blank p)
    (hs : ∀ x, s.head? = some x → isBlankChar x = false) : skipBlanks (p ++ s) = s := by
  refine Text.dropWhile_append_of_all (fun c hc => ?_) fun x hx => ?_
  · rcases hp c hc with rfl | rfl <;> rfl
  · have := hs x hx
    simp only [isBlankChar, Bool.or_eq_false_iff, decide_eq_false_iff_not] at this
    simp [this]

/-- 値の後ろ。空白の後に `,` か `}` が続く。 -/
def ValueEnd (rest : Text) : Prop :=
  ∃ q r, Blank q ∧ rest = q ++ r ∧ ∀ x, r.head? = some x → x = ',' ∨ x = '\x7d'

/-- `,` か `}` の前の値を取り出す。 -/
theorem trim_takeWhile_word {v rest : Text} (hv : IsWord v) (hrest : ValueEnd rest) :
    trim ((v ++ rest).takeWhile fun c => !isFieldEnd c) = v := by
  obtain ⟨q, r, hq, rfl, hr⟩ := hrest
  have htake : (v ++ (q ++ r)).takeWhile (fun c => !isFieldEnd c) = v ++ q := by
    rw [← List.append_assoc]
    refine Text.takeWhile_append_of_all (fun c hc => ?_) fun x hx => ?_
    · rcases List.mem_append.mp hc with hc | hc
      · obtain ⟨-, hcomma, hbrace, -⟩ := hv.chars c hc
        simp [isFieldEnd, hcomma, hbrace]
      · rcases hq c hc with rfl | rfl <;> rfl
    · rcases hr x hx with rfl | rfl <;> rfl
  rw [htake]
  exact hv.tidy.trim_eq (a := []) (by simp) (isBlankChar_of_blank hq)

theorem stoi_printInt_self {i : Int} (hi : IsInt i) : Text.stoi (Text.printInt i) = some i := by
  have := @Text.stoi_printInt i hi.1 hi.2 [] (by simp)
  simpa using this

theorem parsePort_printInt {n : Nat} (hn : n < 2 ^ 16) :
    parsePort (Text.printInt n) = some n := by
  have hi : IsInt n := ⟨by omega, by omega⟩
  rw [parsePort, stoi_printInt_self hi, Option.map_some]
  congr 1
  omega

section Value

variable {name s p v rest : Text}

theorem skipBlanks_word (hp : Blank p) (hv : IsWord v) :
    skipBlanks (p ++ v ++ rest) = v ++ rest := by
  rw [List.append_assoc]
  refine skipBlanks_append hp fun x hx => ?_
  rw [List.head?_append_of_ne_nil _ hv.nonempty] at hx
  exact hv.tidy.head x hx

theorem findVal_eq (h : afterName name s = some (p ++ v ++ rest)) (hp : Blank p) (hv : IsWord v)
    (hrest : ValueEnd rest) : findVal name s = v := by
  rw [findVal, h, Option.map_some, skipBlanks_word hp hv]
  exact trim_takeWhile_word hv hrest

theorem parseField_eq (h : afterName name s = some (p ++ v ++ rest)) (hp : Blank p) (hv : IsWord v)
    (hrest : ValueEnd rest) : parseField name s = some v := by
  rw [parseField, h, Option.map_some, skipBlanks_word hp hv]
  obtain ⟨c, v', rfl⟩ := List.exists_cons_of_ne_nil hv.nonempty
  show some (trim ((c :: v' ++ rest).takeWhile fun c => !isFieldEnd c)) = _
  rw [trim_takeWhile_word hv hrest]

end Value

theorem valueEnd_afterFields {close : Text} (hclose : Blank close) (post : List Field) :
    ValueEnd (afterFields (close ++ ['\x7d']) post) := by
  cases post with
  | nil => exact ⟨close, ['\x7d'], hclose, rfl, by simp⟩
  | cons f fs => exact ⟨[], _, fun _ hc => absurd hc List.not_mem_nil, rfl, by simp⟩

/-! ## 整数の列 -/

theorem comma_not_mem_blank {p : Text} (hp : Blank p) : ',' ∉ p := by
  intro hc
  rcases hp _ hc with h | h <;> exact absurd h (by decide)

theorem comma_not_mem_word {v : Text} (hv : IsWord v) : ',' ∉ v :=
  fun hc => (hv.chars _ hc).2.1 rfl

/-- 一つの token を読む。後ろに `}` までが付いていてもよい。 -/
theorem stoi_trim_token {lead junk : Text} {x : Int} (hlead : Blank lead) (hx : IsInt x)
    (hjunk : junk = [] ∨ ∃ p, Blank p ∧ junk = p ++ ['\x7d']) :
    trim (lead ++ Text.printInt x ++ junk) ≠ [] ∧
      Text.stoi (trim (lead ++ Text.printInt x ++ junk)) = some x := by
  have hword := isWord_printInt x
  rcases hjunk with rfl | ⟨p, hp, rfl⟩
  · rw [hword.tidy.trim_eq (isBlankChar_of_blank hlead) (by simp)]
    exact ⟨hword.nonempty, stoi_printInt_self hx⟩
  · have htidy : Tidy (Text.printInt x ++ (p ++ ['\x7d'])) := by
      refine ⟨by simp, fun c hc => ?_, fun c hc => ?_, ?_⟩
      · rw [List.head?_append_of_ne_nil _ hword.nonempty] at hc
        exact hword.tidy.head c hc
      · rw [← List.append_assoc, List.getLast?_concat] at hc
        obtain rfl := Option.some.inj hc
        rfl
      · have hp' : '#' ∉ p := by
          intro hc
          rcases hp _ hc with h | h <;> exact absurd h (by decide)
        simp [hword.tidy.comment, hp']
    have htrim := htidy.trim_eq (isBlankChar_of_blank hlead) (b := []) (by simp)
    rw [List.append_nil, ← List.append_assoc] at htrim
    rw [htrim]
    refine ⟨htidy.nonempty, Text.stoi_printInt hx.1 hx.2 fun c hc => ?_⟩
    cases p with
    | nil =>
      obtain rfl : '\x7d' = c := by simpa using hc
      decide
    | cons d p =>
      obtain rfl : d = c := by simpa using hc
      rcases hp d (by simp) with rfl | rfl <;> decide

/-- `,` で区切られた整数の列を読む。 -/
theorem mapM_intListText {pads : Nat → Text} (hpads : ∀ i, Blank (pads i)) {ids : List Int}
    (hne : ids ≠ []) (hids : ∀ x ∈ ids, IsInt x) {junk : Text}
    (hjunk : junk = [] ∨ ∃ p, Blank p ∧ junk = p ++ ['\x7d']) (i : Nat) {lead : Text}
    (hlead : Blank lead) :
    ((((lead ++ intListText pads i ids ++ junk).splitOn ',').map trim).filter (· ≠ [])).mapM
      Text.stoi = some ids := by
  induction ids generalizing i lead with
  | nil => exact absurd rfl hne
  | cons x ids ih =>
    obtain ⟨hx, hrest⟩ := List.forall_mem_cons.mp hids
    have hlead' : Blank (lead ++ pads i) := by
      intro c hc
      rcases List.mem_append.mp hc with hc | hc
      · exact hlead c hc
      · exact hpads i c hc
    have hcomma := comma_not_mem_blank hlead'
    have hint := comma_not_mem_word (isWord_printInt x)
    cases ids with
    | nil =>
      obtain ⟨htne, htoken⟩ := stoi_trim_token hlead' hx hjunk
      have hnocomma : ',' ∉ lead ++ pads i ++ Text.printInt x ++ junk := by
        have hjunk' : ',' ∉ junk := by
          rcases hjunk with rfl | ⟨p, hp, rfl⟩
          · exact List.not_mem_nil
          · simp [comma_not_mem_blank hp]
        simp only [List.mem_append, not_or] at hcomma ⊢
        exact ⟨⟨hcomma, hint⟩, hjunk'⟩
      rw [intListText, ← List.append_assoc lead, List.splitOn_eq_singleton hnocomma,
        List.map_singleton, List.filter_cons_of_pos (by simpa using htne), List.filter_nil,
        List.mapM_cons, htoken]
      rfl
    | cons y ids =>
      obtain ⟨htne, htoken⟩ := stoi_trim_token hlead' hx (Or.inl rfl)
      rw [List.append_nil] at htne htoken
      have hnocomma : ',' ∉ lead ++ pads i ++ Text.printInt x := by
        simp only [List.mem_append, not_or] at hcomma ⊢
        exact ⟨hcomma, hint⟩
      have htext : lead ++ intListText pads i (x :: y :: ids) ++ junk =
          (lead ++ pads i ++ Text.printInt x) ++ ',' ::
            ([] ++ intListText pads (i + 1) (y :: ids) ++ junk) := by
        rw [intListText]
        · simp
        · simp
      have hnil : Blank [] := fun _ hc => absurd hc (List.not_mem_nil)
      have hnext := ih (by simp) hrest (i + 1) hnil
      rw [htext, List.splitOn_append_cons_self_of_not_mem hnocomma, List.map_cons,
        List.filter_cons_of_pos (by simpa using htne), List.mapM_cons, htoken, hnext]
      rfl

theorem mem_intListText {pads : Nat → Text} (hpads : ∀ i, Blank (pads i)) {ids : List Int} {i : Nat}
    {c : Char} (h : c ∈ intListText pads i ids) :
    c = ' ' ∨ c = '\t' ∨ c = ',' ∨ c = '-' ∨ c.isDigit = true := by
  induction ids generalizing i with
  | nil => simp [intListText] at h
  | cons x ids ih =>
    have hhead : c ∈ pads i ++ Text.printInt x →
        c = ' ' ∨ c = '\t' ∨ c = ',' ∨ c = '-' ∨ c.isDigit = true := by
      intro hc
      rcases List.mem_append.mp hc with hc | hc
      · rcases hpads i c hc with h | h <;> simp [h]
      · rcases Text.mem_printInt hc with h | h <;> simp [h]
    cases ids with
    | nil => exact hhead h
    | cons y ids =>
      rw [intListText] at h
      · rcases List.mem_append.mp h with h | h
        · exact hhead h
        · rcases List.mem_cons.mp h with h | h
          · simp [h]
          · exact ih h
      · simp

/-- 落とされる括弧。 -/
def isBracket (c : Char) : Bool := c = '[' || c = ']' || c = '\x7b'

theorem filter_bracket_self {s : Text} (h : ∀ c ∈ s, isBracket c = false) :
    s.filter (fun c => !isBracket c) = s :=
  List.filter_eq_self.mpr fun c hc => by rw [h c hc]; rfl

theorem isBracket_of_blank {s : Text} (h : Blank s) : ∀ c ∈ s, isBracket c = false := by
  intro c hc
  rcases h c hc with rfl | rfl <;> rfl

theorem isBracket_intListText {pads : Nat → Text} (hpads : ∀ i, Blank (pads i)) {ids : List Int}
    {i : Nat} : ∀ c ∈ intListText pads i ids, isBracket c = false := by
  intro c hc
  rcases mem_intListText hpads hc with rfl | rfl | rfl | rfl | hd
  iterate 4 rfl
  have hne : ∀ x : Char, x.isDigit = false → c ≠ x := by
    rintro x hx rfl
    rw [hd] at hx
    cases hx
  simp [isBracket, hne '[' (by decide), hne ']' (by decide), hne '\x7b' (by decide)]

/-- 括弧を落とした整数の列。 -/
theorem filter_intList {pads : Nat → Text} (hpads : ∀ i, Blank (pads i)) (ids : List Int) (i : Nat)
    {p : Text} (hp : Blank p) (tail : Text) :
    (p ++ ('[' :: (intListText pads i ids ++ [']'])) ++ tail).filter (fun c => !isBracket c) =
      p ++ intListText pads i ids ++ tail.filter fun c => !isBracket c := by
  have hopen : ['['].filter (fun c => !isBracket c) = [] := rfl
  have hclose : [']'].filter (fun c => !isBracket c) = [] := rfl
  rw [show '[' :: (intListText pads i ids ++ [']']) =
    ['['] ++ intListText pads i ids ++ [']'] from rfl]
  simp only [List.filter_append]
  rw [filter_bracket_self (isBracket_of_blank hp),
    filter_bracket_self (isBracket_intListText hpads), hopen, hclose]
  simp

/-- 括弧の付いた整数の列を読む。`}` は落とされないが、`stoi` が読まない。 -/
theorem parseIntList_eq {pads : Nat → Text} (hpads : ∀ i, Blank (pads i)) {ids : List Int}
    (hne : ids ≠ []) (hids : ∀ x ∈ ids, IsInt x) {i : Nat} {p junk : Text} (hp : Blank p)
    (hjunk : junk = [] ∨ ∃ q, Blank q ∧ junk = q ++ ['\x7d']) :
    parseIntList (p ++ ('[' :: (intListText pads i ids ++ [']'])) ++ junk) = some ids := by
  have hkeep : junk.filter (fun c => !isBracket c) = junk := by
    rcases hjunk with rfl | ⟨q, hq, rfl⟩
    · rfl
    · rw [List.filter_append, filter_bracket_self (isBracket_of_blank hq)]
      rfl
  have hfilter := filter_intList hpads ids i hp junk
  rw [hkeep] at hfilter
  unfold parseIntList
  dsimp only
  rw [show (fun c => !(decide (c = '[') || decide (c = ']') || decide (c = '\x7b'))) =
    fun c => !isBracket c from rfl, hfilter]
  exact mapM_intListText hpads hne hids hjunk i hp

/-! ## 項目を読む -/

/-- 値にも空白にも現れない文字。 -/
def IsMark (x : Char) : Prop := x = ':' ∨ x = '#' ∨ x = '\n'

theorem IsMark.not_mem_blank {x : Char} (hx : IsMark x) {p : Text} (hp : Blank p) : x ∉ p := by
  intro hc
  rcases hx with rfl | rfl | rfl <;> rcases hp _ hc with h | h <;> exact absurd h (by decide)

theorem IsMark.not_mem_word {x : Char} (hx : IsMark x) {v : Text} (hv : IsWord v) : x ∉ v := by
  intro hc
  obtain ⟨hblank, -, -, hhash, hcolon⟩ := hv.chars _ hc
  rcases hx with rfl | rfl | rfl
  · exact hcolon rfl
  · exact hhash rfl
  · exact absurd hblank (by decide)

theorem IsMark.not_isDigit {x : Char} (hx : IsMark x) : x.isDigit = false := by
  rcases hx with rfl | rfl | rfl <;> rfl

/-- 値が語の field。 -/
theorem IsMark.free_of_word {x : Char} (hx : IsMark x) {gap name pad value : Text}
    (hgap : Blank gap) (hname : x ∉ name) (hpad : Blank pad) (hvalue : IsWord value) :
    Field.Free x ⟨gap, name, pad, value⟩ :=
  ⟨hx.not_mem_blank hgap, hname, hx.not_mem_blank hpad, hx.not_mem_word hvalue⟩

/-- field の列に現れない文字は、書いた文字列にも現れない。 -/
theorem not_mem_fieldsText {x : Char} {tail : Text} (hcolon : x ≠ ':') (hcomma : x ≠ ',')
    (htail : x ∉ tail) {fs : List Field} (h : ∀ f ∈ fs, f.Free x) : x ∉ fieldsText tail fs := by
  induction fs with
  | nil => exact htail
  | cons f fs ih =>
    obtain ⟨⟨hgap, hname, hpad, hvalue⟩, hrest⟩ := List.forall_mem_cons.mp h
    have hafter : x ∉ afterFields tail fs := by
      cases fs with
      | nil => exact htail
      | cons g fs => exact List.not_mem_cons_of_ne_of_not_mem hcomma (ih hrest)
    rw [fieldsText_cons]
    simp [hgap, hname, hpad, hvalue, hafter, hcolon]

section Item

variable {fs : List Field} {close lead : Text} (hclose : Blank close)
  (hplain : ∀ g ∈ fs, g.Plain) (hnames : NamesApart fs) (hlead : ':' ∉ lead)

include hclose hplain hnames hlead

/-- field の値は、どの順に書いても読まれる。 -/
theorem findVal_field {f : Field} (hf : f ∈ fs) (hpad : Blank f.pad) (hvalue : IsWord f.value) :
    findVal f.name (lead ++ fieldsText (close ++ ['\x7d']) fs) = f.value := by
  obtain ⟨i, hget⟩ := List.mem_iff_getElem?.mp hf
  exact findVal_eq (afterName_field hget hplain hnames _ hlead) hpad hvalue
    (valueEnd_afterFields hclose _)

theorem parseField_field {f : Field} (hf : f ∈ fs) (hpad : Blank f.pad) (hvalue : IsWord f.value) :
    parseField f.name (lead ++ fieldsText (close ++ ['\x7d']) fs) = some f.value := by
  obtain ⟨i, hget⟩ := List.mem_iff_getElem?.mp hf
  exact parseField_eq (afterName_field hget hplain hnames _ hlead) hpad hvalue
    (valueEnd_afterFields hclose _)

/-- host と port の field。 -/
theorem extractHostPort_field {n : Nat} {gap₁ gap₂ pad₁ pad₂ host : Text}
    (hhost : ⟨gap₁, "host".toList, pad₁, host⟩ ∈ fs)
    (hport : ⟨gap₂, "port".toList, pad₂, Text.printInt n⟩ ∈ fs) (hpad₁ : Blank pad₁)
    (hpad₂ : Blank pad₂) (hh : IsHost host) (hn : n < 2 ^ 16) (old : Text × Nat) :
    extractHostPort (lead ++ fieldsText (close ++ ['\x7d']) fs) old = some (host, n) := by
  have h₁ := findVal_field hclose hplain hnames hlead hhost hpad₁ hh.isWord
  have h₂ := findVal_field hclose hplain hnames hlead hport hpad₂ (isWord_printInt n)
  simp only at h₁ h₂
  unfold extractHostPort
  rw [h₁, h₂]
  rw [if_neg (by simp [hh.nonempty, Text.printInt_ne_nil]), parsePort_printInt hn]
  rfl

end Item

/-- 名の組は、並べ替えても互いに紛れない。 -/
theorem NamesApart.perm {fs gs : List Field} (h : NamesApart gs) (hperm : fs.Perm gs) :
    NamesApart fs :=
  ((hperm.map Field.name).pairwise_iff fun hab => hab.symm).mpr h

/-- 一行の項目の番号。 -/
def readEdgeId (s : Text) (old : Int) : Option Int :=
  match (afterName "id".toList s).map skipBlanks with
  | none => some old
  | some [] => none
  | some r => Text.stoi (r.takeWhile (· ≠ ','))

/-- 一行の項目の End の番号の列。 -/
def readEndIds (s : Text) (old : List Int) : Option (List Int) :=
  match afterName "ends".toList s with
  | none => some old
  | some r => parseIntList r

/-- 一行の項目は、三つの部品を順に読む。 -/
theorem EdgeEntry.parseInline_eq (s : Text) (cur : EdgeEntry) :
    EdgeEntry.parseInline s cur =
      (readEdgeId s cur.id).bind fun id =>
        (extractHostPort s (cur.host, cur.port)).bind fun hp =>
          (readEndIds s cur.endIds).map fun endIds =>
            { id := id, endIds := endIds, host := hp.1, port := hp.2 } := by
  have hends : ∀ (id : Int) (hp : Text × Nat),
      (match afterName "ends".toList s with
        | none => (some cur.endIds).bind fun endIds =>
          some { id := id, endIds := endIds, host := hp.1, port := hp.2 : EdgeEntry }
        | some r => (parseIntList r).bind fun endIds =>
          some { id := id, endIds := endIds, host := hp.1, port := hp.2 }) =
      (readEndIds s cur.endIds).map fun endIds =>
        { id := id, endIds := endIds, host := hp.1, port := hp.2 } := by
    intro id hp
    unfold readEndIds
    cases afterName "ends".toList s with
    | none => rfl
    | some r => exact (Option.map_eq_bind ..).symm
  simp only [← hends]
  unfold EdgeEntry.parseInline readEdgeId
  cases (afterName "id".toList s).map skipBlanks with
  | none => rfl
  | some r =>
    cases r with
    | nil => rfl
    | cons c r => rfl

/-- 番号は、後ろに何が続いても読まれる。 -/
theorem readEdgeId_eq {s p rest : Text} {n : Int} (hn : IsInt n) (hp : Blank p)
    (hrest : ValueEnd rest) (h : afterName "id".toList s = some (p ++ Text.printInt n ++ rest))
    (old : Int) : readEdgeId s old = some n := by
  have hword := isWord_printInt n
  have htake : (Text.printInt n ++ rest).takeWhile (· ≠ ',') =
      Text.printInt n ++ rest.takeWhile (· ≠ ',') := by
    refine List.takeWhile_append_of_pos fun c hc => ?_
    simpa using fun h : c = ',' => comma_not_mem_word hword (h ▸ hc)
  have hjunk : ∀ x, (rest.takeWhile (· ≠ ',')).head? = some x → x.isDigit = false := by
    intro x hx
    have hmem := List.mem_of_head? hx
    obtain ⟨q, r, hq, rfl, hr⟩ := hrest
    have hne := List.mem_takeWhile_imp hmem
    have hhead : (q ++ r).head? = some x := by
      cases hqr : q ++ r with
      | nil => rw [hqr] at hx; cases hx
      | cons c t =>
        rw [hqr] at hx
        by_cases hc : c = ','
        · rw [hc, List.takeWhile_cons_of_neg (by simp)] at hx
          cases hx
        · rw [List.takeWhile_cons_of_pos (by simpa using hc)] at hx
          exact hx
    cases q with
    | nil =>
      rcases hr x hhead with rfl | rfl
      · simp at hne
      · rfl
    | cons c q =>
      obtain rfl : c = x := by simpa using hhead
      rcases hq c List.mem_cons_self with rfl | rfl <;> rfl
  have hread := Text.stoi_printInt hn.1 hn.2 hjunk
  rw [← htake] at hread
  obtain ⟨c, v, hcv⟩ := List.exists_cons_of_ne_nil (Text.printInt_ne_nil n)
  have hskip : skipBlanks (p ++ Text.printInt n ++ rest) = Text.printInt n ++ rest :=
    skipBlanks_word hp hword
  unfold readEdgeId
  rw [h, Option.map_some, hskip]
  rw [hcv, List.cons_append] at hread ⊢
  exact hread

section Edge

variable {pads : Nat → Text} {e : EdgeEntry}

theorem edgeFields_free (hpads : ∀ i, Blank (pads i)) (hhost : IsHost e.host) {x : Char}
    (hx : IsMark x) : ∀ g ∈ edgeFields pads e, g.Free x := by
  have hlist : x ∉ '[' :: (intListText pads 10 e.endIds ++ [']']) := by
    intro hc
    have hc' : x ∈ intListText pads 10 e.endIds := by
      rcases hx with rfl | rfl | rfl <;> simpa using hc
    have hdigit := hx.not_isDigit
    rcases mem_intListText hpads hc' with h | h | h | h | h
    iterate 4 rcases hx with rfl | rfl | rfl <;> exact absurd h (by decide)
    rw [h] at hdigit
    cases hdigit
  have hname : ∀ n ∈ ["id".toList, "host".toList, "port".toList, "ends".toList], x ∉ n := by
    rcases hx with rfl | rfl | rfl <;> decide
  intro g hg
  simp only [edgeFields, List.mem_cons, List.not_mem_nil, or_false] at hg
  rcases hg with rfl | rfl | rfl | rfl
  · exact hx.free_of_word (hpads 1) (hname _ (by simp)) (hpads 2) (isWord_printInt e.id)
  · exact hx.free_of_word (hpads 3) (hname _ (by simp)) (hpads 4) hhost.isWord
  · exact hx.free_of_word (hpads 5) (hname _ (by simp)) (hpads 6) (isWord_printInt e.port)
  · exact ⟨hx.not_mem_blank (hpads 7), hname _ (by simp), hx.not_mem_blank (hpads 8), hlist⟩

theorem edgeFields_namesApart : NamesApart (edgeFields pads e) := by
  show ["id".toList, "host".toList, "port".toList, "ends".toList].Pairwise _
  decide

/-- 並べ替えた field を書いた項目では、End の番号の列のほかは元の値に読まれる。 -/
theorem EdgeEntry.parseInline_fields (hpads : ∀ i, Blank (pads i)) (hid : IsInt e.id)
    (hhost : IsHost e.host) (hport : e.port < 2 ^ 16) {fs : List Field}
    (hperm : fs.Perm (edgeFields pads e)) (cur : EdgeEntry) :
    EdgeEntry.parseInline ('\x7b' :: fieldsText (pads 9 ++ ['\x7d']) fs) cur =
      (readEndIds ('\x7b' :: fieldsText (pads 9 ++ ['\x7d']) fs) cur.endIds).map fun endIds =>
        { e with endIds := endIds } := by
  have hlead : ':' ∉ ['\x7b'] := by decide
  have hplain : ∀ g ∈ fs, g.Plain :=
    fun g hg => edgeFields_free hpads hhost (Or.inl rfl) g (hperm.mem_iff.mp hg)
  have hnames : NamesApart fs := edgeFields_namesApart.perm hperm
  obtain ⟨i, hget⟩ := List.mem_iff_getElem?.mp
    (hperm.mem_iff.mpr (show ⟨pads 1, "id".toList, pads 2, Text.printInt e.id⟩ ∈
      edgeFields pads e by simp [edgeFields]))
  have hidAt := afterName_field hget hplain hnames (pads 9 ++ ['\x7d']) hlead
  have hid' : readEdgeId ('\x7b' :: fieldsText (pads 9 ++ ['\x7d']) fs) cur.id = some e.id :=
    readEdgeId_eq hid (hpads 2) (valueEnd_afterFields (hpads 9) _) hidAt _
  have hhp : extractHostPort ('\x7b' :: fieldsText (pads 9 ++ ['\x7d']) fs) (cur.host, cur.port) =
      some (e.host, e.port) :=
    extractHostPort_field (hpads 9) hplain hnames hlead
      (hperm.mem_iff.mpr (show ⟨pads 3, "host".toList, pads 4, e.host⟩ ∈ edgeFields pads e by
        simp [edgeFields]))
      (hperm.mem_iff.mpr (show ⟨pads 5, "port".toList, pads 6, Text.printInt e.port⟩ ∈
        edgeFields pads e by simp [edgeFields]))
      (hpads 4) (hpads 6) hhost hport _
  rw [EdgeEntry.parseInline_eq, hid', Option.bind_some, hhp, Option.bind_some]

/-- `ends` の field の値。 -/
theorem readEndIds_fields (hpads : ∀ i, Blank (pads i)) (hhost : IsHost e.host) {fs : List Field}
    (hperm : fs.Perm (edgeFields pads e)) {i : Nat}
    (hget : fs[i]? = some ⟨pads 7, "ends".toList, pads 8,
      '[' :: (intListText pads 10 e.endIds ++ [']'])⟩) (old : List Int) :
    readEndIds ('\x7b' :: fieldsText (pads 9 ++ ['\x7d']) fs) old =
      parseIntList (pads 8 ++ ('[' :: (intListText pads 10 e.endIds ++ [']'])) ++
        afterFields (pads 9 ++ ['\x7d']) (fs.drop (i + 1))) := by
  have hplain : ∀ g ∈ fs, g.Plain :=
    fun g hg => edgeFields_free hpads hhost (Or.inl rfl) g (hperm.mem_iff.mp hg)
  have hendsAt := afterName_field hget hplain (edgeFields_namesApart.perm hperm)
    (pads 9 ++ ['\x7d']) (show ':' ∉ ['\x7b'] by decide)
  unfold readEndIds
  rw [show '\x7b' :: fieldsText (pads 9 ++ ['\x7d']) fs =
    ['\x7b'] ++ fieldsText (pads 9 ++ ['\x7d']) fs from rfl, hendsAt]

/-- **`edges` の項目は、元の値に読み戻される。** -/
theorem EdgeEntry.parseInline_edgeBody (hpads : ∀ i, Blank (pads i)) (hid : IsInt e.id)
    (hhost : IsHost e.host) (hport : e.port < 2 ^ 16) (hne : e.endIds ≠ [])
    (hids : ∀ i ∈ e.endIds, IsInt i) (cur : EdgeEntry) :
    EdgeEntry.parseInline (edgeBody pads e) cur = some e := by
  have hends := readEndIds_fields hpads hhost (List.Perm.refl (edgeFields pads e))
    (show (edgeFields pads e)[3]? = some _ from rfl) cur.endIds
  have hlist : parseIntList (pads 8 ++ ('[' :: (intListText pads 10 e.endIds ++ [']'])) ++
      (pads 9 ++ ['\x7d'])) = some e.endIds :=
    parseIntList_eq hpads hne hids (hpads 8) (Or.inr ⟨_, hpads 9, rfl⟩)
  rw [edgeBody, EdgeEntry.parseInline_fields hpads hid hhost hport (List.Perm.refl _),
    hends.trans hlist]
  rfl

end Edge

section End

variable {stod : Text → Option Key} {fmt : NumberFormat stod} {pads : Nat → Text} {e : EndEntry}

theorem NumberFormat.isWord (fmt : NumberFormat stod) (k : Key) : IsWord (fmt.print k) :=
  isWord_of_numeral (fmt.nonempty k) (fmt.chars k)

/-- 数の書き方に括弧は現れない。 -/
theorem NumberFormat.bracket_not_mem (fmt : NumberFormat stod) (k : Key) :
    '[' ∉ fmt.print k ∧ ']' ∉ fmt.print k := by
  constructor <;> intro hc <;> rcases fmt.chars k _ hc with h | h | h | h | h | h <;>
    exact absurd h (by decide)

theorem endFields_free (hpads : ∀ i, Blank (pads i)) (hhost : IsHost e.host) {x : Char}
    (hx : IsMark x) : ∀ g ∈ endFields fmt pads e, g.Free x := by
  have hrange : x ∉ '[' :: (pads 11 ++ fmt.print e.keyLo ++
      ',' :: (pads 12 ++ fmt.print e.keyHi ++ pads 13 ++ [']'])) := by
    have hb (i : Nat) : x ∉ pads i := hx.not_mem_blank (hpads i)
    have hw (k : Key) : x ∉ fmt.print k := hx.not_mem_word (fmt.isWord k)
    rcases hx with rfl | rfl | rfl <;> simp [hb, hw]
  have hname : ∀ n ∈ ["id".toList, "edge".toList, "host".toList, "port".toList,
      "key_range".toList], x ∉ n := by
    rcases hx with rfl | rfl | rfl <;> decide
  intro g hg
  simp only [endFields, List.mem_cons, List.not_mem_nil, or_false] at hg
  rcases hg with rfl | rfl | rfl | rfl | rfl
  · exact hx.free_of_word (hpads 1) (hname _ (by simp)) (hpads 2) (isWord_printInt e.id)
  · exact hx.free_of_word (hpads 3) (hname _ (by simp)) (hpads 4) (isWord_printInt e.edgeId)
  · exact hx.free_of_word (hpads 5) (hname _ (by simp)) (hpads 6) hhost.isWord
  · exact hx.free_of_word (hpads 7) (hname _ (by simp)) (hpads 8) (isWord_printInt e.port)
  · exact ⟨hx.not_mem_blank (hpads 9), hname _ (by simp), hx.not_mem_blank (hpads 10), hrange⟩

theorem endFields_namesApart : NamesApart (endFields fmt pads e) := by
  show ["id".toList, "edge".toList, "host".toList, "port".toList, "key_range".toList].Pairwise _
  decide

/-- 括弧の中の二つの数を読む。 -/
theorem parseKeyRange_eq {s p a b c tail : Text} {lo hi : Key} (hp : Blank p) (ha : Blank a)
    (hb : Blank b) (hc : Blank c) (hlo : lo.Finite) (hhi : hi.Finite)
    (h : afterName "key_range".toList s = some (p ++ ('[' :: (a ++ fmt.print lo ++
      ',' :: (b ++ fmt.print hi ++ c ++ [']']))) ++ tail)) (old : Key × Key) :
    parseKeyRange stod s old = some (lo, hi) := by
  have hopen : ∀ x ∈ p, (decide (x ≠ '[')) = true := by
    intro x hx
    rcases hp x hx with rfl | rfl <;> decide
  have hdrop : (p ++ ('[' :: (a ++ fmt.print lo ++ ',' :: (b ++ fmt.print hi ++ c ++ [']']))) ++
      tail).dropWhile (· ≠ '[') =
        '[' :: ((a ++ fmt.print lo ++ ',' :: (b ++ fmt.print hi ++ c)) ++ ']' :: tail) := by
    rw [List.append_assoc, Text.dropWhile_append_of_all hopen]
    · simp
    · intro x hx
      obtain rfl : '[' = x := by simpa using hx
      rfl
  have hinner : ((a ++ fmt.print lo ++ ',' :: (b ++ fmt.print hi ++ c)) ++ ']' :: tail).takeWhile
      (· ≠ ']') = a ++ fmt.print lo ++ ',' :: (b ++ fmt.print hi ++ c) := by
    refine Text.takeWhile_append_of_all (fun x hx => ?_) fun x hx => ?_
    · have hblank : ∀ {s : Text}, Blank s → ']' ∉ s := by
        intro s hs hc
        rcases hs _ hc with h | h <;> exact absurd h (by decide)
      have hnone : ']' ∉ a ++ fmt.print lo ++ ',' :: (b ++ fmt.print hi ++ c) := by
        simp [hblank ha, hblank hb, hblank hc, (fmt.bracket_not_mem lo).2,
          (fmt.bracket_not_mem hi).2]
      simpa using fun h : x = ']' => hnone (h ▸ hx)
    · obtain rfl : ']' = x := by simpa using hx
      rfl
  have hcomma : ∀ x ∈ a ++ fmt.print lo, (decide (x ≠ ',')) = true := by
    intro x hx
    have hnone : ',' ∉ a ++ fmt.print lo := by
      simp [comma_not_mem_blank ha, comma_not_mem_word (fmt.isWord lo)]
    simpa using fun h : x = ',' => hnone (h ▸ hx)
  have hhead : ∀ x, (',' :: (b ++ fmt.print hi ++ c)).head? = some x →
      (decide (x ≠ ',')) = false := by
    intro x hx
    obtain rfl : ',' = x := by simpa using hx
    rfl
  have hlow : trim (a ++ fmt.print lo) = fmt.print lo := by
    have := (fmt.isWord lo).tidy.trim_eq (isBlankChar_of_blank ha) (b := []) (by simp)
    rwa [List.append_nil] at this
  have hhigh : trim (b ++ fmt.print hi ++ c) = fmt.print hi :=
    (fmt.isWord hi).tidy.trim_eq (isBlankChar_of_blank hb) (isBlankChar_of_blank hc)
  unfold parseKeyRange
  rw [h]
  dsimp only
  rw [hdrop, if_pos ⟨by simp, by simp⟩, List.drop_one, List.tail_cons, hinner,
    Text.takeWhile_append_of_all hcomma hhead, Text.dropWhile_append_of_all hcomma hhead,
    if_pos (by simp), List.drop_one, List.tail_cons, hlow, hhigh, fmt.inverts lo hlo,
    fmt.inverts hi hhi]
  rfl

/-- 空の値は元のままにし、空でなければ `stoi` で読む。 -/
def readInt (t : Text) (old : Int) : Option Int := if t = [] then some old else Text.stoi t

theorem readInt_printInt {n : Int} (hn : IsInt n) (old : Int) :
    readInt (Text.printInt n) old = some n := by
  rw [readInt, if_neg (Text.printInt_ne_nil n), stoi_printInt_self hn]

/-- 一行の項目は、部品を順に読む。 -/
theorem EndEntry.parseInline_eq (stod : Text → Option Key) (s : Text) (cur : EndEntry) :
    EndEntry.parseInline stod s cur =
      (parseField "id".toList s).bind fun idText =>
        (parseField "edge".toList s).bind fun edgeText =>
          (readInt idText cur.id).bind fun id =>
            (readInt edgeText cur.edgeId).bind fun edgeId =>
              (extractHostPort s (cur.host, cur.port)).bind fun hp =>
                (parseKeyRange stod s (cur.keyLo, cur.keyHi)).map fun r =>
                  { id := id, edgeId := edgeId, keyLo := r.1, keyHi := r.2, host := hp.1
                    port := hp.2 } := by
  unfold EndEntry.parseInline readInt
  refine Option.bind_congr fun idText _ => Option.bind_congr fun edgeText _ => ?_
  simp only [Option.map_eq_bind]
  split <;> split <;> rfl

/-- **`ends` の項目は、field をどの順に書いても元の値に読み戻される。** -/
theorem EndEntry.parseInline_fields (hpads : ∀ i, Blank (pads i)) (hid : IsInt e.id)
    (hedge : IsInt e.edgeId) (hhost : IsHost e.host) (hport : e.port < 2 ^ 16)
    (hlo : e.keyLo.Finite) (hhi : e.keyHi.Finite) {fs : List Field}
    (hperm : fs.Perm (endFields fmt pads e)) (cur : EndEntry) :
    EndEntry.parseInline stod ('\x7b' :: fieldsText (pads 14 ++ ['\x7d']) fs) cur = some e := by
  have hlead : ':' ∉ ['\x7b'] := by decide
  have hplain : ∀ g ∈ fs, g.Plain :=
    fun g hg => endFields_free hpads hhost (Or.inl rfl) g (hperm.mem_iff.mp hg)
  have hnames : NamesApart fs := endFields_namesApart.perm hperm
  have hmem : ∀ {f}, f ∈ endFields fmt pads e → f ∈ fs := fun hf => hperm.mem_iff.mpr hf
  have hidText : parseField "id".toList ('\x7b' :: fieldsText (pads 14 ++ ['\x7d']) fs) =
      some (Text.printInt e.id) :=
    parseField_field (hpads 14) hplain hnames hlead
      (hmem (show ⟨pads 1, "id".toList, pads 2, Text.printInt e.id⟩ ∈ endFields fmt pads e by
        simp [endFields]))
      (hpads 2) (isWord_printInt e.id)
  have hedgeText : parseField "edge".toList ('\x7b' :: fieldsText (pads 14 ++ ['\x7d']) fs) =
      some (Text.printInt e.edgeId) :=
    parseField_field (hpads 14) hplain hnames hlead
      (hmem (show ⟨pads 3, "edge".toList, pads 4, Text.printInt e.edgeId⟩ ∈
        endFields fmt pads e by simp [endFields]))
      (hpads 4) (isWord_printInt e.edgeId)
  have hhp : extractHostPort ('\x7b' :: fieldsText (pads 14 ++ ['\x7d']) fs)
      (cur.host, cur.port) = some (e.host, e.port) :=
    extractHostPort_field (hpads 14) hplain hnames hlead
      (hmem (show ⟨pads 5, "host".toList, pads 6, e.host⟩ ∈ endFields fmt pads e by
        simp [endFields]))
      (hmem (show ⟨pads 7, "port".toList, pads 8, Text.printInt e.port⟩ ∈
        endFields fmt pads e by simp [endFields]))
      (hpads 6) (hpads 8) hhost hport _
  obtain ⟨i, hget⟩ := List.mem_iff_getElem?.mp (hmem (show ⟨pads 9, "key_range".toList, pads 10,
    '[' :: (pads 11 ++ fmt.print e.keyLo ++ ',' :: (pads 12 ++ fmt.print e.keyHi ++ pads 13 ++
      [']']))⟩ ∈ endFields fmt pads e by simp [endFields]))
  have hrange : parseKeyRange stod ('\x7b' :: fieldsText (pads 14 ++ ['\x7d']) fs)
      (cur.keyLo, cur.keyHi) = some (e.keyLo, e.keyHi) :=
    parseKeyRange_eq (hpads 10) (hpads 11) (hpads 12) (hpads 13) hlo hhi
      (afterName_field hget hplain hnames _ hlead) _
  rw [EndEntry.parseInline_eq, hidText, Option.bind_some, hedgeText, Option.bind_some,
    readInt_printInt hid, Option.bind_some, readInt_printInt hedge, Option.bind_some, hhp,
    Option.bind_some, hrange]
  rfl

theorem EndEntry.parseInline_endBody (hpads : ∀ i, Blank (pads i)) (hid : IsInt e.id)
    (hedge : IsInt e.edgeId) (hhost : IsHost e.host) (hport : e.port < 2 ^ 16)
    (hlo : e.keyLo.Finite) (hhi : e.keyHi.Finite) (cur : EndEntry) :
    EndEntry.parseInline stod (endBody fmt pads e) cur = some e :=
  EndEntry.parseInline_fields hpads hid hedge hhost hport hlo hhi (List.Perm.refl _) cur

end End

end Plin
