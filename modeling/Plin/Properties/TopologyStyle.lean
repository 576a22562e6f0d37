import Mathlib.Algebra.Order.BigOperators.Group.List
import Plin.Properties.TopologyFault

/-!
# 項目の書き方

`edges` と `ends` の項目は三通りに書ける（`ItemStyle`）。`{ ... }` の一行、`-` だけの行に続く行、
`- name: value` に続く行である。field の順は自由とする。

**書き方は結果を変える。** `-` と同じ行の field は `{` で始まらなければ読まれず、既定値のまま残る。一行の
Edge の `ends` は、`]` の後ろも整数の列として読むので、最後の field で空でもないときにしか読めない。どちらも
起きないとき、そのときに限って、書いた値がそのまま読まれる（`load_styled_iff`）。
-/

namespace Plin

open Infra

/-! ## 書き方 -/

/-- 項目の三通りの書き方。 -/
inductive ItemStyle where
  /-- `- { id: .., host: .., ... }`。 -/
  | inline
  /-- `-` だけの行に、field の行が続く。 -/
  | lone
  /-- `- first: value` に、残りの field の行が続く。 -/
  | first
  deriving DecidableEq

/-- 書いた項目。`order` は field の名を書いた順である。 -/
structure Written (E : Type) where
  entry : E
  style : ItemStyle
  order : List Text

/-- `field: value` の行。 -/
def Field.line (f : Field) : Text := f.name ++ ':' :: (f.pad ++ f.value)

/-- 項目の行。 -/
def itemLines (pad close : Text) : ItemStyle → List Field → List Text
  | .inline, fs => [itemLine pad ('\x7b' :: fieldsText (close ++ ['\x7d']) fs)]
  | .lone, fs => ['-'] :: fs.map Field.line
  | .first, [] => []
  | .first, f :: fs => itemLine pad f.line :: fs.map Field.line

/-- 続く行に書く `ends` の項目の field。 -/
def endLineFields {stod : Text → Option Key} (fmt : NumberFormat stod) (pads : Nat → Text)
    (e : EndEntry) : List Field :=
  [⟨pads 1, "id".toList, pads 2, Text.printInt e.id⟩,
    ⟨pads 3, "edge".toList, pads 4, Text.printInt e.edgeId⟩,
    ⟨pads 5, "host".toList, pads 6, e.host⟩,
    ⟨pads 7, "port".toList, pads 8, Text.printInt e.port⟩,
    ⟨pads 9, "key_lo".toList, pads 10, fmt.print e.keyLo⟩,
    ⟨pads 11, "key_hi".toList, pads 12, fmt.print e.keyHi⟩]

/-- `w` を書いた行。 -/
def EdgeWritten (w : Written EdgeEntry) (lines : List Text) : Prop :=
  ∃ (pads : Nat → Text) (fs : List Field), (∀ i, Blank (pads i)) ∧
    fs.Perm (edgeFields pads w.entry) ∧ fs.map Field.name = w.order ∧
    lines = itemLines (pads 0) (pads 9) w.style fs

/-- 鍵の区間は、一行なら `key_range`、続く行なら `key_lo` と `key_hi` に書く。 -/
def EndWritten {stod : Text → Option Key} (fmt : NumberFormat stod) (w : Written EndEntry)
    (lines : List Text) : Prop :=
  ∃ (pads : Nat → Text) (fs : List Field), (∀ i, Blank (pads i)) ∧
    fs.Perm (match w.style with
      | .inline => endFields fmt pads w.entry
      | _ => endLineFields fmt pads w.entry) ∧
    fs.map Field.name = w.order ∧ lines = itemLines (pads 0) (pads 14) w.style fs

/-- `heading` の節。 -/
def StyledBlock {E : Type} (heading : Text) (written : Written E → List Text → Prop)
    (items : List (Written E)) (lines : List Text) : Prop :=
  ∃ groups, List.Forall₂ written items groups ∧ lines = heading :: groups.flatten

/-- 項目ごとに書き方を選んだ file。 -/
def RendersStyled {stod : Text → Option Key} (fmt : NumberFormat stod) (c : CloudInfo)
    (edges : List (Written EdgeEntry)) (ends : List (Written EndEntry)) (text : Text) : Prop :=
  ∃ (cloud edgesBlock endsBlock : List Text) (blocks : List (List Text)) (lines : List Text),
    CloudBlock c cloud ∧ StyledBlock "edges:".toList EdgeWritten edges edgesBlock ∧
    StyledBlock "ends:".toList (EndWritten fmt) ends endsBlock ∧
    blocks.Perm [cloud, edgesBlock, endsBlock] ∧ Laid blocks.flatten lines ∧ Joined lines text

/-- 書ける Edge。`endIds` は空でもよい。 -/
structure EdgeEntry.Printable (e : EdgeEntry) : Prop where
  id : IsInt e.id
  host : IsHost e.host
  port : e.port < 2 ^ 16
  endIds : ∀ i ∈ e.endIds, IsInt i

/-- 書ける End。 -/
structure EndEntry.Printable (e : EndEntry) : Prop where
  id : IsInt e.id
  edgeId : IsInt e.edgeId
  host : IsHost e.host
  port : e.port < 2 ^ 16
  keyLo : e.keyLo.Finite
  keyHi : e.keyHi.Finite

/-! ## 読まれる値 -/

/-- `names` にある field なら `a`、無ければ `b`。 -/
def pick {α : Type} (names : List Text) (name : String) (a b : α) : α :=
  if name.toList ∈ names then a else b

/-- `names` の field を `src` から取る。 -/
def EdgeEntry.merge (src : EdgeEntry) (names : List Text) (cur : EdgeEntry) : EdgeEntry where
  id := pick names "id" src.id cur.id
  endIds := pick names "ends" src.endIds cur.endIds
  host := pick names "host" src.host cur.host
  port := pick names "port" src.port cur.port

def EndEntry.merge (src : EndEntry) (names : List Text) (cur : EndEntry) : EndEntry where
  id := pick names "id" src.id cur.id
  edgeId := pick names "edge" src.edgeId cur.edgeId
  keyLo := pick names "key_lo" src.keyLo cur.keyLo
  keyHi := pick names "key_hi" src.keyHi cur.keyHi
  host := pick names "host" src.host cur.host
  port := pick names "port" src.port cur.port

/-- field `name` を既定値に戻す。 -/
def EdgeEntry.drop (name : Text) (e : EdgeEntry) : EdgeEntry := EdgeEntry.zero.merge [name] e

def EndEntry.drop (name : Text) (e : EndEntry) : EndEntry := EndEntry.zero.merge [name] e

namespace Written

/-- 読まれる Edge。`none` は例外である。 -/
def readEdge (w : Written EdgeEntry) : Option EdgeEntry :=
  match w.style with
  | .inline =>
    if w.entry.endIds ≠ [] ∧ w.order.getLast? = some "ends".toList then some w.entry else none
  | .lone => some w.entry
  | .first => some (w.entry.drop (w.order.headD []))

/-- 読まれる End。 -/
def readEnd (w : Written EndEntry) : EndEntry :=
  match w.style with
  | .first => w.entry.drop (w.order.headD [])
  | _ => w.entry

/-- Edge の書き方が値を変えない。一行なら `ends` は空でなく最後にあり、`-` と同じ行の field は既定値である。 -/
def EdgeKept (w : Written EdgeEntry) : Prop :=
  match w.style with
  | .inline => w.entry.endIds ≠ [] ∧ w.order.getLast? = some "ends".toList
  | .lone => True
  | .first => w.entry.drop (w.order.headD []) = w.entry

/-- End の書き方が値を変えない。`-` と同じ行の field は既定値である。 -/
def EndKept (w : Written EndEntry) : Prop :=
  match w.style with
  | .first => w.entry.drop (w.order.headD []) = w.entry
  | _ => True

theorem readEdge_eq_iff (w : Written EdgeEntry) : w.readEdge = some w.entry ↔ w.EdgeKept := by
  unfold readEdge EdgeKept
  cases w.style with
  | inline => simp
  | lone => simp
  | first => simp

theorem readEnd_eq_iff (w : Written EndEntry) : w.readEnd = w.entry ↔ w.EndKept := by
  unfold readEnd EndKept
  cases w.style with
  | inline => simp
  | lone => simp
  | first => simp

end Written

/-! ## 続く行 -/

section Pick

variable {α : Type} {names : List Text} {name : String}

theorem pick_of_mem (h : name.toList ∈ names) (a b : α) : pick names name a b = a := if_pos h

theorem pick_nil (name : String) (a b : α) : pick [] name a b = b := if_neg List.not_mem_nil

/-- field を一つずつ取るのは、まとめて取るのと同じである。 -/
theorem pick_cons (n : Text) (names : List Text) (name : String) (a b : α) :
    pick (n :: names) name a b = pick names name a (pick [n] name a b) := by
  unfold pick
  by_cases hmem : name.toList ∈ names
  · rw [if_pos (List.mem_cons_of_mem n hmem), if_pos hmem]
  · rw [if_neg hmem]
    exact if_congr (by simp [hmem]) rfl rfl

/-- 最初の field の名だけが、残りの field に無い。 -/
theorem pick_tail {n : Text} (hnodup : (n :: names).Nodup) (h : name.toList ∈ n :: names)
    (a b : α) : pick names name a b = pick [n] name b a := by
  have hmem : name.toList ∈ names ↔ name.toList ∉ [n] := by
    rw [List.mem_singleton]
    refine ⟨?_, fun hne => (List.mem_cons.mp h).resolve_left hne⟩
    rintro hname rfl
    exact (List.nodup_cons.mp hnodup).1 hname
  unfold pick
  rw [if_congr hmem rfl rfl, ite_not]

end Pick

theorem EdgeEntry.merge_nil (src cur : EdgeEntry) : src.merge [] cur = cur := by
  simp only [EdgeEntry.merge, pick_nil]

theorem EndEntry.merge_nil (src cur : EndEntry) : src.merge [] cur = cur := by
  simp only [EndEntry.merge, pick_nil]

theorem EdgeEntry.merge_cons (src cur : EdgeEntry) (n : Text) (names : List Text) :
    src.merge (n :: names) cur = src.merge names (src.merge [n] cur) := by
  unfold EdgeEntry.merge
  simp only [pick_cons n names]

theorem EndEntry.merge_cons (src cur : EndEntry) (n : Text) (names : List Text) :
    src.merge (n :: names) cur = src.merge names (src.merge [n] cur) := by
  unfold EndEntry.merge
  simp only [pick_cons n names]

section Edge

variable {pads : Nat → Text} {src : EdgeEntry} {f : Field} {fs : List Field}

/-- 全ての field を取れば、元の値になる。 -/
theorem EdgeEntry.merge_all (hperm : fs.Perm (edgeFields pads src)) (cur : EdgeEntry) :
    src.merge (fs.map Field.name) cur = src := by
  have hall := hperm.map Field.name
  unfold EdgeEntry.merge
  rw [pick_of_mem (hall.mem_iff.mpr (by simp [edgeFields])),
    pick_of_mem (hall.mem_iff.mpr (by simp [edgeFields])),
    pick_of_mem (hall.mem_iff.mpr (by simp [edgeFields])),
    pick_of_mem (hall.mem_iff.mpr (by simp [edgeFields]))]

/-- 最初の field を読み飛ばせば、その field だけが既定値になる。 -/
theorem EdgeEntry.merge_tail (hperm : (f :: fs).Perm (edgeFields pads src)) :
    src.merge (fs.map Field.name) .zero = src.drop f.name := by
  have hall := hperm.map Field.name
  have hnodup : (f.name :: fs.map Field.name).Nodup :=
    hall.nodup_iff.mpr (by simp [edgeFields])
  unfold EdgeEntry.drop EdgeEntry.merge
  rw [pick_tail hnodup (hall.mem_iff.mpr (by simp [edgeFields])),
    pick_tail hnodup (hall.mem_iff.mpr (by simp [edgeFields])),
    pick_tail hnodup (hall.mem_iff.mpr (by simp [edgeFields])),
    pick_tail hnodup (hall.mem_iff.mpr (by simp [edgeFields]))]

/-- 書いた field は、その名の値だけを置き換える。 -/
theorem EdgeEntry.parseKv_field (hpads : ∀ i, Blank (pads i)) (he : src.Printable)
    (hf : f ∈ edgeFields pads src) (cur : EdgeEntry) :
    cur.parseKv f.name f.value = some (src.merge [f.name] cur) := by
  have hends : parseIntList ('[' :: (intListText pads 10 src.endIds ++ [']'])) =
      some src.endIds := by
    by_cases hne : src.endIds = []
    · rw [hne]
      rfl
    · have h := parseIntList_eq hpads hne he.endIds (i := 10) (p := []) (by simp [Blank])
        (Or.inl rfl)
      rwa [List.nil_append, List.append_nil] at h
  simp only [edgeFields, List.mem_cons, List.not_mem_nil, or_false] at hf
  rcases hf with rfl | rfl | rfl | rfl
  · simp [EdgeEntry.parseKv, stoi_printInt_self he.id, EdgeEntry.merge, pick]
  · simp [EdgeEntry.parseKv, EdgeEntry.merge, pick]
  · simp [EdgeEntry.parseKv, parsePort_printInt he.port, EdgeEntry.merge, pick]
  · simp [EdgeEntry.parseKv, hends, EdgeEntry.merge, pick]

end Edge

section End

variable {stod : Text → Option Key} {fmt : NumberFormat stod} {pads : Nat → Text}
  {src : EndEntry} {f : Field} {fs : List Field}

theorem EndEntry.merge_all (hperm : fs.Perm (endLineFields fmt pads src)) (cur : EndEntry) :
    src.merge (fs.map Field.name) cur = src := by
  have hall := hperm.map Field.name
  unfold EndEntry.merge
  rw [pick_of_mem (hall.mem_iff.mpr (by simp [endLineFields])),
    pick_of_mem (hall.mem_iff.mpr (by simp [endLineFields])),
    pick_of_mem (hall.mem_iff.mpr (by simp [endLineFields])),
    pick_of_mem (hall.mem_iff.mpr (by simp [endLineFields])),
    pick_of_mem (hall.mem_iff.mpr (by simp [endLineFields])),
    pick_of_mem (hall.mem_iff.mpr (by simp [endLineFields]))]

theorem EndEntry.merge_tail (hperm : (f :: fs).Perm (endLineFields fmt pads src)) :
    src.merge (fs.map Field.name) .zero = src.drop f.name := by
  have hall := hperm.map Field.name
  have hnodup : (f.name :: fs.map Field.name).Nodup :=
    hall.nodup_iff.mpr (by simp [endLineFields])
  unfold EndEntry.drop EndEntry.merge
  rw [pick_tail hnodup (hall.mem_iff.mpr (by simp [endLineFields])),
    pick_tail hnodup (hall.mem_iff.mpr (by simp [endLineFields])),
    pick_tail hnodup (hall.mem_iff.mpr (by simp [endLineFields])),
    pick_tail hnodup (hall.mem_iff.mpr (by simp [endLineFields])),
    pick_tail hnodup (hall.mem_iff.mpr (by simp [endLineFields])),
    pick_tail hnodup (hall.mem_iff.mpr (by simp [endLineFields]))]

theorem EndEntry.parseKv_field (he : src.Printable) (hf : f ∈ endLineFields fmt pads src)
    (cur : EndEntry) :
    EndEntry.parseKv stod cur f.name f.value = some (src.merge [f.name] cur) := by
  simp only [endLineFields, List.mem_cons, List.not_mem_nil, or_false] at hf
  rcases hf with rfl | rfl | rfl | rfl | rfl | rfl
  · simp [EndEntry.parseKv, stoi_printInt_self he.id, EndEntry.merge, pick]
  · simp [EndEntry.parseKv, stoi_printInt_self he.edgeId, EndEntry.merge, pick]
  · simp [EndEntry.parseKv, EndEntry.merge, pick]
  · simp [EndEntry.parseKv, parsePort_printInt he.port, EndEntry.merge, pick]
  · simp [EndEntry.parseKv, fmt.inverts _ he.keyLo, EndEntry.merge, pick]
  · simp [EndEntry.parseKv, fmt.inverts _ he.keyHi, EndEntry.merge, pick]

end End

/-! ## 始まっていない項目 -/

namespace LoadState

/-- 始まっていない項目の値は既定値である。 -/
structure Fresh (st : LoadState) : Prop where
  curEdge : st.inEdge = false → st.curEdge = .zero
  curEnd : st.inEnd = false → st.curEnd = .zero

theorem fresh_initial (port : Nat) : (initial port).Fresh := ⟨fun _ => rfl, fun _ => rfl⟩

section Fresh

variable {stod : Text → Option Key} {st st' : LoadState} {line : Text}

theorem Fresh.flushEdge_curEdge (h : st.Fresh) : st.flushEdge.curEdge = .zero := by
  unfold flushEdge
  split
  · rfl
  · next hopen => exact h.curEdge (Bool.eq_false_iff.mpr hopen)

theorem Fresh.flushEnd_curEnd (h : st.Fresh) : st.flushEnd.curEnd = .zero := by
  unfold flushEnd
  split
  · rfl
  · next hopen => exact h.curEnd (Bool.eq_false_iff.mpr hopen)

theorem Fresh.flushEdge (h : st.Fresh) : st.flushEdge.Fresh where
  curEdge _ := h.flushEdge_curEdge
  curEnd hopen := by
    unfold LoadState.flushEdge at hopen ⊢
    split_ifs at hopen ⊢ <;> exact h.curEnd hopen

theorem Fresh.flushEnd (h : st.Fresh) : st.flushEnd.Fresh where
  curEdge hopen := by
    unfold LoadState.flushEnd at hopen ⊢
    split_ifs at hopen ⊢ <;> exact h.curEdge hopen
  curEnd _ := h.flushEnd_curEnd

theorem Fresh.enter (h : st.Fresh) (sec : TopologySection) : (st.enter sec).Fresh :=
  ⟨h.flushEdge.flushEnd.curEdge, h.flushEdge.flushEnd.curEnd⟩

theorem Fresh.cloudLine (h : st.Fresh) (hl : st.cloudLine line = some st') : st'.Fresh := by
  unfold LoadState.cloudLine at hl
  split at hl
  · rwa [← Option.some.inj hl]
  · split at hl
    · rw [← Option.some.inj hl]
      exact ⟨h.curEdge, h.curEnd⟩
    · split at hl
      · obtain ⟨_, -, rfl⟩ := Option.map_eq_some_iff.mp hl
        exact ⟨h.curEdge, h.curEnd⟩
      · rwa [← Option.some.inj hl]

/-- 項目の値が変わるのは、項目が始まってからである。 -/
theorem Fresh.edgeLine (h : st.Fresh) (hl : st.edgeLine line = some st') : st'.Fresh := by
  unfold LoadState.edgeLine at hl
  split at hl
  · dsimp only at hl
    split at hl
    · obtain ⟨_, -, rfl⟩ := Option.map_eq_some_iff.mp hl
      exact ⟨nofun, h.flushEdge.curEnd⟩
    · rw [← Option.some.inj hl]
      exact ⟨nofun, h.flushEdge.curEnd⟩
  · split at hl
    · next hopen =>
      split at hl
      · rwa [← Option.some.inj hl]
      · obtain ⟨_, -, rfl⟩ := Option.map_eq_some_iff.mp hl
        exact ⟨fun hc => absurd hc (by simp [hopen]), h.curEnd⟩
    · rwa [← Option.some.inj hl]

theorem Fresh.endLine (h : st.Fresh) (hl : st.endLine stod line = some st') : st'.Fresh := by
  unfold LoadState.endLine at hl
  split at hl
  · dsimp only at hl
    split at hl
    · obtain ⟨_, -, rfl⟩ := Option.map_eq_some_iff.mp hl
      exact ⟨h.flushEnd.curEdge, nofun⟩
    · rw [← Option.some.inj hl]
      exact ⟨h.flushEnd.curEdge, nofun⟩
  · split at hl
    · next hopen =>
      split at hl
      · rwa [← Option.some.inj hl]
      · obtain ⟨_, -, rfl⟩ := Option.map_eq_some_iff.mp hl
        exact ⟨h.curEdge, fun hc => absurd hc (by simp [hopen])⟩
    · rwa [← Option.some.inj hl]

/-- 一行の後も、始まっていない項目の値は既定値である。 -/
theorem Fresh.step (h : st.Fresh) {raw : Text} (hstep : step stod st raw = some st') :
    st'.Fresh := by
  unfold LoadState.step at hstep
  dsimp only at hstep
  split at hstep
  · rwa [← Option.some.inj hstep]
  · split at hstep
    · split at hstep
      · obtain ⟨r, -, rfl⟩ := Option.map_eq_some_iff.mp hstep
        exact ⟨(h.enter .cloud).curEdge, (h.enter .cloud).curEnd⟩
      · rw [← Option.some.inj hstep]
        exact h.enter .cloud
    · split at hstep
      · rw [← Option.some.inj hstep]
        exact h.enter .edges
      · split at hstep
        · rw [← Option.some.inj hstep]
          exact h.enter .ends
        · split at hstep
          · rwa [← Option.some.inj hstep]
          · exact h.cloudLine hstep
          · exact h.edgeLine hstep
          · exact h.endLine hstep

theorem Fresh.foldlM (h : st.Fresh) {lines : List Text}
    (hrun : lines.foldlM (LoadState.step stod) st = some st') : st'.Fresh := by
  induction lines generalizing st with
  | nil =>
    obtain rfl := Option.some.inj hrun
    exact h
  | cons raw lines ih =>
    rw [List.foldlM_cons] at hrun
    obtain ⟨st₁, hstep, hrest⟩ := Option.bind_eq_some_iff.mp hrun
    exact ih (h.step hstep) hrest

end Fresh

end LoadState

/-! ## field の行を読む -/

/-- 一行に書ける field。 -/
structure Field.OneLine (f : Field) : Prop where
  name : f.name ∈ fieldNames
  pad : Blank f.pad
  value : IsLine f.value

theorem Field.OneLine.isLine {f : Field} (h : f.OneLine) : IsLine f.line :=
  isLine_keyValue (isWord_fieldName h.name) h.pad h.value

theorem edgeFields_oneLine {pads : Nat → Text} (hpads : ∀ i, Blank (pads i)) {e : EdgeEntry}
    (he : e.Printable) : ∀ f ∈ edgeFields pads e, f.OneLine := by
  have hends : IsLine ('[' :: (intListText pads 10 e.endIds ++ [']'])) := by
    have hfree (x : Char) (hx : IsMark x) : x ∉ '[' :: (intListText pads 10 e.endIds ++ [']']) :=
      (edgeFields_free hpads he.host hx ⟨pads 7, "ends".toList, pads 8, _⟩
        (by simp [edgeFields])).2.2.2
    refine ⟨⟨by simp, ?_, ?_, hfree _ (Or.inr (Or.inl rfl))⟩, hfree _ (Or.inr (Or.inr rfl))⟩
    · rintro x hx
      obtain rfl : '[' = x := by simpa using hx
      rfl
    · intro x hx
      rw [← List.cons_append, List.getLast?_concat] at hx
      obtain rfl := Option.some.inj hx
      rfl
  intro f hf
  simp only [edgeFields, List.mem_cons, List.not_mem_nil, or_false] at hf
  rcases hf with rfl | rfl | rfl | rfl
  · exact ⟨by simp [fieldNames], hpads 2, (isWord_printInt e.id).isLine⟩
  · exact ⟨by simp [fieldNames], hpads 4, he.host.isWord.isLine⟩
  · exact ⟨by simp [fieldNames], hpads 6, (isWord_printInt e.port).isLine⟩
  · exact ⟨by simp [fieldNames], hpads 8, hends⟩

theorem endLineFields_oneLine {stod : Text → Option Key} {fmt : NumberFormat stod}
    {pads : Nat → Text} (hpads : ∀ i, Blank (pads i)) {e : EndEntry} (he : e.Printable) :
    ∀ f ∈ endLineFields fmt pads e, f.OneLine := by
  intro f hf
  simp only [endLineFields, List.mem_cons, List.not_mem_nil, or_false] at hf
  rcases hf with rfl | rfl | rfl | rfl | rfl | rfl
  · exact ⟨by simp [fieldNames], hpads 2, (isWord_printInt e.id).isLine⟩
  · exact ⟨by simp [fieldNames], hpads 4, (isWord_printInt e.edgeId).isLine⟩
  · exact ⟨by simp [fieldNames], hpads 6, he.host.isWord.isLine⟩
  · exact ⟨by simp [fieldNames], hpads 8, (isWord_printInt e.port).isLine⟩
  · exact ⟨by simp [fieldNames], hpads 10, (fmt.isWord e.keyLo).isLine⟩
  · exact ⟨by simp [fieldNames], hpads 12, (fmt.isWord e.keyHi).isLine⟩

namespace LoadState

variable {stod : Text → Option Key}

/-- 始まっている Edge に、一つの field を足す。 -/
theorem step_edgeField {f : Field} (hf : f.OneLine) {st : LoadState} (hsec : st.sec = .edges)
    (hopen : st.inEdge = true) : step stod st f.line =
      (st.curEdge.parseKv f.name f.value).map fun curEdge => { st with curEdge } := by
  obtain ⟨-, -, -, hdash, -⟩ := @not_heading_keyValue f.name f.pad f.value hf.name
    hf.value.tidy.nonempty
  have hstep := @step_keyValue stod f.name f.pad f.value hf.name hf.pad hf.value st
  rw [hsec] at hstep
  refine hstep.trans ?_
  dsimp only
  rw [edgeLine, if_neg hdash, if_pos hopen,
    splitKv_keyValue (isWord_fieldName hf.name) hf.pad hf.value.tidy]

theorem step_endField {f : Field} (hf : f.OneLine) {st : LoadState} (hsec : st.sec = .ends)
    (hopen : st.inEnd = true) : step stod st f.line =
      (EndEntry.parseKv stod st.curEnd f.name f.value).map fun curEnd => { st with curEnd } := by
  obtain ⟨-, -, -, hdash, -⟩ := @not_heading_keyValue f.name f.pad f.value hf.name
    hf.value.tidy.nonempty
  have hstep := @step_keyValue stod f.name f.pad f.value hf.name hf.pad hf.value st
  rw [hsec] at hstep
  refine hstep.trans ?_
  dsimp only
  rw [endLine, if_neg hdash, if_pos hopen,
    splitKv_keyValue (isWord_fieldName hf.name) hf.pad hf.value.tidy]

/-- **続く行の field は、書いた順に依らず、その名の値を置き換える。** -/
theorem foldlM_edgeFields {pads : Nat → Text} (hpads : ∀ i, Blank (pads i)) {e : EdgeEntry}
    (he : e.Printable) {fs : List Field} (hfs : ∀ f ∈ fs, f ∈ edgeFields pads e) {st : LoadState}
    (hsec : st.sec = .edges) (hopen : st.inEdge = true) :
    (fs.map Field.line).foldlM (step stod) st =
      some { st with curEdge := e.merge (fs.map Field.name) st.curEdge } := by
  induction fs generalizing st with
  | nil =>
    rw [List.map_nil, List.map_nil, EdgeEntry.merge_nil]
    rfl
  | cons f fs ih =>
    obtain ⟨hf, hrest⟩ := List.forall_mem_cons.mp hfs
    have hstep : step stod st f.line =
        some { st with curEdge := e.merge [f.name] st.curEdge } := by
      rw [step_edgeField (edgeFields_oneLine hpads he f hf) hsec hopen,
        EdgeEntry.parseKv_field hpads he hf]
      rfl
    have hnext := @ih hrest { st with curEdge := e.merge [f.name] st.curEdge } hsec hopen
    rw [List.map_cons, List.foldlM_cons, hstep, List.map_cons,
      EdgeEntry.merge_cons e st.curEdge f.name (fs.map Field.name)]
    exact hnext

theorem foldlM_endFields {fmt : NumberFormat stod} {pads : Nat → Text}
    (hpads : ∀ i, Blank (pads i)) {e : EndEntry} (he : e.Printable) {fs : List Field}
    (hfs : ∀ f ∈ fs, f ∈ endLineFields fmt pads e) {st : LoadState} (hsec : st.sec = .ends)
    (hopen : st.inEnd = true) :
    (fs.map Field.line).foldlM (step stod) st =
      some { st with curEnd := e.merge (fs.map Field.name) st.curEnd } := by
  induction fs generalizing st with
  | nil =>
    rw [List.map_nil, List.map_nil, EndEntry.merge_nil]
    rfl
  | cons f fs ih =>
    obtain ⟨hf, hrest⟩ := List.forall_mem_cons.mp hfs
    have hstep : step stod st f.line = some { st with curEnd := e.merge [f.name] st.curEnd } := by
      rw [step_endField (endLineFields_oneLine hpads he f hf) hsec hopen,
        EndEntry.parseKv_field he hf]
      rfl
    have hnext := @ih hrest { st with curEnd := e.merge [f.name] st.curEnd } hsec hopen
    rw [List.map_cons, List.foldlM_cons, hstep, List.map_cons,
      EndEntry.merge_cons e st.curEnd f.name (fs.map Field.name)]
    exact hnext

end LoadState

/-! ## 一行の Edge の `ends` -/

/-- 数は `c` で始まらない。 -/
def NotNumeral (c : Char) : Prop :=
  Text.isSpace c = false ∧ c ≠ '-' ∧ c ≠ '+' ∧ c.isDigit = false

theorem NotNumeral.stoi {c : Char} (h : NotNumeral c) (t : Text) : Text.stoi (c :: t) = none := by
  obtain ⟨hspace, hminus, hplus, hdigit⟩ := h
  have hdrop : (c :: t).dropWhile Text.isSpace = c :: t :=
    List.dropWhile_cons_of_neg (by simp [hspace])
  have hsign : Text.splitSign (c :: t) = (false, c :: t) := by
    rw [Text.splitSign]
    · rintro s hs
      exact hminus (List.cons.inj hs).1
    · rintro s hs
      exact hplus (List.cons.inj hs).1
  rw [Text.stoi, hdrop, hsign]
  dsimp only
  rw [if_pos (List.takeWhile_cons_of_neg (by simp [hdigit]))]

theorem NotNumeral.not_blank {c : Char} (h : NotNumeral c) : isBlankChar c = false := by
  have hspace := h.1
  simp only [Text.isSpace, Bool.or_eq_false_iff, decide_eq_false_iff_not] at hspace
  simp [isBlankChar, hspace]

/-- 最初の断片は、`,` の無い頭を含む。 -/
theorem splitOn_head {a : Text} (ha : ',' ∉ a) (s : Text) :
    ∃ z rest, (a ++ s).splitOn ',' = (a ++ z) :: rest := by
  induction s generalizing a with
  | nil => exact ⟨[], [], by rw [List.append_nil, List.splitOn_eq_singleton ha]⟩
  | cons x s ih =>
    by_cases hx : x = ','
    · exact ⟨[], s.splitOn ',', by
        rw [hx, List.splitOn_append_cons_self_of_not_mem ha, List.append_nil]⟩
    · obtain ⟨z, rest, h⟩ := @ih (a ++ [x]) (by simp [ha, Ne.symm hx])
      exact ⟨x :: z, rest, by simpa using h⟩

/-- **数でない断片があれば、整数の列は読めない。** -/
theorem parseIntList_eq_none {s before gap rest : Text} {c : Char} (hgap : Blank gap)
    (hc : NotNumeral c) (hcomma : c ≠ ',')
    (hs : s.filter (fun c => !isBracket c) = gap ++ c :: rest ∨
      s.filter (fun c => !isBracket c) = before ++ ',' :: (gap ++ c :: rest)) :
    parseIntList s = none := by
  obtain ⟨z, more, hhead⟩ := @splitOn_head (gap ++ [c])
    (by simp [comma_not_mem_blank hgap, Ne.symm hcomma]) rest
  rw [List.append_assoc, List.append_assoc] at hhead
  have hmem : gap ++ c :: z ∈ (s.filter fun c => !isBracket c).splitOn ',' := by
    rcases hs with hs | hs
    · rw [hs]
      exact hhead ▸ List.mem_cons_self
    · rw [hs, List.splitOn_append_cons_self]
      exact List.mem_append_right _ (hhead ▸ List.mem_cons_self)
  obtain ⟨t, ht⟩ := @trim_head gap z c (isBlankChar_of_blank hgap) hc.not_blank
  rw [← Option.not_isSome_iff_eq_none, parseIntList_isSome]
  intro hsound
  have hnumeric := hsound (trim (gap ++ c :: z)) (List.mem_map_of_mem hmem) (by rw [ht]; simp)
  rw [ht, Numeric, hc.stoi] at hnumeric
  cases hnumeric

/-- field の名の最初の文字。 -/
theorem exists_name_cons {name : Text} (h : name ∈ fieldNames) :
    ∃ c t, name = c :: t ∧ NotNumeral c ∧ c ≠ ',' ∧ isBracket c = false := by
  simp only [fieldNames, List.map_cons, List.map_nil, List.mem_cons, List.not_mem_nil,
    or_false] at h
  rcases h with rfl | rfl | rfl | rfl | rfl | rfl | rfl
  all_goals exact ⟨_, _, rfl, ⟨by decide, by decide, by decide, by decide⟩, by decide, by decide⟩

section Edge

variable {pads : Nat → Text} {e : EdgeEntry} {fs : List Field}

/-- `ends` の後ろに field があれば、その名も整数として読もうとする。 -/
theorem parseIntList_followed (hpads : ∀ i, Blank (pads i)) {g : Field} (hgap : Blank g.gap)
    (hname : g.name ∈ fieldNames) (tail : Text) (rest : List Field) :
    parseIntList (pads 8 ++ ('[' :: (intListText pads 10 e.endIds ++ [']'])) ++
      afterFields tail (g :: rest)) = none := by
  obtain ⟨c, t, hct, hc, hcomma, hbracket⟩ := exists_name_cons hname
  have hafter : afterFields tail (g :: rest) = ',' :: fieldsText tail (g :: rest) := rfl
  have hfield : (fieldsText tail (g :: rest)).filter (fun c => !isBracket c) =
      g.gap ++ c :: (t ++ ':' :: (g.pad ++ g.value ++ afterFields tail rest)).filter
        fun c => !isBracket c := by
    rw [fieldsText_cons, hct, List.append_assoc, List.filter_append,
      filter_bracket_self (isBracket_of_blank hgap), List.cons_append,
      List.filter_cons_of_pos (by simp [hbracket])]
  have hfilter := filter_intList hpads e.endIds 10 (hpads 8) (afterFields tail (g :: rest))
  rw [hafter, List.filter_cons_of_pos (by decide), hfield] at hfilter
  exact parseIntList_eq_none hgap hc hcomma (Or.inr hfilter)

/-- 空の `ends` では、閉じ括弧 `}` を整数として読もうとする。 -/
theorem parseIntList_empty (hpads : ∀ i, Blank (pads i)) :
    parseIntList (pads 8 ++ ('[' :: (intListText pads 10 [] ++ [']'])) ++ (pads 9 ++ ['\x7d'])) =
      none := by
  have hgap : Blank (pads 8 ++ pads 9) := by
    intro c hc
    rcases List.mem_append.mp hc with hc | hc
    · exact hpads 8 c hc
    · exact hpads 9 c hc
  have hbrace : NotNumeral '\x7d' := ⟨by decide, by decide, by decide, by decide⟩
  have hfilter := filter_intList hpads [] 10 (hpads 8) (pads 9 ++ ['\x7d'])
  have hclose : (pads 9 ++ ['\x7d']).filter (fun c => !isBracket c) = pads 9 ++ ['\x7d'] := by
    rw [List.filter_append, filter_bracket_self (isBracket_of_blank (hpads 9))]
    rfl
  rw [hclose, intListText, List.append_nil, ← List.append_assoc (pads 8) (pads 9)] at hfilter
  exact @parseIntList_eq_none _ [] _ [] _ hgap hbrace (by decide) (Or.inl hfilter)

/-- **一行の Edge の `ends` は、空でなく最後の field であるときにだけ読まれる。** -/
theorem readEndIds_order (hpads : ∀ i, Blank (pads i)) (he : e.Printable)
    (hperm : fs.Perm (edgeFields pads e)) (old : List Int) :
    readEndIds ('\x7b' :: fieldsText (pads 9 ++ ['\x7d']) fs) old =
      if e.endIds ≠ [] ∧ (fs.map Field.name).getLast? = some "ends".toList then some e.endIds
      else none := by
  have hends : (⟨pads 7, "ends".toList, pads 8, '[' :: (intListText pads 10 e.endIds ++ [']'])⟩ :
      Field) ∈ fs := hperm.mem_iff.mpr (by simp [edgeFields])
  obtain ⟨i, hget⟩ := List.mem_iff_getElem?.mp hends
  obtain ⟨hi, hfield⟩ := List.getElem?_eq_some_iff.mp hget
  have hcut : fs = fs.take i ++ fs[i] :: fs.drop (i + 1) := by
    rw [← List.drop_eq_getElem_cons hi, List.take_append_drop]
  rw [readEndIds_fields hpads he.host hperm hget]
  cases hpost : fs.drop (i + 1) with
  | nil =>
    have hlast : (fs.map Field.name).getLast? = some "ends".toList := by
      rw [hcut, hpost, hfield, List.map_append, List.map_singleton, List.getLast?_concat]
    rw [afterFields]
    by_cases hne : e.endIds = []
    · rw [if_neg (by simp [hne]), hne]
      exact parseIntList_empty hpads
    · rw [if_pos ⟨hne, hlast⟩]
      exact parseIntList_eq hpads hne he.endIds (hpads 8) (Or.inr ⟨_, hpads 9, rfl⟩)
  | cons g rest =>
    have hg : g ∈ fs := List.mem_of_mem_drop (i := i + 1) (by rw [hpost]; exact List.mem_cons_self)
    have hg' := hperm.mem_iff.mp hg
    have hgap : Blank g.gap := by
      simp only [edgeFields, List.mem_cons, List.not_mem_nil, or_false] at hg'
      rcases hg' with rfl | rfl | rfl | rfl
      all_goals exact hpads _
    have hlast : (fs.map Field.name).getLast? ≠ some "ends".toList := by
      intro hlast
      have hnodup : (fs.map Field.name).Nodup :=
        (hperm.map Field.name).nodup_iff.mpr (by simp [edgeFields])
      rw [hcut, hpost, hfield, List.map_append, List.map_cons] at hnodup hlast
      rw [List.getLast?_append_of_ne_nil _ (by simp), List.map_cons,
        List.getLast?_cons_cons] at hlast
      have hnot := (List.nodup_cons.mp (List.nodup_append.mp hnodup).2.1).1
      exact hnot (List.mem_of_getLast? hlast)
    rw [if_neg fun h => hlast h.2]
    exact parseIntList_followed hpads hgap (edgeFields_oneLine hpads he g hg').name _ rest

end Edge

/-! ## 項目を読む -/

section Item

variable {stod : Text → Option Key}

theorem isLine_dash : IsLine ['-'] := by
  refine ⟨⟨by simp, ?_, ?_, by decide⟩, by decide⟩
  · rintro x hx
    obtain rfl : '-' = x := by simpa using hx
    rfl
  · rintro x hx
    obtain rfl : '-' = x := by simpa using hx
    rfl

namespace LoadState

/-- `-` の後が括弧でなければ、項目が既定値で始まる。 -/
theorem edgeLine_open {st : LoadState} {line : Text} (hdash : line.head? = some '-')
    (hbrace : (trim (line.drop 1)).head? ≠ some '\x7b') :
    st.edgeLine line = some { st.flushEdge with inEdge := true } := by
  rw [edgeLine, if_pos hdash]
  dsimp only
  rw [if_neg hbrace]

theorem endLine_open {st : LoadState} {line : Text} (hdash : line.head? = some '-')
    (hbrace : (trim (line.drop 1)).head? ≠ some '\x7b') :
    st.endLine stod line = some { st.flushEnd with inEnd := true } := by
  rw [endLine, if_pos hdash]
  dsimp only
  rw [if_neg hbrace]

/-- `-` だけの行。 -/
theorem step_dash (st : LoadState) :
    step stod st ['-'] =
      match st.sec with
      | .none => some st
      | .cloud => st.cloudLine ['-']
      | .edges => some { st.flushEdge with inEdge := true }
      | .ends => some { st.flushEnd with inEnd := true } := by
  have hbrace : (trim (['-'].drop 1)).head? ≠ some '\x7b' := by decide
  rw [step_content isLine_dash.tidy (by decide) (by decide) (by decide)]
  cases st.sec with
  | none => rfl
  | cloud => rfl
  | edges => exact edgeLine_open rfl hbrace
  | ends => exact endLine_open rfl hbrace

/-- `- name: value` の行の field は読まれない。 -/
theorem step_firstField {pad : Text} (hpad : Blank pad) {f : Field} (hf : f.OneLine)
    (st : LoadState) :
    step stod st (itemLine pad f.line) =
      match st.sec with
      | .none => some st
      | .cloud => st.cloudLine (itemLine pad f.line)
      | .edges => some { st.flushEdge with inEdge := true }
      | .ends => some { st.flushEnd with inEnd := true } := by
  obtain ⟨-, -, -, -, hbrace⟩ := @not_heading_keyValue f.name f.pad f.value hf.name
    hf.value.tidy.nonempty
  have hrest : (trim ((itemLine pad f.line).drop 1)).head? ≠ some '\x7b' := by
    rw [trim_item hf.isLine.tidy hpad]
    exact hbrace
  rw [step_item hf.isLine hpad]
  cases st.sec with
  | none => rfl
  | cloud => rfl
  | edges => exact edgeLine_open (head_itemLine _ _) hrest
  | ends => exact endLine_open (head_itemLine _ _) hrest

end LoadState

theorem isLine_itemLines {pad close : Text} (hpad : Blank pad) {style : ItemStyle}
    {fs : List Field}
    (hbody : style = .inline → IsBody ('\x7b' :: fieldsText (close ++ ['\x7d']) fs))
    (hfs : style ≠ .inline → ∀ f ∈ fs, f.OneLine) :
    ∀ l ∈ itemLines pad close style fs, IsLine l := by
  cases style with
  | inline => simpa [itemLines] using isLine_itemLine (hbody rfl).isLine hpad
  | lone =>
    refine List.forall_mem_cons.mpr ⟨isLine_dash, List.forall_mem_map.mpr fun f hf => ?_⟩
    exact (hfs nofun f hf).isLine
  | first =>
    cases fs with
    | nil => simp [itemLines]
    | cons f fs =>
      obtain ⟨hf, hrest⟩ := List.forall_mem_cons.mp (hfs nofun)
      refine List.forall_mem_cons.mpr
        ⟨isLine_itemLine hf.isLine hpad, List.forall_mem_map.mpr fun g hg => ?_⟩
      exact (hrest g hg).isLine

theorem isBody_edgeFields {pads : Nat → Text} (hpads : ∀ i, Blank (pads i)) {e : EdgeEntry}
    (he : e.Printable) {fs : List Field} (hperm : fs.Perm (edgeFields pads e)) :
    IsBody ('\x7b' :: fieldsText (pads 9 ++ ['\x7d']) fs) := by
  have hne : fs ≠ [] := by
    rintro rfl
    exact absurd hperm.length_eq (by simp [edgeFields])
  exact isBody_of_fields hne (hpads 9) fun x hx f hf =>
    edgeFields_free hpads he.host hx f (hperm.mem_iff.mp hf)

theorem isBody_endFields {fmt : NumberFormat stod} {pads : Nat → Text}
    (hpads : ∀ i, Blank (pads i)) {e : EndEntry} (he : e.Printable) {fs : List Field}
    (hperm : fs.Perm (endFields fmt pads e)) :
    IsBody ('\x7b' :: fieldsText (pads 14 ++ ['\x7d']) fs) := by
  have hne : fs ≠ [] := by
    rintro rfl
    exact absurd hperm.length_eq (by simp [endFields])
  exact isBody_of_fields hne (hpads 14) fun x hx f hf =>
    endFields_free hpads he.host hx f (hperm.mem_iff.mp hf)

theorem isLine_edgeItem {w : Written EdgeEntry} {lines : List Text} (h : EdgeWritten w lines)
    (he : w.entry.Printable) : ∀ l ∈ lines, IsLine l := by
  obtain ⟨pads, fs, hpads, hperm, -, rfl⟩ := h
  exact isLine_itemLines (hpads 0) (fun _ => isBody_edgeFields hpads he hperm)
    fun _ f hf => edgeFields_oneLine hpads he f (hperm.mem_iff.mp hf)

theorem isLine_endItem {fmt : NumberFormat stod} {w : Written EndEntry} {lines : List Text}
    (h : EndWritten fmt w lines) (he : w.entry.Printable) : ∀ l ∈ lines, IsLine l := by
  obtain ⟨pads, fs, hpads, hperm, -, rfl⟩ := h
  refine isLine_itemLines (hpads 0) (fun hstyle => ?_) fun hstyle f hf => ?_
  · rw [hstyle] at hperm
    exact isBody_endFields hpads he hperm
  · have hfields : fs.Perm (endLineFields fmt pads w.entry) := by
      cases hw : w.style with
      | inline => exact absurd hw hstyle
      | lone => rwa [hw] at hperm
      | first => rwa [hw] at hperm
    exact endLineFields_oneLine hpads he f (hfields.mem_iff.mp hf)

theorem isLine_styledBlock {E : Type} {heading : Text}
    (hheading : heading = "cloud:".toList ∨ heading = "edges:".toList ∨ heading = "ends:".toList)
    {written : Written E → List Text → Prop} {items : List (Written E)} {block : List Text}
    (h : StyledBlock heading written items block)
    (hitems : ∀ w lines, w ∈ items → written w lines → ∀ l ∈ lines, IsLine l) :
    ∀ l ∈ block, IsLine l := by
  obtain ⟨groups, hgroups, rfl⟩ := h
  refine List.forall_mem_cons.mpr ⟨isLine_heading hheading, fun l hl => ?_⟩
  obtain ⟨lines, hlines, hl⟩ := List.mem_flatten.mp hl
  obtain ⟨i, hi, rfl⟩ := List.mem_iff_getElem.mp hlines
  have hlen := hgroups.length_eq
  exact hitems _ _ (List.getElem_mem (hlen ▸ hi)) (hgroups.get (hlen ▸ hi) hi) l hl

/-- **Edge の項目は、どの書き方でも `readEdge` の値に読まれる。** -/
theorem LoadState.foldlM_edgeItem {w : Written EdgeEntry} {lines : List Text}
    (h : EdgeWritten w lines) (he : w.entry.Printable) {st : LoadState} (hfresh : st.Fresh)
    (hsec : st.sec = .edges) :
    lines.foldlM (step stod) st =
      w.readEdge.map fun curEdge => { st.flushEdge with inEdge := true, curEdge } := by
  obtain ⟨pads, fs, hpads, hperm, horder, rfl⟩ := h
  have hmem : ∀ f ∈ fs, f ∈ edgeFields pads w.entry := fun f hf => hperm.mem_iff.mp hf
  have hopened : { st.flushEdge with inEdge := true }.sec = .edges :=
    st.flushEdge_sec.trans hsec
  unfold Written.readEdge
  cases hstyle : w.style with
  | inline =>
    have hbody := isBody_edgeFields hpads he hperm
    have hstep := @step_item stod (pads 0) _ hbody.isLine (hpads 0) st
    rw [hsec] at hstep
    rw [itemLines, List.foldlM_cons, hstep]
    dsimp only
    rw [edgeLine, if_pos (head_itemLine _ _)]
    dsimp only
    rw [trim_item hbody.tidy (hpads 0), if_pos hbody.brace,
      EdgeEntry.parseInline_fields hpads he.id he.host he.port hperm,
      readEndIds_order hpads he hperm, horder]
    split
    · rfl
    · rfl
  | lone =>
    have hstep := @step_dash stod st
    rw [hsec] at hstep
    have hrun := @foldlM_edgeFields stod pads hpads w.entry he fs hmem
      { st.flushEdge with inEdge := true } hopened rfl
    rw [EdgeEntry.merge_all hperm] at hrun
    rw [itemLines, List.foldlM_cons, hstep]
    exact hrun
  | first =>
    cases fs with
    | nil => exact absurd hperm.length_eq (by simp [edgeFields])
    | cons f fs =>
      obtain ⟨hf, hrest⟩ := List.forall_mem_cons.mp hmem
      have hstep := @step_firstField stod (pads 0) (hpads 0) f
        (edgeFields_oneLine hpads he f hf) st
      rw [hsec] at hstep
      have hrun := @foldlM_edgeFields stod pads hpads w.entry he fs hrest
        { st.flushEdge with inEdge := true } hopened rfl
      rw [hfresh.flushEdge_curEdge, EdgeEntry.merge_tail hperm] at hrun
      rw [itemLines, List.foldlM_cons, hstep, ← horder]
      exact hrun

/-- **End の項目は、どの書き方でも `readEnd` の値に読まれる。** -/
theorem LoadState.foldlM_endItem {fmt : NumberFormat stod} {w : Written EndEntry}
    {lines : List Text} (h : EndWritten fmt w lines) (he : w.entry.Printable) {st : LoadState}
    (hfresh : st.Fresh) (hsec : st.sec = .ends) :
    lines.foldlM (step stod) st =
      some { st.flushEnd with inEnd := true, curEnd := w.readEnd } := by
  obtain ⟨pads, fs, hpads, hperm, horder, rfl⟩ := h
  have hopened : { st.flushEnd with inEnd := true }.sec = .ends := st.flushEnd_sec.trans hsec
  unfold Written.readEnd
  cases hstyle : w.style with
  | inline =>
    rw [hstyle] at hperm
    have hbody := isBody_endFields hpads he hperm
    have hstep := @step_item stod (pads 0) _ hbody.isLine (hpads 0) st
    rw [hsec] at hstep
    rw [itemLines, List.foldlM_cons, hstep]
    dsimp only
    rw [endLine, if_pos (head_itemLine _ _)]
    dsimp only
    rw [trim_item hbody.tidy (hpads 0), if_pos hbody.brace,
      EndEntry.parseInline_fields hpads he.id he.edgeId he.host he.port he.keyLo he.keyHi hperm]
    rfl
  | lone =>
    rw [hstyle] at hperm
    have hstep := @step_dash stod st
    rw [hsec] at hstep
    have hrun := @foldlM_endFields stod fmt pads hpads w.entry he fs
      (fun f hf => hperm.mem_iff.mp hf) { st.flushEnd with inEnd := true } hopened rfl
    rw [EndEntry.merge_all hperm] at hrun
    rw [itemLines, List.foldlM_cons, hstep]
    exact hrun
  | first =>
    rw [hstyle] at hperm
    cases fs with
    | nil => exact absurd hperm.length_eq (by simp [endLineFields])
    | cons f fs =>
      obtain ⟨hf, hrest⟩ := List.forall_mem_cons.mp fun f hf => hperm.mem_iff.mp hf
      have hstep := @step_firstField stod (pads 0) (hpads 0) f
        (endLineFields_oneLine hpads he f hf) st
      rw [hsec] at hstep
      have hrun := @foldlM_endFields stod fmt pads hpads w.entry he fs hrest
        { st.flushEnd with inEnd := true } hopened rfl
      rw [hfresh.flushEnd_curEnd, EndEntry.merge_tail hperm] at hrun
      rw [itemLines, List.foldlM_cons, hstep, ← horder]
      exact hrun

end Item

/-! ## file を読む -/

/-- 確定していない項目も含めて、読んだもの。 -/
def LoadState.topology (st : LoadState) : Topology where
  cloud := st.cloud
  edges := st.flushEdge.edges
  ends := st.flushEnd.ends

section Run

variable {stod : Text → Option Key}

/-- 行の列 `block` は、読んだものを `effect` で書き換える。`none` は例外である。 -/
def BlockReads (stod : Text → Option Key) (block : List Text)
    (effect : Topology → Option Topology) : Prop :=
  ∀ st : LoadState, st.Fresh →
    (block.foldlM (LoadState.step stod) st).map LoadState.topology = effect st.topology

theorem BlockReads.append {a b : List Text} {f g : Topology → Option Topology}
    (ha : BlockReads stod a f) (hb : BlockReads stod b g) :
    BlockReads stod (a ++ b) fun t => (f t).bind g := by
  intro st hst
  dsimp only
  rw [List.foldlM_append, ← ha st hst]
  cases hrun : a.foldlM (LoadState.step stod) st with
  | none => rfl
  | some st' => exact hb st' (hst.foldlM hrun)

namespace LoadState

theorem topology_enter (st : LoadState) (sec : TopologySection) :
    (st.enter sec).topology = st.topology := by
  rw [topology, topology, enter_cloud, enter_edges, enter_ends]

/-- 項目が始まると、前の項目が確定する。 -/
theorem topology_openEdge (st : LoadState) (e : EdgeEntry) :
    { st.flushEdge with inEdge := true, curEdge := e }.topology =
      { st.topology with edges := st.topology.edges ++ [e] } := by
  unfold topology LoadState.flushEdge LoadState.flushEnd
  split_ifs <;> simp_all

theorem topology_openEnd (st : LoadState) (e : EndEntry) :
    { st.flushEnd with inEnd := true, curEnd := e }.topology =
      { st.topology with ends := st.topology.ends ++ [e] } := by
  unfold topology LoadState.flushEdge LoadState.flushEnd
  split_ifs <;> simp_all

end LoadState

theorem reads_cloudBlock {c : CloudInfo} {block : List Text} (h : CloudBlock c block)
    (hhost : IsHost c.host) (hport : c.port < 2 ^ 16) :
    BlockReads stod block fun t => some { t with cloud := c } := by
  intro st _
  obtain ⟨st', hrun, hcloud, hedges, hends⟩ := @adds_cloudBlock stod c block h hhost hport st
  rw [List.append_nil] at hedges hends
  rw [hrun, Option.map_some, LoadState.topology, hcloud, hedges, hends]
  rfl

/-- 項目を順に読む。一つでも読めなければ例外である。 -/
theorem foldlM_edgeGroups {items : List (Written EdgeEntry)} {groups : List (List Text)}
    (h : List.Forall₂ EdgeWritten items groups) (hitems : ∀ w ∈ items, w.entry.Printable)
    {st : LoadState} (hst : st.Fresh) (hsec : st.sec = .edges) :
    (groups.flatten.foldlM (LoadState.step stod) st).map LoadState.topology =
      (items.mapM Written.readEdge).map fun es =>
        { st.topology with edges := st.topology.edges ++ es } := by
  induction h generalizing st with
  | nil => simp
  | @cons w lines items groups hline hrest ih =>
    obtain ⟨hw, hitems'⟩ := List.forall_mem_cons.mp hitems
    have hrun := @LoadState.foldlM_edgeItem stod w lines hline hw st hst hsec
    rw [List.flatten_cons, List.foldlM_append, List.mapM_cons, hrun]
    cases hread : w.readEdge with
    | none => rfl
    | some e =>
      rw [hread] at hrun
      have hnext := @ih hitems' { st.flushEdge with inEdge := true, curEdge := e }
        (hst.foldlM hrun) (st.flushEdge_sec.trans hsec)
      rw [LoadState.topology_openEdge] at hnext
      refine hnext.trans ?_
      cases items.mapM Written.readEdge with
      | none => rfl
      | some es => simp

theorem foldlM_endGroups {fmt : NumberFormat stod} {items : List (Written EndEntry)}
    {groups : List (List Text)} (h : List.Forall₂ (EndWritten fmt) items groups)
    (hitems : ∀ w ∈ items, w.entry.Printable) {st : LoadState} (hst : st.Fresh)
    (hsec : st.sec = .ends) :
    (groups.flatten.foldlM (LoadState.step stod) st).map LoadState.topology =
      some { st.topology with ends := st.topology.ends ++ items.map Written.readEnd } := by
  induction h generalizing st with
  | nil => simp
  | @cons w lines items groups hline hrest ih =>
    obtain ⟨hw, hitems'⟩ := List.forall_mem_cons.mp hitems
    have hrun := LoadState.foldlM_endItem hline hw hst hsec
    have hnext := @ih hitems' { st.flushEnd with inEnd := true, curEnd := w.readEnd }
      (hst.foldlM hrun) (st.flushEnd_sec.trans hsec)
    rw [LoadState.topology_openEnd] at hnext
    rw [List.flatten_cons, List.foldlM_append, hrun, List.map_cons]
    refine hnext.trans ?_
    simp

theorem reads_edgesBlock {items : List (Written EdgeEntry)} {block : List Text}
    (h : StyledBlock "edges:".toList EdgeWritten items block)
    (hitems : ∀ w ∈ items, w.entry.Printable) :
    BlockReads stod block fun t =>
      (items.mapM Written.readEdge).map fun es => { t with edges := t.edges ++ es } := by
  obtain ⟨groups, hgroups, rfl⟩ := h
  intro st hst
  have hheading : LoadState.step stod st "edges:".toList = some (st.enter .edges) := rfl
  have hrun := @foldlM_edgeGroups stod items groups hgroups hitems (st.enter .edges)
    (hst.enter .edges) rfl
  rw [LoadState.topology_enter] at hrun
  rw [List.foldlM_cons, hheading]
  exact hrun

theorem reads_endsBlock {fmt : NumberFormat stod} {items : List (Written EndEntry)}
    {block : List Text} (h : StyledBlock "ends:".toList (EndWritten fmt) items block)
    (hitems : ∀ w ∈ items, w.entry.Printable) :
    BlockReads stod block fun t => some { t with ends := t.ends ++ items.map Written.readEnd } := by
  obtain ⟨groups, hgroups, rfl⟩ := h
  intro st hst
  have hheading : LoadState.step stod st "ends:".toList = some (st.enter .ends) := rfl
  have hrun := foldlM_endGroups hgroups hitems (hst.enter .ends) rfl
  rw [LoadState.topology_enter] at hrun
  rw [List.foldlM_cons, hheading]
  exact hrun

/-- 三つの節は、どの順に書いても同じ結果になる。 -/
theorem reads_blocks {a b c : List Text} {cloud : CloudInfo} {es : Option (List EdgeEntry)}
    {ns : List EndEntry} (ha : BlockReads stod a fun t => some { t with cloud := cloud })
    (hb : BlockReads stod b fun t => es.map fun es => { t with edges := t.edges ++ es })
    (hc : BlockReads stod c fun t => some { t with ends := t.ends ++ ns })
    {blocks : List (List Text)} (h : blocks.Perm [a, b, c]) :
    BlockReads stod blocks.flatten fun t =>
      es.map fun es => { cloud := cloud, edges := t.edges ++ es, ends := t.ends ++ ns } := by
  have hcompose (x y z : List Text) : [x, y, z].flatten = x ++ (y ++ z) := by simp
  rcases perm_three h with rfl | rfl | rfl | rfl | rfl | rfl
  all_goals rw [hcompose]
  · convert ha.append (hb.append hc) using 2
    cases es <;> rfl
  · convert hb.append (ha.append hc) using 2
    cases es <;> rfl
  · convert hc.append (hb.append ha) using 2
    cases es <;> rfl
  · convert hb.append (hc.append ha) using 2
    cases es <;> rfl
  · convert hc.append (ha.append hb) using 2
    cases es <;> rfl
  · convert ha.append (hc.append hb) using 2
    cases es <;> rfl

/-- `load` の結果は、読んだもので決まる。 -/
theorem load_eq_topology (sorter : EndSorter) (port : Nat) (text : Text) :
    Topology.load stod sorter port text =
      match ((getlines [] text).foldlM (LoadState.step stod) (LoadState.initial port)).map
        LoadState.topology with
      | none => .error .thrown
      | some t =>
        if t.cloud.host = [] ∨ t.cloud.port = 0 then .error .cloudIncomplete
        else if t.edges = [] ∨ t.ends = [] then .error .listEmpty
        else .ok { t with ends := sorter.sort t.ends } := by
  unfold Topology.load
  cases (getlines [] text).foldlM (LoadState.step stod) (LoadState.initial port) with
  | none => rfl
  | some st =>
    rw [Option.map_some]
    dsimp only
    rw [st.flush_cloud, st.flush_edges, st.flush_ends]
    rfl

/-- **書き方ごとに決まる値が、書いた順に読まれる。** 節の順は結果に関わらない。 -/
theorem load_styled {fmt : NumberFormat stod} (sorter : EndSorter) (port : Nat) {cloud : CloudInfo}
    (hhost : IsHost cloud.host) (hport : 0 < cloud.port ∧ cloud.port < 2 ^ 16)
    {edges : List (Written EdgeEntry)} {ends : List (Written EndEntry)}
    (hedges : ∀ w ∈ edges, w.entry.Printable) (hends : ∀ w ∈ ends, w.entry.Printable) {text : Text}
    (h : RendersStyled fmt cloud edges ends text) :
    Topology.load stod sorter port text =
      match edges.mapM Written.readEdge with
      | none => .error .thrown
      | some es =>
        if es = [] ∨ ends = [] then .error .listEmpty
        else .ok { cloud, edges := es, ends := sorter.sort (ends.map Written.readEnd) } := by
  obtain ⟨cloudBlock, edgesBlock, endsBlock, blocks, lines, hcloud, he, hn, hperm, hlaid,
    hjoined⟩ := h
  have hlines : ∀ l ∈ blocks.flatten, IsLine l := by
    intro l hl
    obtain ⟨block, hblock, hl⟩ := List.mem_flatten.mp hl
    have hmem := hperm.subset hblock
    simp only [List.mem_cons, List.not_mem_nil, or_false] at hmem
    rcases hmem with rfl | rfl | rfl
    · exact isLine_cloudBlock hcloud hhost l hl
    · exact isLine_styledBlock (Or.inr (Or.inl rfl)) he (fun w lines hw hline =>
        isLine_edgeItem hline (hedges w hw)) l hl
    · exact isLine_styledBlock (Or.inr (Or.inr rfl)) hn (fun w lines hw hline =>
        isLine_endItem hline (hends w hw)) l hl
  have hreads := reads_blocks (reads_cloudBlock hcloud hhost hport.2)
    (reads_edgesBlock he hedges) (reads_endsBlock hn hends) hperm
  rw [load_eq_topology, getlines_joined hjoined (newline_not_mem_laid hlaid hlines),
    foldlM_laid stod hlaid hlines, hreads _ (LoadState.fresh_initial port)]
  cases edges.mapM Written.readEdge with
  | none => rfl
  | some es =>
    have hport' : cloud.port ≠ 0 := by omega
    simp [LoadState.topology, LoadState.initial, LoadState.flushEdge, LoadState.flushEnd,
      hhost.nonempty, hport']

/-! ### 書いた値のままに読まれる条件 -/

/-- どれも読めて元のままなのは、一つずつ読めて元のままであるときである。 -/
theorem mapM_eq_map_iff {α β : Type} (f : α → Option β) (g : α → β) (l : List α) :
    l.mapM f = some (l.map g) ↔ ∀ a ∈ l, f a = some (g a) := by
  induction l with
  | nil => simp
  | cons a l ih =>
    rw [List.mapM_cons, List.forall_mem_cons, ← ih, List.map_cons]
    cases f a with
    | none => simp
    | some b => cases l.mapM f <;> simp

/-- 既定値なら `1`。 -/
def isZero {α : Type} [DecidableEq α] (d x : α) : Nat := if x = d then 1 else 0

theorem isZero_pick {α : Type} [DecidableEq α] (names : List Text) (name : String) (d x : α) :
    isZero d x ≤ isZero d (pick names name d x) ∧
      (isZero d (pick names name d x) ≤ isZero d x → pick names name d x = x) := by
  unfold isZero pick
  split_ifs <;> simp_all

/-- 既定値のままの field の数。 -/
def EndEntry.zeros (e : EndEntry) : Nat :=
  isZero EndEntry.zero.id e.id + isZero EndEntry.zero.edgeId e.edgeId +
    isZero EndEntry.zero.keyLo e.keyLo + isZero EndEntry.zero.keyHi e.keyHi +
    isZero EndEntry.zero.host e.host + isZero EndEntry.zero.port e.port

/-- **field を既定値に戻すと既定値の field が増える。** 増えなければ、元から既定値だった。 -/
theorem EndEntry.zeros_drop (name : Text) (e : EndEntry) :
    e.zeros ≤ (e.drop name).zeros ∧ ((e.drop name).zeros ≤ e.zeros → e.drop name = e) := by
  obtain ⟨h₁, k₁⟩ := isZero_pick [name] "id" EndEntry.zero.id e.id
  obtain ⟨h₂, k₂⟩ := isZero_pick [name] "edge" EndEntry.zero.edgeId e.edgeId
  obtain ⟨h₃, k₃⟩ := isZero_pick [name] "key_lo" EndEntry.zero.keyLo e.keyLo
  obtain ⟨h₄, k₄⟩ := isZero_pick [name] "key_hi" EndEntry.zero.keyHi e.keyHi
  obtain ⟨h₅, k₅⟩ := isZero_pick [name] "host" EndEntry.zero.host e.host
  obtain ⟨h₆, k₆⟩ := isZero_pick [name] "port" EndEntry.zero.port e.port
  unfold EndEntry.zeros EndEntry.drop EndEntry.merge
  dsimp only
  refine ⟨by omega, fun hle => ?_⟩
  rw [k₁ (by omega), k₂ (by omega), k₃ (by omega), k₄ (by omega), k₅ (by omega), k₆ (by omega)]

theorem Written.zeros_readEnd (w : Written EndEntry) :
    w.entry.zeros ≤ w.readEnd.zeros ∧ (w.readEnd.zeros ≤ w.entry.zeros → w.readEnd = w.entry) := by
  unfold readEnd
  split
  · exact EndEntry.zeros_drop _ _
  · exact ⟨le_refl _, fun _ => rfl⟩

/-- 多重集合として元のままなら、一つずつ元のままである。 -/
theorem readEnd_eq_of_perm {items : List (Written EndEntry)}
    (h : (items.map Written.readEnd).Perm (items.map Written.entry)) :
    ∀ w ∈ items, w.readEnd = w.entry := by
  by_contra hne
  push Not at hne
  obtain ⟨w, hw, hread⟩ := hne
  have hlt : (items.map fun w => w.entry.zeros).sum < (items.map fun w => w.readEnd.zeros).sum := by
    refine List.sum_lt_sum _ _ (fun w _ => w.zeros_readEnd.1) ⟨w, hw, ?_⟩
    exact lt_of_not_ge fun hle => hread (w.zeros_readEnd.2 hle)
  have hsum := (h.map EndEntry.zeros).sum_eq
  rw [List.map_map, List.map_map] at hsum
  exact absurd hsum (ne_of_gt hlt)

/--
**書いた値がそのまま読まれるのは、どの項目の書き方も値を変えないとき、そのときに限る。**

Edge の一行の項目は `ends` が空でなく最後にあること、`- name: value` の項目はその field が既定値であることが
条件である。End の一行の項目と、`-` だけの行に続く項目は、field の順に依らず元の値に読まれる。
-/
theorem load_styled_iff {fmt : NumberFormat stod} (sorter : EndSorter) (port : Nat)
    {cloud : CloudInfo} (hhost : IsHost cloud.host) (hport : 0 < cloud.port ∧ cloud.port < 2 ^ 16)
    {edges : List (Written EdgeEntry)} {ends : List (Written EndEntry)} (hsomeEdge : edges ≠ [])
    (hsomeEnd : ends ≠ []) (hedges : ∀ w ∈ edges, w.entry.Printable)
    (hends : ∀ w ∈ ends, w.entry.Printable) {text : Text}
    (h : RendersStyled fmt cloud edges ends text) :
    Topology.load stod sorter port text =
        .ok { cloud, edges := edges.map Written.entry
              ends := sorter.sort (ends.map Written.entry) } ↔
      (∀ w ∈ edges, w.EdgeKept) ∧ ∀ w ∈ ends, w.EndKept := by
  simp only [← Written.readEdge_eq_iff, ← Written.readEnd_eq_iff]
  rw [load_styled sorter port hhost hport hedges hends h,
    ← mapM_eq_map_iff Written.readEdge Written.entry edges]
  constructor
  · intro hload
    cases hread : edges.mapM Written.readEdge with
    | none =>
      rw [hread] at hload
      cases hload
    | some es =>
      rw [hread] at hload
      dsimp only at hload
      split at hload
      · cases hload
      · obtain ⟨-, rfl, hsort⟩ := Topology.mk.inj (Except.ok.inj hload)
        refine ⟨rfl, readEnd_eq_of_perm ?_⟩
        exact (sorter.perm _).symm.trans (hsort ▸ sorter.perm _)
  · rintro ⟨hread, hend⟩
    rw [hread]
    dsimp only
    rw [if_neg (by simp [hsomeEdge, hsomeEnd]), List.map_congr_left hend]

end Run

/-! ## 見本 -/

theorem tinyTopology_printable : (tinyTopology 1).Printable where
  cloudHost := isHost_letter (by simp)
  cloudPort := by decide
  someEdge := by decide
  edges e he := by
    obtain rfl := List.mem_singleton.mp he
    exact ⟨⟨by decide, by decide⟩, isHost_letter (by simp), by decide, by decide, by
      intro i hi
      obtain rfl := List.mem_singleton.mp hi
      exact ⟨by decide, by decide⟩⟩
  someEnd := by decide
  ends e he := by
    obtain rfl := List.mem_singleton.mp he
    exact ⟨⟨by decide, by decide⟩, ⟨by decide, by decide⟩, isHost_letter (by simp), by decide,
      ⟨by decide +kernel, by decide +kernel⟩, ⟨by decide +kernel, by decide +kernel⟩⟩

/-- 見本の配置の書き方。Edge は `-` だけの行に逆順で、End は既定値の `key_lo` を `-` の行に置く。 -/
def tinyStyles : List (Written EdgeEntry) × List (Written EndEntry) :=
  ((tinyTopology 1).edges.map fun e =>
      ⟨e, .lone, ["ends", "port", "host", "id"].map String.toList⟩,
    (tinyTopology 1).ends.map fun e =>
      ⟨e, .first, ["key_lo", "key_hi", "id", "edge", "host", "port"].map String.toList⟩)

def tinyStyledText : Text :=
  "cloud:\n  host: c\n  port: 7000\nedges:\n".toList ++
    "  -\n    ends: [1]\n    port: 7101\n    host: a\n    id: 1\nends:\n".toList ++
    "  - key_lo: 0\n    key_hi: 5\n    id: 1\n    edge: 1\n    host: b\n    port: 7201\n".toList

theorem tinyStyles_renders :
    RendersStyled dotFormat (tinyTopology 1).cloud tinyStyles.1 tinyStyles.2 tinyStyledText := by
  unfold tinyStyledText
  refine ⟨_, _, _, _, _, ⟨[' '], [' '], blank_replicate 1, blank_replicate 1, rfl⟩,
    ⟨_, .cons ⟨spaced [10], (edgeFields (spaced [10]) _).reverse, blank_spaced _,
      List.reverse_perm _, rfl, rfl⟩ .nil, rfl⟩,
    ⟨_, .cons ⟨spaced [], (endLineFields dotFormat (spaced []) _).rotate 4, blank_spaced _,
      List.rotate_perm _ 4, rfl, rfl⟩ .nil, rfl⟩,
    .refl _, .indented 0 (.indented 2 (.indented 2 (.indented 0 (.indented 2 (.indented 4
      (.indented 4 (.indented 4 (.indented 4 (.indented 0 (.indented 2 (.indented 4 (.indented 4
        (.indented 4 (.indented 4 (.indented 4 .nil))))))))))))))), Or.inl ?_⟩
  -- 文字列の定数を文字の列に直してから比べる
  rw [String.toList_ofList, String.toList_ofList, String.toList_ofList]
  decide +kernel

theorem load_styled_iff_tiny :
    Topology.load dotStod stableSorter 0 tinyStyledText = .ok (tinyTopology 1) := by
  have hprint := tinyTopology_printable
  have hedges : ∀ w ∈ tinyStyles.1, w.entry.Printable := by
    intro w hw
    obtain rfl := List.mem_singleton.mp hw
    obtain ⟨hid, hhost, hport, -, hids⟩ := hprint.edges _ (List.mem_singleton_self _)
    exact ⟨hid, hhost, hport, hids⟩
  have hends : ∀ w ∈ tinyStyles.2, w.entry.Printable := by
    intro w hw
    obtain rfl := List.mem_singleton.mp hw
    obtain ⟨hid, hedge, hhost, hport, hlo, hhi⟩ := hprint.ends _ (List.mem_singleton_self _)
    exact ⟨hid, hedge, hhost, hport, hlo, hhi⟩
  refine ((load_styled_iff stableSorter 0 hprint.cloudHost hprint.cloudPort (by simp [tinyStyles,
    tinyTopology]) (by simp [tinyStyles, tinyTopology]) hedges hends tinyStyles_renders).mpr
    ⟨?_, ?_⟩).trans ?_
  · intro w hw
    obtain rfl := List.mem_singleton.mp hw
    trivial
  · intro w hw
    obtain rfl := List.mem_singleton.mp hw
    show EndEntry.drop _ _ = _
    decide +kernel
  · decide +kernel

/-- 同じ Edge を三通りに書くと、三通りの結果になる。 -/
theorem load_styled_fails :
    let text (item : Text) : Text :=
      "cloud:\n  host: c\n  port: 7000\nedges:\n".toList ++ item ++
        "ends:\n  - \x7b id: 1, edge: 1, host: b, port: 7201, key_range: [0, 5] \x7d\n".toList
    Topology.load natStod stableSorter 0
        (text "  -\n    ends: [1]\n    id: 1\n    host: a\n    port: 7101\n".toList) =
      .ok (tinyTopology 1) ∧
    Topology.load natStod stableSorter 0
        (text "  - id: 1\n    ends: [1]\n    host: a\n    port: 7101\n".toList) =
      .ok { tinyTopology 1 with
        edges := [{ id := 0, endIds := [1], host := ['a'], port := 7101 }] } ∧
    Topology.load natStod stableSorter 0
        (text "  - \x7b ends: [1], id: 1, host: a, port: 7101 \x7d\n".toList) =
      .error .thrown := by
  dsimp only
  refine ⟨?_, ?_, ?_⟩
  all_goals
    rw [String.toList_ofList, String.toList_ofList, String.toList_ofList]
    decide +kernel

end Plin
