import Plin.Properties.TopologyRoundtrip

/-!
# `load` の投げる例外

`load` は、読めない値の多くを読み飛ばして `false` を返すが、`stoi` と `stod` と `substr` の例外は捕まえない。
例外が漏れないのは、**値に直される文字列がどれも数であるとき、そのときに限る**（`load_ne_thrown_iff`）。

どの文字列が値に直されるかは、行の属する節と、その節で項目がもう始まっているかどうか（`LineContext`）で
決まる。これは前の行の見出しと `-` だけから分かる。
-/

namespace Plin

open Infra

/-! ## 数に直される文字列 -/

/-- `stoi` の読める文字列。 -/
def Numeric (s : Text) : Prop := (Text.stoi s).isSome

/-- host と port の両方があるとき、port は数である。 -/
def HostPortSound (s : Text) : Prop :=
  findVal "host".toList s ≠ [] → findVal "port".toList s ≠ [] → Numeric (findVal "port".toList s)

/-- 空でない区切りはどれも数である。 -/
def IntListSound (s : Text) : Prop :=
  ∀ t ∈ ((s.filter fun c => !(c = '[' || c = ']' || c = '\x7b')).splitOn ',').map trim,
    t ≠ [] → Numeric t

/-- 一行の項目の field は、名の後が空でなく、値が空でなければ数である。 -/
def FieldSound (name s : Text) : Prop :=
  ∀ r, afterName name s = some r → skipBlanks r ≠ [] ∧
    (trim ((skipBlanks r).takeWhile fun c => !isFieldEnd c) ≠ [] →
      Numeric (trim ((skipBlanks r).takeWhile fun c => !isFieldEnd c)))

/-- Edge の一行の項目の番号は、次の `,` までが数である。 -/
def EdgeIdSound (s : Text) : Prop :=
  ∀ r, afterName "id".toList s = some r →
    skipBlanks r ≠ [] ∧ Numeric ((skipBlanks r).takeWhile (· ≠ ','))

/-- Edge の一行の項目。 -/
def EdgeInlineSound (s : Text) : Prop :=
  EdgeIdSound s ∧ HostPortSound s ∧ ∀ r, afterName "ends".toList s = some r → IntListSound r

/-- Edge の `key: value`。 -/
def EdgeFieldSound (k v : Text) : Prop :=
  (k = "id".toList ∨ k = "port".toList → Numeric v) ∧ (k = "ends".toList → IntListSound v)

section Stod

variable (stod : Text → Option Key)

/-- 括弧の揃った `key_range` の二つの値は数である。 -/
def KeyRangeSound (s : Text) : Prop :=
  ∀ r, afterName "key_range".toList s = some r → '[' ∈ r → ']' ∈ r.dropWhile (· ≠ '[') →
    let inner := ((r.dropWhile (· ≠ '[')).drop 1).takeWhile (· ≠ ']')
    (stod (trim (inner.takeWhile (· ≠ ',')))).isSome ∧
      (stod (trim (if ',' ∈ inner then (inner.dropWhile (· ≠ ',')).drop 1 else inner))).isSome

/-- End の一行の項目。 -/
def EndInlineSound (s : Text) : Prop :=
  FieldSound "id".toList s ∧ FieldSound "edge".toList s ∧ HostPortSound s ∧ KeyRangeSound stod s

/-- End の `key: value`。 -/
def EndFieldSound (k v : Text) : Prop :=
  (k = "id".toList ∨ k = "edge".toList ∨ k = "port".toList → Numeric v) ∧
    (k = "key_lo".toList ∨ k = "key_hi".toList → (stod v).isSome)

end Stod

/-! ## 行の文脈 -/

/-- 行の属する節と、その節で項目が始まっているかどうか。 -/
structure LineContext where
  sec : TopologySection
  opened : Bool

namespace LineContext

/-- file の始まり。 -/
def initial : LineContext := ⟨.none, false⟩

/-- 一行の後の文脈。 -/
def next (ctx : LineContext) (raw : Text) : LineContext :=
  let line := trim raw
  if line = [] ∨ line.head? = some '#' then ctx
  else if "cloud:".toList.isPrefixOf line then ⟨.cloud, false⟩
  else if line = "edges:".toList then ⟨.edges, false⟩
  else if line = "ends:".toList then ⟨.ends, false⟩
  else ⟨ctx.sec, ctx.opened || line.head? = some '-'⟩

/-- 行の中の、数に直される文字列はどれも数である。 -/
def Sound (stod : Text → Option Key) (ctx : LineContext) (raw : Text) : Prop :=
  let line := trim raw
  if line = [] ∨ line.head? = some '#' then True
  else if "cloud:".toList.isPrefixOf line then
    (trim (line.drop 6)).head? = some '\x7b' → HostPortSound (trim (line.drop 6))
  else if line = "edges:".toList ∨ line = "ends:".toList then True
  else
    match ctx.sec with
    | .none => True
    | .cloud => ∀ v, splitKv line = some ("port".toList, v) → Numeric v
    | .edges =>
      if line.head? = some '-' then
        (trim (line.drop 1)).head? = some '\x7b' → EdgeInlineSound (trim (line.drop 1))
      else ctx.opened → ∀ k v, splitKv line = some (k, v) → EdgeFieldSound k v
    | .ends =>
      if line.head? = some '-' then
        (trim (line.drop 1)).head? = some '\x7b' → EndInlineSound stod (trim (line.drop 1))
      else ctx.opened → ∀ k v, splitKv line = some (k, v) → EndFieldSound stod k v

end LineContext

/-! ## 部品の例外 -/

theorem parsePort_isSome (s : Text) : (parsePort s).isSome ↔ Numeric s := by
  rw [parsePort, Option.isSome_map, Numeric]

theorem extractHostPort_isSome (s : Text) (old : Text × Nat) :
    (extractHostPort s old).isSome ↔ HostPortSound s := by
  unfold extractHostPort HostPortSound
  dsimp only
  split
  · next h => simp only [Option.isSome_some, true_iff]; tauto
  · next h =>
    rw [Option.isSome_map, parsePort_isSome]
    rw [not_or] at h
    exact ⟨fun hp _ _ => hp, fun hp => hp h.1 h.2⟩

theorem mapM_isSome {α β : Type} (f : α → Option β) (l : List α) :
    (l.mapM f).isSome ↔ ∀ a ∈ l, (f a).isSome := by
  induction l with
  | nil => simp
  | cons a l ih =>
    rw [List.mapM_cons, List.forall_mem_cons, ← ih]
    cases f a <;> cases l.mapM f <;> simp

theorem parseIntList_isSome (s : Text) : (parseIntList s).isSome ↔ IntListSound s := by
  unfold parseIntList IntListSound
  dsimp only
  rw [mapM_isSome]
  simp only [List.mem_filter, decide_eq_true_eq, and_imp, Numeric]

/-- 続きが前の値に依らずに成功するなら、全体の成功は二つの成功である。 -/
theorem bind_isSome_iff {α β : Type} {o : Option α} {f : α → Option β} {p : Prop}
    (h : ∀ a, (f a).isSome ↔ p) : (o.bind f).isSome ↔ o.isSome ∧ p := by
  cases o with
  | none => simp
  | some a => simp [h a]

theorem readEdgeId_isSome (s : Text) (old : Int) : (readEdgeId s old).isSome ↔ EdgeIdSound s := by
  unfold readEdgeId EdgeIdSound
  cases afterName "id".toList s with
  | none => simp
  | some r =>
    simp only [Option.map_some, Option.some.injEq, forall_eq']
    cases hr : skipBlanks r with
    | nil => simp
    | cons c r => simp [Numeric]

theorem readEndIds_isSome (s : Text) (old : List Int) :
    (readEndIds s old).isSome ↔ ∀ r, afterName "ends".toList s = some r → IntListSound r := by
  unfold readEndIds
  cases afterName "ends".toList s with
  | none => simp
  | some r => simp [parseIntList_isSome]

theorem EdgeEntry.parseInline_isSome (s : Text) (cur : EdgeEntry) :
    (EdgeEntry.parseInline s cur).isSome ↔ EdgeInlineSound s := by
  rw [EdgeEntry.parseInline_eq, EdgeInlineSound, ← readEdgeId_isSome s cur.id,
    ← extractHostPort_isSome s (cur.host, cur.port), ← readEndIds_isSome s cur.endIds]
  refine bind_isSome_iff fun id => bind_isSome_iff fun hp => ?_
  rw [Option.isSome_map]

theorem EdgeEntry.parseKv_isSome (cur : EdgeEntry) (k v : Text) :
    (cur.parseKv k v).isSome ↔ EdgeFieldSound k v := by
  unfold EdgeEntry.parseKv EdgeFieldSound
  split
  · next h => subst h; simp [Numeric]
  · split
    · next h => subst h; simp
    · split
      · next h => subst h; simp [parsePort_isSome]
      · split
        · next h => subst h; simp [parseIntList_isSome]
        · simp_all

theorem fieldSound_iff (name s : Text) :
    FieldSound name s ↔ ∃ t, parseField name s = some t ∧ (t ≠ [] → Numeric t) := by
  unfold FieldSound parseField
  cases afterName name s with
  | none => simp
  | some r =>
    simp only [Option.map_some, Option.some.injEq, forall_eq']
    cases hr : skipBlanks r with
    | nil => simp
    | cons c r => simp

section Stod

variable (stod : Text → Option Key)

theorem parseKeyRange_isSome (s : Text) (old : Key × Key) :
    (parseKeyRange stod s old).isSome ↔ KeyRangeSound stod s := by
  unfold parseKeyRange KeyRangeSound
  cases afterName "key_range".toList s with
  | none => simp
  | some r =>
    simp only [Option.some.injEq, forall_eq']
    split
    · next h =>
      rw [bind_isSome_iff fun lo => by rw [Option.isSome_map]]
      exact ⟨fun h' _ _ => h', fun h' => h' h.1 h.2⟩
    · next h =>
      rw [not_and] at h
      simp only [Option.isSome_some, true_iff]
      exact fun h₁ h₂ => absurd h₂ (h h₁)

theorem readInt_isSome (t : Text) (old : Int) :
    (readInt t old).isSome ↔ (t ≠ [] → Numeric t) := by
  unfold readInt
  split
  · next h => simp [h]
  · next h => simp [h, Numeric]

theorem EndEntry.parseInline_isSome (s : Text) (cur : EndEntry) :
    (EndEntry.parseInline stod s cur).isSome ↔ EndInlineSound stod s := by
  rw [EndEntry.parseInline_eq, EndInlineSound, fieldSound_iff, fieldSound_iff,
    ← parseKeyRange_isSome stod s (cur.keyLo, cur.keyHi),
    ← extractHostPort_isSome s (cur.host, cur.port)]
  cases parseField "id".toList s with
  | none => simp
  | some idText =>
    cases parseField "edge".toList s with
    | none => simp
    | some edgeText =>
      simp only [Option.some.injEq, exists_eq_left']
      rw [← readInt_isSome idText cur.id, ← readInt_isSome edgeText cur.edgeId]
      refine bind_isSome_iff fun id => bind_isSome_iff fun edgeId => bind_isSome_iff fun hp => ?_
      rw [Option.isSome_map]

theorem EndEntry.parseKv_isSome (cur : EndEntry) (k v : Text) :
    (EndEntry.parseKv stod cur k v).isSome ↔ EndFieldSound stod k v := by
  unfold EndEntry.parseKv EndFieldSound
  split
  · next h => subst h; simp [Numeric]
  · split
    · next h => subst h; simp [Numeric]
    · split
      · next h => subst h; simp
      · split
        · next h => subst h; simp [parsePort_isSome]
        · split
          · next h => subst h; simp
          · split
            · next h => subst h; simp
            · simp_all

end Stod

/-! ## 一行の例外 -/

/-- 状態は文脈と合っている。 -/
structure LineContext.Matches (ctx : LineContext) (st : LoadState) : Prop where
  sec : st.sec = ctx.sec
  inEdge : ctx.sec = .edges → st.inEdge = ctx.opened
  inEnd : ctx.sec = .ends → st.inEnd = ctx.opened

namespace LoadState

theorem flushEdge_inEdge (st : LoadState) : st.flushEdge.inEdge = false := by
  unfold flushEdge
  split
  · rfl
  · next h => exact Bool.eq_false_iff.mpr h

theorem flushEnd_inEnd (st : LoadState) : st.flushEnd.inEnd = false := by
  unfold flushEnd
  split
  · rfl
  · next h => exact Bool.eq_false_iff.mpr h

theorem flushEnd_inEdge (st : LoadState) : st.flushEnd.inEdge = st.inEdge := by
  unfold flushEnd
  split <;> rfl

theorem flushEdge_sec (st : LoadState) : st.flushEdge.sec = st.sec := by
  unfold flushEdge
  split <;> rfl

theorem flushEnd_sec (st : LoadState) : st.flushEnd.sec = st.sec := by
  unfold flushEnd
  split <;> rfl

/-- 見出しの後では、項目は始まっていない。 -/
theorem matches_heading {st : LoadState} {sec : TopologySection} :
    LineContext.Matches ⟨sec, false⟩ { st.flushEdge.flushEnd with sec := sec } where
  sec := rfl
  inEdge _ := by rw [flushEnd_inEdge, flushEdge_inEdge]
  inEnd _ := flushEnd_inEnd _

section Line

variable {st st' : LoadState} {line : Text}

theorem cloudLine_isSome : (st.cloudLine line).isSome ↔
    ∀ v, splitKv line = some ("port".toList, v) → Numeric v := by
  unfold cloudLine
  cases splitKv line with
  | none => simp
  | some kv =>
    obtain ⟨k, v⟩ := kv
    dsimp only
    split
    · next h => subst h; simp
    · split
      · next h => subst h; simp [parsePort_isSome]
      · next h =>
        exact iff_of_true rfl fun v' hv => absurd (Prod.ext_iff.mp (Option.some.inj hv)).1 h

theorem edgeLine_isSome : (st.edgeLine line).isSome ↔
    if line.head? = some '-' then
      (trim (line.drop 1)).head? = some '\x7b' → EdgeInlineSound (trim (line.drop 1))
    else st.inEdge → ∀ k v, splitKv line = some (k, v) → EdgeFieldSound k v := by
  unfold edgeLine
  split
  · dsimp only
    split
    · next h => rw [Option.isSome_map, EdgeEntry.parseInline_isSome, imp_iff_right h]
    · next h => exact iff_of_true rfl fun hc => absurd hc h
  · split
    · next h =>
      cases splitKv line with
      | none => simp
      | some kv =>
        dsimp only
        rw [Option.isSome_map, EdgeEntry.parseKv_isSome]
        simp [h, Prod.ext_iff]
    · next h => simp [h]

theorem endLine_isSome (stod : Text → Option Key) : (st.endLine stod line).isSome ↔
    if line.head? = some '-' then
      (trim (line.drop 1)).head? = some '\x7b' → EndInlineSound stod (trim (line.drop 1))
    else st.inEnd → ∀ k v, splitKv line = some (k, v) → EndFieldSound stod k v := by
  unfold endLine
  split
  · dsimp only
    split
    · next h => rw [Option.isSome_map, EndEntry.parseInline_isSome, imp_iff_right h]
    · next h => exact iff_of_true rfl fun hc => absurd hc h
  · split
    · next h =>
      cases splitKv line with
      | none => simp
      | some kv =>
        dsimp only
        rw [Option.isSome_map, EndEntry.parseKv_isSome]
        simp [h, Prod.ext_iff]
    · next h => simp [h]

/-- 節の行は、節を変えない。 -/
theorem cloudLine_sec (h : st.cloudLine line = some st') : st'.sec = st.sec := by
  unfold cloudLine at h
  split at h
  · rw [Option.some.inj h]
  · split at h
    · rw [← Option.some.inj h]
    · split at h
      · obtain ⟨_, -, rfl⟩ := Option.map_eq_some_iff.mp h
        rfl
      · rw [Option.some.inj h]

/-- `-` の行の後では、項目が始まっている。 -/
theorem edgeLine_opened (h : st.edgeLine line = some st') :
    st'.sec = st.sec ∧ st'.inEdge = (st.inEdge || line.head? = some '-') := by
  unfold edgeLine at h
  split at h
  · next hdash =>
    dsimp only at h
    split at h
    · obtain ⟨_, -, rfl⟩ := Option.map_eq_some_iff.mp h
      exact ⟨st.flushEdge_sec, by simp [hdash]⟩
    · rw [← Option.some.inj h]
      exact ⟨st.flushEdge_sec, by simp [hdash]⟩
  · next hdash =>
    have hopened : st.inEdge = (st.inEdge || decide (line.head? = some '-')) := by simp [hdash]
    split at h
    · split at h
      · rw [← Option.some.inj h]
        exact ⟨rfl, hopened⟩
      · obtain ⟨_, -, rfl⟩ := Option.map_eq_some_iff.mp h
        exact ⟨rfl, hopened⟩
    · rw [← Option.some.inj h]
      exact ⟨rfl, hopened⟩

theorem endLine_opened {stod : Text → Option Key} (h : st.endLine stod line = some st') :
    st'.sec = st.sec ∧ st'.inEnd = (st.inEnd || line.head? = some '-') := by
  unfold endLine at h
  split at h
  · next hdash =>
    dsimp only at h
    split at h
    · obtain ⟨_, -, rfl⟩ := Option.map_eq_some_iff.mp h
      exact ⟨st.flushEnd_sec, by simp [hdash]⟩
    · rw [← Option.some.inj h]
      exact ⟨st.flushEnd_sec, by simp [hdash]⟩
  · next hdash =>
    have hopened : st.inEnd = (st.inEnd || decide (line.head? = some '-')) := by simp [hdash]
    split at h
    · split at h
      · rw [← Option.some.inj h]
        exact ⟨rfl, hopened⟩
      · obtain ⟨_, -, rfl⟩ := Option.map_eq_some_iff.mp h
        exact ⟨rfl, hopened⟩
    · rw [← Option.some.inj h]
      exact ⟨rfl, hopened⟩

end Line

/-- **一行が例外を投げないのは、数に直される文字列がどれも数であるときである。** -/
theorem step_isSome (stod : Text → Option Key) {ctx : LineContext} {st : LoadState}
    (h : ctx.Matches st) (raw : Text) : (step stod st raw).isSome ↔ ctx.Sound stod raw := by
  unfold step LineContext.Sound
  dsimp only
  split
  · simp
  · split
    · split
      · next hbrace => rw [Option.isSome_map, extractHostPort_isSome, imp_iff_right hbrace]
      · next hbrace => exact iff_of_true rfl fun hc => absurd hc hbrace
    · split
      · next hline => simp [hline]
      · next hedges =>
        split
        · next hline => simp [hline]
        · next hends =>
          rw [if_neg (by simp only [hedges, hends, or_self, not_false_eq_true]), h.sec]
          cases hsec : ctx.sec with
          | none => simp
          | cloud => exact cloudLine_isSome
          | edges => rw [← h.inEdge hsec]; exact edgeLine_isSome
          | ends => rw [← h.inEnd hsec]; exact endLine_isSome stod

/-- 一行の後も、状態は文脈と合っている。 -/
theorem matches_step {stod : Text → Option Key} {ctx : LineContext} {st st' : LoadState}
    (h : ctx.Matches st) {raw : Text} (hstep : step stod st raw = some st') :
    (ctx.next raw).Matches st' := by
  unfold step at hstep
  unfold LineContext.next
  dsimp only at hstep ⊢
  split at hstep
  · next hblank =>
    rw [if_pos hblank, ← Option.some.inj hstep]
    exact h
  · next hblank =>
    rw [if_neg hblank]
    split at hstep
    · next hcloud =>
      rw [if_pos hcloud]
      split at hstep
      · obtain ⟨_, -, rfl⟩ := Option.map_eq_some_iff.mp hstep
        exact ⟨rfl, by simp, by simp⟩
      · rw [← Option.some.inj hstep]
        exact matches_heading
    · next hcloud =>
      rw [if_neg hcloud]
      split at hstep
      · next hline =>
        rw [if_pos hline, ← Option.some.inj hstep]
        exact matches_heading
      · next hline =>
        rw [if_neg hline]
        split at hstep
        · next hline' =>
          rw [if_pos hline', ← Option.some.inj hstep]
          exact matches_heading
        · next hline' =>
          rw [if_neg hline']
          rw [h.sec] at hstep
          cases hsec : ctx.sec with
          | none =>
            rw [hsec] at hstep
            rw [← Option.some.inj hstep]
            exact ⟨h.sec.trans hsec, by simp, by simp⟩
          | cloud =>
            rw [hsec] at hstep
            exact ⟨(cloudLine_sec hstep).trans (h.sec.trans hsec), by simp, by simp⟩
          | edges =>
            rw [hsec] at hstep
            obtain ⟨hs, hopen⟩ := edgeLine_opened hstep
            exact ⟨hs.trans (h.sec.trans hsec), fun _ => by rw [hopen, h.inEdge hsec], by simp⟩
          | ends =>
            rw [hsec] at hstep
            obtain ⟨hs, hopen⟩ := endLine_opened hstep
            exact ⟨hs.trans (h.sec.trans hsec), by simp, fun _ => by rw [hopen, h.inEnd hsec]⟩

end LoadState

/-! ## file の例外 -/

/-- 行の列の後の文脈。 -/
def contextAfter (lines : List Text) : LineContext := lines.foldl LineContext.next .initial

/-- どの行でも、数に直される文字列は数である。 -/
def TextSound (stod : Text → Option Key) (text : Text) : Prop :=
  ∀ before line after, getlines [] text = before ++ line :: after →
    (contextAfter before).Sound stod line

/-- 行の列を読み切れるのは、どの行も例外を投げないときである。 -/
theorem foldlM_isSome (stod : Text → Option Key) {lines : List Text} {ctx : LineContext}
    {st : LoadState} (h : ctx.Matches st) :
    (lines.foldlM (LoadState.step stod) st).isSome ↔ ∀ before line after,
      lines = before ++ line :: after → (before.foldl LineContext.next ctx).Sound stod line := by
  induction lines generalizing ctx st with
  | nil => simp
  | cons raw lines ih =>
    rw [List.foldlM_cons]
    cases hstep : LoadState.step stod st raw with
    | none =>
      refine ⟨fun hc => absurd hc (by simp), fun hall => ?_⟩
      have hsound := (LoadState.step_isSome stod h raw).mpr (hall [] raw lines rfl)
      rw [hstep] at hsound
      cases hsound
    | some st' =>
      refine (ih (LoadState.matches_step h hstep)).trans ⟨fun hall => ?_, fun hall => ?_⟩
      · intro before line after heq
        cases before with
        | nil =>
          obtain ⟨rfl, -⟩ := List.cons.inj heq
          exact (LoadState.step_isSome stod h _).mp (by rw [hstep]; rfl)
        | cons b before =>
          obtain ⟨rfl, htail⟩ := List.cons.inj heq
          exact hall before line after htail
      · intro before line after heq
        exact hall (raw :: before) line after (by rw [heq]; rfl)

/--
**`load` から例外が漏れないのは、数に直される文字列がどれも数であるとき、そのときに限る。**

例外が漏れなければ、`load` は `true` か `false` を返す。
-/
theorem load_ne_thrown_iff (stod : Text → Option Key) (sorter : EndSorter) (port : Nat)
    (text : Text) :
    Topology.load stod sorter port text ≠ .error .thrown ↔ TextSound stod text := by
  have hinitial : LineContext.initial.Matches (LoadState.initial port) :=
    ⟨rfl, by simp [LineContext.initial], by simp [LineContext.initial]⟩
  refine Iff.trans ?_ (foldlM_isSome stod hinitial)
  unfold Topology.load
  cases (getlines [] text).foldlM (LoadState.step stod) (LoadState.initial port) with
  | none => simp
  | some st =>
    simp only [Option.isSome_some, iff_true]
    split
    · simp
    · split <;> simp

/-- port が数でない file では、例外が `load` から漏れる。 -/
theorem load_throws :
    Topology.load natStod stableSorter 0 "cloud:\n  host: c\n  port: x\n".toList =
      .error .thrown := by
  decide +kernel

end Plin
