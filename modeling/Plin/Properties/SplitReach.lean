import Plin.Properties.UpsertEnds

/-!
# 分割された leaf への道

分割された leaf は `is_abandoned` を立てたまま heap に残る。親 slot を通した分割では split lock も残るので、
そこへ着いた `upsert` は終わらない。新しい leaf が親 slot を引き継げば、道は残らない
（`PlinIndex.Detached`）。

**引き継げるのは、分割される leaf が `first_key` を持っているときである**（`FirstKept`）。`remove` で
`first_key` を失った leaf では、最初の新しい leaf の鍵が親 slot の鍵と合わず、親 slot は捨てられた leaf を指した
ままになる。`leaf_number` も一つ多く数えられる。

orphan の分割は、leaf が増えても `leaf_number` を増やさない。`leaf_number` が連鎖の長さと揃うのは、orphan が一つ
の leaf に学習し直されるとき（`OrphanKept`）である。`local_table` は、条件が無くても連鎖と揃っている
（`leafTable_matches`）。
-/

namespace Plin

open Infra

variable {D : Type} [Arith D]

namespace PlinIndex

variable {f : Fitter D} {data : List (Key × Payload)} {ops : List IndexOp} {s s' : PlinIndex D}
  {c A B : List (Link D)} {t : Tier D} {rest : List (Tier D)} {slots : List (InnerSlot D)}
  {z : Link D} {l : LeafNode D} {key : Key} {payload : Payload} {id : LeafId}

/-! ## 条件 -/

/-- 親 slot を通した分割では、leaf が `first_key` を持っているか、今それを書くところである。 -/
def FirstKept (s : PlinIndex D) : IndexOp → Prop
  | .upsert key _ => ∀ id a l, s.SplitsAt key id (some a) l →
      l.Stores l.firstKey ∨ key = l.firstKey
  | .remove _ => True

/-- orphan の分割では、書いた後の中身が一つの区分に学習し直される。 -/
def OrphanKept (f : Fitter D) (s : PlinIndex D) : IndexOp → Prop
  | .upsert key payload => ∀ id l, s.SplitsAt key id none l →
      (splitSegments f (l.written key payload)).length = 1
  | .remove _ => True

/-! ## 分割する `upsert` の一歩 -/

/-- 一つの区分に学習し直される分割では、連鎖の長さは変わらない。 -/
theorem Resplit.length_eq {n : Nat} {c c' : List (Link D)} (h : Resplit f n z c c')
    {lo hi : Key} {leaves : List (LeafNode D)} (hchain : Chain lo hi leaves c)
    (hone : z.2.prev ≠ none → z.2.next ≠ none → (splitSegments f z.2).length = 1) :
    c'.length = c.length := by
  cases h with
  | edge => rfl
  | middle A l r B =>
    obtain ⟨hprev, hnext⟩ := neighbors_ne_none hchain
    rw [length_spliced, splitChain, length_linkLeaves, length_freshLeaves, hone hprev hnext,
      List.length_append, List.length_cons, List.length_cons, List.length_cons]
    omega

/-- **条件を満たす `upsert` の後も、どの親 slot も連鎖の leaf のものである。** orphan の分割が leaf を
増やさなければ、`leaf_number` は連鎖の長さと同じだけ変わる。 -/
theorem Wired.upsert_live (h : s.Wired c t rest slots) (hlive : Live c slots) (hp : s.Plausible)
    (hp' : s'.Plausible) (hlo : s.minKey ≤ key) (hhi : key ≤ s.maxKey)
    (hkept : s.FirstKept (.upsert key payload)) {fuel : Nat}
    (hs : upsertInner f key payload fuel s = .ok s') :
    ∃ c' t' rest' slots', s'.Wired c' t' rest' slots' ∧ Live c' slots' ∧ SameBounds s s' ∧
      (s.OrphanKept f (.upsert key payload) →
        s'.leafNumber + c.length = s.leafNumber + c'.length) := by
  obtain ⟨A, z, B, l, acc, hpred, hwrote, hent, ⟨a, block, hchoose, hacc⟩, hcases⟩ :=
    h.upsertInner_cases hp hlo hhi hs
  have hkey : key ≠ freeFlag := ne_of_lt (lt_of_le_of_lt hhi h.rooted.bound)
  have hwired := h.wrote hhi hpred hwrote
  obtain ⟨b, hb⟩ := hwrote
  have hinfo : (A ++ (z.1, l) :: B).map Link.info = c.map Link.info := by
    rw [hpred.eq, map_info_eq hb.header]
  have hlive' : Live (A ++ (z.1, l) :: B) slots := hlive.congr hinfo
  have hlen : (A ++ (z.1, l) :: B).length = c.length := by simpa using congrArg List.length hinfo
  rcases hcases with ⟨-, rfl⟩ | ⟨hdue, hsplit⟩
  · exact ⟨_, t, rest, slots, hwired, hlive', ⟨rfl, rfl, rfl, rfl⟩, fun _ => by rw [hlen]; rfl⟩
  · have hprev : l.prev = z.2.prev := by rw [hb.header.header]
    have hnext : l.next = z.2.next := by rw [hb.header.header]
    have hat : l.prev ≠ none → l.next ≠ none → s.SplitsAt key z.1 a z.2 := fun hl hr =>
      ⟨⟨block, hchoose⟩, h.chain.stored z hpred.mem, hdue, hprev ▸ hl, hnext ▸ hr⟩
    obtain ⟨c', t', rest', slots', hwired', hresplit, hbounds, hlive''⟩ := hwired.split
      (z := (z.1, l)) (by simp) (hent.withLeaves hb.header _) hp.inners hp'.inners hp'.heap hsplit
    obtain ⟨hlive₁, hnumber⟩ := hlive'' hlive' (by
      intro hsome hl hr
      obtain ⟨a', rfl⟩ := Option.isSome_iff_exists.mp (hacc.trans hsome)
      have hstores := hkept z.1 a' z.2 (hat hl hr)
      rw [show Link.firstKey (z.1, l) = z.2.firstKey by rw [Link.firstKey, hb.header.header]]
      exact Wrote.stores ⟨b, hb⟩ hkey (hstores.imp_right Eq.symm))
    refine ⟨c', t', rest', slots', hwired', hlive₁,
      ⟨hbounds.min, hbounds.max, hbounds.left, hbounds.right⟩, fun horphan => ?_⟩
    rw [hlen] at hnumber
    cases acc with
    | some addr => exact hnumber
    | none =>
      obtain rfl : a = none := by
        cases a with
        | none => rfl
        | some a' => cases hacc
      have hsame := hresplit.length_eq hwired.chain fun hl hr => by
        rw [Wrote.splitSegments_eq ⟨b, hb⟩ f]
        exact horphan z.1 z.2 (hat hl hr)
      rw [hlen] at hsame
      rw [← hsame]
      exact hnumber

/-! ## 実行 -/

/-- `bulk_load` の直後は、どの leaf にも親 slot が在る。 -/
theorem Loaded.live (h : Loaded f data s) (hd : LoadData data) (hp : s.Plausible) :
    ∃ t rest slots, s.Wired (loadChain f data) t rest slots ∧ Live (loadChain f data) slots ∧
      s.leafNumber = (loadChain f data).length := by
  obtain ⟨t, rest, href⟩ := h.refines hd hp
  exact ⟨t, rest, _, href.wired, href.live, h.leafNumber_eq hp.heap⟩

/-- 内側でない鍵への要求は、buffer だけを変える。 -/
theorem perform_outside {op : IndexOp} (hout : ¬ s.Interior op) {fuel : Nat}
    (hs : perform f fuel s op = .ok s') : ∃ left right, s' = s.withBuffers left right := by
  cases op with
  | upsert key payload =>
    obtain rfl := Except.ok.inj ((upsert_buffer hout).symm.trans hs)
    split
    · exact ⟨_, _, rfl⟩
    · exact ⟨_, _, rfl⟩
  | remove key =>
    obtain rfl := Except.ok.inj ((remove_buffer hout).symm.trans hs)
    split
    · exact ⟨_, _, rfl⟩
    · exact ⟨_, _, rfl⟩

/-- 一つの要求は、条件を満たせば形を保つ。 -/
theorem Wired.step (h : s.Wired c t rest slots) (hlive : Live c slots) (hp : s.Plausible)
    (hp' : s'.Plausible) {op : IndexOp} (hkept : s.Interior op → s.FirstKept op) {fuel : Nat}
    (hs : perform f fuel s op = .ok s') :
    ∃ c' t' rest' slots', s'.Wired c' t' rest' slots' ∧ Live c' slots' ∧
      ((s.Interior op → s.OrphanKept f op) →
        s'.leafNumber + c.length = s.leafNumber + c'.length) := by
  by_cases hin : s.Interior op
  · cases op with
    | upsert key payload =>
      rw [perform, PlinIndex.upsert] at hs
      obtain ⟨c', t', rest', slots', hwired', hlive', -, hnumber⟩ :=
        h.upsert_live hlive hp hp' hin.1.le hin.2.le (hkept hin) ((if_pos hin).symm.trans hs)
      exact ⟨c', t', rest', slots', hwired', hlive', fun horphan => hnumber (horphan hin)⟩
    | remove key =>
      obtain ⟨c', hwired', -, hnumber, hinfo⟩ := h.remove hin.1 hin.2 hs
      have hlen : c'.length = c.length := by simpa using congrArg List.length hinfo
      exact ⟨c', t, rest, slots, hwired', hlive.congr hinfo, fun _ => by rw [hnumber, hlen]⟩
  · obtain ⟨left, right, rfl⟩ := perform_outside hin hs
    exact ⟨c, t, rest, slots, h.setBuffers left right, hlive, fun _ => rfl⟩

/-- **条件を満たす要求だけを続ければ、どの親 slot も連鎖の leaf のものである。** -/
theorem Reached.live (hd : LoadData data) {allow : PlinIndex D → IndexOp → Prop}
    (hkept : ∀ s op, allow s op → s.Interior op → s.FirstKept op)
    (h : Reached f data Plausible allow ops s) :
    s.Plausible ∧ ∃ c t rest slots, s.Wired c t rest slots ∧ Live c slots ∧
      ((∀ s op, allow s op → s.Interior op → s.OrphanKept f op) → s.leafNumber = c.length) := by
  induction h with
  | load h hok =>
    obtain ⟨t, rest, slots, hwired, hlive, hnumber⟩ := (bulkLoad_loaded h).live hd hok
    exact ⟨hok, _, t, rest, slots, hwired, hlive, fun _ => hnumber⟩
  | @step ops s s' fuel op _ hallow hs hok ih =>
    obtain ⟨hp, c, t, rest, slots, hwired, hlive, hnumber⟩ := ih
    obtain ⟨c', t', rest', slots', hwired', hlive', hnumber'⟩ :=
      hwired.step hlive hp hok (hkept s op hallow) hs
    refine ⟨hok, c', t', rest', slots', hwired', hlive', fun horphan => ?_⟩
    have hstep := hnumber' (horphan s op hallow)
    have hold := hnumber horphan
    omega

/-! ## `local_table` -/

/-- **内側の鍵への `upsert` と `remove` をどう続けても、`local_table` は leaf の連鎖と揃っている。** -/
theorem leafTable_matches {D : Type} [Arith D] {f : Fitter D} {data : List (Key × Payload)}
    (hd : LoadData data) {ops : List IndexOp} {s : PlinIndex D}
    (h : Reached f data Plausible Interior ops s) : ∃ c, s.TableMatches c := by
  obtain ⟨-, c, t, rest, slots, hwired⟩ := h.wired hd
  exact ⟨c, hwired.tableMatches⟩

/-- 真ん中の leaf が分割された後も、`local_table` は連鎖と揃っている。 -/
theorem leafTable_matches_insert :
    ∃ s s' : PlinIndex ℚ, SplitRun s s' ∧ ∃ c, s'.TableMatches c := by
  obtain ⟨s, s', hrun⟩ := exists_splitRun
  exact ⟨s, s', hrun, leafTable_matches loadData_lostData (.step
    (.load hrun.load hrun.regular.toPlausible) hrun.interior hrun.upsert hrun.regular'.toPlausible)⟩

/-! ## 終わらない再試行 -/

/-- 終わらない再試行ではない。 -/
def Ends {α : Type} (r : Except IndexFault α) : Prop := r ≠ .error .retryForever

section Ends

variable {α β : Type}

theorem ends_ok (a : α) : Ends (.ok a : Except IndexFault α) := nofun

theorem ends_error {e : IndexFault} (h : e ≠ .retryForever) :
    Ends (.error e : Except IndexFault α) :=
  fun he => h (Except.error.inj he)

theorem ends_orFault (o : Option α) : Ends (orFault o) := by
  cases o
  · exact ends_error (by decide)
  · exact ends_ok _

theorem orFault_eq_ok {o : Option α} {a : α} (h : orFault o = .ok a) : o = some a := by
  cases o with
  | none => cases h
  | some b => exact congrArg some (Except.ok.inj h)

theorem Ends.bind {x : Except IndexFault α} {g : α → Except IndexFault β} (hx : Ends x)
    (hg : ∀ a, x = .ok a → Ends (g a)) : Ends (x.bind g) := by
  cases x with
  | error e => exact fun h => hx (congrArg Except.error (Except.error.inj h))
  | ok a => exact hg a rfl

end Ends

theorem ends_buildLeaves (segs : List (Segment D)) :
    ∀ (data : List (Key × Payload)) (startPos : Nat) (prev : Option LeafId)
      (heap : List (LeafNode D)), Ends (buildLeaves segs data startPos prev heap) := by
  induction segs with
  | nil => exact fun _ _ _ heap => ends_ok heap
  | cons seg segs ih =>
    intro data startPos prev heap
    rw [buildLeaves]
    split
    · exact ih _ _ _ _
    · exact ends_error (by decide)

theorem ends_retrain (f : Fitter D) (leaves : List (LeafNode D)) (x left right : LeafId) :
    Ends (retrain f leaves x left right) := by
  unfold retrain
  refine Ends.bind (ends_orFault _) fun leaf _ => ?_
  dsimp only
  split
  · exact ends_error (by decide)
  · exact Ends.bind (ends_buildLeaves _ _ _ _ _) fun _ _ => ends_ok _

theorem length_mapM {α β : Type} {g : α → Option β} {l : List α} {r : List β}
    (h : l.mapM g = some r) : r.length = l.length := by
  induction l generalizing r with
  | nil =>
    obtain rfl := Option.some.inj h
    rfl
  | cons a l ih =>
    rw [List.mapM_cons] at h
    obtain ⟨b, -, h⟩ := Option.bind_eq_some_iff.mp h
    obtain ⟨bs, hbs, h⟩ := Option.bind_eq_some_iff.mp h
    obtain rfl := Option.some.inj h
    rw [List.length_cons, List.length_cons, ih hbs]

omit [Arith D] in
theorem length_walkChain {leaves : List (LeafNode D)} :
    ∀ {n : Nat} {id : Option LeafId} {ids : List LeafId},
      walkChain leaves n id = some ids → ids.length = n := by
  intro n
  induction n with
  | zero =>
    intro id ids h
    obtain rfl := Option.some.inj h
    rfl
  | succ n ih =>
    intro id ids h
    obtain ⟨id, -, h⟩ := Option.bind_eq_some_iff.mp h
    obtain ⟨l, -, h⟩ := Option.bind_eq_some_iff.mp h
    obtain ⟨rest, hrest, h⟩ := Option.bind_eq_some_iff.mp h
    obtain rfl := Option.some.inj h
    rw [List.length_cons, ih hrest]

theorem ends_rebuildInnerNodes (f : Fitter D) (s : PlinIndex D) :
    Ends (s.rebuildInnerNodes f) := by
  unfold rebuildInnerNodes
  refine Ends.bind (ends_orFault _) fun first _ => Ends.bind (ends_orFault _) fun ids hids =>
    Ends.bind (ends_orFault _) fun accelerators hacc => ?_
  have hlen : (accelerators.map InnerSlot.minKey).length < s.leafNumber + 1 := by
    rw [List.length_map, length_mapM (orFault_eq_ok hacc), length_walkChain (orFault_eq_ok hids)]
    exact Nat.lt_succ_self _
  refine Ends.bind ?_ fun _ _ => ends_ok _
  have hout := buildLevels_outcome f innerBlocksForRebuild (s.leafNumber + 1) []
    (accelerators.map InnerSlot.minKey) accelerators s.inners [] hlen
  rcases hout with ⟨b, hb⟩ | hb
  · exact fun h => by cases hb.symm.trans h
  · exact fun h => by cases hb.symm.trans h

/-- 分割は終わる。 -/
theorem ends_split (f : Fitter D) (s : PlinIndex D) (x : LeafId) (acc : Option SlotAddr) :
    Ends (s.split f x acc) := by
  cases hlocks : splitLocks s.leaves x with
  | mk leaves locked =>
    cases locked with
    | none =>
      unfold split
      rw [hlocks]
      exact ends_ok _
    | some p =>
      rw [split_of_locks hlocks]
      refine Ends.bind (ends_retrain _ _ _ _ _) fun heap _ =>
        Ends.bind (ends_orFault _) fun s₂ _ => ?_
      unfold finishSplit
      split
      · exact ends_rebuildInnerNodes f _
      · exact ends_ok _

/-- **どの親 slot も連鎖の leaf のものなら、`upsert` は終わる。** -/
theorem Wired.ends_upsert (h : s.Wired c t rest slots) (hlive : Live c slots) (hp : s.Plausible)
    (f : Fitter D) (fuel : Nat) (key : Key) (payload : Payload) :
    Ends (s.upsert f (fuel + 1) key payload) := by
  unfold PlinIndex.upsert
  split
  · next hin =>
    cases hd : s.descend key with
    | none =>
      rw [upsertInner, hd]
      exact ends_error (by decide)
    | some addr =>
      obtain ⟨X, x, Y, P, e, Q, hland, haddr, hread⟩ :=
        h.rooted.of_descend (h.tame hp.inners) hin.1.le hin.2.le hd
      obtain ⟨y, hy, rfl⟩ := hlive e hland.pred.mem
      obtain ⟨A, z, B, l, acc, -, -, -, -, hcases⟩ :=
        h.upsertInner_eq (f := f) hp payload hin.2.le hd hland haddr hread hy
      rcases hcases with ⟨-, heq⟩ | ⟨-, heq⟩
      · rw [heq]
        exact ends_ok _
      · rw [heq]
        exact ends_split f _ _ _
  · split
    · exact ends_ok _
    · exact ends_ok _

/-! ## 根から届く slot -/

/-- 根から親 slot をたどって届く slot。空きの slot は除く。 -/
inductive Linked (s : PlinIndex D) : InnerSlot D → Prop
  | root {e : InnerSlot D} (he : e ∈ s.roots) : Linked s e
  | child {a e : InnerSlot D} {nd : InnerNode D} (ha : Linked s a) (htype : a.type = true)
      (hnd : s.inners[a.ptr]? = some nd) (he : e ∈ nd.slots) (hfree : e.isFree = false) :
      Linked s e

/-- 段の一番上の slot は、一番下の子か、どれかの段の親 slot である。 -/
theorem mem_top {inners : List (InnerNode D)} :
    ∀ {tiers : List (Tier D)} {bottom top : List (InnerSlot D)}, Stacked inners tiers bottom top →
      ∀ e ∈ top, e ∈ bottom ∨ ∃ u ∈ tiers, e ∈ u.accelerators
  | [], _, _, h, e, he => Or.inl (h ▸ he)
  | t :: rest, _, _, ⟨_, _, hst⟩, e, he => by
    rcases mem_top hst e he with he | ⟨u, hu, he⟩
    · exact Or.inr ⟨t, by simp, he⟩
    · exact Or.inr ⟨u, by simp [hu], he⟩

/-- 段の node の子は、一番下の子か、どれかの段の親 slot である。 -/
theorem mem_entries {inners : List (InnerNode D)} :
    ∀ {tiers : List (Tier D)} {bottom top : List (InnerSlot D)}, Stacked inners tiers bottom top →
      ∀ u ∈ tiers, ∀ e ∈ u.entries, e ∈ bottom ∨ ∃ v ∈ tiers, e ∈ v.accelerators
  | [], _, _, _, u, hu, _, _ => nomatch hu
  | t :: rest, _, _, ⟨hbottom, _, hst⟩, u, hu, e, he => by
    rcases List.mem_cons.mp hu with rfl | hu
    · exact Or.inl (hbottom ▸ he)
    · rcases mem_entries hst u hu e he with he | ⟨v, hv, he⟩
      · exact Or.inr ⟨t, by simp, he⟩
      · exact Or.inr ⟨v, by simp [hv], he⟩

/-- 届く slot は、leaf の親 slot か、どれかの段の親 slot である。 -/
theorem Rooted.of_linked (h : s.Rooted t rest slots) {e : InnerSlot D} (he : s.Linked e) :
    e ∈ slots ∨ ∃ u ∈ t :: rest, e ∈ u.accelerators := by
  induction he with
  | root he => exact mem_top h.stacked _ he
  | @child a e nd _ htype hnd he hfree ih =>
    rcases ih with ha | ⟨u, hu, ha⟩
    · rw [h.leafSlots a ha] at htype
      cases htype
    · obtain ⟨x, hx, rfl⟩ := List.mem_map.mp ha
      obtain rfl := Option.some.inj ((Stacked.mem_inners h.stacked u hu x hx).symm.trans hnd)
      refine mem_entries h.stacked u hu e (List.mem_flatMap.mpr ⟨x, hx, ?_⟩)
      exact List.mem_filter.mpr ⟨he, by rw [hfree]; rfl⟩

/-! ## 主定理 -/

/-- 捨てられておらず、split lock も掛かっていない leaf の番地。 -/
def Usable (s : PlinIndex D) (id : LeafId) : Prop :=
  ∃ l, s.leaves[id]? = some l ∧ l.isAbandoned = false ∧ l.checkSplitLock = true

/--
分割で捨てられた leaf には、どこからも届かない。

根からたどれる slot も、`get_leftmost_leaf` から始まる連鎖も、`local_table` も、`find` と `upsert` が選ぶ leaf も、
使える leaf だけを指す。どの `upsert` もやり直し続けない。
-/
structure Detached (s : PlinIndex D) : Prop where
  slots : ∀ e, s.Linked e → e.type = false → s.Usable e.ptr
  chain : ∃ c, s.TableMatches c ∧ ∀ x ∈ c, s.Usable x.1
  table : ∀ r ∈ s.localTable, s.Usable r.addr
  chosen : ∀ key, s.minKey ≤ key → key ≤ s.maxKey → ∀ id a block,
    s.choose key = some (.at id a block) → s.Usable id
  ends : ∀ (f : Fitter D) fuel key payload, Ends (s.upsert f (fuel + 1) key payload)

theorem usable_of_chain (h : Chain s.minKey s.maxKey s.leaves c) {x : Link D} (hx : x ∈ c) :
    s.Usable x.1 :=
  ⟨x.2, h.stored x hx, (h.sound x hx).kept, by
    simp [LeafNode.checkSplitLock, (h.sound x hx).unlocked]⟩

/-- 選ばれる leaf は、連鎖の中で鍵以下の最後の leaf である。 -/
theorem Wired.choose_eq (h : s.Wired c t rest slots) (hlive : Live c slots) (hp : s.Plausible)
    (hlo : s.minKey ≤ key) (hhi : key ≤ s.maxKey) {a : Option (InnerSlot D)} {block : Nat}
    (hchoose : s.choose key = some (.at id a block)) :
    ∃ A z B, IsPred Link.firstKey key c A z B ∧ id = z.1 := by
  obtain ⟨addr, hd, hchoose⟩ := Option.bind_eq_some_iff.mp hchoose
  obtain ⟨e, he, hchoose⟩ := Option.bind_eq_some_iff.mp hchoose
  obtain ⟨X, x, Y, P, e', Q, hland, -, hread⟩ :=
    h.rooted.of_descend (h.tame hp.inners) hlo hhi hd
  obtain rfl := Option.some.inj (he.symm.trans hread)
  obtain ⟨y, hy, rfl⟩ := hlive e hland.pred.mem
  obtain ⟨A, z, B, acc, hpred, hloc, -⟩ := h.locate hp hhi hy hland.pred
  refine ⟨A, z, B, hpred, ?_⟩
  have hsame := Option.some.inj (hchoose.symm.trans hloc)
  cases hsame
  rfl

theorem Wired.detached (h : s.Wired c t rest slots) (hlive : Live c slots) (hp : s.Plausible) :
    s.Detached where
  slots e he htype := by
    rcases h.rooted.of_linked he with hes | ⟨u, -, hu⟩
    · obtain ⟨x, hx, rfl⟩ := hlive e hes
      exact usable_of_chain h.chain hx
    · obtain ⟨x, -, rfl⟩ := List.mem_map.mp hu
      cases htype
  chain := ⟨c, h.tableMatches, fun x hx => usable_of_chain h.chain hx⟩
  table r hr := by
    rw [h.table] at hr
    obtain ⟨x, hx, rfl⟩ := List.mem_map.mp hr
    exact usable_of_chain h.chain hx
  chosen key hlo hhi id a block hchoose := by
    obtain ⟨A, z, B, hpred, rfl⟩ := h.choose_eq hlive hp hlo hhi hchoose
    exact usable_of_chain h.chain hpred.mem
  ends f fuel key payload := h.ends_upsert hlive hp f fuel key payload

/-- 分割された leaf は、捨てられたまま heap に残る。 -/
theorem Wired.abandons (h : s.Wired c t rest slots) (hp : s.Plausible) (hlo : s.minKey ≤ key)
    (hhi : key ≤ s.maxKey) {a : Option (InnerSlot D)} (hat : s.SplitsAt key id a l) {fuel : Nat}
    (hs : upsertInner f key payload fuel s = .ok s') : ¬ s'.Usable id := by
  obtain ⟨A, z, B, l', acc, hpred, ⟨b, hb⟩, -, ⟨a', block', hchoose', -⟩, hcases⟩ :=
    h.upsertInner_cases hp hlo hhi hs
  obtain ⟨block, hchoose⟩ := hat.chosen
  obtain rfl : id = z.1 := by
    have hsame := Option.some.inj (hchoose.symm.trans hchoose')
    cases hsame
    rfl
  obtain rfl : l = z.2 := Option.some.inj (hat.stored.symm.trans (h.chain.stored z hpred.mem))
  rcases hcases with ⟨hnot, -⟩ | ⟨-, hsplit⟩
  · exact absurd hat.due hnot
  · have hwired := h.wrote hhi hpred ⟨b, hb⟩
    have hlinked := h.chain.linked
    rw [hpred.eq] at hlinked
    -- 両隣が在るので、真ん中の leaf の分割である
    obtain ⟨r, B, rfl⟩ : ∃ r B', B = r :: B' := by
      refine List.exists_cons_of_ne_nil ?_
      rintro rfl
      exact hat.right hlinked.middle.2
    obtain ⟨A, y, rfl⟩ : ∃ A' y, A = A' ++ [y] := by
      refine ⟨_, _, (List.dropLast_append_getLast ?_).symm⟩
      rintro rfl
      exact hat.left hlinked.middle.1
    rw [← List.append_cons] at hwired
    obtain ⟨-, -, heap, s₂, -, hafter⟩ := split_middle hwired.chain hsplit
    have hdead := (hwired.chain.getElem?_splitHeap (if acc.isSome then 1 else 0)
      (splitChain f (s.withLeaves (s.leaves.set z.1 l')).leaves.length y (z.1, l') r)).2.1
    rintro ⟨m, hm, hkept, -⟩
    have hleaves : s'.leaves = splitHeap (s.withLeaves (s.leaves.set z.1 l')).leaves y (z.1, l') r
        (if acc.isSome then 1 else 0)
        (splitChain f (s.withLeaves (s.leaves.set z.1 l')).leaves.length y (z.1, l') r) := by
      rcases hafter with rfl | hrebuild
      · rfl
      · obtain ⟨_, _, _, rfl⟩ := rebuildInnerNodes_frame hrebuild
        rfl
    rw [hleaves, hdead] at hm
    obtain rfl := Option.some.inj hm
    cases hkept

/-- **`first_key` を失った leaf を親 slot を通して分割しない限り、分割された leaf にはどこからも届かない。** -/
theorem splitLeaf_detached {D : Type} [Arith D] {f : Fitter D} {data : List (Key × Payload)}
    (hd : LoadData data) {ops : List IndexOp} {s : PlinIndex D}
    (h : Reached f data Plausible (fun s op => s.Interior op ∧ s.FirstKept op) ops s) :
    s.Detached ∧ ∀ {key : Key} {payload : Payload} {fuel : Nat} {s' : PlinIndex D},
      s.Interior (.upsert key payload) → s.FirstKept (.upsert key payload) →
      s.upsert f fuel key payload = .ok s' → s'.Plausible →
      ∀ id a l, s.SplitsAt key id a l → s'.Detached ∧ ¬ s'.Usable id := by
  obtain ⟨hp, c, t, rest, slots, hwired, hlive, -⟩ := h.live hd fun s op hallow _ => hallow.2
  refine ⟨hwired.detached hlive hp, ?_⟩
  intro key payload fuel s' hin hkept hs hp' id a l hat
  obtain ⟨c', t', rest', slots', hwired', hlive', -⟩ :=
    hwired.step hlive hp hp' (fun _ => hkept)
      (show perform f fuel s (.upsert key payload) = _ from hs)
  rw [PlinIndex.upsert] at hs
  exact ⟨hwired'.detached hlive' hp',
    hwired.abandons hp hin.1.le hin.2.le hat ((if_pos hin).symm.trans hs)⟩

/-- 分割の起きる実行では、分割される leaf は `first_key` を持ち、親 slot を通して着く。 -/
theorem SplitRun.kept_first {s s' : PlinIndex ℚ} (h : SplitRun s s') :
    s.FirstKept (.upsert lateKey 7) := by
  intro id a l hat
  obtain ⟨-, rfl⟩ := h.eq_midLeaf hat
  exact Or.inl h.kept

theorem SplitRun.kept_orphan {s s' : PlinIndex ℚ} (h : SplitRun s s') :
    s.OrphanKept exactFitter (.upsert lateKey 7) :=
  fun _ _ hat => absurd rfl (h.eq_midLeaf hat).1

/-- 真ん中の leaf が分割された後、その leaf にはどこからも届かない。 -/
theorem splitLeaf_detached_insert :
    ∃ s s' : PlinIndex ℚ, SplitRun s s' ∧ s'.Detached ∧ ¬ s'.Usable 1 := by
  obtain ⟨s, s', hrun⟩ := exists_splitRun
  obtain ⟨a, hat⟩ := hrun.splits
  have hload : Reached exactFitter lostData Plausible
      (fun s op => s.Interior op ∧ s.FirstKept op) [] s :=
    .load hrun.load hrun.regular.toPlausible
  exact ⟨s, s', hrun, (splitLeaf_detached loadData_lostData hload).2 hrun.interior hrun.kept_first
    hrun.upsert hrun.regular'.toPlausible 1 (some a) midLeaf hat⟩

/--
`leaf_number` が連鎖 `c` の長さであり、`local_table` の行の数でもある。

`rebuild_inner_nodes` は連鎖のどの leaf もちょうど一度ずつ通り、`find_through_net` が抑えた番号は表の中に
収まる。
-/
structure Tallied (s : PlinIndex D) (c : List (Link D)) : Prop where
  matched : s.TableMatches c
  number : s.leafNumber = c.length
  table : s.localTable.length = c.length
  walk : walkChain s.leaves s.leafNumber s.getLeftmostLeaf = some (c.map Prod.fst)
  once : (c.map Prod.fst).Nodup
  clamp : ∀ id : Int, (if sub32 s.leafNumber 1 < (if id < 0 then 0 else id).toNat then
    sub32 s.leafNumber 1 else (if id < 0 then 0 else id).toNat) < s.localTable.length

theorem Wired.tallied (h : s.Wired c t rest slots) (hp : s.Plausible)
    (hnumber : s.leafNumber = c.length) : s.Tallied c := by
  have hmatch := h.tableMatches
  have htable : s.localTable.length = c.length := by rw [h.table, List.length_map]
  have hfirst : s.getLeftmostLeaf = firstId c none := by
    rw [hmatch.first]
    cases c with
    | nil => exact absurd rfl hmatch.nonempty
    | cons x c => rfl
  refine ⟨hmatch, hnumber, htable, ?_, h.chain.nodup, fun id => ?_⟩
  · rw [hfirst, walkChain_eq h.chain.stored h.chain.linked, hnumber, if_pos le_rfl,
      List.take_length]
  · have hheap := hp.heap
    have hnum := h.number
    have hlast : sub32 s.leafNumber 1 = s.leafNumber - 1 := sub32_eq hnum.1 (by omega)
    rw [hlast, htable, ← hnumber]
    generalize (if id < 0 then 0 else id).toNat = n
    split <;> omega

/-- **親 slot を通した分割が `first_key` を持つ leaf のもので、orphan の分割が leaf を増やさなければ、`leaf_number`
は連鎖の長さであり、`local_table` の行の数である。** -/
theorem leafNumber_tallied {D : Type} [Arith D] {f : Fitter D} {data : List (Key × Payload)}
    (hd : LoadData data) {ops : List IndexOp} {s : PlinIndex D}
    (h : Reached f data Plausible
      (fun s op => s.Interior op → s.FirstKept op ∧ s.OrphanKept f op) ops s) :
    ∃ c, s.Tallied c := by
  obtain ⟨hp, c, t, rest, slots, hwired, -, hnumber⟩ :=
    h.live hd fun s op hallow hin => (hallow hin).1
  exact ⟨c, hwired.tallied hp (hnumber fun s op hallow hin => (hallow hin).2)⟩

/-- 真ん中の leaf が分割された後も、`leaf_number` は連鎖の長さである。 -/
theorem leafNumber_tallied_insert :
    ∃ s s' : PlinIndex ℚ, SplitRun s s' ∧ ∃ c, s'.Tallied c := by
  obtain ⟨s, s', hrun⟩ := exists_splitRun
  exact ⟨s, s', hrun, leafNumber_tallied loadData_lostData (.step
    (.load hrun.load hrun.regular.toPlausible) (fun _ => ⟨hrun.kept_first, hrun.kept_orphan⟩)
    hrun.upsert hrun.regular'.toPlausible)⟩

end PlinIndex

end Plin
