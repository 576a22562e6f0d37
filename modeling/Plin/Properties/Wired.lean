import Plin.Properties.Rebuild
import Plin.Properties.Split

/-!
# 分割を経た索引の形

分割は、親 slot の列を連鎖と揃わなくすることがある。`first_key` を消された leaf が分割されると、その親
slot は置き換えられずに残り、捨てられた leaf を指し続ける。それでも **連鎖と `local_table` は揃ったまま**
である（`PlinIndex.Wired`）。

親 slot の列については、どの slot も連鎖の leaf の `get_info` の写しか、捨てられて split lock の掛かった
leaf を指すものである（`known`）。後者を通る `upsert` は先へ進めないので、捨てられた leaf が書き換えられる
ことは無い。
-/

namespace Plin

open Infra

variable {D : Type} [Arith D]

namespace PlinIndex

/-- 捨てられ、split lock の掛かったままの leaf の番地。 -/
def Abandoned (s : PlinIndex D) (id : LeafId) : Prop :=
  ∃ l, s.leaves[id]? = some l ∧ l.isAbandoned = true ∧ l.checkSplitLock = false

/-- 分割を経た索引の形。 -/
structure Wired (s : PlinIndex D) (c : List (Link D)) (t : Tier D) (rest : List (Tier D))
    (slots : List (InnerSlot D)) : Prop where
  rooted : s.Rooted t rest slots
  chain : Chain s.minKey s.maxKey s.leaves c
  first : slots.head? = (c.map Link.info).head?
  table : s.localTable = c.map record
  full : ∀ nd ∈ s.inners, nd.Full
  known : ∀ e ∈ slots, (∃ x ∈ c, e = x.info) ∨ s.Abandoned e.ptr
  number : 0 < s.leafNumber ∧ s.leafNumber ≤ s.leaves.length

/-- どの親 slot も、連鎖の leaf の `get_info` の写しである。 -/
def Live (c : List (Link D)) (slots : List (InnerSlot D)) : Prop :=
  ∀ e ∈ slots, ∃ x ∈ c, e = x.info

/-! ## 段の形と関わらない書き換え -/

variable {s s' : PlinIndex D} {t : Tier D} {rest : List (Tier D)} {slots : List (InnerSlot D)}
  {c : List (Link D)}

/-- 段の形は、inner node と根と鍵の範囲だけで決まる。 -/
theorem Rooted.congr (h : s.Rooted t rest slots) (hinners : s'.inners = s.inners)
    (hroots : s'.roots = s.roots) (hmin : s'.minKey = s.minKey) (hmax : s'.maxKey = s.maxKey) :
    s'.Rooted t rest slots := by
  refine ⟨?_, ?_, h.ids, ?_, ?_, h.leafSlots⟩
  · rw [hmax]
    exact h.bound
  · rw [hinners, hroots]
    exact h.stacked
  · rw [hmin, hmax]
    exact h.slotsOk
  · rw [hmin]
    exact h.low

/-! ## 親 slot の在る leaf の分割 -/

/-- lock を放した後の slot の列。 -/
inductive Released : List (InnerSlot D) → List (InnerSlot D) → Prop
  | same (slots : List (InnerSlot D)) : Released slots slots
  | one (U : List (InnerSlot D)) (e : InnerSlot D) (V : List (InnerSlot D)) :
      Released (U ++ e :: V) (U ++ e.releaseLock :: V)

omit [Arith D] in
theorem Released.mem {slots slots' : List (InnerSlot D)} (h : Released slots slots')
    {e : InnerSlot D} (he : e ∈ slots') : e ∈ slots ∨ ∃ u ∈ slots, e = u.releaseLock := by
  cases h with
  | same => exact Or.inl he
  | one U u V =>
    rcases List.mem_append.mp he with he | he
    · exact Or.inl (by simp [he])
    · rcases List.mem_cons.mp he with he | he
      · exact Or.inr ⟨u, by simp, he⟩
      · exact Or.inl (by simp [he])

omit [Arith D] in
theorem Released.exists_minKey {slots slots' : List (InnerSlot D)} (h : Released slots slots')
    {e : InnerSlot D} (he : e ∈ slots) : ∃ e' ∈ slots', e'.minKey = e.minKey := by
  cases h with
  | same => exact ⟨e, he, rfl⟩
  | one U u V =>
    rcases List.mem_append.mp he with he | he
    · exact ⟨e, by simp [he], rfl⟩
    · rcases List.mem_cons.mp he with rfl | he
      · exact ⟨e.releaseLock, by simp, rfl⟩
      · exact ⟨e, by simp [he], rfl⟩

omit [Arith D] in
theorem Released.head {slots slots' : List (InnerSlot D)} (h : Released slots slots')
    {e : InnerSlot D} (he : slots.head? = some e) (hfree : e.releaseLock = e) :
    slots'.head? = some e := by
  cases h with
  | same => exact he
  | one U u V =>
    cases U with
    | nil =>
      obtain rfl : u = e := by simpa using he
      exact congrArg some hfree
    | cons v U => simpa using he

/-- 親 slot を通した分割が、slot の列にすること。 -/
structure Announced (s s' : PlinIndex D) (t : Tier D) (rest : List (Tier D)) (rets : List Nat)
    (nodes slots slots₁ slots' : List (InnerSlot D)) : Prop where
  rooted : ∃ t', s'.Rooted t' rest slots'
  placed : PlacedAll nodes rets slots slots₁
  released : Released slots₁ slots'
  inners : SameInners s.inners s'.inners
  number : s'.leafNumber = s.leafNumber + rets.countP (1 < ·)

variable {nodes : List (InnerSlot D)} {heap : List (LeafNode D)} {i : InnerId} {j : Nat}
  {e : InnerSlot D}

/-- 親 slot に lock を掛け、新しい leaf を知らせ、lock を放す。 -/
theorem Rooted.announce (h : s.Rooted t rest slots)
    (hr : ∀ nd ∈ s.inners, nd.Tame (Set.Icc s.minKey s.maxKey)) (hi : i ∈ t.map Prod.fst)
    (hread : s.readSlot (.inner i j) = some e) (hfree : e.isFree = false)
    (hnodes : ∀ node ∈ nodes, s.minKey < node.minKey ∧ node.minKey ≤ s.maxKey ∧ node.type = false)
    (hlen : s.leafNumber + nodes.length < 2 ^ 32) {s₂ : PlinIndex D}
    (hplace : placeNodes ((s.onSlot lockSlot (some (.inner i j))).withLeaves heap) nodes
      (some (.inner i j)) = some s₂) :
    ∃ U V rets slots₁ slots', slots = U ++ e :: V ∧
      Announced s (s₂.onSlot InnerSlot.releaseLock (some (.inner i j))) t rest rets nodes
        (U ++ lockSlot e :: V) slots₁ slots' := by
  obtain ⟨t₁, slots₀, hroot₁, hids₁, hsame₁, hcases⟩ :=
    h.modifySlot (g := lockSlot) (j := j) (fun _ => rfl) (fun _ => rfl) hi
  rcases hcases with ⟨-, hbad⟩ | ⟨U, u, V, hu, hslots, rfl⟩
  · rw [hbad e hread] at hfree
    cases hfree
  · obtain rfl := Option.some.inj (hread.symm.trans hu)
    have hroot₁' : ((s.modifySlot lockSlot (.inner i j)).withLeaves heap).Rooted t₁ rest
        (U ++ lockSlot e :: V) := hroot₁.congr rfl rfl rfl rfl
    obtain ⟨rets, t₂, slots₁, m, hroot₂, hall, hids₂, hsame₂, heq⟩ :=
      hroot₁'.upsertNodes (hsame₁.tame hr) hnodes hlen hplace
    have hi₂ : i ∈ t₂.map Prod.fst := by
      rw [hids₂, hids₁]
      exact hi
    obtain ⟨t₃, slots', hroot₃, -, hsame₃, hcases⟩ :=
      hroot₂.modifySlot (g := InnerSlot.releaseLock) (j := j) (fun _ => rfl) (fun _ => rfl) hi₂
    refine ⟨U, V, rets, slots₁, slots', hslots, ⟨t₃, hroot₃⟩, hall, ?_,
      (hsame₁.trans hsame₂).trans hsame₃, ?_⟩
    · rcases hcases with ⟨rfl, -⟩ | ⟨U', u, V', -, rfl, rfl⟩
      · exact .same _
      · exact .one U' u V'
    · show s₂.leafNumber = _
      rw [heq]
      rfl

/-! ## 分割の一歩 -/

/-- 分割する leaf `z` へ来た道。親 slot を通って来たか、どの slot も `z` を指さない。 -/
def Entered (s : PlinIndex D) (t : Tier D) (slots : List (InnerSlot D)) (z : Link D) :
    Option SlotAddr → Prop
  | none => ∀ e ∈ slots, e.ptr ≠ z.1
  | some a => ∃ i j, a = .inner i j ∧ i ∈ t.map Prod.fst ∧ s.readSlot a = some z.info

/-- 分割の前後の連鎖。 -/
inductive Resplit (f : Fitter D) (n : Nat) (z : Link D) : List (Link D) → List (Link D) → Prop
  | edge (c : List (Link D)) : Resplit f n z c c
  | middle (A : List (Link D)) (l r : Link D) (B : List (Link D))
      (hsmall : ∀ y ∈ freshLeaves (splitSegments f z.2) z.2.getData.1 0 (some l.1) n,
        y.blockNumber < 2 ^ 29) :
      Resplit f n z (A ++ l :: z :: r :: B) (spliced A l (splitChain f n l z r) r B)

/-- 分割の間に変わらないもの。 -/
structure SameBounds (s s' : PlinIndex D) : Prop where
  min : s'.minKey = s.minKey
  max : s'.maxKey = s.maxKey
  left : s'.leftBuffer = s.leftBuffer
  right : s'.rightBuffer = s.rightBuffer

section Step

variable {f : Fitter D} {A B : List (Link D)} {l z r : Link D} {acc : Option SlotAddr}
  {s₂ : PlinIndex D}

theorem Wired.tame (h : s.Wired c t rest slots)
    (hmono : ∀ nd ∈ s.inners, nd.Nondecreasing s.minKey s.maxKey) :
    ∀ nd ∈ s.inners, nd.Tame (Set.Icc s.minKey s.maxKey) :=
  fun nd hnd => (hmono nd hnd).tame (h.full nd hnd)

theorem sameBounds_afterSplit
    (hplace : placeNodes ((s.onSlot lockSlot acc).withLeaves heap) nodes acc = some s₂) :
    SameBounds s (afterSplit f s s₂ l z r acc) := by
  obtain ⟨inners, n, m, rfl⟩ := placeNodes_frame hplace
  obtain ⟨inners₁, roots₁, h₁⟩ := onSlot_frame s lockSlot acc
  rw [h₁]
  unfold afterSplit
  obtain ⟨inners₂, roots₂, h₂⟩ := onSlot_frame
    { (({ s with inners := inners₁, roots := roots₁ } : PlinIndex D).withLeaves heap) with
      inners := inners, leafNumber := n, orphanNumber := m } InnerSlot.releaseLock acc
  rw [h₂]
  exact ⟨rfl, rfl, rfl, rfl⟩

omit [Arith D] in
/-- 連鎖の leaf の親 slot は、分割の後も連鎖の leaf の親 slot であるか、分割された leaf を指す。 -/
theorem info_mem_spliced (new : List (Link D)) {x : Link D} (hx : x ∈ A ++ l :: z :: r :: B) :
    x = z ∨ ∃ y ∈ spliced A l new r B, x.info = y.info := by
  unfold spliced
  rcases List.mem_append.mp hx with hx | hx
  · exact Or.inr ⟨x, by simp [hx], rfl⟩
  · rcases List.mem_cons.mp hx with rfl | hx
    · exact Or.inr ⟨x.withNext (firstId new none), by simp, rfl⟩
    · rcases List.mem_cons.mp hx with hx | hx
      · exact Or.inl hx
      · rcases List.mem_cons.mp hx with rfl | hx
        · exact Or.inr ⟨x.withPrev (lastId none new), by simp, rfl⟩
        · exact Or.inr ⟨x, by simp [hx], rfl⟩

omit [Arith D] in
theorem head_spliced (new : List (Link D)) :
    ((spliced A l new r B).map Link.info).head? =
      ((A ++ l :: z :: r :: B).map Link.info).head? := by
  unfold spliced
  cases A <;> rfl

/-- 捨てられた leaf は、分割の後もそのままである。 -/
theorem Abandoned.afterSplit (h : Chain s.minKey s.maxKey s.leaves (A ++ l :: z :: r :: B))
    {id : LeafId} (hid : s.Abandoned id) : (afterSplit f s s₂ l z r acc).Abandoned id := by
  obtain ⟨m, hm, habandoned, hlock⟩ := hid
  have hne : ∀ x ∈ A ++ l :: z :: r :: B, id ≠ x.1 := by
    rintro x hx rfl
    rw [h.stored x hx] at hm
    obtain rfl := Option.some.inj hm
    rw [(h.sound x hx).kept] at habandoned
    cases habandoned
  refine ⟨m, ?_, habandoned, hlock⟩
  exact (getElem?_splitHeap _ _ (List.getElem?_eq_some_iff.mp hm).1 (hne l (by simp))
    (hne z (by simp)) (hne r (by simp))).trans hm

end Step

/-- 真ん中の leaf `z` の分割。前後の leaf と、学習し直した区分が在る。 -/
structure Splitting (f : Fitter D) (s : PlinIndex D) (A : List (Link D)) (l z r : Link D)
    (B : List (Link D)) (t : Tier D) (rest : List (Tier D)) (slots : List (InnerSlot D)) :
    Prop where
  wired : s.Wired (A ++ l :: z :: r :: B) t rest slots
  segments : splitSegments f z.2 ≠ []
  small : ∀ y ∈ freshLeaves (splitSegments f z.2) z.2.getData.1 0 (some l.1) s.leaves.length,
    y.blockNumber < 2 ^ 29

namespace Splitting

variable {f : Fitter D} {A B : List (Link D)} {l z r : Link D} {acc : Option SlotAddr}
  {s₂ : PlinIndex D}

theorem stored (h : Splitting f s A l z r B t rest slots) {w : Link D}
    (hw : w ∈ splitChain f s.leaves.length l z r) : z.2.Stores w.firstKey :=
  (h.wired.chain.before_splitChain h.wired.rooted.bound h.small hw).1

theorem left_lt (h : Splitting f s A l z r B t rest slots) : s.minKey < z.firstKey := by
  have hsorted := h.wired.chain.firstKey_sorted
  simp only [List.pairwise_append, List.pairwise_cons, List.forall_mem_cons] at hsorted
  exact lt_of_le_of_lt (h.wired.chain.sound l (by simp)).first.1 hsorted.2.1.1.1

/-- 新しい leaf の鍵は `z` の鍵なので、`min_key` より大きい。 -/
theorem within (h : Splitting f s A l z r B t rest slots) :
    ∀ node ∈ (splitChain f s.leaves.length l z r).map Link.info,
      s.minKey < node.minKey ∧ node.minKey ≤ s.maxKey ∧ node.type = false := by
  intro node hnode
  obtain ⟨y, hy, rfl⟩ := List.mem_map.mp hnode
  have hkeys := (h.wired.chain.sound z (by simp)).keys _ (h.stored hy)
  exact ⟨lt_of_lt_of_le h.left_lt hkeys.1, hkeys.2, rfl⟩

/-- 新しい leaf の鍵は、残る leaf の鍵とは異なる。 -/
theorem ne_firstKey (h : Splitting f s A l z r B t rest slots) {x w : Link D}
    (hx : x ∈ A ++ l :: z :: r :: B) (hxz : x ≠ z) (hw : w ∈ splitChain f s.leaves.length l z r) :
    x.firstKey ≠ w.firstKey := by
  have hle := ((h.wired.chain.sound z (by simp)).keys _ (h.stored hw)).1
  have hsorted := h.wired.chain.sorted
  rw [List.append_cons] at hx hsorted
  obtain ⟨-, hzr, hAl⟩ := List.pairwise_append.mp hsorted
  rcases List.mem_append.mp hx with hx | hx
  · exact ne_of_lt (lt_of_lt_of_le (hAl x hx z (by simp)).first hle)
  · rcases List.mem_cons.mp hx with hx | hx
    · exact absurd hx hxz
    · exact (((List.pairwise_cons.mp hzr).1 x hx).keys _ (h.stored hw)).ne'

/-- 分割の終わりの状態の形。親 slot の列が分かれば、残りは連鎖から決まる。 -/
theorem wired_of_rooted (h : Splitting f s A l z r B t rest slots)
    (hplace : placeNodes ((s.onSlot lockSlot acc).withLeaves heap)
      ((splitChain f s.leaves.length l z r).map Link.info) acc = some s₂)
    {t' : Tier D} {slots' : List (InnerSlot D)}
    (hroot : (afterSplit f s s₂ l z r acc).Rooted t' rest slots')
    (hsame : SameInners s.inners (afterSplit f s s₂ l z r acc).inners)
    (hfirst : slots'.head? = slots.head?)
    (hknown : ∀ e ∈ slots', (∃ x ∈ spliced A l (splitChain f s.leaves.length l z r) r B,
      e = x.info) ∨ (afterSplit f s s₂ l z r acc).Abandoned e.ptr)
    (hnumber : s.leafNumber ≤ (afterSplit f s s₂ l z r acc).leafNumber ∧
      (afterSplit f s s₂ l z r acc).leafNumber ≤
        s.leafNumber + (splitChain f s.leaves.length l z r).length) :
    (afterSplit f s s₂ l z r acc).Wired (spliced A l (splitChain f s.leaves.length l z r) r B) t'
      rest slots' := by
  have hbounds : SameBounds s (afterSplit f s s₂ l z r acc) := sameBounds_afterSplit hplace
  have hchain := h.wired.chain.spliced h.wired.rooted.bound h.segments h.small
    (if acc.isSome then 1 else 0)
  refine ⟨hroot, ?_, ?_, ?_, hsame.full h.wired.full, hknown, ?_⟩
  · rw [hbounds.min, hbounds.max]
    exact hchain
  · rw [hfirst, head_spliced]
    exact h.wired.first
  · show pessInsertTable s.localTable z.1 _ = _
    rw [h.wired.table]
    exact pessInsertTable_spliced h.wired.chain hchain
  · have hlen : (afterSplit f s s₂ l z r acc).leaves.length =
        s.leaves.length + (splitChain f s.leaves.length l z r).length := length_splitHeap ..
    have := h.wired.number
    omega

/-! ### orphan の分割 -/

/-- orphan の分割では、slot の列は変わらない。 -/
theorem orphan (h : Splitting f s A l z r B t rest slots) (hent : s.Entered t slots z none)
    (hplace : placeNodes ((s.onSlot lockSlot none).withLeaves heap)
      ((splitChain f s.leaves.length l z r).map Link.info) none = some s₂) :
    (afterSplit f s s₂ l z r none).Wired (spliced A l (splitChain f s.leaves.length l z r) r B) t
        rest slots ∧
      SameInners s.inners (afterSplit f s s₂ l z r none).inners ∧
      (afterSplit f s s₂ l z r none).leafNumber = s.leafNumber ∧
      (Live (A ++ l :: z :: r :: B) slots →
        Live (spliced A l (splitChain f s.leaves.length l z r) r B) slots) := by
  obtain ⟨hinners, hroots, hnumber⟩ : s₂.inners = s.inners ∧ s₂.roots = s.roots ∧
      s₂.leafNumber = s.leafNumber := by
    rw [← Option.some.inj hplace]
    exact ⟨rfl, rfl, rfl⟩
  have hbounds : SameBounds s (afterSplit f s s₂ l z r none) := sameBounds_afterSplit hplace
  -- 分割される leaf を指す slot は無い
  have hlink : ∀ {x : Link D}, x ∈ A ++ l :: z :: r :: B → x.info ∈ slots →
      ∃ y ∈ spliced A l (splitChain f s.leaves.length l z r) r B, x.info = y.info := by
    intro x hx hxs
    refine (info_mem_spliced _ hx).resolve_left ?_
    rintro rfl
    exact hent _ hxs rfl
  have hsame : SameInners s.inners (afterSplit f s s₂ l z r none).inners := by
    show SameInners s.inners s₂.inners
    rw [hinners]
    exact SameInners.refl _
  refine ⟨h.wired_of_rooted hplace
    (h.wired.rooted.congr hinners hroots hbounds.min hbounds.max) hsame rfl ?_ ?_, hsame, hnumber,
    ?_⟩
  · intro e he
    rcases h.wired.known e he with ⟨x, hx, rfl⟩ | hdead
    · exact Or.inl (hlink hx he)
    · exact Or.inr (hdead.afterSplit h.wired.chain)
  · show s.leafNumber ≤ s₂.leafNumber ∧ s₂.leafNumber ≤ _
    omega
  · intro hlive e he
    obtain ⟨x, hx, rfl⟩ := hlive e he
    exact hlink hx he

/-! ### 親 slot の在る leaf の分割 -/

section Child

variable {U V slots₁ slots' : List (InnerSlot D)} {rets : List Nat}

/-- 先頭の slot は変わらない。`z` は左隣を持つので先頭ではない。 -/
theorem head_announced (h : Splitting f s A l z r B t rest slots)
    (hslots : slots = U ++ z.info :: V)
    (hplaced : PlacedAll ((splitChain f s.leaves.length l z r).map Link.info) rets
      (U ++ lockSlot z.info :: V) slots₁) (hreleased : Released slots₁ slots') :
    slots'.head? = slots.head? := by
  obtain ⟨e, he, hemin⟩ := Option.map_eq_some_iff.mp h.wired.rooted.low
  obtain ⟨x, rfl⟩ : ∃ x : Link D, e = x.info := by
    have hhead := h.wired.first
    rw [he] at hhead
    obtain ⟨x, -, hxe⟩ := List.mem_map.mp (List.mem_of_mem_head? hhead.symm)
    exact ⟨x, hxe.symm⟩
  rw [he]
  refine hreleased.head (hplaced.head ?_ fun node hnode => ?_) rfl
  · rw [hslots] at he
    cases U with
    | nil =>
      obtain hxz : z.info = x.info := by simpa using he
      rw [← hxz] at hemin
      exact absurd hemin (ne_of_gt h.left_lt)
    | cons u U => simpa using he
  · rw [hemin]
    exact (h.within node hnode).1

/-- 捨てられた leaf を指したまま残るのは、元の親 slot だけである。 -/
theorem known_announced (h : Splitting f s A l z r B t rest slots) {a : SlotAddr}
    (hslots : slots = U ++ z.info :: V)
    (hplaced : PlacedAll ((splitChain f s.leaves.length l z r).map Link.info) rets
      (U ++ lockSlot z.info :: V) slots₁) (hreleased : Released slots₁ slots') :
    ∀ e ∈ slots', (∃ x ∈ spliced A l (splitChain f s.leaves.length l z r) r B, e = x.info) ∨
      (afterSplit f s s₂ l z r (some a)).Abandoned e.ptr := by
  have hdead : (afterSplit f s s₂ l z r (some a)).Abandoned z.1 :=
    ⟨_, (h.wired.chain.getElem?_splitHeap 1 _).2.1, rfl, by
      simp [LeafNode.checkSplitLock, LeafNode.abandon]⟩
  have hknown : ∀ u ∈ slots₁, (∃ x ∈ spliced A l (splitChain f s.leaves.length l z r) r B,
      u = x.info) ∨ (afterSplit f s s₂ l z r (some a)).Abandoned u.ptr := by
    intro u hu
    rcases hplaced.mem hu with hu | hu
    · obtain ⟨y, hy, rfl⟩ := List.mem_map.mp hu
      exact Or.inl ⟨y, by simp [spliced, hy], rfl⟩
    · have hcases : u = lockSlot z.info ∨ u ∈ slots := by
        rw [hslots]
        simp only [List.mem_append, List.mem_cons] at hu ⊢
        tauto
      rcases hcases with rfl | hu
      · exact Or.inr hdead
      · rcases h.wired.known u hu with ⟨x, hx, rfl⟩ | hold
        · rcases info_mem_spliced (splitChain f s.leaves.length l z r) hx with rfl | hx
          · exact Or.inr hdead
          · exact Or.inl hx
        · exact Or.inr (hold.afterSplit h.wired.chain)
  intro e he
  rcases hreleased.mem he with he | ⟨u, hu, rfl⟩
  · exact hknown e he
  · rcases hknown u hu with ⟨x, hx, rfl⟩ | hold
    · exact Or.inl ⟨x, hx, rfl⟩
    · exact Or.inr hold

/-- `z` の前後の slot は、残る leaf のものである。 -/
theorem exists_other (h : Splitting f s A l z r B t rest slots)
    (hslots : slots = U ++ z.info :: V) (hlive : Live (A ++ l :: z :: r :: B) slots)
    {u : InnerSlot D} (hu : u ∈ U ∨ u ∈ V) :
    ∃ x ∈ A ++ l :: z :: r :: B, u = x.info ∧ x ≠ z := by
  have hmem : u ∈ slots := by
    rw [hslots, List.mem_append, List.mem_cons]
    tauto
  obtain ⟨x, hx, rfl⟩ := hlive u hmem
  refine ⟨x, hx, rfl, ?_⟩
  rintro rfl
  have hsorted := h.wired.rooted.slotsOk.sorted
  rw [hslots, List.pairwise_append, List.pairwise_cons] at hsorted
  rcases hu with hu | hu
  · exact lt_irrefl _ (hsorted.2.2 _ hu _ (by simp))
  · exact lt_irrefl _ (hsorted.2.1.1 _ hu)

/-- `z` が `first_key` を持っていれば、最初の新しい leaf が `z` の slot を引き継ぐ。 -/
theorem takeover (h : Splitting f s A l z r B t rest slots) (hslots : slots = U ++ z.info :: V)
    (hkept : z.2.Stores z.firstKey)
    (hplaced : PlacedAll ((splitChain f s.leaves.length l z r).map Link.info) rets
      (U ++ lockSlot z.info :: V) slots₁) :
    ∃ y new rets', splitChain f s.leaves.length l z r = y :: new ∧ rets = 1 :: rets' ∧
      PlacedAll (new.map Link.info) rets' (U ++ y.info :: V) slots₁ := by
  obtain ⟨y, new, hnew, hykey⟩ :=
    h.wired.chain.firstKey_splitChain h.wired.rooted.bound h.segments h.small hkept
  have hsorted : (U ++ lockSlot z.info :: V).Pairwise fun a b => a.minKey < b.minKey := by
    have hupdated : Placed (lockSlot z.info) 1 slots (U ++ lockSlot z.info :: V) := by
      rw [hslots]
      exact .updated U z.info V rfl
    exact (hupdated.slotsOk h.wired.rooted.slotsOk
      (h.wired.chain.sound z (by simp)).first).sorted
  rw [hnew, List.map_cons] at hplaced
  obtain ⟨rets', hrets, hplaced'⟩ := hplaced.first_updated hsorted hykey.symm
  exact ⟨y, new, rets', hnew, hrets, hplaced'⟩

/-- 親 slot を引き継げば、どの slot も連鎖の leaf を指し、`leaf_number` は増えた leaf の数だけ増える。 -/
theorem live_announced (h : Splitting f s A l z r B t rest slots)
    (hslots : slots = U ++ z.info :: V) (hlive : Live (A ++ l :: z :: r :: B) slots)
    (hkept : z.2.Stores z.firstKey)
    (hplaced : PlacedAll ((splitChain f s.leaves.length l z r).map Link.info) rets
      (U ++ lockSlot z.info :: V) slots₁) (hreleased : Released slots₁ slots') :
    Live (spliced A l (splitChain f s.leaves.length l z r) r B) slots' ∧
      rets.countP (1 < ·) + 1 = (splitChain f s.leaves.length l z r).length := by
  obtain ⟨y, new, rets', hnew, hrets, hplaced'⟩ := h.takeover hslots hkept hplaced
  have hcases : ∀ u ∈ U ++ y.info :: V, u = y.info ∨ u ∈ U ∨ u ∈ V := by
    intro u hu
    simp only [List.mem_append, List.mem_cons] at hu
    tauto
  have hmem : ∀ u ∈ slots₁, ∃ x ∈ spliced A l (splitChain f s.leaves.length l z r) r B,
      u = x.info := by
    intro u hu
    rcases hplaced'.mem hu with hu | hu
    · obtain ⟨w, hw, rfl⟩ := List.mem_map.mp hu
      exact ⟨w, by simp [spliced, hnew, hw], rfl⟩
    · rcases hcases u hu with rfl | hu
      · exact ⟨y, by simp [spliced, hnew], rfl⟩
      · obtain ⟨x, hx, rfl, hxz⟩ := h.exists_other hslots hlive hu
        exact (info_mem_spliced _ hx).resolve_left hxz
  refine ⟨fun e he => ?_, ?_⟩
  · rcases hreleased.mem he with he | ⟨u, hu, rfl⟩
    · exact hmem e he
    · obtain ⟨x, hx, rfl⟩ := hmem u hu
      exact ⟨x, hx, rfl⟩
  · have hsorted := (h.wired.chain.freshChain h.wired.rooted.bound h.small).sorted
    rw [hnew] at hsorted
    obtain ⟨hyw, hnews⟩ := List.pairwise_cons.mp hsorted
    have hcount : rets'.countP (1 < ·) = (new.map Link.info).length := by
      refine hplaced'.countP_eq ?_ ?_
      · intro node hnode u hu
        obtain ⟨w, hw, rfl⟩ := List.mem_map.mp hnode
        rcases hcases u hu with rfl | hu
        · exact ne_of_lt (hyw w hw).first
        · obtain ⟨x, hx, rfl, hxz⟩ := h.exists_other hslots hlive hu
          exact h.ne_firstKey hx hxz (by rw [hnew]; simp [hw])
      · rw [List.pairwise_map]
        exact hnews.imp fun hb => ne_of_lt hb.first
    rw [hrets, List.countP_cons_of_neg (by simp), hcount, List.length_map, hnew, List.length_cons]

/-- 最初の新しい leaf の鍵が `first_key` と異なれば、元の親 slot が残り、新しい leaf は残らず数えられる。 -/
theorem leftover_announced (h : Splitting f s A l z r B t rest slots)
    (hslots : slots = U ++ z.info :: V) (hlive : Live (A ++ l :: z :: r :: B) slots)
    (hlost : ∀ w ∈ splitChain f s.leaves.length l z r, w.firstKey ≠ z.firstKey)
    (hplaced : PlacedAll ((splitChain f s.leaves.length l z r).map Link.info) rets
      (U ++ lockSlot z.info :: V) slots₁) (hreleased : Released slots₁ slots') :
    (∃ e ∈ slots', e.minKey = z.firstKey) ∧
      rets.countP (1 < ·) = (splitChain f s.leaves.length l z r).length := by
  constructor
  · obtain ⟨e, he, hkey⟩ := hplaced.exists_minKey (lockSlot z.info) (by simp)
    obtain ⟨e', he', hkey'⟩ := hreleased.exists_minKey he
    exact ⟨e', he', hkey'.trans hkey⟩
  · have hlen : ((splitChain f s.leaves.length l z r).map Link.info).length =
        (splitChain f s.leaves.length l z r).length := List.length_map ..
    rw [← hlen]
    refine hplaced.countP_eq ?_ ?_
    · intro node hnode u hu
      obtain ⟨w, hw, rfl⟩ := List.mem_map.mp hnode
      have hcases : u = lockSlot z.info ∨ u ∈ U ∨ u ∈ V := by
        simp only [List.mem_append, List.mem_cons] at hu
        tauto
      rcases hcases with rfl | hu
      · exact (hlost w hw).symm
      · obtain ⟨x, hx, rfl, hxz⟩ := h.exists_other hslots hlive hu
        exact h.ne_firstKey hx hxz hw
    · rw [List.pairwise_map]
      exact (h.wired.chain.freshChain h.wired.rooted.bound h.small).sorted.imp
        fun hb => ne_of_lt hb.first

end Child

/-- 親 slot の在る leaf の分割。 -/
theorem child (h : Splitting f s A l z r B t rest slots)
    (hmono : ∀ nd ∈ s.inners, nd.Nondecreasing s.minKey s.maxKey) {a : SlotAddr}
    (hent : s.Entered t slots z (some a))
    (hheap : s.leaves.length + (splitChain f s.leaves.length l z r).length < 2 ^ 32)
    (hplace : placeNodes ((s.onSlot lockSlot (some a)).withLeaves heap)
      ((splitChain f s.leaves.length l z r).map Link.info) (some a) = some s₂) :
    ∃ t' slots', (afterSplit f s s₂ l z r (some a)).Wired
        (spliced A l (splitChain f s.leaves.length l z r) r B) t' rest slots' ∧
      SameInners s.inners (afterSplit f s s₂ l z r (some a)).inners ∧
      (Live (A ++ l :: z :: r :: B) slots → z.2.Stores z.firstKey →
        Live (spliced A l (splitChain f s.leaves.length l z r) r B) slots' ∧
        (afterSplit f s s₂ l z r (some a)).leafNumber + 1 =
          s.leafNumber + (splitChain f s.leaves.length l z r).length) ∧
      (Live (A ++ l :: z :: r :: B) slots →
        (∀ w ∈ splitChain f s.leaves.length l z r, w.firstKey ≠ z.firstKey) →
        (∃ e ∈ slots', e.minKey = z.firstKey) ∧
        (afterSplit f s s₂ l z r (some a)).leafNumber =
          s.leafNumber + (splitChain f s.leaves.length l z r).length) := by
  obtain ⟨i, j, rfl, hi, hread⟩ := hent
  have hz := h.wired.chain.sound z (by simp)
  have hfree : z.info.isFree = false :=
    InnerNode.isFree_eq_false.mpr (ne_of_lt (lt_of_le_of_lt hz.first.2 h.wired.rooted.bound))
  have hnum := h.wired.number
  obtain ⟨U, V, rets, slots₁, slots', hslots, hann⟩ := h.wired.rooted.announce
    (h.wired.tame hmono) hi hread hfree h.within (by rw [List.length_map]; omega) hplace
  obtain ⟨t', hroot⟩ := hann.rooted
  have hnumber : (afterSplit f s s₂ l z r (some (.inner i j))).leafNumber =
      s.leafNumber + rets.countP (1 < ·) := hann.number
  have hcount : rets.countP (1 < ·) ≤ (splitChain f s.leaves.length l z r).length := by
    have := List.countP_le_length (p := fun n => decide (1 < n)) (l := rets)
    rwa [hann.placed.length, List.length_map] at this
  refine ⟨t', slots', h.wired_of_rooted hplace (hroot.congr rfl rfl rfl rfl) hann.inners
    (h.head_announced hslots hann.placed hann.released)
    (h.known_announced hslots hann.placed hann.released) (by omega), hann.inners, ?_, ?_⟩
  · intro hlive hkept
    obtain ⟨hlive', hcount'⟩ := h.live_announced hslots hlive hkept hann.placed hann.released
    exact ⟨hlive', by omega⟩
  · intro hlive hlost
    obtain ⟨hleft, hcount'⟩ := h.leftover_announced hslots hlive hlost hann.placed hann.released
    exact ⟨hleft, by omega⟩

end Splitting

/-! ### 作り直しと、分割の全体 -/

section Whole

variable {f : Fitter D} {z : Link D} {acc : Option SlotAddr}

/-- **作り直しは形を保ち、親 slot はどれも連鎖の leaf のものになる。** -/
theorem Wired.rebuildInnerNodes (h : s.Wired c t rest slots)
    (hmono : ∀ nd ∈ s'.inners, nd.Nondecreasing s'.minKey s'.maxKey)
    (hheap : s'.leaves.length < 2 ^ 32) (hs : s.rebuildInnerNodes f = .ok s') :
    ∃ t' rest' slots', s'.Wired c t' rest' slots' ∧ SameBounds s s' ∧ Live c slots' ∧
      s'.leafNumber = s.leafNumber := by
  obtain ⟨hleaves, hmin, hmax⟩ : s'.leaves = s.leaves ∧ s'.minKey = s.minKey ∧
      s'.maxKey = s.maxKey := by
    obtain ⟨_, _, _, rfl⟩ := rebuildInnerNodes_frame hs
    exact ⟨rfl, rfl, rfl⟩
  have hnum := h.number
  rw [hleaves] at hheap
  rw [hmin, hmax] at hmono
  obtain ⟨hle, ⟨inners, roots, parameter, rfl⟩, hfull, t', rest', hroot⟩ :=
    rebuildInnerNodes_spec h.rooted h.chain h.first hnum.1 (by omega) h.full hmono hs
  have hlive : Live c ((c.take s.leafNumber).map Link.info) := by
    intro e he
    obtain ⟨x, hx, rfl⟩ := List.mem_map.mp he
    exact ⟨x, List.mem_of_mem_take hx, rfl⟩
  refine ⟨t', rest', _, ⟨hroot, h.chain, ?_, h.table, hfull, fun e he => Or.inl (hlive e he), hnum⟩,
    ⟨rfl, rfl, rfl, rfl⟩, hlive, rfl⟩
  rw [show s.leafNumber = s.leafNumber - 1 + 1 by omega]
  cases c <;> rfl

omit [Arith D] in
theorem length_spliced (A : List (Link D)) (l : Link D) (new : List (Link D)) (r : Link D)
    (B : List (Link D)) : (spliced A l new r B).length = A.length + new.length + B.length + 2 := by
  unfold spliced
  simp only [List.length_append, List.length_cons]
  omega

/-- **分割は形を保つ。** 分割した leaf が `first_key` を持っていれば、親 slot はどれも連鎖の leaf のもので、
`leaf_number` は親 slot を通した分割で増えた leaf の数だけ増える。 -/
theorem Wired.split (h : s.Wired c t rest slots) (hz : z ∈ c) (hent : s.Entered t slots z acc)
    (hmono : ∀ nd ∈ s.inners, nd.Nondecreasing s.minKey s.maxKey)
    (hmono' : ∀ nd ∈ s'.inners, nd.Nondecreasing s'.minKey s'.maxKey)
    (hheap : s'.leaves.length < 2 ^ 32) (hs : s.split f z.1 acc = .ok s') :
    ∃ c' t' rest' slots', s'.Wired c' t' rest' slots' ∧ Resplit f s.leaves.length z c c' ∧
      SameBounds s s' ∧
      (Live c slots →
        (acc.isSome → z.2.prev ≠ none → z.2.next ≠ none → z.2.Stores z.firstKey) →
        Live c' slots' ∧ s'.leafNumber + (if acc.isSome then c.length else c'.length) =
          s.leafNumber + c'.length) := by
  obtain ⟨A, B, rfl⟩ := List.append_of_mem hz
  by_cases hedge : A = [] ∨ B = []
  · rw [split_edge h.chain hedge] at hs
    obtain rfl := Except.ok.inj hs
    exact ⟨_, t, rest, slots, h, .edge _, ⟨rfl, rfl, rfl, rfl⟩,
      fun hlive _ => ⟨hlive, by rw [ite_self]⟩⟩
  · rw [not_or] at hedge
    obtain ⟨r, B, rfl⟩ := List.exists_cons_of_ne_nil hedge.2
    obtain ⟨A, l, rfl⟩ : ∃ A' l, A = A' ++ [l] :=
      ⟨_, _, (List.dropLast_append_getLast hedge.1).symm⟩
    rw [← List.append_cons] at h hz ⊢
    obtain ⟨hne, hsmall, heap, s₂, hplace, hcases⟩ := split_middle h.chain hs
    have hsplit : Splitting f s A l z r B t rest slots := ⟨h, hne, hsmall⟩
    have hbounds : SameBounds s (afterSplit f s s₂ l z r acc) := sameBounds_afterSplit hplace
    obtain ⟨hprev, hnext⟩ := neighbors_ne_none h.chain
    have hlength := length_spliced A l (splitChain f s.leaves.length l z r) r B
    -- heap の長さは、分割の前後と作り直しの後で見比べられる
    have hheap' : s.leaves.length + (splitChain f s.leaves.length l z r).length < 2 ^ 32 := by
      have hlen : (afterSplit f s s₂ l z r acc).leaves.length =
        s.leaves.length + (splitChain f s.leaves.length l z r).length := length_splitHeap ..
      rw [← hlen]
      -- 作り直しがあれば、段は初めから作られる
      rcases hcases with rfl | hrebuild
      · exact hheap
      · obtain ⟨_, _, _, rfl⟩ := rebuildInnerNodes_frame hrebuild
        exact hheap
    obtain ⟨t', slots', hwired, hlive⟩ : ∃ t' slots', (afterSplit f s s₂ l z r acc).Wired
        (spliced A l (splitChain f s.leaves.length l z r) r B) t' rest slots' ∧
        (Live (A ++ l :: z :: r :: B) slots → (acc.isSome → z.2.Stores z.firstKey) →
          Live (spliced A l (splitChain f s.leaves.length l z r) r B) slots' ∧
          (afterSplit f s s₂ l z r acc).leafNumber + (if acc.isSome then
            (A ++ l :: z :: r :: B).length
              else (spliced A l (splitChain f s.leaves.length l z r) r B).length) =
            s.leafNumber + (spliced A l (splitChain f s.leaves.length l z r) r B).length) := by
      cases acc with
      | none =>
        obtain ⟨hwired, -, hnumber, hlive⟩ := hsplit.orphan hent hplace
        exact ⟨t, slots, hwired, fun h _ => ⟨hlive h, congrArg (· + _) hnumber⟩⟩
      | some a =>
        obtain ⟨t', slots', hwired, -, hlive, -⟩ := hsplit.child hmono hent hheap' hplace
        refine ⟨t', slots', hwired, fun h hkept => ⟨(hlive h (hkept rfl)).1, ?_⟩⟩
        have hnumber := (hlive h (hkept rfl)).2
        rw [hlength]
        simp only [Option.isSome_some, if_true, List.length_append, List.length_cons]
        omega
    rcases hcases with rfl | hrebuild
    · exact ⟨_, t', rest, slots', hwired, .middle A l r B hsmall, hbounds,
        fun h hkept => hlive h fun hacc => hkept hacc hprev hnext⟩
    · obtain ⟨t₁, rest₁, slots₁, hwired₁, hbounds₁, hlive₁, hnumber₁⟩ :=
        hwired.rebuildInnerNodes hmono' hheap hrebuild
      refine ⟨_, t₁, rest₁, slots₁, hwired₁, .middle A l r B hsmall,
        ⟨hbounds₁.min.trans hbounds.min, hbounds₁.max.trans hbounds.max,
          hbounds₁.left.trans hbounds.left, hbounds₁.right.trans hbounds.right⟩,
        fun h hkept => ⟨hlive₁, ?_⟩⟩
      rw [hnumber₁]
      exact (hlive h fun hacc => hkept hacc hprev hnext).2

end Whole

end PlinIndex

end Plin
