import Plin.Properties.InnerCapacity

/-!
# 一番下の段の inner node

leaf を子に持つ inner node を、構築してから `upsert_node` を何度呼んでも、

- 子は鍵の狭義の昇順に並び、予測された block の先頭から子の場所までは埋まっている
- `find_leaf_node` は鍵以下の最後の子を返す
- 次の `upsert_node` は slot の列の外を読まず、鍵の同じ子を置き換えるか、一つ足すか、何もしない

（`innerNode_search_exact`）。仮定は、予測器が単調で値が `block_number - 2` を超えないことだけである。
-/

namespace Plin

open Infra

/-- 番兵より小さい鍵には最大のものが在る。 -/
theorem exists_below_freeFlag : ∃ hi : Key, hi < freeFlag ∧ ∀ k : Key, k < freeFlag → k ≤ hi := by
  have hord : freeFlag.ord = 0x7FEFFFFFFFFFFFFF := by decide +kernel
  have hinf : infOrd = 0x7FF0000000000000 := rfl
  have hhi : (Key.ofOrd (freeFlag.ord - 1)).ord = freeFlag.ord - 1 :=
    Key.ord_ofOrd (by rw [hord, hinf]; decide) (by rw [hord, hinf]; decide)
  refine ⟨Key.ofOrd (freeFlag.ord - 1), ?_, fun k hk => ?_⟩
  · rw [Key.lt_def, hhi]
    omega
  · rw [Key.lt_def] at hk
    rw [Key.le_def, hhi]
    omega

namespace InnerNode

variable {D : Type} [Arith D]

/-- 予測器は単調で、値は `block_number - 2` を超えない。 -/
structure MonotoneModel (nd : InnerNode D) : Prop where
  mono : ∀ a b, nd.firstKey ≤ a → a ≤ b → b < freeFlag →
    predictBlock a nd.slope nd.intercept nd.blockNumber ≤
      predictBlock b nd.slope nd.intercept nd.blockNumber
  range : ∀ k, nd.firstKey ≤ k → k < freeFlag →
    predictBlock k nd.slope nd.intercept nd.blockNumber + 2 ≤ nd.blockNumber

/-- `first` から後ろの鍵を持つ、leaf の slot。 -/
structure LeafSlotFrom (first : Key) (node : InnerSlot D) : Prop where
  lower : first ≤ node.minKey
  upper : node.minKey < freeFlag
  leaf : node.type = false

/-- `upsert_node` を続けて呼んで着く heap。 -/
inductive UpsertRun (this : InnerId) (a : InnerSlot D) (first : Key)
    (inners : List (InnerNode D)) : List (InnerNode D) → Prop
  | refl : UpsertRun this a first inners inners
  | step {mid last : List (InnerNode D)} {node : InnerSlot D} {fuel ret : Nat}
      (h : UpsertRun this a first inners mid) (hnode : LeafSlotFrom first node)
      (hup : upsertNode node (fuel + 1) mid this a = some (ret, last)) :
      UpsertRun this a first inners last

/-- 着いた heap の node について言えること。 -/
structure SearchExact (this : InnerId) (a : InnerSlot D) (first : Key)
    (inners : List (InnerNode D)) (nd : InnerNode D) : Prop where
  stored : inners[this]? = some nd
  sorted : nd.entries.Pairwise fun s t => s.minKey < t.minKey
  contiguous : ∀ i s, nd.slots[i]? = some s → s.isFree = false →
    nd.startSlot s.minKey ≤ i ∧ ∀ j, nd.startSlot s.minKey ≤ j → j ≤ i → OccupiedAt nd.slots j
  find : ∀ fuel key, first ≤ key → key < freeFlag → ∃ slot e,
    findLeafNode inners key (fuel + 1) this a = some (this, slot) ∧ nd.slots[slot]? = some e ∧
      e ∈ nd.entries ∧ e.minKey ≤ key ∧ ∀ u ∈ nd.entries, u.minKey ≤ key → u.minKey ≤ e.minKey
  upsert : ∀ fuel node, LeafSlotFrom first node → ∃ A e B r,
    nd.entries = A ++ e :: B ∧
      upsertNode node (fuel + 1) inners this a = some (r.1, inners.set this r.2) ∧
      UpsertOutcome nd node e A B r

/-! ## 一歩で保たれること -/

variable {nd : InnerNode D} {this : InnerId} {a : InnerSlot D} {first hi : Key}
  {inners : List (InnerNode D)}

/-- `upsert_node` の間、node が保つ性質。 -/
structure Searchable (first hi : Key) (nd : InnerNode D) : Prop where
  packed : nd.Packed
  tame : nd.Tame (Set.Icc first hi)
  room : ∀ k, first ≤ k → k ≤ hi → nd.startSlot k < nd.slots.length
  within : nd.Within (Set.Icc first hi)
  head : ∃ e ∈ nd.entries, e.minKey = first
  leaf : ∀ e ∈ nd.entries, e.type = false

namespace Searchable

/-- 鍵以下の最後の子で slot の列を切る。 -/
theorem exists_cut (h : nd.Searchable first hi) {key : Key} (hlo : first ≤ key) :
    ∃ A e B, IsPred InnerSlot.minKey key nd.slots A e B := by
  obtain ⟨e, he, hmin⟩ := h.head
  exact exists_isPred ⟨e, (mem_occupied.mp he).1, by rw [hmin]; exact hlo⟩

omit [Arith D] in
theorem entries_cut {key : Key} (hk : key < freeFlag) {A B : List (InnerSlot D)} {e : InnerSlot D}
    (hp : IsPred InnerSlot.minKey key nd.slots A e B) :
    nd.entries = occupied A ++ e :: occupied B :=
  (isPred_occupied hk hp).eq

theorem search (h : nd.Searchable first hi) (hfree : hi < freeFlag) {key : Key} (hlo : first ≤ key)
    (hhi : key ≤ hi) (ha : a.Models nd) {A B : List (InnerSlot D)} {e : InnerSlot D}
    (hp : IsPred InnerSlot.minKey key nd.slots A e B) : nd.search key a = some A.length :=
  search_eq h.packed h.tame h.within (lt_of_le_of_lt hhi hfree) ⟨hlo, hhi⟩ (h.room key hlo hhi) hp
    ha

/-- `find_leaf_node` は鍵以下の最後の子を返す。 -/
theorem findLeafNode_eq (h : nd.Searchable first hi) (hfree : hi < freeFlag)
    (hthis : inners[this]? = some nd) (ha : a.Models nd) {key : Key} (hlo : first ≤ key)
    (hhi : key ≤ hi) (fuel : Nat) {A B : List (InnerSlot D)} {e : InnerSlot D}
    (hp : IsPred InnerSlot.minKey key nd.slots A e B) :
    findLeafNode inners key (fuel + 1) this a = some (this, A.length) := by
  have hk : key < freeFlag := lt_of_le_of_lt hhi hfree
  have he : e ∈ nd.entries := by
    rw [entries_cut hk hp]
    simp
  have hget : nd.slots[A.length]? = some e := by
    rw [hp.eq]
    simp
  rw [findLeafNode]
  simp only [Option.bind_eq_bind]
  rw [hthis, Option.bind_some, h.search hfree hlo hhi ha hp, Option.bind_some, hget,
    Option.bind_some, h.leaf e he]
  rfl

/-- `upsert_node` は三通りのどれかで、性質を保つ。 -/
theorem upsertNode_eq (h : nd.Searchable first hi) (hfree : hi < freeFlag)
    (hbelow : ∀ k : Key, k < freeFlag → k ≤ hi) (hthis : inners[this]? = some nd)
    (ha : a.Models nd) {node : InnerSlot D} (hnode : LeafSlotFrom first node) (fuel : Nat) :
    ∃ A e B r, nd.entries = A ++ e :: B ∧
      upsertNode node (fuel + 1) inners this a = some (r.1, inners.set this r.2) ∧
      UpsertOutcome nd node e A B r ∧ r.2.Searchable first hi ∧ a.Models r.2 := by
  have hhi := hbelow _ hnode.upper
  obtain ⟨A, e, B, hp⟩ := h.exists_cut hnode.lower
  have hcut := entries_cut hnode.upper hp
  have he : e ∈ nd.entries := by
    rw [hcut]
    simp
  have hget : nd.slots[A.length]? = some e := by
    rw [hp.eq]
    simp
  obtain ⟨r, hres, hpacked, hlength, hout⟩ := upsertHere_spec h.packed h.tame h.within hnode.upper
    ⟨hnode.lower, hhi⟩ (h.room _ hnode.lower hhi) hp ha
  have hup : upsertNode node (fuel + 1) inners this a = some (r.1, inners.set this r.2) := by
    rw [upsertNode]
    simp only [Option.bind_eq_bind]
    rw [hthis, Option.bind_some, h.search hfree hnode.lower hhi ha hp, Option.bind_some, hget,
      Option.bind_some, h.leaf e he, if_neg (by decide), hres, Option.bind_some]
  -- 子の列に入るのは、元の子か `node` だけである
  have hmem : ∀ u ∈ r.2.entries, u = node ∨ u ∈ nd.entries := by
    intro u hu
    rw [hcut]
    cases hout with
    | updated slots hkey hentries =>
      have hu' : u ∈ occupied A ++ node :: occupied B := hentries ▸ hu
      simp only [List.mem_append, List.mem_cons] at hu' ⊢
      tauto
    | inserted slots hkey hentries =>
      have hu' : u ∈ occupied A ++ e :: node :: occupied B := hentries ▸ hu
      simp only [List.mem_append, List.mem_cons] at hu' ⊢
      tauto
    | failed hkey =>
      rw [hcut] at hu
      exact Or.inr hu
  have hhead : ∃ u ∈ r.2.entries, u.minKey = first := by
    obtain ⟨u, hu, hmin⟩ := h.head
    rw [hcut] at hu
    cases hout with
    | updated slots hkey hentries =>
      show ∃ u ∈ occupied slots, u.minKey = first
      rw [hentries]
      simp only [List.mem_append, List.mem_cons] at hu ⊢
      rcases hu with hu | rfl | hu
      · exact ⟨u, Or.inl hu, hmin⟩
      · exact ⟨node, Or.inr (Or.inl rfl), hkey.symm.trans hmin⟩
      · exact ⟨u, Or.inr (Or.inr hu), hmin⟩
    | inserted slots hkey hentries =>
      show ∃ u ∈ occupied slots, u.minKey = first
      rw [hentries]
      simp only [List.mem_append, List.mem_cons] at hu ⊢
      exact ⟨u, by tauto, hmin⟩
    | failed hkey => exact ⟨u, by rw [hcut]; exact hu, hmin⟩
  have hheader : r.2 = { nd with slots := r.2.slots } := by
    cases hout <;> rfl
  refine ⟨occupied A, e, occupied B, r, hcut, hup, hout, ⟨hpacked, ?_, ?_, ?_, hhead, ?_⟩, ?_⟩
  · rw [hheader]
    exact h.tame.withSlots hlength
  · intro k hlo' hhi'
    have hroom := h.room k hlo' hhi'
    rw [hlength]
    rw [hheader]
    exact hroom
  · intro u hu
    rcases hmem u hu with rfl | hu
    · exact ⟨hnode.lower, hhi⟩
    · exact h.within u hu
  · intro u hu
    rcases hmem u hu with rfl | hu
    · exact hnode.leaf
    · exact h.leaf u hu
  · rw [hheader]
    exact ⟨ha.slope, ha.intercept, ha.blockNumber⟩

/-- 着いた heap で言えることは、性質から出る。 -/
theorem exact (h : nd.Searchable first hi) (hfree : hi < freeFlag)
    (hbelow : ∀ k : Key, k < freeFlag → k ≤ hi) (hthis : inners[this]? = some nd)
    (ha : a.Models nd) : SearchExact this a first inners nd where
  stored := hthis
  sorted := h.packed.sorted_entries
  contiguous := fun i s hs hsf => (h.packed.packed i s hs hsf).2
  find := by
    intro fuel key hlo hk
    obtain ⟨A, e, B, hp⟩ := h.exists_cut hlo
    have hcut := entries_cut hk hp
    refine ⟨A.length, e, h.findLeafNode_eq hfree hthis ha hlo (hbelow key hk) fuel hp, ?_, ?_,
      hp.le, fun u hu hle => ?_⟩
    · rw [hp.eq]
      simp
    · rw [hcut]
      simp
    · have hsorted := h.packed.sorted_entries
      rw [hcut, List.pairwise_append] at hsorted
      rw [hcut, List.mem_append, List.mem_cons] at hu
      rcases hu with hu | rfl | hu
      · exact le_of_lt (hsorted.2.2 u hu e (by simp))
      · exact le_refl _
      · exact absurd hle (not_le_of_gt ((isPred_occupied hk hp).gt u hu))
  upsert := by
    intro fuel node hnode
    obtain ⟨A, e, B, r, hcut, hup, hout, -, -⟩ :=
      h.upsertNode_eq hfree hbelow hthis ha hnode fuel
    exact ⟨A, e, B, r, hcut, hup, hout⟩

/-- 何度 `upsert_node` を呼んでも、性質は保たれる。 -/
theorem run (h : nd.Searchable first hi) (hfree : hi < freeFlag)
    (hbelow : ∀ k : Key, k < freeFlag → k ≤ hi) (hthis : inners[this]? = some nd)
    (ha : a.Models nd) {last : List (InnerNode D)} (hrun : UpsertRun this a first inners last) :
    ∃ nd', last[this]? = some nd' ∧ nd'.Searchable first hi ∧ a.Models nd' := by
  induction hrun with
  | refl => exact ⟨nd, hthis, h, ha⟩
  | step _ hnode hup ih =>
    obtain ⟨nd', hthis', h', ha'⟩ := ih
    obtain ⟨A, e, B, r, -, hup', -, hr, har⟩ :=
      h'.upsertNode_eq hfree hbelow hthis' ha' hnode _
    obtain ⟨rfl, rfl⟩ := Prod.mk.inj (Option.some.inj (hup.symm.trans hup'))
    refine ⟨r.2, ?_, hr, har⟩
    rw [List.getElem?_set_self (List.getElem?_eq_some_iff.mp hthis').1]

end Searchable

/-! ## 構築した node -/

theorem MonotoneModel.tame (h : nd.MonotoneModel) (hfree : hi < freeFlag) :
    nd.Tame (Set.Icc nd.firstKey hi) where
  mono := fun a ha b hb hab => h.mono a b ha.1 hab (lt_of_le_of_lt hb.2 hfree)
  inside := by
    intro k hk _
    have := h.range k hk.1 (lt_of_le_of_lt hk.2 hfree)
    omega

/-- 構築したばかりの node は性質を満たす。 -/
theorem searchable_new {bn startPos : Nat} {data : List (Key × InnerSlot D)} {slope intercept : D}
    (hnew : new bn data startPos slope intercept = some nd) (hne : data ≠ [])
    (hsorted : (data.map Prod.fst).Pairwise (· < ·))
    (hdata : ∀ e ∈ data, e.1 < freeFlag ∧ e.2.minKey = e.1 ∧ e.2.type = false)
    (hmono : nd.MonotoneModel) (hfree : hi < freeFlag)
    (hbelow : ∀ k : Key, k < freeFlag → k ≤ hi) :
    nd.Searchable nd.firstKey hi ∧ nd.entries = data.map Prod.snd := by
  have htame := hmono.tame hfree
  obtain ⟨d, rest, rfl⟩ := List.exists_cons_of_ne_nil hne
  have hfirst : nd.firstKey = d.1 := by
    obtain ⟨nd', hplace, hcheck⟩ := Option.bind_eq_some_iff.mp hnew
    split at hcheck
    · obtain rfl := Option.some.inj hcheck
      rw [(placeAll_header hplace).1]
      rfl
    · cases hcheck
  have hle : ∀ e ∈ d :: rest, d.1 ≤ e.1 := by
    intro e he
    rcases List.mem_cons.mp he with rfl | he
    · exact le_refl _
    · exact le_of_lt ((List.pairwise_cons.mp hsorted).1 e.1 (List.mem_map_of_mem he))
  have hd : SortedData (Set.Icc nd.firstKey hi) (d :: rest) := by
    refine ⟨hsorted, fun e he => ?_⟩
    rw [hfirst]
    exact ⟨⟨hle e he, hbelow _ (hdata e he).1⟩, (hdata e he).1, (hdata e he).2.1⟩
  obtain ⟨hpacked, hentries, -⟩ := new_spec hnew htame hd
  refine ⟨⟨hpacked, htame, fun k hlo hhi => ?_, ?_, ?_, ?_⟩, hentries⟩
  · have hin := hmono.range k hlo (lt_of_le_of_lt hhi hfree)
    have hlen := hpacked.length
    unfold startSlot predictSlot
    unfold innerSlotsPerBlock at hlen ⊢
    omega
  · intro s hs
    rw [hentries] at hs
    obtain ⟨e, he, rfl⟩ := List.mem_map.mp hs
    rw [(hdata e he).2.1, hfirst]
    exact ⟨hle e he, hbelow _ (hdata e he).1⟩
  · refine ⟨d.2, by rw [hentries]; simp, ?_⟩
    rw [(hdata d (by simp)).2.1, hfirst]
  · intro s hs
    rw [hentries] at hs
    obtain ⟨e, he, rfl⟩ := List.mem_map.mp hs
    exact (hdata e he).2.2

end InnerNode

open InnerNode in
/-- **構築してから `upsert_node` を何度呼んでも、inner node の探索は直前の子を正しく選ぶ。** -/
theorem innerNode_search_exact {D : Type} [Arith D] {nd : InnerNode D} {bn startPos : Nat}
    {data : List (Key × InnerSlot D)} {slope intercept : D}
    (hnew : InnerNode.new bn data startPos slope intercept = some nd) (hne : data ≠ [])
    (hsorted : (data.map Prod.fst).Pairwise (· < ·))
    (hdata : ∀ e ∈ data, e.1 < freeFlag ∧ e.2.minKey = e.1 ∧ e.2.type = false)
    (hmono : nd.MonotoneModel) {this : InnerId} {inners : List (InnerNode D)}
    (hthis : inners[this]? = some nd) {a : InnerSlot D} (ha : a.Models nd)
    {last : List (InnerNode D)} (hrun : UpsertRun this a nd.firstKey inners last) :
    nd.entries = data.map Prod.snd ∧ ∃ nd', SearchExact this a nd.firstKey last nd' := by
  obtain ⟨hi, hfree, hbelow⟩ := exists_below_freeFlag
  obtain ⟨hstart, hentries⟩ := searchable_new hnew hne hsorted hdata hmono hfree hbelow
  obtain ⟨nd', hthis', h', ha'⟩ := hstart.run hfree hbelow hthis ha hrun
  exact ⟨hentries, nd', h'.exact hfree hbelow hthis' ha'⟩

/-- 鍵 `k` の leaf を指す slot。 -/
def leafSlotAt (k : Key) : InnerSlot ℚ :=
  { minKey := k, ptr := 0, slope := 0, intercept := 0, blockNumber := 3, type := false
    readLock := false, writeLock := false }

/-- 三つの子。鍵の間隔は揃っていない。 -/
def threeSlots : List (Key × InnerSlot ℚ) :=
  [1, 10, 100].map fun n => (Key.ofNat n, leafSlotAt (Key.ofNat n))

theorem exists_threeNode : ∃ nd : InnerNode ℚ, InnerNode.new 5 threeSlots 0 0 0 = some nd ∧
    0 < nd.slope ∧ nd.blockNumber = 5 ∧ nd.firstKey = Key.ofNat 1 := by
  have h : (InnerNode.new 5 threeSlots 0 0 0).map (fun nd : InnerNode ℚ =>
      (decide (0 < nd.slope), nd.blockNumber, nd.firstKey)) = some (true, 5, Key.ofNat 1) := by
    decide +kernel
  obtain ⟨nd, hnew, heq⟩ := Option.map_eq_some_iff.mp h
  simp only [Prod.mk.injEq, decide_eq_true_iff] at heq
  exact ⟨nd, hnew, heq⟩

/-- 丸めが無く傾きが負でなければ、予測器は単調である。 -/
theorem InnerNode.monotoneModel {nd : InnerNode ℚ} (hslope : 0 ≤ nd.slope)
    (h4 : 4 ≤ nd.blockNumber) (h32 : nd.blockNumber < 2 ^ 32) : nd.MonotoneModel := by
  refine ⟨fun a b _ hab _ => predictBlock_mono hslope h4 h32 hab, fun k _ _ => ?_⟩
  have := predictBlock_lt_pred k nd.slope nd.intercept h4 h32
  omega

/-- 三つの子の node に、鍵 50 の子と鍵 120 の子を続けて足す。 -/
theorem innerNode_search_exact_insert : ∃ (nd : InnerNode ℚ) (last : List (InnerNode ℚ)),
    InnerNode.UpsertRun 0 (nd.accelerator 0) (Key.ofNat 1) [nd] last ∧
      nd.entries = threeSlots.map Prod.snd ∧
      ∃ nd', InnerNode.SearchExact 0 (nd.accelerator 0) (Key.ofNat 1) last nd' := by
  obtain ⟨nd, hnew, hslope, hbn, hfirst⟩ := exists_threeNode
  have hmono : nd.MonotoneModel :=
    InnerNode.monotoneModel hslope.le (by rw [hbn]; decide) (by rw [hbn]; decide)
  have hdata : ∀ e ∈ threeSlots, e.1 < freeFlag ∧ e.2.minKey = e.1 ∧ e.2.type = false := by
    decide +kernel
  have hsorted : (threeSlots.map Prod.fst).Pairwise (· < ·) := by decide +kernel
  have hne : threeSlots ≠ [] := by decide
  have hfifty : InnerNode.LeafSlotFrom nd.firstKey (leafSlotAt (Key.ofNat 50)) := by
    rw [hfirst]
    exact ⟨by decide +kernel, by decide +kernel, rfl⟩
  have hbeyond : InnerNode.LeafSlotFrom nd.firstKey (leafSlotAt (Key.ofNat 120)) := by
    rw [hfirst]
    exact ⟨by decide +kernel, by decide +kernel, rfl⟩
  have hstored : [nd][0]? = some nd := rfl
  have hmodels : (nd.accelerator 0).Models nd := ⟨rfl, rfl, rfl⟩
  obtain ⟨-, nd₀, h₀⟩ := innerNode_search_exact hnew hne hsorted hdata hmono hstored hmodels .refl
  obtain ⟨A, e, B, r, -, hup, -⟩ := h₀.upsert 0 _ hfifty
  have hrun₁ : InnerNode.UpsertRun 0 (nd.accelerator 0) nd.firstKey [nd] _ :=
    .step .refl hfifty hup
  obtain ⟨-, nd₁, h₁⟩ := innerNode_search_exact hnew hne hsorted hdata hmono hstored hmodels hrun₁
  obtain ⟨A', e', B', r', -, hup', -⟩ := h₁.upsert 0 _ hbeyond
  have hrun₂ : InnerNode.UpsertRun 0 (nd.accelerator 0) nd.firstKey [nd] _ :=
    .step hrun₁ hbeyond hup'
  obtain ⟨hentries, hexact⟩ :=
    innerNode_search_exact hnew hne hsorted hdata hmono hstored hmodels hrun₂
  rw [hfirst] at hexact hrun₂
  exact ⟨nd, _, hrun₂, hentries, hexact⟩

end Plin
