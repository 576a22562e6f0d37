import Plin.Common.Topology
import Plin.Properties.Cluster

/-!
# 行き先と読み込み

鍵の行き先は End の記録の `edge` で決まり、Edge の読み込む区間は Edge の記録の `ends` で決まる。
`load` は二つの記録を突き合わせないので、受け入れた file でも食い違うことがある
（`load_accepts_unowned`）。**どの End の番号も、行き先の Edge の `ends` に在れば、鍵の行き先の Edge は
その鍵の行を読み込んでいる**（`routing_loads`）。

区間が重ならなければ、`locate_end` は鍵の入る区間の End を返し、答えは file の中の End の順に依らない
（`locateEnd_exact`）。**NaN はどの区間にも入らないのに、整列した列の真ん中の End の番号が返る**
（`locateDouble_exact_iff`）。
-/

namespace Plin

open Infra

/-- 二分探索が返す番号は、鍵の入る区間の End のものである。 -/
theorem RangeMap.exists_of_locateLoop (ends : List EndInfo) (k : Key) :
    ∀ (fuel : Nat) (lo hi : Int), locateLoop ends k fuel lo hi = -1 ∨
      ∃ e ∈ ends, e.Contains k ∧ e.id = locateLoop ends k fuel lo hi := by
  intro fuel
  induction fuel with
  | zero => exact fun _ _ => Or.inl rfl
  | succ fuel ih =>
    intro lo hi
    rw [locateLoop]
    dsimp only
    split
    · split
      · exact Or.inl rfl
      · next e hget =>
        split
        · exact ih _ _
        · next hleft =>
          split
          · exact ih _ _
          · next hright =>
            exact Or.inr ⟨e, List.mem_of_getElem? hget, ⟨not_lt.mp hleft, not_lt.mp hright⟩, rfl⟩
    · exact Or.inl rfl

theorem RangeMap.exists_of_locateEnd {rm : RangeMap} {k : Key} (h : 0 ≤ rm.locateEnd k) :
    ∃ e ∈ rm.ends, e.Contains k ∧ e.id = rm.locateEnd k := by
  rcases exists_of_locateLoop rm.ends k (rm.ends.length + 1) 0 (rm.ends.length - 1) with hnone | he
  · rw [locateEnd, hnone] at h
    exact absurd h (by decide)
  · exact he

/-- `edge_server` の `main` が自分の記録を選ぶ。 -/
def RangeMap.myEdge (rm : RangeMap) (edgeId : Int) : Option EdgeInfo :=
  rm.edges.find? fun g => g.id = edgeId

/-- どの End の番号も、行き先の Edge の `ends` に在る。 -/
def RangeMap.Owned (rm : RangeMap) : Prop :=
  ∀ e ∈ rm.ends, 0 ≤ e.id → ∃ g, rm.myEdge (rm.edgeOf e.id) = some g ∧ e.id ∈ g.endIds

/-- **鍵の行き先の Edge は、その鍵の行を読み込んでいる。** -/
theorem routing_loads (t : Topology) (howned : t.rangeMap.Owned) (data : List (Key × Payload))
    (k : Key) (hk : 0 ≤ t.rangeMap.locateEnd k) :
    ∃ g, t.rangeMap.myEdge (t.rangeMap.edgeOf (t.rangeMap.locateEnd k)) = some g ∧
      (edgeRange t.rangeMap g).1 ≤ k ∧ k ≤ (edgeRange t.rangeMap g).2 ∧
      ∀ v, (k, v) ∈ data →
        (k, v) ∈ loadRange data (edgeRange t.rangeMap g).1 (edgeRange t.rangeMap g).2 := by
  obtain ⟨e, he, hcontains, hid⟩ := RangeMap.exists_of_locateEnd hk
  obtain ⟨g, hg, hlisted⟩ := howned e he (hid ▸ hk)
  obtain ⟨hlo, hhi⟩ := edgeRange_covers he hlisted
  have hwithin : (edgeRange t.rangeMap g).1 ≤ k ∧ k ≤ (edgeRange t.rangeMap g).2 :=
    ⟨hlo.trans hcontains.1, hcontains.2.trans hhi⟩
  refine ⟨g, hid ▸ hg, hwithin.1, hwithin.2, fun v hv => ?_⟩
  exact List.mem_filter.mpr ⟨hv, decide_eq_true hwithin⟩

/-! ## 区間を引く -/

/-- どの鍵も高々一つの区間に入り、区間は空でない。 -/
structure Topology.Disjoint (t : Topology) : Prop where
  inhabited : ∀ e ∈ t.ends, e.keyLo ≤ e.keyHi
  disjoint : t.ends.Pairwise fun a b => ∀ k, ¬ (a.Contains k ∧ b.Contains k)

variable {stod : Text → Option Key} {sorter : EndSorter} {port : Nat} {text : Text} {t : Topology}

/-- 読み込みの最後の整列。 -/
theorem Topology.sorted_of_load (h : Topology.load stod sorter port text = .ok t) :
    t.ends.Pairwise fun a b => a.keyLo ≤ b.keyLo := by
  unfold Topology.load at h
  split at h
  · cases h
  · dsimp only at h
    split at h
    · cases h
    · split at h
      · cases h
      · obtain rfl := Except.ok.inj h
        exact sorter.sorted _

/-- 重ならないことは、End の並べ方に依らない。 -/
theorem Topology.Disjoint.perm {t' : Topology} (h : t.Disjoint) (hperm : t'.ends.Perm t.ends) :
    t'.Disjoint where
  inhabited e he := h.inhabited e (hperm.mem_iff.mp he)
  disjoint := (hperm.pairwise_iff fun hab k hk => hab k hk.symm).mpr h.disjoint

theorem Topology.Disjoint.separated (h : t.Disjoint)
    (hload : Topology.load stod sorter port text = .ok t) : t.rangeMap.Separated := by
  constructor
  · exact List.pairwise_map.mpr (Topology.sorted_of_load hload)
  · intro e he
    obtain ⟨x, hx, rfl⟩ := List.mem_map.mp he
    exact h.inhabited x hx
  · exact List.pairwise_map.mpr h.disjoint

/--
**`locate_end` は、鍵の入るただ一つの区間の End の番号を返し、無ければ `-1` を返す。**

loop は必ず終わる。file の中の End の順は、答えを変えない。
-/
theorem locateEnd_exact {stod : Text → Option Key} {sorter : EndSorter} {port : Nat} {text : Text}
    {t : Topology} (hload : Topology.load stod sorter port text = .ok t) (h : t.Disjoint)
    (k : Key) :
    RangeMap.LocateRun t.rangeMap.ends k 0 (t.rangeMap.ends.length - 1) (t.rangeMap.locateEnd k) ∧
      (∀ e ∈ t.ends, e.Contains k → t.rangeMap.locateEnd k = e.id ∧
        ∀ e' ∈ t.ends, e'.Contains k → e'.toEndInfo = e.toEndInfo) ∧
      ((∀ e ∈ t.ends, ¬ e.Contains k) → t.rangeMap.locateEnd k = -1) ∧
      ∀ (stod' : Text → Option Key) (sorter' : EndSorter) (port' : Nat) (text' : Text)
        (t' : Topology), Topology.load stod' sorter' port' text' = .ok t' →
        t'.ends.Perm t.ends → t'.rangeMap.locateEnd k = t.rangeMap.locateEnd k := by
  have hsep := h.separated hload
  have hmem : ∀ {e : EndEntry}, e ∈ t.ends → e.toEndInfo ∈ t.rangeMap.ends :=
    fun he => List.mem_map_of_mem he
  have hnone : (∀ e ∈ t.ends, ¬ e.Contains k) → ∀ x ∈ t.rangeMap.ends, ¬ x.Contains k := by
    intro hk x hx
    obtain ⟨e, he, rfl⟩ := List.mem_map.mp hx
    exact hk e he
  refine ⟨t.rangeMap.locateEnd_run k, fun e he hk => ⟨?_, fun e' he' hk' => ?_⟩, fun hk => ?_, ?_⟩
  · exact RangeMap.locateEnd_eq hsep (hmem he) hk
  · exact hsep.eq_of_contains (hmem he') (hmem he) hk' hk
  · exact RangeMap.locateEnd_none hsep (hnone hk)
  · intro stod' sorter' port' text' t' hload' hperm
    have hsep' := (h.perm hperm).separated hload'
    by_cases hsome : ∃ e ∈ t.ends, e.Contains k
    · obtain ⟨e, he, hk⟩ := hsome
      rw [RangeMap.locateEnd_eq hsep (hmem he) hk]
      exact RangeMap.locateEnd_eq hsep' (List.mem_map_of_mem (hperm.mem_iff.mpr he)) hk
    · push Not at hsome
      rw [RangeMap.locateEnd_none hsep (hnone hsome)]
      refine RangeMap.locateEnd_none hsep' fun x hx => ?_
      obtain ⟨e, he, rfl⟩ := List.mem_map.mp hx
      exact hsome e (hperm.mem_iff.mp he)

/-- 区間の並びの真ん中の End。 -/
def RangeMap.middle (rm : RangeMap) : Option EndInfo := rm.ends[(rm.ends.length - 1) / 2]?

/-- 重ならない区間の列は、並べ方が一つしか無い。 -/
theorem RangeMap.Separated.ends_eq {rm rm' : RangeMap} (h : rm.Separated) (h' : rm'.Separated)
    (hperm : rm'.ends.Perm rm.ends) : rm'.ends = rm.ends := by
  have hlt : ∀ {m : RangeMap}, m.Separated → m.ends.Pairwise fun a b => a.keyLo < b.keyLo := by
    intro m hm
    refine hm.before.imp_of_mem fun ha _ hab => ?_
    exact lt_of_le_of_lt (hm.inhabited _ ha) hab
  refine hperm.eq_of_pairwise (fun a b _ _ hab hba => ?_) (hlt h') (hlt h)
  exact absurd (lt_trans hab hba) (lt_irrefl _)

/--
`locate_end` の約束。`k` の入る区間が在ればそのただ一つの End を、無ければ `-1` を返し、file の中の End の
順は答えを変えない。NaN の入る区間は無い。
-/
structure Topology.Locates (t : Topology) (k : Option Key) : Prop where
  run : ∀ key, k = some key → RangeMap.LocateRun t.rangeMap.ends key 0
    (t.rangeMap.ends.length - 1) (t.rangeMap.locateDouble k)
  found : ∀ e ∈ t.ends, ∀ key, k = some key → e.Contains key →
    t.rangeMap.locateDouble k = e.id ∧
      ∀ e' ∈ t.ends, e'.Contains key → e'.toEndInfo = e.toEndInfo
  outside : (∀ e ∈ t.ends, ∀ key, k = some key → ¬ e.Contains key) →
    t.rangeMap.locateDouble k = -1
  order : ∀ (stod' : Text → Option Key) (sorter' : EndSorter) (port' : Nat) (text' : Text)
    (t' : Topology), Topology.load stod' sorter' port' text' = .ok t' →
    t'.ends.Perm t.ends → t'.rangeMap.locateDouble k = t.rangeMap.locateDouble k

/-- 読み込んだ配置には End が在る。 -/
theorem Topology.ends_ne_nil_of_load (h : Topology.load stod sorter port text = .ok t) :
    t.ends ≠ [] := by
  unfold Topology.load at h
  split at h
  · cases h
  · dsimp only at h
    split at h
    · cases h
    · split at h
      · cases h
      · next hlists =>
        obtain rfl := Except.ok.inj h
        exact fun hnil => hlists (.inr ((sorter.perm _).symm.trans (hnil ▸ .refl _)).eq_nil)

/--
**`locate_end` が約束を守るのは、鍵が NaN でないとき、そしてそのときに限る**（整列した列の真ん中の End の番号が
`-1` でなければ）。
-/
theorem locateDouble_exact_iff {stod : Text → Option Key} {sorter : EndSorter} {port : Nat}
    {text : Text} {t : Topology} (hload : Topology.load stod sorter port text = .ok t)
    (h : t.Disjoint) (k : Option Key) :
    t.Locates k ↔ k ≠ none ∨ ∃ e, t.rangeMap.middle = some e ∧ e.id = -1 := by
  have hsep := h.separated hload
  cases k with
  | some key =>
    refine iff_of_true ?_ (.inl (by simp))
    obtain ⟨hrun, hfound, hnone, horder⟩ := locateEnd_exact hload h key
    exact {
      run := fun _ heq => Option.some.inj heq ▸ hrun
      found := fun e he _ heq hk => hfound e he (Option.some.inj heq ▸ hk) |>.imp_right
        fun hunique e' he' hk' => hunique e' he' (Option.some.inj heq ▸ hk')
      outside := fun hout => hnone fun e he => hout e he key rfl
      order := horder }
  | none =>
    obtain ⟨e, he⟩ : ∃ e, t.rangeMap.middle = some e := by
      have hpos := List.length_pos_iff.mpr (Topology.ends_ne_nil_of_load hload)
      have hlen : t.rangeMap.ends.length = t.ends.length := List.length_map _
      exact ⟨_, List.getElem?_eq_getElem (by omega)⟩
    have hdouble : t.rangeMap.locateDouble none = e.id := by
      show ((t.rangeMap.middle).map EndInfo.id).getD (-1) = e.id
      rw [he]
      rfl
    constructor
    · intro hloc
      refine .inr ⟨e, he, ?_⟩
      rw [← hdouble]
      exact hloc.outside fun _ _ _ hc => absurd hc (by simp)
    · rintro (hc | ⟨e', he', hid⟩)
      · exact absurd rfl hc
      · obtain rfl := Option.some.inj (he.symm.trans he')
        refine ⟨fun _ hc => absurd hc (by simp), fun _ _ _ hc => absurd hc (by simp),
          fun _ => hdouble.trans hid, ?_⟩
        intro stod' sorter' port' text' t' hload' hperm
        have hends := hsep.ends_eq (h.perm hperm |>.separated hload') (hperm.map _)
        show ((t'.rangeMap.middle).map EndInfo.id).getD (-1) = _
        rw [RangeMap.middle, hends]
        rfl

/-! ## file の例 -/

/-- 非負整数だけを読む `stod`。 -/
def natStod (s : Text) : Option Key := (Text.stoi s).map fun n => Key.ofNat n.toNat

/-- 安定な整列も `std::sort` のありうる結果である。 -/
def stableSorter : EndSorter where
  sort l := l.insertionSort fun a b => a.keyLo ≤ b.keyLo
  perm l := List.perm_insertionSort _ l
  sorted l := by
    have : IsTrans EndEntry fun a b => a.keyLo ≤ b.keyLo := ⟨fun _ _ _ => le_trans⟩
    have : Std.Total fun a b : EndEntry => a.keyLo ≤ b.keyLo := ⟨fun _ _ => le_total _ _⟩
    exact List.pairwise_insertionSort _ _

/-- 一つの Edge と一つの End の file。End の `edge` は `owner` である。 -/
def tinyTopologyText (owner : Nat) : Text :=
  ("cloud:\n  host: c\n  port: 7000\nedges:\n" ++
    "  - \x7b id: 1, host: a, port: 7101, ends: [1] \x7d\nends:\n" ++
    "  - \x7b id: 1, edge: ").toList ++ Nat.toDigits 10 owner ++
    ", host: b, port: 7201, key_range: [0, 5] \x7d\n".toList

/-- 読み込んだ配置。 -/
def tinyTopology (owner : Int) : Topology where
  cloud := ⟨['c'], 7000⟩
  edges := [{ id := 1, endIds := [1], host := ['a'], port := 7101 }]
  ends := [
    { id := 1, edgeId := owner, keyLo := Key.ofNat 0, keyHi := Key.ofNat 5, host := ['b']
      port := 7201 }]

/-- 二つの Edge と三つの End の file。End は鍵の順に並んでいない。 -/
def wideTopologyText : Text :=
  ("cloud:\n  host: c\n  port: 7000\nedges:\n" ++
    "  - \x7b id: 1, host: a, port: 7101, ends: [1, 2] \x7d\n" ++
    "  - \x7b id: 2, host: a, port: 7102, ends: [3] \x7d\nends:\n" ++
    "  - \x7b id: 3, edge: 2, host: b, port: 7203, key_range: [20, 29] \x7d\n" ++
    "  - \x7b id: 1, edge: 1, host: b, port: 7201, key_range: [0, 5] \x7d\n" ++
    "  - \x7b id: 2, edge: 1, host: b, port: 7202, key_range: [6, 15] \x7d\n").toList

/-- 読み込んだ配置。 -/
def wideTopology : Topology where
  cloud := ⟨['c'], 7000⟩
  edges := [
    { id := 1, endIds := [1, 2], host := ['a'], port := 7101 },
    { id := 2, endIds := [3], host := ['a'], port := 7102 }]
  ends := [
    { id := 1, edgeId := 1, keyLo := Key.ofNat 0, keyHi := Key.ofNat 5, host := ['b']
      port := 7201 },
    { id := 2, edgeId := 1, keyLo := Key.ofNat 6, keyHi := Key.ofNat 15, host := ['b']
      port := 7202 },
    { id := 3, edgeId := 2, keyLo := Key.ofNat 20, keyHi := Key.ofNat 29, host := ['b']
      port := 7203 }]

theorem load_wideTopologyText :
    Topology.load natStod stableSorter 0 wideTopologyText = .ok wideTopology := by
  unfold wideTopologyText
  rewrite [String.toList_append, String.toList_append, String.toList_append, String.toList_append,
    String.toList_append, String.toList_ofList, String.toList_ofList, String.toList_ofList,
    String.toList_ofList, String.toList_ofList, String.toList_ofList]
  decide +kernel

theorem disjoint_wideTopology : wideTopology.Disjoint where
  inhabited := by decide +kernel
  disjoint := by
    have hbefore : wideTopology.ends.Pairwise fun a b => a.keyHi < b.keyLo := by decide +kernel
    exact hbefore.imp fun h => EndInfo.not_contains_both h

/-- 二つ目の End の鍵 10 は、一つ目の Edge が読み込んでいる。 -/
theorem routing_loads_wide :
    Topology.load natStod stableSorter 0 wideTopologyText = .ok wideTopology ∧
      ∃ g, wideTopology.rangeMap.myEdge 1 = some g ∧
        (Key.ofNat 10, (7 : Payload)) ∈ loadRange
          [(Key.ofNat 3, 1), (Key.ofNat 10, 7), (Key.ofNat 25, 2)]
          (edgeRange wideTopology.rangeMap g).1 (edgeRange wideTopology.rangeMap g).2 := by
  refine ⟨load_wideTopologyText, ?_⟩
  have hcheck : ∀ e ∈ wideTopology.rangeMap.ends,
      (wideTopology.rangeMap.myEdge (wideTopology.rangeMap.edgeOf e.id)).any
        (fun g => decide (e.id ∈ g.endIds)) = true := by
    decide +kernel
  have howned : wideTopology.rangeMap.Owned := by
    intro e he _
    have hany := hcheck e he
    cases hg : wideTopology.rangeMap.myEdge (wideTopology.rangeMap.edgeOf e.id) with
    | none =>
      rw [hg] at hany
      cases hany
    | some g =>
      rw [hg] at hany
      exact ⟨g, rfl, of_decide_eq_true hany⟩
  have hlocate : wideTopology.rangeMap.locateEnd (Key.ofNat 10) = 2 := by decide +kernel
  have hedge : wideTopology.rangeMap.edgeOf 2 = 1 := by decide +kernel
  obtain ⟨g, hg, -, -, hrow⟩ := routing_loads wideTopology howned
    [(Key.ofNat 3, 1), (Key.ofNat 10, 7), (Key.ofNat 25, 2)] (Key.ofNat 10)
    (by rw [hlocate]; decide)
  rw [hlocate, hedge] at hg
  exact ⟨g, hg, hrow 7 (by simp)⟩

/-- 鍵 10 は二つ目の End に、区間の間の鍵 17 はどの End にも向かわない。 -/
theorem locateDouble_exact_iff_wide :
    Topology.load natStod stableSorter 0 wideTopologyText = .ok wideTopology ∧
      wideTopology.rangeMap.locateDouble (some (Key.ofNat 10)) = 2 ∧
      wideTopology.rangeMap.locateDouble (some (Key.ofNat 17)) = -1 := by
  have hkey : ∀ key, wideTopology.Locates (some key) := fun key =>
    (locateDouble_exact_iff load_wideTopologyText disjoint_wideTopology (some key)).mpr
      (.inl (by simp))
  refine ⟨load_wideTopologyText, ?_, ?_⟩
  · exact ((hkey (Key.ofNat 10)).found _ (List.mem_of_getElem? (i := 1) rfl) _ rfl
      (by decide +kernel)).1
  · refine (hkey (Key.ofNat 17)).outside fun e he key heq => ?_
    rw [← Option.some.inj heq]
    revert e
    decide +kernel

/-- NaN の入る区間は無いのに、真ん中の End の番号が返る。 -/
theorem locateDouble_nan :
    Topology.load natStod stableSorter 0 wideTopologyText = .ok wideTopology ∧
      wideTopology.Disjoint ∧ wideTopology.rangeMap.locateDouble none = 2 ∧
      ¬ wideTopology.Locates none := by
  have hnan : wideTopology.rangeMap.locateDouble none = 2 := by decide +kernel
  refine ⟨load_wideTopologyText, disjoint_wideTopology, hnan, fun hloc => ?_⟩
  have := hloc.outside fun _ _ _ hc => absurd hc (by simp)
  rw [hnan] at this
  exact absurd this (by decide)

/--
End の `edge` が無い Edge を指していても、`load` は受け入れる。NaN はどの区間にも入らないのに End 1 に向かう。
-/
theorem load_accepts_unowned :
    Topology.load natStod stableSorter 0 (tinyTopologyText 2) = .ok (tinyTopology 2) ∧
      (tinyTopology 2).rangeMap.locateEnd (Key.ofNat 3) = 1 ∧
      (tinyTopology 2).rangeMap.myEdge ((tinyTopology 2).rangeMap.edgeOf 1) = none ∧
      (tinyTopology 2).rangeMap.locateDouble none = 1 := by
  unfold tinyTopologyText
  rewrite [String.toList_append, String.toList_append, String.toList_ofList, String.toList_ofList,
    String.toList_ofList, String.toList_ofList]
  decide +kernel

end Plin
