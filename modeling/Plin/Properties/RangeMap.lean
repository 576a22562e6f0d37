import Mathlib.Data.List.Nodup
import Plin.Common.RangeMap

/-!
# 配置は鍵の持ち主を定める

End の区間が重ならなければ、二分探索の `locate_end` は鍵の入る区間の End を返す
（`RangeMap.locateEnd_eq`）。鍵の入る区間が無ければ `-1` を返す（`RangeMap.locateEnd_none`）。
-/

namespace Plin

/-- 手前で終わる区間と後ろから始まる区間は、同じ鍵を含まない。 -/
theorem EndInfo.not_contains_both {a b : EndInfo} (h : a.keyHi < b.keyLo) (k : Key) :
    ¬ (a.Contains k ∧ b.Contains k) := fun hk =>
  absurd (le_trans hk.2.1 hk.1.2) (not_le_of_gt h)

namespace RangeMap

/--
正しい配置。

End は `key_lo` の順に並び（`load` の最後の整列）、区間は空でなく、重ならない。番号は正で、重ならない
（`end_node` と `edge_server` は 0 以下の番号では起動しない）。Edge の `end_ids` は、その Edge に属する
End の番号の全部である。
-/
structure WellFormed (rm : RangeMap) : Prop where
  sorted : rm.ends.Pairwise fun a b => a.keyLo ≤ b.keyLo
  inhabited : ∀ e ∈ rm.ends, e.keyLo ≤ e.keyHi
  disjoint : rm.ends.Pairwise fun a b => ∀ k, ¬ (a.Contains k ∧ b.Contains k)
  ids : (rm.ends.map EndInfo.id).Nodup
  edgeIds : (rm.edges.map EdgeInfo.id).Nodup
  positive : ∀ e ∈ rm.ends, 0 < e.id ∧ 0 < e.edgeId
  consistent : ∀ g ∈ rm.edges, ∀ e ∈ rm.ends, e.id ∈ g.endIds ↔ e.edgeId = g.id
  known : ∀ e ∈ rm.ends, ∃ g ∈ rm.edges, g.id = e.edgeId

/-- `key_lo` の順に並んだ、空でなく重ならない区間。 -/
structure Separated (rm : RangeMap) : Prop where
  sorted : rm.ends.Pairwise fun a b => a.keyLo ≤ b.keyLo
  inhabited : ∀ e ∈ rm.ends, e.keyLo ≤ e.keyHi
  disjoint : rm.ends.Pairwise fun a b => ∀ k, ¬ (a.Contains k ∧ b.Contains k)

namespace Separated

variable {rm : RangeMap} {k : Key}

/-- 前の区間は後の区間より手前で終わる。 -/
theorem before (h : rm.Separated) : rm.ends.Pairwise fun a b => a.keyHi < b.keyLo := by
  rw [List.pairwise_iff_getElem]
  intro i j hi hj hij
  have hle := List.pairwise_iff_getElem.mp h.sorted i j hi hj hij
  have hdis := List.pairwise_iff_getElem.mp h.disjoint i j hi hj hij
  by_contra hc
  exact hdis rm.ends[j].keyLo ⟨⟨hle, not_lt.mp hc⟩, le_rfl, h.inhabited _ (List.getElem_mem hj)⟩

/-- 添字の順と区間の順は一致する。 -/
theorem keyHi_lt (h : rm.Separated) {i j : Nat} {a b : EndInfo} (ha : rm.ends[i]? = some a)
    (hb : rm.ends[j]? = some b) (hij : i < j) : a.keyHi < b.keyLo := by
  obtain ⟨hi, rfl⟩ := List.getElem?_eq_some_iff.mp ha
  obtain ⟨hj, rfl⟩ := List.getElem?_eq_some_iff.mp hb
  exact List.pairwise_iff_getElem.mp h.before i j hi hj hij

/-- 鍵の入る区間は一つである。 -/
theorem index_unique (h : rm.Separated) {i j : Nat} {a b : EndInfo} (ha : rm.ends[i]? = some a)
    (hb : rm.ends[j]? = some b) (hka : a.Contains k) (hkb : b.Contains k) : i = j := by
  rcases lt_trichotomy i j with hij | rfl | hij
  · exact absurd (h.keyHi_lt ha hb hij) (not_lt_of_ge (le_trans hkb.1 hka.2))
  · rfl
  · exact absurd (h.keyHi_lt hb ha hij) (not_lt_of_ge (le_trans hka.1 hkb.2))

/-- 同じ鍵の入る二つの End は同じ End である。 -/
theorem eq_of_contains (h : rm.Separated) {a b : EndInfo} (ha : a ∈ rm.ends) (hb : b ∈ rm.ends)
    (hka : a.Contains k) (hkb : b.Contains k) : a = b := by
  obtain ⟨i, hi⟩ := List.mem_iff_getElem?.mp ha
  obtain ⟨j, hj⟩ := List.mem_iff_getElem?.mp hb
  obtain rfl := h.index_unique hi hj hka hkb
  exact Option.some.inj (hi.symm.trans hj)

end Separated

namespace WellFormed

variable {rm : RangeMap} {k : Key}

theorem separated (h : rm.WellFormed) : rm.Separated := ⟨h.sorted, h.inhabited, h.disjoint⟩

/-- 同じ番号の二つの End は同じ End である。 -/
theorem eq_of_id (h : rm.WellFormed) {a b : EndInfo} (ha : a ∈ rm.ends) (hb : b ∈ rm.ends)
    (hid : a.id = b.id) : a = b :=
  List.inj_on_of_nodup_map h.ids ha hb hid

end WellFormed

/-! ## 二分探索 -/

variable {rm : RangeMap} {k : Key}

/-- 鍵の入る区間の添字は、探している範囲にある。 -/
def Window (rm : RangeMap) (k : Key) (lo hi : Int) : Prop :=
  ∀ (i : Nat) (e : EndInfo), rm.ends[i]? = some e → e.Contains k → lo ≤ i ∧ (i : Int) ≤ hi

/-- 探している範囲は、一回ごとに鍵の入る区間を残して縮む。 -/
theorem locateLoop_spec (h : rm.Separated) :
    ∀ (fuel : Nat) {lo hi : Int}, 0 ≤ lo → hi < rm.ends.length → hi - lo + 1 < fuel →
      rm.Window k lo hi →
      (∀ e ∈ rm.ends, e.Contains k → locateLoop rm.ends k fuel lo hi = e.id) ∧
      ((∀ e ∈ rm.ends, ¬ e.Contains k) → locateLoop rm.ends k fuel lo hi = -1) := by
  intro fuel
  induction fuel with
  | zero =>
    intro lo hi _ _ hfuel hwin
    refine ⟨fun e he hk => ?_, fun _ => rfl⟩
    obtain ⟨i, hi⟩ := List.mem_iff_getElem?.mp he
    have := hwin i e hi hk
    omega
  | succ fuel ih =>
    intro lo hi hlo hhi hfuel hwin
    rw [locateLoop]
    by_cases hle : lo ≤ hi
    · have hmid : (((lo + hi) / 2).toNat : Int) = (lo + hi) / 2 := by omega
      have hlt : ((lo + hi) / 2).toNat < rm.ends.length := by omega
      have hget := List.getElem?_eq_getElem hlt
      generalize rm.ends[((lo + hi) / 2).toNat] = e at hget
      rw [if_pos hle]
      dsimp only
      rw [hget]
      dsimp only
      by_cases hleft : k < e.keyLo
      · rw [if_pos hleft]
        refine ih hlo (by omega) (by omega) fun i a ha hka => ⟨(hwin i a ha hka).1, ?_⟩
        -- 鍵の入る区間が `mid` 以降なら、`mid` の区間の始まりは鍵以下である
        by_contra hc
        rcases Nat.lt_or_eq_of_le (show ((lo + hi) / 2).toNat ≤ i by omega) with hij | rfl
        · have hlt' := h.keyHi_lt hget ha hij
          have hne := h.inhabited e (List.mem_of_getElem? hget)
          exact absurd (lt_of_le_of_lt hne (lt_of_lt_of_le hlt' hka.1)) (not_lt_of_gt hleft)
        · obtain rfl := Option.some.inj (hget.symm.trans ha)
          exact absurd hka.1 (not_le_of_gt hleft)
      · rw [if_neg hleft]
        by_cases hright : e.keyHi < k
        · rw [if_pos hright]
          refine ih (by omega) hhi (by omega) fun i a ha hka => ⟨?_, (hwin i a ha hka).2⟩
          by_contra hc
          rcases Nat.lt_or_eq_of_le (show i ≤ ((lo + hi) / 2).toNat by omega) with hij | rfl
          · have hlt' := h.keyHi_lt ha hget hij
            have hne := h.inhabited e (List.mem_of_getElem? hget)
            exact absurd (lt_of_le_of_lt hka.2 (lt_of_lt_of_le hlt' hne)) (not_lt_of_gt hright)
          · obtain rfl := Option.some.inj (hget.symm.trans ha)
            exact absurd hka.2 (not_le_of_gt hright)
        · rw [if_neg hright]
          have hke : e.Contains k := ⟨not_lt.mp hleft, not_lt.mp hright⟩
          have hmem := List.mem_of_getElem? hget
          exact ⟨fun a ha hka => by rw [h.eq_of_contains hmem ha hke hka],
            fun hnone => absurd hke (hnone e hmem)⟩
    · rw [if_neg hle]
      refine ⟨fun e he hk => ?_, fun _ => rfl⟩
      obtain ⟨i, hi⟩ := List.mem_iff_getElem?.mp he
      have := hwin i e hi hk
      omega

theorem window_all (rm : RangeMap) (k : Key) : rm.Window k 0 (rm.ends.length - 1) := by
  intro i e hi _
  have := (List.getElem?_eq_some_iff.mp hi).1
  omega

/-- **`locate_end` は鍵の入る区間の End を返す。** -/
theorem locateEnd_eq (h : rm.Separated) {e : EndInfo} (he : e ∈ rm.ends) (hk : e.Contains k) :
    rm.locateEnd k = e.id :=
  (locateLoop_spec h _ le_rfl (by omega) (by omega) (rm.window_all k)).1 e he hk

/-- 鍵の入る区間が無ければ `-1` を返す。 -/
theorem locateEnd_none (h : rm.Separated) (hk : ∀ e ∈ rm.ends, ¬ e.Contains k) :
    rm.locateEnd k = -1 :=
  (locateLoop_spec h _ le_rfl (by omega) (by omega) (rm.window_all k)).2 hk

/--
`locate_end` の loop の終わる実行。回数の上限は無い。

どの `ends_[mid]` も在るので、列の外は読まない。
-/
inductive LocateRun (ends : List EndInfo) (k : Key) : Int → Int → Int → Prop
  | stop {lo hi : Int} (h : hi < lo) : LocateRun ends k lo hi (-1)
  | left {lo hi id : Int} {e : EndInfo} (h : lo ≤ hi)
      (he : ends[((lo + hi) / 2).toNat]? = some e) (hk : k < e.keyLo)
      (hrest : LocateRun ends k lo ((lo + hi) / 2 - 1) id) : LocateRun ends k lo hi id
  | right {lo hi id : Int} {e : EndInfo} (h : lo ≤ hi)
      (he : ends[((lo + hi) / 2).toNat]? = some e) (hlo : e.keyLo ≤ k) (hk : e.keyHi < k)
      (hrest : LocateRun ends k ((lo + hi) / 2 + 1) hi id) : LocateRun ends k lo hi id
  | found {lo hi : Int} {e : EndInfo} (h : lo ≤ hi)
      (he : ends[((lo + hi) / 2).toNat]? = some e) (hk : e.Contains k) :
      LocateRun ends k lo hi e.id

/-- 範囲の幅より回数の上限が大きければ、loop は上限の前に終わる。 -/
theorem locateLoop_run (ends : List EndInfo) (k : Key) :
    ∀ (fuel : Nat) {lo hi : Int}, 0 ≤ lo → hi < ends.length → hi - lo + 1 < fuel →
      LocateRun ends k lo hi (locateLoop ends k fuel lo hi) := by
  intro fuel
  induction fuel with
  | zero =>
    intro lo hi _ _ hfuel
    exact .stop (by omega)
  | succ fuel ih =>
    intro lo hi hlo hhi hfuel
    rw [locateLoop]
    by_cases hle : lo ≤ hi
    · have hlt : ((lo + hi) / 2).toNat < ends.length := by omega
      have hget := List.getElem?_eq_getElem hlt
      generalize ends[((lo + hi) / 2).toNat] = e at hget
      rw [if_pos hle]
      dsimp only
      rw [hget]
      dsimp only
      by_cases hleft : k < e.keyLo
      · rw [if_pos hleft]
        exact .left hle hget hleft (ih hlo (by omega) (by omega))
      · rw [if_neg hleft]
        by_cases hright : e.keyHi < k
        · rw [if_pos hright]
          exact .right hle hget (not_lt.mp hleft) hright (ih (by omega) hhi (by omega))
        · rw [if_neg hright]
          exact .found hle hget ⟨not_lt.mp hleft, not_lt.mp hright⟩
    · rw [if_neg hle]
      exact .stop (not_le.mp hle)

/-- **`locate_end` は終わり、列の外を読まない。** -/
theorem locateEnd_run (rm : RangeMap) (k : Key) :
    LocateRun rm.ends k 0 (rm.ends.length - 1) (rm.locateEnd k) :=
  locateLoop_run rm.ends k _ le_rfl (by omega) (by omega)

/-- 番号は一つの End を指すので、`edge_of` はその End の Edge を返す。 -/
theorem edgeOf_eq (h : rm.WellFormed) {e : EndInfo} (he : e ∈ rm.ends) :
    rm.edgeOf e.id = e.edgeId := by
  unfold edgeOf
  cases hf : rm.ends.find? fun a => a.id = e.id with
  | none => exact absurd (List.find?_eq_none.mp hf e he) (by simp)
  | some a =>
    have hid : a.id = e.id := by simpa using List.find?_some hf
    rw [h.eq_of_id (List.mem_of_find?_eq_some hf) he hid]

end RangeMap

end Plin
