import Mathlib.Data.List.Sort
import Plin.End.Benchmark

/-!
# 測定は記録の行をそのまま引く

`resolve_positions_to_keys` は、記録の番号の順に、その行の鍵を返す（`resolvePositionsToKeys_eq`）。同じ番号が
何度現れても、番号が行の順に並んでいなくてもよい。0 以下の番号と data の終わりを越えた番号は落ちる。

file を `row` 行まで読んだとき、`row` 以下の番号の要求には全部答えてあり（`Answered`）、残っているのは
`row` より大きい番号の要求の全部である（`Pending`）。
-/

namespace Plin

namespace Resolution

/-! ## 一行に答える -/

section Row

variable {row : Int} {k : Key} {requests : List (Int × Nat)}

/-- 答えた後には、後の行の要求だけが残る。 -/
theorem answerRow_requests (hsorted : requests.Pairwise fun a b => a.1 ≤ b.1)
    (hge : ∀ r ∈ requests, row ≤ r.1) (m : Resolution) :
    ∀ r, r ∈ (answerRow row k requests m).1 ↔ r ∈ requests ∧ row < r.1 := by
  induction requests generalizing m with
  | nil => simp [answerRow]
  | cons a requests ih =>
    obtain ⟨ha, hrest⟩ := List.pairwise_cons.mp hsorted
    obtain ⟨hge₁, hge₂⟩ := List.forall_mem_cons.mp hge
    intro r
    rw [answerRow]
    split
    · next heq =>
      rw [ih hrest hge₂, List.mem_cons]
      constructor
      · rintro ⟨hmem, hlt⟩
        exact ⟨Or.inr hmem, hlt⟩
      · rintro ⟨rfl | hmem, hlt⟩
        · omega
        · exact ⟨hmem, hlt⟩
    · next hne =>
      refine ⟨fun hmem => ⟨hmem, ?_⟩, And.left⟩
      rcases List.mem_cons.mp hmem with rfl | hmem
      · omega
      · have := ha r hmem
        omega

theorem answerRow_sorted (hsorted : requests.Pairwise fun a b => a.1 ≤ b.1) (m : Resolution) :
    (answerRow row k requests m).1.Pairwise fun a b => a.1 ≤ b.1 := by
  induction requests generalizing m with
  | nil => exact List.Pairwise.nil
  | cons a requests ih =>
    rw [answerRow]
    split
    · exact ih (List.pairwise_cons.mp hsorted).2 _
    · exact hsorted

/-- 行 `row` を求める要求の場所だけが書き換わる。 -/
theorem answerRow_resolution (hsorted : requests.Pairwise fun a b => a.1 ≤ b.1)
    (hge : ∀ r ∈ requests, row ≤ r.1) (m : Resolution) :
    (∀ i < m.resolved.length, (answerRow row k requests m).2.resolved[i]? =
      if (row, i) ∈ requests then some true else m.resolved[i]?) ∧
    (∀ i < m.keys.length, (answerRow row k requests m).2.keys[i]? =
      if (row, i) ∈ requests then some k else m.keys[i]?) ∧
    (answerRow row k requests m).2.resolved.length = m.resolved.length ∧
    (answerRow row k requests m).2.keys.length = m.keys.length := by
  induction requests generalizing m with
  | nil => simp [answerRow]
  | cons a requests ih =>
    obtain ⟨ha, hrest⟩ := List.pairwise_cons.mp hsorted
    obtain ⟨hge₁, hge₂⟩ := List.forall_mem_cons.mp hge
    rw [answerRow]
    split
    · next heq =>
      have hmem : ∀ i, (row, i) ∈ a :: requests ↔ a.2 = i ∨ (row, i) ∈ requests := by
        intro i
        rw [List.mem_cons, Prod.ext_iff, heq]
        simp [eq_comm]
      obtain ⟨hres, hkeys, hlen₁, hlen₂⟩ := ih hrest hge₂ (m.answer a.2 k)
      have hset₁ : (m.answer a.2 k).resolved.length = m.resolved.length := List.length_set ..
      have hset₂ : (m.answer a.2 k).keys.length = m.keys.length := List.length_set ..
      refine ⟨fun i hi => ?_, fun i hi => ?_, hlen₁.trans hset₁, hlen₂.trans hset₂⟩
      · rw [hres i (by omega), answer, List.getElem?_set]
        by_cases hia : a.2 = i
        · have hlt : a.2 < _ := hia.trans_lt hi
          rw [if_pos hia, if_pos hlt, if_pos ((hmem i).mpr (Or.inl hia)), ite_self]
        · rw [if_neg hia]
          exact if_congr ((or_iff_right hia).symm.trans (hmem i).symm) rfl rfl
      · rw [hkeys i (by omega), answer, List.getElem?_set]
        by_cases hia : a.2 = i
        · have hlt : a.2 < _ := hia.trans_lt hi
          rw [if_pos hia, if_pos hlt, if_pos ((hmem i).mpr (Or.inl hia)), ite_self]
        · rw [if_neg hia]
          exact if_congr ((or_iff_right hia).symm.trans (hmem i).symm) rfl rfl
    · next hne =>
      -- 先頭の要求が後の行なら、残りも全部後の行である
      have hnone : ∀ i, (row, i) ∉ a :: requests := by
        intro i hi
        rcases List.mem_cons.mp hi with rfl | hi
        · exact hne rfl
        · have hle : a.1 ≤ row := ha _ hi
          omega
      exact ⟨fun i _ => (if_neg (hnone i)).symm, fun i _ => (if_neg (hnone i)).symm, rfl, rfl⟩

end Row

/-! ## file を読む -/

/-- 行 `pos` の鍵。 -/
def rowKey (data : List (Key × Payload)) (pos : Int) : Option Key :=
  if 0 < pos then (data[(pos - 1).toNat]?).map Prod.fst else none

/-- `row` 以下の番号の要求に答えてある。 -/
structure Answered (data : List (Key × Payload)) (positions : List Int) (row : Nat)
    (m : Resolution) : Prop where
  keys : m.keys.length = positions.length
  resolved : m.resolved.length = positions.length
  hit : ∀ (i : Nat) (pos : Int), positions[i]? = some pos → 0 < pos ∧ pos ≤ row →
    m.resolved[i]? = some true ∧ m.keys[i]? = rowKey data pos
  miss : ∀ (i : Nat) (pos : Int), positions[i]? = some pos → ¬ (0 < pos ∧ pos ≤ row) →
    m.resolved[i]? = some false

/-- `row` より大きい番号の要求が残っている。 -/
structure Pending (positions : List Int) (row : Nat) (requests : List (Int × Nat)) : Prop where
  sorted : requests.Pairwise fun a b => a.1 ≤ b.1
  mem : ∀ r, r ∈ requests ↔ positions[r.2]? = some r.1 ∧ (row : Int) < r.1

variable {data : List (Key × Payload)} {positions : List Int}

theorem answered_initial : Answered data positions 0 (initial positions.length) where
  keys := List.length_replicate ..
  resolved := List.length_replicate ..
  hit i pos _ hle := by omega
  miss i pos hget _ := by
    have hlt := (List.getElem?_eq_some_iff.mp hget).1
    rw [initial, List.getElem?_replicate, if_pos hlt]

theorem pending_requestsOf (sorter : RequestSorter) :
    Pending positions 0 (sorter.sort (requestsOf positions)) where
  sorted := sorter.sorted _
  mem r := by
    rw [(sorter.perm _).mem_iff, requestsOf, List.mem_filter, List.mem_zipIdx_iff_getElem?]
    simp

/-- **一行読むと、その行の要求に答えて、残りは後の行の要求になる。** -/
theorem answered_answerRow {row : Nat} {requests : List (Int × Nat)} {m : Resolution}
    {e : Key × Payload} (hrow : data[row]? = some e) (hm : Answered data positions row m)
    (hp : Pending positions row requests) :
    Answered data positions (row + 1) (answerRow (row + 1) e.1 requests m).2 ∧
      Pending positions (row + 1) (answerRow (row + 1) e.1 requests m).1 := by
  have hge : ∀ r ∈ requests, (row : Int) + 1 ≤ r.1 := fun r hr => ((hp.mem r).mp hr).2
  obtain ⟨hres, hkeys, hlen₁, hlen₂⟩ := @answerRow_resolution _ e.1 _ hp.sorted hge m
  have hthis : ∀ (i : Nat) (pos : Int), positions[i]? = some pos →
      (((row : Int) + 1, i) ∈ requests ↔ pos = row + 1) := by
    intro i pos hget
    rw [hp.mem]
    dsimp only
    rw [hget, Option.some.injEq]
    omega
  constructor
  · refine ⟨hlen₂.trans hm.keys, hlen₁.trans hm.resolved, ?_, ?_⟩
    · rintro i pos hget ⟨hpos, hle⟩
      have hi := (List.getElem?_eq_some_iff.mp hget).1
      rw [hres i (by rw [hm.resolved]; exact hi), hkeys i (by rw [hm.keys]; exact hi)]
      by_cases heq : pos = row + 1
      · rw [if_pos ((hthis i pos hget).mpr heq), if_pos ((hthis i pos hget).mpr heq), rowKey,
          if_pos hpos, show (pos - 1).toNat = row by omega, hrow]
        exact ⟨rfl, rfl⟩
      · rw [if_neg (mt (hthis i pos hget).mp heq), if_neg (mt (hthis i pos hget).mp heq)]
        exact hm.hit i pos hget ⟨hpos, by omega⟩
    · intro i pos hget hnot
      have hi := (List.getElem?_eq_some_iff.mp hget).1
      rw [hres i (by rw [hm.resolved]; exact hi), if_neg fun h => ?_]
      · exact hm.miss i pos hget (by omega)
      · have := (hthis i pos hget).mp h
        omega
  · refine ⟨answerRow_sorted hp.sorted m, fun r => ?_⟩
    rw [answerRow_requests hp.sorted hge, hp.mem]
    push_cast
    constructor
    · rintro ⟨⟨hget, -⟩, hlt⟩
      exact ⟨hget, hlt⟩
    · rintro ⟨hget, hlt⟩
      exact ⟨⟨hget, by omega⟩, hlt⟩

/-- 読み終えるか要求が尽きると、どの要求にも答えてある。 -/
theorem answered_readRows {rest : List (Key × Payload)} {row : Nat} {requests : List (Int × Nat)}
    {m : Resolution} (hrest : data.drop row = rest) (hle : row ≤ data.length)
    (hm : Answered data positions row m) (hp : Pending positions row requests) :
    Answered data positions data.length (readRows rest row requests m) := by
  induction rest generalizing row requests m with
  | nil =>
    obtain rfl : row = data.length := Nat.le_antisymm hle (List.drop_eq_nil_iff.mp hrest)
    exact hm
  | cons e rest ih =>
    have hrow : data[row]? = some e := by
      rw [← List.head?_drop, hrest, List.head?_cons]
    have hlt := (List.getElem?_eq_some_iff.mp hrow).1
    rw [readRows]
    split
    · next hnil =>
      -- 残りの要求が無ければ、どの番号も読んだ行までにある
      have hall : ∀ (i : Nat) (pos : Int), positions[i]? = some pos → pos ≤ row := by
        intro i pos hget
        by_contra hc
        have : (pos, i) ∈ requests := (hp.mem (pos, i)).mpr ⟨hget, by omega⟩
        rw [hnil] at this
        cases this
      refine ⟨hm.keys, hm.resolved, fun i pos hget h => ?_, fun i pos hget h => ?_⟩
      · exact hm.hit i pos hget ⟨h.1, hall i pos hget⟩
      · exact hm.miss i pos hget (by omega)
    · have hdrop : requests.dropWhile (fun r => decide (r.1 < (row : Int) + 1)) = requests := by
        cases requests with
        | nil => rfl
        | cons r requests =>
          have := ((hp.mem r).mp List.mem_cons_self).2
          refine List.dropWhile_cons_of_neg ?_
          simp only [decide_eq_true_eq]
          omega
      obtain ⟨hm', hp'⟩ := answered_answerRow hrow hm hp
      dsimp only
      rw [hdrop]
      refine ih ?_ hlt hm' hp'
      rw [← List.drop_drop, hrest, List.drop_one, List.tail_cons]

/-- 答えた要求だけを、元の順に並べる。 -/
theorem out_eq {m : Resolution} (hm : Answered data positions data.length m) :
    m.out = positions.filterMap (rowKey data) := by
  have hmap : (m.keys.zip m.resolved).map (fun e => if e.2 then some e.1 else none) =
      positions.map (rowKey data) := by
    refine List.ext_getElem (by simp [hm.keys, hm.resolved]) fun i hi₁ hi₂ => ?_
    rw [List.length_map] at hi₂
    have hget := List.getElem?_eq_getElem hi₂
    have hk : i < m.keys.length := hm.keys ▸ hi₂
    have hr : i < m.resolved.length := hm.resolved ▸ hi₂
    simp only [List.getElem_map, List.getElem_zip]
    by_cases hhit : 0 < positions[i] ∧ positions[i] ≤ data.length
    · obtain ⟨hres, hkey⟩ := hm.hit i _ hget hhit
      rw [List.getElem?_eq_getElem hr, Option.some.injEq] at hres
      rw [List.getElem?_eq_getElem hk] at hkey
      rw [hres, if_pos rfl]
      exact hkey
    · have hres := hm.miss i _ hget hhit
      rw [List.getElem?_eq_getElem hr, Option.some.injEq] at hres
      rw [hres, if_neg (by simp), rowKey]
      split
      · rw [List.getElem?_eq_none (by omega)]
        rfl
      · rfl
  have hcomp : ∀ {β γ : Type} (f : β → Option γ) (l : List β),
      l.filterMap f = (l.map f).filterMap id := by
    intro β γ f l
    rw [List.filterMap_map]
    rfl
  rw [out, hcomp, hmap, ← hcomp]

end Resolution

/-- **記録の番号は、元の順にその行の鍵に直される。data に無い番号は落ちる。** -/
theorem resolvePositionsToKeys_eq (sorter : RequestSorter) (data : List (Key × Payload))
    (positions : List Int) :
    resolvePositionsToKeys sorter data positions =
      positions.filterMap (Resolution.rowKey data) :=
  Resolution.out_eq (Resolution.answered_readRows rfl (Nat.zero_le _) Resolution.answered_initial
    (Resolution.pending_requestsOf sorter))

/-- 安定な整列も `std::sort` のありうる結果である。 -/
def stableRequestSorter : RequestSorter where
  sort l := l.insertionSort fun a b => a.1 ≤ b.1
  perm l := List.perm_insertionSort _ l
  sorted l := by
    have : IsTrans (Int × Nat) fun a b => a.1 ≤ b.1 := ⟨fun _ _ _ => le_trans⟩
    have : Std.Total fun a b : Int × Nat => a.1 ≤ b.1 := ⟨fun _ _ => le_total _ _⟩
    exact List.pairwise_insertionSort _ _

example : resolvePositionsToKeys stableRequestSorter
    [(Key.ofNat 5, 1), (Key.ofNat 6, 2), (Key.ofNat 8, 3)] [3, 0, 1, 4, 3] =
      [Key.ofNat 8, Key.ofNat 5, Key.ofNat 8] := by
  decide +kernel

end Plin
