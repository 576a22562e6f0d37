import Plin.Properties.BTreeInsertOnly

/-!
# 無い鍵の削除

`page::remove` は `lower_bound` の位置が末尾なら `record_num` を返し、そこに鍵があれば消す。**その位置に別の鍵が
あるときの `return` が無い**ので、値を返さずに関数の終わりに達する。したがって無い鍵の `delete_entry` が何も変えずに
`false` を返すのは、鍵が着いた leaf のどの鍵よりも大きいときに限る（`deleteEntry_absent_iff`）。

`maintain_parent` は親の鍵を局所変数に写して読み比べるだけなので、木を変えない。
-/

namespace Plin

open Infra Level

/-! ## page -/

namespace Page

variable {p : Page} {k : Key}

/-- どの鍵よりも大きい鍵の `remove` は何もしない。 -/
theorem Solid.remove_above (h : p.Solid) (hk : ∀ r ∈ p.records, r.key < k) :
    p.remove k = .ok p := by
  have hi : p.records.findIdx (fun r => decide (k ≤ r.key)) = p.records.length :=
    List.findIdx_eq_length.mpr fun r hr => decide_eq_false (not_le.mpr (hk r hr))
  unfold remove
  rw [h.lowerBound_eq, hi]
  show (if p.recordNum ≤ p.recordNum then _ else _) = _
  rw [if_pos le_rfl]
  rfl

/-- 無い鍵より大きい鍵があると、値を返さずに終わりに達する。 -/
theorem Solid.remove_between (h : p.Solid) (hc : p.records.length ≤ cardinality)
    (hne : ∀ r ∈ p.records, r.key ≠ k) (hgt : ∃ r ∈ p.records, k < r.key) :
    p.remove k = .error .noReturn := by
  obtain ⟨r, hr, hlt⟩ := hgt
  have hi : p.records.findIdx (fun r => decide (k ≤ r.key)) < p.recordNum :=
    List.findIdx_lt_length.mpr ⟨r, hr, decide_eq_true hlt.le⟩
  obtain ⟨d, hd⟩ : ∃ d, p.records[p.records.findIdx fun r => decide (k ≤ r.key)]? = some d :=
    ⟨_, List.getElem?_eq_getElem hi⟩
  unfold remove
  rw [h.lowerBound_eq]
  show (if p.recordNum ≤ p.records.findIdx _ then _ else _) = _
  rw [if_neg (Nat.not_le.mpr hi), read_eq (Nat.lt_of_lt_of_le hi hc) hd]
  show (if d.key = k ∧ d.val ≠ 0 then _ else _) = _
  rw [if_neg fun hc => hne d (List.mem_of_getElem? hd) hc.1]

end Page

/-! ## 木 -/

namespace BTree

variable {t : BTree} {m : SortedMap Key Payload} {leaves : Level} {uppers : List Level} {k : Key}

/-- 鍵は、着いた leaf のどの鍵よりも大きい。 -/
def AboveLeaf (t : BTree) (k : Key) : Prop :=
  ∀ id p, t.findLeafPage k = .ok id → t.pages id = some p → ∀ r ∈ p.records, r.key < k

theorem deleteEntry_of_remove {id : Nat} {p : Page} (hf : t.findLeafPage k = .ok id)
    (hp : t.pages id = some p) (hr : p.remove k = .ok p)
    (hm : t.maintainParent t.fresh id = .ok ()) : t.deleteEntry k = .ok (t, false) := by
  unfold deleteEntry
  rw [hf]
  show (t.page id).bind _ = _
  rw [page_eq hp]
  show (p.remove k).bind _ = _
  rw [hr]
  show ((t.setPage id p).maintainParent (t.setPage id p).fresh id).bind _ = _
  rw [setPage_self hp, hm]
  show (if p.recordNum ≠ p.recordNum then _ else _) = _
  rw [if_neg fun h => h rfl]
  rfl

theorem deleteEntry_of_error {id : Nat} {p : Page} {e : Fault} (hf : t.findLeafPage k = .ok id)
    (hp : t.pages id = some p) (hr : p.remove k = .error e) : t.deleteEntry k = .error e := by
  unfold deleteEntry
  rw [hf]
  show (t.page id).bind _ = _
  rw [page_eq hp]
  show (p.remove k).bind _ = _
  rw [hr]
  rfl

/-- **無い鍵の `delete_entry` は、着いた leaf のどの鍵より大きければ何もせず、さもなければ値を返さない。** -/
theorem Holds.deleteEntry_absent (h : t.Holds m leaves uppers) (hk : m.find k = none) :
    (t.AboveLeaf k → t.deleteEntry k = .ok (t, false)) ∧
      (¬ t.AboveLeaf k → t.deleteEntry k = .error .noReturn) := by
  obtain ⟨A, ⟨o, p⟩, B, rfl, hf, hr⟩ := h.findLeafPage k
  have hsolid := (h.stack.lowerOk (o, p) (by simp)).solid
  have hroom : p.records.length < cardinality := h.sized.room (o, p) (by simp)
  have hp : t.pages o = some p := h.stack.heap (o, p) (by simp)
  have habsent : ∀ r ∈ p.records, r.key ≠ k := by
    rintro r hrec rfl
    have hsome := (h.mem_leaf_iff hr).mp (List.mem_map_of_mem hrec)
    rw [hk] at hsome
    cases hsome
  constructor
  · intro habove
    have hfresh := h.stack.length_lt_fresh h.sized
    have hup : ∀ y ∈ uppers.flatten, y.2.records ≠ [] ∧ y.2.records.length < cardinality :=
      fun y hy => ⟨h.sized.nonempty_upper y hy, h.sized.room_all y (List.mem_append_right _ hy)⟩
    have hne : uppers ≠ [] → p.records ≠ [] := by
      intro hne hnil
      cases uppers with
      | nil => exact hne rfl
      | cons up rest =>
        have hfilled := (h.sized.1 (o, p) (by simp)).1
        rw [hnil] at hfilled
        cases hfilled
    exact deleteEntry_of_remove hf hp (hsolid.remove_above (habove o p hf hp))
      (maintainParent_ok (x := (o, p)) h.stack hup hne (by omega))
  · intro hnot
    refine deleteEntry_of_error hf hp (hsolid.remove_between hroom.le habsent ?_)
    by_contra hc
    push Not at hc
    refine hnot fun id q hid hq r hrec => ?_
    obtain rfl := Except.ok.inj (hf.symm.trans hid)
    obtain rfl := Option.some.inj (hp.symm.trans hq)
    exact lt_of_le_of_ne (hc r hrec) (habsent r hrec)

end BTree

/--
**無い鍵の削除が木を変えずに `false` を返すのは、鍵が着いた leaf のどの鍵よりも大きいとき、またそのときに限る。**
さもなければ `page::remove` は値を返さずに終わりに達する。
-/
theorem deleteEntry_absent_iff {calls : List InsertCall} (hp : ∀ c ∈ calls, c.payload ≠ 0)
    {k : Key} (hk : InsertCall.contents calls k = none) :
    ∃ t rets, BTree.new.insertAll calls = .ok (t, rets) ∧
      (t.reopen.deleteEntry k = .ok (t, false) ↔ t.AboveLeaf k) ∧
      (¬ t.AboveLeaf k → t.reopen.deleteEntry k = .error .noReturn) := by
  obtain ⟨t, rets, hrun, -, -, h⟩ := represents_new.insertAll hp
  have hopen := h.reopen
  obtain ⟨m, leaves, uppers, hh, hf⟩ := h
  obtain ⟨habove, hnot⟩ := hh.deleteEntry_absent (by rw [hf]; exact hk)
  refine ⟨t, rets, hrun, ?_, ?_⟩
  · rw [hopen]
    refine ⟨fun hok => ?_, habove⟩
    by_contra hc
    rw [hnot hc] at hok
    cases hok
  · rw [hopen]
    exact hnot

/-- 鍵 1 と 3 の木から鍵 4 を消しても、木は変わらない。 -/
theorem deleteEntry_absent_iff_above :
    ∃ t rets, BTree.new.insertAll [⟨false, Key.ofNat 1, 1⟩, ⟨false, Key.ofNat 3, 3⟩] =
        .ok (t, rets) ∧ t.reopen.deleteEntry (Key.ofNat 4) = .ok (t, false) := by
  obtain ⟨t, rets, hrun, hiff, -⟩ := @deleteEntry_absent_iff
    [⟨false, Key.ofNat 1, 1⟩, ⟨false, Key.ofNat 3, 3⟩] (by decide) (Key.ofNat 4)
    (by decide +kernel)
  refine ⟨t, rets, hrun, hiff.mpr fun id p hid hpage => ?_⟩
  cases hrun
  cases hid
  cases hpage
  decide +kernel

/-- 鍵 1 と 3 の木から鍵 2 を消すと、値を返さずに関数の終わりに達する。 -/
theorem deleteEntry_absent_between :
    InsertCall.contents [⟨false, Key.ofNat 1, 1⟩, ⟨false, Key.ofNat 3, 3⟩] (Key.ofNat 2) = none ∧
      ∃ t rets, BTree.new.insertAll [⟨false, Key.ofNat 1, 1⟩, ⟨false, Key.ofNat 3, 3⟩] =
          .ok (t, rets) ∧ t.reopen.deleteEntry (Key.ofNat 2) = .error .noReturn :=
  ⟨by decide +kernel, _, _, rfl, rfl⟩

end Plin
