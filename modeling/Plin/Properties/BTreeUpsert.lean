import Plin.Properties.BTreeInsert

/-!
# `upsert` は有限写像への書き込みである

leaf の段での書き込みと分割を示し、`insert_into_parent` の仕様と合わせて、`upsert` が
木の不変条件を保ち、表す写像に鍵を書き込むことを示す。挿入だけなら条件は要らない。
-/

namespace Plin

open Infra Level

variable {t : BTree} {m : SortedMap Key Payload} {leaves A B : Level} {uppers : List Level}
  {o : Nat} {p p' : Page} {k : Key}

/-! ## leaf の段の書き換え -/

/-- 探索で着いた leaf に鍵を書いても、区切りは正しい。 -/
theorem Sep.write {σ₁ σ₂ : List Key} {s : Key} (hσ : σ₁.length = A.length)
    (hs : Sep true (σ₁ ++ s :: σ₂) (A ++ (o, p) :: B)) (hB : ∀ x ∈ B, x.2.records ≠ [])
    (hle : A ≠ [] → s ≤ k) (hlt : ∀ s', σ₂.head? = some s' → k < s')
    (hp : ∀ r ∈ p'.records, r.key = k ∨ ∃ r' ∈ p.records, r'.key = r.key) :
    Sep true (σ₁ ++ s :: σ₂) (A ++ (o, p') :: B) := by
  unfold Sep at hs ⊢
  rw [List.map_append, List.map_cons, zip_cons_middle (by simpa using hσ),
    List.pairwise_append, List.pairwise_cons] at hs ⊢
  obtain ⟨hP, ⟨hQ₁, hQ⟩, hPQ⟩ := hs
  -- 右側の区切りはどれも鍵より大きい
  have hkQ : ∀ b ∈ σ₂.zip (B.map fun x => x.2.records), k < b.1 := by
    intro b hb
    cases σ₂ with
    | nil => simp at hb
    | cons s' σ =>
      cases B with
      | nil => simp at hb
      | cons y B =>
        rw [List.map_cons, List.zip_cons_cons] at hb hQ hQ₁
        rcases List.mem_cons.mp hb with rfl | hb
        · exact hlt s' rfl
        · obtain ⟨d, ds, hd⟩ := List.exists_cons_of_ne_nil (hB y (by simp))
          have h1 := (hQ₁ _ List.mem_cons_self).2 d (by rw [hd]; simp)
          have h2 := ((List.pairwise_cons.mp hQ).1 b hb).1 d (by rw [hd]; simp)
          exact lt_trans (hlt s' rfl) (lt_of_le_of_lt h1 h2)
  refine ⟨hP, ⟨fun b hb => ⟨fun r hr => ?_, (hQ₁ b hb).2⟩, hQ⟩, fun a ha b hb => ?_⟩
  · rcases hp r hr with h | ⟨r', hr', h⟩
    · rw [h]
      exact hkQ b hb
    · rw [← h]
      exact (hQ₁ b hb).1 r' hr'
  · rcases List.mem_cons.mp hb with rfl | hb
    · have hold := hPQ a ha _ List.mem_cons_self
      refine ⟨hold.1, fun r hr => ?_⟩
      rcases hp r hr with h | ⟨r', hr', h⟩
      · rw [h]
        refine hle ?_
        rintro rfl
        simp at ha
      · rw [← h]
        exact hold.2 r' hr'
    · exact hPQ a ha b (List.mem_cons_of_mem _ hb)

theorem Linked.write {root : Nat} (h : Linked root true (A ++ (o, p) :: B) uppers)
    (hr : Routed k A uppers) (hpar : p'.parent = p.parent)
    (hB : uppers ≠ [] → ∀ x ∈ B, x.2.records ≠ [])
    (hp : ∀ r ∈ p'.records, r.key = k ∨ ∃ r' ∈ p.records, r'.key = r.key) :
    Linked root true (A ++ (o, p') :: B) uppers := by
  cases uppers with
  | nil =>
    obtain ⟨q, hl, hq⟩ := h
    obtain ⟨rfl, rfl, he⟩ := singleton_middle hl
    obtain ⟨rfl, rfl⟩ := Prod.mk.inj he
    exact ⟨p', rfl, by rw [hpar, hq]⟩
  | cons up rest =>
    obtain ⟨σ₁, s, σ₂, hσ, hlen, hle, hlt⟩ := hr
    refine ⟨by rw [h.1]; simp [hpar], ?_, h.2.2⟩
    have hs := h.2.1
    rw [hσ] at hs ⊢
    exact hs.write hlen (hB (by simp)) hle hlt hp

/-! ## leaf の連鎖 -/

theorem Chained.of_strip {l₁ l₂ : Level} {prev : Nat} (h : Chained prev l₁)
    (hs : strip l₁ = strip l₂) : Chained prev l₂ := by
  induction l₁ generalizing l₂ prev with
  | nil =>
    cases l₂ with
    | nil => trivial
    | cons y l₂ => simp at hs
  | cons x l₁ ih =>
    cases l₂ with
    | nil => simp at hs
    | cons y l₂ =>
      rw [strip_cons, strip_cons] at hs
      obtain ⟨hxy, hs'⟩ := List.cons.inj hs
      obtain ⟨hi, hp⟩ := Prod.mk.inj hxy
      have hnext : (l₁.head?.map Prod.fst) = l₂.head?.map Prod.fst := by
        have := congrArg List.head? (ids_eq_of_strip hs')
        simpa [ids] using this
      obtain ⟨h1, h2, h3⟩ := h
      refine ⟨?_, ?_, ?_⟩
      · rw [← h1]
        exact (congrArg Page.prevLeaf hp).symm
      · rw [← hnext, ← h2]
        exact (congrArg Page.nextLeaf hp).symm
      · rw [← hi]
        exact ih h3 hs'

/-- 後ろの部分を、先頭の番地を変えずに取り替える。 -/
theorem Chained.replace {L L' : Level} {prev : Nat} (h : Chained prev (A ++ L))
    (hh : L.head?.map Prod.fst = L'.head?.map Prod.fst)
    (hL : ∀ prev, Chained prev L → Chained prev L') : Chained prev (A ++ L') := by
  induction A generalizing prev with
  | nil => exact hL prev h
  | cons x A ih =>
    refine ⟨h.1, ?_, ih h.2.2⟩
    rw [h.2.1]
    cases A with
    | nil => exact congrArg (Option.getD · 0) hh
    | cons y A => rfl

theorem Chained.next_eq {prev : Nat} {x : Nat × Page} (h : Chained prev (A ++ x :: B)) :
    x.2.nextLeaf = (B.head?.map Prod.fst).getD 0 := by
  induction A generalizing prev with
  | nil => exact h.2.1
  | cons y A ih => exact ih h.2.2

theorem Chained.prev_eq {prev : Nat} {x y : Nat × Page} (h : Chained prev (A ++ x :: y :: B)) :
    y.2.prevLeaf = x.1 := by
  induction A generalizing prev with
  | nil => exact h.2.2.1
  | cons z A ih => exact ih h.2.2

/-- 先頭の leaf の `prev_leaf` を書き換える。 -/
def setPrev (s : Nat) : Level → Level
  | [] => []
  | x :: l => (x.1, { x.2 with prevLeaf := s }) :: l

theorem Chained.setPrev {l : Level} {prev s : Nat} (h : Chained prev l) :
    Chained s (setPrev s l) := by
  cases l with
  | nil => trivial
  | cons x l => exact ⟨rfl, h.2⟩

section SetPrev

variable (s : Nat) (l : Level)

@[simp] theorem ids_setPrev : ids (setPrev s l) = ids l := by cases l <;> rfl

@[simp] theorem recs_setPrev : recs (setPrev s l) = recs l := by cases l <;> rfl

@[simp] theorem parents_setPrev : parents (setPrev s l) = parents l := by cases l <;> rfl

@[simp] theorem map_records_setPrev :
    ((setPrev s l).map fun x => x.2.records) = l.map fun x => x.2.records := by cases l <;> rfl

theorem forall_setPrev {P : Page → Prop} (h : ∀ x ∈ l, P x.2)
    (hP : ∀ p, P p → P { p with prevLeaf := s }) : ∀ x ∈ setPrev s l, P x.2 := by
  cases l with
  | nil => simp [Plin.setPrev]
  | cons y l =>
    intro x hx
    rcases List.mem_cons.mp hx with rfl | hx
    · exact hP _ (h y (by simp))
    · exact h x (by simp [hx])

end SetPrev

/-- 区切りは record の列だけで決まる。 -/
theorem Linked.congr_lower {root : Nat} {leaf : Bool} {l l' : Level} {up : Level}
    {rest : List Level} (h : Linked root leaf l (up :: rest)) (hp : parents l = parents l')
    (hr : (l.map fun x => x.2.records) = l'.map fun x => x.2.records) :
    Linked root leaf l' (up :: rest) := by
  refine ⟨by rw [h.1, hp], ?_, h.2.2⟩
  have hs := h.2.1
  unfold Sep at hs ⊢
  rwa [← hr]

/-! ## leaf の分割 -/

/-- leaf の `split`。新しい leaf を連鎖の次に入れる。 -/
theorem split_leaf {R : Level} {ra rb : List Record} {r : Record}
    (h : Agrees t.pages (A ++ (o, p) :: B ++ R)) (hd : (ids (A ++ (o, p) :: B ++ R)).Nodup)
    (hb : ∀ x ∈ A ++ (o, p) :: B ++ R, 0 < x.1 ∧ x.1 < t.fresh) (hl : p.isLeaf = true)
    (hn : p.nextLeaf = (B.head?.map Prod.fst).getD 0)
    (hra : p.records.take (p.records.length - p.records.length / 2) = ra)
    (hrb : p.records.drop (p.records.length - p.records.length / 2) = r :: rb) :
    ∃ t', t.split o = .ok (t', t.fresh) ∧
      Agrees t'.pages (A ++ (o, { p with nextLeaf := t.fresh, records := ra }) ::
        (t.fresh, { isLeaf := true, prevLeaf := o, nextLeaf := p.nextLeaf, records := r :: rb }) ::
        setPrev t.fresh B ++ R) ∧
      (∀ i, i ≠ t.fresh → i ∉ ids (A ++ (o, p) :: B ++ R) → t'.pages i = t.pages i) ∧
      t'.fresh = t.fresh + 1 ∧ t'.root = t.root ∧ t'.addr = t.addr := by
  let pn : Page := { isLeaf := true, prevLeaf := o, nextLeaf := p.nextLeaf, records := r :: rb }
  let po : Page := { p with nextLeaf := t.fresh, records := ra }
  let t₁ : BTree := ({ t with fresh := t.fresh + 1 } : BTree).setPage t.fresh pn
  let t₂ := t₁.setPage o po
  have hfr : t.fresh ∉ ids (A ++ (o, p) :: B ++ R) := by
    intro hm
    obtain ⟨y, hy, hyf⟩ := List.mem_map.mp hm
    have := (hb y hy).2
    omega
  have hof : t.fresh ≠ o := by
    rintro rfl
    exact hfr (by simp)
  have h₁ : Agrees t₁.pages (A ++ (o, p) :: (B ++ R)) := by
    have := Agrees.set_other (t := { t with fresh := t.fresh + 1 }) h hfr pn
    simpa using this
  have h₂ : Agrees t₂.pages (A ++ (o, po) :: (B ++ R)) := h₁.set (by simpa using hd) po
  have hps : t₂.pages t.fresh = some pn := by
    show (if t.fresh = o then _ else if t.fresh = t.fresh then _ else _) = _
    rw [if_neg hof, if_pos rfl]
  -- 直後の leaf が在れば、その `prev_leaf` だけを後から直す
  have hsplit : t.split o = (if p.nextLeaf = 0 then .ok (t₂, t.fresh)
      else (t₂.modifyPage p.nextLeaf fun q => { q with prevLeaf := t.fresh }).bind
        fun t' => .ok (t', t.fresh)) := by
    unfold BTree.split
    rw [BTree.page_eq (h (o, p) (by simp))]
    show (if p.isLeaf = true then _ else _) = _
    rw [if_pos hl]
    unfold Page.recordNum
    rw [hra, hrb, hl]
    show (if p.nextLeaf = 0 then _ else _) = _
    split
    · show Except.ok (({ t with fresh := t.fresh + 1 } : BTree).setPage t.fresh _ |>.setPage o _, _)
        = _
      simp only [t₂, t₁, po, pn, hl]
    · simp only [t₂, t₁, po, pn, hl]
      rfl
  have hout : ∀ i, i ≠ t.fresh → i ∉ ids (A ++ (o, p) :: B ++ R) → t₂.pages i = t.pages i := by
    intro i hi hni
    show (if i = o then _ else if i = t.fresh then _ else _) = _
    rw [if_neg, if_neg hi]
    rintro rfl
    exact hni (by simp)
  -- 直後の leaf の有無で、書き換わる page が決まる
  cases B with
  | nil =>
    refine ⟨t₂, by rw [hsplit, if_pos (show p.nextLeaf = 0 from hn)], ?_, hout, rfl, rfl, rfl⟩
    intro x hx
    simp only [Plin.setPrev, List.append_assoc, List.cons_append, List.nil_append, List.mem_append,
      List.mem_cons] at hx
    rcases hx with hx | rfl | rfl | hx
    · exact h₂ x (by simp [hx])
    · exact h₂ _ (by simp [po])
    · exact hps
    · exact h₂ x (by simp [hx])
  | cons y B =>
    obtain ⟨i, q⟩ := y
    have hn' : p.nextLeaf = i := hn
    have hi0 : p.nextLeaf ≠ 0 := by
      rw [hn']
      exact Nat.ne_of_gt (hb (i, q) (by simp)).1
    have hq : t₂.pages i = some q := h₂ (i, q) (by simp)
    have h₃ := Agrees.set (t := t₂) (l := A ++ [(o, po)]) (i := i) (p := q) (r := B ++ R)
      (by simpa using h₂) (by simpa using hd) { q with prevLeaf := t.fresh }
    have hif : t.fresh ≠ i := by
      rintro rfl
      exact hfr (by simp)
    refine ⟨t₂.setPage i { q with prevLeaf := t.fresh }, ?_, ?_, ?_, rfl, rfl, rfl⟩
    · rw [hsplit, if_neg hi0, hn', BTree.modifyPage_eq hq]
      rfl
    · intro x hx
      simp only [Plin.setPrev, List.append_assoc, List.cons_append, List.mem_append,
        List.mem_cons] at hx
      rcases hx with hx | rfl | rfl | rfl | hx
      · exact h₃ x (by simp [hx])
      · exact h₃ _ (by simp [po])
      · rw [BTree.setPage_pages, if_neg hif]
        exact hps
      · exact h₃ _ (by simp)
      · exact h₃ x (List.mem_append_right _ (List.mem_cons_of_mem _ (List.mem_append.mpr hx)))
    · intro j hj hnj
      rw [BTree.setPage_pages, if_neg, hout j hj hnj]
      rintro rfl
      exact hnj (by simp)

/-! ## `upsert` -/

/-- 着いた leaf の中の書き込みは、全体の写像への書き込みである。 -/
theorem BTree.Holds.entries_upsert (h : t.Holds m (A ++ (o, p) :: B) uppers)
    (hr : Routed k A uppers) {v : Payload} {rs : List Record}
    (hrs : rs.map Record.entry = insertEntries k v (p.records.map Record.entry)) :
    (recs A ++ (rs ++ recs B)).map Record.entry = (m.upsert k v).entries := by
  obtain ⟨hA, hB⟩ := hr.outside h
  show _ = insertEntries k v m.entries
  rw [← h.data, recs_append, recs_cons, List.map_append, List.map_append, List.map_append,
    List.map_append, hrs, insertEntries_append_left, insertEntries_append_right]
  · intro e he
    obtain ⟨r, hr, rfl⟩ := List.mem_map.mp he
    exact hB r hr
  · intro e he
    obtain ⟨r, hr, rfl⟩ := List.mem_map.mp he
    exact hA r hr

/-- 鍵が写像に在ることは、着いた leaf に在ることと同じである。 -/
theorem BTree.Holds.mem_leaf_iff (h : t.Holds m (A ++ (o, p) :: B) uppers)
    (hr : Routed k A uppers) : k ∈ p.records.map Record.key ↔ (m.find k).isSome := by
  obtain ⟨hA, hB⟩ := hr.outside h
  have hall : (m.find k).isSome ↔ k ∈ (recs (A ++ (o, p) :: B)).map Record.key := by
    rw [Option.isSome_iff_exists]
    constructor
    · rintro ⟨v, hv⟩
      have := SortedMap.mem_entries_iff.mpr hv
      rw [← h.data] at this
      obtain ⟨r, hrm, hre⟩ := List.mem_map.mp this
      exact List.mem_map.mpr ⟨r, hrm, congrArg Prod.fst hre⟩
    · intro hm
      obtain ⟨r, hrm, rfl⟩ := List.mem_map.mp hm
      refine ⟨r.entry.2, SortedMap.mem_entries_iff.mp ?_⟩
      rw [← h.data]
      exact List.mem_map.mpr ⟨r, hrm, rfl⟩
  rw [hall, recs_append, recs_cons, List.map_append, List.map_append, List.mem_append,
    List.mem_append]
  constructor
  · exact fun hm => Or.inr (Or.inl hm)
  · rintro (hm | hm | hm)
    · obtain ⟨r, hrm, rfl⟩ := List.mem_map.mp hm
      exact absurd (hA r hrm) (lt_irrefl _)
    · exact hm
    · obtain ⟨r, hrm, rfl⟩ := List.mem_map.mp hm
      exact absurd (hB r hrm) (lt_irrefl _)

/-- leaf の record を書き換えた木。個数があふれなければ不変条件は保たれる。 -/
theorem BTree.Holds.write (h : t.Holds m (A ++ (o, p) :: B) uppers) (hr : Routed k A uppers)
    {rs : List Record} {m' : SortedMap Key Payload} (hsolid : ∀ r ∈ rs, r.val ≠ 0)
    (hkeys : ∀ r ∈ rs, r.key = k ∨ ∃ r' ∈ p.records, r'.key = r.key)
    (hdata : (recs A ++ (rs ++ recs B)).map Record.entry = m'.entries) :
    Stack (t.setPage o (p.withRecords rs)) true (A ++ (o, p.withRecords rs) :: B) uppers ∧
      Chained 0 (A ++ (o, p.withRecords rs) :: B) ∧
      (recs (A ++ (o, p.withRecords rs) :: B)).map Record.entry = m'.entries := by
  have hB : uppers ≠ [] → ∀ x ∈ B, x.2.records ≠ [] := by
    intro hne x hx hc
    cases uppers with
    | nil => exact hne rfl
    | cons up rest =>
      have := (h.sized.1 x (by simp [hx])).1
      rw [hc] at this
      simp at this
  have hset := Agrees.set (t := t) (l := A) (p := p) (r := B ++ uppers.flatten)
    (by simpa using h.stack.heap) (by simpa using h.stack.nodup) (p.withRecords rs)
  refine ⟨⟨h.stack.linked.write hr rfl hB hkeys, by simpa using hset, by simpa using h.stack.nodup,
    ?_, ?_, h.stack.upperOk⟩, ?_, by simpa using hdata⟩
  · intro x hx
    have hb : ∀ i ∈ ids (A ++ (o, p) :: B ++ uppers.flatten), 0 < i ∧ i < t.fresh := by
      intro i hi
      obtain ⟨y, hy, rfl⟩ := List.mem_map.mp hi
      exact h.stack.bound y hy
    exact hb x.1 (by simpa using mem_ids_of_mem hx)
  · exact forall_mem_replace h.stack.lowerOk fun hp => ⟨hp.isLeaf, hsolid⟩
  · exact h.chained.replace rfl fun prev hc => ⟨hc.1, hc.2.1, hc.2.2⟩

/-- あふれない書き込みの後の木。 -/
theorem BTree.Holds.of_write {m' : SortedMap Key Payload} (h : t.Holds m (A ++ (o, p) :: B) uppers)
    (hs : Stack (t.setPage o p') true (A ++ (o, p') :: B) uppers)
    (hc : Chained 0 (A ++ (o, p') :: B))
    (hd : (recs (A ++ (o, p') :: B)).map Record.entry = m'.entries)
    (hsz : Sized true (A ++ (o, p') :: B) uppers) :
    (t.setPage o p').Holds m' (A ++ (o, p') :: B) uppers := by
  refine ⟨hs, hsz, hc, hd, ?_, h.addr⟩
  refine Small.of_agrees (t := t) h.small hs.heap hsz.room_all fun i hi => Or.inl ?_
  rw [BTree.setPage_pages, if_neg]
  rintro rfl
  exact hi (by simp)

/-- あふれた leaf を分けて親に知らせる。 -/
theorem BTree.Holds.split_insert {m' : SortedMap Key Payload}
    (h : t.Holds m (A ++ (o, p) :: B) uppers)
    (hs : Stack (t.setPage o p') true (A ++ (o, p') :: B) uppers)
    (hc : Chained 0 (A ++ (o, p') :: B))
    (hd : (recs (A ++ (o, p') :: B)).map Record.entry = m'.entries)
    (hasc : p'.Ascending) (hfull : p'.records.length = cardinality) :
    ∃ t₂ r rs t' leaves' uppers', (t.setPage o p').split o = .ok (t₂, t.fresh) ∧
      t₂.pages t.fresh = some
        { isLeaf := true, prevLeaf := o, nextLeaf := p'.nextLeaf, records := r :: rs } ∧
      BTree.insertIntoParent t₂.fresh t₂ o r.key t.fresh = .ok t' ∧
      t'.Holds m' leaves' uppers' := by
  obtain ⟨ra, r, rb, hr, hla, hlb, hdrop, htake⟩ := split_records hfull
  have hnext : p'.nextLeaf = (B.head?.map Prod.fst).getD 0 := hc.next_eq
  have hb := hs.bound
  have hleaf := (hs.lowerOk (o, p') (by simp)).isLeaf
  obtain ⟨t₂, hsplit, hag, hframe, hf₂, hr₂, ha₂⟩ := split_leaf hs.heap hs.nodup hb hleaf hnext
    htake hdrop
  rw [BTree.setPage_fresh] at *
  have hbeside : ∀ x ∈ A ++ B, x.2.Filled := h.stack.linked.filled_beside h.sized
  -- 直後の leaf の `prev_leaf` も、もう書き換わっている
  have hpend : Pending t₂ true A o p' { p' with nextLeaf := t.fresh, records := ra } t.fresh
      { isLeaf := true, prevLeaf := o, nextLeaf := p'.nextLeaf, records := r :: rb }
      (Plin.setPrev t.fresh B) uppers r.key := by
    refine hs.pending ?_ hag (by simp) hf₂ hr hla hlb ⟨rfl, hleaf, rfl⟩ ⟨rfl, rfl⟩ (fun _ => hasc)
      (fun x hx => hbeside x (List.mem_append_left _ hx)) ?_ ?_
    · rw [hr₂]
      cases uppers with
      | nil =>
        obtain ⟨q, hl, hq⟩ := hs.linked
        obtain ⟨-, rfl, -⟩ := singleton_middle hl
        exact ⟨q, hl, hq⟩
      | cons up rest => exact hs.linked.congr_lower (by simp) (by simp)
    · exact forall_setPrev t.fresh B (P := fun q => PageOk true q ∧ q.Filled)
        (fun y hy => ⟨hs.lowerOk y (by simp [hy]), hbeside y (List.mem_append_right _ hy)⟩)
        fun q hq => ⟨⟨hq.1.isLeaf, hq.1.solid⟩, hq.2⟩
    · rintro up rest rfl
      exact h.sized.2
  have hheight : uppers.length < t₂.fresh := by
    have := h.stack.length_lt_fresh h.sized
    omega
  obtain ⟨t', leaves', uppers', hcall, hset⟩ := insertIntoParent_spec hpend hheight
  refine ⟨t₂, r, rb, t', leaves', uppers', hsplit, hag (t.fresh, _) (by simp), hcall,
    hset.stack, hset.sized, ?_, ?_, ?_, ?_⟩
  · refine Chained.of_strip ?_ hset.strip.symm
    refine hc.replace rfl fun prev hp => ⟨hp.1, rfl, rfl, ?_, ?_⟩
    · rw [hp.2.1]
      cases B <;> rfl
    · exact hp.2.2.setPrev
  · rw [recs_eq_of_strip hset.strip, ← hd]
    simp [hr]
  · refine hset.small (Small.of_agrees (t := t) h.small hag ?_ fun i hi => Or.inl ?_)
    · intro x hx
      rcases List.mem_append.mp hx with hx | hx
      · exact (hpend.lowerSized x hx).2
      · exact h.sized.room_all x (List.mem_append_right _ hx)
    · have hni : i ∉ ids (A ++ (o, p') :: B ++ uppers.flatten) := by
        intro hm
        refine hi ?_
        simp only [ids_append, ids_cons, ids_setPrev, List.mem_append, List.mem_cons] at hm ⊢
        tauto
      have hfi : i ≠ t.fresh := by
        rintro rfl
        exact hi (by simp)
      rw [hframe i hfi hni, BTree.setPage_pages, if_neg]
      rintro rfl
      exact hni (by simp)
  · exact hset.addr (by rw [ha₂, hr₂]; exact h.addr)

/-- **`upsert` は写像に書き込み、木の不変条件を保つ。** 返り値は鍵が在ったかどうかを示す。 -/
theorem BTree.Holds.upsert (h : t.Holds m leaves uppers) (k : Key) {v : Payload} (hv : v ≠ 0) :
    ∃ t' leaves' uppers', t.upsert k v = .ok (t', if (m.find k).isSome then 3 else 4) ∧
      t'.Holds (m.upsert k v) leaves' uppers' := by
  obtain ⟨A, ⟨o, p⟩, B, rfl, hf, hr⟩ := h.findLeafPage k
  have hok : PageOk true p := h.stack.lowerOk (o, p) (by simp)
  have hroom : p.records.length < cardinality := h.sized.room (o, p) (by simp)
  have hp : t.pages o = some p := h.stack.heap (o, p) (by simp)
  obtain ⟨rs, q, hins, hent, hsolid, hasc, hcase⟩ :=
    hok.solid.insertInNode_spec (h.ascending (x := (o, p)) (by simp)) hroom k hv
  have hkeys : ∀ r ∈ rs, r.key = k ∨ ∃ r' ∈ p.records, r'.key = r.key := by
    intro r hr
    have hm : r.entry ∈ rs.map Record.entry := List.mem_map_of_mem hr
    rw [hent] at hm
    rcases mem_insertEntries hm with he | he
    · exact Or.inl (congrArg Prod.fst he)
    · obtain ⟨r', hr', he⟩ := List.mem_map.mp he
      exact Or.inr ⟨r', hr', congrArg Prod.fst he⟩
  have hdata := h.entries_upsert hr hent
  obtain ⟨hs, hc, hd⟩ := h.write hr hsolid hkeys hdata
  -- leaf が決まれば、残りは record の数による場合分けである
  have hpre : t.upsert k v = (if rs.length = p.records.length then
      .ok (t.setPage o (p.withRecords rs), if q = int64Max then 3 else 0)
    else if cardinality ≤ rs.length then do
      let s ← (t.setPage o (p.withRecords rs)).split o
      let sib ← s.1.page s.2
      let first ← sib.read 0
      let t ← BTree.insertIntoParent s.1.fresh s.1 o first.key s.2
      return (t, 4)
    else .ok (t.setPage o (p.withRecords rs), 4)) := by
    unfold BTree.upsert
    rw [hf]
    show (t.page o).bind _ = _
    rw [BTree.page_eq hp]
    show (p.insertInNode k v).bind _ = _
    rw [hins]
    rfl
  rw [hpre]
  -- 鍵が在れば record の数は変わらず、無ければ一つ増える
  rcases hcase with ⟨hin, hlen, rfl⟩ | ⟨hnin, hlen⟩
  · rw [if_pos hlen, if_pos rfl, if_pos ((h.mem_leaf_iff hr).mp hin)]
    refine ⟨_, _, _, rfl, h.of_write hs hc hd (h.sized.grow ?_ ?_)⟩
    · rw [Page.withRecords_records, hlen]
    · rw [Page.withRecords_records, hlen]
      exact hroom
  · rw [if_neg (by omega), if_neg (fun hm => hnin ((h.mem_leaf_iff hr).mpr hm))]
    by_cases hfull : cardinality ≤ rs.length
    · obtain ⟨t₂, r, rs', t', leaves', uppers', hsplit, hsib, hcall, hh⟩ :=
        h.split_insert hs hc hd hasc
          (Nat.le_antisymm (by rw [Page.withRecords_records]; omega) hfull)
      refine ⟨t', leaves', uppers', ?_, hh⟩
      rw [if_pos hfull, hsplit]
      show (t₂.page t.fresh).bind _ = _
      rw [BTree.page_eq hsib]
      show (BTree.insertIntoParent t₂.fresh t₂ o r.key t.fresh).bind _ = _
      rw [hcall]
      rfl
    · rw [if_neg hfull]
      refine ⟨_, _, _, rfl, h.of_write hs hc hd (h.sized.grow ?_ (Nat.lt_of_not_le hfull))⟩
      rw [Page.withRecords_records]
      omega

end Plin
