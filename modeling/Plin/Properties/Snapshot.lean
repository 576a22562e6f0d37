import Mathlib.Data.List.Induction
import Plin.Infra.Buckets
import Plin.End.RdmaLookup

/-!
# RDMA snapshot の読み出しは正確である

`buildRdmaSnapshot` の三回の loop を、計数整列の途中の状態 `Infra.Filled` に沿って追う。
途中の `descs` はいつも「区間の始まり」と「個数」の二つの関数で書けるので、それを `descsOf` と
名付け、各 loop が二つの関数をどう変えるかだけを示す。

End の側では、予測が非負なら Edge と同じ leaf を選ぶこと（`lookupLeaf_eq_clampLeaf`）と、
検査をすべて通ってその leaf の行の列を読むことを示す。予測の正しさには何も仮定しない。
-/

namespace Plin

open Infra

/-! ## leaf の番号 -/

theorem clampLeaf_lt {size : Nat} (h : 0 < size) (p : Int32) : clampLeaf size p < size := by
  unfold clampLeaf
  dsimp only
  split_ifs <;> omega

/-- 予測が非負なら、End は Edge が行を置いた leaf を選ぶ。 -/
theorem lookupLeaf_eq_clampLeaf (size : Nat) {p : Int32} (hp : 0 ≤ p.toInt) :
    lookupLeaf size p = clampLeaf size p := by
  have hu : p.toUInt32.toNat = p.toInt.toNat := by
    have hp' : p.toInt = p.toUInt32.toNat := by
      have := p.toInt_toBitVec
      rw [← this] at hp ⊢
      rw [BitVec.toInt_eq_toNat_of_msb]
      · rfl
      · exact BitVec.msb_eq_false_iff_two_mul_lt.mpr (by
          rw [BitVec.toInt_eq_toNat_cond] at hp
          split at hp
          · assumption
          · have := p.toBitVec.isLt
            omega)
    rw [hp', Int.toNat_natCast]
  unfold lookupLeaf clampLeaf
  dsimp only
  rw [hu, if_neg (Int.not_lt.mpr hp)]

/-! ## descriptor の列 -/

/-- 区間の始まり `off` と個数 `cnt` をもつ descriptor の列。 -/
def descsOf (table : List Key) (off cnt : Nat → Nat) : List LeafDescriptor :=
  table.mapIdx fun j key => { offset := off j, count := cnt j, firstKey := key }

variable {table : List Key} {off cnt : Nat → Nat}

@[simp] theorem length_descsOf : (descsOf table off cnt).length = table.length := by
  simp [descsOf]

theorem descsOf_get {j : Nat} (h : j < table.length) :
    (descsOf table off cnt)[j]?
      = some { offset := off j, count := cnt j, firstKey := table[j] } := by
  simp [descsOf, h]

theorem descsOf_congr {off' cnt' : Nat → Nat}
    (h : ∀ j < table.length, off j = off' j ∧ cnt j = cnt' j) :
    descsOf table off cnt = descsOf table off' cnt' := by
  unfold descsOf
  refine List.ext_getElem (by simp) fun j h₁ _ => ?_
  have hj : j < table.length := by simpa using h₁
  simp [(h j hj).1, (h j hj).2]

theorem map_eq_descsOf (table : List Key) :
    (table.map fun key => { firstKey := key : LeafDescriptor })
      = descsOf table (fun _ => 0) (fun _ => 0) := by
  unfold descsOf
  exact List.ext_getElem (by simp) fun j _ _ => by simp

/-- 個数を一つ増やす。桁あふれしなければ `cnt` の一点だけが変わる。 -/
theorem modify_descsOf {i : Nat} (h : cnt i + 1 < 2 ^ 32) :
    (descsOf table off cnt).modify i LeafDescriptor.bump
      = descsOf table off (fun j => if i = j then cnt j + 1 else cnt j) := by
  refine List.ext_getElem (by simp) fun j h₁ _ => ?_
  rw [List.getElem_modify]
  by_cases hij : i = j
  · subst hij
    have hm : (cnt i + 1) % 2 ^ 32 = cnt i + 1 := Nat.mod_eq_of_lt h
    simp only [descsOf, List.getElem_mapIdx, LeafDescriptor.bump, hm, if_true]
  · simp [descsOf, hij]

/-- 二回目の loop は、個数の累積を区間の始まりにする。 -/
theorem assignOffsets_descsOf (table : List Key) {g c : Nat → Nat} (off : Nat → Nat)
    (hg : ∀ j < table.length, g (j + 1) = g j + c j)
    (hb : ∀ j ≤ table.length, g j < 2 ^ 64) :
    assignOffsets (g 0) (descsOf table off c) = descsOf table g (fun _ => 0) := by
  induction table generalizing g c off with
  | nil => rfl
  | cons key table ih =>
    have h0 : (g 0 + c 0) % 2 ^ 64 = g 1 := by
      rw [← hg 0 (by simp)]
      exact Nat.mod_eq_of_lt (hb 1 (by simp))
    have ih' := @ih (fun j => g (j + 1)) (fun j => c (j + 1)) (fun j => off (j + 1))
      (fun j hj => hg (j + 1) (by simpa using hj)) (fun j hj => hb (j + 1) (by simpa using hj))
    simp only [descsOf] at ih'
    simp only [descsOf, List.mapIdx_cons, assignOffsets, h0]
    exact congrArg _ ih'

/-! ## 三回の loop -/

section Build

variable (f : KeyPayloadRecord → Nat) {l : List KeyPayloadRecord}

/-- 一回目の loop。`done` まで数えた後の `count` は番号ごとの個数である。 -/
theorem count_loop (off : Nat → Nat) (hl : l.length < 2 ^ 32) :
    (l.map f).foldl (fun descs leaf => descs.modify leaf LeafDescriptor.bump)
        (descsOf table off (fun _ => 0))
      = descsOf table off (fun j => (bucket f l j).length) := by
  induction l using List.reverseRecOn with
  | nil => rfl
  | append_singleton done a ih =>
    rw [List.length_append, List.length_singleton] at hl
    rw [List.map_append, List.foldl_append, ih (by omega)]
    have hb : (bucket f done (f a)).length ≤ done.length := List.length_filter_le _ _
    show (descsOf table off fun j => (bucket f done j).length).modify (f a) _ = _
    rw [modify_descsOf (show (bucket f done (f a)).length + 1 < 2 ^ 32 by omega)]
    refine descsOf_congr fun j _ => ⟨rfl, ?_⟩
    rw [bucket_snoc]
    by_cases hj : f a = j <;> simp [hj]

/-- 三回目の loop の一回分。 -/
theorem fillRecord_step {done : List KeyPayloadRecord} {a : KeyPayloadRecord}
    {snap : EdgeRdmaSnapshot} (hl : l.length < 2 ^ 32) (hf : f a < table.length)
    (hd : snap.descs = descsOf table (offset f l) (fun j => (bucket f done j).length))
    (hr : Filled f l done snap.records) (h : done ++ [a] <+: l) :
    ∃ snap', fillRecord snap (f a) a = some snap' ∧
      snap'.descs = descsOf table (offset f l) (fun j => (bucket f (done ++ [a]) j).length) ∧
      Filled f l (done ++ [a]) snap'.records ∧ snap'.version = snap.version := by
  have hpos := offset_add_lt (f := f) h
  have hmod : (offset f l (f a) + (bucket f done (f a)).length) % 2 ^ 64
      = offset f l (f a) + (bucket f done (f a)).length := Nat.mod_eq_of_lt (by omega)
  refine ⟨{ snap with
      descs := snap.descs.modify (f a) LeafDescriptor.bump
      records := snap.records.set (offset f l (f a) + (bucket f done (f a)).length) a },
    ?_, ?_, hr.step h, rfl⟩
  · unfold fillRecord
    rw [congrArg (·[f a]?) hd, descsOf_get hf, Option.bind_eq_bind, Option.bind_some]
    dsimp only
    rw [hmod, if_pos (by rw [hr.length]; exact hpos)]
  · show snap.descs.modify (f a) LeafDescriptor.bump = _
    rw [hd, modify_descsOf (show (bucket f done (f a)).length + 1 < 2 ^ 32 by omega)]
    refine descsOf_congr fun j _ => ⟨rfl, ?_⟩
    rw [bucket_snoc]
    by_cases hj : f a = j <;> simp [hj]

/-- 三回目の loop。残り `todo` を置き切るまで、範囲の外に触れることはない。 -/
theorem fill_loop {todo done : List KeyPayloadRecord} {snap : EdgeRdmaSnapshot}
    (hl : l.length < 2 ^ 32) (hf : ∀ a ∈ l, f a < table.length) (h : done ++ todo = l)
    (hd : snap.descs = descsOf table (offset f l) (fun j => (bucket f done j).length))
    (hr : Filled f l done snap.records) :
    ∃ snap', ((todo.map f).zip todo).foldlM (fun snap p => fillRecord snap p.1 p.2) snap
        = some snap' ∧
      snap'.descs = descsOf table (offset f l) (fun j => (bucket f l j).length) ∧
      Filled f l l snap'.records ∧ snap'.version = snap.version := by
  induction todo generalizing done snap with
  | nil =>
    rw [List.append_nil] at h
    subst h
    exact ⟨snap, rfl, hd, hr, rfl⟩
  | cons a todo ih =>
    have hpre : done ++ [a] <+: l := ⟨todo, by rw [← h]; simp⟩
    have ha : a ∈ l := by rw [← h]; simp
    obtain ⟨snap₁, h₁, hd₁, hr₁, hv₁⟩ := fillRecord_step f hl (hf a ha) hd hr hpre
    obtain ⟨snap₂, h₂, hd₂, hr₂, hv₂⟩ := ih (by rw [← h]; simp) hd₁ hr₁
    refine ⟨snap₂, ?_, hd₂, hr₂, hv₂.trans hv₁⟩
    rw [List.map_cons, List.zip_cons_cons, List.foldlM_cons]
    dsimp only
    rw [h₁, Option.bind_eq_bind, Option.bind_some, h₂]

end Build

/-- 行の置かれる leaf の番号。 -/
abbrev rowLeaf (table : List Key) (predictPos : Key → Int32) (row : KeyPayloadRecord) : Nat :=
  clampLeaf table.length (predictPos row.key)

/-- `descs` と `records` が番号ごとの区間になっている snapshot。 -/
structure EdgeRdmaSnapshot.Sorted (snap : EdgeRdmaSnapshot) (table : List Key)
    (f : KeyPayloadRecord → Nat) (ds : List KeyPayloadRecord) : Prop where
  descs : snap.descs = descsOf table (offset f ds) (fun j => (bucket f ds j).length)
  filled : Filled f ds ds snap.records
  version : snap.version = kSnapshotVersion

theorem buildRdmaSnapshot_sorted (predictPos : Key → Int32) {ds : List KeyPayloadRecord}
    (ht : table ≠ []) (htl : table.length < 2 ^ 32) (hds : ds ≠ []) (hl : ds.length < 2 ^ 32) :
    ∃ snap, buildRdmaSnapshot table predictPos ds = some snap ∧
      snap.Sorted table (rowLeaf table predictPos) ds := by
  have hpos : 0 < table.length := List.length_pos_iff.mpr ht
  have hlt : ∀ a ∈ ds, rowLeaf table predictPos a < table.length :=
    fun a _ => clampLeaf_lt hpos _
  have hids : (ds.map (rowLeaf table predictPos)).map (· % 2 ^ 32)
      = ds.map (rowLeaf table predictPos) := by
    rw [List.map_map]
    refine List.map_congr_left fun a ha => ?_
    exact Nat.mod_eq_of_lt (Nat.lt_trans (hlt a ha) htl)
  have hoff := assignOffsets_descsOf table (g := offset (rowLeaf table predictPos) ds)
    (c := fun j => (bucket (rowLeaf table predictPos) ds j).length) (fun _ => 0)
    (fun j _ => offset_succ _ ds j)
    (fun j _ => Nat.lt_of_le_of_lt (List.length_filter_le _ _) (by omega))
  obtain ⟨snap, hs, hd, hr, hv⟩ := @fill_loop table (rowLeaf table predictPos) ds ds []
    { descs := descsOf table (offset (rowLeaf table predictPos) ds) (fun _ => 0)
      records := List.replicate ds.length ⟨Key.ofOrd 0, 0⟩ }
    hl hlt rfl rfl
    ⟨List.length_replicate, fun j c hc => absurd hc (Nat.not_lt_zero _)⟩
  refine ⟨snap, ?_, hd, hr, hv⟩
  unfold buildRdmaSnapshot
  rw [if_neg (by simp [ht, hds]), map_eq_descsOf]
  have hcnt := @count_loop table (rowLeaf table predictPos) ds (fun _ => 0) hl
  rw [offset_zero] at hoff
  dsimp only
  rw [hids, hcnt, hoff, hs]

/-! ## 読み出し -/

/-- 二つの配列をそのまま見せる transport。番地が重ならないので、rkey と番地から添字が定まる。 -/
def Transport.loopback (snap : EdgeRdmaSnapshot) (descMem recordMem : RegisteredMemory) :
    Transport where
  supportsRemoteRead := true
  readDesc addr rkey :=
    if rkey = descMem.rkey then snap.descs[(addr - descMem.addr) / sizeofDesc]? else none
  readRecords addr rkey count :=
    let first := (addr - recordMem.addr) / sizeofRecord
    if rkey = recordMem.rkey ∧ first + count ≤ snap.records.length then
      some ((snap.records.drop first).take count)
    else none

theorem Transport.loopback_serves (snap : EdgeRdmaSnapshot) (descMem recordMem : RegisteredMemory)
    (hd : descMem.addr + snap.descs.length * sizeofDesc < 2 ^ 64)
    (hr : recordMem.addr + snap.records.length * sizeofRecord < 2 ^ 64) :
    (loopback snap descMem recordMem).Serves snap descMem recordMem where
  supported := rfl
  desc := by
    intro i d hi
    have hlt := (List.getElem?_eq_some_iff.mp hi).1
    unfold sizeofDesc at hd
    have hidx : ((descMem.addr + i * 24) % 2 ^ 64 - descMem.addr) / 24 = i := by omega
    simp only [loopback, sizeofDesc, if_true, hidx, hi]
  records := by
    intro offset count h
    unfold sizeofRecord at hr
    have hidx : ((recordMem.addr + offset * 16) % 2 ^ 64 - recordMem.addr) / 16 = offset := by
      omega
    simp only [loopback, sizeofRecord, hidx, h, and_self, if_true]

theorem scanRecords_eq (key : Key) (out : Payload) (recs : List KeyPayloadRecord) :
    scanRecords key out recs
      = match recs.find? (fun r => r.key = key) with
        | none => (.miss, out)
        | some r => (.hit, r.payload) := by
  induction recs with
  | nil => rfl
  | cons r recs ih =>
    rw [scanRecords]
    by_cases h : r.key = key
    · simp [h]
    · simp [h, ih]

/-- 見つけた行は、読んだ列の中にある。 -/
theorem mem_of_scanRecords_hit {key : Key} {out : Payload} {recs : List KeyPayloadRecord}
    (h : (scanRecords key out recs).1 = .hit) : ∃ r ∈ recs, r.key = key := by
  rw [scanRecords_eq] at h
  cases hf : recs.find? (fun r => r.key = key) with
  | none => rw [hf] at h; simp at h
  | some r => exact ⟨r, List.mem_of_find?_eq_some hf, by simpa using List.find?_some hf⟩

/-- 番号の同じ行だけを集めても、最初に鍵が一致する行は変わらない。 -/
theorem find_bucket (f : KeyPayloadRecord → Nat) (ds : List KeyPayloadRecord) (key : Key) {j : Nat}
    (hf : ∀ r ∈ ds, r.key = key → f r = j) :
    (bucket f ds j).find? (fun r => r.key = key) = ds.find? (fun r => r.key = key) := by
  unfold bucket
  rw [List.find?_filter]
  induction ds with
  | nil => rfl
  | cons r ds ih =>
    have ih' := ih fun r' hr' => hf r' (List.mem_cons_of_mem _ hr')
    by_cases hk : r.key = key
    · simp [hk, hf r (by simp) hk]
    · simpa [hk] using ih'

section Lookup

variable {predictPos : Key → Int32} {ds : List KeyPayloadRecord} {snap : EdgeRdmaSnapshot}
  {edge : Transport} {descMem recordMem : RegisteredMemory}

/-- 検査に落ちるか、選んだ leaf の行の列を前から見るかのどちらかである。 -/
theorem rdmaSnapshotLookup_eq (ht : table ≠ []) (htl : table.length < 2 ^ 32) (hds : ds ≠ [])
    (hl : ds.length < 2 ^ 32) (hs : snap.Sorted table (rowLeaf table predictPos) ds)
    (he : edge.Serves snap descMem recordMem) (key : Key) {p : Int32} (hp : 0 ≤ p.toInt)
    (out : Payload) :
    rdmaSnapshotLookup edge (.load (makeSnapshotInfo snap descMem recordMem)) key p out
      = if bucket (rowLeaf table predictPos) ds (clampLeaf table.length p) = [] then
          (.unavailable, out)
        else scanRecords key out (bucket (rowLeaf table predictPos) ds
          (clampLeaf table.length p)) := by
  have hpos : 0 < table.length := List.length_pos_iff.mpr ht
  have hlen : snap.descs.length = table.length := by rw [hs.descs, length_descsOf]
  have hcount : (makeSnapshotInfo snap descMem recordMem).leafCount = table.length := by
    show snap.descs.length % 2 ^ 32 = _
    rw [hlen, Nat.mod_eq_of_lt htl]
  have hj := clampLeaf_lt hpos p
  generalize hjdef : clampLeaf table.length p = j at hj ⊢
  have hdesc := @descsOf_get table (offset (rowLeaf table predictPos) ds)
    (fun j => (bucket (rowLeaf table predictPos) ds j).length) j hj
  rw [← hs.descs] at hdesc
  have hend : offset (rowLeaf table predictPos) ds j
      + (bucket (rowLeaf table predictPos) ds j).length ≤ ds.length := by
    rw [← offset_succ]
    exact List.length_filter_le _ _
  have hloaded : (EndRdmaSnapshot.load (makeSnapshotInfo snap descMem recordMem)).loaded = true :=
    decide_eq_true ⟨rfl, hcount ▸ hpos,
      Nat.lt_of_lt_of_eq (List.length_pos_iff.mpr hds) hs.filled.length.symm⟩
  have hmod : (offset (rowLeaf table predictPos) ds j
      + (bucket (rowLeaf table predictPos) ds j).length) % 2 ^ 64 ≤ ds.length := by
    rw [Nat.mod_eq_of_lt (by omega)]
    exact hend
  have hrec := he.records _ _ (hs.filled.length.symm ▸ hend)
  rw [hs.filled.slice] at hrec
  unfold rdmaSnapshotLookup
  simp only [hloaded, he.supported, Bool.not_true, Bool.or_self, Bool.false_eq_true, if_false]
  simp only [EndRdmaSnapshot.load, hcount, lookupLeaf_eq_clampLeaf _ hp, hjdef]
  simp only [makeSnapshotInfo, he.desc _ _ hdesc, hs.version, hs.filled.length, hrec,
    if_neg (Nat.not_lt.mpr hmod)]
  simp [hpos.ne', Int.not_lt.mpr hp]

end Lookup

/-! ## 読んだ行は data set の行である -/

/-- 区間は `records` に収まり、区間の中の行は `ds` の行である。行の個数が `uint32_t` に収まらなくてもよい。 -/
structure EdgeRdmaSnapshot.HoldsRows (snap : EdgeRdmaSnapshot) (ds : List KeyPayloadRecord) :
    Prop where
  version : snap.version = kSnapshotVersion
  length : snap.records.length ≤ ds.length
  start : ∀ d ∈ snap.descs, d.offset < 2 ^ 64
  fits : ∀ d ∈ snap.descs, d.count = 0 ∨ d.offset + d.count ≤ snap.records.length
  rows : ∀ d ∈ snap.descs, ∀ p, d.offset ≤ p → p < d.offset + d.count →
    ∃ r ∈ ds, snap.records[p]? = some r

theorem mem_modify {α : Type} {l : List α} {i : Nat} {f : α → α} {x : α} (h : x ∈ l.modify i f) :
    x ∈ l ∨ ∃ a, l[i]? = some a ∧ x = f a := by
  obtain ⟨j, hj⟩ := List.mem_iff_getElem?.mp h
  rw [List.getElem?_modify] at hj
  obtain ⟨a, ha, hx⟩ := Option.map_eq_some_iff.mp hj
  by_cases hij : i = j
  · subst hij
    rw [if_pos rfl] at hx
    exact Or.inr ⟨a, ha, hx.symm⟩
  · rw [if_neg hij] at hx
    exact Or.inl (hx ▸ List.mem_of_getElem? ha)

/-- 行を一つ置く。 -/
theorem EdgeRdmaSnapshot.HoldsRows.fillRecord {snap snap' : EdgeRdmaSnapshot}
    {ds : List KeyPayloadRecord} (h : snap.HoldsRows ds) (hlen : snap.records.length < 2 ^ 60)
    {leafId : Nat} {row : KeyPayloadRecord} (hrow : row ∈ ds)
    (hf : fillRecord snap leafId row = some snap') :
    snap'.HoldsRows ds ∧ snap'.records.length = snap.records.length := by
  unfold Plin.fillRecord at hf
  obtain ⟨desc, hdesc, hf⟩ := Option.bind_eq_some_iff.mp hf
  dsimp only at hf
  split at hf
  · next hpos =>
    obtain rfl := Option.some.inj hf
    have hmem := List.mem_of_getElem? hdesc
    have hstart := h.start desc hmem
    have hfits := h.fits desc hmem
    have heq : (desc.offset + desc.count) % 2 ^ 64 = desc.offset + desc.count := by omega
    rw [heq] at hpos ⊢
    have hkeep : ∀ p : Nat, (∃ r ∈ ds, snap.records[p]? = some r) →
        ∃ r ∈ ds, (snap.records.set (desc.offset + desc.count) row)[p]? = some r := by
      rintro p ⟨r, hr, hp⟩
      by_cases hpp : desc.offset + desc.count = p
      · subst hpp
        exact ⟨row, hrow, List.getElem?_set_self hpos⟩
      · exact ⟨r, hr, by rw [List.getElem?_set_ne hpp, hp]⟩
    refine ⟨⟨h.version, by rw [List.length_set]; exact h.length, ?_, ?_, ?_⟩, List.length_set⟩
    · intro d hd
      rcases mem_modify hd with hd | ⟨a, ha, rfl⟩
      · exact h.start d hd
      · exact h.start a (List.mem_of_getElem? ha)
    · intro d hd
      rw [List.length_set]
      rcases mem_modify hd with hd | ⟨a, ha, rfl⟩
      · exact h.fits d hd
      · obtain rfl := Option.some.inj (hdesc.symm.trans ha)
        show (desc.count + 1) % 2 ^ 32 = 0 ∨ desc.offset + (desc.count + 1) % 2 ^ 32 ≤ _
        omega
    · intro d hd p hlo hhi
      rcases mem_modify hd with hd | ⟨a, ha, rfl⟩
      · exact hkeep p (h.rows d hd p hlo hhi)
      · obtain rfl := Option.some.inj (hdesc.symm.trans ha)
        change desc.offset ≤ p at hlo
        change p < desc.offset + (desc.count + 1) % 2 ^ 32 at hhi
        by_cases hlast : p = desc.offset + desc.count
        · rw [hlast]
          exact ⟨row, hrow, List.getElem?_set_self hpos⟩
        · exact hkeep p (h.rows desc hmem p hlo (by omega))
  · cases hf

theorem foldlM_fillRecord {ds : List KeyPayloadRecord} {todo : List (Nat × KeyPayloadRecord)} :
    ∀ {snap snap' : EdgeRdmaSnapshot}, snap.HoldsRows ds → snap.records.length < 2 ^ 60 →
      (∀ e ∈ todo, e.2 ∈ ds) →
      todo.foldlM (fun snap p => fillRecord snap p.1 p.2) snap = some snap' →
      snap'.HoldsRows ds ∧ snap'.records.length = snap.records.length := by
  induction todo with
  | nil =>
    intro snap snap' h _ _ hf
    obtain rfl := Option.some.inj hf
    exact ⟨h, rfl⟩
  | cons e todo ih =>
    intro snap snap' h hlen hrows hf
    rw [List.foldlM_cons] at hf
    obtain ⟨mid, hmid, hf⟩ := Option.bind_eq_some_iff.mp hf
    obtain ⟨h1, h2⟩ := h.fillRecord hlen (hrows e (by simp)) hmid
    obtain ⟨h3, h4⟩ := ih h1 (by rw [h2]; exact hlen) (fun d hd => hrows d (by simp [hd])) hf
    exact ⟨h3, h4.trans h2⟩

theorem mem_assignOffsets {d : LeafDescriptor} :
    ∀ {l : List LeafDescriptor} {offset : Nat}, offset < 2 ^ 64 → d ∈ assignOffsets offset l →
      d.offset < 2 ^ 64 ∧ d.count = 0 := by
  intro l
  induction l with
  | nil =>
    intro offset _ h
    cases h
  | cons a l ih =>
    intro offset hlt h
    rcases List.mem_cons.mp h with rfl | h
    · exact ⟨hlt, rfl⟩
    · exact ih (Nat.mod_lt _ (by decide)) h

/-- **どの区間の行も、data set の行である。** -/
theorem buildRdmaSnapshot_holdsRows {table : List Key} {predictPos : Key → Int32}
    {ds : List KeyPayloadRecord} {snap : EdgeRdmaSnapshot} (hlen : ds.length < 2 ^ 60)
    (h : buildRdmaSnapshot table predictPos ds = some snap) : snap.HoldsRows ds := by
  unfold buildRdmaSnapshot at h
  dsimp only at h
  split at h
  · obtain rfl := Option.some.inj h
    refine ⟨rfl, Nat.zero_le _, ?_, ?_, ?_⟩
    · intro d hd
      obtain rfl := List.eq_of_mem_replicate hd
      exact Nat.two_pow_pos 64
    · intro d hd
      obtain rfl := List.eq_of_mem_replicate hd
      exact Or.inl rfl
    · intro d hd p hlo hhi
      obtain rfl := List.eq_of_mem_replicate hd
      exact absurd hhi (not_lt_of_ge hlo)
  · refine (foldlM_fillRecord ⟨rfl, by simp, ?_, ?_, ?_⟩ ?_ ?_ h).1
    · exact fun d hd => (mem_assignOffsets (Nat.two_pow_pos 64) hd).1
    · exact fun d hd => Or.inl (mem_assignOffsets (Nat.two_pow_pos 64) hd).2
    · intro d hd p hlo hhi
      rw [(mem_assignOffsets (Nat.two_pow_pos 64) hd).2] at hhi
      exact absurd hhi (not_lt_of_ge hlo)
    · rw [List.length_replicate]
      exact hlen
    · exact fun e he => (List.of_mem_zip he).2

/-- **どの slot を添えても、HIT が返すのは data set の行の payload である。** -/
theorem rdmaSnapshotLookup_sound {snap : EdgeRdmaSnapshot} {ds : List KeyPayloadRecord}
    (h : snap.HoldsRows ds) {edge : Transport} {descMem recordMem : RegisteredMemory}
    (he : edge.Serves snap descMem recordMem) (key : Key) (slot : Int32) (out : Payload)
    {v : Payload}
    (hhit : rdmaSnapshotLookup edge (.load (makeSnapshotInfo snap descMem recordMem)) key slot out =
      (.hit, v)) : (⟨key, v⟩ : KeyPayloadRecord) ∈ ds := by
  unfold rdmaSnapshotLookup at hhit
  dsimp only at hhit
  split at hhit
  · cases hhit
  · split at hhit
    · cases hhit
    · next hcheck =>
      push Not at hcheck
      set info := (EndRdmaSnapshot.load (makeSnapshotInfo snap descMem recordMem)).info with hinfo
      have hcount : info.leafCount ≤ snap.descs.length := Nat.mod_le _ _
      -- 予測した slot は leaf の数に丸められているので、その descriptor は在る
      have hlt : lookupLeaf info.leafCount slot < snap.descs.length := by
        unfold lookupLeaf
        dsimp only
        split <;> omega
      have hdesc := List.getElem?_eq_getElem hlt
      have hread : edge.readDesc ((info.descAddr + lookupLeaf info.leafCount slot * sizeofDesc) %
          2 ^ 64) info.descRkey = some snap.descs[lookupLeaf info.leafCount slot] :=
        he.desc _ _ hdesc
      rw [hread] at hhit
      dsimp only at hhit
      have hmem := List.getElem_mem hlt
      generalize snap.descs[lookupLeaf info.leafCount slot] = d at hhit hmem
      split at hhit
      · cases hhit
      · next hver =>
        push Not at hver
        split at hhit
        · cases hhit
        · have hfits := (h.fits d hmem).resolve_left hver.2
          have hrec : edge.readRecords ((info.recordAddr + d.offset * sizeofRecord) % 2 ^ 64)
              info.recordRkey d.count = some ((snap.records.drop d.offset).take d.count) :=
            he.records _ _ hfits
          rw [hrec] at hhit
          dsimp only at hhit
          rw [scanRecords_eq] at hhit
          split at hhit
          · cases hhit
          · next r hfind =>
            obtain ⟨-, rfl⟩ := Prod.mk.inj hhit
            have hkey : r.key = key := by simpa using List.find?_some hfind
            obtain ⟨i, hi⟩ := List.mem_iff_getElem?.mp (List.mem_of_find?_eq_some hfind)
            have hil : i < d.count := by
              have := (List.getElem?_eq_some_iff.mp hi).1
              rw [List.length_take] at this
              omega
            rw [List.getElem?_take_of_lt hil, List.getElem?_drop] at hi
            obtain ⟨r', hr', hp⟩ := h.rows d hmem (d.offset + i) (by omega) (by omega)
            obtain rfl := Option.some.inj (hp.symm.trans hi)
            rw [← hkey]
            exact hr'

/-! ## 主定理 -/

/-- `descs` の指す区間は 0 から始まり、隙間なく続いて `records` の終わりで終わる。 -/
structure EdgeRdmaSnapshot.Partition (snap : EdgeRdmaSnapshot) : Prop where
  first : ∀ d, snap.descs[0]? = some d → d.offset = 0
  next : ∀ j d e, snap.descs[j]? = some d → snap.descs[j + 1]? = some e →
    d.offset + d.count = e.offset
  last : ∀ d, snap.descs.getLast? = some d → d.offset + d.count = snap.records.length

theorem EdgeRdmaSnapshot.Sorted.partition {snap : EdgeRdmaSnapshot}
    {f : KeyPayloadRecord → Nat} {ds : List KeyPayloadRecord} (hs : snap.Sorted table f ds)
    (hf : ∀ a ∈ ds, f a < table.length) : snap.Partition := by
  have get : ∀ j d, snap.descs[j]? = some d → j < table.length ∧
      d.offset = offset f ds j ∧ d.count = (bucket f ds j).length := by
    intro j d h
    rw [hs.descs] at h
    have hj : j < table.length := by
      have := (List.getElem?_eq_some_iff.mp h).1
      rwa [length_descsOf] at this
    rw [descsOf_get hj] at h
    obtain rfl := Option.some.inj h
    exact ⟨hj, rfl, rfl⟩
  refine ⟨fun d h => ?_, fun j d e h₁ h₂ => ?_, fun d h => ?_⟩
  · rw [(get 0 d h).2.1, offset_zero]
  · obtain ⟨-, h1, h2⟩ := get j d h₁
    obtain ⟨-, h3, -⟩ := get (j + 1) e h₂
    rw [h1, h2, h3, offset_succ]
  · rw [List.getLast?_eq_getElem?] at h
    obtain ⟨hj, h1, h2⟩ := get _ d h
    have hlen : snap.descs.length - 1 + 1 = table.length := by
      have : snap.descs.length = table.length := by rw [hs.descs, length_descsOf]
      omega
    rw [h1, h2, ← offset_succ, hlen, offset_eq_length f hf, hs.filled.length]

/--
**RDMA snapshot の読み出しは、予測の良し悪しによらず正確である。**

空でない `local_table` と data set に対し、`buildRdmaSnapshot` は範囲の外に触れずに終わる。
区間は `records` を隙間なく分け、`records` は data set の並べ替えである。予測が非負の鍵なら
data set の最初の行の payload が HIT で返り、data set に無い鍵が HIT になることはない。
-/
theorem rdmaSnapshotLookup_exact (table : List Key) (predictPos : Key → Int32)
    (ds : List KeyPayloadRecord) (ht : table ≠ []) (htl : table.length < 2 ^ 32)
    (hds : ds ≠ []) (hl : ds.length < 2 ^ 32) :
    ∃ snap, buildRdmaSnapshot table predictPos ds = some snap ∧
      snap.descs.length = table.length ∧ snap.Partition ∧ snap.records.Perm ds ∧
      ∀ (edge : Transport) (descMem recordMem : RegisteredMemory) (out : Payload),
        edge.Serves snap descMem recordMem →
        (∀ key row, ds.find? (fun r => r.key = key) = some row → 0 ≤ (predictPos key).toInt →
          rdmaSnapshotLookup edge (.load (makeSnapshotInfo snap descMem recordMem)) key
            (predictPos key) out = (.hit, row.payload)) ∧
        ∀ key, (∀ row ∈ ds, row.key ≠ key) →
          (rdmaSnapshotLookup edge (.load (makeSnapshotInfo snap descMem recordMem)) key
            (predictPos key) out).1 ≠ .hit := by
  have hpos : 0 < table.length := List.length_pos_iff.mpr ht
  have hlt : ∀ a ∈ ds, rowLeaf table predictPos a < table.length :=
    fun a _ => clampLeaf_lt hpos _
  obtain ⟨snap, hb, hs⟩ := buildRdmaSnapshot_sorted predictPos ht htl hds hl
  refine ⟨snap, hb, by rw [hs.descs, length_descsOf], hs.partition hlt, hs.filled.perm hlt, ?_⟩
  intro edge descMem recordMem out he
  constructor
  · intro key row hrow hp
    rw [rdmaSnapshotLookup_eq ht htl hds hl hs he key hp out]
    -- 鍵の等しい行はどれも、End の選ぶ leaf に置かれている
    have hfind := find_bucket (rowLeaf table predictPos) ds key
      (j := clampLeaf table.length (predictPos key)) (fun r _ hk => by rw [rowLeaf, hk])
    rw [if_neg, scanRecords_eq, hfind, hrow]
    intro hnil
    rw [hnil, hrow] at hfind
    simp at hfind
  · intro key habs
    by_cases hp : 0 ≤ (predictPos key).toInt
    · rw [rdmaSnapshotLookup_eq ht htl hds hl hs he key hp out]
      split
      · simp
      · intro hhit
        obtain ⟨r, hr, hk⟩ := mem_of_scanRecords_hit hhit
        exact habs r (List.mem_of_mem_filter hr) hk
    · -- 負の予測では読み出しをしない
      unfold rdmaSnapshotLookup
      dsimp only
      split
      · simp
      · rw [if_pos (Or.inr (Or.inr (Int.not_le.mp hp)))]
        simp

/-- 鍵の重複する三行を二つの leaf に分け、最初の行を引き当てる。 -/
theorem rdmaSnapshotLookup_duplicate :
    ∃ snap, buildRdmaSnapshot [Key.ofNat 0, Key.ofNat 5] (fun k => if k = Key.ofNat 5 then 9 else 0)
        [⟨Key.ofNat 5, 1⟩, ⟨Key.ofNat 3, 2⟩, ⟨Key.ofNat 5, 3⟩] = some snap ∧
      rdmaSnapshotLookup (.loopback snap ⟨4096, 1⟩ ⟨8192, 2⟩)
        (.load (makeSnapshotInfo snap ⟨4096, 1⟩ ⟨8192, 2⟩)) (Key.ofNat 5) 9 0 = (.hit, 1) := by
  obtain ⟨snap, hb, hlen, -, hperm, hlook⟩ :=
    rdmaSnapshotLookup_exact [Key.ofNat 0, Key.ofNat 5] (fun k => if k = Key.ofNat 5 then 9 else 0)
      [⟨Key.ofNat 5, 1⟩, ⟨Key.ofNat 3, 2⟩, ⟨Key.ofNat 5, 3⟩] (by decide) (by decide) (by decide)
      (by decide)
  have hserves := Transport.loopback_serves snap ⟨4096, 1⟩ ⟨8192, 2⟩ (by rw [hlen]; decide)
    (by rw [hperm.length_eq]; decide)
  exact ⟨snap, hb, (hlook _ _ _ 0 hserves).1 (Key.ofNat 5) ⟨Key.ofNat 5, 1⟩
    (by decide +kernel) (by decide +kernel)⟩

end Plin
