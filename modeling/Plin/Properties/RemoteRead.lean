import Plin.End.RdmaLookup

/-!
# 遠隔読み出しの番地

descriptor は遠隔の記憶にあるので、`offset` と `count` は信用できない。検査 `offset + count > record_count` の
和は `uint64_t` で計算されるので、`offset` が `2 ^ 64` に近いと折り返して通ってしまい、行の領域の手前を読む。
**読み出しが領域に収まるのは、検査を通った descriptor の和が折り返さないときに限る**
（`rdmaReads_inside_iff`）。
-/

namespace Plin

/-- 読み出しが `base` から `size` byte の領域に収まる。 -/
def RemoteRead.Inside (base size : Nat) (r : RemoteRead) : Prop :=
  base ≤ r.addr ∧ r.addr + r.size ≤ base + size

/-! ## `read_remote` -/

/-- 領域が折り返さなければ、分けた読み出しはどれも領域に収まる。 -/
theorem readRemote_inside {addr size : Nat} (h : addr + size ≤ 2 ^ 64) :
    ∀ done, ∀ r ∈ readRemote addr size done, r.Inside addr size := by
  intro done
  fun_induction readRemote addr size done with
  | case1 done hlt _ ih =>
    intro r hr
    rcases List.mem_cons.mp hr with rfl | hr
    · have hmod : (addr + done) % 2 ^ 64 = addr + done := Nat.mod_eq_of_lt (by omega)
      constructor
      · show addr ≤ (addr + done) % 2 ^ 64
        omega
      · show (addr + done) % 2 ^ 64 + min kMaxFrameBytes (size - done) ≤ addr + size
        omega
    · exact ih r hr
  | case2 done hge =>
    intro r hr
    cases hr

/-- どの byte も、分けた読み出しのどれかに入る。 -/
theorem exists_readRemote (addr size : Nat) :
    ∀ done, ∀ j, done ≤ j → j < size → ∃ r ∈ readRemote addr size done, ∃ start,
      start ≤ j ∧ j < start + r.size ∧ r.addr = (addr + start) % 2 ^ 64 := by
  intro done
  fun_induction readRemote addr size done with
  | case1 done hlt _ ih =>
    intro j hj hjs
    by_cases hmore : done + min kMaxFrameBytes (size - done) ≤ j
    · obtain ⟨r, hr, hrest⟩ := ih j hmore hjs
      exact ⟨r, List.mem_cons_of_mem _ hr, hrest⟩
    · exact ⟨_, List.mem_cons_self, done, hj, not_le.mp hmore, rfl⟩
  | case2 done hge =>
    intro j hj hjs
    omega

/-! ## `rdma_snapshot_lookup` -/

/-- descriptor の読み出しは descriptor の領域に、行の読み出しは行の領域に収まる。 -/
def ReadsInside (edge : Transport) (snapshot : EndRdmaSnapshot) (predictedSlot : Int32) : Prop :=
  (∀ r ∈ rdmaDescReads edge snapshot predictedSlot,
    r.Inside snapshot.info.descAddr (snapshot.info.leafCount * sizeofDesc)) ∧
  ∀ r ∈ rdmaRecordReads edge snapshot predictedSlot,
    r.Inside snapshot.info.recordAddr (snapshot.info.recordCount * sizeofRecord)

/-- 検査を通った descriptor の `offset + count` は折り返さない。 -/
def DescriptorFits (edge : Transport) (snapshot : EndRdmaSnapshot) (predictedSlot : Int32) :
    Prop :=
  rdmaLookupReady edge snapshot predictedSlot → ∀ desc : LeafDescriptor,
    edge.readDesc (rdmaDescAddr snapshot.info predictedSlot) snapshot.info.descRkey = some desc →
      desc.Accepted snapshot.info → desc.offset + desc.count < 2 ^ 64

variable {edge : Transport} {snapshot : EndRdmaSnapshot} {predictedSlot : Int32}

/-- どの読み出しも、二つの領域のどちらかに収まる。 -/
theorem ReadsInside.either (h : ReadsInside edge snapshot predictedSlot) :
    ∀ r ∈ rdmaDescReads edge snapshot predictedSlot ++ rdmaRecordReads edge snapshot predictedSlot,
      r.Inside snapshot.info.descAddr (snapshot.info.leafCount * sizeofDesc) ∨
        r.Inside snapshot.info.recordAddr (snapshot.info.recordCount * sizeofRecord) := by
  intro r hr
  rcases List.mem_append.mp hr with hr | hr
  · exact .inl (h.1 r hr)
  · exact .inr (h.2 r hr)

theorem lookupLeaf_lt {leafCount : Nat} (h : leafCount ≠ 0) (predictedSlot : Int32) :
    lookupLeaf leafCount predictedSlot < leafCount := by
  unfold lookupLeaf
  dsimp only
  split <;> omega

/-- 番号は leaf の数に抑えられるので、descriptor の読み出しはいつでも領域に収まる。 -/
theorem rdmaDescReads_inside
    (h : snapshot.info.descAddr + snapshot.info.leafCount * sizeofDesc < 2 ^ 64) :
    ∀ r ∈ rdmaDescReads edge snapshot predictedSlot,
      r.Inside snapshot.info.descAddr (snapshot.info.leafCount * sizeofDesc) := by
  intro r hr
  unfold rdmaDescReads at hr
  split at hr
  · next hready =>
    have hlt := lookupLeaf_lt hready.2.2.2.1 predictedSlot
    have hmul : lookupLeaf snapshot.info.leafCount predictedSlot * sizeofDesc + sizeofDesc ≤
        snapshot.info.leafCount * sizeofDesc := by
      rw [← Nat.succ_mul]
      exact Nat.mul_le_mul_right _ hlt
    have haddr : rdmaDescAddr snapshot.info predictedSlot =
        snapshot.info.descAddr + lookupLeaf snapshot.info.leafCount predictedSlot * sizeofDesc :=
      Nat.mod_eq_of_lt (by omega)
    rw [haddr] at hr
    obtain ⟨hlow, hhigh⟩ := readRemote_inside (by omega) 0 r hr
    constructor <;> omega
  · cases hr

/-- 折り返した和で検査を通った読み出しには、行の領域の外に出るものがある。 -/
theorem exists_outside {base count offset records : Nat} (hbase : base + records * 16 < 2 ^ 64)
    (hcount : count < 2 ^ 32) (hoffset : offset < 2 ^ 64) (hwrap : 2 ^ 64 ≤ offset + count) :
    ∃ r ∈ readRemote ((base + offset * 16) % 2 ^ 64) (count * 16) 0, ¬ r.Inside base
      (records * 16) := by
  -- 先頭は `base` の `16 * (2 ^ 64 - offset)` byte 手前である
  obtain ⟨d, hd⟩ : ∃ d, offset + d = 2 ^ 64 := ⟨2 ^ 64 - offset, by omega⟩
  by_cases hbelow : 16 * d ≤ base
  · have haddr : (base + offset * 16) % 2 ^ 64 = base - 16 * d := by
      rw [show base + offset * 16 = base - 16 * d + 2 ^ 64 * 16 by omega, Nat.add_mul_mod_self_left]
      exact Nat.mod_eq_of_lt (by omega)
    obtain ⟨r, hr, start, hstart, -, hra⟩ :=
      exists_readRemote ((base + offset * 16) % 2 ^ 64) (count * 16) 0 0 le_rfl (by omega)
    refine ⟨r, hr, fun hin => ?_⟩
    have hlow := hin.1
    obtain rfl : start = 0 := by omega
    rw [hra, haddr, Nat.mod_eq_of_lt (by omega)] at hlow
    omega
  · -- 番地の上の端に回り込むので、領域の終わりの次の byte も読む
    have haddr : (base + offset * 16) % 2 ^ 64 = base + 2 ^ 64 - 16 * d := by
      rw [show base + offset * 16 = base + 2 ^ 64 - 16 * d + 2 ^ 64 * 15 by omega,
        Nat.add_mul_mod_self_left]
      exact Nat.mod_eq_of_lt (by omega)
    rw [haddr]
    obtain ⟨r, hr, start, hstart, hlt, hra⟩ :=
      exists_readRemote (base + 2 ^ 64 - 16 * d) (count * 16) 0
        (base + records * 16 - (base + 2 ^ 64 - 16 * d)) (Nat.zero_le _) (by omega)
    refine ⟨r, hr, fun hin => ?_⟩
    have hhigh := hin.2
    rw [hra, Nat.mod_eq_of_lt (by omega)] at hhigh
    omega

/-- 折り返さなければ、検査は行の領域の中だけを許す。 -/
theorem rdmaRecordReads_inside
    (hrecord : snapshot.info.recordAddr + snapshot.info.recordCount * sizeofRecord < 2 ^ 64)
    (h : DescriptorFits edge snapshot predictedSlot) :
    ∀ r ∈ rdmaRecordReads edge snapshot predictedSlot,
      r.Inside snapshot.info.recordAddr (snapshot.info.recordCount * sizeofRecord) := by
  intro r hr
  unfold rdmaRecordReads at hr
  split at hr
  · next hready =>
    split at hr
    · cases hr
    · next desc hread =>
      split at hr
      · next hok =>
        have hfits := h hready desc hread hok
        have hsum : desc.offset + desc.count ≤ snapshot.info.recordCount := by
          rw [← Nat.mod_eq_of_lt hfits]
          exact hok.2.2
        have hmul : desc.offset * sizeofRecord + desc.count * sizeofRecord ≤
            snapshot.info.recordCount * sizeofRecord := by
          rw [← Nat.add_mul]
          exact Nat.mul_le_mul_right _ hsum
        rw [Nat.mod_eq_of_lt (by omega)] at hr
        obtain ⟨hlow, hhigh⟩ := readRemote_inside (by omega) 0 r hr
        constructor <;> omega
      · cases hr
  · cases hr

/-- 行の読み出しが領域に収まるなら、和は折り返していない。 -/
theorem descriptorFits_of_inside
    (htyped : ∀ addr rkey desc, edge.readDesc addr rkey = some desc →
      desc.offset < 2 ^ 64 ∧ desc.count < 2 ^ 32)
    (hrecord : snapshot.info.recordAddr + snapshot.info.recordCount * sizeofRecord < 2 ^ 64)
    (hin : ∀ r ∈ rdmaRecordReads edge snapshot predictedSlot,
      r.Inside snapshot.info.recordAddr (snapshot.info.recordCount * sizeofRecord)) :
    DescriptorFits edge snapshot predictedSlot := by
  intro hready desc hread hok
  by_contra hc
  obtain ⟨hoffset, hcount⟩ := htyped _ _ _ hread
  obtain ⟨r, hr, hout⟩ := exists_outside hrecord hcount hoffset (not_lt.mp hc)
  refine hout (hin r ?_)
  rw [rdmaRecordReads, if_pos hready, hread]
  dsimp only
  rw [if_pos hok]
  exact hr

/--
**読み出しが登録された領域に収まるのは、検査を通った descriptor の `offset + count` が折り返さないとき、
またそのときに限る。** descriptor の中身には、型の範囲の他に何も仮定しない。
-/
theorem rdmaReads_inside_iff (edge : Transport) (snapshot : EndRdmaSnapshot)
    (predictedSlot : Int32)
    (htyped : ∀ addr rkey desc, edge.readDesc addr rkey = some desc →
      desc.offset < 2 ^ 64 ∧ desc.count < 2 ^ 32)
    (hdesc : snapshot.info.descAddr + snapshot.info.leafCount * sizeofDesc < 2 ^ 64)
    (hrecord : snapshot.info.recordAddr + snapshot.info.recordCount * sizeofRecord < 2 ^ 64) :
    (ReadsInside edge snapshot predictedSlot ↔ DescriptorFits edge snapshot predictedSlot) ∧
      (DescriptorFits edge snapshot predictedSlot →
        ∀ r ∈ rdmaDescReads edge snapshot predictedSlot ++
            rdmaRecordReads edge snapshot predictedSlot,
          r.Inside snapshot.info.descAddr (snapshot.info.leafCount * sizeofDesc) ∨
            r.Inside snapshot.info.recordAddr (snapshot.info.recordCount * sizeofRecord)) := by
  constructor
  · constructor
    · rintro ⟨-, hin⟩
      exact descriptorFits_of_inside htyped hrecord hin
    · intro h
      exact ⟨rdmaDescReads_inside hdesc, rdmaRecordReads_inside hrecord h⟩
  · intro h
    exact ReadsInside.either ⟨rdmaDescReads_inside hdesc, rdmaRecordReads_inside hrecord h⟩

/-- 二枚の leaf と十行の snapshot。どの番地を読んでも `desc` が返る。 -/
def tinyTransport (desc : LeafDescriptor) : Transport where
  supportsRemoteRead := true
  readDesc _ _ := some desc
  readRecords _ _ _ := none

def tinySnapshot : EndRdmaSnapshot where
  info := { descAddr := 8192, leafCount := 2, recordAddr := 4096, recordCount := 10 }
  loaded := true

/-- 行の領域の中を指す descriptor では、読み出しは領域に収まる。 -/
theorem rdmaReads_inside_iff_tiny :
    ReadsInside (tinyTransport { offset := 3, count := 2, firstKey := Key.ofNat 0 }) tinySnapshot
      0 := by
  refine (rdmaReads_inside_iff _ tinySnapshot 0 ?_ (by decide) (by decide)).1.mpr ?_
  · rintro addr rkey desc ⟨⟩
    decide
  · rintro - desc ⟨⟩ -
    decide

/-- `offset` が `2 ^ 64 - 1` の descriptor は検査を通り、どちらの領域にもない番地を読む。 -/
theorem rdmaReads_wrapped :
    let edge := tinyTransport { offset := 2 ^ 64 - 1, count := 2, firstKey := Key.ofNat 0 }
    ¬ ∀ r ∈ rdmaDescReads edge tinySnapshot 0 ++ rdmaRecordReads edge tinySnapshot 0,
      r.Inside tinySnapshot.info.descAddr (tinySnapshot.info.leafCount * sizeofDesc) ∨
        r.Inside tinySnapshot.info.recordAddr (tinySnapshot.info.recordCount * sizeofRecord) := by
  intro edge h
  have hread : (⟨4080, 32⟩ : RemoteRead) ∈ rdmaRecordReads edge tinySnapshot 0 := by
    have hready : rdmaLookupReady edge tinySnapshot 0 := by decide
    rw [rdmaRecordReads, if_pos hready]
    show _ ∈ if _ then _ else _
    rw [if_pos (by decide)]
    show _ ∈ readRemote 4080 32 0
    rw [readRemote, dif_pos (by decide)]
    exact List.mem_cons_self
  rcases h _ (List.mem_append_right _ hread) with hin | hin
  · exact absurd hin.1 (by decide)
  · exact absurd hin.1 (by decide)

end Plin
