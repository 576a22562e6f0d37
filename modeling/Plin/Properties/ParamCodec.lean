import Plin.End.ParentPlinCache
import Plin.Index.Key

/-!
# parameter の往復と、壊れた push

100 段までの表は書いた byte 列から読み戻せ、読むのはちょうどその byte だけである。したがって空でない
表なら End の予測は Edge の予測と同じになる（`param_codec`）。空の表では End は読み込みの前と見なして
-1 を返す。100 段を超えると例外になり、手元の表は変わらない。

壊れた本文は拒まれないことがある。stream の失敗は例外にならず、足りない byte は 0 か不定の値になって
表に入る。**表が替わるか元のままかのどちらかに決まるのは、本文が表を書いたものそのものか、読んだ長さが
大きすぎて例外になるときに限る**（`loadFromPush_atomic_iff`）。
-/

namespace Plin

open Infra

theorem ofLeBytes_append (a b : Bytes) :
    ofLeBytes (a ++ b) = ofLeBytes a + 256 ^ a.length * ofLeBytes b := by
  induction a with
  | nil => simp [ofLeBytes]
  | cons x a ih =>
    rw [List.cons_append, ofLeBytes, ofLeBytes, ih, List.length_cons, pow_succ]
    ring

/-! ## 足りている stream -/

namespace IStream

/-- 8 byte が揃っていれば、元の値によらずそのまま読める。 -/
theorem readWord_leBytes (old n : Nat) (rest : Bytes) :
    readWord old ⟨leBytes 8 n ++ rest, false⟩ = (n % 2 ^ 64, ⟨rest, false⟩) := by
  have hlen : 8 ≤ (leBytes 8 n ++ rest).length := by simp
  have htake : (leBytes 8 n ++ rest).take 8 = leBytes 8 n := List.take_left' (length_leBytes 8 n)
  have hdrop : (leBytes 8 n ++ rest).drop 8 = rest := List.drop_left' (length_leBytes 8 n)
  rw [readWord, if_neg (by simp), if_pos hlen]
  simp only [htake, hdrop, ofLeBytes_leBytes]
  norm_num

theorem readField_leBytes (w : UInt64) (rest : Bytes) :
    readField ⟨leBytes 8 w.toNat ++ rest, false⟩ = (w, ⟨rest, false⟩) := by
  rw [readField, readWord_leBytes, Nat.mod_eq_of_lt w.toNat_lt]
  simp

end IStream

theorem ParamBits.deserialize_serialize (p : ParamBits) (rest : Bytes) :
    ParamBits.deserialize ⟨p.serialize ++ rest, false⟩ = (p, ⟨rest, false⟩) := by
  simp only [serialize, List.append_assoc, deserialize, IStream.readField_leBytes]

theorem deserializeParams_flatMap (vec : List ParamBits) (rest : Bytes) :
    deserializeParams vec.length ⟨vec.flatMap ParamBits.serialize ++ rest, false⟩ =
      (vec, ⟨rest, false⟩) := by
  induction vec with
  | nil => rfl
  | cons p vec ih =>
    rw [List.flatMap_cons, List.append_assoc, List.length_cons, deserializeParams,
      ParamBits.deserialize_serialize]
    dsimp only
    rw [ih]

namespace Memory

/-- `resize` できる長さは `size_t` に収まる。 -/
theorem lt_of_le_capacity (mem : Memory) {n : Nat} (h : n ≤ mem.capacity) : n < 2 ^ 64 := by
  have := mem.bounded
  omega

end Memory

section

variable {mem : Memory} (garbage : Nat → UInt64)

theorem deserializeVectorOfParams_serialize {vec : List ParamBits}
    (hvec : vec.length ≤ mem.capacity) (call : Nat) (rest : Bytes) :
    deserializeVectorOfParams mem garbage call ⟨serializeVectorOfParams vec ++ rest, false⟩ =
      .ok (vec, ⟨rest, false⟩) := by
  rw [serializeVectorOfParams, List.append_assoc, deserializeVectorOfParams,
    IStream.readWord_leBytes, Nat.mod_eq_of_lt (mem.lt_of_le_capacity hvec)]
  dsimp only
  rw [if_neg (by omega), deserializeParams_flatMap]

/-- 揃っている段は順に読まれる。 -/
theorem deserializeLevels_append {levels : ParamTable}
    (hlevels : ∀ vec ∈ levels, vec.length ≤ mem.capacity) (n call : Nat) (rest : Bytes) :
    deserializeLevels mem garbage (levels.length + n) call
        ⟨levels.flatMap serializeVectorOfParams ++ rest, false⟩ =
      (deserializeLevels mem garbage n (call + levels.length) ⟨rest, false⟩).map
        fun r => (levels ++ r.1, r.2) := by
  induction levels generalizing call with
  | nil =>
    rw [List.length_nil, Nat.zero_add, Nat.add_zero, List.flatMap_nil, List.nil_append]
    cases deserializeLevels mem garbage n call ⟨rest, false⟩ <;> rfl
  | cons vec levels ih =>
    obtain ⟨hvec, hrest⟩ := List.forall_mem_cons.mp hlevels
    rw [List.length_cons, Nat.add_right_comm, deserializeLevels, List.flatMap_cons,
      List.append_assoc, deserializeVectorOfParams_serialize garbage hvec]
    show (do
      let r ← deserializeLevels mem garbage (levels.length + n) (call + 1)
        ⟨levels.flatMap serializeVectorOfParams ++ rest, false⟩
      return (vec :: r.1, r.2)) = _
    rw [ih hrest, Nat.add_assoc call 1, Nat.add_comm 1]
    cases deserializeLevels mem garbage n (call + (levels.length + 1)) ⟨rest, false⟩ <;> rfl

/-- **100 段までの表は、書いた byte 列から読み戻せる。** -/
theorem deserializeParameter_serialize {table : ParamTable} (h100 : table.length ≤ 100)
    (hlevels : ∀ vec ∈ table, vec.length ≤ mem.capacity) (suffix : Bytes) :
    deserializeParameter mem garbage ⟨serializeParameter table ++ suffix, false⟩ =
      .ok (table, ⟨suffix, false⟩) := by
  rw [serializeParameter, List.append_assoc, deserializeParameter, IStream.readWord_leBytes,
    Nat.mod_eq_of_lt (by omega)]
  dsimp only
  have h := deserializeLevels_append garbage hlevels 0 1 suffix
  rw [Nat.add_zero] at h
  rw [if_neg (by omega), h, deserializeLevels]
  simp [Except.map]

theorem deserializeParameter_outerSize {table : ParamTable} (h100 : 100 < table.length)
    (hsize : table.length < 2 ^ 64) (suffix : Bytes) :
    deserializeParameter mem garbage ⟨serializeParameter table ++ suffix, false⟩ =
      .error .outerSize := by
  rw [serializeParameter, List.append_assoc, deserializeParameter, IStream.readWord_leBytes,
    Nat.mod_eq_of_lt hsize]
  dsimp only
  rw [if_pos h100]

end

/-- **100 段までの表は読み戻せて、空でなければ End の予測は Edge と同じになる。** 空の表では -1 を返す。
100 段を超えると例外になり、手元の表は変わらない。 -/
theorem param_codec (mem : Memory) (garbage : Nat → UInt64) (table : ParamTable)
    (hsize : table.length < 2 ^ 64) (hlevels : ∀ vec ∈ table, vec.length ≤ mem.capacity)
    (cache : ParentPlinCache) :
    (table.length ≤ 100 →
      (∀ suffix, deserializeParameter mem garbage ⟨serializeParameter table ++ suffix, false⟩ =
        .ok (table, ⟨suffix, false⟩)) ∧
      cache.loadFromPush mem garbage (makeParamPush table).body = (none, ⟨table⟩) ∧
      ∀ (_ : DoubleBits) (key : UInt64),
        (cache.loadFromPush mem garbage (makeParamPush table).body).2.predictPos key =
          if table = [] then some (-1) else LocalModel.predictPos table key) ∧
    (100 < table.length →
      (∀ suffix, deserializeParameter mem garbage ⟨serializeParameter table ++ suffix, false⟩ =
        .error .outerSize) ∧
      cache.loadFromPush mem garbage (makeParamPush table).body = (some .outerSize, cache)) := by
  constructor
  · intro h100
    have hread := deserializeParameter_serialize garbage h100 hlevels
    have hload : cache.loadFromPush mem garbage (makeParamPush table).body = (none, ⟨table⟩) := by
      have h := hread []
      rw [List.append_nil] at h
      rw [ParentPlinCache.loadFromPush, makeParamPush]
      dsimp only
      rw [h]
    refine ⟨hread, hload, fun _ key => ?_⟩
    rw [hload]
    rfl
  · intro h100
    have hread := @deserializeParameter_outerSize mem garbage table h100 hsize
    refine ⟨hread, ?_⟩
    have h := hread []
    rw [List.append_nil] at h
    rw [ParentPlinCache.loadFromPush, makeParamPush]
    dsimp only
    rw [h]

/-- 千個までの列が作れる記憶。 -/
def smallMemory : Memory := ⟨1000, by decide⟩

theorem param_codec_one :
    (ParentPlinCache.mk []).loadFromPush smallMemory (fun _ => 7)
        (makeParamPush [[⟨1, 2, 3, 4⟩]]).body = (none, ⟨[[⟨1, 2, 3, 4⟩]]⟩) :=
  ((param_codec smallMemory (fun _ => 7) [[⟨1, 2, 3, 4⟩]] (by decide) (by decide) ⟨[]⟩).1
    (by decide)).2.1

/-- `double` の値を 0 の方向に切り捨てる。 -/
def truncBits (b : UInt64) : Int :=
  match Key.ofBits b.toNat with
  | some k => k.toUnits.tdiv (2 ^ 1074)
  | none => 0

/-- host の `double` の演算。 -/
instance hostDouble : DoubleBits where
  mul a b := (Float.ofBits a * Float.ofBits b).toBits
  add a b := (Float.ofBits a + Float.ofBits b).toBits
  div a b := (Float.ofBits a / Float.ofBits b).toBits
  ge a b := decide (Float.ofBits b ≤ Float.ofBits a)
  half := Float.toBits 0.5
  ofNat n := (Float.ofNat n).toBits
  toFloat a := (Float.ofBits a).toFloat32.toFloat.toBits
  toInt64 := truncBits
  toInt32 a := Int32.ofInt (truncBits a)

/-- 空の表では、Edge は鍵 5.0 から 5 を出すが、End は -1 を返す。 -/
theorem predictPos_empty_differs :
    ((ParentPlinCache.mk []).loadFromPush smallMemory (fun _ => 0)
      (makeParamPush []).body).2.predictPos (Float.toBits 5) ≠
        LocalModel.predictPos [] (Float.toBits 5) := by
  decide +kernel

/-! ## 壊れた push -/

/-- 表が本文のとおりに替わるか、例外を投げて元のままである。 -/
def LoadAtomic (mem : Memory) (garbage : Nat → UInt64) (cache : ParentPlinCache) (data : Bytes) :
    Prop :=
  (∃ table, cache.loadFromPush mem garbage data = (none, ⟨table⟩) ∧
    serializeParameter table = data) ∨
  ∃ e, cache.loadFromPush mem garbage data = (some e, cache)

/-- 揃った段の後の長さが大きすぎて、`resize` が必ず例外を投げる本文。足りない byte は 0 と読む。 -/
def Oversized (mem : Memory) (data : Bytes) : Prop :=
  ∃ (n : Nat) (levels : ParamTable) (tail : Bytes), n ≤ 100 ∧ levels.length < n ∧
    (∀ vec ∈ levels, vec.length ≤ mem.capacity) ∧ mem.capacity < ofLeBytes (tail.take 8) ∧
    data = leBytes 8 n ++ levels.flatMap serializeVectorOfParams ++ tail

/-- 表を書いたものそのものか、読んだ長さが必ず例外になる本文。 -/
def Decisive (mem : Memory) (data : Bytes) : Prop :=
  (∃ table : ParamTable, table.length ≤ 100 ∧ (∀ vec ∈ table, vec.length ≤ mem.capacity) ∧
    data = serializeParameter table) ∨
  100 < ofLeBytes (data.take 8) ∨ Oversized mem data

/-- 不定の値は、読めた byte より上の桁にしか入らない。 -/
theorem IStream.le_readWord (old : Nat) (bytes : Bytes) :
    ofLeBytes (bytes.take 8) ≤ (readWord old ⟨bytes, false⟩).1 := by
  rw [readWord, if_neg (by simp)]
  split
  · exact le_refl _
  · next hlt =>
    rw [List.take_of_length_le (by simp at hlt; omega), ofLeBytes_append]
    exact Nat.le_add_right _ _

theorem Oversized.error {mem : Memory} {data : Bytes} (h : Oversized mem data)
    (garbage : Nat → UInt64) :
    deserializeParameter mem garbage ⟨data, false⟩ = .error .resize := by
  obtain ⟨n, levels, tail, h100, hlt, hlevels, hcap, rfl⟩ := h
  obtain ⟨m, rfl⟩ : ∃ m, n = levels.length + (m + 1) := ⟨n - levels.length - 1, by omega⟩
  rw [deserializeParameter, List.append_assoc, IStream.readWord_leBytes,
    Nat.mod_eq_of_lt (by omega)]
  dsimp only
  rw [if_neg (by omega), deserializeLevels_append garbage hlevels, deserializeLevels,
    deserializeVectorOfParams]
  dsimp only
  rw [if_pos (lt_of_lt_of_le hcap (IStream.le_readWord _ tail))]
  rfl

/-- 例外になるか読み切るかが決まる本文では、読み込みは途中の表を残さない。 -/
theorem Decisive.atomic {mem : Memory} {data : Bytes} (h : Decisive mem data)
    (garbage : Nat → UInt64) (cache : ParentPlinCache) : LoadAtomic mem garbage cache data := by
  rcases h with ⟨table, h100, hlevels, rfl⟩ | hlarge | hover
  · refine Or.inl ⟨table, ?_, rfl⟩
    have h := deserializeParameter_serialize garbage h100 hlevels []
    rw [List.append_nil] at h
    rw [ParentPlinCache.loadFromPush, h]
  · refine Or.inr ⟨.outerSize, ?_⟩
    have h : deserializeParameter mem garbage ⟨data, false⟩ = .error .outerSize := by
      rw [deserializeParameter]
      dsimp only
      rw [if_pos (lt_of_lt_of_le hlarge (IStream.le_readWord _ data))]
    rw [ParentPlinCache.loadFromPush, h]
  · refine Or.inr ⟨.resize, ?_⟩
    rw [ParentPlinCache.loadFromPush, hover.error garbage]

/-! ### 読めた部分 -/

theorem leBytes_ofLeBytes (bs : Bytes) : leBytes bs.length (ofLeBytes bs) = bs := by
  induction bs with
  | nil => rfl
  | cons b bs ih =>
    have hb := b.toNat_lt
    have hdiv : (b.toNat + 256 * ofLeBytes bs) / 256 = ofLeBytes bs := by omega
    have hbyte : UInt8.ofNat (b.toNat + 256 * ofLeBytes bs) = b := by
      apply UInt8.toNat_inj.mp
      rw [UInt8.toNat_ofNat']
      omega
    rw [List.length_cons, ofLeBytes, leBytes, hdiv, hbyte, ih]

namespace IStream

theorem readWord_failed (old : Nat) (bytes : Bytes) :
    readWord old ⟨bytes, true⟩ = (old, ⟨bytes, true⟩) := by
  rw [readWord, if_pos rfl]

/-- 失敗せずに読めたなら、8 byte が揃っていた。 -/
theorem of_readWord {old w : Nat} {is is' : IStream} (h : is.readWord old = (w, is'))
    (hok : is'.failed = false) :
    is.failed = false ∧ is.bytes = leBytes 8 w ++ is'.bytes ∧ w < 2 ^ 64 := by
  rw [readWord] at h
  split at h
  · next hf =>
    obtain ⟨rfl, rfl⟩ := Prod.mk.inj h
    rw [hf] at hok
    cases hok
  · next hf =>
    split at h
    · next hlen =>
      obtain ⟨rfl, rfl⟩ := Prod.mk.inj h
      have htake : (is.bytes.take 8).length = 8 := by
        rw [List.length_take]
        omega
      have hword := leBytes_ofLeBytes (is.bytes.take 8)
      have hlt := ofLeBytes_lt (is.bytes.take 8)
      rw [htake] at hword hlt
      refine ⟨by simpa using hf, ?_, by norm_num at hlt ⊢; exact hlt⟩
      rw [hword]
      exact (List.take_append_drop 8 is.bytes).symm
    · obtain ⟨rfl, rfl⟩ := Prod.mk.inj h
      cases hok

theorem of_readField {w : UInt64} {is is' : IStream} (h : is.readField = (w, is'))
    (hok : is'.failed = false) :
    is.failed = false ∧ is.bytes = leBytes 8 w.toNat ++ is'.bytes := by
  rw [readField] at h
  cases hread : is.readWord 0 with
  | mk n is₁ =>
    rw [hread] at h
    obtain ⟨rfl, rfl⟩ := Prod.mk.inj h
    obtain ⟨hf, hbytes, hlt⟩ := of_readWord hread hok
    refine ⟨hf, ?_⟩
    rw [UInt64.toNat_ofNat', Nat.mod_eq_of_lt hlt]
    exact hbytes

end IStream

theorem ParamBits.of_deserialize {p : ParamBits} {is is' : IStream}
    (h : ParamBits.deserialize is = (p, is')) (hok : is'.failed = false) :
    is.failed = false ∧ is.bytes = p.serialize ++ is'.bytes := by
  rw [deserialize] at h
  cases h₁ : is.readField with
  | mk a is₁ =>
    cases h₂ : is₁.readField with
    | mk b is₂ =>
      cases h₃ : is₂.readField with
      | mk c is₃ =>
        cases h₄ : is₃.readField with
        | mk d is₄ =>
          simp only [h₁, h₂, h₃, h₄] at h
          obtain ⟨rfl, rfl⟩ := Prod.mk.inj h
          obtain ⟨hf₃, hb₃⟩ := IStream.of_readField h₄ hok
          obtain ⟨hf₂, hb₂⟩ := IStream.of_readField h₃ hf₃
          obtain ⟨hf₁, hb₁⟩ := IStream.of_readField h₂ hf₂
          obtain ⟨hf₀, hb₀⟩ := IStream.of_readField h₁ hf₁
          refine ⟨hf₀, ?_⟩
          rw [hb₀, hb₁, hb₂, hb₃, serialize]
          simp only [List.append_assoc]

theorem of_deserializeParams {n : Nat} {vec : List ParamBits} {is is' : IStream}
    (h : deserializeParams n is = (vec, is')) :
    vec.length = n ∧ (is'.failed = false →
      is.failed = false ∧ is.bytes = vec.flatMap ParamBits.serialize ++ is'.bytes) := by
  induction n generalizing vec is with
  | zero =>
    obtain ⟨rfl, rfl⟩ := Prod.mk.inj h
    exact ⟨rfl, fun hok => ⟨hok, by simp⟩⟩
  | succ n ih =>
    rw [deserializeParams] at h
    cases hp : ParamBits.deserialize is with
    | mk p is₁ =>
      cases hrest : deserializeParams n is₁ with
      | mk rest is₂ =>
        simp only [hp, hrest] at h
        obtain ⟨rfl, rfl⟩ := Prod.mk.inj h
        obtain ⟨hlen, hbytes⟩ := ih hrest
        refine ⟨by rw [List.length_cons, hlen], fun hok => ?_⟩
        obtain ⟨hf₁, hb₁⟩ := hbytes hok
        obtain ⟨hf₀, hb₀⟩ := ParamBits.of_deserialize hp hf₁
        exact ⟨hf₀, by rw [hb₀, hb₁, List.flatMap_cons, List.append_assoc]⟩

/-! ### 不定の値が 0 のとき -/

theorem ofLeBytes_eq_zero {bs : Bytes} (h : ∀ b ∈ bs, b = 0) : ofLeBytes bs = 0 := by
  induction bs with
  | nil => rfl
  | cons b bs ih =>
    obtain ⟨hb, hbs⟩ := List.forall_mem_cons.mp h
    rw [ofLeBytes, hb, ih hbs]
    rfl

theorem eq_zero_of_mem_leBytes_zero {w : Nat} {b : UInt8} (h : b ∈ leBytes w 0) : b = 0 := by
  induction w with
  | zero => cases h
  | succ w ih =>
    rw [leBytes, Nat.zero_div] at h
    rcases List.mem_cons.mp h with rfl | h
    · rfl
    · exact ih h

/-- 足りない byte は 0 と読まれる。 -/
theorem IStream.readWord_zero (bytes : Bytes) :
    (readWord 0 ⟨bytes, false⟩).1 = ofLeBytes (bytes.take 8) := by
  rw [readWord, if_neg (by simp)]
  split
  · rfl
  · next hlt =>
    have hpad : ofLeBytes ((leBytes 8 0).drop bytes.length) = 0 :=
      ofLeBytes_eq_zero fun b hb => eq_zero_of_mem_leBytes_zero (List.mem_of_mem_drop hb)
    rw [List.take_of_length_le (by simp at hlt; omega)]
    show ofLeBytes (bytes ++ (leBytes 8 0).drop bytes.length) = _
    rw [ofLeBytes_append, hpad, Nat.mul_zero, Nat.add_zero]

/-- 段を読む loop の一周。 -/
theorem deserializeLevels_succ (mem : Memory) (garbage : Nat → UInt64) (n call : Nat)
    (is : IStream) :
    deserializeLevels mem garbage (n + 1) call is =
      if mem.capacity < (is.readWord (garbage call).toNat).1 then .error .resize
      else
        let r := deserializeParams (is.readWord (garbage call).toNat).1
          (is.readWord (garbage call).toNat).2
        (deserializeLevels mem garbage n (call + 1) r.2).map fun t => (r.1 :: t.1, t.2) := by
  rw [deserializeLevels, deserializeVectorOfParams]
  dsimp only
  split
  · rfl
  · show (deserializeLevels mem garbage n (call + 1) _ >>= fun t => return (_ :: t.1, t.2)) = _
    cases deserializeLevels mem garbage n (call + 1) _ <;> rfl

/-- 読めた段はどれも `resize` できる長さである。 -/
theorem of_deserializeLevels {mem : Memory} {garbage : Nat → UInt64} {n call : Nat}
    {is : IStream} {r : ParamTable × IStream}
    (h : deserializeLevels mem garbage n call is = .ok r) :
    r.1.length = n ∧ ∀ vec ∈ r.1, vec.length ≤ mem.capacity := by
  induction n generalizing call is r with
  | zero =>
    obtain rfl := Except.ok.inj h
    exact ⟨rfl, by simp⟩
  | succ n ih =>
    rw [deserializeLevels_succ] at h
    split at h
    · cases h
    · next hcap =>
      dsimp only at h
      cases hvec : deserializeParams (is.readWord (garbage call).toNat).1
          (is.readWord (garbage call).toNat).2 with
      | mk vec is₁ =>
        rw [hvec] at h
        cases hrest : deserializeLevels mem garbage n (call + 1) is₁ with
        | error e =>
          rw [hrest] at h
          cases h
        | ok t =>
          rw [hrest] at h
          obtain rfl := Except.ok.inj h
          obtain ⟨hlen, hall⟩ := ih hrest
          have hveclen := (of_deserializeParams hvec).1
          refine ⟨by simp [hlen], fun v hv => ?_⟩
          rcases List.mem_cons.mp hv with rfl | hv
          · omega
          · exact hall v hv

/-- 失敗した stream からは空の段だけが読まれ、例外は出ない。 -/
theorem deserializeLevels_failed (mem : Memory) (n call : Nat) (bytes : Bytes) :
    ∃ r, deserializeLevels mem (fun _ => 0) n call ⟨bytes, true⟩ = .ok r := by
  induction n generalizing call with
  | zero => exact ⟨_, rfl⟩
  | succ n ih =>
    obtain ⟨r, hr⟩ := ih (call + 1)
    have hzero : ((fun _ : Nat => (0 : UInt64)) call).toNat = 0 := rfl
    rw [deserializeLevels_succ, hzero, IStream.readWord_failed]
    dsimp only
    rw [if_neg (by omega), deserializeParams, hr]
    exact ⟨_, rfl⟩

/-- `resize` の例外は、揃った段の後の大きすぎる長さから出る。 -/
theorem oversized_of_deserializeLevels {mem : Memory} {n call : Nat} {bytes : Bytes}
    {e : ParamFault}
    (h : deserializeLevels mem (fun _ => 0) n call ⟨bytes, false⟩ = .error e) :
    ∃ (levels : ParamTable) (tail : Bytes), levels.length < n ∧
      (∀ vec ∈ levels, vec.length ≤ mem.capacity) ∧ mem.capacity < ofLeBytes (tail.take 8) ∧
      bytes = levels.flatMap serializeVectorOfParams ++ tail := by
  induction n generalizing call bytes e with
  | zero => cases h
  | succ n ih =>
    rw [deserializeLevels_succ] at h
    have hzero : ((fun _ : Nat => (0 : UInt64)) call).toNat = 0 := rfl
    rw [hzero] at h
    cases hread : IStream.readWord 0 ⟨bytes, false⟩ with
    | mk size is₁ =>
      rw [hread] at h
      dsimp only at h
      have hsize : size = ofLeBytes (bytes.take 8) := by
        rw [← IStream.readWord_zero, hread]
      split at h
      · next hcap =>
        exact ⟨[], bytes, by simp, by simp, hsize ▸ hcap, by simp⟩
      · next hcap =>
        cases hvec : deserializeParams size is₁ with
        | mk vec is₂ =>
          rw [hvec] at h
          obtain ⟨hlen, hbytes⟩ := of_deserializeParams hvec
          cases hfail : is₂.failed with
          | true =>
            obtain ⟨b₂, f₂⟩ := is₂
            subst hfail
            obtain ⟨r, hr⟩ := deserializeLevels_failed mem n (call + 1) b₂
            rw [hr] at h
            cases h
          | false =>
            obtain ⟨hf₁, hb₁⟩ := hbytes hfail
            obtain ⟨-, hb₀, -⟩ := IStream.of_readWord hread hf₁
            obtain ⟨b₂, f₂⟩ := is₂
            subst hfail
            cases hrest : deserializeLevels mem (fun _ => 0) n (call + 1) ⟨b₂, false⟩ with
            | ok r =>
              rw [hrest] at h
              cases h
            | error e' =>
              obtain ⟨levels, tail, hlt, hall, hbig, hb₂⟩ := ih hrest
              refine ⟨vec :: levels, tail, by simpa using hlt, fun v hv => ?_, hbig, ?_⟩
              · rcases List.mem_cons.mp hv with rfl | hv
                · omega
                · exact hall v hv
              · have hb : bytes = leBytes 8 size ++ is₁.bytes := hb₀
                have hb' : is₁.bytes = vec.flatMap ParamBits.serialize ++ b₂ := hb₁
                rw [hb, hb', hb₂, List.flatMap_cons, serializeVectorOfParams, hlen]
                simp only [List.append_assoc]

/-- **表が本文のとおりに替わるか元のままかのどちらかになるのは、ちょうど `Decisive` な本文のときである。**
不定の値はどの値でもありうる。 -/
theorem loadFromPush_atomic_iff (mem : Memory) (cache : ParentPlinCache) (data : Bytes) :
    (∀ garbage, LoadAtomic mem garbage cache data) ↔ Decisive mem data := by
  constructor
  · intro h
    have hzero : ((fun _ : Nat => (0 : UInt64)) 0).toNat = 0 := rfl
    have hparse : deserializeParameter mem (fun _ => 0) ⟨data, false⟩ =
        if 100 < (IStream.readWord 0 ⟨data, false⟩).1 then .error .outerSize
        else deserializeLevels mem (fun _ => 0) (IStream.readWord 0 ⟨data, false⟩).1 1
          (IStream.readWord 0 ⟨data, false⟩).2 := by
      rw [deserializeParameter, hzero]
    rcases h fun _ => 0 with ⟨table, hload, hdata⟩ | ⟨e, hload⟩
    · -- 替わった表は、長さの検査を通っている
      refine Or.inl ⟨table, ?_⟩
      rw [ParentPlinCache.loadFromPush, hparse] at hload
      split at hload
      · next params is hok =>
        obtain rfl : params = table := by simpa using hload
        split at hok
        · cases hok
        · next h100 =>
          obtain ⟨hlen, hall⟩ := of_deserializeLevels hok
          exact ⟨by simp only at hlen; omega, hall, hdata.symm⟩
      · cases hload
    · -- 例外は、長さの検査のどちらかから出た
      rw [ParentPlinCache.loadFromPush, hparse] at hload
      split at hload
      · cases hload
      · next e' herr =>
        split at herr
        · next h100 => exact Or.inr (Or.inl (IStream.readWord_zero data ▸ h100))
        · next h100 =>
          cases hread : IStream.readWord 0 ⟨data, false⟩ with
          | mk n is =>
            obtain ⟨bytes, failed⟩ := is
            rw [hread] at herr h100
            cases failed with
            | true =>
              obtain ⟨r, hr⟩ := deserializeLevels_failed mem n 1 bytes
              rw [hr] at herr
              cases herr
            | false =>
              obtain ⟨-, hdata, -⟩ := IStream.of_readWord hread rfl
              obtain ⟨levels, tail, hlt, hall, hbig, hbytes⟩ :=
                oversized_of_deserializeLevels herr
              refine Or.inr (Or.inr ⟨n, levels, tail, by simpa using h100, hlt, hall, hbig, ?_⟩)
              have hdata' : data = leBytes 8 n ++ bytes := hdata
              rw [hdata', hbytes, List.append_assoc]
  · exact fun h garbage => h.atomic garbage cache

/-- 一つの `Param` の最後の 1 byte が欠けた本文。 -/
def truncatedPush : Bytes := (serializeParameter [[⟨1, 2, 3, 4⟩]]).dropLast

/-- 欠けた本文は拒まれず、元の表が替わる。 -/
theorem truncatedPush_installed :
    ¬ LoadAtomic smallMemory (fun _ => 0) ⟨[[]]⟩ truncatedPush := by
  have hload : (ParentPlinCache.mk [[]]).loadFromPush smallMemory (fun _ => 0) truncatedPush =
      (none, ⟨[[⟨1, 2, 3, 4⟩]]⟩) := by decide +kernel
  rintro (⟨table, h, hdata⟩ | ⟨e, h⟩)
  · rw [hload] at h
    obtain rfl : [[⟨1, 2, 3, 4⟩]] = table := by simpa using h
    have hlen := congrArg List.length hdata
    revert hlen
    decide +kernel
  · rw [hload] at h
    cases h

end Plin
