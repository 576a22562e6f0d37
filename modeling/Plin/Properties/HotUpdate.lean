import Plin.Cloud.CloudServer
import Plin.Edge.HotUpdate
import Plin.End.EndNode

/-!
# `HOT_UPDATE` の行き先

Cloud が組を本文に並べ、Edge が宛先を取り除き、End が組に読み戻す。**この往復で組は変わらない**
（`hotPairs_delivered`）。

Cloud が End に送るのは、`locate_end` がその End を指す鍵だけである。End の `lookup` は同じ
`locate_end` で自分の区間の鍵を手元の木に回すので、送られた組が hot cache から読まれることはない
（`pushed_stage`）。送った組が役に立つのは、何も送らないときに限る（`pushUsable_iff`）。
-/

namespace Plin

open Infra

/-! ## 往復 -/

theorem UInt64.ofNat_ofLeBytes (v : Payload) :
    UInt64.ofNat (ofLeBytes (leBytes 8 v.toNat)) = v := by
  rw [ofLeBytes_leBytes, Nat.mod_eq_of_lt (show v.toNat < 256 ^ 8 from v.toNat_lt),
    UInt64.ofNat_toNat]

theorem Key.ofBits_ofLeBytes (k : Key) : Key.ofBits (ofLeBytes (leBytes 8 k.bits)) = some k := by
  rw [ofLeBytes_leBytes, Nat.mod_eq_of_lt (show k.bits < 256 ^ 8 from k.bits_lt), Key.ofBits_bits]

namespace CloudServer

theorem pairBytes_eq (e : Key × Payload) :
    pairBytes e = leBytes 8 e.1.bits ++ leBytes 8 e.2.toNat := rfl

theorem length_flatMap_pairBytes (l : List (Key × Payload)) :
    (l.flatMap pairBytes).length = 16 * l.length := by
  induction l with
  | nil => rfl
  | cons e l ih =>
    rw [List.flatMap_cons, List.length_append, ih, pairBytes_eq, List.length_append,
      length_leBytes, length_leBytes, List.length_cons]
    omega

/-- **本文に並べた組は、元の列に読み戻される。** -/
theorem decodePairs_flatMap (l : List (Key × Payload)) :
    decodePairs l.length (l.flatMap pairBytes) = l := by
  induction l with
  | nil => rfl
  | cons e l ih =>
    obtain ⟨k, v⟩ := e
    set rest := l.flatMap pairBytes with hrest
    have hbody : ((k, v) :: l).flatMap pairBytes =
        leBytes 8 k.bits ++ (leBytes 8 v.toNat ++ rest) := by
      rw [List.flatMap_cons, pairBytes_eq, List.append_assoc]
    have hkey : (leBytes 8 k.bits ++ (leBytes 8 v.toNat ++ rest)).take 8 = leBytes 8 k.bits :=
      List.take_left' (length_leBytes 8 _)
    have hval : (leBytes 8 k.bits ++ (leBytes 8 v.toNat ++ rest)).drop 8 =
        leBytes 8 v.toNat ++ rest := List.drop_left' (length_leBytes 8 _)
    have hdrop : (leBytes 8 k.bits ++ (leBytes 8 v.toNat ++ rest)).drop 16 = rest := by
      rw [show (16 : Nat) = 8 + 8 from rfl, ← List.drop_drop, hval]
      exact List.drop_left' (length_leBytes 8 _)
    rw [hbody, List.length_cons, decodePairs]
    rw [hkey, hval, hdrop, ih, Key.ofBits_ofLeBytes,
      List.take_left' (length_leBytes 8 _), UInt64.ofNat_ofLeBytes]

/-- 書かれる frame の形。 -/
theorem sendHotUpdate_eq_some {cs : CloudServer} {e : Int} {f : Frame}
    (h : cs.sendHotUpdate e = some f) :
    f = ⟨.hotUpdate, leBytes 4 (e % 2 ^ 32).toNat ++ (cs.hotPairs e).flatMap pairBytes⟩ := by
  unfold sendHotUpdate at h
  split at h
  · cases h
  · split at h
    · cases h
    · dsimp only at h
      split at h
      · cases h
      · exact (Option.some.inj h).symm

/-- **End に届く frame は、Cloud の選んだ組をそのまま運ぶ。** -/
theorem hotPairs_delivered {cs : CloudServer} {e : Int} {f : Frame}
    (h : cs.sendHotUpdate e = some f) :
    ∃ g, handleCloudHotUpdate f = some ((e % 2 ^ 32).toNat, g) ∧ g.type = .hotUpdate ∧
      decodePairs (g.body.length / 16) g.body = cs.hotPairs e := by
  obtain rfl := sendHotUpdate_eq_some h
  set target := (e % 2 ^ 32).toNat with htarget
  set body := (cs.hotPairs e).flatMap pairBytes with hbody
  have hlt : target < 256 ^ 4 := by
    have : (0 : Int) ≤ e % 2 ^ 32 := Int.emod_nonneg _ (by decide)
    have : e % 2 ^ 32 < 2 ^ 32 := Int.emod_lt_of_pos _ (by decide)
    omega
  have hread : readU32 (leBytes 4 target ++ body) 0 = some target := by
    rw [readU32, if_pos (by simp), List.drop_zero, List.take_left' (length_leBytes 4 _),
      ofLeBytes_leBytes, Nat.mod_eq_of_lt hlt]
  refine ⟨⟨.hotUpdate, body⟩, ?_, rfl, ?_⟩
  · simp only [handleCloudHotUpdate, hread]
    rw [List.drop_left' (length_leBytes 4 _)]
  · rw [hbody, length_flatMap_pairBytes, Nat.mul_div_cancel_left _ (by decide),
      decodePairs_flatMap]

/-! ## 選ばれる組 -/

/-- 送る組は data set の行で、`locate_end` が宛先を指す。 -/
theorem mem_emit {cs : CloudServer} {e : Int} {poss : List Int} {n : Int} {p : Key × Payload}
    (h : p ∈ cs.emit e poss n) : p ∈ cs.data ∧ cs.rm.locateEnd p.1 = e := by
  induction poss generalizing n with
  | nil => cases h
  | cons pos rest ih =>
    rw [emit] at h
    split at h
    · exact ih h
    · split at h
      · exact ih h
      · next d hd =>
        split at h
        · exact ih h
        · next hloc =>
          rcases List.mem_cons.mp h with rfl | h
          · exact ⟨List.mem_of_getElem? hd, not_not.mp hloc⟩
          · split at h
            · cases h
            · exact ih h

/-- 行の番号 `pos` は、送る組になる。 -/
def Sendable (cs : CloudServer) (e : Int) (pos : Int) : Prop :=
  0 < pos ∧ ∃ p ∈ cs.data[(pos - 1).toNat]?, cs.rm.locateEnd p.1 = e

/-- 選ばれた組が無いことは、送る組になる番号が無いことである。 -/
theorem emit_eq_nil_iff {cs : CloudServer} {e : Int} {poss : List Int} {n : Int} :
    cs.emit e poss n = [] ↔ ∀ pos ∈ poss, ¬ cs.Sendable e pos := by
  induction poss generalizing n with
  | nil => simp [emit]
  | cons pos rest ih =>
    have hskip (hpos : ¬ cs.Sendable e pos) :
        cs.emit e rest n = [] ↔ ∀ p ∈ pos :: rest, ¬ cs.Sendable e p := by
      rw [ih, List.forall_mem_cons]
      exact ⟨fun h => ⟨hpos, h⟩, And.right⟩
    rw [emit]
    split
    · next hout =>
      refine hskip ?_
      rintro ⟨hpos, p, hp, -⟩
      have := (List.getElem?_eq_some_iff.mp hp).1
      omega
    · next hin =>
      split
      · next hnone =>
        refine hskip ?_
        rintro ⟨-, p, hp, -⟩
        rw [hnone] at hp
        cases hp
      · next d hd =>
        split
        · next hloc =>
          refine hskip ?_
          rintro ⟨-, p, hp, hp'⟩
          rw [hd] at hp
          cases hp
          exact hloc hp'
        · next hloc =>
          constructor
          · intro h
            cases h
          · intro h
            exact absurd ⟨by omega, d, hd, not_not.mp hloc⟩ (h pos (by simp))

/--
`send_hot_update(e)` が組を送る。

End `e` の Edge が接続しており、`e` によく引かれる行のうちに、鍵が `e` の区間に入るものがある。
-/
def Pushes (cs : CloudServer) (e : Int) : Prop :=
  cs.rm.edgeOf e ∈ cs.edges ∧ 1 ≤ e ∧
    ∃ poss ∈ cs.hotPositions[e.toNat]?, ∃ pos ∈ poss, cs.Sendable e pos

theorem sendHotUpdate_isSome_iff {cs : CloudServer} {e : Int} :
    (cs.sendHotUpdate e).isSome ↔ cs.Pushes e := by
  unfold sendHotUpdate Pushes
  by_cases hedge : cs.rm.edgeOf e ∈ cs.edges
  · rw [if_neg (not_not.mpr hedge)]
    by_cases hrange : e < 1 ∨ (cs.hotPositions.length : Int) ≤ e
    · rw [if_pos hrange]
      constructor
      · intro h
        cases h
      · rintro ⟨-, h1, poss, hposs, -⟩
        have := (List.getElem?_eq_some_iff.mp hposs).1
        omega
    · rw [if_neg hrange]
      have hlt : e.toNat < cs.hotPositions.length := by omega
      have hpairs : cs.hotPairs e = [] ↔ ∀ pos ∈ cs.hotPositions[e.toNat], ¬ cs.Sendable e pos := by
        rw [hotPairs, emit_eq_nil_iff, List.getElem?_eq_getElem hlt, Option.getD_some]
      dsimp only
      rw [List.getElem?_eq_getElem hlt]
      by_cases hnil : cs.hotPairs e = []
      · rw [if_pos hnil]
        constructor
        · intro h
          cases h
        · rintro ⟨-, -, poss, hposs, pos, hpos, hs⟩
          obtain rfl := Option.some.inj hposs
          exact absurd hs (hpairs.mp hnil pos hpos)
      · rw [if_neg hnil]
        refine ⟨fun _ => ⟨hedge, by omega, _, rfl, ?_⟩, fun _ => rfl⟩
        rw [hpairs] at hnil
        push Not at hnil
        exact hnil
  · rw [if_pos hedge]
    constructor
    · intro h
      cases h
    · intro h
      exact absurd h.1 hedge

theorem hotPairs_ne_nil {cs : CloudServer} {e : Int} {f : Frame}
    (h : cs.sendHotUpdate e = some f) : cs.hotPairs e ≠ [] := by
  intro hnil
  simp [sendHotUpdate, hnil] at h

end CloudServer

/-! ## 送られた組を引く -/

variable {P : Type} (M : ParamModel P)

/-- **送られた鍵は、必ず手元の木の段階で答えられる。** -/
theorem pushed_stage (cs : CloudServer) (e : Int) (store : SortedMap Key Payload)
    (edge : Option Transport) (s : EndSession P) {p : Key × Payload} (hp : p ∈ cs.hotPairs e) :
    (EndNode.lookup M ⟨e, cs.rm, store, edge⟩ s p.1).1.stage = .local := by
  rw [EndNode.lookup, if_pos (CloudServer.mem_emit hp).2]
  cases store.find p.1 <;> rfl

/-- `send_hot_update(e)` の送る組はどれも、End `e` で反映した後、hot cache から答えられる。 -/
def PushUsable (cs : CloudServer) (e : Int) (store : SortedMap Key Payload)
    (edge : Option Transport) (s : EndSession P) : Prop :=
  ∀ f ∈ cs.sendHotUpdate e, ∀ d ∈ handleCloudHotUpdate f,
    ∀ p ∈ decodePairs (d.2.body.length / 16) d.2.body,
      (EndNode.lookup M ⟨e, cs.rm, store, edge⟩ (s.applyEdgeControlFrame M d.2) p.1).1.stage =
        .hotCache

/-- **送った組が hot cache から読まれるのは、組を一つも送らないとき、かつそのときに限る。** -/
theorem pushUsable_iff (cs : CloudServer) (e : Int) (store : SortedMap Key Payload)
    (edge : Option Transport) (s : EndSession P) :
    PushUsable M cs e store edge s ↔ ¬ cs.Pushes e := by
  rw [← CloudServer.sendHotUpdate_isSome_iff]
  constructor
  · intro h hsome
    obtain ⟨f, hf⟩ := Option.isSome_iff_exists.mp hsome
    obtain ⟨g, hg, -, hpairs⟩ := CloudServer.hotPairs_delivered hf
    obtain ⟨p, hp⟩ := List.exists_mem_of_ne_nil _ (CloudServer.hotPairs_ne_nil hf)
    have hstage := h f hf _ hg p (by rw [hpairs]; exact hp)
    rw [pushed_stage M cs e store edge _ hp] at hstage
    cases hstage
  · intro hnone f hf
    rw [Option.mem_def.mp hf] at hnone
    exact absurd rfl hnone

/-! ## 手元の木に遮られる組 -/

/-- End 1 の区間の鍵 5 が一行あり、一度引かれている。Edge 1 は接続している。 -/
def oneRowCloud : CloudServer :=
  { CloudServer.new id 5
      { edges := [⟨1, [1]⟩], ends := [⟨1, 1, Key.ofNat 0, Key.ofNat 10⟩] }
      [(Key.ofNat 5, 9)] [⟨1⟩] with
    edges := [1] }

/-- まだ何も受け取っていない End。 -/
def freshSession : EndSession Unit :=
  { hotCache := .empty, plinCache := (), rdmaSnapshot := ⟨{}, false⟩, nextRequestId := 1
    inbox := [], outbox := [], applied := [] }

theorem oneRowCloud_pushes : oneRowCloud.Pushes 1 := by
  refine ⟨by decide, by decide, [1], ?_, 1, by simp, by decide, (Key.ofNat 5, 9), rfl, by decide⟩
  have hcounts : positionCounts [⟨1⟩] 1 1 = [(1, 1)] := by decide
  show (buildHotPositionsByEnd id [⟨1⟩] 1 20)[1]? = some [1]
  simp [buildHotPositionsByEnd, hcounts]

/-- **送られた鍵 5 は、End 1 で反映しても hot cache からは答えられない。** -/
theorem pushed_key_intercepted :
    ¬ PushUsable ⟨fun _ => (), fun _ => false, fun _ _ => 0⟩ oneRowCloud 1
      (SortedMap.empty.upsert (Key.ofNat 5) 9) none freshSession := by
  intro h
  obtain ⟨f, hf⟩ := Option.isSome_iff_exists.mp
    (CloudServer.sendHotUpdate_isSome_iff.mpr oneRowCloud_pushes)
  obtain ⟨g, hg, -, hpairs⟩ := CloudServer.hotPairs_delivered hf
  obtain ⟨p, hp⟩ := List.exists_mem_of_ne_nil _ (CloudServer.hotPairs_ne_nil hf)
  have hstage := h f hf _ hg p (by rw [hpairs]; exact hp)
  rw [pushed_stage _ oneRowCloud 1 _ _ _ hp]
    at hstage
  cases hstage

end Plin
