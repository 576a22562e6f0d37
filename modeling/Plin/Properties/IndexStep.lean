import Plin.Properties.Wired

/-!
# 一回の書き込み

内側の鍵の `upsert` と `remove` が索引にすることをまとめる。どちらも leaf を一つ書き換える
（`LeafNode.Rewritten`）。`upsert` は続けてその leaf を分割することがある。

捨てられた leaf を指す親 slot に着いた `upsert` は、何も変えずにやり直し続ける
（`PlinIndex.upsertInner_abandoned`）。終わった `upsert` は、連鎖の中で鍵以下の最後の leaf を書いている。
-/

namespace Plin

open Infra

variable {D : Type} [Arith D]

/-! ## leaf の書き換え -/

theorem Block.get_of_remove {b : Block} {key k : Key} (hk : k ≠ freeFlag)
    (h : (b.remove key).2.get k ≠ none) : b.get k ≠ none := by
  rcases Block.remove_cases b key with ⟨x, s, y, hb, -, -, he⟩ | ⟨-, t, ht, -, he⟩ | ⟨-, -, he⟩
  · rw [he] at h
    simp only [Block.get, Block.treeGet, slotGet_append, slotGet_cons, hb,
      if_neg hk] at h ⊢
    by_cases hs : k = s.key <;> simp_all
  · rw [he] at h
    simp only [Block.get, Block.treeGet, ht, Option.bind_some, SortedMap.find_erase] at h ⊢
    by_cases hkey : k = key <;> simp_all
  · rwa [he] at h

namespace LeafNode

/-- leaf の block を一つ書き換える。 -/
structure Rewritten (l l' : LeafNode D) (i : Nat) (b b' : Block) : Prop where
  header : SameHeader l l'
  block : l.blocks[i]? = some b
  blocks : l'.blocks = l.blocks.set i b'

omit [Arith D] in
theorem Rewritten.mem_block {l l' : LeafNode D} {i : Nat} {b b' : Block}
    (h : Rewritten l l' i b b') : b ∈ l.blocks := List.mem_of_getElem? h.block

omit [Arith D] in
theorem Rewritten.stores {l l' : LeafNode D} {i : Nat} {b b' : Block} (h : Rewritten l l' i b b')
    {k : Key} (hk : l'.Stores k) : l.Stores k ∨ b'.get k ≠ none := by
  obtain ⟨hne, u, hu, hget⟩ := hk
  rw [h.blocks] at hu
  rcases List.mem_or_eq_of_mem_set hu with hu | rfl
  · exact Or.inl ⟨hne, u, hu, hget⟩
  · exact Or.inr hget

variable {leaves : List (LeafNode D)} {this : LeafId} {key : Key} {acc : Option (InnerSlot D)}

/-- **`remove` はやり直すか、leaf を一つ書き換える。** -/
theorem remove_rewrites {ret : Nat} {leaves' : List (LeafNode D)}
    (h : remove leaves this key acc = some (ret, leaves')) :
    ret = 3 ∨ ∃ id l l' i b, leaves[id]? = some l ∧ leaves' = leaves.set id l' ∧
      Rewritten l l' i b (b.remove key).2 := by
  unfold remove at h
  obtain ⟨loc, hloc, h⟩ := Option.bind_eq_some_iff.mp h
  cases loc with
  | locked => exact Or.inl (congrArg Prod.fst (Option.some.inj h)).symm
  | «at» leaf acc' block =>
    obtain ⟨l, hl, h⟩ := Option.bind_eq_some_iff.mp h
    by_cases hw : l.checkWriteLock acc' = true
    · cases hb : l.blocks[slotBlock block]? with
      | none => simp [hw, hb] at h
      | some b =>
        obtain ⟨n, hremove⟩ := remove_of_locate hloc hl hw hb
        unfold remove at hremove
        rw [hloc] at hremove
        simp only [Option.bind_eq_bind, Option.bind_some, hl] at h hremove
        obtain ⟨rfl, rfl⟩ := Prod.mk.inj (Option.some.inj (hremove.symm.trans h))
        exact Or.inr ⟨leaf, l, _, _, b, hl, rfl, ⟨rfl, by simp⟩, hb, rfl⟩
    · rw [Bool.not_eq_true] at hw
      simp only [hw, Bool.not_false, if_true] at h
      exact Or.inl (congrArg Prod.fst (Option.some.inj h)).symm

/-- 鍵を書くと overflow tree に新しく入り、その個数が上限を超える。 -/
def Due (l : LeafNode D) (key : Key) : Prop :=
  l.numberToSplit < l.overflowNumber + 1 ∧
    ∃ b, l.blocks[l.home key]? = some b ∧ slotGet b.slots key = none ∧
      slotGet b.slots freeFlag = none ∧ b.treeGet key = none

/--
**`upsert` は `locate` の選んだ leaf を一つ書き換える。** 分割を求めるのは、overflow tree に新しく入れた
ときだけである。
-/
theorem upsert_rewrites {leaf : LeafId} {acc' : Option (InnerSlot D)} {l : LeafNode D}
    (hloc : locate leaves key (leaves.length + 1) this acc = some (.at leaf acc' (l.predict key)))
    (hl : leaves[leaf]? = some l) (hw : l.checkWriteLock acc' = true)
    (hkept : l.isAbandoned = false) (hroom : l.predict key < l.blocks.length)
    (payload : Payload) :
    ∃ l' b ret split, Rewritten l l' (l.home key) b (b.upsert key payload).2 ∧
      upsert leaves this key payload acc = some ⟨ret, leaves.set leaf l', split⟩ ∧
      (split = none ∧ ret ≠ 7 ∧ ¬ l.Due key ∨
        split = some leaf ∧ (ret = if acc'.isSome then 5 else 6) ∧ l.Due key) := by
  obtain ⟨b, hb⟩ : ∃ b, l.blocks[slotBlock (l.predict key)]? = some b :=
    ⟨_, List.getElem?_eq_getElem (lt_of_le_of_lt (slotBlock_le (l.predict key)) hroom)⟩
  have hup := upsert_of_locate (p := payload) hloc hl hw hb
  obtain ⟨n, hn⟩ := finishUpsert_leaf l leaf acc' (b.upsert key payload).1
    (l.blocks.set (slotBlock (l.predict key)) (b.upsert key payload).2)
  dsimp only at hup
  rw [hkept, if_neg Bool.false_ne_true, hn] at hup
  refine ⟨_, b, _, _, ⟨⟨rfl, by simp⟩, hb, rfl⟩, hup, ?_⟩
  have hdue : l.Due key ↔ l.numberToSplit < l.overflowNumber + 1 ∧ slotGet b.slots key = none ∧
      slotGet b.slots freeFlag = none ∧ b.treeGet key = none := by
    refine and_congr_right fun _ => ⟨?_, fun h => ⟨b, hb, h⟩⟩
    rintro ⟨u, hu, h⟩
    obtain rfl := Option.some.inj (hb.symm.trans hu)
    exact h
  have hfull : (b.upsert key payload).1 = 4 ↔ slotGet b.slots key = none ∧
      slotGet b.slots freeFlag = none ∧ b.treeGet key = none := by
    rcases Block.upsert_cases b key payload with ⟨x, u, y, hslots, hu, hx, he⟩ |
      ⟨hnone, x, u, y, hslots, hu, hx, he⟩ | ⟨hnone, hfree, he⟩
    · refine iff_of_false (by simp [he]) fun h => ?_
      exact (slotGet_eq_none.mp h.1) u (by rw [hslots]; simp) hu
    · refine iff_of_false (by simp [he]) fun h => ?_
      exact (slotGet_eq_none.mp h.2.1) u (by rw [hslots]; simp) hu
    · cases htree : b.treeGet key with
      | none => simp [he, htree, hnone, hfree]
      | some v => simp [he, htree]
  have hseven : (b.upsert key payload).1 ≠ 7 := by
    rcases Block.upsert_cases b key payload with ⟨_, _, _, -, -, -, he⟩ |
      ⟨-, _, _, _, -, -, -, he⟩ | ⟨-, -, he⟩
    · simp [he]
    · simp [he]
    · rw [he]
      split <;> simp
  rw [hdue, ← hfull]
  unfold finishUpsert
  by_cases h4 : (b.upsert key payload).1 = 4
  · by_cases hsplit : l.numberToSplit < l.overflowNumber + 1
    · exact Or.inr ⟨by simp [h4, hsplit], by simp [h4, hsplit], hsplit, h4⟩
    · simp [h4, hsplit]
  · simp [h4, hseven]

end LeafNode

namespace PlinIndex

variable {s s' : PlinIndex D} {t : Tier D} {rest : List (Tier D)} {slots : List (InnerSlot D)}
  {c A B : List (Link D)} {z : Link D} {l l' : LeafNode D} {key : Key} {payload : Payload}

/-! ## leaf を一つ書き換えた索引 -/

omit [Arith D] in
theorem info_eq (hhead : LeafNode.SameHeader z.2 l) : Link.info (z.1, l) = z.info := by
  unfold Link.info
  rw [hhead.header]
  rfl

omit [Arith D] in
/-- 書き換えた leaf と入れ替えても、親 slot の列は変わらない。 -/
theorem map_info_eq (hhead : LeafNode.SameHeader z.2 l) :
    (A ++ (z.1, l) :: B).map Link.info = (A ++ z :: B).map Link.info := by
  rw [List.map_append, List.map_cons, List.map_append, List.map_cons, info_eq hhead]

omit [Arith D] in
theorem map_record_eq (hhead : LeafNode.SameHeader z.2 l) :
    (A ++ (z.1, l) :: B).map record = (A ++ z :: B).map record := by
  have hkey : l.firstKey = z.2.firstKey := by rw [hhead.header]
  rw [List.map_append, List.map_cons, List.map_append, List.map_cons]
  simp only [record, Link.firstKey, hkey]

omit [Arith D] in
theorem Abandoned.set {id w : LeafId} (h : s.Abandoned w) (hl : s.leaves[id]? = some l)
    (hhead : LeafNode.SameHeader l l') : (s.withLeaves (s.leaves.set id l')).Abandoned w := by
  obtain ⟨m, hm, habandoned, hlock⟩ := h
  by_cases hid : id = w
  · subst hid
    obtain rfl := Option.some.inj (hl.symm.trans hm)
    refine ⟨l', List.getElem?_set_self (List.getElem?_eq_some_iff.mp hm).1, ?_, ?_⟩
    · rw [hhead.header]
      exact habandoned
    · rw [LeafNode.checkSplitLock, hhead.header]
      exact hlock
  · exact ⟨m, (List.getElem?_set_ne hid).trans hm, habandoned, hlock⟩

/-- 連鎖の leaf を書き換えても形は保たれる。 -/
theorem Wired.setLink (h : s.Wired (A ++ z :: B) t rest slots)
    (hhead : LeafNode.SameHeader z.2 l)
    (hkeys : ∀ k, l.Stores k → z.2.Stores k ∨
      (z.firstKey ≤ k ∧ k ≤ s.maxKey ∧ ∀ w ∈ B, k < w.firstKey)) :
    (s.withLeaves (s.leaves.set z.1 l)).Wired (A ++ (z.1, l) :: B) t rest slots where
  rooted := h.rooted.congr rfl rfl rfl rfl
  chain := h.chain.setLeaf rfl hhead hkeys
  first := by
    rw [map_info_eq hhead]
    exact h.first
  table := by
    rw [map_record_eq hhead]
    exact h.table
  full := h.full
  known e he := by
    rcases h.known e he with ⟨x, hx, rfl⟩ | hdead
    · have hmem : x.info ∈ (A ++ (z.1, l) :: B).map Link.info := by
        rw [map_info_eq hhead]
        exact List.mem_map_of_mem hx
      obtain ⟨y, hy, hyx⟩ := List.mem_map.mp hmem
      exact Or.inl ⟨y, hy, hyx.symm⟩
    · exact Or.inr (hdead.set (h.chain.stored z (by simp)) hhead)
  number := by
    show 0 < s.leafNumber ∧ s.leafNumber ≤ (s.leaves.set z.1 l).length
    rw [List.length_set]
    exact h.number

/-- 連鎖に無い leaf を書き換えても形は保たれる。 -/
theorem Wired.setOther (h : s.Wired c t rest slots) {id : LeafId} (hl : s.leaves[id]? = some l)
    (hid : ∀ x ∈ c, id ≠ x.1) (hhead : LeafNode.SameHeader l l') :
    (s.withLeaves (s.leaves.set id l')).Wired c t rest slots where
  rooted := h.rooted.congr rfl rfl rfl rfl
  chain := by
    refine ⟨fun x hx => ?_, h.chain.nodup, h.chain.linked, h.chain.sorted, h.chain.sound⟩
    exact (List.getElem?_set_ne (hid x hx)).trans (h.chain.stored x hx)
  first := h.first
  table := h.table
  full := h.full
  known e he := (h.known e he).imp_right fun hdead => hdead.set hl hhead
  number := by
    show 0 < s.leafNumber ∧ s.leafNumber ≤ (s.leaves.set id l').length
    rw [List.length_set]
    exact h.number

/-! ## 書く leaf を選ぶ -/

/-- 予測器についての仮定と、leaf の数が `uint32_t leaf_number` に収まること。 -/
structure Plausible (s : PlinIndex D) : Prop where
  inners : ∀ nd ∈ s.inners, nd.Nondecreasing s.minKey s.maxKey
  tail : ∀ l ∈ s.leaves, ∀ k, l.lastBuildKey ≤ k → k ≤ s.maxKey →
    sub32 l.blockNumber 2 ≤ l.predict k
  heap : s.leaves.length < 2 ^ 32

theorem eq_of_fst {lo hi : Key} {leaves : List (LeafNode D)} (h : Chain lo hi leaves c)
    {x y : Link D} (hx : x ∈ c) (hy : y ∈ c) (hid : x.1 = y.1) : x = y := by
  have hsame := h.stored x hx
  rw [hid, h.stored y hy] at hsame
  exact Prod.ext hid (Option.some.inj hsame).symm

/--
着いた slot が連鎖の leaf のものなら、`locate` は鍵以下の最後の leaf に着く。移ったときは、どの slot も
その leaf を指さない。
-/
theorem Wired.locate (h : s.Wired c t rest slots) (hp : s.Plausible) (hhi : key ≤ s.maxKey)
    {U V : List (InnerSlot D)} {y : Link D} (hy : y ∈ c)
    (he : IsPred InnerSlot.minKey key slots U y.info V) :
    ∃ A z B acc, IsPred Link.firstKey key c A z B ∧
      LeafNode.locate s.leaves key (s.leaves.length + 1) y.1 (some y.info) =
        some (.at z.1 acc (z.2.predict key)) ∧
      (acc = some y.info ∧ y = z ∨ acc = none ∧ ∀ e ∈ slots, e.ptr ≠ z.1) := by
  obtain ⟨X, W, hc⟩ := List.append_of_mem hy
  have hlen := Chain.length_le h.chain.stored h.chain.nodup
  rw [hc, List.length_append, List.length_cons] at hlen
  have htail : ∀ x ∈ c, x.2.lastBuildKey ≤ key → sub32 x.2.blockNumber 2 ≤ x.2.predict key :=
    fun x hx hk => hp.tail x.2 (List.mem_of_getElem? (h.chain.stored x hx)) key hk hhi
  have hfuel : W.length < s.leaves.length + 1 := by omega
  obtain ⟨A, z, B, hpred, hloc⟩ := h.chain.queue.locate_eq htail (a := some y.info) hc he.le hfuel
    (fun s hs => (Option.some.inj hs).symm)
  have hpred' : IsPred Link.firstKey key c (X ++ A) z B :=
    ⟨by rw [hc, hpred.eq, List.append_assoc], hpred.le, hpred.gt⟩
  refine ⟨X ++ A, z, B, _, hpred', hloc, ?_⟩
  cases A with
  | nil => exact Or.inl ⟨if_pos rfl, (List.cons.inj hpred.eq).1⟩
  | cons w A =>
    obtain rfl : y = w := (List.cons.inj hpred.eq).1
    refine Or.inr ⟨if_neg (by simp), fun e hes hptr => ?_⟩
    have hz := hpred'.mem
    have hlt : y.firstKey < z.firstKey := by
      have hsorted := h.chain.firstKey_sorted
      rw [hpred'.eq] at hsorted
      exact (List.pairwise_append.mp hsorted).2.2 y (by simp) z (by simp)
    rcases h.known e hes with ⟨x, hx, rfl⟩ | ⟨m, hm, habandoned, -⟩
    · -- `z` の slot が在れば、探索は `y` の slot では止まらない
      obtain rfl : x = z := eq_of_fst h.chain hx hz hptr
      have hsorted := h.rooted.slotsOk.sorted
      rw [he.eq] at hes hsorted
      rcases List.mem_append.mp hes with hes | hes
      · exact lt_asymm hlt ((List.pairwise_append.mp hsorted).2.2 _ hes y.info (by simp))
      · rcases List.mem_cons.mp hes with heq | hes
        · exact absurd (congrArg InnerSlot.minKey heq) (ne_of_gt hlt)
        · exact absurd hpred.le (not_le_of_gt (he.gt _ hes))
    · rw [hptr, h.chain.stored z hz] at hm
      obtain rfl := Option.some.inj hm
      rw [(h.chain.sound z hz).kept] at habandoned
      cases habandoned

/-- 内側の鍵の `upsert` と `remove` が選ぶ leaf。 -/
def choose (s : PlinIndex D) (key : Key) : Option (LeafNode.Located D) := do
  let addr ← s.descend key
  let a ← s.readSlot addr
  LeafNode.locate s.leaves key (s.leaves.length + 1) a.ptr (some a)

/-! ## `upsert` の一周 -/

section Upsert

variable {f : Fitter D} {addr : SlotAddr} {a : InnerSlot D} {m : LeafNode D}

/-- **split lock の掛かった leaf に着いた `upsert` は、やり直し続ける。** -/
theorem upsertInner_abandoned (hd : s.descend key = some addr) (hread : s.readSlot addr = some a)
    (hleaf : s.leaves[a.ptr]? = some m) (hlock : m.checkSplitLock = false) (fuel : Nat) :
    upsertInner f key payload fuel s = .error .retryForever := by
  induction fuel with
  | zero => rfl
  | succ fuel ih =>
    rw [upsertInner, hd]
    simp only [orFault, bind, Except.bind, hread, hleaf, hlock, Bool.not_false, if_true]
    exact ih

theorem upsertInner_succ (hd : s.descend key = some addr) (hread : s.readSlot addr = some a)
    (hleaf : s.leaves[a.ptr]? = some m) (hlock : m.checkSplitLock = true)
    {r : LeafNode.UpsertResult D}
    (hup : LeafNode.upsert s.leaves a.ptr key payload (some a) = some r) (hret : r.ret ≠ 7)
    (fuel : Nat) :
    upsertInner f key payload (fuel + 1) s =
      (s.withLeaves r.leaves).afterUpsert f addr r.ret r.leafToSplit := by
  rw [upsertInner, hd]
  simp only [orFault, bind, Except.bind, hread, hleaf, hlock, Bool.not_true, Bool.false_eq_true,
    if_false, hup, hret]
  rw [withLeaves]
  cases afterUpsert f { s with leaves := r.leaves } addr r.ret r.leafToSplit <;> rfl

/-- 鍵を書いた leaf。 -/
def Wrote (key : Key) (payload : Payload) (z : Link D) (l : LeafNode D) : Prop :=
  ∃ b, LeafNode.Rewritten z.2 l (z.2.home key) b (b.upsert key payload).2

/-- 鍵の leaf として `z` を選んだ。親 slot を通して着いたときだけ、`acc` はその番地である。 -/
def Chosen (s : PlinIndex D) (key : Key) (z : Link D) (acc : Option SlotAddr) : Prop :=
  ∃ a block, s.choose key = some (.at z.1 a block) ∧ a.isSome = acc.isSome

omit [Arith D] in
theorem Entered.withLeaves {acc : Option SlotAddr} (h : s.Entered t slots z acc)
    (hhead : LeafNode.SameHeader z.2 l) (leaves : List (LeafNode D)) :
    (s.withLeaves leaves).Entered t slots (z.1, l) acc := by
  cases acc with
  | none => exact h
  | some a =>
    obtain ⟨i, j, rfl, hi, hread⟩ := h
    refine ⟨i, j, rfl, hi, ?_⟩
    rw [info_eq hhead]
    exact hread

/--
着いた slot が連鎖の leaf のものなら、`upsert` は鍵以下の最後の leaf に書いて終わるか、続けてその leaf を
分割する。やり直しは起きない。
-/
theorem Wired.upsertInner_eq (h : s.Wired c t rest slots) (hp : s.Plausible)
    (payload : Payload) (hhi : key ≤ s.maxKey) (hd : s.descend key = some addr) {X Y : Tier D}
    {x : InnerId × InnerNode D} {P Q : List (InnerSlot D)} {y : Link D}
    (hland : Landing t slots key X x Y P y.info Q) (haddr : addr = .inner x.1 P.length)
    (hread : s.readSlot addr = some y.info) (hy : y ∈ c) :
    ∃ A z B l acc, IsPred Link.firstKey key c A z B ∧ Wrote key payload z l ∧
      s.Entered t slots z acc ∧ s.Chosen key z acc ∧
      (¬ z.2.Due key ∧ (∀ fuel, upsertInner f key payload (fuel + 1) s =
          .ok (s.withLeaves (s.leaves.set z.1 l))) ∨
        z.2.Due key ∧ ∀ fuel, upsertInner f key payload (fuel + 1) s =
          (s.withLeaves (s.leaves.set z.1 l)).split f z.1 acc) := by
  obtain ⟨A, z, B, acc, hpred, hloc, hacc⟩ := h.locate hp hhi hy hland.pred
  have hz := h.chain.sound z hpred.mem
  have hw : z.2.checkWriteLock acc = true := by
    rcases hacc with ⟨rfl, -⟩ | ⟨rfl, -⟩
    · rfl
    · simp [LeafNode.checkWriteLock, hz.unlocked]
  obtain ⟨l, b, ret, split, hwrote, hup, hcases⟩ := LeafNode.upsert_rewrites hloc
    (h.chain.stored z hpred.mem) hw hz.kept (hz.room key) payload
  have hlock : y.2.checkSplitLock = true := by
    simp [LeafNode.checkSplitLock, (h.chain.sound y hy).unlocked]
  have hret : ret ≠ 7 := by
    rcases hcases with ⟨-, hret, -⟩ | ⟨-, rfl, -⟩
    · exact hret
    · split <;> decide
  have hrun := upsertInner_succ (f := f) (m := y.2) hd hread (h.chain.stored y hy) hlock hup hret
  have hent : s.Entered t slots z (if acc.isSome then some addr else none) := by
    rcases hacc with ⟨rfl, rfl⟩ | ⟨rfl, hnone⟩
    · exact ⟨x.1, P.length, haddr, by rw [hland.tier]; simp, hread⟩
    · exact hnone
  have hchosen : s.Chosen key z (if acc.isSome then some addr else none) := by
    refine ⟨acc, z.2.predict key, ?_, by cases acc <;> rfl⟩
    rw [choose, hd, Option.bind_eq_bind, Option.bind_some, hread, Option.bind_eq_bind,
      Option.bind_some]
    exact hloc
  refine ⟨A, z, B, l, _, hpred, ⟨b, hwrote⟩, hent, hchosen, ?_⟩
  rcases hcases with ⟨rfl, -, hdue⟩ | ⟨rfl, rfl, hdue⟩
  · exact Or.inl ⟨hdue, hrun⟩
  · refine Or.inr ⟨hdue, fun fuel => (hrun fuel).trans ?_⟩
    cases acc <;> rfl

/-- **終わった `upsert` は、連鎖の中で鍵以下の最後の leaf に書いている。** -/
theorem Wired.upsertInner_cases (h : s.Wired c t rest slots) (hp : s.Plausible)
    (hlo : s.minKey ≤ key) (hhi : key ≤ s.maxKey) {fuel : Nat}
    (hs : upsertInner f key payload fuel s = .ok s') :
    ∃ A z B l acc, IsPred Link.firstKey key c A z B ∧ Wrote key payload z l ∧
      s.Entered t slots z acc ∧ s.Chosen key z acc ∧
      (¬ z.2.Due key ∧ s' = s.withLeaves (s.leaves.set z.1 l) ∨
        z.2.Due key ∧ (s.withLeaves (s.leaves.set z.1 l)).split f z.1 acc = .ok s') := by
  cases fuel with
  | zero => cases hs
  | succ fuel =>
    cases hd : s.descend key with
    | none =>
      rw [upsertInner, hd] at hs
      cases hs
    | some addr =>
      obtain ⟨X, x, Y, P, e, Q, hland, haddr, hread⟩ :=
        h.rooted.of_descend (h.tame hp.inners) hlo hhi hd
      rcases h.known e hland.pred.mem with ⟨y, hy, rfl⟩ | ⟨m, hm, -, hlock⟩
      · obtain ⟨A, z, B, l, acc, hpred, hwrote, hent, hchosen, hcases⟩ :=
          h.upsertInner_eq (f := f) hp payload hhi hd hland haddr hread hy
        refine ⟨A, z, B, l, acc, hpred, hwrote, hent, hchosen, ?_⟩
        rcases hcases with ⟨hdue, heq⟩ | ⟨hdue, heq⟩
        · rw [heq] at hs
          exact Or.inl ⟨hdue, (Except.ok.inj hs).symm⟩
        · rw [heq] at hs
          exact Or.inr ⟨hdue, hs⟩
      · rw [upsertInner_abandoned hd hread hm hlock] at hs
        cases hs

/-- 鍵以下の最後の leaf に書いても形は保たれる。 -/
theorem Wired.wrote (h : s.Wired c t rest slots) (hhi : key ≤ s.maxKey)
    (hpred : IsPred Link.firstKey key c A z B) (hwrote : Wrote key payload z l) :
    (s.withLeaves (s.leaves.set z.1 l)).Wired (A ++ (z.1, l) :: B) t rest slots := by
  obtain ⟨b, hb⟩ := hwrote
  have hkey : key ≠ freeFlag := ne_of_lt (lt_of_le_of_lt hhi h.rooted.bound)
  have hc := hpred.eq
  subst hc
  refine h.setLink hb.header fun k hk => ?_
  rcases hb.stores hk with hold | hnew
  · exact Or.inl hold
  · rw [Block.get_upsert hkey hk.1] at hnew
    by_cases hkk : k = key
    · subst hkk
      exact Or.inr ⟨hpred.le, hhi, hpred.gt⟩
    · rw [if_neg hkk] at hnew
      exact Or.inl ⟨hk.1, b, hb.mem_block, hnew⟩

/-- **`upsert` は形を保つ。** -/
theorem Wired.upsert (h : s.Wired c t rest slots) (hp : s.Plausible) (hp' : s'.Plausible)
    (hlo : s.minKey < key) (hhi : key < s.maxKey) {fuel : Nat}
    (hs : s.upsert f fuel key payload = .ok s') :
    ∃ c' t' rest' slots', s'.Wired c' t' rest' slots' ∧ SameBounds s s' := by
  rw [PlinIndex.upsert, if_pos ⟨hlo, hhi⟩] at hs
  obtain ⟨A, z, B, l, acc, hpred, hwrote, hent, -, hcases⟩ :=
    h.upsertInner_cases hp hlo.le hhi.le hs
  have hwired := h.wrote hhi.le hpred hwrote
  rcases hcases with ⟨-, rfl⟩ | ⟨-, hsplit⟩
  · exact ⟨_, t, rest, slots, hwired, rfl, rfl, rfl, rfl⟩
  · obtain ⟨b, hb⟩ := hwrote
    obtain ⟨c', t', rest', slots', hwired', -, hbounds, -⟩ := hwired.split
      (z := (z.1, l)) (by simp) (hent.withLeaves hb.header _) hp.inners hp'.inners hp'.heap hsplit
    exact ⟨c', t', rest', slots', hwired', hbounds.min, hbounds.max, hbounds.left, hbounds.right⟩

end Upsert

/-! ## `remove` -/

/-- 終わった `remove` は、leaf を一つ書き換えている。 -/
theorem remove_inner (hlo : s.minKey < key) (hhi : key < s.maxKey) (hs : s.remove key = .ok s') :
    ∃ id l l' i b, s.leaves[id]? = some l ∧ s' = s.withLeaves (s.leaves.set id l') ∧
      LeafNode.Rewritten l l' i b (b.remove key).2 := by
  rw [PlinIndex.remove, if_pos ⟨hlo, hhi⟩] at hs
  cases hd : s.descend key with
  | none =>
    rw [hd] at hs
    cases hs
  | some addr =>
    cases hread : s.readSlot addr with
    | none =>
      rw [hd] at hs
      simp only [orFault, bind, Except.bind, hread] at hs
      cases hs
    | some a =>
      cases hrem : LeafNode.remove s.leaves a.ptr key (some a) with
      | none =>
        rw [hd] at hs
        simp only [orFault, bind, Except.bind, hread, hrem] at hs
        cases hs
      | some r =>
        rw [hd] at hs
        simp only [orFault, bind, Except.bind, hread, hrem] at hs
        rcases LeafNode.remove_rewrites hrem with hret | ⟨id, l, l', i, b, hl, hleaves, hrew⟩
        · rw [if_pos hret] at hs
          cases hs
        · by_cases hret : r.1 = 3
          · rw [if_pos hret] at hs
            cases hs
          · rw [if_neg hret] at hs
            refine ⟨id, l, l', i, b, hl, ?_, hrew⟩
            rw [← hleaves]
            exact (Except.ok.inj hs).symm

omit [Arith D] in
/-- 消した後の leaf の鍵は、前から在った鍵である。 -/
theorem stores_of_remove {i : Nat} {b : Block}
    (h : LeafNode.Rewritten l l' i b (b.remove key).2) {k : Key} (hk : l'.Stores k) :
    l.Stores k := by
  rcases h.stores hk with hold | hnew
  · exact hold
  · exact ⟨hk.1, b, h.mem_block, Block.get_of_remove hk.1 hnew⟩

/-- **`remove` は形を保つ。** 連鎖の leaf の親 slot も変わらない。 -/
theorem Wired.remove (h : s.Wired c t rest slots) (hlo : s.minKey < key) (hhi : key < s.maxKey)
    (hs : s.remove key = .ok s') :
    ∃ c', s'.Wired c' t rest slots ∧ SameBounds s s' ∧ s'.leafNumber = s.leafNumber ∧
      c'.map Link.info = c.map Link.info := by
  obtain ⟨id, l, l', i, b, hl, rfl, hrew⟩ := remove_inner hlo hhi hs
  by_cases hid : ∃ x ∈ c, x.1 = id
  · obtain ⟨x, hx, rfl⟩ := hid
    obtain rfl := Option.some.inj (hl.symm.trans (h.chain.stored x hx))
    obtain ⟨A, B, rfl⟩ := List.append_of_mem hx
    exact ⟨_, h.setLink hrew.header fun k hk => Or.inl (stores_of_remove hrew hk),
      ⟨rfl, rfl, rfl, rfl⟩, rfl, map_info_eq hrew.header⟩
  · push Not at hid
    exact ⟨c, h.setOther hl (fun x hx => (hid x hx).symm) hrew.header, ⟨rfl, rfl, rfl, rfl⟩, rfl,
      rfl⟩

/-! ## 内側でない鍵 -/

/-- 左右の buffer を差し替える。 -/
def withBuffers (s : PlinIndex D) (left right : SortedMap Key Payload) : PlinIndex D :=
  { s with leftBuffer := left, rightBuffer := right }

section Buffer

variable {left right : SortedMap Key Payload}

theorem upsert_buffer {f : Fitter D} {fuel : Nat} (h : ¬ (s.minKey < key ∧ key < s.maxKey)) :
    s.upsert f fuel key payload = .ok (if key < s.minKey then
      s.withBuffers (s.leftBuffer.upsert key payload) s.rightBuffer
        else s.withBuffers s.leftBuffer (s.rightBuffer.upsert key payload)) := by
  unfold PlinIndex.upsert
  rw [if_neg h]
  split <;> rfl

theorem remove_buffer (h : ¬ (s.minKey < key ∧ key < s.maxKey)) :
    s.remove key = .ok (if key < s.minKey then
      s.withBuffers (s.leftBuffer.erase key) s.rightBuffer
        else s.withBuffers s.leftBuffer (s.rightBuffer.erase key)) := by
  unfold PlinIndex.remove
  rw [if_neg h]
  split <;> rfl

/-- buffer を差し替えても、索引の内側は変わらない。 -/
theorem Wired.setBuffers (h : s.Wired c t rest slots) (left right : SortedMap Key Payload) :
    (s.withBuffers left right).Wired c t rest slots :=
  ⟨h.rooted.congr rfl rfl rfl rfl, h.chain, h.first, h.table, h.full, h.known, h.number⟩

theorem find_withBuffers_outside (h : ¬ (s.minKey ≤ key ∧ key ≤ s.maxKey)) (payload : Payload) :
    (s.withBuffers left right).find key payload =
      match (if key < s.minKey then left.find key else right.find key) with
      | some p => .ok (true, p)
      | none => .ok (false, payload) :=
  find_outside (s.withBuffers left right) h payload

theorem find_withBuffers_inside (h : s.minKey ≤ key ∧ key ≤ s.maxKey) (payload : Payload) :
    (s.withBuffers left right).find key payload = s.find key payload := by
  have h' : (s.withBuffers left right).minKey ≤ key ∧ key ≤ (s.withBuffers left right).maxKey := h
  unfold find
  rw [if_pos h', if_pos h]
  rfl

end Buffer

end PlinIndex

end Plin
