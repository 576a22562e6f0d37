import Plin.Properties.BulkLoad
import Plin.Properties.IndexStep

/-!
# 実行の間の中身

leaf の連鎖の中身が写像 `m` であること（`Contents`）は、block を一つ書き換えれば `m` の一点を書き換えた
ものになり（`Contents.rewritten`）、**分割では変わらない**（`Contents.resplit`）。

`remove` の無い実行では、overflow tree を持つ block に空き slot は無い（`Block.Packed`）。空き slot が在れば
鍵が slot と overflow tree に二重に記録されることがあるので、これを保つことが要る。
-/

namespace Plin

open Infra

variable {D : Type} [Arith D]

/-! ## 空き slot の無い block -/

namespace Block

/-- overflow tree が在れば、空き slot は無い。 -/
def Packed (b : Block) : Prop := b.overflowTree ≠ none → slotGet b.slots freeFlag = none

theorem Packed.upsertSafe {b : Block} (h : b.Packed) (k : Key) : b.UpsertSafe k := by
  intro htree
  refine Or.inr (h fun hnone => htree ?_)
  rw [treeGet, hnone]
  rfl

theorem slotGet_replace {x y : List DataSlot} {s t : DataSlot} {k : Key}
    (h : slotGet (x ++ s :: y) k = none) (ht : t.key ≠ k) : slotGet (x ++ t :: y) k = none := by
  rw [slotGet_eq_none] at h ⊢
  intro u hu
  rcases List.mem_append.mp hu with hu | hu
  · exact h u (by simp [hu])
  · rcases List.mem_cons.mp hu with rfl | hu
    · exact ht
    · exact h u (by simp [hu])

theorem Packed.upsert {b : Block} (h : b.Packed) {k : Key} (hk : k ≠ freeFlag) (p : Payload) :
    (b.upsert k p).2.Packed := by
  rcases upsert_cases b k p with ⟨x, s, y, hb, hs, -, he⟩ | ⟨-, x, s, y, hb, hs, -, he⟩ |
    ⟨-, hf, he⟩
  · rw [he]
    intro htree
    have hold := h htree
    rw [hb] at hold
    exact slotGet_replace hold (by rw [← hs] at hk; exact hk)
  · rw [he]
    intro htree
    have hold := h htree
    rw [slotGet_eq_none] at hold
    exact absurd hs (hold s (by rw [hb]; simp))
  · rw [he]
    exact fun _ => hf

theorem Packed.place {b : Block} (h : b.Packed) (k : Key) (p : Payload) :
    (b.place k p).2.Packed := by
  rcases place_cases b k p with ⟨x, s, y, hb, hs, he⟩ | ⟨hf, he⟩
  · rw [he]
    intro htree
    have hold := h htree
    rw [slotGet_eq_none] at hold
    exact absurd hs (hold s (by rw [hb]; simp))
  · rw [he]
    exact fun _ => hf

end Block

namespace LeafNode

/-- どの block も空き slot の無い block である。 -/
def Packed (l : LeafNode D) : Prop := ∀ b ∈ l.blocks, b.Packed

/-- 空の block が満たし、鍵を置いても崩れない性質は、構築した leaf のどの block でも成り立つ。 -/
theorem forall_blocks_new {P : Block → Prop} (hinit : P Block.init)
    (hplace : ∀ b k p, P b → P (b.place k p).2) (blockNumber : Nat) (data : List (Key × Payload))
    (startPos : Nat) (slope intercept : D) (prev : Option LeafId) :
    ∀ b ∈ (new blockNumber data startPos slope intercept prev).blocks, P b := by
  have hfold : ∀ {l : LeafNode D}, (∀ b ∈ l.blocks, P b) → ∀ b ∈ (l.placeAll data).blocks, P b := by
    induction data with
    | nil => exact fun h => h
    | cons e data ih =>
      intro l h
      refine ih ?_
      unfold dataPlacement
      dsimp only
      split
      · exact h
      · next b hb =>
        intro u hu
        rcases List.mem_or_eq_of_mem_set hu with hu | rfl
        · exact h u hu
        · exact hplace b e.1 e.2 (h b (List.mem_of_getElem? hb))
  refine @hfold (initial blockNumber (data.map Prod.fst) startPos slope intercept prev) ?_
  intro b hb
  rw [show b = Block.init from List.eq_of_mem_replicate hb]
  exact hinit

/-- 構築したばかりの leaf には、空き slot と overflow tree の両方を持つ block が無い。 -/
theorem packed_new (blockNumber : Nat) (data : List (Key × Payload)) (startPos : Nat)
    (slope intercept : D) (prev : Option LeafId) :
    (new blockNumber data startPos slope intercept prev).Packed :=
  forall_blocks_new (fun h => absurd rfl h) (fun _ k p h => Block.Packed.place h k p) blockNumber
    data startPos slope intercept prev

/-- 構築したばかりの leaf の block は、どれも 15 個の slot を持つ。 -/
theorem length_slots_new (blockNumber : Nat) (data : List (Key × Payload)) (startPos : Nat)
    (slope intercept : D) (prev : Option LeafId) :
    ∀ b ∈ (new blockNumber data startPos slope intercept prev).blocks,
      b.slots.length = leafRealSlotsPerBlock := by
  refine forall_blocks_new (by simp [Block.init]) (fun b k p h => ?_) blockNumber data startPos
    slope intercept prev
  rcases Block.place_cases b k p with ⟨x, s, y, hb, -, he⟩ | ⟨-, he⟩
  · rw [he]
    rw [hb] at h
    simpa using h
  · rw [he]
    exact h

end LeafNode

/-- block は `block_number` 個以上ある。折り返した `block_number` は小さくなるだけである。 -/
def LeafNode.Sized (l : LeafNode D) : Prop := l.blockNumber ≤ l.blocks.length

theorem LeafNode.sized_new (blockNumber : Nat) (data : List (Key × Payload)) (startPos : Nat)
    (slope intercept : D) (prev : Option LeafId) :
    (new blockNumber data startPos slope intercept prev).Sized := by
  have h := new_header blockNumber data startPos slope intercept prev
  rw [Sized, h.length, h.header]
  show blockNumber % 2 ^ 32 ≤ (List.replicate blockNumber Block.init).length
  rw [List.length_replicate]
  exact Nat.mod_le _ _

omit [Arith D] in
theorem LeafNode.Sized.of_header {l l' : LeafNode D} (h : l.Sized) (hhead : SameHeader l l') :
    l'.Sized := by
  rw [Sized, hhead.length, hhead.header]
  exact h

/-! ## 作られたばかりの leaf -/

section Fresh

variable {P : LeafNode D → Prop}

/-- 構築子の作る leaf がどれも満たす性質は、区分から作られた leaf の列でも成り立つ。 -/
theorem forall_freshLeaves
    (hnew : ∀ bn data startPos (slope intercept : D) prev,
      P (LeafNode.new bn data startPos slope intercept prev)) {segs : List (Segment D)} :
    ∀ {data : List (Key × Payload)} {startPos : Nat} {prev : Option LeafId} {id : LeafId},
      ∀ l ∈ freshLeaves segs data startPos prev id, P l := by
  induction segs with
  | nil =>
    intro data startPos prev id l hl
    cases hl
  | cons seg segs ih =>
    intro data startPos prev id l hl
    rw [freshLeaves] at hl
    rcases List.mem_cons.mp hl with rfl | hl
    · exact hnew _ _ _ seg.slope seg.intercept _
    · exact ih l hl

/-- `next` をつないだ後も成り立つ。 -/
theorem forall_linkLeaves
    (hnew : ∀ bn data startPos (slope intercept : D) prev,
      P (LeafNode.new bn data startPos slope intercept prev))
    (hlink : ∀ l prev next, P l → P { l with prev := prev, next := next })
    {segs : List (Segment D)} {data : List (Key × Payload)} {prev next : Option LeafId}
    {id : LeafId} : ∀ x ∈ linkLeaves id next (freshLeaves segs data 0 prev id), P x.2 := by
  intro x hx
  obtain ⟨l, hl, hxl⟩ := linkLeaves_spec hx
  rw [hxl]
  exact hlink l l.prev x.2.next (forall_freshLeaves hnew l hl)

theorem packed_linkLeaves {segs : List (Segment D)} {data : List (Key × Payload)}
    {prev next : Option LeafId} {id : LeafId} :
    ∀ x ∈ linkLeaves id next (freshLeaves segs data 0 prev id), x.2.Packed :=
  forall_linkLeaves LeafNode.packed_new fun _ _ _ h => h

theorem length_slots_linkLeaves {segs : List (Segment D)} {data : List (Key × Payload)}
    {prev next : Option LeafId} {id : LeafId} :
    ∀ x ∈ linkLeaves id next (freshLeaves segs data 0 prev id), ∀ b ∈ x.2.blocks,
      b.slots.length = leafRealSlotsPerBlock :=
  @forall_linkLeaves D _ (fun l => ∀ b ∈ l.blocks, b.slots.length = leafRealSlotsPerBlock)
    LeafNode.length_slots_new (fun _ _ _ h => h) segs data prev next id

theorem sized_linkLeaves {segs : List (Segment D)} {data : List (Key × Payload)}
    {prev next : Option LeafId} {id : LeafId} :
    ∀ x ∈ linkLeaves id next (freshLeaves segs data 0 prev id), x.2.Sized :=
  forall_linkLeaves LeafNode.sized_new fun _ _ _ h => h

end Fresh

/-! ## block を一つ書き換える -/

variable {lo hi key : Key} {leaves : List (LeafNode D)} {c A B : List (Link D)} {z : Link D}
  {l : LeafNode D} {m : Key → Option Payload}

/-- 連鎖の他の leaf は、着いた leaf ではない。 -/
theorem Chain.ne_of_mem (h : Chain lo hi leaves (A ++ z :: B)) {x : Link D}
    (hx : x ∈ A ∨ x ∈ B) : x ≠ z := by
  have hsorted := h.firstKey_sorted
  rw [List.pairwise_append, List.pairwise_cons] at hsorted
  rintro rfl
  rcases hx with hx | hx
  · exact lt_irrefl _ (hsorted.2.2 x hx x (by simp))
  · exact lt_irrefl _ (hsorted.2.1.1 x hx)

/-- **block の一点を書き換えれば、中身も一点だけ書き換わる。** -/
theorem Contents.rewritten (hm : Contents c m) (h : Chain lo hi leaves c)
    (hpred : IsPred Link.firstKey key c A z B) (hkey : key ≠ freeFlag) {b b' : Block}
    (hrew : LeafNode.Rewritten z.2 l (z.2.predict key) b b') (hinv : b'.Inv) {w : Option Payload}
    (hget : ∀ k, k ≠ freeFlag → b'.get k = if k = key then w else b.get k) :
    Contents (A ++ (z.1, l) :: B) fun k => if k = key then w else m k := by
  have hz := hpred.mem
  have hc := hpred.eq
  -- 書き換えた leaf の block
  have hblock : ∀ i u, l.blocks[i]? = some u →
      i = z.2.predict key ∧ u = b' ∨ i ≠ z.2.predict key ∧ z.2.blocks[i]? = some u := by
    intro i u hu
    rw [hrew.blocks] at hu
    by_cases hi : i = z.2.predict key
    · rw [hi, List.getElem?_set_self (List.getElem?_eq_some_iff.mp hrew.block).1] at hu
      exact Or.inl ⟨hi, (Option.some.inj hu).symm⟩
    · rw [List.getElem?_set_ne (Ne.symm hi)] at hu
      exact Or.inr ⟨hi, hu⟩
  have hold : ∀ x, x ∈ A ∨ x ∈ B → x ∈ c ∧ x ≠ z := by
    intro x hx
    refine ⟨?_, Chain.ne_of_mem (hc ▸ h) hx⟩
    rw [hc, List.mem_append, List.mem_cons]
    tauto
  have hcases : ∀ x ∈ A ++ (z.1, l) :: B, x = (z.1, l) ∨ x ∈ c ∧ x ≠ z := by
    intro x hx
    rw [List.mem_append, List.mem_cons] at hx
    rcases hx with hx | rfl | hx
    · exact Or.inr (hold x (Or.inl hx))
    · exact Or.inl rfl
    · exact Or.inr (hold x (Or.inr hx))
  have hbm := hrew.mem_block
  refine ⟨?_, ?_, ?_, ?_⟩
  · intro x hx u hu
    rcases hcases x hx with rfl | ⟨hx, -⟩
    · obtain ⟨i, hi⟩ := List.mem_iff_getElem?.mp hu
      rcases hblock i u hi with ⟨-, rfl⟩ | ⟨-, hi⟩
      · exact hinv
      · exact hm.inv z hz u (List.mem_of_getElem? hi)
    · exact hm.inv x hx u hu
  · intro x hx i u k hi hk hne
    rcases hcases x hx with rfl | ⟨hx, -⟩
    · rw [hrew.header.predict]
      rcases hblock i u hi with ⟨rfl, rfl⟩ | ⟨-, hi⟩
      · rw [hget k hk] at hne
        by_cases hkk : k = key
        · rw [hkk]
        · rw [if_neg hkk] at hne
          exact hm.home z hz _ b k hrew.block hk hne
      · exact hm.home z hz i u k hi hk hne
    · exact hm.home x hx i u k hi hk hne
  · intro x hx u hu k v hk hv
    rcases hcases x hx with rfl | ⟨hx, hxz⟩
    · obtain ⟨i, hi⟩ := List.mem_iff_getElem?.mp hu
      rcases hblock i u hi with ⟨-, rfl⟩ | ⟨hne, hi⟩
      · rw [hget k hk] at hv
        by_cases hkk : k = key
        · rw [if_pos hkk] at hv ⊢
          exact hv
        · rw [if_neg hkk] at hv ⊢
          exact hm.sound z hz b hbm k v hk hv
      · have hkk : k ≠ key := by
          rintro rfl
          exact hne (hm.home z hz i u k hi hk (by simp [hv]))
        rw [if_neg hkk]
        exact hm.sound z hz u (List.mem_of_getElem? hi) k v hk hv
    · have hkk : k ≠ key := by
        rintro rfl
        exact hxz (h.eq_of_stores hpred hx ⟨hk, u, hu, by simp [hv]⟩)
      rw [if_neg hkk]
      exact hm.sound x hx u hu k v hk hv
  · intro k v hv
    have hmem : ∀ (u : Block) i, l.blocks[i]? = some u → u.get k = some v →
        ∃ x ∈ A ++ (z.1, l) :: B, ∃ b ∈ x.2.blocks, b.get k = some v :=
      fun u i hi hu => ⟨(z.1, l), by simp, u, List.mem_of_getElem? hi, hu⟩
    have hnew : l.blocks[z.2.predict key]? = some b' := by
      rw [hrew.blocks]
      exact List.getElem?_set_self (List.getElem?_eq_some_iff.mp hrew.block).1
    by_cases hkk : k = key
    · rw [if_pos hkk] at hv
      have hkf : k ≠ freeFlag := by
        rw [hkk]
        exact hkey
      exact ⟨hkf, hmem b' _ hnew (by rw [hget k hkf, if_pos hkk, hv])⟩
    · rw [if_neg hkk] at hv
      obtain ⟨hk, x, hx, u, hu, hu'⟩ := hm.complete k v hv
      refine ⟨hk, ?_⟩
      by_cases hxz : x = z
      · subst hxz
        obtain ⟨i, hi⟩ := List.mem_iff_getElem?.mp hu
        by_cases hik : i = x.2.predict key
        · rw [hik, hrew.block] at hi
          obtain rfl := Option.some.inj hi
          exact hmem b' _ hnew (by rw [hget k hk, if_neg hkk, hu'])
        · refine hmem u i ?_ hu'
          rw [hrew.blocks, List.getElem?_set_ne (Ne.symm hik)]
          exact hi
      · refine ⟨x, ?_, u, hu, hu'⟩
        rw [hc, List.mem_append, List.mem_cons] at hx
        rw [List.mem_append, List.mem_cons]
        tauto

/-! ## 分割 -/

section Split

variable {r x y : Link D} {new : List (Link D)} {f : Fitter D} {c' : List (Link D)}

/-- つながりの他は同じ leaf。 -/
def Link.Relinked (y x : Link D) : Prop :=
  ∃ prev next, x = (y.1, { y.2 with prev := prev, next := next })

omit [Arith D] in
theorem mem_spliced {l : Link D} (z : Link D) (hx : x ∈ spliced A l new r B) :
    x ∈ new ∨ ∃ y ∈ A ++ l :: z :: r :: B, y.Relinked x := by
  have hself : ∀ y : Link D, y.Relinked y := fun y => ⟨y.2.prev, y.2.next, rfl⟩
  unfold spliced at hx
  rcases List.mem_append.mp hx with hx | hx
  · exact Or.inr ⟨x, by simp [hx], hself x⟩
  · rcases List.mem_cons.mp hx with rfl | hx
    · exact Or.inr ⟨l, by simp, l.2.prev, _, rfl⟩
    · rcases List.mem_append.mp hx with hx | hx
      · exact Or.inl hx
      · rcases List.mem_cons.mp hx with rfl | hx
        · exact Or.inr ⟨r, by simp, _, r.2.next, rfl⟩
        · exact Or.inr ⟨x, by simp [hx], hself x⟩

omit [Arith D] in
theorem exists_mem_spliced {l : Link D} (new : List (Link D)) (hy : y ∈ A ++ l :: z :: r :: B) :
    y = z ∨ ∃ x ∈ spliced A l new r B, y.Relinked x := by
  have hself : y.Relinked y := ⟨y.2.prev, y.2.next, rfl⟩
  unfold spliced
  rcases List.mem_append.mp hy with hy | hy
  · exact Or.inr ⟨y, by simp [hy], hself⟩
  · rcases List.mem_cons.mp hy with rfl | hy
    · exact Or.inr ⟨y.withNext (firstId new none), by simp, y.2.prev, _, rfl⟩
    · rcases List.mem_cons.mp hy with hy | hy
      · exact Or.inl hy
      · rcases List.mem_cons.mp hy with rfl | hy
        · exact Or.inr ⟨y.withPrev (lastId none new), by simp, _, y.2.next, rfl⟩
        · exact Or.inr ⟨y, by simp [hy], hself⟩

theorem Chain.keysBelow (h : Chain lo hi leaves c) (hhi : hi < freeFlag) (hz : z ∈ c) :
    z.2.KeysBelow :=
  LeafNode.keysBelow_of_stores fun k hk => lt_of_le_of_lt ((h.sound z hz).keys k hk).2 hhi

/-- `get_data` の組は、leaf の中身である。 -/
theorem Contents.mem_getData (hm : Contents c m) (hz : z ∈ c) (hbelow : z.2.KeysBelow) {k : Key}
    {v : Payload} :
    (k, v) ∈ z.2.getData.1 ↔ k ≠ freeFlag ∧ ∃ b ∈ z.2.blocks, b.get k = some v := by
  rw [(LeafNode.getData_perm hbelow).mem_iff, LeafNode.pairs, List.mem_filter, List.mem_flatMap]
  constructor
  · rintro ⟨⟨b, hb, hmem⟩, hk⟩
    have hk : k ≠ freeFlag := of_decide_eq_true hk
    exact ⟨hk, b, hb, Block.get_of_mem_pairs (hm.inv z hz b hb) hk hmem⟩
  · rintro ⟨hk, b, hb, hget⟩
    exact ⟨⟨b, hb, Block.mem_pairs_of_get hk hget⟩, decide_eq_true hk⟩

theorem Contents.nodup_getData (hm : Contents c m) (hz : z ∈ c) (hbelow : z.2.KeysBelow) :
    (z.2.getData.1.map Prod.fst).Nodup :=
  ((LeafNode.getData_perm hbelow).map Prod.fst).nodup_iff.mpr
    (LeafNode.nodup_pairs (hm.inv z hz) z.2.predict (hm.home z hz))

/-- 新しい leaf の中身は、分割した leaf の中身である。 -/
theorem Contents.retrained {l : Link D} (hm : Contents (A ++ l :: z :: r :: B) m)
    (h : Chain lo hi leaves (A ++ l :: z :: r :: B)) (hhi : hi < freeFlag)
    (hsmall : ∀ y ∈ freshLeaves (splitSegments f z.2) z.2.getData.1 0 (some l.1) leaves.length,
      y.blockNumber < 2 ^ 29) :
    Contents (splitChain f leaves.length l z r) fun k => z.2.getData.1.lookup k := by
  have hz : z ∈ A ++ l :: z :: r :: B := by simp
  have hbelow := h.keysBelow hhi hz
  have hnd := hm.nodup_getData hz hbelow
  have hstrict : (z.2.getData.1.map Prod.fst).Pairwise (· < ·) :=
    (z.2.getData_sorted.and hnd).imp fun hab => lt_of_le_of_ne hab.1 hab.2
  have hsum : ((splitSegments f z.2).map (·.number)).sum = z.2.getData.1.length := by
    rw [splitSegments, sum_number_makeSegmentation f epsilonLeafNode hstrict, List.length_map]
  exact PlinIndex.contents_linkLeaves (some l.1) leaves.length (some r.1) hsum hnd
    (fun e he => ((hm.mem_getData hz hbelow).mp he).1) (h.freshChain hhi hsmall).home

/-- **分割の前後で中身は変わらない。** -/
theorem Contents.resplit (hm : Contents c m) (h : Chain lo hi leaves c) (hhi : hi < freeFlag)
    (hsplit : PlinIndex.Resplit f leaves.length z c c') : Contents c' m := by
  cases hsplit with
  | edge => exact hm
  | middle A l r B hsmall =>
    have hz : z ∈ A ++ l :: z :: r :: B := by simp
    have hbelow := h.keysBelow hhi hz
    have hnew := hm.retrained h hhi hsmall
    have hdata : ∀ k v, z.2.getData.1.lookup k = some v ↔
        k ≠ freeFlag ∧ ∃ b ∈ z.2.blocks, b.get k = some v := by
      intro k v
      rw [PlinIndex.lookup_eq_some_iff_mem (hm.nodup_getData hz hbelow)]
      exact hm.mem_getData hz hbelow
    refine ⟨?_, ?_, ?_, ?_⟩
    · intro x hx b hb
      rcases mem_spliced z hx with hx | ⟨y, hy, _, _, rfl⟩
      · exact hnew.inv x hx b hb
      · exact hm.inv y hy b hb
    · intro x hx i b k hi hk hget
      rcases mem_spliced z hx with hx | ⟨y, hy, _, _, rfl⟩
      · exact hnew.home x hx i b k hi hk hget
      · exact hm.home y hy i b k hi hk hget
    · intro x hx b hb k v hk hget
      rcases mem_spliced z hx with hx | ⟨y, hy, _, _, rfl⟩
      · obtain ⟨-, u, hu, huv⟩ := (hdata k v).mp (hnew.sound x hx b hb k v hk hget)
        exact hm.sound z hz u hu k v hk huv
      · exact hm.sound y hy b hb k v hk hget
    · intro k v hkv
      obtain ⟨hk, y, hy, b, hb, hget⟩ := hm.complete k v hkv
      refine ⟨hk, ?_⟩
      rcases exists_mem_spliced (splitChain f leaves.length l z r) hy with rfl | ⟨x, hx, _, _, rfl⟩
      · obtain ⟨-, x, hx, u, hu, huv⟩ := hnew.complete k v ((hdata k v).mpr ⟨hk, b, hb, hget⟩)
        exact ⟨x, by simp [spliced, hx], u, hu, huv⟩
      · exact ⟨_, hx, b, hb, hget⟩

/-- 構築子の作る leaf がどれも満たす性質は、分割の後の連鎖でも成り立つ。 -/
theorem forall_resplit {P : LeafNode D → Prop} {n : Nat}
    (hnew : ∀ bn data startPos (slope intercept : D) prev,
      P (LeafNode.new bn data startPos slope intercept prev))
    (hlink : ∀ l prev next, P l → P { l with prev := prev, next := next })
    (h : ∀ x ∈ c, P x.2) (hsplit : PlinIndex.Resplit f n z c c') : ∀ x ∈ c', P x.2 := by
  cases hsplit with
  | edge => exact h
  | middle A l r B hsmall =>
    intro x hx
    rcases mem_spliced z hx with hx | ⟨y, hy, prev, next, rfl⟩
    · exact forall_linkLeaves hnew hlink x hx
    · exact hlink y.2 prev next (h y hy)

theorem packed_resplit {n : Nat} (h : ∀ x ∈ c, x.2.Packed)
    (hsplit : PlinIndex.Resplit f n z c c') : ∀ x ∈ c', x.2.Packed :=
  forall_resplit LeafNode.packed_new (fun _ _ _ h => h) h hsplit

theorem sized_resplit {n : Nat} (h : ∀ x ∈ c, x.2.Sized)
    (hsplit : PlinIndex.Resplit f n z c c') : ∀ x ∈ c', x.2.Sized :=
  forall_resplit LeafNode.sized_new (fun _ _ _ h => h) h hsplit

/-- 分割の後の leaf の `first_key` は、前の leaf の `first_key` か、分割した leaf の鍵である。 -/
theorem firstKey_resplit (h : Chain lo hi leaves c) (hhi : hi < freeFlag)
    (hsplit : PlinIndex.Resplit f leaves.length z c c') (hx : x ∈ c') :
    (∃ y ∈ c, x.firstKey = y.firstKey) ∨ z ∈ c ∧ z.2.Stores x.firstKey := by
  cases hsplit with
  | edge => exact Or.inl ⟨x, hx, rfl⟩
  | middle A l r B hsmall =>
    rcases mem_spliced z hx with hx | ⟨y, hy, _, _, rfl⟩
    · exact Or.inr ⟨by simp, (h.before_splitChain hhi hsmall hx).1⟩
    · exact Or.inl ⟨y, hy, rfl⟩

end Split

end Plin
