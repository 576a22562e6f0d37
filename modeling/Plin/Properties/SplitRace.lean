import Plin.Index.SplitRace
import Plin.Properties.LeafBuild

/-!
# 分割の間に書かれた鍵は残るか

`upsert` は lock を確かめてから block を書くまでの間に分割に追い越されうる。追い越された書き込みは
写し取られた後の block に入るので、新しい leaf には現れない。`upsert` は最後に `is_abandoned` を
見てやり直すが、**写し取りが終わってから `set_abandoned` までの間に見ると、成功を返してしまう**
（`late_write_lost`）。

写し取りより後に書いた thread が、`set_abandoned` より前に `is_abandoned` を見ることが無ければ、成功を
返した書き込みはすべて新しい leaf に残る（`splitRace_no_lost_update`）。
-/

namespace Plin

open Infra Function

variable {D : Type} [Arith D]

/-! ## leaf の形 -/

/--
block `i` の形。

同じ鍵は一か所にだけ在り、どの鍵も予測した block に在る。
-/
structure BlockOk (l : LeafNode D) (i : Nat) (b : Block) : Prop where
  inv : b.Inv
  below : ∀ s ∈ b.slots, s.key ≤ freeFlag
  home : ∀ k, k ≠ freeFlag → b.get k ≠ none → i = SplitRace.blockOf l k

/-- どの block も形を保っている leaf。 -/
structure SplitLeaf (D : Type) [Arith D] where
  leaf : LeafNode D
  ok : ∀ i b, leaf.blocks[i]? = some b → BlockOk leaf i b

/-- 構築された leaf は形を保っている。block の番号は折り返さないものとする。 -/
def SplitLeaf.new (blockNumber : Nat) (data : List (Key × Payload)) (startPos : Nat)
    (slope intercept : D) (prev : Option LeafId) (h3 : 3 ≤ blockNumber)
    (h28 : blockNumber < 2 ^ 28) (hnd : (data.map Prod.fst).Nodup)
    (hbelow : ∀ e ∈ data, e.1 < freeFlag) : SplitLeaf D where
  leaf := LeafNode.new blockNumber data startPos slope intercept prev
  ok i b hb := by
    have hfill := LeafNode.new_filled blockNumber data startPos slope intercept prev h3 hnd
      fun e he => ne_of_lt (hbelow e he)
    have hhome := LeafNode.new_home blockNumber data startPos slope intercept prev
    have hhead := LeafNode.new_header blockNumber data startPos slope intercept prev
    have hlen : i < blockNumber := by
      have := (List.getElem?_eq_some_iff.mp hb).1
      rw [hhead.length] at this
      simpa [LeafNode.initial] using this
    have hmem := List.mem_of_getElem? hb
    refine ⟨hfill.inv b hmem, ?_, fun k hk hget => ?_⟩
    · refine LeafNode.keysBelow_of_stores (fun k hstore => ?_) b hmem
      obtain ⟨hk, c, hc, hget⟩ := hstore
      obtain ⟨j, hj⟩ := List.mem_iff_getElem?.mp hc
      obtain ⟨e, he, rfl⟩ := List.mem_map.mp (hhome j c k hj hk hget).2
      exact hbelow e he
    · have hi := (hhome i b k hb hk hget).1
      rw [SplitRace.blockOf, ← hi, LeafNode.slotBlock]
      have hsmall : i * leafSlotsPerBlock < 2 ^ 32 := by
        rw [leafSlotsPerBlock]
        omega
      rw [Nat.mod_eq_of_lt hsmall, Nat.mul_div_cancel _ (by decide)]

theorem BlockOk.upsert {l : LeafNode D} {b : Block} {k : Key} (hk : k < freeFlag)
    (h : BlockOk l (SplitRace.blockOf l k) b) (hsafe : b.UpsertSafe k) (p : Payload) :
    BlockOk l (SplitRace.blockOf l k) (b.upsert k p).2 where
  inv := Block.inv_upsert (ne_of_lt hk) h.inv hsafe
  below := by
    rcases b.upsert_cases k p with ⟨x, s, y, hb, hs, -, he⟩ | ⟨-, x, s, y, hb, hs, -, he⟩ |
      ⟨-, -, he⟩
    · rw [he]
      intro t ht
      have hbelow := h.below
      rw [hb] at hbelow
      rcases List.mem_append.mp ht with ht | ht
      · exact hbelow t (by simp [ht])
      · rcases List.mem_cons.mp ht with rfl | ht
        · exact hbelow s (by simp)
        · exact hbelow t (by simp [ht])
    · rw [he]
      intro t ht
      have hbelow := h.below
      rw [hb] at hbelow
      rcases List.mem_append.mp ht with ht | ht
      · exact hbelow t (by simp [ht])
      · rcases List.mem_cons.mp ht with rfl | ht
        · exact le_of_lt hk
        · exact hbelow t (by simp [ht])
    · rw [he]
      exact h.below
  home := by
    intro k' hk' hget
    rw [Block.get_upsert (ne_of_lt hk) hk'] at hget
    by_cases hkk : k' = k
    · rw [hkk]
    · rw [if_neg hkk] at hget
      exact h.home k' hk' hget

/-! ## 不変量 -/

/-- 成功を返しうる位置で、書いたときに block がまだ写し取られていなかった。 -/
def WriterPc.Early : WriterPc → Prop
  | .releaseLock _ late | .isAbandoned _ late => late = false
  | .returned ret => ret ≠ 7
  | _ => False

/-- 出来上がった leaf の列。 -/
def SplitPc.leaves : SplitPc D → Option (List (LeafNode D))
  | .relink ls | .setAbandoned ls | .placeNodes ls | .finished ls => some ls
  | _ => none

/-- つなぎ替えた leaf の列。 -/
def SplitPc.linked : SplitPc D → Option (List (LeafNode D))
  | .setAbandoned ls | .placeNodes ls | .finished ls => some ls
  | _ => none

namespace SplitRace

variable {T : Type} (f : Fitter D) (l : LeafNode D) (orphan : Bool) (w : Writers T)

/-- 新しい leaf に渡る block。写し取る前は今の block、写し取った後は写しである。 -/
def current (s : SplitRace T D) (i : Nat) : Option Block :=
  if i < s.copied.length then s.copied[i]? else s.blocks[i]?

/-- 分割と書き込みの不変量。 -/
structure Inv (s : SplitRace T D) : Prop where
  ok : ∀ i b, s.current i = some b → BlockOk l i b
  stored : ∀ t, (s.writers t).Early →
    ∃ b, s.current (blockOf l (w.key t)) = some b ∧ b.get (w.key t) = some (w.payload t)
  built : ∀ ls ∈ s.split.leaves,
    s.copied.length = s.blocks.length ∧ retrained f l s.copied = .ok ls
  linked : s.linked = s.split.linked

/--
この一歩は書き込みを失わせない。

* 書くとき、鍵が overflow tree にだけ在って block に空き slot が在る、ということは無い
* `is_abandoned` を見る thread が写し取りより後に書いていたなら、leaf はもう捨てられている
-/
def Safe (l : LeafNode D) (w : Writers T) (s : SplitRace T D) : Option T → Prop
  | some t =>
    (s.writers t = .write → ∀ b, s.blocks[blockOf l (w.key t)]? = some b →
      b.UpsertSafe (w.key t)) ∧
    ∀ ret, s.writers t = .isAbandoned ret true → s.abandoned = true
  | none => True

/-- 分割が終わったとき、成功を返した書き込みはすべて、つながっている leaf に在る。 -/
def Kept (s : SplitRace T D) : Prop :=
  ∀ ls, s.split = .finished ls → ∀ t ret, s.writers t = .returned ret → ret ≠ 7 →
    ∃ leaves, s.linked = some leaves ∧ ∃ x ∈ leaves, ∃ b ∈ x.blocks,
      b.get (w.key t) = some (w.payload t)

variable {f l orphan w}

theorem inv_initial {sl : SplitLeaf D} : Inv f sl.leaf w (initial sl.leaf) where
  ok := sl.ok
  stored _ h := absurd h id
  built _ h := by cases h
  linked := rfl

variable [DecidableEq T] {s : SplitRace T D}

/-- 書き込みの無い一歩。 -/
theorem Inv.move (hi : Inv f l w s) {t : T} {pc : WriterPc} (hpc : pc.Early → (s.writers t).Early)
    {locks : Nat → Bool} {n : Nat} :
    Inv f l w { s with blockLocks := locks, overflowNumber := n, writers := update s.writers t pc }
    where
  ok := hi.ok
  stored u hu := by
    refine hi.stored u ?_
    by_cases h : u = t
    · subst h
      dsimp only at hu
      rw [update_self] at hu
      exact hpc hu
    · dsimp only at hu
      rwa [update_of_ne h] at hu
  built := hi.built
  linked := hi.linked

/-- 早い書き込みは写し取られる前の block を書く。 -/
theorem Inv.write (hi : Inv f l w s) {t : T} {b : Block} {pc : WriterPc}
    (hb : s.blocks[blockOf l (w.key t)]? = some b) (hsafe : b.UpsertSafe (w.key t))
    (hpc : pc.Early → ¬ blockOf l (w.key t) < s.copied.length) :
    Inv f l w
      { s with
        blocks := s.blocks.set (blockOf l (w.key t)) (b.upsert (w.key t) (w.payload t)).2
        writers := update s.writers t pc } where
  ok i c hc := by
    unfold current at hc
    dsimp only at hc
    -- 写し終えた block は、もう書込みの影響を受けない
    by_cases hcopied : i < s.copied.length
    · rw [if_pos hcopied] at hc
      exact hi.ok i c (by rw [current, if_pos hcopied, hc])
    · rw [if_neg hcopied, List.getElem?_set] at hc
      by_cases hib : blockOf l (w.key t) = i
      · subst hib
        have hlt := (List.getElem?_eq_some_iff.mp hb).1
        rw [if_pos rfl, if_pos hlt] at hc
        cases hc
        refine BlockOk.upsert (w.below t) (hi.ok _ b ?_) hsafe _
        rw [current, if_neg hcopied, hb]
      · rw [if_neg hib] at hc
        exact hi.ok i c (by rw [current, if_neg hcopied, hc])
  stored u hu := by
    dsimp only at hu
    unfold current
    dsimp only
    by_cases h : u = t
    · subst h
      rw [update_self] at hu
      have hlt := (List.getElem?_eq_some_iff.mp hb).1
      refine ⟨_, by rw [if_neg (hpc hu), List.getElem?_set_self hlt], ?_⟩
      rw [Block.get_upsert (ne_of_lt (w.below u)) (ne_of_lt (w.below u)), if_pos rfl]
    · rw [update_of_ne h] at hu
      obtain ⟨c, hc, hget⟩ := hi.stored u hu
      unfold current at hc
      by_cases hcopied : blockOf l (w.key u) < s.copied.length
      · rw [if_pos hcopied] at hc
        exact ⟨c, by rw [if_pos hcopied, hc], hget⟩
      · rw [if_neg hcopied] at hc
        rw [if_neg hcopied, List.getElem?_set]
        by_cases hib : blockOf l (w.key t) = blockOf l (w.key u)
        · -- 同じ block に別の鍵が書かれた
          have hlt := (List.getElem?_eq_some_iff.mp hb).1
          rw [if_pos hib, if_pos hlt]
          refine ⟨_, rfl, ?_⟩
          rw [← hib, hb] at hc
          cases hc
          have hne : w.key u ≠ w.key t := fun he => h (w.distinct he)
          rw [Block.get_upsert (ne_of_lt (w.below t)) (ne_of_lt (w.below u)), if_neg hne, hget]
        · rw [if_neg hib]
          exact ⟨c, hc, hget⟩
  built ls hls := by
    obtain ⟨hlen, hr⟩ := hi.built ls hls
    exact ⟨by rw [List.length_set]; exact hlen, hr⟩
  linked := hi.linked

omit [Arith D] [DecidableEq T] in
/-- 写し取りは新しい leaf に渡る block を変えない。 -/
theorem current_getData {b : Block} (hb : s.blocks[s.copied.length]? = some b) (i : Nat) :
    current
      { s with
        blocks := s.blocks.set s.copied.length (LeafNode.sortBlock b)
        copied := s.copied ++ [b] } i = s.current i := by
  unfold current
  dsimp only
  rw [List.length_append, List.length_singleton]
  rcases lt_trichotomy i s.copied.length with hlt | heq | hgt
  · rw [if_pos (by omega), if_pos hlt, List.getElem?_append_left hlt]
  · subst heq
    rw [if_pos (by omega), if_neg (by omega), hb, List.getElem?_concat_length]
  · rw [if_neg (by omega), if_neg (by omega), List.getElem?_set_ne (by omega)]

/-- **一歩の補題。** -/
theorem Inv.step (hi : Inv f l w s) {e : Option T} {s' : SplitRace T D} (hsafe : Safe l w s e)
    (hs : Step f l orphan w s e s') : Inv f l w s' := by
  cases hs with
  | checkReadLock t hpc =>
    refine hi.move fun he => ?_
    cases h : s.readLock with
    | true => simp [h, WriterPc.Early] at he
    | false => simp [h, WriterPc.Early] at he
  | checkWriteLock t hpc =>
    refine hi.move fun he => ?_
    cases h : s.writeLock with
    | true => simp [h, WriterPc.Early] at he
    | false => simp [h, WriterPc.Early] at he
  | getLock t hpc _ => exact hi.move fun he => absurd he id
  | write t b hpc hb =>
    refine hi.write hb (hsafe.1 hpc b hb) fun he => ?_
    exact of_decide_eq_false he
  | releaseLock t flag late hpc =>
    refine hi.move fun he => ?_
    rw [hpc]
    exact he
  | isAbandoned t ret late hpc =>
    refine hi.move fun he => ?_
    rw [hpc]
    cases late with
    | false => rfl
    | true =>
      rw [if_pos (hsafe.2 ret hpc)] at he
      exact absurd rfl he
  | getWriteLock hpc =>
    exact ⟨hi.ok, hi.stored, fun ls h => (by cases h), by rw [hi.linked, hpc]; rfl⟩
  | getData b hpc hb =>
    refine ⟨fun i c hc => hi.ok i c ?_, fun u hu => ?_, fun ls h => ?_, hi.linked⟩
    · rwa [current_getData hb] at hc
    · obtain ⟨c, hc, hget⟩ := hi.stored u hu
      exact ⟨c, by rwa [current_getData hb], hget⟩
    · dsimp only at h
      rw [hpc] at h
      cases h
  | getReadLock leaves hpc hall hne hbuild =>
    refine ⟨hi.ok, hi.stored, fun ls h => ?_, by rw [hi.linked, hpc]; rfl⟩
    cases h
    exact ⟨hall, hbuild⟩
  | relink leaves hpc =>
    exact ⟨hi.ok, hi.stored, fun ls h => hi.built ls (by rw [hpc]; exact h), rfl⟩
  | setAbandoned leaves hpc =>
    refine ⟨hi.ok, hi.stored, fun ls h => hi.built ls (by rw [hpc]; exact h), ?_⟩
    rw [hi.linked, hpc]
    rfl
  | placeNodes leaves hpc =>
    refine ⟨hi.ok, hi.stored, fun ls h => hi.built ls (by rw [hpc]; exact h), ?_⟩
    rw [hi.linked, hpc]
    rfl

/-! ## 写し取った中身 -/

omit [Arith D] [DecidableEq T] in
/-- 写し取りが終われば、新しい leaf に渡る block は写しそのものである。 -/
theorem current_of_copied (h : s.copied.length = s.blocks.length) (i : Nat) :
    s.current i = s.copied[i]? := by
  unfold current
  by_cases hi : i < s.copied.length
  · rw [if_pos hi]
  · rw [if_neg hi, List.getElem?_eq_none (by omega), List.getElem?_eq_none (by omega)]

/-- 形を保つ block を写し取った中身。 -/
theorem data_perm {copied : List Block}
    (hok : ∀ i b, copied[i]? = some b → BlockOk l i b) :
    (data l copied).Perm ({ l with blocks := copied }).pairs := by
  refine LeafNode.getData_perm fun b hb => ?_
  obtain ⟨i, hi⟩ := List.mem_iff_getElem?.mp hb
  exact (hok i b hi).below

/-- 写し取った中身の鍵は狭義に増加する。 -/
theorem data_strict {copied : List Block}
    (hok : ∀ i b, copied[i]? = some b → BlockOk l i b) :
    ((data l copied).map Prod.fst).Pairwise (· < ·) := by
  have hnd : (({ l with blocks := copied }).pairs.map Prod.fst).Nodup := by
    refine LeafNode.nodup_pairs (fun b hb => ?_) (blockOf l) fun i b k hi hk hget => ?_
    · obtain ⟨i, hi⟩ := List.mem_iff_getElem?.mp hb
      exact (hok i b hi).inv
    · exact (hok i b hi).home k hk hget
  have hnd' : ((data l copied).map Prod.fst).Nodup :=
    (((data_perm hok).map Prod.fst).nodup_iff).mpr hnd
  have hsorted := LeafNode.getData_sorted { l with blocks := copied }
  exact (hsorted.and hnd').imp fun h => lt_of_le_of_ne h.1 h.2

/-- 学習し直した leaf は、写し取った組をちょうど持つ。 -/
theorem mem_retrained_iff {copied : List Block} {ls : List (LeafNode D)}
    (hok : ∀ i b, copied[i]? = some b → BlockOk l i b) (hr : retrained f l copied = .ok ls)
    {k : Key} (hk : k ≠ freeFlag) (v : Payload) :
    (∃ x ∈ ls, ∃ b ∈ x.blocks, b.get k = some v) ↔ (k, v) ∈ data l copied := by
  have hstrict := data_strict hok
  have hsum := sum_number_makeSegmentation f epsilonLeafNode hstrict
  rw [List.length_map] at hsum
  have hne : ∀ e ∈ data l copied, e.1 ≠ freeFlag := by
    intro e he
    have := (List.mem_filter.mp ((data_perm hok).mem_iff.mp he)).2
    simpa using this
  have hnd : ((data l copied).map Prod.fst).Nodup := hstrict.imp ne_of_lt
  obtain ⟨-, hsound, hcomplete⟩ := freshLeaves_contents 0 l.prev 0 hsum hnd hne
  unfold retrained at hr
  rw [buildLeaves_eq] at hr
  split at hr
  · cases hr
    constructor
    · rintro ⟨x, hx, b, hb, hget⟩
      exact hsound x hx b hb k v hk hget
    · exact hcomplete (k, v)
  · cases hr

omit [DecidableEq T] in
theorem Inv.kept (hi : Inv f l w s) : Kept w s := by
  intro ls hfin t ret hret hne
  obtain ⟨hall, hr⟩ := hi.built ls (by rw [hfin]; rfl)
  have hok : ∀ i b, s.copied[i]? = some b → BlockOk l i b := by
    intro i b hb
    exact hi.ok i b (by rw [current_of_copied hall, hb])
  obtain ⟨b, hb, hget⟩ := hi.stored t (by rw [hret]; exact hne)
  rw [current_of_copied hall] at hb
  refine ⟨ls, by rw [hi.linked, hfin]; rfl, ?_⟩
  have hk := ne_of_lt (w.below t)
  have hmem : (w.key t, w.payload t) ∈ data l s.copied := by
    refine (data_perm hok).mem_iff.mpr (List.mem_filter.mpr ⟨?_, by simpa using hk⟩)
    exact List.mem_flatMap.mpr ⟨b, List.mem_of_getElem? hb, Block.mem_pairs_of_get hk hget⟩
  exact (mem_retrained_iff hok hr hk _).mpr hmem

end SplitRace

/-! ## 主定理 -/

variable {T : Type} [DecidableEq T]

/--
書き込みがどれも安全なら、分割の間に成功を返した `upsert` の鍵と payload は、分割の後につながっている
leaf に在る。
-/
theorem splitRace_no_lost_update (f : Fitter D) (sl : SplitLeaf D) (orphan : Bool) (w : Writers T)
    {s : SplitRace T D}
    (h : Reach (SplitRace.Step f sl.leaf orphan w) (SplitRace.Safe sl.leaf w)
      (SplitRace.initial sl.leaf) s) :
    SplitRace.Kept w s :=
  (h.invariant (SplitRace.Inv f sl.leaf w) SplitRace.inv_initial
    fun _ _ _ hi hP hs => hi.step hP hs).kept

/-! ## 分割の進み方 -/

namespace SplitRace

variable {f : Fitter D} {l : LeafNode D} {orphan : Bool} {w : Writers T}
  {P : SplitRace T D → Option T → Prop} {s₀ s : SplitRace T D}

/-- `upsert` は lock を確かめる。 -/
theorem reach_checkLock {t : T} (h : Reach (Step f l orphan w) P s₀ s)
    (hP : ∀ s', s'.writers t ≠ .write → (∀ ret late, s'.writers t ≠ .isAbandoned ret late) →
      P s' (some t))
    (hpc : s.writers t = .checkReadLock) (hr : s.readLock = false) (hw : s.writeLock = false) :
    Reach (Step f l orphan w) P s₀ { s with writers := update s.writers t .getLock } := by
  have h₁ := h.tail (hP s (by simp [hpc]) (by simp [hpc])) (.checkReadLock s t hpc)
  rw [hr, if_neg Bool.false_ne_true] at h₁
  have h₂ := h₁.tail (hP _ (by simp) (by simp)) (.checkWriteLock _ t (update_self ..))
  dsimp only at h₂
  rw [hw, if_neg Bool.false_ne_true, if_neg Bool.false_ne_true, update_idem] at h₂
  rwa [hr, hw]

/-- `upsert` は block を書いて返る。 -/
theorem reach_upsert {t : T} {b : Block} (h : Reach (Step f l orphan w) P s₀ s)
    (hP : ∀ s', (s'.writers t = .write → s'.blocks = s.blocks) →
      (∀ ret late, s'.writers t = .isAbandoned ret late →
        late = decide (blockOf l (w.key t) < s.copied.length)) → P s' (some t))
    (hpc : s.writers t = .getLock) (hfree : s.blockLocks (blockOf l (w.key t)) = false)
    (hb : s.blocks[blockOf l (w.key t)]? = some b) (hab : s.abandoned = false)
    (hflag : (b.upsert (w.key t) (w.payload t)).1 = 2) :
    Reach (Step f l orphan w) P s₀
      { s with
        blocks := s.blocks.set (blockOf l (w.key t)) (b.upsert (w.key t) (w.payload t)).2
        blockLocks := update s.blockLocks (blockOf l (w.key t)) false
        writers := update s.writers t (.returned 2) } := by
  have h₁ := h.tail (hP s (by simp [hpc]) (by simp [hpc])) (.getLock s t hpc hfree)
  have h₂ := h₁.tail (hP _ (by simp) (by simp)) (.write _ t b (update_self ..) hb)
  rw [hflag] at h₂
  have h₃ := h₂.tail (hP _ (by simp) (by simp)) (.releaseLock _ t 2 _ (update_self ..))
  have h₄ := h₃.tail (hP _ (by simp) (by simp)) (.isAbandoned _ t _ _ (update_self ..))
  dsimp only at h₄
  rw [hab, if_neg Bool.false_ne_true, update_idem, update_idem, update_idem, update_idem] at h₄
  rw [hab]
  exact h₄

/-- `get_data` は書き込みを待たずに残りの block を写し取る。 -/
theorem reach_getData (hP : ∀ s, P s none) {rest : List Block} :
    ∀ {done : List Block} {s : SplitRace T D}, Reach (Step f l orphan w) P s₀ s →
      s.split = .getData → s.blocks = done.map LeafNode.sortBlock ++ rest → s.copied = done →
      Reach (Step f l orphan w) P s₀
        { s with blocks := (done ++ rest).map LeafNode.sortBlock, copied := done ++ rest } := by
  induction rest with
  | nil =>
    intro done s h hpc hb hc
    have hs : s =
        { s with blocks := (done ++ []).map LeafNode.sortBlock, copied := done ++ [] } := by
      rw [List.append_nil, ← List.append_nil (done.map _), ← hb, ← hc]
    rwa [← hs]
  | cons b rest ih =>
    intro done s h hpc hb hc
    have hlen : (done.map LeafNode.sortBlock).length = s.copied.length := by
      rw [hc, List.length_map]
    have hget : s.blocks[s.copied.length]? = some b := by
      rw [hb, ← hlen, List.getElem?_append_right (le_refl _), Nat.sub_self]
      rfl
    have hnext := @ih (done ++ [b]) _ (h.tail (hP s) (.getData s b hpc hget)) hpc ?_ ?_
    · rwa [List.append_assoc] at hnext
    · dsimp only
      rw [hb, ← hlen, List.set_append_right _ _ (le_refl _), Nat.sub_self, List.map_append,
        List.append_assoc]
      rfl
    · dsimp only
      rw [hc]

omit [DecidableEq T] in
theorem exists_retrained {copied : List Block} (h : (retrained f l copied).isOk = true) :
    ∃ ls, retrained f l copied = .ok ls := by
  cases hr : retrained f l copied with
  | ok ls => exact ⟨ls, rfl⟩
  | error e =>
    rw [hr] at h
    cases h

/-- 写し取りが終われば、分割は最後まで進む。 -/
theorem reach_finished (hP : ∀ s, P s none) {ls : List (LeafNode D)}
    (h : Reach (Step f l orphan w) P s₀ s) (hpc : s.split = .getData)
    (hall : s.copied.length = s.blocks.length) (hne : data l s.copied ≠ [])
    (hr : retrained f l s.copied = .ok ls) :
    Reach (Step f l orphan w) P s₀
      { s with
        writeLock := false, readLock := false, abandoned := true, linked := some ls
        split := .finished ls } := by
  have h₁ := h.tail (hP _) (.getReadLock s ls hpc hall hne hr)
  have h₂ := h₁.tail (hP _) (.relink _ ls rfl)
  have h₃ := h₂.tail (hP _) (.setAbandoned _ ls rfl)
  exact h₃.tail (hP _) (.placeNodes _ ls rfl)

end SplitRace

/-! ## 鍵が一つの leaf -/

/-- 鍵 3 だけを持つ leaf。どの鍵も block 1 に入る。 -/
def oneKeyLeaf : SplitLeaf ℚ :=
  .new 3 [(Key.ofNat 3, 30)] 0 0 0 none (Nat.lt_succ_self 2) (by decide) (by decide)
    (by decide +kernel)

/-- 鍵 5 を書く一つの thread。 -/
def oneWriter : Writers Unit where
  key _ := Key.ofNat 5
  payload _ := 50
  distinct _ _ _ := rfl
  below _ := by decide +kernel

/-- 鍵 3 の入った block。 -/
def oneKeyBlock : Block := (Block.init.upsert (Key.ofNat 3) 30).2

theorem block_oneKeyLeaf :
    oneKeyLeaf.leaf.blocks[SplitRace.blockOf oneKeyLeaf.leaf (oneWriter.key ())]? =
      some oneKeyBlock := by
  decide +kernel

/-- 写し取りより前に書けば、鍵は新しい leaf に残る。 -/
theorem splitRace_no_lost_update_early :
    ∃ s, Reach (SplitRace.Step exactFitter oneKeyLeaf.leaf false oneWriter)
        (SplitRace.Safe oneKeyLeaf.leaf oneWriter) (SplitRace.initial oneKeyLeaf.leaf) s ∧
      s.writers () = .returned 2 ∧ (∃ ls, s.split = .finished ls) ∧
      SplitRace.Kept oneWriter s := by
  have h₁ : Reach (SplitRace.Step exactFitter oneKeyLeaf.leaf false oneWriter)
      (SplitRace.Safe oneKeyLeaf.leaf oneWriter) (SplitRace.initial oneKeyLeaf.leaf) _ :=
    SplitRace.reach_checkLock (t := ()) (Reach.refl _)
      (fun s' hw ha => ⟨fun h => absurd h hw, fun ret h => absurd h (ha ret true)⟩) rfl rfl rfl
  have h₂ := SplitRace.reach_upsert (t := ()) h₁
    (fun s' hw ha => ⟨fun h b hb => ?_, fun ret h => ?_⟩)
    rfl rfl block_oneKeyLeaf rfl (by decide +kernel)
  · have h₃ := h₂.tail (e := none) trivial (.getWriteLock _ rfl)
    have h₄ := SplitRace.reach_getData (fun _ => trivial) h₃ rfl rfl rfl
    obtain ⟨ls, hls⟩ := SplitRace.exists_retrained (f := exactFitter) (l := oneKeyLeaf.leaf)
      (show (SplitRace.retrained exactFitter oneKeyLeaf.leaf
        (oneKeyLeaf.leaf.blocks.set (SplitRace.blockOf oneKeyLeaf.leaf (oneWriter.key ()))
          (oneKeyBlock.upsert (oneWriter.key ()) (oneWriter.payload ())).2)).isOk = true by
        decide +kernel)
    have h₅ := SplitRace.reach_finished (fun _ => trivial) h₄ rfl (by simp) (by decide +kernel) hls
    exact ⟨_, h₅, rfl, ⟨_, rfl⟩, splitRace_no_lost_update _ _ _ _ h₅⟩
  · rw [hw h] at hb
    obtain rfl := Option.some.inj (hb.symm.trans block_oneKeyLeaf)
    decide +kernel
  · have := ha ret true h
    simp [SplitRace.initial] at this

/-- 写し取りと `set_abandoned` の間に書いて返った鍵 5 は失われる。 -/
theorem late_write_lost :
    ¬ ∀ s, Reachable (SplitRace.Step exactFitter oneKeyLeaf.leaf false oneWriter)
      (SplitRace.initial oneKeyLeaf.leaf) s → SplitRace.Kept oneWriter s := by
  intro hall
  have h₁ : Reachable (SplitRace.Step exactFitter oneKeyLeaf.leaf false oneWriter)
      (SplitRace.initial oneKeyLeaf.leaf) _ :=
    SplitRace.reach_checkLock (t := ()) (Reach.refl _) (fun _ _ _ => trivial) rfl rfl rfl
  have h₂ := h₁.tail (.getWriteLock _ rfl)
  have h₃ := SplitRace.reach_getData (fun _ => trivial) h₂ rfl rfl rfl
  have h₄ := SplitRace.reach_upsert (t := ()) (b := LeafNode.sortBlock oneKeyBlock) h₃
    (fun _ _ _ => trivial) rfl rfl (by decide +kernel) rfl (by decide +kernel)
  obtain ⟨ls, hls⟩ := SplitRace.exists_retrained (f := exactFitter) (l := oneKeyLeaf.leaf)
    (show (SplitRace.retrained exactFitter oneKeyLeaf.leaf oneKeyLeaf.leaf.blocks).isOk = true by
      decide +kernel)
  have h₅ := SplitRace.reach_finished (fun _ => trivial) h₄ rfl (by simp) (by decide +kernel) hls
  obtain ⟨leaves, hl, hkey⟩ := hall _ h₅ ls rfl () 2 rfl (by decide)
  obtain rfl := Option.some.inj hl
  have hmem := (SplitRace.mem_retrained_iff oneKeyLeaf.ok hls (by decide +kernel) _).mp hkey
  revert hmem
  decide +kernel

end Plin
