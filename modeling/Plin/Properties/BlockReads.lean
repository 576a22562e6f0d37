import Mathlib.Data.Fin.VecNotation
import Plin.Properties.BlockShared

/-!
# 共有された block の `find` は線形化可能である

`find` は lock を取らない。version を読んでから slot を調べ、見つけた `payload` を読んだ後に version が同じ
であれば 1 を返す。語が lock の無い同じ値に戻っているなら、その間に 2^31 回の書き込みが無いかぎり、slot は
一度も書かれていない。

**見つからなかったときは version を確かめない。** それでも、調べている途中で鍵が在れば、その鍵はまだ調べて
いない slot に在る（消されれば、その瞬間に鍵はどの slot にも無い）。最後まで調べて見つからなければ、途中の
どこかで鍵はどの slot にも無かった。

どちらの返り値も、呼んでから返るまでのある時点で一つの thread が `find` を呼んだときの返り値である
（`find_linearizable`）。
-/

namespace Plin

open Infra

/-! ## slot の変化 -/

/-- slot を書き終えてから version を進めるまでと、その直前。 -/
def SharedPc.Dirty : SharedPc → Bool
  | fillKey _ _ _ => true
  | releaseLoad _ bump => bump
  | releaseStore _ bump _ => bump
  | _ => false

theorem SharedPc.inside_of_dirty {l : SharedPc} (h : l.Dirty) : l.Inside := by
  cases l <;> first | rfl | cases h

namespace SharedState

variable {T : Type}

/-- `k` 回目の書き込みが放された後、まだ slot が書かれていない。 -/
def Settled (c : SharedState T) (k : Nat) : Prop := c.shared.commits = k ∧ ∀ u, ¬ (c.pc u).Dirty

end SharedState

/-- 在った鍵は、在るままであるか、どの slot にも無くなる。 -/
def KeepsKey (slots slots' : List DataSlot) (key : Key) : Prop :=
  ∀ (k : Nat) (s : DataSlot), slots[k]? = some s → s.key = key →
    (∃ s', slots'[k]? = some s' ∧ s'.key = key) ∨ ∀ s' ∈ slots', s'.key ≠ key

section Slots

variable {slots : List DataSlot} {i : Nat} {s : DataSlot} {key : Key}

theorem KeepsKey.refl (slots : List DataSlot) (key : Key) : KeepsKey slots slots key :=
  fun _ s hs hk => Or.inl ⟨s, hs, hk⟩

/-- 鍵でない slot への書き込み。 -/
theorem KeepsKey.of_ne (hs : slots[i]? = some s) (hk : s.key ≠ key) (t : DataSlot) :
    KeepsKey slots (slots.set i t) key := by
  intro k u hu hkey
  have hne : i ≠ k := by
    rintro rfl
    obtain rfl := Option.some.inj (hs.symm.trans hu)
    exact hk hkey
  exact Or.inl ⟨u, by rwa [List.getElem?_set_ne hne], hkey⟩

/-- 鍵を変えない書き込み。 -/
theorem KeepsKey.of_same (hs : slots[i]? = some s) {t : DataSlot} (ht : t.key = s.key) :
    KeepsKey slots (slots.set i t) key := by
  by_cases hk : s.key = key
  · intro k u hu hkey
    by_cases hik : i = k
    · subst hik
      refine Or.inl ⟨t, List.getElem?_set_self (List.getElem?_eq_some_iff.mp hs).1, ?_⟩
      rw [ht, hk]
    · exact Or.inl ⟨u, by rwa [List.getElem?_set_ne hik], hkey⟩
  · exact .of_ne hs hk t

/-- 鍵の一致する slot を空きにすると、その鍵はどの slot にも無い。 -/
theorem SlotsUnique.erased (h : SlotsUnique slots) (hs : slots[i]? = some s) (hk : s.key = key)
    (hfree : key ≠ freeFlag) {t : DataSlot} (ht : t.key = freeFlag) :
    ∀ u ∈ slots.set i t, u.key ≠ key := by
  obtain ⟨a, b, rfl, -, hset⟩ := exists_split hs
  rw [hset]
  unfold SlotsUnique at h
  rw [List.pairwise_append, List.pairwise_cons] at h
  obtain ⟨-, ⟨hsb, -⟩, hab⟩ := h
  intro u hu hkey
  rcases List.mem_append.mp hu with hu | hu
  · have hus : u.key = s.key := by rw [hkey, hk]
    exact hfree (hkey ▸ hab u hu s List.mem_cons_self hus)
  · rcases List.mem_cons.mp hu with rfl | hu
    · exact hfree (hkey.symm.trans ht)
    · have hsu : s.key = u.key := by rw [hkey, hk]
      exact hfree (hk ▸ hsb u hu hsu)

theorem KeepsKey.erase (h : SlotsUnique slots) (hs : slots[i]? = some s) (hfree : key ≠ freeFlag)
    {t : DataSlot} (ht : t.key = freeFlag) : KeepsKey slots (slots.set i t) key := by
  by_cases hk : s.key = key
  · exact fun _ _ _ _ => Or.inr (h.erased hs hk hfree ht)
  · exact .of_ne hs hk t

end Slots

namespace SharedStep

variable {m m' : BlockMem} {l l' : SharedPc}

/-- `log` は伸びるだけであり、version は進むだけである。 -/
theorem grows (h : SharedStep m l m' l') : m.log <+: m'.log ∧ m.commits ≤ m'.commits := by
  cases h with
  | lockCas op v =>
    split
    · exact ⟨List.prefix_rfl, le_rfl⟩
    · exact ⟨List.prefix_rfl, le_rfl⟩
  | releaseStore op bump v =>
    refine ⟨List.prefix_rfl, ?_⟩
    show m.commits ≤ if bump then m.commits + 1 else m.commits
    split <;> omega
  | putPayload => exact ⟨List.prefix_append _ _, le_rfl⟩
  | fillKey => exact ⟨List.prefix_append _ _, le_rfl⟩
  | treeUpsert => exact ⟨List.prefix_append _ _, le_rfl⟩
  | eraseKey => exact ⟨List.prefix_append _ _, le_rfl⟩
  | treeRemove => exact ⟨List.prefix_append _ _, le_rfl⟩
  | treeRemoveMissed => exact ⟨List.prefix_append _ _, le_rfl⟩
  | _ => exact ⟨List.prefix_rfl, le_rfl⟩

/-- slot を書いた thread は、version を進めるまで `Dirty` である。 -/
theorem settled (h : SharedStep m l m' l') (hl : ¬ l'.Dirty) (hm : m'.commits ≤ m.commits) :
    ¬ l.Dirty ∧ m'.commits = m.commits ∧ m'.block.slots = m.block.slots := by
  cases h with
  | lockCas op v =>
    refine ⟨Bool.false_ne_true, ?_⟩
    split
    · exact ⟨rfl, rfl⟩
    · exact ⟨rfl, rfl⟩
  | releaseLoad op bump => exact ⟨hl, rfl, rfl⟩
  | releaseStore op bump v =>
    cases bump with
    | true => exact absurd hm (Nat.not_succ_le_self _)
    | false => exact ⟨Bool.false_ne_true, rfl, rfl⟩
  | putPayload => exact absurd rfl hl
  | fillPayload => exact absurd rfl hl
  | fillKey => exact absurd rfl hl
  | eraseKey => exact absurd rfl hl
  | treeUpsert => exact absurd rfl hl
  | treeRemove => exact absurd rfl hl
  | _ => exact ⟨Bool.false_ne_true, rfl, rfl⟩

theorem keepsKey (h : SharedStep m l m' l') (hl : l.Holds m.block)
    (hunique : SlotsUnique m.block.slots) {key : Key} (hk : key ≠ freeFlag) :
    KeepsKey m.block.slots m'.block.slots key := by
  cases h with
  | lockCas op v =>
    split
    · exact .refl _ _
    · exact .refl _ _
  | putPayload _ _ hs => exact .of_same hs rfl
  | fillPayload _ _ hs => exact .of_same hs rfl
  | fillKey key' payload hs =>
    obtain rfl := Option.some.inj (hs.symm.trans hl.2.2.2)
    exact .of_ne hs hk.symm _
  | eraseKey _ hs => exact .erase hunique hs hk (by rw [deleteFlag_eq, ite_self])
  | _ => exact .refl _ _

end SharedStep

namespace SharedInv

variable {T : Type} [Fintype T] {b : Block} {c c' : SharedState T} {key : Key}

/-- lock が空いていれば、書きかけの slot は無い。 -/
theorem settled_of_free (h : SharedInv b c) (hfree : ¬ Locked c.shared.words.locked) :
    c.Settled c.shared.commits := by
  refine ⟨rfl, fun u hu => hfree ?_⟩
  have hin : (c.proj.pc u).Inside := by
    rw [c.inside_iff]
    exact SharedPc.inside_of_dirty hu
  exact h.lock.locked_of_inside hin

/-- `find` が slot に見る `payload` は、`log` の後の block のものである。 -/
theorem slotGet_runLog (h : SharedInv b c) (hk : key ≠ freeFlag) :
    slotGet (runLog b c.shared.log).slots key = slotGet c.shared.block.slots key :=
  (h.content.slotGet hk).symm

end SharedInv

namespace SharedState

variable {T : Type} [DecidableEq T] {c c' : SharedState T} {e : Option T} {k : Nat}

theorem Step.grows (h : c.Step e c') :
    c.shared.log <+: c'.shared.log ∧ c.shared.commits ≤ c'.shared.commits := by
  cases h with
  | thread t hs => exact hs.grows
  | env hm =>
    obtain ⟨w, rfl⟩ := hm
    exact ⟨List.prefix_rfl, le_rfl⟩

/-- 書かれていなければ、一歩前も書かれておらず、slot は同じである。 -/
theorem Step.settled (h : c.Step e c') (hs : c'.Settled k) (hk : k ≤ c.shared.commits) :
    c.Settled k ∧ c'.shared.block.slots = c.shared.block.slots := by
  obtain ⟨hcommits, hclean⟩ := hs
  cases h with
  | @thread t m l hs =>
    have hl : ¬ l.Dirty := by
      have ht := hclean t
      rwa [Threads.move_pc_self] at ht
    rw [Threads.move_shared] at hcommits
    obtain ⟨hpc, hm, hslots⟩ := hs.settled hl (hcommits ▸ hk)
    refine ⟨⟨hm ▸ hcommits, fun u => ?_⟩, hslots⟩
    have hu := hclean u
    rcases c.move_pc_cases t u m l with ⟨rfl, -⟩ | ⟨-, e⟩
    · exact hpc
    · rwa [e] at hu
  | env hm =>
    obtain ⟨w, rfl⟩ := hm
    exact ⟨⟨hcommits, hclean⟩, rfl⟩

theorem Step.keepsKey [Fintype T] {b : Block} (h : c.Step e c') (hinv : SharedInv b c) {key : Key}
    (hk : key ≠ freeFlag) : KeepsKey c.shared.block.slots c'.shared.block.slots key := by
  cases h with
  | thread t hs => exact hs.keepsKey (hinv.pcs t) hinv.unique hk
  | env hm =>
    obtain ⟨w, rfl⟩ := hm
    exact .refl _ _

end SharedState

/-! ## `find` の途中 -/

section During

variable {T : Type} [DecidableEq T]

/-- `t` が `find key` を呼んでから返るまで。`log` と `n` は呼んだときの `log` と `commits` である。 -/
inductive During (b : Block) (t : T) (key : Key) (log : List (WriteOp × Nat)) (n : Nat) :
    SharedState T → Prop
  | call {c : SharedState T} (h : Reach SharedState.Step SharedState.Harmless
      (SharedState.initial b) c) (ht : c.pc t = .idle) (hk : key ≠ freeFlag)
      (hlog : c.shared.log = log) (hn : c.shared.commits = n) :
      During b t key log n (c.move t c.shared (.waitLock key))
  | step {c c' : SharedState T} {e : Option T} (h : During b t key log n c) (hharm : c.Harmless e)
      (hs : c.Step e c') (hpc : c'.pc t ≠ .idle) : During b t key log n c'

end During

section Seen

variable {T : Type} (b : Block) (log : List (WriteOp × Nat)) (n : Nat) (c : SharedState T)

/-- 呼んでから今までのある時点の block が `P` を満たす。 -/
def Sometime (P : Block → Prop) : Prop :=
  ∃ pre, log <+: pre ∧ pre <+: c.shared.log ∧ P (runLog b pre)

/-- version を読んでから slot が書かれていなければ `P` である。 -/
structure Since (version : UInt32) (P : Prop) : Prop where
  free : ¬ Locked version
  read : ∃ k, n ≤ k ∧ k ≤ c.shared.commits ∧ low version = k % 2 ^ 31 ∧ (c.Settled k → P)

variable (key : Key)

/-- 呼んでからある時点で、鍵はどの slot にも無かった。 -/
def Missed : Prop := Sometime b log c fun b' => slotGet b'.slots key = none

/-- これから調べる slot に鍵が在るか、もう無かったことがある。 -/
def Ahead (i : Nat) : Prop :=
  Missed b log c key ∨ ∃ k s, i ≤ k ∧ c.shared.block.slots[k]? = some s ∧ s.key = key

/-- 読む thread がそれまでに見たもの。 -/
def SharedPc.Reads : SharedPc → Prop
  | waitLock key' => key' = key
  | getVersion key' => key' = key
  | scan key' version i => key' = key ∧ Ahead b log c key i ∧
      Since n c version (Unseen c.shared.block.slots i key)
  | readPayload key' version i => key' = key ∧
      Since n c version (FirstAt c.shared.block.slots i key)
  | verify key' version payload => key' = key ∧
      Since n c version (slotGet c.shared.block.slots key = some payload)
  | missed key' => key' = key ∧ Missed b log c key
  | walk key' => key' = key ∧ Missed b log c key
  | hit key' payload => key' = key ∧
      Sometime b log c fun b' => ∀ d, b'.find key d = (1, payload)
  | absent key' => key' = key ∧ Sometime b log c fun b' => ∀ d, b'.find key d = (0, d)
  | walked key' _ => key' = key ∧ Missed b log c key
  | _ => False

end Seen

section Facts

variable {T : Type} {b : Block} {log : List (WriteOp × Nat)} {n : Nat} {c : SharedState T}
  {key : Key}

/-- 今の block が満たすなら、ある時点の block が満たす。 -/
theorem Sometime.now {P : Block → Prop} (hlog : log <+: c.shared.log)
    (h : P (runLog b c.shared.log)) : Sometime b log c P := ⟨_, hlog, List.prefix_rfl, h⟩

theorem Since.imp {version : UInt32} {P Q : Prop} (h : Since n c version P) (hPQ : P → Q) :
    Since n c version Q := by
  obtain ⟨hfree, k, hn, hk, hlow, hP⟩ := h
  exact ⟨hfree, k, hn, hk, hlow, fun hset => hPQ (hP hset)⟩

theorem Ahead.next {i : Nat} {s : DataSlot} (h : Ahead b log c key i)
    (hs : c.shared.block.slots[i]? = some s) (hne : s.key ≠ key) : Ahead b log c key (i + 1) := by
  refine h.imp_right ?_
  rintro ⟨k, u, hi, hu, hkey⟩
  refine ⟨k, u, Nat.lt_of_le_of_ne hi ?_, hu, hkey⟩
  rintro rfl
  obtain rfl := Option.some.inj (hs.symm.trans hu)
  exact hne hkey

/-- 最後まで調べて見つからなければ、途中のどこかで無かった。 -/
theorem Ahead.missed {i : Nat} (h : Ahead b log c key i)
    (hs : c.shared.block.slots[i]? = none) : Missed b log c key := by
  refine h.resolve_right ?_
  rintro ⟨k, u, hi, hu, -⟩
  rw [List.getElem?_eq_none ((List.getElem?_eq_none_iff.mp hs).trans hi)] at hu
  cases hu

/-- どの slot にも鍵が無いとき。 -/
theorem Missed.now [Fintype T] (hinv : SharedInv b c) (hlog : log <+: c.shared.log)
    (hk : key ≠ freeFlag) (hnone : ∀ s ∈ c.shared.block.slots, s.key ≠ key) :
    Missed b log c key := by
  refine Sometime.now hlog (P := fun b' => slotGet b'.slots key = none) ?_
  rw [hinv.slotGet_runLog hk]
  exact slotGet_eq_none.mpr hnone

end Facts

section Frame

variable {T : Type} [DecidableEq T] {b : Block} {log : List (WriteOp × Nat)} {n : Nat}
  {c c' : SharedState T} {e : Option T} {key : Key}

theorem Sometime.step {P : Block → Prop} (h : Sometime b log c P) (hs : c.Step e c') :
    Sometime b log c' P := by
  obtain ⟨pre, hlog, hpre, hP⟩ := h
  exact ⟨pre, hlog, hpre.trans hs.grows.1, hP⟩

/-- slot を見て決まる事実は、slot が書かれないかぎり続く。 -/
theorem Since.step {version : UInt32} {P : List DataSlot → Prop}
    (h : Since n c version (P c.shared.block.slots)) (hs : c.Step e c') :
    Since n c' version (P c'.shared.block.slots) := by
  obtain ⟨k, hn, hk, hlow, hP⟩ := h.read
  refine ⟨h.free, k, hn, hk.trans hs.grows.2, hlow, fun hset => ?_⟩
  obtain ⟨hset, hslots⟩ := hs.settled hset hk
  rw [hslots]
  exact hP hset

variable [Fintype T]

theorem Ahead.step {i : Nat} (h : Ahead b log c key i) (hinv : SharedInv b c)
    (hinv' : SharedInv b c') (hlog : log <+: c.shared.log) (hk : key ≠ freeFlag)
    (hs : c.Step e c') : Ahead b log c' key i := by
  rcases h with h | ⟨k, s, hi, hat, hkey⟩
  · exact Or.inl (h.step hs)
  · rcases hs.keepsKey hinv hk k s hat hkey with ⟨s', hat', hkey'⟩ | hnone
    · exact Or.inr ⟨k, s', hi, hat', hkey'⟩
    · exact Or.inl (.now hinv' (hlog.trans hs.grows.1) hk hnone)

/-- **どの thread の一歩の後も、読む thread がそれまでに見たものは残る。** -/
theorem SharedPc.Reads.step {l : SharedPc} (h : l.Reads b log n c key) (hinv : SharedInv b c)
    (hinv' : SharedInv b c') (hlog : log <+: c.shared.log) (hk : key ≠ freeFlag)
    (hs : c.Step e c') : l.Reads b log n c' key := by
  cases l with
  | waitLock => exact h
  | getVersion => exact h
  | scan _ version i =>
    exact ⟨h.1, h.2.1.step hinv hinv' hlog hk hs, Since.step (P := (Unseen · i key)) h.2.2 hs⟩
  | readPayload _ version i => exact ⟨h.1, Since.step (P := (FirstAt · i key)) h.2 hs⟩
  | verify _ version payload =>
    exact ⟨h.1, Since.step (P := fun slots => slotGet slots key = some payload) h.2 hs⟩
  | missed => exact ⟨h.1, Sometime.step h.2 hs⟩
  | walk => exact ⟨h.1, Sometime.step h.2 hs⟩
  | hit => exact ⟨h.1, h.2.step hs⟩
  | absent => exact ⟨h.1, h.2.step hs⟩
  | walked => exact ⟨h.1, Sometime.step h.2 hs⟩
  | _ => exact h.elim

end Frame

/-! ## `find` の一歩 -/

section Own

variable {T : Type} [Fintype T] {b : Block} {log : List (WriteOp × Nat)} {n : Nat}
  {c : SharedState T} {key : Key}

theorem Ahead.start (hinv : SharedInv b c) (hlog : log <+: c.shared.log) (hk : key ≠ freeFlag) :
    Ahead b log c key 0 := by
  by_cases hnone : ∀ s ∈ c.shared.block.slots, s.key ≠ key
  · exact Or.inl (.now hinv hlog hk hnone)
  · push Not at hnone
    obtain ⟨s, hs, hkey⟩ := hnone
    obtain ⟨k, hk⟩ := List.getElem?_of_mem hs
    exact Or.inr ⟨k, s, Nat.zero_le k, hk, hkey⟩

theorem Since.start (hinv : SharedInv b c) (hn : n ≤ c.shared.commits)
    (hfree : ¬ Locked c.shared.words.locked) {P : Prop} (h : P) :
    Since n c c.shared.words.locked P :=
  ⟨hfree, c.shared.commits, hn, le_rfl, hinv.version, fun _ => h⟩

/-- **語が読んだ version のままなら、slot は書かれていない。** -/
theorem Since.now {P : Prop} (h : Since n c c.shared.words.locked P) (hinv : SharedInv b c)
    (hn : c.shared.commits < n + 2 ^ 31) : P := by
  obtain ⟨hfree, k, hnk, hk, hlow, hP⟩ := h
  have hmod : c.shared.commits % 2 ^ 31 = k % 2 ^ 31 := hinv.version.symm.trans hlow
  have hsame : c.shared.commits = k := by omega
  exact hP (hsame ▸ hinv.settled_of_free hfree)

/-- overflow tree は作られたら残る。 -/
theorem WriteOp.overflowTree_isSome (op : WriteOp) {b : Block} (h : b.overflowTree.isSome) :
    (op.apply b).2.overflowTree.isSome := by
  cases op with
  | upsert key payload =>
    simp only [WriteOp.apply, Block.upsert]
    split
    · exact h
    · split
      · exact h
      · rfl
  | remove key =>
    simp only [WriteOp.apply, Block.remove]
    split
    · exact h
    · split
      · exact h
      · split
        · rfl
        · exact h

theorem overflowTree_runLog {pre full : List (WriteOp × Nat)} (h : pre <+: full)
    (hnone : (runLog b full).overflowTree = none) : (runLog b pre).overflowTree = none := by
  obtain ⟨post, rfl⟩ := h
  induction post using List.reverseRecOn with
  | nil => rwa [List.append_nil] at hnone
  | append_singleton post e ih =>
    refine ih (Option.not_isSome_iff_eq_none.mp fun hsome => ?_)
    rw [← List.append_assoc, runLog_concat] at hnone
    have hkept := e.1.overflowTree_isSome hsome
    rw [hnone] at hkept
    cases hkept

theorem Missed.absent (h : Missed b log c key) (hinv : SharedInv b c)
    (hnone : c.shared.block.overflowTree = none) :
    Sometime b log c fun b' => ∀ d, b'.find key d = (0, d) := by
  obtain ⟨pre, hlog, hpre, hget⟩ := h
  refine ⟨pre, hlog, hpre, fun d => ?_⟩
  have htree := overflowTree_runLog (b := b) hpre (hinv.content.tree ▸ hnone)
  rw [Block.find_eq, Block.get, hget, Block.treeGet, htree]
  rfl

/-- **読む thread の一歩。** block は変わらず、次の位置で見たものが言える。 -/
theorem SharedPc.Reads.own {l l' : SharedPc} {m : BlockMem} (h : l.Reads b log n c key)
    (hinv : SharedInv b c) (hlog : log <+: c.shared.log) (hn : n ≤ c.shared.commits)
    (hlt : c.shared.commits < n + 2 ^ 31) (hk : key ≠ freeFlag)
    (hs : SharedStep c.shared l m l') (hl : l' ≠ .idle) : l'.Reads b log n c key := by
  generalize hm : c.shared = m₀ at hs
  cases hs with
  | waitLock key' =>
    split
    · exact h
    · exact h
  | getVersion key' =>
    subst hm
    split
    · exact h
    · next hfree =>
      exact ⟨h, .start hinv hlog hk, .start hinv hn hfree (unseen_zero _ _)⟩
  | scanNext key' version hs hne =>
    subst hm
    obtain ⟨rfl, hahead, hsince⟩ := h
    exact ⟨rfl, hahead.next hs hne, hsince.imp fun hun => hun.succ hs hne⟩
  | scanFound key' version hs hkey =>
    subst hm
    obtain ⟨rfl, -, hsince⟩ := h
    exact ⟨rfl, hsince.imp fun hun => ⟨hun, _, hs, hkey⟩⟩
  | scanMissed key' version hs =>
    subst hm
    obtain ⟨rfl, hahead, -⟩ := h
    exact ⟨rfl, hahead.missed hs⟩
  | readPayload key' version hs =>
    subst hm
    obtain ⟨rfl, hsince⟩ := h
    refine ⟨rfl, hsince.imp fun hfirst => ?_⟩
    obtain ⟨s, hat, hkey⟩ := hfirst.found
    obtain rfl := Option.some.inj (hs.symm.trans hat)
    exact slotGet_at hfirst.before hs hkey
  | verify key' version payload =>
    subst hm
    obtain ⟨rfl, hsince⟩ := h
    split
    · next hv =>
      subst hv
      refine ⟨rfl, .now hlog fun d => ?_⟩
      rw [Block.find_eq, Block.get, hinv.slotGet_runLog hk, hsince.now hinv hlt]
      rfl
    · rfl
  | missed key' =>
    subst hm
    obtain ⟨rfl, hmissed⟩ := h
    split
    · next hnone => exact ⟨rfl, hmissed.absent hinv (Option.isNone_iff_eq_none.mp hnone)⟩
    · exact ⟨rfl, hmissed⟩
  | walk key' result => exact h
  | hit => exact absurd rfl hl
  | absent => exact absurd rfl hl
  | walked => exact absurd rfl hl
  | _ => exact h.elim

end Own

/-! ## `find` の返り値 -/

section Run

variable {T : Type} [Fintype T] [DecidableEq T] {b : Block} {t : T} {key : Key}
  {log : List (WriteOp × Nat)} {n : Nat} {c : SharedState T}

/-- `find` の途中の不変条件。 -/
structure ReadInv (b : Block) (t : T) (key : Key) (log : List (WriteOp × Nat)) (n : Nat)
    (c : SharedState T) : Prop where
  shared : SharedInv b c
  key_ne : key ≠ freeFlag
  log_le : log <+: c.shared.log
  commits_le : n ≤ c.shared.commits
  reads : (c.pc t).Reads b log n c key

/-- 呼んでから返るまで、不変条件が成り立つ。 -/
theorem During.inv (hb : SlotsUnique b.slots) (h : During b t key log n c)
    (hn : c.shared.commits < n + 2 ^ 31) : ReadInv b t key log n c := by
  induction h with
  | @call c h ht hk hlog hcommits =>
    subst hlog hcommits
    have hinv := SharedInv.of_reach hb h
    have hs : c.Step (some t) (c.move t c.shared (.waitLock key)) :=
      .thread t (ht ▸ SharedStep.find c.shared key hk)
    refine ⟨hinv.step (fun u op v hu hpc => ?_) hs, hk, List.prefix_rfl, le_rfl, ?_⟩
    · rw [← Option.some.inj hu, ht] at hpc
      cases hpc
    · rw [Threads.move_pc_self]
      rfl
  | @step c c' e _ hharm hs hpc ih =>
    obtain ⟨hlog', hcommits'⟩ := hs.grows
    obtain ⟨hinv, hk, hlog, hcommits, hreads⟩ := ih (hcommits'.trans_lt hn)
    have hinv' := hinv.step hharm hs
    refine ⟨hinv', hk, hlog.trans hlog', hcommits.trans hcommits', ?_⟩
    have hstep : ∀ l : SharedPc, l.Reads b log n c key → l.Reads b log n c' key :=
      fun l hl => hl.step hinv hinv' hlog hk hs
    cases hs with
    | env => exact hstep _ hreads
    | @thread u m l hs =>
      rcases c.move_pc_cases u t m l with ⟨rfl, hl⟩ | ⟨-, hl⟩
      · rw [hl] at hpc ⊢
        exact hstep l (hreads.own hinv hlog hcommits (hcommits'.trans_lt hn) hk hs hpc)
      · rw [hl]
        exact hstep _ hreads

/--
**`find` は線形化可能である。** 呼んでから返るまでに 2^31 回より少ない書き込みしか無ければ、1 を返したときも、
overflow tree を見ずに 0 を返したときも、その間のある時点の block に一つの thread が `find` を呼んだときの
返り値と同じである。overflow tree をたどるのは、その間のある時点で鍵がどの slot にも無かったときに限る。
-/
theorem find_linearizable (hb : SlotsUnique b.slots) (h : During b t key log n c)
    (hn : c.shared.commits < n + 2 ^ 31) :
    (∀ p, c.pc t = .hit key p → ∃ pre, log <+: pre ∧ pre <+: c.shared.log ∧
      ∀ d, (runLog b pre).find key d = (1, p)) ∧
    (c.pc t = .absent key → ∃ pre, log <+: pre ∧ pre <+: c.shared.log ∧
      ∀ d, (runLog b pre).find key d = (0, d)) ∧
    (∀ r, c.pc t = .walked key r → ∃ pre, log <+: pre ∧ pre <+: c.shared.log ∧
      slotGet (runLog b pre).slots key = none) := by
  have hreads := (h.inv hb hn).reads
  refine ⟨fun p hpc => ?_, fun hpc => ?_, fun r hpc => ?_⟩
  · rw [hpc] at hreads
    exact hreads.2
  · rw [hpc] at hreads
    exact hreads.2
  · rw [hpc] at hreads
    exact hreads.2

end Run

section Calling

variable {T : Type} [DecidableEq T] {b : Block} {t : T} {key : Key} {log : List (WriteOp × Nat)}
  {n : Nat} {c : SharedState T} {m : BlockMem} {l : SharedPc}

/-- 諦めた枝に居る thread の無い、`find` の途中。 -/
def Calling (b : Block) (t : T) (key : Key) (log : List (WriteOp × Nat)) (n : Nat)
    (c : SharedState T) : Prop := During b t key log n c ∧ c.NoClearing

theorem Calling.begin (h : Reached b c) (ht : c.pc t = .idle) (hk : key ≠ freeFlag) :
    Calling b t key c.shared.log c.shared.commits (c.move t c.shared (.waitLock key)) :=
  ⟨.call h.1 ht hk rfl rfl, h.2.move t rfl⟩

theorem Calling.thread (h : Calling b t key log n c) (u : T)
    (hs : SharedStep c.shared (c.pc u) m l) (hl : l.proj.Clearing = false)
    (hpc : (c.move u m l).pc t ≠ .idle) : Calling b t key log n (c.move u m l) :=
  ⟨h.1.step (h.2.harmless (some u)) (.thread u hs) hpc, h.2.move u hl⟩

end Calling

/--
上書きの途中で呼んだ `find` は、読んだ `payload` を、後から lock を取った `remove` のために捨てる。読み直しても鍵は
無く、両方の書き込みの後の block に `find` を呼んだのと同じ 0 を返す。
-/
theorem find_linearizable_race :
    ∃ pre, [] <+: pre ∧
      pre <+: [(WriteOp.upsert (Key.ofNat 3) 31, 1), (WriteOp.remove (Key.ofNat 3), 1)] ∧
      ∀ d, (runLog oneSlot pre).find (Key.ofNat 3) d = (0, d) := by
  have h₀ := Calling.begin (t := 2) reached_racing rfl (by decide : Key.ofNat 3 ≠ freeFlag)
  have h₁ := h₀.thread 0 (.putPayload _ _ _ rfl) rfl SharedPc.noConfusion
  have h₂ := h₁.thread 0 (.releaseLoad _ _ _) rfl SharedPc.noConfusion
  have h₃ := h₂.thread 0 (.releaseStore _ _ _ _) rfl SharedPc.noConfusion
  have h₄ := h₃.thread 2 (.waitLock _ _) rfl (by decide)
  have h₅ := h₄.thread 2 (.getVersion _ _) rfl (by decide)
  have h₆ := h₅.thread 2 (.scanFound _ _ _ rfl rfl) rfl SharedPc.noConfusion
  have h₇ := h₆.thread 1 (.lockLoad _ _) rfl SharedPc.noConfusion
  have h₈ := h₇.thread 2 (.readPayload _ _ _ rfl) rfl SharedPc.noConfusion
  have h₉ := h₈.thread 1 (.lockCas _ _ _) rfl SharedPc.noConfusion
  -- 版が変わったので、最初から読み直す
  have h₁₀ := h₉.thread 2 (.verify _ _ _ _) rfl (by decide)
  have h₁₁ := h₁₀.thread 1 (.removeFound _ _ rfl rfl) rfl (by decide)
  have h₁₂ := h₁₁.thread 1 (.eraseKey _ _ rfl) rfl (by decide)
  have h₁₃ := h₁₂.thread 1 (.releaseLoad _ _ _) rfl (by decide)
  have h₁₄ := h₁₃.thread 1 (.releaseStore _ _ _ _) rfl (by decide)
  have h₁₅ := h₁₄.thread 2 (.waitLock _ _) rfl (by decide)
  have h₁₆ := h₁₅.thread 2 (.getVersion _ _) rfl (by decide)
  have h₁₇ := h₁₆.thread 2 (.scanNext _ _ _ rfl (by decide)) rfl SharedPc.noConfusion
  have h₁₈ := h₁₇.thread 2 (.scanMissed _ _ _ rfl) rfl SharedPc.noConfusion
  have h₁₉ := h₁₈.thread 2 (.missed _ _) rfl (by decide)
  exact (find_linearizable (by simp [SlotsUnique, oneSlot]) h₁₉.1 (by decide)).2.1 rfl

end Plin
