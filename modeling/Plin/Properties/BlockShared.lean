import Mathlib.Data.Fin.VecNotation
import Plin.Index.BlockShared
import Plin.Properties.Block
import Plin.Properties.BlockLock

/-!
# 共有された block への書き込みは直列である

block の lock を持つ thread は一つ以下なので（`BlockInv`）、slot を調べてから書くまでの間に block は変わらない。
したがって **書き込みをどう交錯させても、block の中身は `log` の順に一つずつ書いたものと同じであり、返り値も
そのときの返り値である**（`writes_serialized`）。

空き slot に入れる途中では `payload` だけが先に書かれている。空き slot の `payload` は誰も読まないので、
block の中身は空き slot の `payload` を除いて比べる（`Block.Same`）。
-/

namespace Plin

open Infra

/-! ## slot の列 -/

section Slots

variable {slots slots' : List DataSlot} {i : Nat} {s : DataSlot} {key : Key}

/-- `i` 番目より前の slot に鍵が無い。 -/
def Unseen (slots : List DataSlot) (i : Nat) (key : Key) : Prop := ∀ s ∈ slots.take i, s.key ≠ key

theorem unseen_zero (slots : List DataSlot) (key : Key) : Unseen slots 0 key := by
  simp [Unseen]

theorem Unseen.succ (h : Unseen slots i key) (hs : slots[i]? = some s) (hk : s.key ≠ key) :
    Unseen slots (i + 1) key := by
  intro u hu
  rw [List.take_add_one, hs, Option.toList_some] at hu
  rcases List.mem_append.mp hu with hu | hu
  · exact h u hu
  · rw [List.mem_singleton.mp hu]
    exact hk

theorem Unseen.all (h : Unseen slots i key) (hs : slots[i]? = none) : ∀ s ∈ slots, s.key ≠ key := by
  have hlen := List.getElem?_eq_none_iff.mp hs
  intro u hu
  exact h u (by rwa [List.take_of_length_le hlen])

/-- 鍵が一致する最初の slot を書き換える。 -/
theorem updateFirst_at {f : DataSlot → DataSlot} :
    ∀ {slots : List DataSlot} {i : Nat}, Unseen slots i key → slots[i]? = some s → s.key = key →
      updateFirst key f slots = some (slots.set i (f s)) := by
  intro slots
  induction slots with
  | nil =>
    intro i _ hs
    cases hs
  | cons u slots ih =>
    intro i hun hs hk
    rw [updateFirst]
    cases i with
    | zero =>
      obtain rfl : u = s := Option.some.inj hs
      rw [if_pos hk]
      rfl
    | succ i =>
      have hu : u.key ≠ key := hun u (by simp)
      have hun' : Unseen slots i key := fun v hv => hun v (by simp [hv])
      rw [if_neg hu, ih hun' hs hk]
      rfl

theorem slotGet_at : ∀ {slots : List DataSlot} {i : Nat}, Unseen slots i key →
    slots[i]? = some s → s.key = key → slotGet slots key = some s.payload := by
  intro slots
  induction slots with
  | nil =>
    intro i _ hs
    cases hs
  | cons u slots ih =>
    intro i hun hs hk
    rw [slotGet_cons]
    cases i with
    | zero =>
      obtain rfl : u = s := Option.some.inj hs
      rw [if_pos hk.symm]
    | succ i =>
      have hu : u.key ≠ key := hun u (by simp)
      have hun' : Unseen slots i key := fun v hv => hun v (by simp [hv])
      rw [if_neg (Ne.symm hu)]
      exact ih hun' hs hk

theorem exists_split (hs : slots[i]? = some s) :
    ∃ a b, slots = a ++ s :: b ∧ a.length = i ∧ ∀ t, slots.set i t = a ++ t :: b := by
  obtain ⟨hi, rfl⟩ := List.getElem?_eq_some_iff.mp hs
  refine ⟨slots.take i, slots.drop (i + 1), ?_, List.length_take_of_le hi.le, fun t => ?_⟩
  · rw [List.getElem_cons_drop, List.take_append_drop]
  · rw [List.set_eq_take_append_cons_drop, if_pos hi]

/-- 鍵を変えない書き込み。 -/
theorem slotsUnique_set_same (h : SlotsUnique slots) (hs : slots[i]? = some s) {t : DataSlot}
    (ht : t.key = s.key) : SlotsUnique (slots.set i t) := by
  obtain ⟨a, b, rfl, -, hset⟩ := exists_split hs
  rw [hset]
  unfold SlotsUnique at h ⊢
  rw [List.pairwise_append, List.pairwise_cons] at h ⊢
  obtain ⟨ha, ⟨hsb, hb⟩, hab⟩ := h
  refine ⟨ha, ⟨fun u hu => ht ▸ hsb u hu, hb⟩, fun u hu v hv => ?_⟩
  rcases List.mem_cons.mp hv with rfl | hv
  · rw [ht]
    exact hab u hu s List.mem_cons_self
  · exact hab u hu v (List.mem_cons_of_mem _ hv)

/-- 鍵を変えない書き込みの後も、無い鍵は無い。 -/
theorem ne_key_set_same (h : ∀ u ∈ slots, u.key ≠ key) (hs : slots[i]? = some s) {t : DataSlot}
    (ht : t.key = s.key) : ∀ u ∈ slots.set i t, u.key ≠ key := by
  intro u hu
  rcases List.mem_or_eq_of_mem_set hu with hu | rfl
  · exact h u hu
  · rw [ht]
    exact h s (List.mem_of_getElem? hs)

theorem Unseen.set (h : Unseen slots i key) (t : DataSlot) : Unseen (slots.set i t) i key := by
  unfold Unseen
  rwa [List.take_set_of_le (le_refl i)]

/-- 空きにするか、どの slot にも無い鍵を入れる書き込み。 -/
theorem slotsUnique_set_new (h : SlotsUnique slots) (hs : slots[i]? = some s) {t : DataSlot}
    (ht : t.key = freeFlag ∨ ∀ u ∈ slots, u.key ≠ t.key) : SlotsUnique (slots.set i t) := by
  obtain ⟨a, b, rfl, -, hset⟩ := exists_split hs
  rw [hset]
  refine slotsUnique_replace h (ht.imp_right fun hall u hu => hall u ?_)
  rcases List.mem_append.mp hu with hu | hu
  · exact List.mem_append_left _ hu
  · exact List.mem_append_right _ (List.mem_cons_of_mem _ hu)

end Slots

/-! ## 空き slot の `payload` を除いた中身 -/

/-- 空き slot の `payload` を 0 にする。 -/
def DataSlot.clean (s : DataSlot) : DataSlot := if s.key = freeFlag then ⟨freeFlag, 0⟩ else s

theorem DataSlot.clean_key (s : DataSlot) : s.clean.key = s.key := by
  unfold clean
  split
  · next h => exact h.symm
  · rfl

theorem DataSlot.clean_eq {s t : DataSlot} (h : s.clean = t.clean) (hk : s.key ≠ freeFlag) :
    s = t := by
  have hkey : s.key = t.key := by rw [← s.clean_key, h, t.clean_key]
  unfold clean at h
  rwa [if_neg hk, if_neg (hkey ▸ hk)] at h

/-- `f` が空き slot の `payload` に依らなければ、書き換えも依らない。 -/
theorem updateFirst_clean {key : Key} {f : DataSlot → DataSlot}
    (hf : ∀ s t : DataSlot, s.key = key → s.clean = t.clean → (f s).clean = (f t).clean) :
    ∀ {l l' : List DataSlot}, l.map DataSlot.clean = l'.map DataSlot.clean →
      (updateFirst key f l).map (List.map DataSlot.clean) =
        (updateFirst key f l').map (List.map DataSlot.clean) := by
  intro l
  induction l with
  | nil =>
    intro l' h
    rw [List.map_eq_nil_iff.mp h.symm]
  | cons s l ih =>
    intro l' h
    cases l' with
    | nil => cases h
    | cons t l' =>
      obtain ⟨hst, hl⟩ := List.cons_eq_cons.mp h
      have hkey : s.key = t.key := by rw [← s.clean_key, hst, t.clean_key]
      rw [updateFirst, updateFirst, hkey]
      split
      · next hk =>
        rw [Option.map_some, Option.map_some, List.map_cons, List.map_cons,
          hf s t (hkey.trans hk) hst, hl]
      · have ih := ih hl
        cases hu : updateFirst key f l <;> cases hu' : updateFirst key f l' <;>
          simp_all

namespace Block

/-- 空き slot の `payload` を除いて等しい。 -/
structure Same (b b' : Block) : Prop where
  tree : b.overflowTree = b'.overflowTree
  slots : b.slots.map DataSlot.clean = b'.slots.map DataSlot.clean

variable {b b' : Block} {key : Key} {payload : Payload}

theorem Same.refl (b : Block) : Same b b := ⟨rfl, rfl⟩

theorem Same.trans {b'' : Block} (h : Same b b') (h' : Same b' b'') : Same b b'' :=
  ⟨h.tree.trans h'.tree, h.slots.trans h'.slots⟩

theorem Same.slotGet (h : Same b b') (hk : key ≠ freeFlag) :
    slotGet b.slots key = slotGet b'.slots key := by
  have hclean : ∀ l : List DataSlot, Plin.slotGet (l.map DataSlot.clean) key =
      Plin.slotGet l key := by
    intro l
    induction l with
    | nil => rfl
    | cons s l ih =>
      rw [List.map_cons, slotGet_cons, slotGet_cons, ih, s.clean_key]
      split
      · next hs =>
        have hclean : s.clean = s := if_neg (hs ▸ hk)
        rw [hclean]
      · rfl
  rw [← hclean b.slots, h.slots, hclean]

/-- 空き slot の `payload` を書いても、中身は変わらない。 -/
theorem same_setFree {i : Nat} {s : DataSlot} (hs : b.slots[i]? = some s) (hk : s.key = freeFlag)
    (payload : Payload) :
    Same { b with slots := b.slots.set i { s with payload := payload } } b := by
  refine ⟨rfl, ?_⟩
  obtain ⟨l, l', hl, -, hset⟩ := exists_split hs
  have hclean : ({ s with payload := payload } : DataSlot).clean = s.clean := by
    rw [DataSlot.clean, DataSlot.clean, if_pos hk, if_pos hk]
  show (b.slots.set i { s with payload := payload }).map DataSlot.clean = _
  rw [hset, hl, List.map_append, List.map_append, List.map_cons, List.map_cons, hclean]

/-- 二つの block の `find` は同じ結果を返す。 -/
theorem Same.find (h : Same b b') (hk : key ≠ freeFlag) (p : Payload) :
    b.find key p = b'.find key p := by
  have hget : b.get key = b'.get key := by
    rw [Block.get, Block.get, h.slotGet hk, treeGet, treeGet, h.tree]
  rw [find_eq, find_eq, hget]

theorem clean_erased (s : DataSlot) :
    ({ s with key := freeFlag } : DataSlot).clean = ⟨freeFlag, 0⟩ := if_pos rfl

/-- 書き込みも、空き slot の `payload` を見ない。 -/
theorem Same.apply (h : Same b b') (op : WriteOp) (hk : op.key ≠ freeFlag) :
    (op.apply b).1 = (op.apply b').1 ∧ Same (op.apply b).2 (op.apply b').2 := by
  cases op with
  | upsert key payload =>
    have hput := @updateFirst_clean key (fun s => { s with payload := payload })
      (fun s t hs hst => by rw [DataSlot.clean_eq hst (hs ▸ hk)]) _ _ h.slots
    have hfill := @updateFirst_clean freeFlag (fun _ => ⟨key, payload⟩)
      (fun _ _ _ _ => rfl) _ _ h.slots
    simp only [WriteOp.apply, upsert, h.tree]
    cases hu : updateFirst key (fun s => { s with payload := payload }) b.slots with
    | some l =>
      rw [hu] at hput
      obtain ⟨l', hu', hl⟩ := Option.map_eq_some_iff.mp hput.symm
      rw [hu']
      exact ⟨rfl, rfl, hl.symm⟩
    | none =>
      rw [hu] at hput
      rw [Option.map_eq_none_iff.mp hput.symm]
      dsimp only
      cases hv : updateFirst freeFlag (fun _ => (⟨key, payload⟩ : DataSlot)) b.slots with
      | some l =>
        rw [hv] at hfill
        obtain ⟨l', hv', hl⟩ := Option.map_eq_some_iff.mp hfill.symm
        rw [hv']
        exact ⟨rfl, rfl, hl.symm⟩
      | none =>
        rw [hv] at hfill
        rw [Option.map_eq_none_iff.mp hfill.symm]
        exact ⟨rfl, rfl, h.slots⟩
  | remove key =>
    have herase := @updateFirst_clean key (fun s => { s with key := freeFlag })
      (fun s t _ _ => by rw [clean_erased, clean_erased]) _ _ h.slots
    simp only [WriteOp.apply, remove, h.tree, deleteFlag_eq, ite_self]
    cases hu : updateFirst key (fun s => { s with key := freeFlag }) b.slots with
    | some l =>
      rw [hu] at herase
      obtain ⟨l', hu', hl⟩ := Option.map_eq_some_iff.mp herase.symm
      rw [hu']
      exact ⟨rfl, rfl, hl.symm⟩
    | none =>
      rw [hu] at herase
      rw [Option.map_eq_none_iff.mp herase.symm]
      dsimp only
      cases b'.overflowTree with
      | none => exact ⟨rfl, h⟩
      | some tree =>
        dsimp only
        split
        · exact ⟨rfl, rfl, h.slots⟩
        · exact ⟨rfl, h⟩

end Block

/-! ## 書き込みの列 -/

/-- `log` の書き込みを一つずつ実行した block。 -/
def runLog (b : Block) (log : List (WriteOp × Nat)) : Block :=
  log.foldl (fun b e => (e.1.apply b).2) b

theorem runLog_concat (b : Block) (log : List (WriteOp × Nat)) (e : WriteOp × Nat) :
    runLog b (log ++ [e]) = (e.1.apply (runLog b log)).2 := by
  rw [runLog, List.foldl_append]
  rfl

/-- どの返り値も、そのときの返り値である。 -/
def Replies (b : Block) (log : List (WriteOp × Nat)) : Prop :=
  ∀ pre e post, log = pre ++ e :: post → (e.1.apply (runLog b pre)).1 = e.2

theorem Replies.concat {b : Block} {log : List (WriteOp × Nat)} {e : WriteOp × Nat}
    (h : Replies b log) (he : (e.1.apply (runLog b log)).1 = e.2) : Replies b (log ++ [e]) := by
  intro pre e' post hcut
  rcases List.append_eq_append_iff.mp hcut with ⟨t, rfl, ht⟩ | ⟨t, rfl, ht⟩
  · cases t with
    | nil =>
      obtain ⟨rfl, -⟩ := List.cons_eq_cons.mp ht
      rwa [List.append_nil]
    | cons a t => simp at ht
  · cases t with
    | nil =>
      obtain ⟨rfl, -⟩ := List.cons_eq_cons.mp ht
      rwa [List.append_nil] at he
    | cons a t =>
      obtain ⟨rfl, -⟩ := List.cons_eq_cons.mp ht
      exact h pre _ t rfl

/-! ## lock -/

namespace SharedPc

/-- block の lock を持っている。 -/
def Inside : SharedPc → Bool
  | seek _ _ => true
  | putPayload _ _ _ => true
  | vacant _ _ _ => true
  | fillPayload _ _ _ => true
  | fillKey _ _ _ => true
  | treeUpsert _ _ => true
  | eraseKey _ _ => true
  | treeRemove _ => true
  | releaseLoad _ _ => true
  | releaseStore _ _ _ => true
  | _ => false

/-- slot と overflow tree を忘れた実行位置。 -/
def proj : SharedPc → BlockPc
  | checkWriteLock op => .checkWriteLock op.kind
  | clearLoad op => .clearLoad op.kind
  | clearStore op v => .clearStore op.kind v
  | lockLoad op => .lockLoad op.kind
  | lockCas op v => .lockCas op.kind v
  | seek op _ => .critical op.kind
  | putPayload _ _ _ => .critical .upsert
  | vacant _ _ _ => .critical .upsert
  | fillPayload _ _ _ => .critical .upsert
  | fillKey _ _ _ => .critical .upsert
  | treeUpsert _ _ => .critical .upsert
  | eraseKey _ _ => .critical .remove
  | treeRemove _ => .critical .remove
  | releaseLoad op bump => .releaseLoad op bump
  | releaseStore op bump v => .releaseStore op bump v
  | _ => .idle

theorem inside_proj (l : SharedPc) : l.proj.Inside = l.Inside := by cases l <;> rfl

end SharedPc

/-- 一歩は、lock だけを見れば `BlockPc` の一歩であるか、何もしない。 -/
theorem SharedStep.proj {m m' : BlockMem} {l l' : SharedPc} (h : SharedStep m l m' l') :
    (m'.words = m.words ∧ l'.proj = l.proj) ∨ BlockStep m.words l.proj m'.words l'.proj := by
  cases h with
  | write op hk => exact Or.inr (.call _ _)
  | checkWriteLock op =>
    refine Or.inr ?_
    rw [apply_ite SharedPc.proj]
    exact .checkWriteLock _ _
  | clearLoad op => exact Or.inr (.clearLoad _ _)
  | clearStore op v => exact Or.inr (.clearStore _ _ _)
  | lockLoad op =>
    refine Or.inr ?_
    rw [apply_ite SharedPc.proj]
    exact .lockLoad _ _
  | lockCas op v =>
    refine Or.inr ?_
    have hstep := BlockStep.lockCas m.words op.kind v
    by_cases hv : m.words.locked = v
    · rw [if_pos hv, if_pos hv] at hstep ⊢
      exact hstep
    · rw [if_neg hv, if_neg hv] at hstep ⊢
      exact hstep
  | putPayload => exact Or.inr (.releaseLock _ _)
  | fillKey => exact Or.inr (.releaseLock _ _)
  | treeUpsert => exact Or.inr (.releaseLock _ _)
  | eraseKey => exact Or.inr (.releaseLock _ _)
  | treeRemove => exact Or.inr (.releaseLock _ _)
  | treeRemoveMissed => exact Or.inr (.releaseLockWithoutChange _)
  | releaseLoad op bump => exact Or.inr (.releaseLoad _ _ _)
  | releaseStore op bump v => exact Or.inr (.releaseStore _ _ _ _)
  | waitLock =>
    refine Or.inl ⟨rfl, ?_⟩
    split <;> rfl
  | getVersion =>
    refine Or.inl ⟨rfl, ?_⟩
    split <;> rfl
  | verify =>
    refine Or.inl ⟨rfl, ?_⟩
    split <;> rfl
  | missed =>
    refine Or.inl ⟨rfl, ?_⟩
    split <;> rfl
  | _ => exact Or.inl ⟨rfl, rfl⟩

namespace SharedState

variable {T : Type}

def proj (c : SharedState T) : BlockState T := ⟨c.shared.words, fun t => (c.pc t).proj⟩

theorem inside_iff (c : SharedState T) (t : T) : (c.proj.pc t).Inside = (c.pc t).Inside :=
  (c.pc t).inside_proj

variable {c c' : SharedState T} {e : Option T}

/-- 語を変えない書き込みは、他の thread の lock を放さない。 -/
theorem Harmless.safe [Fintype T] (h : c.Harmless e) (hlock : BlockInv c.proj) :
    c.proj.Safe e := by
  cases e with
  | none => trivial
  | some t =>
    intro hclear u hu
    have hlocked := hlock.locked_of_inside hu
    -- 放した後の語に lock の bit は無い
    cases hpc : c.pc t with
    | clearStore op v =>
      have hv := h t op v rfl hpc
      exact not_locked_and_lockMask v (hv ▸ hlocked)
    | _ =>
      have hno : (c.pc t).proj.Clearing = true := hclear
      rw [hpc] at hno
      cases hno

variable [DecidableEq T]

theorem proj_move (c : SharedState T) (t : T) (m : BlockMem) (l : SharedPc) :
    proj (c.move t m l) = c.proj.move t m.words l.proj := by
  refine Threads.ext rfl (funext fun u => ?_)
  show ((c.move t m l).pc u).proj = _
  rcases c.move_pc_cases t u m l with ⟨rfl, hu⟩ | ⟨hne, hu⟩
  · rw [hu, Threads.move_pc_self]
  · rw [hu, Threads.move_pc_ne _ _ _ hne]
    rfl

theorem move_self (c : BlockState T) {t : T} {m : BlockWords} {l : BlockPc} (hm : m = c.shared)
    (hl : l = c.pc t) : c.move t m l = c := by
  refine Threads.ext hm (funext fun u => ?_)
  rcases c.move_pc_cases t u m l with ⟨rfl, hu⟩ | ⟨hne, hu⟩
  · rw [hu, hl]
  · exact hu

theorem proj_step (h : c.Step e c') : c'.proj = c.proj ∨ c.proj.Step e c'.proj := by
  cases h with
  | thread t h =>
    rw [proj_move]
    rcases h.proj with ⟨hm, hl⟩ | hstep
    · exact Or.inl (move_self c.proj hm hl)
    · exact Or.inr (.thread t hstep)
  | env h =>
    obtain ⟨b, rfl⟩ := h
    exact Or.inr (.env (c := c.proj) (m := { c.shared.words with writeLock := b }) rfl)

theorem blockInv_step [Fintype T] (hlock : BlockInv c.proj) (hharm : c.Harmless e)
    (h : c.Step e c') : BlockInv c'.proj := by
  rcases proj_step h with hsame | hstep
  · rwa [hsame]
  · exact hlock.step (hharm.safe hlock) hstep

end SharedState

/-! ## 不変条件 -/

/-- `i` 番目が、鍵が一致する最初の slot である。 -/
structure FirstAt (slots : List DataSlot) (i : Nat) (key : Key) : Prop where
  before : Unseen slots i key
  found : ∃ s, slots[i]? = some s ∧ s.key = key

namespace SharedPc

/-- lock を持つ thread が、それまでに調べた結果。 -/
def Holds (b : Block) : SharedPc → Prop
  | checkWriteLock op => op.key ≠ freeFlag
  | clearLoad op => op.key ≠ freeFlag
  | lockLoad op => op.key ≠ freeFlag
  | lockCas op _ => op.key ≠ freeFlag
  | seek op i => op.key ≠ freeFlag ∧ Unseen b.slots i op.key
  | putPayload key _ i => key ≠ freeFlag ∧ FirstAt b.slots i key
  | vacant key _ i => key ≠ freeFlag ∧ (∀ s ∈ b.slots, s.key ≠ key) ∧ Unseen b.slots i freeFlag
  | fillPayload key _ i =>
    key ≠ freeFlag ∧ (∀ s ∈ b.slots, s.key ≠ key) ∧ FirstAt b.slots i freeFlag
  | fillKey key payload i =>
    key ≠ freeFlag ∧ (∀ s ∈ b.slots, s.key ≠ key) ∧ Unseen b.slots i freeFlag ∧
      b.slots[i]? = some ⟨freeFlag, payload⟩
  | treeUpsert key _ =>
    key ≠ freeFlag ∧ (∀ s ∈ b.slots, s.key ≠ key) ∧ ∀ s ∈ b.slots, s.key ≠ freeFlag
  | eraseKey key i => key ≠ freeFlag ∧ FirstAt b.slots i key
  | treeRemove key => key ≠ freeFlag ∧ ∀ s ∈ b.slots, s.key ≠ key
  | _ => True

/-- lock を持たない thread の位置は、block の中身に触れない。 -/
theorem Holds.outside {b b' : Block} {l : SharedPc} (h : l.Holds b) (hl : ¬l.Inside) :
    l.Holds b' := by
  cases l <;> first | exact h | exact absurd rfl hl

end SharedPc

/-- 実行の不変条件。 -/
structure SharedInv {T : Type} [Fintype T] (b : Block) (c : SharedState T) : Prop where
  lock : BlockInv c.proj
  version : low c.shared.words.locked = c.shared.commits % 2 ^ 31
  stored : ∀ t op bump v, c.pc t = .releaseStore op bump v → v = c.shared.words.locked
  unique : SlotsUnique c.shared.block.slots
  pcs : ∀ t, (c.pc t).Holds c.shared.block
  content : Block.Same c.shared.block (runLog b c.shared.log)
  replies : Replies b c.shared.log

namespace SharedInv

variable {T : Type} [Fintype T] {b : Block} {c : SharedState T} {t : T}

theorem initial {b : Block} (hb : SlotsUnique b.slots) :
    SharedInv b (SharedState.initial b : SharedState T) where
  lock := blockInv_initial
  version := low_zero
  stored := by simp [SharedState.initial]
  unique := hb
  pcs _ := trivial
  content := .refl b
  replies := by
    intro pre e post h
    simp [SharedState.initial] at h

theorem exclusive (h : SharedInv b c) {u : T} (ht : (c.pc t).Inside) (hu : (c.pc u).Inside) :
    t = u := by
  rw [← c.inside_iff] at ht hu
  exact h.lock.exclusive t u ht hu

end SharedInv

section Move

variable {T : Type} [DecidableEq T] {c : SharedState T} {t : T} {l : SharedPc} {m : BlockMem}

theorem stored_move {w : UInt32} (hl : ∀ op bump v, l = .releaseStore op bump v → v = w)
    (hu : ∀ u, u ≠ t → ∀ op bump v, c.pc u = .releaseStore op bump v → v = w) :
    ∀ u op bump v, (c.move t m l).pc u = .releaseStore op bump v → v = w := by
  intro u op bump v hpc
  rcases c.move_pc_cases t u m l with ⟨_, e⟩ | ⟨hne, e⟩
  · exact hl op bump v (e ▸ hpc)
  · exact hu u hne op bump v (e ▸ hpc)

theorem pcs_move {b' : Block} (hl : l.Holds b') (hu : ∀ u, u ≠ t → (c.pc u).Holds b') :
    ∀ u, ((c.move t m l).pc u).Holds b' := by
  intro u
  rcases c.move_pc_cases t u m l with ⟨_, e⟩ | ⟨hne, e⟩
  · rwa [e]
  · rw [e]
    exact hu u hne

end Move

namespace SharedInv

variable {T : Type} [Fintype T] [DecidableEq T] {b : Block} {c : SharedState T} {t : T}
  {l : SharedPc} {m : BlockMem}

/-- block も語も変えない一歩。 -/
theorem quiet (h : SharedInv b c) (hlock : BlockInv (SharedState.proj (c.move t c.shared l)))
    (hl : l.Holds c.shared.block)
    (hstore : ∀ op bump v, l = .releaseStore op bump v → v = c.shared.words.locked) :
    SharedInv b (c.move t c.shared l) where
  lock := hlock
  version := h.version
  stored := stored_move hstore fun u _ => h.stored u
  unique := h.unique
  pcs := pcs_move hl fun u _ => h.pcs u
  content := h.content
  replies := h.replies

/-- block の中身を変えない、語への書き込み。 -/
theorem setLocked (h : SharedInv b c) {w : UInt32}
    (hlock : BlockInv (SharedState.proj (c.move t (c.shared.setLocked w) l)))
    (hl : l.Holds c.shared.block) (hlow : low w = low c.shared.words.locked)
    (hstore : ∀ u op bump v, (c.move t (c.shared.setLocked w) l).pc u =
      .releaseStore op bump v → v = w) :
    SharedInv b (c.move t (c.shared.setLocked w) l) where
  lock := hlock
  version := hlow.trans h.version
  stored := hstore
  unique := h.unique
  pcs := pcs_move hl fun u _ => h.pcs u
  content := h.content
  replies := h.replies

/-- lock を持つ thread が block を書く一歩。 -/
theorem write (h : SharedInv b c) (ht : (c.pc t).Inside)
    (hlock : BlockInv (SharedState.proj (c.move t m l)))
    (hwords : m.words = c.shared.words) (hcommits : m.commits = c.shared.commits)
    (hl : l.Holds m.block) (hstore : ∀ op bump v, l ≠ .releaseStore op bump v)
    (hunique : SlotsUnique m.block.slots) (hcontent : Block.Same m.block (runLog b m.log))
    (hreplies : Replies b m.log) : SharedInv b (c.move t m l) where
  lock := hlock
  version := by rw [Threads.move_shared, hwords, hcommits, h.version]
  stored := by
    rw [Threads.move_shared, hwords]
    exact stored_move (fun op bump v hl => absurd hl (hstore op bump v)) fun u _ => h.stored u
  unique := hunique
  pcs := pcs_move hl fun u hne =>
    (h.pcs u).outside fun hu => hne (h.exclusive hu ht)
  content := hcontent
  replies := hreplies

end SharedInv

/-! ## 逐次の意味との対応 -/

section Apply

variable {b : Block} {key : Key} {payload : Payload} {i : Nat} {s : DataSlot}

theorem apply_put (h : FirstAt b.slots i key) (hs : b.slots[i]? = some s) :
    (WriteOp.upsert key payload).apply b =
      (1, { b with slots := b.slots.set i { s with payload := payload } }) := by
  obtain ⟨t, ht, hk⟩ := h.found
  obtain rfl : s = t := Option.some.inj (hs.symm.trans ht)
  rw [WriteOp.apply, Block.upsert, updateFirst_at h.before hs hk]

theorem apply_fill (hno : ∀ s ∈ b.slots, s.key ≠ key) (h : Unseen b.slots i freeFlag)
    (hs : b.slots[i]? = some ⟨freeFlag, payload⟩) :
    (WriteOp.upsert key payload).apply b =
      (2, { b with slots := b.slots.set i ⟨key, payload⟩ }) := by
  rw [WriteOp.apply, Block.upsert, updateFirst_eq_none.mpr hno, updateFirst_at h hs rfl]

theorem apply_tree (hno : ∀ s ∈ b.slots, s.key ≠ key) (hfull : ∀ s ∈ b.slots, s.key ≠ freeFlag) :
    (WriteOp.upsert key payload).apply b =
      (if ((b.overflowTree.getD .empty).find key).isSome then 3 else 4,
        { b with overflowTree := some ((b.overflowTree.getD .empty).upsert key payload) }) := by
  rw [WriteOp.apply, Block.upsert, updateFirst_eq_none.mpr hno, updateFirst_eq_none.mpr hfull]

theorem apply_erase (h : FirstAt b.slots i key) (hs : b.slots[i]? = some s) :
    (WriteOp.remove key).apply b = (1, { b with slots := b.slots.set i { s with
      key := if b.overflowTree.isSome then deleteFlag else freeFlag } }) := by
  obtain ⟨t, ht, hk⟩ := h.found
  obtain rfl : s = t := Option.some.inj (hs.symm.trans ht)
  rw [WriteOp.apply, Block.remove, updateFirst_at h.before hs hk]

theorem apply_treeRemove (hno : ∀ s ∈ b.slots, s.key ≠ key) {tree : SortedMap Key Payload}
    (ht : b.overflowTree = some tree) (hf : (tree.find key).isSome) :
    (WriteOp.remove key).apply b = (2, { b with overflowTree := some (tree.erase key) }) := by
  rw [WriteOp.apply, Block.remove, updateFirst_eq_none.mpr hno, ht]
  exact if_pos hf

theorem apply_treeRemoveMissed (hno : ∀ s ∈ b.slots, s.key ≠ key)
    (hf : ∀ tree, b.overflowTree = some tree → (tree.find key).isSome = false) :
    (WriteOp.remove key).apply b = (0, b) := by
  rw [WriteOp.apply, Block.remove, updateFirst_eq_none.mpr hno]
  cases ht : b.overflowTree with
  | none => rfl
  | some tree =>
    dsimp only
    rw [if_neg (by rw [hf tree ht]; exact Bool.false_ne_true)]

end Apply

namespace SharedInv

variable {T : Type} [Fintype T] {b : Block} {c c' : SharedState T}

/-- block を書く一歩は、`log` に書き足した書き込みそのものである。 -/
theorem performs (h : SharedInv b c) (op : WriteOp) {ret : Nat} {b' : Block}
    (hk : op.key ≠ freeFlag) (ha : op.apply c.shared.block = (ret, b')) :
    Block.Same b' (runLog b (c.shared.log ++ [(op, ret)])) ∧
      Replies b (c.shared.log ++ [(op, ret)]) := by
  obtain ⟨hret, hsame⟩ := h.content.apply op hk
  rw [ha] at hret hsame
  exact ⟨by rwa [runLog_concat], h.replies.concat hret.symm⟩

variable [DecidableEq T]

/-- CAS に成功する一歩。 -/
theorem acquire (h : SharedInv b c) {t : T} {op : WriteOp} {v : UInt32}
    (ht : c.pc t = .lockCas op v) (hv : c.shared.words.locked = v)
    (hlock : BlockInv (SharedState.proj
      (c.move t (c.shared.setLocked (v ||| lockSet)) (.seek op 0))))
    (hk : op.key ≠ freeFlag) :
    SharedInv b (c.move t (c.shared.setLocked (v ||| lockSet)) (.seek op 0)) := by
  have hpc : c.proj.pc t = .lockCas op.kind v := by
    show (c.pc t).proj = _
    rw [ht]
    rfl
  have hfree := h.lock.loaded t op.kind v hpc
  refine h.setLocked hlock ⟨hk, unseen_zero _ _⟩ (by rw [low_or_lockSet hfree, hv]) ?_
  refine stored_move (by simp) fun u _ op' bump v' hu => ?_
  -- lock は空いていたので、放そうとしている thread は無い
  have hin : (c.proj.pc u).Inside = true := by
    rw [c.inside_iff, hu]
    rfl
  exact absurd (h.lock.locked_of_inside hin) (hv ▸ hfree)

theorem low_and_lockMask (w : UInt32) : low (w &&& lockMask) = low w := by
  have h : (w &&& lockMask).toNat = low w := rfl
  rw [low_eq, h, Nat.mod_eq_of_lt (low_lt w)]

theorem low_succ (w : UInt32) : low (w + 1) = (low w + 1) % 2 ^ 31 := by
  rw [low_eq, low_eq, UInt32.toNat_add, show (1 : UInt32).toNat = 1 from rfl]
  omega

/-- 放す一歩。 -/
theorem release (h : SharedInv b c) {t : T} {op : BlockWriter} {bump : Bool} {v : UInt32}
    (ht : c.pc t = .releaseStore op bump v)
    (hlock : BlockInv (SharedState.proj (c.move t
      { c.shared.setLocked ((if bump then v + 1 else v) &&& lockMask) with
        commits := if bump then c.shared.commits + 1 else c.shared.commits } .idle))) :
    SharedInv b (c.move t
      { c.shared.setLocked ((if bump then v + 1 else v) &&& lockMask) with
        commits := if bump then c.shared.commits + 1 else c.shared.commits } .idle) where
  lock := hlock
  version := by
    have hv := h.stored t op bump v ht
    have hversion := h.version
    show low ((if bump then v + 1 else v) &&& lockMask) = _
    rw [low_and_lockMask, Threads.move_shared]
    cases bump with
    | true =>
      show low (v + 1) = (c.shared.commits + 1) % 2 ^ 31
      rw [low_succ, hv, hversion, Nat.mod_add_mod]
    | false =>
      show low v = c.shared.commits % 2 ^ 31
      rw [hv, hversion]
  stored := stored_move (by simp) fun u hne op' bump' v' hu => by
    have hin : ∀ {w o b v}, c.pc w = .releaseStore o b v → (c.pc w).Inside = true := by
      intro w o b v hw
      rw [hw]
      rfl
    exact absurd (h.exclusive (hin hu) (hin ht)) hne
  unique := h.unique
  pcs := pcs_move trivial fun u _ => h.pcs u
  content := h.content
  replies := h.replies

/-- **一歩は不変条件を保つ。** -/
theorem step (h : SharedInv b c) {e : Option T} (hharm : c.Harmless e) (hs : c.Step e c') :
    SharedInv b c' := by
  have hlock := SharedState.blockInv_step h.lock hharm hs
  cases hs with
  | env hm =>
    obtain ⟨w, rfl⟩ := hm
    exact ⟨hlock, h.version, h.stored, h.unique, h.pcs, h.content, h.replies⟩
  | @thread t m l hs =>
    have hpc := h.pcs t
    generalize hl : c.pc t = l₀ at hs hpc
    generalize hm : c.shared = m₀ at hs hpc
    cases hs with
    | write op hk =>
      subst hm
      exact h.quiet hlock hk (by simp)
    | checkWriteLock op =>
      subst hm
      refine h.quiet hlock ?_ ?_ <;> split
      · exact hpc
      · exact hpc
      · simp
      · simp
    | clearLoad op =>
      subst hm
      exact h.quiet hlock trivial (by simp)
    | clearStore op v =>
      subst hm
      -- 書く値は今の語と同じである
      rw [hharm t op v rfl hl] at hlock ⊢
      exact h.quiet hlock trivial (by simp)
    | lockLoad op =>
      subst hm
      refine h.quiet hlock ?_ ?_ <;> split
      · exact hpc
      · exact hpc
      · simp
      · simp
    | lockCas op v =>
      subst hm
      by_cases hv : c.shared.words.locked = v
      · rw [if_pos hv, if_pos hv] at hlock ⊢
        exact h.acquire hl hv hlock hpc
      · rw [if_neg hv, if_neg hv] at hlock ⊢
        exact h.quiet hlock hpc (by simp)
    | seekNext op hs hk =>
      subst hm
      exact h.quiet hlock ⟨hpc.1, hpc.2.succ hs hk⟩ (by simp)
    | updateFound key payload hs hk =>
      subst hm
      exact h.quiet hlock ⟨hpc.1, hpc.2, _, hs, hk⟩ (by simp)
    | updateMissed key payload hs =>
      subst hm
      exact h.quiet hlock ⟨hpc.1, hpc.2.all hs, unseen_zero _ _⟩ (by simp)
    | putPayload key payload hs =>
      subst hm
      obtain ⟨hsame, hreplies⟩ := h.performs (.upsert key payload) hpc.1 (apply_put hpc.2 hs)
      exact h.write (by rw [hl]; rfl) hlock rfl rfl trivial (by simp)
        (slotsUnique_set_same h.unique hs rfl) hsame hreplies
    | vacantNext key payload hs hk =>
      subst hm
      exact h.quiet hlock ⟨hpc.1, hpc.2.1, hpc.2.2.succ hs hk⟩ (by simp)
    | vacantFound key payload hs hk =>
      subst hm
      exact h.quiet hlock ⟨hpc.1, hpc.2.1, hpc.2.2, _, hs, hk⟩ (by simp)
    | vacantMissed key payload hs =>
      subst hm
      exact h.quiet hlock ⟨hpc.1, hpc.2.1, hpc.2.2.all hs⟩ (by simp)
    | fillPayload key payload hs =>
      subst hm
      obtain ⟨hk, hno, hfirst⟩ := hpc
      obtain ⟨u, hu, hfree⟩ := hfirst.found
      obtain rfl := Option.some.inj (hs.symm.trans hu)
      refine h.write (by rw [hl]; rfl) hlock rfl rfl ⟨hk, ne_key_set_same hno hs rfl, ?_, ?_⟩
        (by simp) (slotsUnique_set_same h.unique hs rfl) ?_ h.replies
      · exact hfirst.before.set _
      · rw [← hfree]
        exact List.getElem?_set_self (List.getElem?_eq_some_iff.mp hs).1
      · exact (Block.same_setFree hs hfree payload).trans h.content
    | fillKey key payload hs =>
      subst hm
      obtain ⟨hk, hno, hun, hat⟩ := hpc
      obtain rfl := Option.some.inj (hs.symm.trans hat)
      obtain ⟨hsame, hreplies⟩ := h.performs (.upsert key payload) hk (apply_fill hno hun hs)
      exact h.write (by rw [hl]; rfl) hlock rfl rfl trivial (by simp)
        (slotsUnique_set_new h.unique hs (Or.inr hno)) hsame hreplies
    | treeUpsert key payload =>
      subst hm
      obtain ⟨hk, hno, hfull⟩ := hpc
      obtain ⟨hsame, hreplies⟩ := h.performs (.upsert key payload) hk (apply_tree hno hfull)
      exact h.write (by rw [hl]; rfl) hlock rfl rfl trivial (by simp) h.unique hsame hreplies
    | removeFound key hs hk =>
      subst hm
      exact h.quiet hlock ⟨hpc.1, hpc.2, _, hs, hk⟩ (by simp)
    | removeMissed key hs =>
      subst hm
      exact h.quiet hlock ⟨hpc.1, hpc.2.all hs⟩ (by simp)
    | eraseKey key hs =>
      subst hm
      obtain ⟨hsame, hreplies⟩ := h.performs (.remove key) hpc.1 (apply_erase hpc.2 hs)
      refine h.write (by rw [hl]; rfl) hlock rfl rfl trivial (by simp)
        (slotsUnique_set_new h.unique hs (Or.inl ?_)) hsame hreplies
      rw [deleteFlag_eq, ite_self]
    | treeRemove key ht hf =>
      subst hm
      obtain ⟨hsame, hreplies⟩ := h.performs (.remove key) hpc.1
        (apply_treeRemove hpc.2 ht hf)
      exact h.write (by rw [hl]; rfl) hlock rfl rfl trivial (by simp) h.unique hsame hreplies
    | treeRemoveMissed key hf =>
      subst hm
      obtain ⟨hsame, hreplies⟩ := h.performs (.remove key) hpc.1
        (apply_treeRemoveMissed hpc.2 hf)
      exact h.write (by rw [hl]; rfl) hlock rfl rfl trivial (by simp) h.unique hsame hreplies
    | releaseLoad op bump =>
      subst hm
      refine h.quiet hlock trivial fun op' bump' v hv => ?_
      exact (SharedPc.releaseStore.inj hv).2.2.symm
    | releaseStore op bump v =>
      subst hm
      exact h.release hl hlock
    | find key hk =>
      subst hm
      exact h.quiet hlock trivial (by simp)
    | waitLock key =>
      subst hm
      refine h.quiet hlock ?_ ?_ <;> split <;> first | trivial | simp
    | getVersion key =>
      subst hm
      refine h.quiet hlock ?_ ?_ <;> split <;> first | trivial | simp
    | verify key version payload =>
      subst hm
      refine h.quiet hlock ?_ ?_ <;> split <;> first | trivial | simp
    | missed key =>
      subst hm
      refine h.quiet hlock ?_ ?_ <;> split <;> first | trivial | simp
    | _ =>
      subst hm
      exact h.quiet hlock trivial (by simp)

theorem of_reach (hb : SlotsUnique b.slots)
    (h : Reach SharedState.Step SharedState.Harmless (SharedState.initial b) c) : SharedInv b c :=
  h.invariant (SharedInv b) (SharedInv.initial hb) fun _ _ _ hI hharm hs => hI.step hharm hs

end SharedInv

/--
**書き込みは直列である。** どの書き込みも、`log` の順に一つずつ実行したときの返り値を返し、block の中身は
最後の書き込みの後の中身である。
-/
theorem writes_serialized {T : Type} [Fintype T] [DecidableEq T] {b : Block}
    (hb : SlotsUnique b.slots) {c : SharedState T}
    (h : Reach SharedState.Step SharedState.Harmless (SharedState.initial b) c) :
    Block.Same c.shared.block (runLog b c.shared.log) ∧ Replies b c.shared.log :=
  ⟨(SharedInv.of_reach hb h).content, (SharedInv.of_reach hb h).replies⟩

/-! ## 交錯する書き込み -/

section Calling

variable {T : Type} [DecidableEq T] {b : Block} {c : SharedState T} {m : BlockMem} {l : SharedPc}

/-- 諦めた枝に居る thread が無い。どの一歩も他の lock を放さない。 -/
def SharedState.NoClearing (c : SharedState T) : Prop := ∀ u, (c.pc u).proj.Clearing = false

omit [DecidableEq T] in
theorem SharedState.NoClearing.harmless (h : c.NoClearing) (e : Option T) : c.Harmless e := by
  intro t op v _ hpc
  have ht := h t
  rw [hpc] at ht
  cases ht

theorem SharedState.NoClearing.move (h : c.NoClearing) (t : T) (hl : l.proj.Clearing = false) :
    SharedState.NoClearing (c.move t m l) := by
  intro u
  rcases c.move_pc_cases t u m l with ⟨-, e⟩ | ⟨-, e⟩
  · rw [e]
    exact hl
  · rw [e]
    exact h u

/-- 諦めた枝に居る thread の無いまま `c` に着く。 -/
def Reached (b : Block) (c : SharedState T) : Prop :=
  Reach SharedState.Step SharedState.Harmless (SharedState.initial b) c ∧ c.NoClearing

theorem Reached.start : Reached b (SharedState.initial b : SharedState T) := ⟨.refl _, fun _ => rfl⟩

theorem Reached.thread (h : Reached b c) (t : T) (hs : SharedStep c.shared (c.pc t) m l)
    (hl : l.proj.Clearing = false) : Reached b (c.move t m l) :=
  ⟨h.1.tail (h.2.harmless (some t)) (.thread t hs), h.2.move t hl⟩

theorem Reached.congr (h : Reached b c) {c' : SharedState T} (hshared : c'.shared = c.shared)
    (hpc : ∀ u, c'.pc u = c.pc u) : Reached b c' :=
  (Threads.ext hshared (funext hpc) : c' = c) ▸ h

end Calling

/-- 一つの slot に鍵 3 が在る block。 -/
def oneSlot : Block := ⟨none, [⟨Key.ofNat 3, 30⟩]⟩

/-- 鍵 3 を上書きする thread が slot を見つけ、鍵 3 を消す thread は lock を取り損ねている。 -/
def racing : SharedState (Fin 3) :=
  ⟨⟨⟨lockSet, false⟩, oneSlot, 0, []⟩,
    ![.putPayload (Key.ofNat 3) 31 0, .lockLoad (.remove (Key.ofNat 3)), .idle]⟩

theorem reached_racing : Reached oneSlot racing := by
  have h₁ := (@Reached.start (Fin 3) _ oneSlot).thread 0 (.write _ (.upsert (Key.ofNat 3) 31)
    (by decide)) rfl
  have h₂ := h₁.thread 1 (.write _ (.remove (Key.ofNat 3)) (by decide)) rfl
  have h₃ := h₂.thread 0 (.checkWriteLock _ _) rfl
  have h₄ := h₃.thread 1 (.checkWriteLock _ _) rfl
  -- どちらも空いている lock を見て、先の方だけが取る
  have h₅ := h₄.thread 0 (.lockLoad _ _) rfl
  have h₆ := h₅.thread 1 (.lockLoad _ _) rfl
  have h₇ := h₆.thread 0 (.lockCas _ _ _) rfl
  have h₈ := h₇.thread 1 (.lockCas _ _ _) rfl
  have h₉ := h₈.thread 0 (.updateFound _ _ _ rfl rfl) rfl
  exact h₉.congr rfl (Fin.forall_fin_succ.mpr ⟨rfl, Fin.forall_fin_two.mpr ⟨rfl, rfl⟩⟩)

/-- lock を取り損ねた `remove` は、上書きの後に実行される。 -/
theorem writes_serialized_race :
    Block.Same ⟨none, [⟨freeFlag, 31⟩]⟩
        (runLog oneSlot [(.upsert (Key.ofNat 3) 31, 1), (.remove (Key.ofNat 3), 1)]) ∧
      Replies oneSlot [(.upsert (Key.ofNat 3) 31, 1), (.remove (Key.ofNat 3), 1)] := by
  have h₁ := reached_racing.thread 0 (.putPayload _ _ _ rfl) rfl
  have h₂ := h₁.thread 0 (.releaseLoad _ _ _) rfl
  have h₃ := h₂.thread 0 (.releaseStore _ _ _ _) rfl
  have h₄ := h₃.thread 1 (.lockLoad _ _) rfl
  have h₅ := h₄.thread 1 (.lockCas _ _ _) rfl
  have h₆ := h₅.thread 1 (.removeFound _ _ rfl rfl) rfl
  have h₇ := h₆.thread 1 (.eraseKey _ _ rfl) rfl
  have h₈ := h₇.thread 1 (.releaseLoad _ _ _) rfl
  have h₉ := h₈.thread 1 (.releaseStore _ _ _ _) rfl
  exact writes_serialized (by simp [SlotsUnique, oneSlot]) h₉.1

end Plin
