import Plin.Index.Exact
import Plin.Properties.Leaf

/-!
# 一つの leaf は有限写像か

隣を持たない leaf に一つの thread から `upsert` と `remove` を続けて呼んだとき、
`find` が「最後に書いて消していない値」を返すかどうかを調べる。

`DELETE_FLAG` が `FREE_FLAG` と同じ値なので、答えは **いつもそうだとは限らない**。
block がいっぱいになって鍵 `k` が overflow tree に入り、その後で slot の鍵が一つ消えると、
空いた slot に `k` をもう一度書けてしまう。次に `k` を消すと slot の方だけが消え、
overflow tree の古い値が見える（`stale_copy_survives_remove`）。

壊れるのはこの手順だけである。どの `upsert` もこの形でなければ、走行のあらゆる時点で
leaf は写像を正しく表し、逆に一度でもこの形の `upsert` をすれば、その鍵は二箇所に記録される
（`leaf_refines_iff_stepsSafe`）。
-/

namespace Plin

open Infra

variable {D : Type} [Arith D]

/-! ## 隣の無い leaf の一手 -/

/-- leaf への操作。 -/
inductive LeafOp where
  | upsert (key : Key) (payload : Payload)
  | remove (key : Key)
deriving DecidableEq

def LeafOp.key : LeafOp → Key
  | .upsert k _ => k
  | .remove k => k

/-- 操作を一つ行う。 -/
def LeafNode.apply (l : LeafNode D) : LeafOp → Option (LeafNode D)
  | .upsert k p => (LeafNode.upsert [l] 0 k p none).bind fun r => r.leaves[0]?
  | .remove k => (LeafNode.remove [l] 0 k none).bind fun r => r.2[0]?

/-- 操作を順に行う。 -/
def LeafNode.run (l : LeafNode D) : List LeafOp → Option (LeafNode D)
  | [] => some l
  | op :: ops => (l.apply op).bind fun l' => LeafNode.run l' ops

/-- 抽象的な写像への操作。 -/
def LeafOp.onMap (m : Key → Option Payload) : LeafOp → Key → Option Payload
  | .upsert k p => fun q => if q = k then some p else m q
  | .remove k => fun q => if q = k then none else m q

/-- 最後に書かれて消されていない値の写像。 -/
def specMap (ops : List LeafOp) : Key → Option Payload :=
  ops.foldl LeafOp.onMap fun _ => none

/-- 何も入っていない leaf。slot はすべて空きで、隣は無い。 -/
def LeafNode.empty (slope intercept : D) (blockNumber : Nat) : LeafNode D :=
  { slope := slope
    intercept := intercept
    blockNumber := blockNumber
    prev := none
    next := none
    firstKey := freeFlag
    overflowNumber := 0
    numberToSplit := LeafNode.numberToSplitFor blockNumber
    locked := 0
    isAbandoned := false
    blocks := List.replicate blockNumber Block.init
    lastBuildKey := freeFlag }

/-- lock が掛かっておらず、隣が無く、block が足りている。 -/
structure LeafNode.Alone (l : LeafNode D) : Prop where
  next : l.next = none
  locked : l.locked = 0
  blocks : l.blocks.length = l.blockNumber
  lower : 3 ≤ l.blockNumber
  upper : l.blockNumber < 2 ^ 32

namespace LeafNode

variable {l : LeafNode D} {k : Key}

omit [Arith D] in
theorem alone_empty (slope intercept : D) {bn : Nat} (h3 : 3 ≤ bn) (h32 : bn < 2 ^ 32) :
    (empty slope intercept bn).Alone where
  next := rfl
  locked := rfl
  blocks := by simp [empty]
  lower := h3
  upper := h32

theorem home_lt (h : l.Alone) (k : Key) : l.home k < l.blocks.length := by
  rw [h.blocks]
  exact lt_of_le_of_lt (slotBlock_le _) (predictBlock_lt k l.slope l.intercept h.lower h.upper)

/-- 鍵の居場所の block。 -/
theorem exists_block (h : l.Alone) (k : Key) : ∃ b, l.blocks[l.home k]? = some b :=
  ⟨_, List.getElem?_eq_getElem (home_lt h k)⟩

/-- 隣が無いので、どの予測でも自分の block に留まる。 -/
theorem locate_alone (h : l.Alone) (k : Key) (fuel : Nat) :
    locate [l] k (fuel + 1) 0 none = some (.at 0 none (l.predict k)) := by
  have hlock : l.checkReadLock none = true := by simp [checkReadLock, h.locked]
  simp [locate, hlock, h.next]

theorem find_alone (h : l.Alone) (k : Key) (p : Payload) {b : Block}
    (hb : l.blocks[l.home k]? = some b) : find [l] 0 k p none = some (b.find k p) :=
  find_of_locate (locate_alone h k _) rfl hb

/-- `upsert` が leaf に残すのは、鍵の block の書き換えと数え上げだけである。 -/
theorem apply_upsert (h : l.Alone) (p : Payload) {b : Block}
    (hb : l.blocks[l.home k]? = some b) :
    ∃ n, l.apply (.upsert k p) = some { l with
      blocks := l.blocks.set (l.home k) (b.upsert k p).2, overflowNumber := n } := by
  have hlock : l.checkWriteLock none = true := by simp [checkWriteLock, h.locked]
  obtain ⟨n, hn⟩ := finishUpsert_leaf l 0 none (b.upsert k p).1
    (l.blocks.set (l.home k) (b.upsert k p).2)
  refine ⟨n, ?_⟩
  rw [apply, upsert_of_locate (locate_alone h k _) rfl hlock hb]
  exact congrArg some hn

theorem apply_remove (h : l.Alone) {b : Block} (hb : l.blocks[l.home k]? = some b) :
    ∃ n, l.apply (.remove k) = some { l with
      blocks := l.blocks.set (l.home k) (b.remove k).2, overflowNumber := n } := by
  have hlock : l.checkWriteLock none = true := by simp [checkWriteLock, h.locked]
  obtain ⟨n, hn⟩ := remove_of_locate (locate_alone h k _) rfl hlock hb
  refine ⟨n, ?_⟩
  rw [apply, hn]
  rfl

omit [Arith D] in
/-- block と数え上げを変えても leaf の形は変わらない。 -/
theorem alone_setBlocks (h : l.Alone) {i n : Nat} {b : Block} :
    ({ l with blocks := l.blocks.set i b, overflowNumber := n } : LeafNode D).Alone where
  next := h.next
  locked := h.locked
  blocks := by simpa using h.blocks
  lower := h.lower
  upper := h.upper

/-! ## 写像の表現 -/

/-- leaf が写像 `m` を表す。`find` の答えが `m` と一致し、どの鍵も二箇所に無い。 -/
structure Refines (l : LeafNode D) (m : Key → Option Payload) : Prop where
  find : ∀ k < deleteFlag, ∀ p, LeafNode.find [l] 0 k p none = some (match m k with
    | some v => (1, v)
    | none => (0, p))
  single : ∀ k < deleteFlag, ∀ b, l.blocks[l.home k]? = some b →
    ¬ (slotGet b.slots k ≠ none ∧ b.treeGet k ≠ none)

/-- 走行中に保つもの。どの block も二重の記録を持たず、中身が写像と一致する。 -/
structure Holds (l : LeafNode D) (m : Key → Option Payload) : Prop where
  alone : l.Alone
  inv : ∀ b ∈ l.blocks, b.Inv
  get : ∀ k < deleteFlag, ∀ b, l.blocks[l.home k]? = some b → b.get k = m k

theorem Holds.refines {m : Key → Option Payload} (h : l.Holds m) : l.Refines m where
  find := by
    intro k hk p
    obtain ⟨b, hb⟩ := exists_block h.alone k
    have hfind := b.find_eq k p
    rw [h.get k hk b hb] at hfind
    exact (find_alone h.alone k p hb).trans (congrArg some hfind)
  single := by
    intro k hk b hb hc
    have hne : k ≠ freeFlag := by rw [← deleteFlag_eq]; exact ne_of_lt hk
    exact hc.2 ((h.inv b (List.mem_of_getElem? hb)).disjoint k hne hc.1)

/-- 操作が二重の記録を作らない条件。`remove` はいつでもよい。 -/
def StepSafe (l : LeafNode D) : LeafOp → Prop
  | .upsert k _ => ∀ b, l.blocks[l.home k]? = some b → b.UpsertSafe k
  | .remove _ => True

/-- 走行のどの一手も `StepSafe` である。 -/
def StepsSafe (l : LeafNode D) : List LeafOp → Prop
  | [] => True
  | op :: ops => l.StepSafe op ∧ ∀ l', l.apply op = some l' → StepsSafe l' ops

/-- 一つの block の書き換えが写像の一点の書き換えに見えるなら、leaf 全体でもそう見える。 -/
theorem Holds.set {m m' : Key → Option Payload} (h : l.Holds m) {b b' : Block} {n : Nat}
    (hb : l.blocks[l.home k]? = some b) (hinv : b'.Inv)
    (hsame : ∀ q < deleteFlag, b.get q = m q → b'.get q = m' q)
    (hother : ∀ q, q ≠ k → m' q = m q) :
    ({ l with blocks := l.blocks.set (l.home k) b', overflowNumber := n } : LeafNode D).Holds
      m' where
  alone := alone_setBlocks h.alone
  inv := by
    intro c hc
    rcases List.mem_or_eq_of_mem_set hc with hc | rfl
    · exact h.inv c hc
    · exact hinv
  get := by
    intro q hq c hc
    change (l.blocks.set (l.home k) b')[l.home q]? = some c at hc
    by_cases hh : l.home q = l.home k
    · rw [hh, List.getElem?_set_self (by exact home_lt h.alone k)] at hc
      obtain rfl : b' = c := by simpa using hc
      exact hsame q hq (h.get q hq b (by rw [hh]; exact hb))
    · rw [List.getElem?_set_ne (Ne.symm hh)] at hc
      rw [h.get q hq c hc, hother q (by rintro rfl; exact hh rfl)]

/-- 安全な一手は表現を保つ。 -/
theorem Holds.step {m : Key → Option Payload} (h : l.Holds m) {op : LeafOp}
    (hk : op.key < deleteFlag) (hs : l.StepSafe op) :
    ∃ l', l.apply op = some l' ∧ l'.Holds (op.onMap m) := by
  have hne : ∀ q : Key, q < deleteFlag → q ≠ freeFlag := by
    intro q hq
    rw [← deleteFlag_eq]
    exact ne_of_lt hq
  cases op with
  | upsert k p =>
    obtain ⟨b, hb⟩ := exists_block h.alone k
    have hbi : b.Inv := h.inv b (List.mem_of_getElem? hb)
    obtain ⟨n, hn⟩ := apply_upsert h.alone p hb
    refine ⟨_, hn, h.set hb (Block.inv_upsert (hne k hk) hbi (hs b hb)) ?_ ?_⟩
    · intro q hq hg
      rw [Block.get_upsert (hne k hk) (hne q hq), hg]
      rfl
    · intro q hq
      exact if_neg hq
  | remove k =>
    obtain ⟨b, hb⟩ := exists_block h.alone k
    have hbi : b.Inv := h.inv b (List.mem_of_getElem? hb)
    obtain ⟨n, hn⟩ := apply_remove h.alone hb
    refine ⟨_, hn, h.set hb (Block.inv_remove hbi) ?_ ?_⟩
    · intro q hq hg
      rw [Block.get_remove (hne k hk) (hne q hq) hbi, hg]
      rfl
    · intro q hq
      exact if_neg hq

/-- 安全な走行は表現を保つ。 -/
theorem Holds.run {ops : List LeafOp} : ∀ {l : LeafNode D} {m : Key → Option Payload},
    l.Holds m → (∀ op ∈ ops, op.key < deleteFlag) → l.StepsSafe ops →
      ∃ l', l.run ops = some l' ∧ l'.Holds (ops.foldl LeafOp.onMap m) := by
  induction ops with
  | nil => exact fun h _ _ => ⟨_, rfl, h⟩
  | cons op ops ih =>
    intro l m h hk hs
    obtain ⟨l₁, h₁, hh₁⟩ := h.step (hk op (by simp)) hs.1
    obtain ⟨l₂, h₂, hh₂⟩ := ih hh₁ (fun o ho => hk o (by simp [ho])) (hs.2 l₁ h₁)
    exact ⟨l₂, by rw [LeafNode.run, h₁]; exact h₂, hh₂⟩

theorem StepsSafe.of_initial {pre ops : List LeafOp} (hp : pre <+: ops) :
    ∀ {l : LeafNode D}, l.StepsSafe ops → l.StepsSafe pre := by
  induction pre generalizing ops with
  | nil => exact fun _ => trivial
  | cons op pre ih =>
    intro l hs
    cases ops with
    | nil => simp at hp
    | cons o rest =>
      obtain ⟨rfl, hp'⟩ := List.cons_prefix_cons.mp hp
      exact ⟨hs.1, fun l' hl' => ih hp' (hs.2 l' hl')⟩

/-- 一手が安全でなければ、その鍵は二箇所に記録される。 -/
theorem not_single_of_unsafe (h : l.Alone) {p : Payload} (hs : ¬ l.StepSafe (.upsert k p)) :
    ∃ l', l.apply (.upsert k p) = some l' ∧ ∃ b, l'.blocks[l'.home k]? = some b ∧
      slotGet b.slots k ≠ none ∧ b.treeGet k ≠ none := by
  obtain ⟨b, hb⟩ := exists_block h k
  have hub : ¬ b.UpsertSafe k := by
    intro hc
    refine hs fun c hc' => ?_
    rw [hb] at hc'
    obtain rfl := Option.some.inj hc'
    exact hc
  obtain ⟨n, hn⟩ := apply_upsert h p hb
  refine ⟨_, hn, (b.upsert k p).2, ?_, Block.upsert_unsafe hub⟩
  exact List.getElem?_set_self (home_lt h k)

/-- あらゆる時点で写像を表している走行は、どの一手も安全である。 -/
theorem stepsSafe_of_refines {ops : List LeafOp} :
    ∀ {l : LeafNode D} {m : Key → Option Payload}, l.Holds m →
      (∀ op ∈ ops, op.key < deleteFlag) →
      (∀ pre, pre <+: ops → ∃ l', l.run pre = some l' ∧
        l'.Refines (pre.foldl LeafOp.onMap m)) → l.StepsSafe ops := by
  induction ops with
  | nil => exact fun _ _ _ => trivial
  | cons op ops ih =>
    intro l m h hk hr
    have hop : l.StepSafe op := by
      by_contra hc
      cases op with
      | remove k => exact hc trivial
      | upsert k p =>
        obtain ⟨l₁, h₁, b, hb, hd⟩ := not_single_of_unsafe h.alone hc
        obtain ⟨l', hl', href⟩ := hr [.upsert k p] (by simp)
        rw [LeafNode.run, h₁] at hl'
        obtain rfl : l₁ = l' := by simpa [LeafNode.run] using hl'
        exact href.single k (hk (.upsert k p) (by simp)) b hb hd
    refine ⟨hop, fun l₁ h₁ => ?_⟩
    obtain ⟨l₂, h₂, hh⟩ := h.step (hk op (by simp)) hop
    rw [h₁] at h₂
    obtain rfl := Option.some.inj h₂
    refine ih hh (fun o ho => hk o (by simp [ho])) fun pre hp => ?_
    obtain ⟨l', hl', href⟩ := hr (op :: pre) (List.cons_prefix_cons.mpr ⟨rfl, hp⟩)
    rw [LeafNode.run, h₁] at hl'
    exact ⟨l', hl', href⟩

theorem holds_empty (slope intercept : D) {bn : Nat} (h3 : 3 ≤ bn) (h32 : bn < 2 ^ 32) :
    (empty slope intercept bn).Holds fun _ => none where
  alone := alone_empty slope intercept h3 h32
  inv := by
    intro b hb
    rw [show b = Block.init from List.eq_of_mem_replicate hb]
    exact Block.inv_init
  get := by
    intro k hk b hb
    obtain rfl : b = Block.init := List.eq_of_mem_replicate (List.mem_of_getElem? hb)
    have hne : k ≠ freeFlag := by rw [← deleteFlag_eq]; exact ne_of_lt hk
    exact Block.get_init hne

end LeafNode

/--
**leaf が有限写像として振る舞う走行の特徴づけ。**

空の leaf から始めた走行のあらゆる時点で、`find` が「最後に書いて消していない値」を返し
どの鍵も slot と overflow tree の両方には無い、ということは、どの `upsert` も
「overflow tree にだけ在る鍵を、空きの印の slot がある block に書く」形でないことと同値である。
-/
theorem leaf_refines_iff_stepsSafe (slope intercept : D) {bn : Nat} (h3 : 3 ≤ bn)
    (h32 : bn < 2 ^ 32) (ops : List LeafOp) (hk : ∀ op ∈ ops, op.key < deleteFlag) :
    (∀ pre, pre <+: ops → ∃ l, (LeafNode.empty slope intercept bn).run pre = some l ∧
      l.Refines (specMap pre)) ↔ (LeafNode.empty slope intercept bn).StepsSafe ops := by
  have h₀ := LeafNode.holds_empty slope intercept h3 h32
  constructor
  · exact LeafNode.stepsSafe_of_refines h₀ hk
  · intro hs pre hp
    obtain ⟨l, hl, hh⟩ := h₀.run (fun op ho => hk op (hp.subset ho))
      (LeafNode.StepsSafe.of_initial hp hs)
    exact ⟨l, hl, hh.refines⟩

/-- 三つの block をもつ空の leaf で鍵を一つ書いて消す走行は、この条件を満たす。 -/
theorem leaf_refines_upsert_remove :
    (LeafNode.empty (0 : ℚ) 0 3).StepsSafe
        [LeafOp.upsert (Key.ofNat 7) 1, LeafOp.remove (Key.ofNat 7)] ∧
      ∀ pre, pre <+: [LeafOp.upsert (Key.ofNat 7) 1, LeafOp.remove (Key.ofNat 7)] →
        ∃ l, (LeafNode.empty (0 : ℚ) 0 3).run pre = some l ∧ l.Refines (specMap pre) := by
  have hs : (LeafNode.empty (0 : ℚ) 0 3).StepsSafe
      [LeafOp.upsert (Key.ofNat 7) 1, LeafOp.remove (Key.ofNat 7)] := by
    refine ⟨?_, fun _ _ => ⟨trivial, fun _ _ => trivial⟩⟩
    intro b hb hc
    obtain rfl : b = Block.init := List.eq_of_mem_replicate (List.mem_of_getElem? hb)
    exact absurd rfl hc
  exact ⟨hs, (leaf_refines_iff_stepsSafe (0 : ℚ) 0 (by decide) (by decide) _
    (by decide +kernel)).mpr hs⟩

/-- 15 個の slot を埋め、16 個目を overflow tree に追い出し、slot を一つ空けて書き直す手順。 -/
def staleOps : List LeafOp :=
  (List.range 16).map (fun i => .upsert (Key.ofNat (i + 1)) (UInt64.ofNat (i + 1))) ++
    [.remove (Key.ofNat 1), .upsert (Key.ofNat 16) 99, .remove (Key.ofNat 16)]

/-- 消したはずの鍵 16 が、overflow tree に残った古い値 16 で見つかる。 -/
theorem stale_copy_survives_remove :
    (∀ op ∈ staleOps, op.key < deleteFlag) ∧
      ((LeafNode.empty (0 : ℚ) 0 3).run staleOps).bind
        (fun l => LeafNode.find [l] 0 (Key.ofNat 16) 0 none) = some (1, 16) ∧
      specMap staleOps (Key.ofNat 16) = none := by
  decide +kernel

end Plin
