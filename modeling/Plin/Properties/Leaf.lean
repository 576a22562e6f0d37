import Plin.Properties.Block

/-!
# leaf の操作の形

`find` / `upsert` / `remove` は `locate` が選んだ block の上の操作である。
選ばれた block が分かっているときに、それぞれが何を返し leaf の列をどう書き換えるかをまとめる。
以降の証明は `locate` の結果だけを調べ、操作の本体は展開しない。
-/

namespace Plin

variable {D : Type} [Arith D]

/-! ## 予測の範囲 -/

namespace LeafNode

theorem predictBlock_lt (key : Key) (slope intercept : D) {bn : Nat} (h3 : 3 ≤ bn)
    (h32 : bn < 2 ^ 32) : predictBlock key slope intercept bn < bn := by
  unfold predictBlock
  rw [sub32_eq h3 h32, sub32_eq (by omega) h32]
  dsimp only
  split
  · omega
  · split <;> omega

theorem slotBlock_le (block : Nat) : slotBlock block ≤ block := by
  unfold slotBlock leafSlotsPerBlock
  omega

/-- 折り返しは `2 ^ 28` 番目の block から始まる。 -/
theorem slotBlock_eq_iff {block : Nat} (h : block < 2 ^ 32) :
    slotBlock block = block ↔ block < 2 ^ 28 := by
  unfold slotBlock leafSlotsPerBlock
  omega

/-- 鍵の読み書きに使う block の番号。 -/
def home (l : LeafNode D) (k : Key) : Nat := slotBlock (l.predict k)


/-! ## `locate` の後 -/

variable {leaves : List (LeafNode D)} {this leaf : LeafId} {l : LeafNode D} {k : Key}
  {p : Payload} {accelerator acc : Option (InnerSlot D)} {block : Nat} {b : Block}

theorem find_of_locate
    (hl : locate leaves k (leaves.length + 1) this accelerator = some (.at leaf acc block))
    (hleaf : leaves[leaf]? = some l) (hb : l.blocks[slotBlock block]? = some b) :
    find leaves this k p accelerator = some (b.find k p) := by
  unfold find
  rw [hl]
  simp only [Option.bind_eq_bind, Option.bind_some, hleaf, hb]

omit [Arith D] in
/-- 書き込みの後始末は block の列と数え上げしか変えない。 -/
theorem finishUpsert_leaf (l : LeafNode D) (this : LeafId) (acc : Option (InnerSlot D))
    (flag : Nat) (blocks : List Block) :
    ∃ n, (l.finishUpsert this acc flag blocks).2.1 =
      { l with blocks := blocks, overflowNumber := n } := by
  unfold finishUpsert
  by_cases h4 : flag = 4
  · by_cases hn : l.numberToSplit < l.overflowNumber + 1
    · exact ⟨l.overflowNumber + 1, by simp only [h4, if_true, hn]⟩
    · exact ⟨l.overflowNumber + 1, by simp only [h4, if_true, hn, if_false]⟩
  · exact ⟨l.overflowNumber, by simp only [h4, if_false]⟩

theorem upsert_of_locate
    (hl : locate leaves k (leaves.length + 1) this accelerator = some (.at leaf acc block))
    (hleaf : leaves[leaf]? = some l) (hw : l.checkWriteLock acc = true)
    (hb : l.blocks[slotBlock block]? = some b) :
    upsert leaves this k p accelerator =
      let r := l.finishUpsert leaf acc (b.upsert k p).1
        (l.blocks.set (slotBlock block) (b.upsert k p).2)
      some ⟨if l.isAbandoned then 7 else r.1, leaves.set leaf r.2.1, r.2.2⟩ := by
  unfold upsert
  rw [hl]
  simp only [Option.bind_eq_bind, Option.bind_some, hleaf, hw, Bool.not_true, Bool.false_eq_true,
    if_false, hb]

theorem remove_of_locate
    (hl : locate leaves k (leaves.length + 1) this accelerator = some (.at leaf acc block))
    (hleaf : leaves[leaf]? = some l) (hw : l.checkWriteLock acc = true)
    (hb : l.blocks[slotBlock block]? = some b) :
    ∃ n, remove leaves this k accelerator = some ((b.remove k).1, leaves.set leaf
      { l with blocks := l.blocks.set (slotBlock block) (b.remove k).2, overflowNumber := n }) := by
  unfold remove
  rw [hl]
  simp only [Option.bind_eq_bind, Option.bind_some, hleaf, hw, Bool.not_true, Bool.false_eq_true,
    if_false, hb]
  split <;> exact ⟨_, rfl⟩

end LeafNode

end Plin
