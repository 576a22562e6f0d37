import Plin.Properties.ReadYourWrites
import Plin.Properties.SplitReach

/-!
# 捨てられた leaf を指し続ける親 slot

leaf の `first_key` を消してから、その leaf を分割する要求が来ると、新しい leaf の鍵は親 slot の鍵と合わない。
新しい leaf は親 slot の隣に入り、親 slot は捨てられた leaf を指したまま残る。その間の鍵への `upsert` は
やり直し続け（`Wired.retries`）、`leaf_number` は連鎖より一つ多い。

三つの leaf の索引で、真ん中の leaf の `first_key` を消し、その leaf の一つの block に集まった鍵の手前に一つ書く。
-/

namespace Plin

open Infra

namespace PlinIndex

section Stale

variable {D : Type} [Arith D] {f : Fitter D} {s s' : PlinIndex D} {c A B : List (Link D)}
  {t : Tier D} {rest : List (Tier D)} {slots : List (InnerSlot D)} {l z r y : Link D}
  {w : LeafNode D} {key : Key}

/-- **連鎖に無い鍵の親 slot へ着く `upsert` は、いつまでもやり直す。** -/
theorem Wired.retries (h : s.Wired c t rest slots) (hr : s.InnersRegular) {e : InnerSlot D}
    (he : e ∈ slots) (hle : e.minKey ≤ key) (hhi : key < s.maxKey) (hlo : s.minKey < key)
    (hlost : ∀ x ∈ c, x.firstKey ≤ key → x.firstKey < e.minKey) (f : Fitter D) (fuel : Nat)
    (payload : Payload) : s.upsert f fuel key payload = .error .retryForever := by
  rw [PlinIndex.upsert, if_pos ⟨hlo, hhi⟩]
  obtain ⟨X, x, Y, P, e', Q, hland, hdesc, hread⟩ := h.rooted.descend_eq
    (fun nd hnd => (hr nd hnd).tame) hlo.le hhi.le
    fun i a _ _ => Stacked.pathReadable_of_regular hr hlo.le hhi.le a _
  have hpred := hland.pred
  rcases h.known e' hpred.mem with ⟨y, hy, rfl⟩ | ⟨m, hm, -, hlock⟩
  · -- 鍵以下の最後の slot が連鎖の leaf のものなら、`e` はその後ろにある
    have hlt : y.info.minKey < e.minKey := hlost y hy hpred.le
    have hsorted := h.rooted.slotsOk.sorted
    rw [hpred.eq] at he hsorted
    obtain ⟨-, htail, hhead⟩ := List.pairwise_append.mp hsorted
    rcases List.mem_append.mp he with he | he
    · exact absurd hlt (hhead e he y.info List.mem_cons_self).asymm
    · rcases List.mem_cons.mp he with rfl | he
      · exact absurd hlt (lt_irrefl _)
      · exact absurd hle (not_le.mpr (hpred.gt e he))
  · exact upsertInner_abandoned hdesc hread hm hlock fuel

/-- **残った親 slot の鍵から、新しい leaf の手前までの鍵への `upsert` は、いつまでもやり直す。** -/
theorem SplitOnce.retries (h : SplitOnce f s s' A l z r B w y)
    (hlost : ¬ w.Stores z.firstKey) (hwired : s.Wired (A ++ l :: z :: r :: B) t rest slots)
    (hr : s.InnersRegular) (hlo : s.minKey < key) (hhi : key < s.maxKey) (hle : z.firstKey ≤ key)
    (hgt : key < y.firstKey) (g : Fitter D) (fuel : Nat) (payload : Payload) :
    s'.upsert g fuel key payload = .error .retryForever := by
  obtain ⟨-, t', rest', slots', hwired', e, he, hkey⟩ := h.lost hlost
  have hr' : s'.InnersRegular := by
    intro nd hnd
    rw [h.bounds.min, h.bounds.max]
    exact h.inners.regular hr nd hnd
  refine hwired'.retries hr' he (hkey.trans_le hle) (h.bounds.max ▸ hhi) (h.bounds.min ▸ hlo) ?_ g
    fuel payload
  intro x hx hxk
  rw [hkey]
  have hold := (List.pairwise_append.mp hwired.chain.firstKey_sorted).2
  have hnew := hwired'.chain.firstKey_sorted
  rw [spliced, List.append_cons] at hx hnew
  rcases List.mem_append.mp hx with hx | hx
  · rcases List.mem_append.mp hx with hx | hx
    · exact hold.2 x hx z (by simp)
    · rw [List.mem_singleton.mp hx]
      exact (List.pairwise_cons.mp hold.1).1 z List.mem_cons_self
  · -- 新しい leaf から先は鍵より大きい
    have hle' : y.firstKey ≤ x.firstKey := by
      rcases List.mem_cons.mp hx with rfl | hx
      · exact le_rfl
      · exact ((List.pairwise_cons.mp (List.pairwise_append.mp hnew).2.1).1 x hx).le
    exact absurd hxk (not_le.mpr (lt_of_lt_of_le hgt hle'))

theorem SplitOnce.length_table (h : SplitOnce f s s' A l z r B w y)
    (hlost : ¬ w.Stores z.firstKey) : s'.localTable.length = A.length + B.length + 3 := by
  obtain ⟨-, t', rest', slots', hwired', -⟩ := h.lost hlost
  rw [hwired'.table, List.length_map, length_spliced, List.length_singleton]
  omega

end Stale

/-! ## `first_key` を消した後 -/

/-- `bulk_load` の後に持つ写像から、真ん中の leaf の `first_key` を消したもの。 -/
def emptiedMap : Key → Option Payload :=
  IndexOp.apply (fun k => lostData.lookup k) (.remove lostKey)

theorem emptiedMap_lostKey : emptiedMap lostKey = none := by
  rw [emptiedMap, IndexOp.apply, if_pos rfl]

theorem emptiedMap_of_ne {k : Key} (hk : k ≠ lostKey) : emptiedMap k = lostData.lookup k := by
  rw [emptiedMap, IndexOp.apply, if_neg hk]

/-- **真ん中の leaf の `first_key` は、索引の内側の鍵として消せる。** -/
theorem exists_emptied : ∃ (s₀ s : PlinIndex ℚ) (l r : Link ℚ) (w : LeafNode ℚ) (t : Tier ℚ)
    (rest : List (Tier ℚ)) (slots : List (InnerSlot ℚ)), bulkLoad exactFitter lostData = .ok s₀ ∧
      s₀.Regular ∧ s₀.Interior (.remove lostKey) ∧ s₀.remove lostKey = .ok s ∧
      Crowded s emptiedMap l r w t rest slots := by
  obtain ⟨s₀, l, r, t, rest, slots, hs₀, href, h⟩ := exists_crowded
  have hload := bulkLoad_loaded hs₀
  have hin : s₀.minKey < lostKey ∧ lostKey < s₀.maxKey := by
    rw [h.min, h.max]
    exact ⟨by decide +kernel, by decide +kernel⟩
  obtain ⟨A, z, B, w, b, hpred, hrew, ⟨this, acc, ret, hrem⟩, hs⟩ :=
    href.exists_remove h.regular hin.1 hin.2
  -- 消す鍵を受け持つのは真ん中の leaf である
  obtain ⟨rfl, rfl, rfl⟩ :=
    (h.isPred le_rfl (lostKey_lt_lateKey.trans (lateKey_lt_farKey le_rfl))).unique hpred
  refine ⟨s₀, _, l, r, w, t, rest, slots, hs₀, h.regular, hin, hs, {
    implements := href.removed hin.2 hpred hrew
    slots := h.slots.trans (@map_info_eq ℚ [l] [r] (1, midLeaf) w hrew.header).symm
    regular := h.regular.set (href.wired.chain.stored _ hpred.mem) hrew.header
    min := h.min
    max := h.max
    number := h.number
    heap := List.length_set.trans h.heap
    orphans := h.orphans
    header := hrew.header
    counted := LeafNode.remove_counted (counted_lostData hload) hrem w
      (List.mem_set (by rw [h.heap]; decide) _)
    upward := fun m hm => by
      rcases List.mem_or_eq_of_mem_set hm with hm | rfl
      · exact h.upward m hm
      · exact (h.upward midLeaf (List.mem_of_getElem?
          (href.wired.chain.stored (1, midLeaf) hpred.mem))).congr hrew.header.sameModel
    block := by
      intro u hu
      rw [hrew.blocks, List.getElem?_set_ne (by
        rw [predict_midLeaf]
        exact midHeader_predict.2.2.1)] at hu
      exact h.block u hu
    next := h.next
    keys := fun k hlo hhi => by
      rw [emptiedMap_of_ne hlo.ne']
      exact h.keys k hlo hhi }⟩

/-- **`first_key` を消してから分割すると、親 slot は捨てられた leaf を指したまま残る。** -/
theorem exists_lostSplit : ∃ s : PlinIndex ℚ,
    Reached exactFitter lostData Plausible Interior [.remove lostKey, .upsert lateKey 7] s ∧
      s.leafNumber = 4 ∧ s.localTable.length = 3 ∧
      ∀ fuel payload, s.upsert exactFitter fuel (farKey 0 514) payload = .error .retryForever := by
  obtain ⟨s₀, s₁, l, r, w, t, rest, slots, hs₀, hreg₀, hin₀, hs₁, h⟩ := exists_emptied
  obtain ⟨s₂, v, y, a, hs₂, hwrote, -, honce, hreg, -, hfirst⟩ := h.exists_split 7
  have hlost : ¬ v.Stores (Link.firstKey (1, w)) := by
    rw [h.firstKey, h.stores_iff hwrote, mem_keptKeys]
    rintro (⟨-, hk⟩ | heq | ⟨i, hi, heq⟩)
    · exact hk emptiedMap_lostKey
    · exact absurd heq lostKey_lt_lateKey.ne
    · exact absurd heq (lostKey_lt_lateKey.trans (lateKey_lt_farKey (by omega))).ne'
  rw [keptKeys, if_pos emptiedMap_lostKey] at hfirst
  have hfirst : lateKey = y.firstKey := Option.some.inj hfirst
  refine ⟨s₂, ?_, (honce.lost hlost).1.trans (by rw [h.number]), honce.length_table hlost,
    fun fuel payload => ?_⟩
  · have hs₁' : perform exactFitter 1 s₀ (.remove lostKey) = .ok s₁ := hs₁
    exact .step (.step (.load hs₀ hreg₀.toPlausible) hin₀ hs₁' h.regular.toPlausible) h.interior
      hs₂ hreg.toPlausible
  · refine honce.retries hlost h.implements.wired h.regular.inners ?_ ?_ ?_ ?_ exactFitter fuel
      payload
    · rw [h.min]
      decide +kernel
    · rw [h.max]
      decide +kernel
    · rw [h.firstKey]
      decide +kernel
    · rw [← hfirst]
      decide +kernel

/-- 捨てられた leaf は親 slot からたどれ、二つの鍵の間への `upsert` はやり直し続ける。 -/
theorem splitLeaf_detached_fails : ∃ s : PlinIndex ℚ, LoadData lostData ∧
    Reached exactFitter lostData Plausible Interior [.remove lostKey, .upsert lateKey 7] s ∧
      (∀ fuel payload,
        s.upsert exactFitter fuel (farKey 0 514) payload = .error .retryForever) ∧
      ¬ s.Detached := by
  obtain ⟨s, hreached, -, -, hretry⟩ := exists_lostSplit
  exact ⟨s, loadData_lostData, hreached, hretry,
    fun h => h.ends exactFitter 0 (farKey 0 514) 0 (hretry 1 0)⟩

/-- 連鎖の leaf と `local_table` の行は三つなのに、`leaf_number` は四である。 -/
theorem leafNumber_tallied_fails : ∃ s : PlinIndex ℚ, LoadData lostData ∧
    Reached exactFitter lostData Plausible Interior [.remove lostKey, .upsert lateKey 7] s ∧
      s.leafNumber = 4 ∧ s.localTable.length = 3 ∧ ¬ ∃ c, s.Tallied c := by
  obtain ⟨s, hreached, hnumber, htable, -⟩ := exists_lostSplit
  refine ⟨s, loadData_lostData, hreached, hnumber, htable, ?_⟩
  rintro ⟨c, hc⟩
  have hsame := hc.number.trans hc.table.symm
  rw [hnumber, htable] at hsame
  exact absurd hsame (by decide)

end PlinIndex

end Plin
