import Plin.Index.CacheModel
import Plin.Properties.Rounding

/-!
# `int64_t` への変換

`predict_block` は位置を block の幅で割って `int64_t` に変換する。収まらない値の変換の結果は言語が定めないので、
`find` の inner node での変換がどれも定まっていること（`Converts`）と、索引の model の性質とを結び付ける。

**変換がどの鍵でも定まっているのは、`parameter` のどの段でも、鍵以下の最後の区分の model の位置が収まるとき、また
そのときに限る**（`positionsFit_iff`）。定まっていれば、探索は段ごとに鍵の直前の node に入る
（`exists_entered`）。
-/

namespace Plin

open Infra

variable {D : Type} [Arith D]

/-! ## 入る node -/

namespace Stacked

variable {inners : List (InnerNode D)} {lo hi key : Key} {a e e' : InnerSlot D} {slot : Nat}

theorem Step.nextSlot (h : Step inners key a e slot) :
    InnerNode.nextSlot inners key a = some e := by
  obtain ⟨nd, hnd, hsearch, hslot⟩ := h
  unfold InnerNode.nextSlot
  simp only [Option.bind_eq_bind, hnd, Option.bind_some, hsearch, hslot]

/-- 通った親 slot だけ、入った node が並ぶ。 -/
theorem Descends.enteredSlots {path : List (InnerSlot D)} (h : Descends inners key a path e) :
    ∀ fuel, InnerNode.enteredSlots inners key (fuel + path.length) a =
      path ++ InnerNode.enteredSlots inners key fuel e := by
  induction h with
  | refl => exact fun _ => rfl
  | @step path e e' slot _ hs ht ih =>
    intro fuel
    rw [List.length_append, List.length_singleton,
      show fuel + (path.length + 1) = fuel + 1 + path.length by omega, ih (fuel + 1),
      InnerNode.enteredSlots, hs.nextSlot]
    simp [ht]

/-- 位置の収まる鍵では、その node での探索は正しい。 -/
theorem guided_of_fits [LawfulArith D] (hr : ∀ nd ∈ inners, nd.Rising)
    (hchild : ∀ nd ∈ inners, ∀ k ∈ nd.children, InnerNode.fits k nd.slope nd.intercept = true)
    (hfit : InnerNode.fits key e.slope e.intercept = true) :
    Guided (Set.Icc lo hi) inners key e := by
  intro nd hnd hm hp
  have hmem := List.mem_of_getElem? hnd
  have hnode := hr nd hmem
  rw [hm.slope, hm.intercept] at hfit
  refine ⟨?_, hnode.tame fun k hk => ?_⟩
  · refine lt_of_lt_of_le ?_ hp.length
    exact Nat.mul_lt_mul_of_pos_right
      (InnerNode.predictBlock_lt key nd.slope nd.intercept hnode.wide hnode.small) (by decide)
  · rcases Set.mem_insert_iff.mp hk with rfl | hk
    · exact hfit
    · exact hchild nd hmem k hk.2

end Stacked

namespace PlinIndex

namespace Rooted

variable {s : PlinIndex D} {t : Tier D} {rest : List (Tier D)} {slots : List (InnerSlot D)}
  {key : Key}

theorem enteredSlots_eq (h : s.Rooted t rest slots) {i : Nat} {a : InnerSlot D}
    (hsel : s.selectRoot key = some i) (hget : s.roots[i]? = some a) :
    s.enteredSlots key = InnerNode.enteredSlots s.inners key (s.inners.length + 1) a := by
  unfold enteredSlots
  rw [hsel, Option.bind_some, hget]
  exact if_pos (h.type_root (List.mem_of_getElem? hget))

/-- 段を下りる途中で通る親 slot は、入った node のものである。 -/
theorem mem_enteredSlots (h : s.Rooted t rest slots) {i : Nat} {a e : InnerSlot D}
    (hsel : s.selectRoot key = some i) (hget : s.roots[i]? = some a)
    {path : List (InnerSlot D)} (hlen : path.length < (t :: rest).length)
    (hdesc : Stacked.Descends s.inners key a path e) : e ∈ s.enteredSlots key := by
  have hheight := h.height_le
  rw [List.length_cons] at hlen
  obtain ⟨n, hn⟩ : ∃ n, s.inners.length + 1 = n + 1 + path.length :=
    ⟨s.inners.length - path.length, by omega⟩
  rw [h.enteredSlots_eq hsel hget, hn, hdesc.enteredSlots, InnerNode.enteredSlots]
  exact List.mem_append_right _ List.mem_cons_self

/-- 探索が正しければ、段ごとに鍵の直前の node に入る。 -/
theorem exists_entered (h : s.Rooted t rest slots) (hlo : s.minKey ≤ key) (hhi : key ≤ s.maxKey)
    (hg : s.Guides (t :: rest) key) :
    List.Forall₂ (Tier.Covers key) (t :: rest).reverse (s.enteredSlots key) := by
  obtain ⟨i, a, path, X, x, Y, P, e, Q, hsel, hget, hland, hdesc, hcovers, hx, hsearch, hslot⟩ :=
    h.exists_landing hlo hhi hg
  have hheight := h.height_le
  have hlen := length_path hcovers
  obtain ⟨n, hn⟩ : ∃ n, s.inners.length + 1 = n + 1 + path.length :=
    ⟨s.inners.length - path.length, by omega⟩
  have hnext : InnerNode.nextSlot s.inners key (x.2.accelerator x.1) = some e :=
    Stacked.Step.nextSlot ⟨x.2, hx, hsearch, hslot⟩
  have hleaf := h.leafSlots e hland.pred.mem
  rw [h.enteredSlots_eq hsel hget, hn, hdesc.enteredSlots, InnerNode.enteredSlots, hnext]
  dsimp only
  rw [hleaf, if_neg Bool.false_ne_true]
  exact hcovers

end Rooted

/-! ## 位置の収まる索引 -/

/--
予測する位置がどれも `int64_t` に収まる索引。

子の位置と、`parameter` の段ごとに、鍵以下の最後の区分の model がその鍵について予測する位置である。
-/
structure PositionsFit (s : PlinIndex D) : Prop where
  children : s.BuildFits
  keys : ∀ row ∈ s.parameter, ∀ key A p B, s.minKey ≤ key → key ≤ s.maxKey →
    IsPred Param.firstKey key row A p B → InnerNode.fits key p.slope p.intercept = true

/-- `parameter` の行と親 slot の model が同じなら、位置も同じである。 -/
theorem fits_of_model {p : Param D} {a : InnerSlot D} (h : p.model = a.model) (key : Key) :
    InnerNode.fits key p.slope p.intercept = InnerNode.fits key a.slope a.intercept := by
  have hslope : p.slope = a.slope := congrArg (·.2.1) h
  have hintercept : p.intercept = a.intercept := congrArg (·.2.2) h
  rw [hslope, hintercept]

namespace Loaded

variable [LawfulArith D] {f : Fitter D} {data : List (Key × Payload)} {s : PlinIndex D} {key : Key}

theorem tame (h : Loaded f data s) (hd : LoadData data) (hf : f.Rising)
    (hheap : s.leaves.length < 2 ^ 32) (hb : s.BuildFits) :
    ∀ nd ∈ s.inners, nd.Tame (Set.Icc s.minKey s.maxKey ∩ nd.children) := by
  intro nd hnd
  refine (h.rising hd hf hheap nd hnd).tame fun k hk => ?_
  obtain ⟨e, he, rfl⟩ := hk.2
  obtain ⟨hmem, hfree⟩ := InnerNode.mem_occupied.mp he
  exact hb nd hnd e hmem hfree

theorem guided (h : Loaded f data s) (hd : LoadData data) (hf : f.Rising)
    (hheap : s.leaves.length < 2 ^ 32) (hb : s.BuildFits) {e : InnerSlot D}
    (hfit : InnerNode.fits key e.slope e.intercept = true) :
    Stacked.Guided (Set.Icc s.minKey s.maxKey) s.inners key e := by
  refine Stacked.guided_of_fits (h.rising hd hf hheap) (fun nd hnd k hk => ?_) hfit
  obtain ⟨e, he, rfl⟩ := hk
  obtain ⟨hmem, hfree⟩ := InnerNode.mem_occupied.mp he
  exact hb nd hnd e hmem hfree

variable {t : Tier D} {rest : List (Tier D)} {slots : List (InnerSlot D)}

/-- 変換が定まっていれば、根からの探索は正しい。 -/
theorem guides (h : Loaded f data s) (hd : LoadData data) (hf : f.Rising)
    (hheap : s.leaves.length < 2 ^ 32) (hb : s.BuildFits) (hroot : s.Rooted t rest slots)
    (hlo : s.minKey ≤ key) (hhi : key ≤ s.maxKey) (hc : s.Converts key) :
    s.Guides (t :: rest) key := by
  intro i a hsel hget path e hlen hdesc _
  exact h.guided hd hf hheap hb (hc hlo hhi e (hroot.mem_enteredSlots hsel hget hlen hdesc))

/-- **変換が定まっているのは、段ごとに鍵の直前の node の位置が収まるとき、またそのときに限る。** -/
theorem converts_iff (h : Loaded f data s) (hd : LoadData data) (hf : f.Rising)
    (hheap : s.leaves.length < 2 ^ 32) (hb : s.BuildFits) (hroot : s.Rooted t rest slots)
    (hlo : s.minKey ≤ key) (hhi : key ≤ s.maxKey) :
    s.Converts key ↔
      ∀ u ∈ t :: rest, ∀ a, u.Covers key a → InnerNode.fits key a.slope a.intercept = true := by
  constructor
  · intro hc u hu a ha
    have hentered := hroot.exists_entered hlo hhi (h.guides hd hf hheap hb hroot hlo hhi hc)
    obtain ⟨a', hmem, ha'⟩ := exists_of_mem_forall₂ hentered (List.mem_reverse.mpr hu)
    obtain ⟨A, B, hp⟩ := ha
    obtain ⟨A', B', hp'⟩ := ha'
    obtain ⟨-, rfl, -⟩ := hp.unique hp'
    exact hc hlo hhi a hmem
  · intro hfit _ _ a ha
    have hguides : s.Guides (t :: rest) key := fun i b _ _ path e _ _ hcover => by
      obtain ⟨u, hu, hcover⟩ := hcover
      exact h.guided hd hf hheap hb (hfit u hu e hcover)
    obtain ⟨u, hu, hcover⟩ :=
      exists_of_mem_forall₂ (hroot.exists_entered hlo hhi hguides).flip ha
    exact hfit u (List.mem_reverse.mp hu) a hcover

/--
**`find` の変換がどの鍵でも定まっているのは、`parameter` のどの段でも、鍵以下の最後の区分の位置が収まるとき、また
そのときに限る。**
-/
theorem positionsFit_iff (h : Loaded f data s) (hd : LoadData data) (hf : f.Rising)
    (hheap : s.leaves.length < 2 ^ 32) :
    s.PositionsFit ↔ s.BuildFits ∧ ∀ key, s.Converts key := by
  by_cases hb : s.BuildFits
  · obtain ⟨t, rest, hshape, hrows⟩ := h.shape_rows hd (h.tame hd hf hheap hb)
    refine ⟨fun hp => ⟨hb, fun key hlo hhi => ?_⟩, fun hc => ⟨hb, ?_⟩⟩
    · refine (h.converts_iff hd hf hheap hb hshape.rooted hlo hhi).mpr ?_ hlo hhi
      rintro u hu a ⟨A, B, hpred⟩
      obtain ⟨row, hrow, hmodel⟩ := List.mem_map.mp (hrows ▸ List.mem_map_of_mem hu :
        u.models ∈ s.parameter.map (List.map Param.model))
      obtain ⟨A', p, B', hpred', hpa⟩ :=
        IsPred.transfer (κ := Prod.fst) (hmodel.symm : u.accelerators.map InnerSlot.model = _) hpred
      have hfit := hp.keys row hrow key A' p B' hlo hhi hpred'
      rwa [fits_of_model hpa] at hfit
    · intro row hrow key A p B hlo hhi hpred
      obtain ⟨u, hu, hmodel⟩ := List.mem_map.mp (hrows ▸ List.mem_map_of_mem hrow :
        row.map Param.model ∈ (t :: rest).map Tier.models)
      obtain ⟨A', a, B', hpred', hpa⟩ :=
        IsPred.transfer (κ := Prod.fst) (hmodel.symm : row.map Param.model = _) hpred
      have hfit := (h.converts_iff hd hf hheap hb hshape.rooted hlo hhi).mp (hc.2 key) u hu a
        ⟨A', B', hpred'⟩
      rwa [fits_of_model hpa.symm]
  · exact ⟨fun hp => absurd hp.children hb, fun hc => absurd hc.1 hb⟩

/-- **位置の収まる索引では、根からの探索はどの鍵でも正しい。** -/
theorem steered_of_fits (h : Loaded f data s) (hd : LoadData data) (hf : f.Rising)
    (hheap : s.leaves.length < 2 ^ 32) (hp : s.PositionsFit) :
    ∃ t rest, s.Steered (loadChain f data) t rest := by
  obtain ⟨t, rest, hshape⟩ := h.shape hd (h.tame hd hf hheap hp.children)
  refine ⟨t, rest, hshape, fun key hlo hhi => ?_⟩
  exact h.guides hd hf hheap hp.children hshape.rooted hlo hhi
    (((h.positionsFit_iff hd hf hheap).mp hp).2 key)

end Loaded

end PlinIndex

end Plin
