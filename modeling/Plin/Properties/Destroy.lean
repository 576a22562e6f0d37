import Plin.Index.Destroy
import Plin.Infra.Forest
import Plin.Properties.SplitIndex

/-!
# node の解放

`bulk_load` から要求を続けて着いたどの状態でも、**作られた inner node は、根から届くか、解放されたかの
ちょうど一方である**（`NodeMemory.Accounted`）。`rebuild_inner_nodes` は古い根の下を漏らさず、二度消すことも、
消した node を読むこともなく解放し、新しい根からはどの古い node にも届かない。

`destroy` は header の `level` で、探索は slot の `type` で子が inner node かを決める。段を積む loop が
どちらも同じ loop の回数から定めるので、二つは食い違わない（`Leveled`）。
-/

namespace Plin

open Infra

variable {D : Type} [Arith D]

/-! ## inner node の子 -/

namespace InnerNode

/-- 探索の読む子。 -/
def typedKids (inners : List (InnerNode D)) (i : InnerId) : Option (List InnerId) :=
  (inners[i]?).map fun nd => (nd.entries.filter InnerSlot.type).map InnerSlot.ptr

/-- `destroy` の読む子。 -/
def leveledKids (inners : List (InnerNode D)) (levels : List Nat) (i : InnerId) :
    Option (List InnerId) := do
  let nd ← inners[i]?
  let level ← levels[i]?
  if 1 < level then some (nd.entries.map InnerSlot.ptr) else some []

theorem foldlM_range_getElem? {α β : Type} (l : List α) (g : β → α → Option β) :
    ∀ b, (List.range l.length).foldlM (fun b j => (l[j]?).bind (g b)) b = l.foldlM g b := by
  induction l with
  | nil => exact fun _ => rfl
  | cons a l ih =>
    intro b
    simp only [List.length_cons, List.range_succ_eq_map, List.foldlM_cons, List.foldlM_map,
      List.getElem?_cons_zero, List.getElem?_cons_succ, Option.bind_some, ih]

omit [Arith D] in
/-- 空きの slot を飛ばして子を順に訪ねる。 -/
theorem foldlM_occupied (g : List InnerId → InnerId → Option (List InnerId)) :
    ∀ (slots : List (InnerSlot D)) (freed : List InnerId),
      slots.foldlM (fun freed s => if s.isFree then some freed else g freed s.ptr) freed =
        ((occupied slots).map InnerSlot.ptr).foldlM g freed
  | [], _ => rfl
  | s :: slots, freed => by
    rw [List.foldlM_cons]
    cases hs : s.isFree with
    | true =>
      rw [occupied_cons_of_free hs, if_pos rfl]
      exact foldlM_occupied g slots freed
    | false =>
      rw [occupied_cons_of_not_free hs, List.map_cons, List.foldlM_cons]
      simp only [Bool.false_eq_true, if_false, foldlM_occupied g slots]

variable {inners : List (InnerNode D)} {levels : List Nat}

omit [Arith D] in
/-- `destroy` は、子を先に、自分を後に解放する。 -/
theorem destroy_eq (hfull : ∀ nd ∈ inners, nd.Full) :
    ∀ (fuel : Nat) (i : InnerId) (freed : List InnerId),
      destroy inners levels fuel i freed = freeTree (leveledKids inners levels) fuel i freed
  | 0, _, _ => rfl
  | fuel + 1, i, freed => by
    rw [destroy, freeTree, leveledKids]
    split
    · rfl
    · cases hnd : inners[i]? with
      | none => rfl
      | some nd =>
        cases hlevel : levels[i]? with
        | none => rfl
        | some level =>
          simp only [Option.bind_eq_bind, Option.bind_some]
          by_cases hl : 1 < level
          · have hlen := hfull nd (List.mem_of_getElem? hnd)
            have hslots := foldlM_occupied (fun freed c => destroy inners levels fuel c freed)
              nd.slots freed
            rw [if_pos hl, if_pos hl, ← hlen, foldlM_range_getElem?, hslots]
            simp only [destroy_eq hfull fuel, Option.bind_some]
            rfl
          · rw [if_neg hl, if_neg hl]
            rfl

end InnerNode

/-! ## 段 -/

/-- 段の node の header の `level`。一番下の段だけが 1 以下である。 -/
structure Leveled (levels : List Nat) (t : Tier D) (rest : List (Tier D)) : Prop where
  bottom : ∀ i ∈ t.map Prod.fst, ∃ level, levels[i]? = some level ∧ ¬ 1 < level
  upper : ∀ i ∈ rest.flatten.map Prod.fst, ∃ level, levels[i]? = some level ∧ 1 < level

omit [Arith D] in
/-- 後ろに足しても、段の node の `level` は変わらない。 -/
theorem Leveled.append {levels : List Nat} {t : Tier D} {rest : List (Tier D)}
    (h : Leveled levels t rest) (more : List Nat) : Leveled (levels ++ more) t rest := by
  have hkeep : ∀ {i level : Nat}, levels[i]? = some level →
      (levels ++ more)[i]? = some level := by
    intro i level hlevel
    rw [List.getElem?_append_left (List.getElem?_eq_some_iff.mp hlevel).1, hlevel]
  refine ⟨fun i hi => ?_, fun i hi => ?_⟩
  · obtain ⟨level, hlevel, hle⟩ := h.bottom i hi
    exact ⟨level, hkeep hlevel, hle⟩
  · obtain ⟨level, hlevel, hlt⟩ := h.upper i hi
    exact ⟨level, hkeep hlevel, hlt⟩

namespace Stacked

variable {inners : List (InnerNode D)} {t : Tier D} {rest tiers : List (Tier D)}
  {bottom top : List (InnerSlot D)} {levels : List Nat}

theorem nodeOk : ∀ {tiers : List (Tier D)} {bottom : List (InnerSlot D)},
    Stacked inners tiers bottom top → ∀ x ∈ tiers.flatten, Tier.NodeOk inners x
  | [], _, _, x, hx => by simp at hx
  | t :: rest, _, ⟨_, hok, hrest⟩, x, hx => by
    rw [List.flatten_cons] at hx
    rcases List.mem_append.mp hx with hx | hx
    · exact hok x hx
    · exact nodeOk hrest x hx

/-- 二段目から上の node の子は inner node である。 -/
theorem type_entry : ∀ {tiers : List (Tier D)} {bottom : List (InnerSlot D)},
    Stacked inners tiers bottom top → (∀ a ∈ bottom, a.type = true) →
      ∀ x ∈ tiers.flatten, ∀ e ∈ x.2.entries, e.type = true
  | [], _, _, _, x, hx, _, _ => by simp at hx
  | t :: rest, _, ⟨hent, _, hrest⟩, hb, x, hx, e, he => by
    rw [List.flatten_cons] at hx
    rcases List.mem_append.mp hx with hx | hx
    · refine hb e ?_
      rw [← hent]
      exact List.mem_flatMap.mpr ⟨x, hx, he⟩
    · refine type_entry hrest (fun a ha => ?_) x hx e he
      obtain ⟨y, _, rfl⟩ := List.mem_map.mp ha
      rfl

theorem type_upper (h : Stacked inners (t :: rest) bottom top) :
    ∀ x ∈ rest.flatten, ∀ e ∈ x.2.entries, e.type = true := by
  refine type_entry h.2.2 fun a ha => ?_
  obtain ⟨y, _, rfl⟩ := List.mem_map.mp ha
  rfl

/-- 上の段では、node の子を左から並べると一つ下の段になる。 -/
theorem layered_upper {children : InnerId → Option (List InnerId)} :
    ∀ {tiers : List (Tier D)} {bottom : List (InnerSlot D)}, Stacked inners tiers bottom top →
      (∀ x ∈ tiers.flatten, children x.1 = some (x.2.entries.map InnerSlot.ptr)) →
      Layered children (bottom.map InnerSlot.ptr) (tiers.map (List.map Prod.fst))
        (top.map InnerSlot.ptr)
  | [], _, h, _ => congrArg (List.map InnerSlot.ptr) h
  | t :: rest, _, ⟨hent, _, hrest⟩, hkids => by
    rw [List.flatten_cons, List.forall_mem_append] at hkids
    refine ⟨⟨fun i => (children i).getD [], fun i hi => ?_, ?_⟩, ?_⟩
    · obtain ⟨x, hx, rfl⟩ := List.mem_map.mp hi
      simp only [hkids.1 x hx, Option.getD_some]
    · rw [← hent, Tier.entries, List.flatMap_map, List.map_flatMap]
      refine List.flatMap_congr fun x hx => ?_
      simp only [hkids.1 x hx, Option.getD_some]
    · have hup := layered_upper hrest hkids.2
      rwa [Tier.accelerators, List.map_map] at hup

/-- 一番下の段の子を読まなければ、段は森をなす。 -/
theorem layered (h : Stacked inners (t :: rest) bottom top)
    {children : InnerId → Option (List InnerId)} (hbottom : ∀ x ∈ t, children x.1 = some [])
    (hupper : ∀ x ∈ rest.flatten, children x.1 = some (x.2.entries.map InnerSlot.ptr)) :
    Layered children [] ((t :: rest).map (List.map Prod.fst)) (top.map InnerSlot.ptr) := by
  refine ⟨⟨fun _ => [], fun i hi => ?_, List.flatMap_eq_nil_iff.mpr fun _ _ => rfl⟩, ?_⟩
  · obtain ⟨x, hx, rfl⟩ := List.mem_map.mp hi
    exact hbottom x hx
  · have hup := h.2.2.layered_upper hupper
    rwa [Tier.accelerators, List.map_map] at hup

theorem layered_leveled (h : Stacked inners (t :: rest) bottom top)
    (hl : Leveled levels t rest) : Layered (InnerNode.leveledKids inners levels) []
      ((t :: rest).map (List.map Prod.fst)) (top.map InnerSlot.ptr) := by
  refine h.layered (fun x hx => ?_) fun x hx => ?_
  · obtain ⟨level, hlevel, hle⟩ := hl.bottom x.1 (List.mem_map_of_mem hx)
    rw [InnerNode.leveledKids, (h.2.1 x hx).stored, hlevel]
    exact if_neg hle
  · obtain ⟨level, hlevel, hlt⟩ := hl.upper x.1 (List.mem_map_of_mem hx)
    rw [InnerNode.leveledKids, (h.2.2.nodeOk x hx).stored, hlevel]
    exact if_pos hlt

theorem layered_typed (h : Stacked inners (t :: rest) bottom top)
    (hb : ∀ e ∈ bottom, e.type = false) : Layered (InnerNode.typedKids inners) []
      ((t :: rest).map (List.map Prod.fst)) (top.map InnerSlot.ptr) := by
  refine h.layered (fun x hx => ?_) fun x hx => ?_
  · have hnone : x.2.entries.filter InnerSlot.type = [] := by
      refine List.filter_eq_nil_iff.mpr fun e he => ?_
      rw [hb e (h.1 ▸ List.mem_flatMap.mpr ⟨x, hx, he⟩)]
      exact Bool.false_ne_true
    rw [InnerNode.typedKids, (h.2.1 x hx).stored, Option.map_some, hnone]
    rfl
  · have hall : x.2.entries.filter InnerSlot.type = x.2.entries :=
      List.filter_eq_self.mpr (h.type_upper x hx)
    rw [InnerNode.typedKids, (h.2.2.nodeOk x hx).stored, Option.map_some, hall]

omit [Arith D] in
theorem flatten_ids (tiers : List (Tier D)) :
    (tiers.map (List.map Prod.fst)).flatten = tiers.flatten.map Prod.fst :=
  List.map_flatten.symm

/-- **根の下を消すと、どの段の node もちょうど一度ずつ消える。** -/
theorem destroyRoots (h : Stacked inners (t :: rest) bottom top) (hl : Leveled levels t rest)
    (hfull : ∀ nd ∈ inners, nd.Full) (hdepth : (t :: rest).length ≤ inners.length)
    {freed : List InnerId} (hnd : (freed ++ (t :: rest).flatten.map Prod.fst).Nodup) :
    ∃ l, InnerNode.destroyRoots inners levels top freed = some (freed ++ l) ∧
      l.Perm ((t :: rest).flatten.map Prod.fst) := by
  rw [← flatten_ids] at hnd ⊢
  rw [← List.length_map (List.map Prod.fst)] at hdepth
  obtain ⟨l, hfree, hperm⟩ := (h.layered_leveled hl).free (Nat.le_succ_of_le hdepth) hnd
  refine ⟨l, ?_, hperm⟩
  rw [freeAll, List.foldlM_map] at hfree
  unfold InnerNode.destroyRoots
  simp only [InnerNode.destroy_eq hfull]
  exact hfree

/-- 上の段と根が同じなら、一番下の段の番地も同じである。 -/
theorem ids_eq {inners' : List (InnerNode D)} {t' : Tier D} {bottom' : List (InnerSlot D)}
    (h : Stacked inners (t :: rest) bottom top) (h' : Stacked inners' (t' :: rest) bottom' top) :
    t'.map Prod.fst = t.map Prod.fst := by
  have hacc : t'.accelerators = t.accelerators := by
    cases rest with
    | nil => exact h'.2.2.trans h.2.2.symm
    | cons u rest => exact h'.2.2.1.symm.trans h.2.2.1
  have hptr := congrArg (List.map InnerSlot.ptr) hacc
  rwa [Tier.accelerators, Tier.accelerators, List.map_map, List.map_map] at hptr

end Stacked

/-! ## 段を積む loop -/

section Build

/-- node の子が inner node であるのは、`level` が 1 より大きいときである。 -/
def Suits (nd : InnerNode D) (level : Nat) : Prop :=
  ∀ e ∈ nd.entries, e.type = decide (1 < level)

/-- 一段の構築。どの node の子も、渡された子の `type` を持つ。 -/
theorem buildInners_types {bnf : Nat → Nat} {b : Bool} {segs : List (Segment D)} :
    ∀ {data : List (Key × InnerSlot D)} {startPos : Nat} {heap : List (InnerNode D)}
      {r : List (InnerNode D) × List (InnerSlot D) × List (Param D)},
      buildInners bnf segs data startPos heap = .ok r → (∀ x ∈ data, x.2.type = b) →
      ∃ nodes, r.1 = heap ++ nodes ∧ nodes.length = r.2.2.length ∧
        (∀ nd ∈ nodes, ∀ e ∈ nd.entries, e.type = b) ∧ ∀ a ∈ r.2.1, a.type = true := by
  induction segs with
  | nil =>
    intro data startPos heap r h _
    obtain rfl := Except.ok.inj h
    exact ⟨[], (List.append_nil heap).symm, rfl, by simp, by simp⟩
  | cons seg segs ih =>
    intro data startPos heap r h hdata
    rw [buildInners] at h
    dsimp only at h
    split at h
    · cases h
    · next nd hnew =>
      cases hrec : buildInners bnf segs (data.drop seg.number) (startPos + seg.number)
          (heap ++ [nd]) with
      | error e =>
        rw [hrec] at h
        cases h
      | ok r' =>
        rw [hrec] at h
        obtain rfl := Except.ok.inj h
        obtain ⟨nodes, hheap, hlen, htypes, hacc⟩ :=
          ih hrec fun x hx => hdata x (List.mem_of_mem_drop hx)
        refine ⟨nd :: nodes, ?_, ?_, ?_, ?_⟩
        · rw [List.append_cons]
          exact hheap
        · exact congrArg (· + 1) hlen
        · refine List.forall_mem_cons.mpr ⟨fun e he => ?_, htypes⟩
          obtain ⟨x, hx, rfl⟩ := InnerNode.mem_entries_new hnew he
          exact hdata x (List.mem_of_mem_take hx)
        · exact List.forall_mem_cons.mpr ⟨rfl, hacc⟩

omit [Arith D] in
theorem length_headerLevels : ∀ (level : Nat) (rows : List (List (Param D))),
    (headerLevels level rows).length = (rows.map List.length).sum
  | _, [] => rfl
  | level, row :: rows => by
    rw [headerLevels, List.length_append, List.length_replicate, length_headerLevels, List.map_cons,
      List.sum_cons]

omit [Arith D] in
theorem forall₂_replicate {level : Nat} :
    ∀ {nodes : List (InnerNode D)}, (∀ nd ∈ nodes, Suits nd level) →
      List.Forall₂ Suits nodes (List.replicate nodes.length level)
  | [], _ => .nil
  | nd :: nodes, h => by
    rw [List.forall_mem_cons] at h
    exact .cons h.1 (forall₂_replicate h.2)

/-- **段を積む loop の作る node では、slot の `type` と header の `level` が食い違わない。** -/
theorem buildLevels_types {f : Fitter D} {bnf : Nat → Nat} :
    ∀ {fuel : Nat} {segments : List (Segment D)} {firstKeys : List Key}
      {slots : List (InnerSlot D)} {heap : List (InnerNode D)} {params : List (List (Param D))}
      {b : Built D}, buildLevels f bnf fuel segments segments.length firstKeys slots heap params =
        .ok b → (∀ e ∈ slots, e.type = decide (1 < params.length + 1)) →
      ∃ rows nodes, b.parameter = params ++ rows ∧ b.inners = heap ++ nodes ∧
        List.Forall₂ Suits nodes (headerLevels (params.length + 1) rows) := by
  intro fuel
  induction fuel with
  | zero =>
    intro segments firstKeys slots heap params b h
    cases h
  | succ fuel ih =>
    intro segments firstKeys slots heap params b h htype
    rw [buildLevels_succ] at h
    split at h
    · cases h
    · next r hr =>
      obtain ⟨nodes, hheap, hlen, hnodes, hacc⟩ := buildInners_types hr fun x hx =>
        htype x.2 (List.of_mem_zip hx).2
      have hlevel : List.Forall₂ Suits nodes
          (List.replicate r.2.2.length (params.length + 1)) := hlen ▸ forall₂_replicate hnodes
      dsimp only at h
      split at h
      · obtain ⟨rows, more, hrows, hmore, hsuits⟩ := ih h fun e he => by
          rw [hacc e he, List.length_append, List.length_singleton]
          exact (decide_eq_true (by omega)).symm
        refine ⟨r.2.2 :: rows, nodes ++ more, ?_, ?_, ?_⟩
        · rw [hrows, List.append_assoc]
          rfl
        · rw [hmore, hheap, List.append_assoc]
        · rw [List.length_append, List.length_singleton] at hsuits
          exact List.rel_append hlevel hsuits
      · obtain rfl := Except.ok.inj h
        refine ⟨[r.2.2], nodes, rfl, hheap, ?_⟩
        rw [headerLevels, headerLevels, List.append_nil]
        exact hlevel

/-- 段を積んで heap に足された node。 -/
structure Raised (heap : List (InnerNode D)) (b : Built D) (t : Tier D) (rest : List (Tier D)) :
    Prop where
  ids : ((t :: rest).flatten.map Prod.fst).Perm
    (List.range' heap.length (b.inners.length - heap.length))
  grown : heap <+: b.inners
  levels : heap.length + (headerLevels 1 b.parameter).length = b.inners.length
  leveled : ∀ levels : List Nat, levels.length = heap.length →
    Leveled (levels ++ headerLevels 1 b.parameter) t rest

theorem BuiltOn.raised {heap : List (InnerNode D)} {slots : List (InnerSlot D)} {b : Built D}
    {t : Tier D} {rest : List (Tier D)} {nodes : List (InnerNode D)}
    (h : BuiltOn heap slots b (t :: rest)) (hslots : ∀ e ∈ slots, e.type = false)
    (hinners : b.inners = heap ++ nodes)
    (hsuits : List.Forall₂ Suits nodes (headerLevels 1 b.parameter))
    (hrows : b.parameter.map List.length = (t :: rest).map List.length) : Raised heap b t rest := by
  have hlen := hsuits.length_eq
  have hsize : b.inners.length = heap.length + nodes.length := by
    rw [hinners, List.length_append]
  have hcount : ((t :: rest).flatten.map Prod.fst).length = nodes.length := by
    rw [List.length_map, List.length_flatten, ← hrows, hlen, length_headerLevels]
  have hok := h.stacked.nodeOk
  -- node は heap の後ろに在り、そこの `level` は子の `type` を言い当てる
  have hfind : ∀ levels : List Nat, levels.length = heap.length → ∀ x ∈ (t :: rest).flatten,
      ∃ level e, (levels ++ headerLevels 1 b.parameter)[x.1]? = some level ∧ e ∈ x.2.entries ∧
        e.type = decide (1 < level) := by
    intro levels hlevels x hx
    have hfresh := h.fresh x hx
    have hstored := (hok x hx).stored
    rw [hinners, List.getElem?_append_right hfresh] at hstored
    obtain ⟨hlt, hnode⟩ := List.getElem?_eq_some_iff.mp hstored
    obtain ⟨e, he, -⟩ := Option.map_eq_some_iff.mp (hok x hx).head
    have hsuit := hsuits.get hlt (hlen ▸ hlt)
    refine ⟨_, e, ?_, List.mem_of_mem_head? he, hsuit e ?_⟩
    · rw [List.getElem?_append_right (hlevels ▸ hfresh), hlevels]
      exact List.getElem?_eq_getElem (hlen ▸ hlt)
    · rw [List.get_eq_getElem, hnode]
      exact List.mem_of_mem_head? he
  refine ⟨?_, h.grown, by omega, fun levels hlevels => ⟨fun i hi => ?_, fun i hi => ?_⟩⟩
  · refine List.Subperm.perm_of_length_le (List.subperm_of_subset h.nodup fun i hi => ?_) ?_
    · obtain ⟨x, hx, rfl⟩ := List.mem_map.mp hi
      have hlt := (List.getElem?_eq_some_iff.mp (hok x hx).stored).1
      have hfresh := h.fresh x hx
      exact List.mem_range'_1.mpr ⟨hfresh, by omega⟩
    · rw [List.length_range', hcount]
      omega
  · obtain ⟨x, hx, rfl⟩ := List.mem_map.mp hi
    obtain ⟨level, e, hlevel, he, htype⟩ := hfind levels hlevels x (by simp [hx])
    refine ⟨level, hlevel, of_decide_eq_false (htype.symm.trans (hslots e ?_))⟩
    rw [← h.stacked.1]
    exact List.mem_flatMap.mpr ⟨x, hx, he⟩
  · obtain ⟨x, hx, rfl⟩ := List.mem_map.mp hi
    obtain ⟨level, e, hlevel, he, htype⟩ :=
      hfind levels hlevels x (List.mem_append_right t hx)
    exact ⟨level, hlevel, of_decide_eq_true (htype.symm.trans (h.stacked.type_upper x hx e he))⟩

/-- 段を積む loop の結果。 -/
theorem buildLevels_raised {f : Fitter D} {bnf : Nat → Nat} {fuel : Nat} {lo hi : Key}
    {segments : List (Segment D)} {slots : List (InnerSlot D)} {heap : List (InnerNode D)}
    {b : Built D}
    (h : buildLevels f bnf fuel segments segments.length (slots.map InnerSlot.minKey) slots heap
      [] = .ok b)
    (hs : SlotsOk lo hi slots) (hfree : ∀ s ∈ slots, s.minKey < freeFlag)
    (hreg : ∀ nd ∈ b.inners, nd.Tame (Set.Icc lo hi)) (hslots : ∀ e ∈ slots, e.type = false) :
    ∃ t rest, BuiltOn heap slots b (t :: rest) ∧ Raised heap b t rest := by
  obtain ⟨t, rest, hon, hkeys⟩ := buildLevels_rows h hs hfree fun nd hnd =>
    (hreg nd hnd).anti Set.inter_subset_left
  obtain ⟨rows, nodes, hrows, hinners, hsuits⟩ := buildLevels_types h hslots
  rw [List.nil_append] at hrows
  rw [← hrows] at hsuits
  have hlengths := congrArg (List.map List.length) hkeys
  refine ⟨t, rest, hon, hon.raised hslots hinners hsuits ?_⟩
  simpa [Tier.models, Tier.accelerators, Function.comp_def] using hlengths

end Build

namespace PlinIndex

/-! ## 索引の一歩 -/

section Step

variable {s s' : PlinIndex D} {f : Fitter D} {c : List (Link D)} {t : Tier D}
  {rest : List (Tier D)} {slots : List (InnerSlot D)} {z : Link D} {acc : Option SlotAddr}

theorem Wired.retier (h : s.Wired c t rest slots) {t' : Tier D} {rest' : List (Tier D)}
    (hst : Stacked s.inners (t' :: rest') slots s.roots)
    (hids : ((t' :: rest').flatten.map Prod.fst).Nodup) : s.Wired c t' rest' slots :=
  ⟨⟨h.rooted.bound, hst, hids, h.rooted.slotsOk, h.rooted.low, h.rooted.leafSlots⟩, h.chain,
    h.first, h.table, h.full, h.known, h.number⟩

/-- 一番下の段の slot だけが書き換わった。 -/
def Patched (s s' : PlinIndex D) (rest : List (Tier D)) : Prop :=
  ∃ c t slots, s'.Wired c t rest slots ∧ s'.roots = s.roots ∧
    s'.inners.length = s.inners.length

/-- 分割は、親 slot を通しても根を書き換えない。 -/
theorem roots_afterSplit {s₂ : PlinIndex D} {heap : List (LeafNode D)} {l r : Link D}
    (hent : s.Entered t slots z acc)
    (hplace : placeNodes ((s.onSlot lockSlot acc).withLeaves heap)
      ((splitChain f s.leaves.length l z r).map Link.info) acc = some s₂) :
    (afterSplit f s s₂ l z r acc).roots = s.roots := by
  obtain ⟨inners, n, m, rfl⟩ := placeNodes_frame hplace
  cases acc with
  | none => rfl
  | some a =>
    obtain ⟨i, j, rfl, -, -⟩ := hent
    rfl

/-- 分割は、一番下の段の slot を書き換え、そのまま終わるか、段を作り直す。 -/
theorem Wired.split_patched (h : s.Wired c t rest slots) (hz : z ∈ c)
    (hent : s.Entered t slots z acc)
    (hmono : ∀ nd ∈ s.inners, nd.Nondecreasing s.minKey s.maxKey)
    (hheap : s'.leaves.length < 2 ^ 32) (hs : s.split f z.1 acc = .ok s') :
    s.Patched s' rest ∨ ∃ s₁, s.Patched s₁ rest ∧ s₁.rebuildInnerNodes f = .ok s' := by
  obtain ⟨A, B, rfl⟩ := List.append_of_mem hz
  by_cases hedge : A = [] ∨ B = []
  · rw [split_edge h.chain hedge] at hs
    obtain rfl := Except.ok.inj hs
    exact Or.inl ⟨_, t, slots, h, rfl, rfl⟩
  · rw [not_or] at hedge
    obtain ⟨r, B, rfl⟩ := List.exists_cons_of_ne_nil hedge.2
    obtain ⟨A, l, rfl⟩ : ∃ A' l, A = A' ++ [l] :=
      ⟨_, _, (List.dropLast_append_getLast hedge.1).symm⟩
    rw [← List.append_cons] at h hz
    obtain ⟨hne, hsmall, heap, s₂, hplace, hcases⟩ := split_middle h.chain hs
    have hsplit : Splitting f s A l z r B t rest slots := ⟨h, hne, hsmall⟩
    have hlength : (afterSplit f s s₂ l z r acc).leaves.length =
      s.leaves.length + (splitChain f s.leaves.length l z r).length := length_splitHeap ..
    -- 作り直しは leaf を動かさない
    have hheap' : s.leaves.length + (splitChain f s.leaves.length l z r).length < 2 ^ 32 := by
      rw [← hlength]
      rcases hcases with rfl | hrebuild
      · exact hheap
      · obtain ⟨_, _, _, rfl⟩ := rebuildInnerNodes_frame hrebuild
        exact hheap
    have hpatched : s.Patched (afterSplit f s s₂ l z r acc) rest := by
      have hroots := roots_afterSplit (f := f) hent hplace
      cases acc with
      | none =>
        obtain ⟨hwired, hsame, -⟩ := hsplit.orphan hent hplace
        exact ⟨_, t, slots, hwired, hroots, hsame.length⟩
      | some a =>
        obtain ⟨t', slots', hwired, hsame, -⟩ := hsplit.child hmono hent hheap' hplace
        exact ⟨_, t', slots', hwired, hroots, hsame.length⟩
    rcases hcases with rfl | hrebuild
    · exact Or.inl hpatched
    · exact Or.inr ⟨_, hpatched, hrebuild⟩

theorem Wired.upsert_patched {key : Key} {payload : Payload} {fuel : Nat}
    (h : s.Wired c t rest slots) (hp : s.Plausible) (hp' : s'.Plausible) (hlo : s.minKey < key)
    (hhi : key < s.maxKey) (hs : s.upsert f fuel key payload = .ok s') :
    s.Patched s' rest ∨ ∃ s₁, s.Patched s₁ rest ∧ s₁.rebuildInnerNodes f = .ok s' := by
  rw [PlinIndex.upsert, if_pos ⟨hlo, hhi⟩] at hs
  obtain ⟨A, z, B, l, acc, hpred, hwrote, hent, -, hcases⟩ :=
    h.upsertInner_cases hp hlo.le hhi.le hs
  have hwired := h.wrote hhi.le hpred hwrote
  rcases hcases with ⟨-, rfl⟩ | ⟨-, hsplit⟩
  · exact Or.inl ⟨_, t, slots, hwired, rfl, rfl⟩
  · obtain ⟨b, hb⟩ := hwrote
    have hstep : (s.withLeaves (s.leaves.set z.1 l)).Patched s' rest ∨
        ∃ s₁, (s.withLeaves (s.leaves.set z.1 l)).Patched s₁ rest ∧
          s₁.rebuildInnerNodes f = .ok s' :=
      hwired.split_patched (z := (z.1, l)) (by simp) (hent.withLeaves hb.header _) hp.inners
        hp'.heap hsplit
    exact hstep

/-- 内側の鍵への要求は、一番下の段の slot を書き換え、そのまま終わるか、段を作り直す。 -/
theorem Wired.perform_patched {op : IndexOp} {fuel : Nat} (h : s.Wired c t rest slots)
    (hp : s.Plausible) (hp' : s'.Plausible) (hin : s.Interior op)
    (hs : perform f fuel s op = .ok s') :
    s.Patched s' rest ∨ ∃ s₁, s.Patched s₁ rest ∧ s₁.rebuildInnerNodes f = .ok s' := by
  cases op with
  | upsert key payload => exact h.upsert_patched hp hp' hin.1 hin.2 hs
  | remove key =>
    obtain ⟨c', hwired, -⟩ := h.remove hin.1 hin.2 hs
    obtain ⟨id, l, l', i, b, -, rfl, -⟩ := remove_inner hin.1 hin.2 hs
    exact Or.inl ⟨c', t, slots, hwired, rfl, rfl⟩

/-- 作り直した段と、その header の `level`。 -/
theorem Wired.rebuilt (h : s.Wired c t rest slots)
    (hmono : ∀ nd ∈ s'.inners, nd.Nondecreasing s'.minKey s'.maxKey)
    (hheap : s'.leaves.length < 2 ^ 32) (hs : s.rebuildInnerNodes f = .ok s') :
    ∃ t' rest' slots', s'.Wired c t' rest' slots' ∧
      Raised s.inners ⟨s'.inners, s'.roots, s'.parameter⟩ t' rest' := by
  have hnum := h.number
  obtain ⟨hleaves, hmin, hmax⟩ : s'.leaves = s.leaves ∧ s'.minKey = s.minKey ∧
      s'.maxKey = s.maxKey := by
    obtain ⟨_, _, _, rfl⟩ := rebuildInnerNodes_frame hs
    exact ⟨rfl, rfl, rfl⟩
  rw [hleaves] at hheap
  rw [hmin, hmax] at hmono
  obtain ⟨hle, -, hfull, t₀, rest₀, hroot⟩ :=
    rebuildInnerNodes_spec h.rooted h.chain h.first hnum.1 (by omega) h.full hmono hs
  have hwired : s'.Wired c t₀ rest₀ ((c.take s.leafNumber).map Link.info) := by
    obtain ⟨_, _, _, rfl⟩ := rebuildInnerNodes_frame hs
    refine ⟨hroot, h.chain, ?_, h.table, hfull, fun e he => Or.inl ?_, hnum⟩
    · rw [show s.leafNumber = s.leafNumber - 1 + 1 by omega]
      cases c <;> rfl
    · obtain ⟨x, hx, rfl⟩ := List.mem_map.mp he
      exact ⟨x, List.mem_of_mem_take hx, rfl⟩
  -- 作り直しが積む段は、連鎖の前から数えた leaf の親 slot の上に立つ
  have hbuilt : buildLevels f innerBlocksForRebuild (s.leafNumber + 1) []
      ([] : List (Segment D)).length
      (((c.take s.leafNumber).map Link.info).map InnerSlot.minKey)
      ((c.take s.leafNumber).map Link.info) s.inners [] =
        .ok ⟨s'.inners, s'.roots, s'.parameter⟩ := by
    obtain ⟨e, he, -⟩ := Option.map_eq_some_iff.mp h.rooted.low
    have hfirst : firstId c none = some e.ptr := by
      have hhead := h.first
      rw [he] at hhead
      cases c with
      | nil => cases hhead
      | cons x c =>
        obtain rfl : e = x.info := Option.some.inj hhead
        rfl
    have hwalk := @walkChain_eq D s.leaves s.leafNumber c none h.chain.stored h.chain.linked
    rw [hfirst, if_pos hle] at hwalk
    have htake : ∀ y ∈ c.take s.leafNumber, s.leaves[y.1]? = some y.2 :=
      fun y hy => h.chain.stored y (List.mem_of_mem_take hy)
    unfold PlinIndex.rebuildInnerNodes at hs
    rw [h.rooted.getLeftmostLeaf_eq he] at hs
    simp only [orFault, bind, Except.bind] at hs
    rw [hwalk] at hs
    simp only [mapM_getInfo htake] at hs
    split at hs
    · cases hs
    · next b hb =>
      obtain rfl := Except.ok.inj hs
      exact hb
  obtain ⟨t', rest', hon, hraised⟩ := buildLevels_raised hbuilt hroot.slotsOk
    (fun e he => lt_of_le_of_lt (hroot.slotsOk.within e he).2 hroot.bound)
    (hwired.tame (by rwa [hmin, hmax])) hroot.leafSlots
  exact ⟨t', rest', _, hwired.retier hon.stacked hon.nodup, hraised⟩

/-- `bulk_load` の直後の段と、その header の `level`。 -/
theorem Loaded.raised {data : List (Key × Payload)} (h : Loaded f data s) (hd : LoadData data)
    (hp : s.Plausible) : ∃ c t rest slots, s.Wired c t rest slots ∧
      Raised [] ⟨s.inners, s.roots, s.parameter⟩ t rest := by
  obtain ⟨t₀, rest₀, hwired⟩ := h.wired hd hp
  have hroot := hwired.rooted
  have hkeys : ((loadChain f data).map Link.info).map InnerSlot.minKey =
      (loadSegments f data).map (·.firstKey) := by
    rw [← (h.freshChain hd).firstKeys, List.map_map]
    rfl
  have hlevels := h.levels
  rw [← hkeys] at hlevels
  obtain ⟨t, rest, hon, hraised⟩ := buildLevels_raised hlevels hroot.slotsOk
    (fun e he => lt_of_le_of_lt (hroot.slotsOk.within e he).2 hroot.bound)
    (hwired.tame hp.inners) hroot.leafSlots
  exact ⟨_, t, rest, _, hwired.retier hon.stacked hon.nodup, hraised⟩

end Step

/-! ## 届く node -/

omit [Arith D] in
theorem holds_iff_reaches (s : PlinIndex D) (i : InnerId) : s.Holds i ↔
    Reaches (InnerNode.typedKids s.inners) (s.roots.map InnerSlot.ptr) i := by
  constructor
  · intro h
    induction h with
    | root ha => exact .root (List.mem_map_of_mem ha)
    | child _ hnd he hfree htype ih =>
      refine .child ih (congrArg (Option.map _) hnd) (List.mem_map_of_mem ?_)
      exact List.mem_filter.mpr ⟨InnerNode.mem_occupied.mpr ⟨he, hfree⟩, htype⟩
  · intro h
    induction h with
    | root hi =>
      obtain ⟨a, ha, rfl⟩ := List.mem_map.mp hi
      exact .root ha
    | child _ hcs hc ih =>
      obtain ⟨nd, hnd, rfl⟩ := Option.map_eq_some_iff.mp hcs
      obtain ⟨e, he, rfl⟩ := List.mem_map.mp hc
      obtain ⟨hocc, htype⟩ := List.mem_filter.mp he
      obtain ⟨hmem, hfree⟩ := InnerNode.mem_occupied.mp hocc
      exact .child ih hnd hmem hfree htype

/-- 根から届くのは、段の node である。 -/
theorem Wired.holds_iff {s : PlinIndex D} {c : List (Link D)} {t : Tier D} {rest : List (Tier D)}
    {slots : List (InnerSlot D)} (h : s.Wired c t rest slots) {i : InnerId} :
    s.Holds i ↔ i ∈ (t :: rest).flatten.map Prod.fst := by
  rw [holds_iff_reaches, ← Stacked.flatten_ids]
  exact (h.rooted.stacked.layered_typed h.rooted.leafSlots).reaches_iff

end PlinIndex

omit [Arith D] in
/-- 連鎖をたどれば、どの leaf もちょうど一度ずつ消える。 -/
theorem LeafNode.destroyChain_eq {leaves : List (LeafNode D)} :
    ∀ {fuel : Nat} {x : Link D} {c : List (Link D)} {p : Option LeafId} {freed : List LeafId},
      (∀ y ∈ x :: c, leaves[y.1]? = some y.2) →
      DoublyLinked LeafNode.prev LeafNode.next p (x :: c) none →
      (freed ++ (x :: c).map Prod.fst).Nodup → c.length < fuel →
      destroyChain leaves fuel x.1 freed = some (freed ++ (x :: c).map Prod.fst)
  | 0, _, _, _, _, _, _, _, hfuel => by omega
  | fuel + 1, x, c, _, freed, hst, ⟨_, hnext, hlink⟩, hnd, hfuel => by
    rw [List.forall_mem_cons] at hst
    have hout : x.1 ∉ freed := fun hmem =>
      (List.nodup_append.mp hnd).2.2 x.1 hmem x.1 (by simp) rfl
    rw [destroyChain, if_neg hout, hst.1]
    simp only [Option.bind_eq_bind, Option.bind_some, hnext]
    cases c with
    | nil => rfl
    | cons y c =>
      have hcut : freed ++ (x :: y :: c).map Prod.fst =
          freed ++ [x.1] ++ (y :: c).map Prod.fst := by
        rw [List.map_cons, List.append_cons]
      rw [hcut] at hnd ⊢
      exact destroyChain_eq hst.2 hlink hnd (Nat.lt_of_succ_lt_succ hfuel)

namespace NodeMemory

/-! ## 解放の記録 -/

/-- 要求を一つ実行し、起きた解放を済ませる。 -/
def perform (f : Fitter D) (fuel : Nat) (m : NodeMemory D) (op : IndexOp) :
    Except IndexFault (NodeMemory D) := do
  let s ← m.index.perform f fuel op
  orFault (m.advance s)

/-- `bulk_load` から要求を続けて着いた状態。`PlinIndex.Reached` に解放の記録を添えたものである。 -/
inductive Reached (f : Fitter D) (data : List (Key × Payload)) (ok : PlinIndex D → Prop)
    (allow : PlinIndex D → IndexOp → Prop) : List IndexOp → NodeMemory D → Prop
  | load {m : NodeMemory D} (h : bulkLoad f data = .ok m) (hok : ok m.index) :
      Reached f data ok allow [] m
  | step {ops : List IndexOp} {m m' : NodeMemory D} {fuel : Nat} {op : IndexOp}
      (h : Reached f data ok allow ops m) (hallow : allow m.index op)
      (hs : perform f fuel m op = .ok m') (hok : ok m'.index) :
      Reached f data ok allow (ops ++ [op]) m'

/-- 作られた inner node は、根から届くか、解放されたかのちょうど一方である。 -/
structure Accounted (m : NodeMemory D) : Prop where
  once : m.freed.Nodup
  live : ∀ i, m.index.Holds i → i ∉ m.freed
  all : ∀ i, i < m.index.inners.length ↔ m.index.Holds i ∨ i ∈ m.freed

/-- 解放した node と段の node を並べると、作られた node になる。 -/
structure Kept (m : NodeMemory D) (t : Tier D) (rest : List (Tier D)) : Prop where
  ids : (m.freed ++ (t :: rest).flatten.map Prod.fst).Perm (List.range m.index.inners.length)
  levels : m.levels.length = m.index.inners.length
  leveled : Leveled m.levels t rest

variable {f : Fitter D} {data : List (Key × Payload)} {m m' : NodeMemory D} {s s' : PlinIndex D}
  {c : List (Link D)} {t : Tier D} {rest : List (Tier D)} {slots : List (InnerSlot D)}

omit [Arith D] in
theorem Kept.nodup (h : m.Kept t rest) : (m.freed ++ (t :: rest).flatten.map Prod.fst).Nodup :=
  h.ids.nodup_iff.mpr List.nodup_range

theorem Kept.accounted (h : m.Kept t rest) (hw : m.index.Wired c t rest slots) : m.Accounted := by
  obtain ⟨hfreed, -, hdisjoint⟩ := List.nodup_append.mp h.nodup
  refine ⟨hfreed, fun i hi hmem => hdisjoint i hmem i (hw.holds_iff.mp hi) rfl, fun i => ?_⟩
  rw [← List.mem_range, ← h.ids.mem_iff, List.mem_append, hw.holds_iff, or_comm]

/-- 一番下の段の slot の書き換えは、どの node の `level` も変えない。 -/
theorem Kept.patched (h : m.Kept t rest) (hw : m.index.Wired c t rest slots)
    (hp : m.index.Patched s rest) :
    ∃ c' t' slots', s.Wired c' t' rest slots' ∧ Kept { m with index := s } t' rest := by
  obtain ⟨c', t', slots', hw', hroots, hlen⟩ := hp
  have hst := hw'.rooted.stacked
  rw [hroots] at hst
  have hids : t'.map Prod.fst = t.map Prod.fst := hw.rooted.stacked.ids_eq hst
  refine ⟨c', t', slots', hw', ?_, ?_, ?_, h.leveled.upper⟩
  · have hall := h.ids
    rw [List.flatten_cons, List.map_append, ← hids, ← List.map_append, ← hlen] at hall
    exact hall
  · exact h.levels.trans hlen.symm
  · rw [hids]
    exact h.leveled.bottom

/-- **作り直しは古い根の下を残らず解放し、新しい段を記録に加える。** -/
theorem Kept.rebuilt (h : m.Kept t rest) (hw : m.index.Wired c t rest slots)
    (hp : s.Plausible) (hs : m.index.rebuildInnerNodes f = .ok s) :
    ∃ freed t' rest' slots', s.Wired c t' rest' slots' ∧
      m.index.inners.length < s.inners.length ∧
      InnerNode.destroyRoots s.inners (m.levels ++ headerLevels 1 s.parameter) m.index.roots
        m.freed = some freed ∧
      Kept ⟨s, m.levels ++ headerLevels 1 s.parameter, freed⟩ t' rest' := by
  obtain ⟨t', rest', slots', hw', hr⟩ := hw.rebuilt hp.inners hp.heap hs
  have hgrown : m.index.inners <+: s.inners := hr.grown
  have hlevels : m.index.inners.length + (headerLevels 1 s.parameter).length = s.inners.length :=
    hr.levels
  have hnew : ((t' :: rest').flatten.map Prod.fst).Perm
      (List.range' m.index.inners.length (s.inners.length - m.index.inners.length)) := hr.ids
  -- 古い段は、伸びた heap でもそのまま読める
  have hold : Stacked s.inners (t :: rest) slots m.index.roots := by
    refine hw.rooted.stacked.frame fun u hu x hx => ?_
    have hstored := Stacked.mem_inners hw.rooted.stacked u hu x hx
    obtain ⟨tail, htail⟩ := hgrown
    rw [← htail, List.getElem?_append_left (List.getElem?_eq_some_iff.mp hstored).1]
  have hdepth : (t :: rest).length ≤ s.inners.length :=
    hw.rooted.height_le.trans hgrown.length_le
  obtain ⟨l, hfree, hperm⟩ :=
    hold.destroyRoots (h.leveled.append (headerLevels 1 s.parameter)) hw'.full hdepth h.nodup
  have hne : (t' :: rest').flatten.map Prod.fst ≠ [] := by
    intro hnil
    obtain ⟨e, he, -⟩ := Option.map_eq_some_iff.mp hw'.rooted.low
    have hmem := List.mem_of_mem_head? he
    rw [← hw'.rooted.stacked.1] at hmem
    obtain ⟨x, hx, -⟩ := List.mem_flatMap.mp hmem
    have hid : x.1 ∈ (t' :: rest').flatten.map Prod.fst :=
      List.mem_map_of_mem (by simp [hx])
    rw [hnil] at hid
    cases hid
  have hlt : m.index.inners.length < s.inners.length := by
    have hpos := List.length_pos_iff.mpr hne
    rw [hnew.length_eq, List.length_range'] at hpos
    omega
  refine ⟨m.freed ++ l, t', rest', slots', hw', hlt, hfree, ?_, ?_, hr.leveled _ h.levels⟩
  · have hboth := ((hperm.append_left m.freed).trans h.ids).append hnew
    rw [List.range_eq_range'] at hboth ⊢
    have hjoin := List.range'_append_1 (s := 0) (m := m.index.inners.length)
      (n := s.inners.length - m.index.inners.length)
    rw [Nat.zero_add] at hjoin
    rw [hjoin, Nat.add_sub_cancel' hlt.le] at hboth
    exact hboth
  · rw [List.length_append, h.levels]
    exact hlevels

/-- 内側の鍵への要求は、解放を誤りなく済ませる。 -/
theorem Kept.advance {op : IndexOp} {fuel : Nat} (h : m.Kept t rest)
    (hw : m.index.Wired c t rest slots) (hp : m.index.Plausible) (hp' : s.Plausible)
    (hin : m.index.Interior op) (hs : m.index.perform f fuel op = .ok s) :
    ∃ m' c' t' rest' slots', m.advance s = some m' ∧ m'.index = s ∧
      s.Wired c' t' rest' slots' ∧ m'.Kept t' rest' := by
  rcases hw.perform_patched hp hp' hin hs with hpatched | ⟨s₁, hpatched, hrebuild⟩
  · obtain ⟨c', t', slots', hw', hk'⟩ := h.patched hw hpatched
    obtain ⟨-, -, -, -, -, hlen⟩ := hpatched
    refine ⟨_, c', t', rest, slots', ?_, rfl, hw', hk'⟩
    rw [NodeMemory.advance, hlen, if_neg (lt_irrefl _)]
  · obtain ⟨c₁, t₁, slots₁, hw₁, hk₁⟩ := h.patched hw hpatched
    obtain ⟨-, -, -, -, hroots, hlen⟩ := hpatched
    obtain ⟨freed, t', rest', slots', hw', hlt, hfree, hk'⟩ := hk₁.rebuilt hw₁ hp' hrebuild
    have hlt' : m.index.inners.length < s.inners.length := hlen ▸ hlt
    have hfree' : InnerNode.destroyRoots s.inners (m.levels ++ headerLevels 1 s.parameter)
        m.index.roots m.freed = some freed := hroots ▸ hfree
    refine ⟨_, c₁, t', rest', slots', ?_, rfl, hw', hk'⟩
    rw [NodeMemory.advance, if_pos hlt']
    simp only [Option.bind_eq_bind]
    rw [hfree']
    rfl

/-! ## 実行 -/

theorem perform_eq {op : IndexOp} {fuel : Nat} (hs : m.index.perform f fuel op = .ok s) :
    m.perform f fuel op = orFault (m.advance s) := by
  unfold perform
  rw [hs]
  rfl

theorem exists_advance {op : IndexOp} {fuel : Nat} (h : m.perform f fuel op = .ok m') :
    ∃ s, m.index.perform f fuel op = .ok s ∧ m.advance s = some m' := by
  obtain ⟨s, hs, h⟩ := PlinIndex.bind_eq_ok h
  refine ⟨s, hs, ?_⟩
  cases hadvance : m.advance s with
  | none =>
    rw [hadvance] at h
    cases h
  | some m'' =>
    rw [hadvance] at h
    exact congrArg some (Except.ok.inj h)

omit [Arith D] in
theorem index_advance (h : m.advance s = some m') : m'.index = s := by
  unfold advance at h
  split at h
  · obtain ⟨freed, -, h⟩ := Option.bind_eq_some_iff.mp h
    exact (congrArg index (Option.some.inj h)).symm
  · exact (congrArg index (Option.some.inj h)).symm

/-- **着いた状態では、段の node と解放した node が作られた node を尽くす。** -/
theorem Reached.kept {ops : List IndexOp} (hd : PlinIndex.LoadData data)
    (h : Reached f data PlinIndex.Plausible PlinIndex.Interior ops m) :
    m.index.Plausible ∧ ∃ c t rest slots, m.index.Wired c t rest slots ∧ m.Kept t rest := by
  induction h with
  | load h hok =>
    unfold bulkLoad at h
    obtain ⟨s, hs, h⟩ := PlinIndex.bind_eq_ok h
    obtain rfl := Except.ok.inj h
    obtain ⟨c, t, rest, slots, hw, hr⟩ := (PlinIndex.bulkLoad_loaded hs).raised hd hok
    refine ⟨hok, c, t, rest, slots, hw, ?_, ?_, hr.leveled [] rfl⟩
    · rw [List.nil_append, List.range_eq_range']
      exact hr.ids
    · rw [← hr.levels, List.length_nil, Nat.zero_add]
  | step _ hin hs hok ih =>
    obtain ⟨hp, c, t, rest, slots, hw, hk⟩ := ih
    obtain ⟨s, hs, hadvance⟩ := exists_advance hs
    rw [index_advance hadvance] at hok
    obtain ⟨m'', c', t', rest', slots', hadvance', hm'', hw', hk'⟩ := hk.advance hw hp hok hin hs
    obtain rfl := Option.some.inj (hadvance.symm.trans hadvance')
    subst hm''
    exact ⟨hok, c', t', rest', slots', hw', hk'⟩

/-- `destroy` は、連鎖の leaf と、まだ解放していない inner node を一度ずつ解放する。 -/
theorem Kept.destroy (h : m.Kept t rest) (hw : m.index.Wired c t rest slots) :
    ∃ freed, m.destroy = some (m.index.localTable.map TRecord.addr, freed) ∧
      freed.Perm (List.range m.index.inners.length) := by
  have hmatches := hw.tableMatches
  obtain ⟨x, c', rfl⟩ := List.exists_cons_of_ne_nil hmatches.nonempty
  have hlen := Chain.length_le hw.chain.stored hw.chain.nodup
  have hchain : LeafNode.destroyChain m.index.leaves (m.index.leaves.length + 1) x.1 [] =
      some ([] ++ (x :: c').map Prod.fst) := by
    refine LeafNode.destroyChain_eq hw.chain.stored hw.chain.linked ?_ ?_
    · rw [List.nil_append]
      exact hw.chain.nodup
    · rw [List.length_cons] at hlen
      omega
  obtain ⟨l, hfree, hperm⟩ :=
    hw.rooted.stacked.destroyRoots h.leveled hw.full hw.rooted.height_le h.nodup
  refine ⟨m.freed ++ l, ?_, (hperm.append_left m.freed).trans h.ids⟩
  rw [NodeMemory.destroy, hmatches.first, hmatches.table]
  simp only [List.head?_cons, Option.map_some, Option.bind_eq_bind, Option.bind_some]
  rw [hchain, hfree, List.map_map]
  rfl

/--
**inner node は漏れもせず、二度消えもしない。** 内側の鍵への要求をどう続けても、作られた inner node は根から
届くか、解放されたかのちょうど一方である。次の要求が成功すれば、その中の解放も、消した node を読まず、二度
消さずに済む。`destroy` は `local_table` の leaf を順に、残る inner node を一度ずつ解放し、inner node は
残らない。
-/
theorem innerNodes_accounted {D : Type} [Arith D] {f : Fitter D} {data : List (Key × Payload)}
    (hd : PlinIndex.LoadData data) {ops : List IndexOp} {m : NodeMemory D}
    (h : Reached f data PlinIndex.Plausible PlinIndex.Interior ops m) :
    m.Accounted ∧
      (∀ fuel op s, m.index.Interior op → m.index.perform f fuel op = .ok s → s.Plausible →
        ∃ m', m.perform f fuel op = .ok m' ∧ m'.index = s) ∧
      ∃ freed, m.destroy = some (m.index.localTable.map TRecord.addr, freed) ∧
        freed.Perm (List.range m.index.inners.length) := by
  obtain ⟨hp, c, t, rest, slots, hw, hk⟩ := h.kept hd
  refine ⟨hk.accounted hw, fun fuel op s hin hs hp' => ?_, hk.destroy hw⟩
  obtain ⟨m', _, _, _, _, hadvance, hm', -, -⟩ := hk.advance hw hp hp' hin hs
  exact ⟨m', (perform_eq hs).trans (congrArg orFault hadvance), hm'⟩

/-- 真ん中の leaf が分割された後に `destroy` する。 -/
theorem innerNodes_accounted_insert :
    ∃ (s s' : PlinIndex ℚ) (m m' : NodeMemory ℚ), PlinIndex.SplitRun s s' ∧
      bulkLoad exactFitter PlinIndex.lostData = .ok m ∧
      m.perform exactFitter 1 (.upsert PlinIndex.lateKey 7) = .ok m' ∧ m'.index = s' ∧
      m'.Accounted ∧ ∃ freed, m'.destroy = some (s'.localTable.map TRecord.addr, freed) ∧
        freed.Perm (List.range s'.inners.length) := by
  obtain ⟨s, s', hrun⟩ := PlinIndex.exists_splitRun
  have hd := PlinIndex.loadData_lostData
  have hok := hrun.regular.toPlausible
  have hok' := hrun.regular'.toPlausible
  have hload : bulkLoad exactFitter PlinIndex.lostData =
      .ok ⟨s, headerLevels 1 s.parameter, []⟩ := by
    rw [bulkLoad, hrun.load]
    rfl
  have hreach : Reached exactFitter _ PlinIndex.Plausible PlinIndex.Interior []
      ⟨s, headerLevels 1 s.parameter, []⟩ := .load hload hok
  obtain ⟨m', hm', rfl⟩ :=
    (innerNodes_accounted hd hreach).2.1 1 _ s' hrun.interior hrun.upsert hok'
  obtain ⟨haccounted, -, hdestroy⟩ :=
    innerNodes_accounted hd (.step hreach hrun.interior hm' hok')
  exact ⟨s, m'.index, _, m', hrun, hload, hm', rfl, haccounted, hdestroy⟩

end NodeMemory

end Plin
