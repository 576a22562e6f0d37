import Mathlib.Data.List.Perm.Basic

/-!
# 森の解放

根から子をたどって、子を先に、自分を後に解放する手続き（`freeTree`）である。解放した node を読むことと、
同じ node を二度解放することは失敗にする。

段に分かれた森（`Layered`）では、**根を残らず解放すれば、どの段の node もちょうど一度ずつ解放される**
（`Layered.free`）。根から届く node は、どれかの段の node である（`Layered.reaches_iff`）。
-/

namespace Plin.Infra

variable {ι : Type*} {children : ι → Option (List ι)}

/-! ## 解放 -/

section Free

variable [DecidableEq ι]

/-- `i` の下を解放する。`freed` は既に解放した node であり、`fuel` は深さの上限である。 -/
def freeTree (children : ι → Option (List ι)) : Nat → ι → List ι → Option (List ι)
  | 0, _, _ => none
  | fuel + 1, i, freed => do
    if i ∈ freed then none
    else
      let cs ← children i
      let freed ← cs.foldlM (fun freed c => freeTree children fuel c freed) freed
      if i ∈ freed then none else some (freed ++ [i])

/-- 列の node を順に解放する。 -/
def freeAll (children : ι → Option (List ι)) (fuel : Nat) (is freed : List ι) : Option (List ι) :=
  is.foldlM (fun freed i => freeTree children fuel i freed) freed

/-- `is` の解放は、まだ解放していない `l` をちょうど一度ずつ解放する。 -/
def Frees (children : ι → Option (List ι)) (fuel : Nat) (is l : List ι) : Prop :=
  ∀ freed, (freed ++ l).Nodup → freeAll children fuel is freed = some (freed ++ l)

theorem Frees.nil (fuel : Nat) : Frees children fuel [] [] := by
  intro freed _
  rw [List.append_nil]
  rfl

theorem Frees.append {fuel : Nat} {is js l m : List ι} (h : Frees children fuel is l)
    (h' : Frees children fuel js m) : Frees children fuel (is ++ js) (l ++ m) := by
  intro freed hnd
  rw [← List.append_assoc] at hnd ⊢
  rw [freeAll, List.foldlM_append]
  have hl : freeAll children fuel is freed = some (freed ++ l) := h _ (List.nodup_append.mp hnd).1
  unfold freeAll at hl
  rw [hl]
  exact h' _ hnd

/-- どの node の下も解放できれば、列の全体も解放できる。 -/
theorem Frees.flatMap {fuel : Nat} {sub : ι → List ι} :
    ∀ {is : List ι}, (∀ i ∈ is, Frees children fuel [i] (sub i)) →
      Frees children fuel is (is.flatMap sub)
  | [], _ => .nil fuel
  | i :: is, h => by
    rw [List.forall_mem_cons] at h
    exact h.1.append (Frees.flatMap h.2)

/-- 子を解放してから自分を解放する。 -/
theorem Frees.node {fuel : Nat} {i : ι} {cs l : List ι} (hcs : children i = some cs)
    (h : Frees children fuel cs l) : Frees children (fuel + 1) [i] (l ++ [i]) := by
  intro freed hnd
  rw [← List.append_assoc] at hnd ⊢
  obtain ⟨hl, -, hi⟩ := List.nodup_append.mp hnd
  have hout : i ∉ freed ++ l := fun hmem => hi i hmem i (by simp) rfl
  have hold : i ∉ freed := fun hmem => hout (List.mem_append_left l hmem)
  have hcalls : cs.foldlM (fun freed c => freeTree children fuel c freed) freed =
      some (freed ++ l) := h freed hl
  have htree : freeTree children (fuel + 1) i freed = some (freed ++ l ++ [i]) := by
    rw [freeTree, if_neg hold, hcs]
    simp only [Option.bind_eq_bind, Option.bind_some]
    rw [hcalls, Option.bind_some, if_neg hout]
  rw [freeAll, List.foldlM_cons, htree]
  rfl

end Free

/-! ## 段 -/

/--
段を下から積んだ森。`below` は一番下の段の子の列、`top` は一番上の段の列である。どの段の node の子も、
左から並べれば一つ下の段になる。
-/
def Layered (children : ι → Option (List ι)) : List ι → List (List ι) → List ι → Prop
  | below, [], top => below = top
  | below, layer :: rest, top =>
    (∃ kids, (∀ i ∈ layer, children i = some (kids i)) ∧ layer.flatMap kids = below) ∧
      Layered children layer rest top

namespace Layered

variable {layers : List (List ι)} {below top : List ι}

section Free

variable [DecidableEq ι]

/-- 一つ下の段の解放から、この段の解放を作る。 -/
theorem free_layer {fuel : Nat} {layer : List ι} {kids : ι → List ι} {sub : ι → List ι}
    (hkids : ∀ i ∈ layer, children i = some (kids i))
    (hsub : ∀ i ∈ layer.flatMap kids, Frees children fuel [i] (sub i)) :
    ∃ sub' : ι → List ι, (∀ i ∈ layer, Frees children (fuel + 1) [i] (sub' i)) ∧
      (layer.flatMap sub').Perm ((layer.flatMap kids).flatMap sub ++ layer) := by
  refine ⟨fun i => (kids i).flatMap sub ++ [i], fun i hi => ?_, ?_⟩
  · exact .node (hkids i hi) (.flatMap fun j hj => hsub j (List.mem_flatMap.mpr ⟨i, hi, hj⟩))
  · rw [List.flatMap_assoc]
    have hperm := List.flatMap_append_perm layer (fun i => (kids i).flatMap sub) fun i => [i]
    rw [List.flatMap_singleton'] at hperm
    exact hperm.symm

/-- 段を上へたどりながら、下から解放できる node を増やす。 -/
theorem free_from : ∀ {layers : List (List ι)} {below : List ι} {fuel : Nat} {sub : ι → List ι}
    {done : List ι}, Layered children below layers top →
      (∀ i ∈ below, Frees children fuel [i] (sub i)) → (below.flatMap sub).Perm done →
      ∃ l, Frees children (fuel + layers.length) top l ∧ l.Perm (done ++ layers.flatten)
  | [], below, fuel, sub, done, h, hsub, hdone => by
    obtain rfl : below = top := h
    refine ⟨below.flatMap sub, .flatMap hsub, ?_⟩
    rw [List.flatten_nil, List.append_nil]
    exact hdone
  | layer :: rest, below, fuel, sub, done, ⟨⟨kids, hkids, hbelow⟩, hrest⟩, hsub, hdone => by
    subst hbelow
    obtain ⟨sub', hsub', hperm⟩ := free_layer hkids hsub
    obtain ⟨l, hl, hall⟩ := free_from hrest hsub' (hperm.trans (hdone.append_right layer))
    refine ⟨l, ?_, ?_⟩
    · rw [List.length_cons, show fuel + (rest.length + 1) = fuel + 1 + rest.length by omega]
      exact hl
    · rw [List.flatten_cons, ← List.append_assoc]
      exact hall

/-- **一番上の段を解放すれば、どの段の node もちょうど一度ずつ解放される。** -/
theorem free (h : Layered children [] layers top) {fuel : Nat} (hfuel : layers.length ≤ fuel)
    {freed : List ι} (hnd : (freed ++ layers.flatten).Nodup) :
    ∃ l, freeAll children fuel top freed = some (freed ++ l) ∧ l.Perm layers.flatten := by
  obtain ⟨n, rfl⟩ := Nat.exists_eq_add_of_le' hfuel
  have hnone : ∀ i ∈ ([] : List ι), Frees children n [i] ((fun _ => []) i) := by simp
  obtain ⟨l, hl, hperm⟩ := free_from h hnone (.refl _)
  rw [List.flatMap_nil, List.nil_append] at hperm
  exact ⟨l, hl freed ((hperm.append_left freed).nodup_iff.mpr hnd), hperm⟩

end Free

end Layered

/-! ## 届く node -/

/-- `top` から子をたどって届く。 -/
inductive Reaches (children : ι → Option (List ι)) (top : List ι) : ι → Prop
  | root {i : ι} (h : i ∈ top) : Reaches children top i
  | child {i c : ι} {cs : List ι} (h : Reaches children top i) (hcs : children i = some cs)
      (hc : c ∈ cs) : Reaches children top c

namespace Layered

variable {layers : List (List ι)} {below top : List ι}

theorem reaches_below : ∀ {layers : List (List ι)} {below : List ι},
    Layered children below layers top → ∀ i ∈ below, Reaches children top i
  | [], below, h, i, hi => by
    obtain rfl : below = top := h
    exact .root hi
  | layer :: rest, below, ⟨⟨kids, hkids, hbelow⟩, hrest⟩, i, hi => by
    subst hbelow
    obtain ⟨j, hj, hi⟩ := List.mem_flatMap.mp hi
    exact .child (reaches_below hrest j hj) (hkids j hj) hi

theorem reaches_of_mem : ∀ {layers : List (List ι)} {below : List ι},
    Layered children below layers top → ∀ i ∈ layers.flatten, Reaches children top i
  | [], _, _, i, hi => by simp at hi
  | layer :: rest, _, ⟨_, hrest⟩, i, hi => by
    rw [List.flatten_cons] at hi
    rcases List.mem_append.mp hi with hi | hi
    · exact reaches_below hrest i hi
    · exact reaches_of_mem hrest i hi

/-- 段の node の子は、一つ下の段か、`below` に在る。 -/
theorem child_mem : ∀ {layers : List (List ι)} {below : List ι},
    Layered children below layers top → ∀ {i : ι} {cs : List ι}, i ∈ layers.flatten →
      children i = some cs → ∀ c ∈ cs, c ∈ below ++ layers.flatten
  | [], _, _, i, _, hi, _, _, _ => by simp at hi
  | layer :: rest, below, ⟨⟨kids, hkids, hbelow⟩, hrest⟩, i, cs, hi, hcs, c, hc => by
    rw [List.flatten_cons] at hi ⊢
    rcases List.mem_append.mp hi with hi | hi
    · obtain rfl := Option.some.inj (hcs.symm.trans (hkids i hi))
      rw [← hbelow]
      exact List.mem_append_left _ (List.mem_flatMap.mpr ⟨i, hi, hc⟩)
    · exact List.mem_append_right _ (child_mem hrest hi hcs c hc)

theorem top_subset : ∀ {layers : List (List ι)} {below : List ι},
    Layered children below layers top → ∀ i ∈ top, i ∈ below ++ layers.flatten
  | [], below, h, i, hi => by
    obtain rfl : below = top := h
    simpa using hi
  | layer :: rest, below, ⟨_, hrest⟩, i, hi => by
    rw [List.flatten_cons]
    exact List.mem_append_right _ (top_subset hrest i hi)

/-- **根から届くのは、どれかの段の node である。** -/
theorem reaches_iff (h : Layered children [] layers top) {i : ι} :
    Reaches children top i ↔ i ∈ layers.flatten := by
  refine ⟨fun hi => ?_, reaches_of_mem h i⟩
  induction hi with
  | root hi => simpa using h.top_subset _ hi
  | child _ hcs hc ih => simpa using h.child_mem ih hcs _ hc

end Layered

end Plin.Infra
