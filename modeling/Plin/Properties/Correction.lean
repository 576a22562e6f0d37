import Plin.Index.Correction
import Plin.Properties.BulkLoad

/-!
# `model_correction` の呼び出しと node

node の model は構築子が `model_correction` を呼んだ結果であり、構築が終われば呼び出しの列の結果がそのまま
node に並ぶ（`bulkLoad_model`）。

区分の列は鍵の列を切り分ける（`Cut`）。鍵が一つの区分の model は一点を置いた直後のものなので、呼び出しの性質は
鍵が二つ以上の区分と一つの区分に分けて調べればよい（`Cut.forall_calls`）。
-/

namespace Plin

open Infra

/-! ## 呼び出しの列と node -/

section Models

variable {D : Type} [Arith D]

/-- node の model は、構築子の呼び出しの結果である。 -/
def LeafNode.model (l : LeafNode D) : D × D := (l.slope, l.intercept)

def InnerNode.model (nd : InnerNode D) : D × D := (nd.slope, nd.intercept)

theorem freshLeaves_model (segs : List (Segment D)) :
    ∀ (data : List (Key × Payload)) (startPos : Nat) (prev : Option LeafId) (id : LeafId),
      (freshLeaves segs data startPos prev id).map LeafNode.model =
        (segmentCalls leafCall segs (data.map Prod.fst) startPos).map CorrectionCall.result := by
  induction segs with
  | nil => exact fun _ _ _ _ => rfl
  | cons seg segs ih =>
    intro data startPos prev id
    rw [freshLeaves, segmentCalls, List.map_cons, List.map_cons, ih, List.map_drop]
    congr 1
    rw [LeafNode.model, (LeafNode.new_header _ _ _ _ _ _).header, List.map_take]
    rfl

omit [Arith D] in
theorem linkLeaves_model (id : LeafId) (next : Option LeafId) (ls : List (LeafNode D)) :
    ((linkLeaves id next ls).map Prod.snd).map LeafNode.model = ls.map LeafNode.model := by
  refine List.ext_getElem? fun i => ?_
  rw [List.getElem?_map, List.getElem?_map, getElem?_linkLeaves, List.getElem?_map]
  cases ls[i]? <;> rfl

/-- `InnerNode` の構築子は、子を置くときに model を変えない。 -/
theorem InnerNode.new_model {bn startPos : Nat} {data : List (Key × InnerSlot D)}
    {slope intercept : D} {nd : InnerNode D} (h : new bn data startPos slope intercept = some nd) :
    nd.model = (initial bn (data.map Prod.fst) startPos slope intercept).model := by
  obtain ⟨nd', hplace, hcheck⟩ := Option.bind_eq_some_iff.mp h
  split at hcheck
  · obtain rfl := Option.some.inj hcheck
    rw [(placeAll_header hplace).1]
    rfl
  · cases hcheck

theorem buildInners_model {bnf : Nat → Nat} {segs : List (Segment D)} :
    ∀ {data : List (Key × InnerSlot D)} {startPos : Nat} {heap : List (InnerNode D)}
      {r : List (InnerNode D) × List (InnerSlot D) × List (Param D)},
      buildInners bnf segs data startPos heap = .ok r →
      r.1.map InnerNode.model = heap.map InnerNode.model ++
        (segmentCalls (innerCall bnf) segs (data.map Prod.fst) startPos).map
          CorrectionCall.result ∧ r.2.1.length = segs.length := by
  induction segs with
  | nil =>
    intro data startPos heap r h
    obtain rfl := Except.ok.inj h
    exact ⟨(List.append_nil _).symm, rfl⟩
  | cons seg segs ih =>
    intro data startPos heap r h
    rw [buildInners] at h
    dsimp only at h
    split at h
    · cases h
    · next nd hnew =>
      cases hrec : buildInners bnf segs (data.drop seg.number) (startPos + seg.number)
          (heap ++ [nd]) with
      | error e =>
        rw [hrec] at h
        cases h
      | ok r' =>
        rw [hrec] at h
        obtain rfl := Except.ok.inj h
        obtain ⟨hmodels, hlen⟩ := ih hrec
        refine ⟨?_, congrArg (· + 1) hlen⟩
        show r'.1.map InnerNode.model = _
        rw [hmodels, List.map_append, List.append_assoc, segmentCalls, List.map_drop,
          List.map_cons, List.map_cons, InnerNode.new_model hnew, List.map_take]
        rfl

theorem buildLevels_model {f : Fitter D} {bnf : Nat → Nat} :
    ∀ {fuel : Nat} {segments : List (Segment D)} {firstKeys : List Key}
      {slots : List (InnerSlot D)} {heap : List (InnerNode D)} {params : List (List (Param D))}
      {b : Built D}, buildLevels f bnf fuel segments segments.length firstKeys slots heap params =
        .ok b → slots.length = firstKeys.length →
      b.inners.map InnerNode.model = heap.map InnerNode.model ++
        (levelCalls f bnf fuel firstKeys).map CorrectionCall.result := by
  intro fuel
  induction fuel with
  | zero =>
    intro segments firstKeys slots heap params b h
    cases h
  | succ fuel ih =>
    intro segments firstKeys slots heap params b h hlen
    rw [buildLevels_succ] at h
    split at h
    · cases h
    · next r hr =>
      dsimp only at h
      obtain ⟨hmodels, hcount⟩ := buildInners_model hr
      rw [List.map_fst_zip (by rw [hlen])] at hmodels
      unfold levelCalls
      rw [levelKeys]
      split at h
      · next hroot =>
        have hrest := ih h (by rw [hcount, List.length_map])
        unfold levelCalls at hrest
        rw [hrest, hmodels, if_pos hroot, List.flatMap_cons, List.map_append, innerCalls,
          List.append_assoc]
      · next hroot =>
        obtain rfl := Except.ok.inj h
        rw [if_neg hroot, List.flatMap_cons, List.flatMap_nil, List.append_nil]
        exact hmodels

variable {f : Fitter D} {data : List (Key × Payload)} {s : PlinIndex D}

/-- **`bulk_load` の後の node の model は、呼び出しの結果を順に並べたものである。** -/
theorem bulkLoad_model (h : PlinIndex.bulkLoad f data = .ok s) :
    s.leaves.map LeafNode.model ++ s.inners.map InnerNode.model =
      (loadCalls f (data.map Prod.fst)).map CorrectionCall.result := by
  have hl := PlinIndex.bulkLoad_loaded h
  have hlevels := buildLevels_model hl.levels (by
    rw [List.length_map, List.length_map, PlinIndex.loadChain, length_linkLeaves,
      PlinIndex.length_loadLeaves])
  rw [loadCalls, List.map_append, hl.leaves, PlinIndex.loadChain, linkLeaves_model,
    PlinIndex.loadLeaves, freshLeaves_model]
  congr 1
  rw [leafFirstKeys, List.length_map]
  exact hlevels

end Models

/-! ## 区分の切り分け -/

section Cut

variable {D : Type} {f : Fitter D} {epsilon : Nat}

/--
区分の列が、狭義に増える鍵の列を切り分ける様子。鍵が一つの区分の model は、一点を置いた直後のものである。
-/
inductive Cut (f : Fitter D) (epsilon : Nat) : List (Segment D) → List Key → Nat → Prop where
  | nil {pos : Nat} : Cut f epsilon [] [] pos
  | cons {segs : List (Segment D)} {first : Key} {more rest : List Key} {state : f.State}
      {pos : Nat} (single : more = [] → state = f.start epsilon first pos)
      (tail : Cut f epsilon segs rest (pos + (more.length + 1))) :
      Cut f epsilon (f.segment state first (more.length + 1) :: segs) (first :: more ++ rest) pos

/-- 読みかけの部分 `first :: more` を添えた loop の不変条件。 -/
theorem cut_segmentLoop {rest : List Key} :
    ∀ {more : List Key} {start : Nat} {first p : Key} {state : f.State},
      (p :: rest).Pairwise (· < ·) → (more = [] → state = f.start epsilon first start) →
      Cut f epsilon (segmentLoop f epsilon rest (start + (more.length + 1)) start first p
        (more.length + 1) state) (first :: more ++ rest) start := by
  induction rest with
  | nil =>
    intro more start first p state _ hsingle
    have hnum : (if more.length + 1 = 1 then 1 else start + (more.length + 1) - start) =
        more.length + 1 := by split <;> omega
    rw [segmentLoop, hnum]
    exact .cons hsingle .nil
  | cons k rest ih =>
    intro more start first p state hsort hsingle
    obtain ⟨hp, hrest⟩ := List.pairwise_cons.mp hsort
    rw [segmentLoop, if_neg (hp k (by simp)).ne']
    split
    · next state' _ =>
      have hnext := @ih (more ++ [k]) start first k state' hrest (by simp)
      rw [List.length_append, List.length_singleton] at hnext
      rw [List.append_cons]
      exact hnext
    · have hnum : start + (more.length + 1) - start = more.length + 1 := by omega
      rw [hnum]
      exact .cons hsingle (@ih [] _ k k _ hrest fun _ => rfl)

theorem cut_makeSegmentation (f : Fitter D) (epsilon : Nat) {keys : List Key}
    (hsort : keys.Pairwise (· < ·)) : Cut f epsilon (makeSegmentation f epsilon keys) keys 0 := by
  cases keys with
  | nil => exact .nil
  | cons k rest => exact @cut_segmentLoop D f epsilon rest [] 0 k k _ hsort fun _ => rfl

variable {segs : List (Segment D)} {keys : List Key} {pos : Nat}
  {call : Segment D → List Key → Nat → CorrectionCall D} {P : CorrectionCall D → Prop}

/-- 鍵が二つ以上の区分の呼び出しが `P` を満たすなら、残るのは鍵が一つの区分だけである。 -/
theorem Cut.forall_calls (hcut : Cut f epsilon segs keys pos) (hsort : keys.Pairwise (· < ·))
    (hmany : ∀ state first more pos, more ≠ [] → (first :: more).Pairwise (· < ·) →
      P (call (f.segment state first (more.length + 1)) (first :: more) pos))
    (hone : (∀ seg ∈ segs, 2 ≤ seg.number) ∨
      ∀ first pos, P (call (f.segment (f.start epsilon first pos) first 1) [first] pos)) :
    ∀ c ∈ segmentCalls call segs keys pos, P c := by
  induction hcut with
  | nil => simp [segmentCalls]
  | @cons segs first more rest state pos single tail ih =>
    obtain ⟨hcur, hrest, -⟩ := List.pairwise_append.mp hsort
    rw [segmentCalls]
    have htake : (first :: more ++ rest).take (f.segment state first (more.length + 1)).number =
        first :: more := List.take_left' rfl
    have hdrop : (first :: more ++ rest).drop (f.segment state first (more.length + 1)).number =
        rest := List.drop_left' rfl
    rw [htake, hdrop]
    intro c hc
    rcases List.mem_cons.mp hc with rfl | hc
    · by_cases hmore : more = []
      · subst hmore
        rcases hone with hone | hone
        · exact absurd (hone _ List.mem_cons_self) (by simp [Fitter.segment])
        · rw [single rfl]
          exact hone first pos
      · exact hmany state first more pos hmore hcur
    · exact ih hrest (hone.imp (fun h seg hs => h seg (List.mem_cons_of_mem _ hs)) id) c hc

/-- 鍵が一つの区分の呼び出しが `P` を破るなら、`P` が成り立つのはそういう区分が無いときに限る。 -/
theorem Cut.two_le_of_calls (hcut : Cut f epsilon segs keys pos)
    (hone : ∀ first ∈ keys, ∀ pos,
      ¬ P (call (f.segment (f.start epsilon first pos) first 1) [first] pos))
    (h : ∀ c ∈ segmentCalls call segs keys pos, P c) : ∀ seg ∈ segs, 2 ≤ seg.number := by
  induction hcut with
  | nil => simp
  | @cons segs first more rest state pos single tail ih =>
    rw [segmentCalls] at h
    have htake : (first :: more ++ rest).take (f.segment state first (more.length + 1)).number =
        first :: more := List.take_left' rfl
    have hdrop : (first :: more ++ rest).drop (f.segment state first (more.length + 1)).number =
        rest := List.drop_left' rfl
    rw [htake, hdrop] at h
    intro seg hseg
    rcases List.mem_cons.mp hseg with rfl | hseg
    · by_contra hlt
      obtain rfl : more = [] := by
        refine List.eq_nil_of_length_eq_zero ?_
        have hnum : ¬ 2 ≤ more.length + 1 := hlt
        omega
      rw [single rfl] at h
      exact hone first (by simp) pos (h _ List.mem_cons_self)
    · refine ih (fun k hk => hone k ?_) (fun c hc => h c (List.mem_cons_of_mem _ hc)) seg hseg
      exact List.mem_append_right _ hk

/-- 呼び出しの `min_key` は、区分の `first_key` である。 -/
theorem Cut.minKeys (hcut : Cut f epsilon segs keys pos)
    (hcall : ∀ seg first more pos, (call seg (first :: more) pos).minKey = first) :
    (segmentCalls call segs keys pos).map CorrectionCall.minKey = segs.map (·.firstKey) := by
  induction hcut with
  | nil => rfl
  | @cons segs first more rest state pos single tail ih =>
    rw [segmentCalls, List.map_cons, List.map_cons,
      show (first :: more ++ rest).take (f.segment state first (more.length + 1)).number =
        first :: more from List.take_left' rfl,
      show (first :: more ++ rest).drop (f.segment state first (more.length + 1)).number =
        rest from List.drop_left' rfl, hcall]
    exact congrArg (first :: ·) ih

end Cut

/-! ## node に向かう鍵 -/

section Duties

variable {D : Type} {width : Nat} {last : Key}

theorem Key.le_pred {a k : Key} (h : a < k) : a ≤ k.pred := by
  have hle : a.ord ≤ k.ord - 1 := Int.le_sub_one_of_lt h
  have hlo := a.lower
  have hhi := k.upper
  rw [Key.le_def, Key.pred, Key.ord_ofOrd (by omega) (by omega)]
  exact hle

@[simp] theorem map_call_duties (calls : List (CorrectionCall D)) :
    (duties width last calls).map Duty.call = calls := by
  induction calls with
  | nil => rfl
  | cons c calls ih => rw [duties, List.map_cons, ih]

/-- node に向かう鍵の範囲は空でない。 -/
theorem minKey_le_last {calls : List (CorrectionCall D)}
    (hsort : (calls.map CorrectionCall.minKey).Pairwise (· < ·))
    (hlast : ∀ c ∈ calls, c.minKey ≤ last) :
    ∀ r ∈ duties width last calls, r.call.minKey ≤ r.last := by
  induction calls with
  | nil => simp [duties]
  | cons c calls ih =>
    rw [List.map_cons, List.pairwise_cons] at hsort
    intro r hr
    rw [duties] at hr
    rcases List.mem_cons.mp hr with rfl | hr
    · cases calls with
      | nil => exact hlast c List.mem_cons_self
      | cons d calls => exact Key.le_pred (hsort.1 d.minKey (by simp))
    · exact ih hsort.2 (fun d hd => hlast d (List.mem_cons_of_mem _ hd)) r hr

end Duties

end Plin
