import Plin.End.EndNode

/-!
# 反映した frame と cache

`hot_cache` と `plin_cache` を書き換えるのは、届いた frame の反映と、問い合わせの返事による hot cache への書き込み
だけである。**二つの cache は、反映した frame と書き込みを順に行った結果である**（`Caches`）。
-/

namespace Plin

open Infra

variable {P : Type} (M : ParamModel P)

/-- cache の書き換え。 -/
inductive CacheWrite where
  /-- `apply_edge_control_frame`。 -/
  | frame (f : Frame)
  /-- `lookup` の `hot_cache.upsert`。 -/
  | warm (k : Key) (v : Payload)

namespace CacheWrite

/-- 反映した frame。 -/
def frame? : CacheWrite → Option Frame
  | .frame f => some f
  | .warm _ _ => none

/-- hot cache と plin cache を書き換える。 -/
def apply (c : SortedMap Key Payload × P) : CacheWrite → SortedMap Key Payload × P
  | .frame f =>
    if f.type = .plinParamPush then (c.1, M.deserialize f.body)
    else (batchUpsert c.1 (decodePairs (f.body.length / 16) f.body), c.2)
  | .warm k v => (c.1.upsert k v, c.2)

end CacheWrite

/-- `s` から `s'` までの書き換えを順に行うと、`s'` の cache になる。書き換えの frame は、反映した frame である。 -/
def Caches (s s' : EndSession P) : Prop :=
  ∃ writes : List CacheWrite, s'.applied = s.applied ++ writes.filterMap CacheWrite.frame? ∧
    (s'.hotCache, s'.plinCache) = writes.foldl (CacheWrite.apply M) (s.hotCache, s.plinCache)

namespace Caches

variable {M} {s s' s'' : EndSession P}

theorem of_eq (ha : s'.applied = s.applied) (hhot : s'.hotCache = s.hotCache)
    (hplin : s'.plinCache = s.plinCache) : Caches M s s' :=
  ⟨[], by rw [ha]; simp, by rw [hhot, hplin]; rfl⟩

theorem refl (s : EndSession P) : Caches M s s := of_eq rfl rfl rfl

theorem trans (h : Caches M s s') (h' : Caches M s' s'') : Caches M s s'' := by
  obtain ⟨w, ha, hw⟩ := h
  obtain ⟨w', ha', hw'⟩ := h'
  refine ⟨w ++ w', ?_, ?_⟩
  · rw [ha', ha, List.filterMap_append, List.append_assoc]
  · rw [hw', hw, List.foldl_append]

/-- 接続だけが変わった後の続き。 -/
theorem after (h : Caches M s' s'') (ha : s'.applied = s.applied) (hhot : s'.hotCache = s.hotCache)
    (hplin : s'.plinCache = s.plinCache) : Caches M s s'' :=
  (of_eq ha hhot hplin).trans h

end Caches

namespace EndSession

/-- **反映した frame は、そのまま書き換えになる。** -/
theorem applyEdgeControlFrame_caches (s : EndSession P) (f : Frame) :
    Caches M s (s.applyEdgeControlFrame M f) := by
  unfold applyEdgeControlFrame
  split
  · next h => exact ⟨[.frame f], rfl, by simp [CacheWrite.apply, h]⟩
  · next hne =>
    split
    · exact ⟨[.frame f], rfl, by simp [CacheWrite.apply, hne]⟩
    · split
      · split
        · exact .of_eq rfl rfl rfl
        · exact .refl s
      · exact .refl s

theorem warm_caches (s : EndSession P) (r : FetchResult) (k : Key) : Caches M s (s.warm r k) := by
  unfold warm
  split
  · exact ⟨[.warm k r.out], (List.append_nil _).symm, rfl⟩
  · exact .refl s

/-! ## 五つの関数 -/

theorem readFetchLoop_caches (out : Payload) (i : Inbox) (s : EndSession P) :
    Caches M s (readFetchLoop M out i s).2 := by
  induction i generalizing s with
  | nil => exact .of_eq rfl rfl rfl
  | cons a rest ih =>
    cases a with
    | none => exact ih s
    | some f =>
      rw [readFetchLoop]
      split
      · exact .of_eq rfl rfl rfl
      · split
        · exact (applyEdgeControlFrame_caches M s f).trans (ih _)
        · exact .of_eq rfl rfl rfl

theorem edgeFetch_caches (s : EndSession P) (key : Key) (slot : Int32) (out : Payload) :
    Caches M s (s.edgeFetch M key slot out).2 :=
  (readFetchLoop_caches M out s.inbox (s.writeFrame _)).after rfl rfl rfl

theorem crossEdgeFetch_caches (s : EndSession P) (key : Key) (out : Payload) :
    Caches M s (s.crossEdgeFetch M key out).2 :=
  (readFetchLoop_caches M out s.inbox
    (writeFrame { s with nextRequestId := (s.nextRequestId + 1) % 2 ^ 64 } _)).after rfl rfl rfl

theorem readFrameTimed_caches (s : EndSession P) : Caches M s s.readFrameTimed.2 := by
  unfold readFrameTimed
  split
  · exact .refl s
  · exact .of_eq rfl rfl rfl

theorem waitLoaded_caches (rounds : Nat) (s : EndSession P) :
    Caches M s (waitLoaded M rounds s) := by
  induction rounds generalizing s with
  | zero => exact .refl s
  | succ rounds ih =>
    rw [waitLoaded]
    split
    · exact .refl s
    · have hread := readFrameTimed_caches M s
      cases hr : s.readFrameTimed with
      | mk a s₁ =>
        rw [hr] at hread
        cases a with
        | none => exact hread.trans (ih s₁)
        | some f => exact (hread.trans (applyEdgeControlFrame_caches M s₁ f)).trans (ih _)

theorem drainSnapshot_caches (i : Inbox) (s : EndSession P) :
    Caches M s (drainSnapshot M i s) := by
  induction i generalizing s with
  | nil => exact .of_eq rfl rfl rfl
  | cons a rest ih =>
    cases a with
    | none => exact .of_eq rfl rfl rfl
    | some f =>
      have happly := applyEdgeControlFrame_caches M s f
      simp only [drainSnapshot]
      split
      · exact happly.trans (ih _)
      · exact happly.trans (.of_eq rfl rfl rfl)

theorem drainEdgeControlFrames_caches (rounds : Nat) (s : EndSession P) :
    Caches M s (drainEdgeControlFrames M rounds s) := by
  induction rounds generalizing s with
  | zero => exact .refl s
  | succ rounds ih =>
    rw [drainEdgeControlFrames]
    have hread := readFrameTimed_caches M s
    cases hr : s.readFrameTimed with
    | mk a s₁ =>
      rw [hr] at hread
      cases a with
      | none => exact hread.trans (ih s₁)
      | some f =>
        dsimp only
        split
        · exact (hread.trans (applyEdgeControlFrame_caches M s₁ f)).trans (ih _)
        · exact hread.trans (ih s₁)

theorem foldl_apply_caches (fs : List Frame) (s : EndSession P) :
    Caches M s (fs.foldl (fun s f => s.applyEdgeControlFrame M f) s) := by
  induction fs generalizing s with
  | nil => exact .refl s
  | cons f fs ih => exact (applyEdgeControlFrame_caches M s f).trans (ih _)

theorem edgeReceiver_caches (s : EndSession P) : Caches M s (s.edgeReceiver M) :=
  (foldl_apply_caches M _ s).trans (.of_eq rfl rfl rfl)

theorem requestParamPush_caches (s : EndSession P) : Caches M s (s.requestParamPush M) := by
  unfold requestParamPush readFrame
  cases hd : (s.writeFrame ⟨.plinParamPush, []⟩).inbox.dropWhile Option.isNone with
  | nil => exact .of_eq rfl rfl rfl
  | cons a rest =>
    cases a with
    | none => exact .of_eq rfl rfl rfl
    | some f =>
      dsimp only
      split
      · have happly : Caches M s (EndSession.applyEdgeControlFrame M
            { s.writeFrame ⟨.plinParamPush, []⟩ with inbox := rest } f) :=
          (applyEdgeControlFrame_caches M _ f).after rfl rfl rfl
        have hread := happly.trans (readFrameTimed_caches M _)
        generalize EndSession.readFrameTimed _ = r at hread
        obtain ⟨next, s₁⟩ := r
        cases next with
        | none => exact hread
        | some g => exact hread.trans (applyEdgeControlFrame_caches M s₁ g)
      · exact .of_eq rfl rfl rfl

end EndSession

namespace EndNode

open EndSession

theorem fetchSibling_caches (edge : Transport) (s : EndSession P) (k : Key) :
    Caches M s (fetchSibling M edge s k).2 := by
  unfold fetchSibling
  dsimp only
  split
  · exact .refl s
  · exact edgeFetch_caches M s k _ _

/-- **`lookup` の間の cache の書き換えは、反映した frame と返事の payload である。** -/
theorem lookup_caches (node : EndNode) (s : EndSession P) (k : Key) :
    Caches M s (node.lookup M s k).2 := by
  unfold lookup
  split
  · split <;> exact .refl s
  · split
    · exact .refl s
    · dsimp only
      split
      · split
        · exact .refl s
        · next edge _ =>
          have hwarm := (fetchSibling_caches M edge s k).trans
            (warm_caches M (fetchSibling M edge s k).2 (fetchSibling M edge s k).1 k)
          dsimp only
          split
          · exact hwarm.trans (requestParamPush_caches M _)
          · exact hwarm
      · split
        · exact (crossEdgeFetch_caches M s k 0).trans (warm_caches M _ _ k)
        · exact .refl s

end EndNode

end Plin
