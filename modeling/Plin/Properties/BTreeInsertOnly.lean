import Plin.Properties.BTreeRun

/-!
# 挿入だけの走行

overflow tree と両端の buffer は、呼び出しのたびに `*addr` から木を開き直す。空の木に 0 でない payload
を `upsert` と `insert` で書いていく限り、鍵の順や重複によらず、**木は最後に書いた payload を覚える有限
写像である**（`insertOnly_refines`）。`upsert` の返り値は、鍵が在ったかどうかを言い当てる。
-/

namespace Plin

open Infra Level

/-- 一回の書き込み。`viaInsert` なら `insert`、さもなければ `upsert` を呼ぶ。 -/
structure InsertCall where
  viaInsert : Bool
  key : Key
  payload : Payload
  deriving DecidableEq

namespace InsertCall

/-- 木を開き直して書く。 -/
def call (c : InsertCall) (t : BTree) : Except Fault (BTree × Nat) :=
  if c.viaInsert then t.reopen.insert c.key c.payload else t.reopen.upsert c.key c.payload

/-- 有限写像の側の書き込み。 -/
def onMap (f : Key → Option Payload) (c : InsertCall) : Key → Option Payload :=
  Function.update f c.key (some c.payload)

/-- 書き込みの列が表す有限写像。 -/
def contents (calls : List InsertCall) : Key → Option Payload := calls.foldl onMap fun _ => none

end InsertCall

/-- 順に書き、返り値を集める。 -/
def BTree.insertAll (t : BTree) : List InsertCall → Except Fault (BTree × List Nat)
  | [] => .ok (t, [])
  | c :: calls => do
    let (t, ret) ← c.call t
    let (t, rets) ← t.insertAll calls
    return (t, ret :: rets)

theorem BTree.Represents.reopen {t : BTree} {f : Key → Option Payload} (h : t.Represents f) :
    t.reopen = t := by
  obtain ⟨m, leaves, uppers, hh, -⟩ := h
  cases t
  simp only [BTree.reopen, BTree.mk.injEq, true_and, and_true]
  exact hh.addr

theorem BTree.Represents.call {t : BTree} {f : Key → Option Payload} (h : t.Represents f)
    (c : InsertCall) (hp : c.payload ≠ 0) :
    ∃ t', c.call t = .ok (t', if (f c.key).isSome then 3 else 4) ∧ t'.Represents (c.onMap f) := by
  have hopen := h.reopen
  obtain ⟨m, leaves, uppers, hh, rfl⟩ := h
  obtain ⟨t', leaves', uppers', hcall, hh'⟩ := hh.upsert c.key hp
  refine ⟨t', ?_, m.upsert c.key c.payload, leaves', uppers', hh', ?_⟩
  · rw [InsertCall.call, hopen, BTree.insert, hcall, ite_self]
  · funext q
    rw [SortedMap.find_upsert, InsertCall.onMap, Function.update_apply]

/-- 書き込みの列を通して、木は有限写像を表し続ける。 -/
theorem BTree.Represents.insertAll {calls : List InsertCall} :
    ∀ {t : BTree} {f : Key → Option Payload}, t.Represents f → (∀ c ∈ calls, c.payload ≠ 0) →
    ∃ t' rets, t.insertAll calls = .ok (t', rets) ∧ rets.length = calls.length ∧
      (∀ i c, calls[i]? = some c → rets[i]? =
        some (if ((calls.take i).foldl InsertCall.onMap f c.key).isSome then 3 else 4)) ∧
      t'.Represents (calls.foldl InsertCall.onMap f) := by
  induction calls with
  | nil => exact fun h _ => ⟨_, [], rfl, rfl, by simp, h⟩
  | cons c calls ih =>
    intro t f h hp
    obtain ⟨hc, hcs⟩ := List.forall_mem_cons.mp hp
    obtain ⟨t₁, hcall, h₁⟩ := h.call c hc
    obtain ⟨t', rets, hrun, hlen, hrets, h'⟩ := ih h₁ hcs
    refine ⟨t', (if (f c.key).isSome then 3 else 4) :: rets, ?_, by simp [hlen], ?_, h'⟩
    · show (c.call t).bind _ = _
      rw [hcall]
      show (t₁.insertAll calls).bind _ = _
      rw [hrun]
      rfl
    · intro i d hd
      cases i with
      | zero =>
        obtain rfl : c = d := by simpa using hd
        rfl
      | succ i => exact hrets i d (by simpa using hd)

/--
**挿入だけの走行は有限写像である。**

どの書き込みの列も失敗せずに終わり、返り値は鍵が在れば 3、無ければ 4 である。終わりの木では、`find` は
最後に書いた payload を、`get_data` は写像の全体を昇順に、`range_query` はそのうちの区間を返す。
-/
theorem insertOnly_refines {calls : List InsertCall} (hp : ∀ c ∈ calls, c.payload ≠ 0) :
    ∃ t rets, BTree.new.insertAll calls = .ok (t, rets) ∧ rets.length = calls.length ∧
      (∀ i c, calls[i]? = some c → rets[i]? =
        some (if (InsertCall.contents (calls.take i) c.key).isSome then 3 else 4)) ∧
      (∀ k, t.reopen.find k = .ok (InsertCall.contents calls k)) ∧
      ∃ es, t.reopen.getData = .ok es ∧ (es.map Prod.fst).Pairwise (· < ·) ∧
        (∀ k v, (k, v) ∈ es ↔ InsertCall.contents calls k = some v) ∧
        ∀ lower upper answers, t.reopen.rangeQuery lower upper answers =
          .ok (answers ++ es.filter fun e => decide (lower ≤ e.1 ∧ e.1 ≤ upper)) := by
  obtain ⟨t, rets, hrun, hlen, hrets, h⟩ := represents_new.insertAll hp
  have hopen := h.reopen
  obtain ⟨m, leaves, uppers, hh, hf⟩ := h
  refine ⟨t, rets, hrun, hlen, hrets, fun k => ?_, m.entries, ?_, ?_, fun k v => ?_, ?_⟩
  · rw [hopen, hh.find k, hf]
    rfl
  · rw [hopen]
    exact hh.getData
  · exact List.pairwise_map.mpr m.sorted
  · rw [SortedMap.mem_entries_iff, hf]
    rfl
  · intro lower upper answers
    rw [hopen]
    exact hh.rangeQuery lower upper answers

/-- 20 個の鍵を降順に書く。 -/
def descending (payload : Payload) : List InsertCall :=
  (List.range 20).map fun i => ⟨false, Key.ofNat (20 - i), payload⟩

/-- 根が分割された木に、在る鍵をもう一度書く走行。 -/
theorem insertOnly_refines_twice :
    ∃ t rets, BTree.new.insertAll (descending 1 ++ [⟨true, Key.ofNat 5, 2⟩]) = .ok (t, rets) ∧
      (t.pages t.root).map Page.isLeaf = some false ∧ rets[20]? = some 3 ∧
      t.reopen.find (Key.ofNat 5) = .ok (some 2) ∧ t.reopen.find (Key.ofNat 20) = .ok (some 1) ∧
      t.reopen.find (Key.ofNat 21) = .ok none := by
  have hp : ∀ c ∈ descending 1 ++ [⟨true, Key.ofNat 5, 2⟩], c.payload ≠ 0 := by decide +kernel
  have hsplit : ((BTree.new.insertAll (descending 1 ++ [⟨true, Key.ofNat 5, 2⟩])).toOption.map
      fun r => (r.1.pages r.1.root).map Page.isLeaf) = some (some false) := by
    decide +kernel
  obtain ⟨t, rets, hrun, -, hrets, hfind, -⟩ := insertOnly_refines hp
  rw [hrun] at hsplit
  refine ⟨t, rets, hrun, Option.some.inj hsplit, (hrets 20 _ rfl).trans (by decide +kernel), ?_, ?_,
    ?_⟩
  · rw [hfind]
    decide +kernel
  · rw [hfind]
    decide +kernel
  · rw [hfind]
    decide +kernel

/-! ## 0 の payload -/

/-- 木のどの page でも `record_num` と `count()` が一致し、検査は `exit(0)` に落ちない。 -/
def BTree.Consistent (t : BTree) : Prop :=
  ∀ path id, t.walk t.root path = some id → ∃ p, t.pages id = some p ∧ p.recordNum = p.count

theorem BTree.Represents.consistent {t : BTree} {f : Key → Option Payload} (h : t.Represents f) :
    t.Consistent := by
  obtain ⟨m, leaves, uppers, hh, -⟩ := h
  intro path id hw
  obtain ⟨p, hmem, -⟩ := hh.stack.walk_mem hw
  refine ⟨p, hh.stack.heap (id, p) hmem, ?_⟩
  have hsolid : p.Solid := by
    rcases List.mem_append.mp hmem with hmem | hmem
    · exact (hh.stack.lowerOk (id, p) hmem).solid
    · exact (hh.stack.upperOk (id, p) hmem).solid
  exact hsolid.count_eq.symm

/--
**0 でない payload はどれも記録できる。**

書き込みの途中のどの時点でも、木のどの page でも `record_num` は `count()` に等しく、`find` は最後に書いた
payload を返す。
-/
theorem payloads_storable {calls : List InsertCall} (hp : ∀ c ∈ calls, c.payload ≠ 0) :
    ∀ pre, pre <+: calls → ∃ t rets, BTree.new.insertAll pre = .ok (t, rets) ∧ t.Consistent ∧
      ∀ k, t.reopen.find k = .ok (InsertCall.contents pre k) := by
  intro pre hpre
  obtain ⟨t, rets, hrun, -, -, h⟩ := represents_new.insertAll fun c hc => hp c (hpre.subset hc)
  refine ⟨t, rets, hrun, h.consistent, fun k => ?_⟩
  have hopen := h.reopen
  obtain ⟨m, leaves, uppers, hh, hf⟩ := h
  rw [hopen, hh.find k, hf]
  rfl

/-- 最大の payload も、page の分割を通して記録できる。 -/
theorem payloads_storable_max :
    ∃ t rets, BTree.new.insertAll (descending 0xFFFFFFFFFFFFFFFF) = .ok (t, rets) ∧
      (t.pages t.root).map Page.isLeaf = some false ∧ t.Consistent ∧
      t.reopen.find (Key.ofNat 5) = .ok (some 0xFFFFFFFFFFFFFFFF) := by
  have hsplit : ((BTree.new.insertAll (descending 0xFFFFFFFFFFFFFFFF)).toOption.map
      fun r => (r.1.pages r.1.root).map Page.isLeaf) = some (some false) := by
    decide +kernel
  obtain ⟨t, rets, hrun, hcons, hfind⟩ := @payloads_storable (descending 0xFFFFFFFFFFFFFFFF)
    (by decide +kernel) _ List.prefix_rfl
  rw [hrun] at hsplit
  refine ⟨t, rets, hrun, Option.some.inj hsplit, hcons, ?_⟩
  rw [hfind]
  decide +kernel

/-- payload 0 を一つ書くと `record_num` は 1、`count()` は 0 になり、次の `find` は `exit(0)` に落ちる。 -/
theorem payload_zero_exits :
    ∃ t rets, BTree.new.insertAll [⟨false, Key.ofNat 5, 0⟩] = .ok (t, rets) ∧
      (∃ p, t.pages t.root = some p ∧ p.recordNum = 1 ∧ p.count = 0) ∧
      t.reopen.find (Key.ofNat 5) = .error .exit :=
  ⟨_, _, rfl, ⟨_, rfl, rfl, rfl⟩, rfl⟩

end Plin
