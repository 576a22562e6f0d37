import Plin.Common.Proto
import Plin.Common.RangeMap

/-!
# Cloud（`cloud_server.cpp`）

Cloud は data set の全体と workload の記録を持つ。記録から End ごとによく引かれる行の番号を数えておき、
予測が選んだ End に、その行の鍵と payload を `HOT_UPDATE` で送る。

行の番号は 1 から始まる。100 万行ごとに End を割り当てる `end_for_position` と、区間で End を引く
`locate_end` は別の物である。`std::unordered_map` をたどる順は決まっていないので引数 `iteration` に取る。
-/

namespace Plin

open Infra

/-- `WorkloadRecord` のうち、行の番号。時刻と device の番号は予測の入力にしか使わない。 -/
structure WorkloadRecord where
  keyPos : Int
  deriving DecidableEq

/-- `end_for_position`。 -/
def endForPosition (keyPos : Int) (dataSize : Nat) : Int :=
  if keyPos ≤ 0 ∨ (dataSize : Int) < keyPos then -1
  else
    let endId := (keyPos - 1) / 1000000 + 1
    if 10 < endId then 10 else endId

/-- `counts[end_id][key_pos] += 1`。 -/
def countPosition (counts : List (Int × Nat)) (pos : Int) : List (Int × Nat) :=
  match counts with
  | [] => [(pos, 1)]
  | e :: rest => if e.1 = pos then (e.1, e.2 + 1) :: rest else e :: countPosition rest pos

/-- 一つの End の `counts`。 -/
def positionCounts (rows : List WorkloadRecord) (dataSize : Nat) (endId : Int) :
    List (Int × Nat) :=
  rows.foldl (fun counts r =>
    if endForPosition r.keyPos dataSize = endId then countPosition counts r.keyPos else counts) []

/-- `build_hot_positions_by_end`。多く引かれた順に、End ごとに `max_per_end` 個まで残す。 -/
def buildHotPositionsByEnd (iteration : List (Int × Nat) → List (Int × Nat))
    (rows : List WorkloadRecord) (dataSize : Nat) (maxPerEnd : Int) : List (List Int) :=
  (List.range 11).map fun (endId : Nat) =>
    if endId = 0 then []
    else
      let ranked := (iteration (positionCounts rows dataSize endId)).mergeSort
        fun a b => decide (b.2 ≤ a.2)
      (ranked.take maxPerEnd.toNat).map Prod.fst

/-- `CloudServer`。`edges` は `edges_` に接続の載っている Edge である。 -/
structure CloudServer where
  hotTopn : Int
  rm : RangeMap
  data : List (Key × Payload)
  hotPositions : List (List Int)
  edges : List Int

namespace CloudServer

/-- 構築子。接続はまだ無い。 -/
def new (iteration : List (Int × Nat) → List (Int × Nat)) (hotTopn : Int) (rm : RangeMap)
    (data : List (Key × Payload)) (workload : List WorkloadRecord) : CloudServer :=
  { hotTopn := hotTopn
    rm := rm
    data := data
    hotPositions := buildHotPositionsByEnd iteration workload data.length (hotTopn * 4)
    edges := [] }

/-- `handle_cross_edge_req` の行き先。`error` はその場で返す応答、`ok` は回す先の Edge である。 -/
def routeCrossEdgeReq (cs : CloudServer) (req : Frame) : Except Frame Int :=
  match readDouble req.body 8 with
  | none => .error (makeFetchResp .error 0)
  | some key =>
    let targetEnd := cs.rm.locateDouble key
    let targetEdge := cs.rm.edgeOf targetEnd
    if targetEnd < 0 ∨ targetEdge < 0 then .error (makeFetchResp .notFound 0) else .ok targetEdge

/-- `send_hot_update` の loop。送る組を、番号の順に `hot_topn` 個まで集める。 -/
def emit (cs : CloudServer) (targetEndId : Int) : List Int → Int → List (Key × Payload)
  | [], _ => []
  | pos :: rest, emitted =>
    if pos ≤ 0 ∨ (cs.data.length : Int) < pos then cs.emit targetEndId rest emitted
    else
      match cs.data[(pos - 1).toNat]? with
      | none => cs.emit targetEndId rest emitted
      | some e =>
        if cs.rm.locateEnd e.1 ≠ targetEndId then cs.emit targetEndId rest emitted
        else e :: if cs.hotTopn ≤ emitted + 1 then [] else cs.emit targetEndId rest (emitted + 1)

/-- 一組の本文。 -/
def pairBytes (e : Key × Payload) : Bytes := appendU64 (appendDouble [] e.1) e.2

/-- `send_hot_update` が送る組。 -/
def hotPairs (cs : CloudServer) (targetEndId : Int) : List (Key × Payload) :=
  cs.emit targetEndId ((cs.hotPositions[targetEndId.toNat]?).getD []) 0

/-- `send_hot_update`。書く frame を返し、書かずに返るときは `none`。 -/
def sendHotUpdate (cs : CloudServer) (targetEndId : Int) : Option Frame :=
  if cs.rm.edgeOf targetEndId ∉ cs.edges then none
  else if targetEndId < 1 ∨ (cs.hotPositions.length : Int) ≤ targetEndId then none
  else
    let pairs := cs.hotPairs targetEndId
    if pairs = [] then none
    else some ⟨.hotUpdate,
      appendU32 [] (targetEndId % 2 ^ 32).toNat ++ pairs.flatMap pairBytes⟩

end CloudServer

end Plin
