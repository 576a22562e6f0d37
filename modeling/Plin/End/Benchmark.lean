import Plin.Index.Key

/-!
# 測定に使う鍵（`end_node.cpp`）

測定では、workload の記録の行の番号を data file の鍵に直す（`resolve_positions_to_keys`）。番号は整列して
から file を一度だけ読み、終わりに元の順に戻す。

`std::sort` は安定でないので、整列は `RequestSorter` として引数に取る。data file は、読めた行の鍵と payload の
列である。
-/

namespace Plin

/-- `requests` を `first` の順に並べる `std::sort`。 -/
structure RequestSorter where
  sort : List (Int × Nat) → List (Int × Nat)
  perm : ∀ l, (sort l).Perm l
  sorted : ∀ l, (sort l).Pairwise fun a b => a.1 ≤ b.1

/-- `keys` と `resolved`。 -/
structure Resolution where
  keys : List Key
  resolved : List Bool

namespace Resolution

/-- `keys(positions.size(), 0)` と `resolved(positions.size(), 0)`。 -/
def initial (n : Nat) : Resolution :=
  { keys := List.replicate n (Key.ofNat 0), resolved := List.replicate n false }

/-- 番号 `i` の要求に答える。 -/
def answer (m : Resolution) (i : Nat) (k : Key) : Resolution :=
  { keys := m.keys.set i k, resolved := m.resolved.set i true }

/-- 行 `row` を求める要求に答える loop。残りの要求も返す。 -/
def answerRow (row : Int) (k : Key) : List (Int × Nat) → Resolution → List (Int × Nat) × Resolution
  | [], m => ([], m)
  | r :: requests, m =>
    if r.1 = row then answerRow row k requests (m.answer r.2 k) else (r :: requests, m)

/-- data file を読む loop。要求が尽きれば、残りの行は読まない。 -/
def readRows : List (Key × Payload) → (row : Int) → List (Int × Nat) → Resolution → Resolution
  | [], _, _, m => m
  | e :: data, row, requests, m =>
    if requests = [] then m
    else
      let row := row + 1
      let (requests, m) := answerRow row e.1 (requests.dropWhile fun r => r.1 < row) m
      readRows data row requests m

/-- 答えた要求の鍵を、元の順に並べる loop。 -/
def out (m : Resolution) : List Key :=
  (m.keys.zip m.resolved).filterMap fun e => if e.2 then some e.1 else none

end Resolution

/-- 正の番号だけを、元の位置と組にする。 -/
def requestsOf (positions : List Int) : List (Int × Nat) :=
  positions.zipIdx.filter fun r => 0 < r.1

/-- `resolve_positions_to_keys`。 -/
def resolvePositionsToKeys (sorter : RequestSorter) (data : List (Key × Payload))
    (positions : List Int) : List Key :=
  (Resolution.readRows data 0 (sorter.sort (requestsOf positions))
    (Resolution.initial positions.length)).out

end Plin
