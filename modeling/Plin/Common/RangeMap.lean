import Plin.Index.Key

/-!
# 配置と鍵の区間（`range_map.h` / `range_map.cpp`）

三つの process は同じ配置の file を読み、End が受け持つ鍵の区間と、End の属する Edge を引く。
`ends_` は読み込みの最後に `key_lo` の順に整列される。`host` と `port` は接続にしか使わないので持たない。
-/

namespace Plin

/-- `EndInfo`。区間は両端を含む。 -/
structure EndInfo where
  id : Int
  edgeId : Int
  keyLo : Key
  keyHi : Key
  deriving DecidableEq

/-- 区間に入る鍵。 -/
def EndInfo.Contains (e : EndInfo) (k : Key) : Prop := e.keyLo ≤ k ∧ k ≤ e.keyHi

instance (e : EndInfo) (k : Key) : Decidable (e.Contains k) := inferInstanceAs (Decidable (_ ∧ _))

/-- `EdgeInfo`。 -/
structure EdgeInfo where
  id : Int
  endIds : List Int
  deriving DecidableEq

/-- `RangeMap`。 -/
structure RangeMap where
  edges : List EdgeInfo
  ends : List EndInfo
  deriving DecidableEq

namespace RangeMap

/-- `locate_end` の loop。`lo` と `hi` は `int` である。 -/
def locateLoop (ends : List EndInfo) (k : Key) : Nat → Int → Int → Int
  | 0, _, _ => -1
  | fuel + 1, lo, hi =>
    if lo ≤ hi then
      let mid := (lo + hi) / 2
      match ends[mid.toNat]? with
      | none => -1
      | some e =>
        if k < e.keyLo then locateLoop ends k fuel lo (mid - 1)
        else if e.keyHi < k then locateLoop ends k fuel (mid + 1) hi
        else e.id
    else -1

/-- `locate_end`。区間は一回ごとに縮むので、回数は End の個数を超えない。 -/
def locateEnd (rm : RangeMap) (k : Key) : Int :=
  locateLoop rm.ends k (rm.ends.length + 1) 0 (rm.ends.length - 1)

/-- `double` の値に対する `locate_end`。NaN はどの比較も偽なので、最初に見る End に決まる。 -/
def locateDouble (rm : RangeMap) : Option Key → Int
  | some k => rm.locateEnd k
  | none => ((rm.ends[(rm.ends.length - 1) / 2]?).map EndInfo.id).getD (-1)

/-- `edge_of`。 -/
def edgeOf (rm : RangeMap) (endId : Int) : Int :=
  match rm.ends.find? fun e => e.id = endId with
  | some e => e.edgeId
  | none => -1

/-- `same_edge`。 -/
def sameEdge (rm : RangeMap) (a b : Int) : Bool :=
  rm.edgeOf a = rm.edgeOf b ∧ 0 ≤ rm.edgeOf a

end RangeMap

end Plin
