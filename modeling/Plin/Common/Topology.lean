import Mathlib.Data.List.DropRight
import Mathlib.Data.List.Sort
import Plin.Common.RangeMap
import Plin.Infra.Text

/-!
# 配置の file を読む（`range_map.cpp` の `RangeMap::load`）

file は三つの節（`cloud:` / `edges:` / `ends:`）からなる。行を一つずつ読み、`- ` で始まる項目は、次の
項目か節の見出しか file の終わりで確定する。項目は `{ ... }` の一行で書くか、続く行に `key: value` を
並べる。一行の項目の field は、**行の中で `name:` を探して**取り出す。

`stod` は引数に取る（`none` は例外）。読んだ値は NaN でないとする。`std::sort` は安定でないので、整列は
`EndSorter` として引数に取る。`cloud_.port` は初期化されていないので、最初の値も引数である。
-/

namespace Plin

open Infra

/-- `CloudInfo`。 -/
structure CloudInfo where
  host : Text
  port : Nat
  deriving DecidableEq

/-- 接続先を含む `EdgeInfo`。 -/
structure EdgeEntry extends EdgeInfo where
  host : Text
  port : Nat
  deriving DecidableEq

/-- 接続先を含む `EndInfo`。 -/
structure EndEntry extends EndInfo where
  host : Text
  port : Nat
  deriving DecidableEq

/-- 読み込んだ配置。 -/
structure Topology where
  cloud : CloudInfo
  edges : List EdgeEntry
  ends : List EndEntry
  deriving DecidableEq

/-- 鍵の区間と所属だけを見る。 -/
def Topology.rangeMap (t : Topology) : RangeMap where
  edges := t.edges.map EdgeEntry.toEdgeInfo
  ends := t.ends.map EndEntry.toEndInfo

/-- `key_lo` の順に並べる `std::sort`。 -/
structure EndSorter where
  sort : List EndEntry → List EndEntry
  perm : ∀ l, (sort l).Perm l
  sorted : ∀ l, (sort l).Pairwise fun a b => a.keyLo ≤ b.keyLo

/-! ## 文字列の部品 -/

/-- `trim` の落とす空白。 -/
def isBlankChar (c : Char) : Bool := c = ' ' || c = '\t' || c = '\r' || c = '\n'

/-- `trim`。前後の空白と、` #` から後ろを落とす。 -/
def trim (s : Text) : Text :=
  let t := (s.dropWhile isBlankChar).rdropWhile isBlankChar
  match Text.indexOf [' ', '#'] t with
  | some i => t.take i
  | none => t

/-- `split_kv`。 -/
def splitKv (line : Text) : Option (Text × Text) :=
  if ':' ∈ line then
    some (trim (line.takeWhile (· ≠ ':')), trim ((line.dropWhile (· ≠ ':')).drop 1))
  else none

/-- `find_first_not_of(" \t", ...)` の場所から後ろ。 -/
def skipBlanks (s : Text) : Text := s.dropWhile fun c => c = ' ' || c = '\t'

/-- `name:` の直後から後ろ。 -/
def afterName (name s : Text) : Option Text :=
  (Text.indexOf (name ++ [':']) s).map fun pos => s.drop (pos + (name.length + 1))

/-- field の値の終わり。 -/
def isFieldEnd (c : Char) : Bool := c = ',' || c = '}'

/-- `extract_host_port` の `find_val`。無ければ空。 -/
def findVal (name s : Text) : Text :=
  match (afterName name s).map skipBlanks with
  | none => []
  | some r => trim (r.takeWhile fun c => !isFieldEnd c)

/-- `load` の `parse_field`。`name:` の後ろに何も無ければ `substr` が例外を投げる。 -/
def parseField (name s : Text) : Option Text :=
  match (afterName name s).map skipBlanks with
  | none => some []
  | some [] => none
  | some r => some (trim (r.takeWhile fun c => !isFieldEnd c))

/-- `static_cast<uint16_t>(std::stoi(s))`。 -/
def parsePort (s : Text) : Option Nat := (Text.stoi s).map fun n => (n % 2 ^ 16).toNat

/-- `extract_host_port`。見つからなければ元のままである。 -/
def extractHostPort (s : Text) (old : Text × Nat) : Option (Text × Nat) :=
  let h := findVal "host".toList s
  let p := findVal "port".toList s
  if h = [] ∨ p = [] then some old else (parsePort p).map fun port => (h, port)

/-- `parse_int_list`。 -/
def parseIntList (s : Text) : Option (List Int) :=
  let t := s.filter fun c => !(c = '[' || c = ']' || c = '\x7b')
  (((t.splitOn ',').map trim).filter (· ≠ [])).mapM Text.stoi

/-! ## 項目 -/

/-- `- { id: 1, host: ..., port: ..., ends: [...] }` の形の項目。 -/
def EdgeEntry.parseInline (rest : Text) (cur : EdgeEntry) : Option EdgeEntry := do
  let id ← match (afterName "id".toList rest).map skipBlanks with
    | none => some cur.id
    | some [] => none
    | some r => Text.stoi (r.takeWhile (· ≠ ','))
  let (host, port) ← extractHostPort rest (cur.host, cur.port)
  let endIds ← match afterName "ends".toList rest with
    | none => some cur.endIds
    | some r => parseIntList r
  some { id, host, port, endIds }

/-- 続く行の `key: value`。 -/
def EdgeEntry.parseKv (cur : EdgeEntry) (k v : Text) : Option EdgeEntry :=
  if k = "id".toList then (Text.stoi v).map fun id => { cur with id }
  else if k = "host".toList then some { cur with host := v }
  else if k = "port".toList then (parsePort v).map fun port => { cur with port }
  else if k = "ends".toList then (parseIntList v).map fun endIds => { cur with endIds }
  else some cur

section Ends

variable (stod : Text → Option Key)

/-- `key_range: [lo, hi]`。括弧が揃っていなければ元のままである。 -/
def parseKeyRange (rest : Text) (old : Key × Key) : Option (Key × Key) :=
  match afterName "key_range".toList rest with
  | none => some old
  | some r =>
    let fromBracket := r.dropWhile (· ≠ '[')
    if '[' ∈ r ∧ ']' ∈ fromBracket then
      let inner := (fromBracket.drop 1).takeWhile (· ≠ ']')
      let hi := if ',' ∈ inner then (inner.dropWhile (· ≠ ',')).drop 1 else inner
      (stod (trim (inner.takeWhile (· ≠ ',')))).bind fun lo =>
        (stod (trim hi)).map fun hi => (lo, hi)
    else some old

/-- `- { id: X, edge: Y, host: Z, port: P, key_range: [lo, hi] }` の形の項目。 -/
def EndEntry.parseInline (rest : Text) (cur : EndEntry) : Option EndEntry := do
  let idText ← parseField "id".toList rest
  let edgeText ← parseField "edge".toList rest
  let id ← if idText = [] then some cur.id else Text.stoi idText
  let edgeId ← if edgeText = [] then some cur.edgeId else Text.stoi edgeText
  let (host, port) ← extractHostPort rest (cur.host, cur.port)
  let (keyLo, keyHi) ← parseKeyRange stod rest (cur.keyLo, cur.keyHi)
  some { id, edgeId, host, port, keyLo, keyHi }

/-- 続く行の `key: value`。 -/
def EndEntry.parseKv (cur : EndEntry) (k v : Text) : Option EndEntry :=
  if k = "id".toList then (Text.stoi v).map fun id => { cur with id }
  else if k = "edge".toList then (Text.stoi v).map fun edgeId => { cur with edgeId }
  else if k = "host".toList then some { cur with host := v }
  else if k = "port".toList then (parsePort v).map fun port => { cur with port }
  else if k = "key_lo".toList then (stod v).map fun keyLo => { cur with keyLo }
  else if k = "key_hi".toList then (stod v).map fun keyHi => { cur with keyHi }
  else some cur

end Ends

/-! ## 行の loop -/

/-- `Section`。 -/
inductive TopologySection where
  | none
  | cloud
  | edges
  | ends
  deriving DecidableEq

/-- `EdgeInfo{}`。 -/
def EdgeEntry.zero : EdgeEntry := { id := 0, endIds := [], host := [], port := 0 }

/-- `EndInfo{}`。 -/
def EndEntry.zero : EndEntry :=
  { id := 0, edgeId := 0, keyLo := Key.ofNat 0, keyHi := Key.ofNat 0, host := [], port := 0 }

/-- `load` の局所変数と、書いている field。 -/
structure LoadState where
  sec : TopologySection
  curEdge : EdgeEntry
  curEnd : EndEntry
  inEdge : Bool
  inEnd : Bool
  cloud : CloudInfo
  edges : List EdgeEntry
  ends : List EndEntry

namespace LoadState

/-- 作りたての `RangeMap` と `load` の最初。 -/
def initial (port : Nat) : LoadState :=
  { sec := .none, curEdge := .zero, curEnd := .zero, inEdge := false, inEnd := false
    cloud := ⟨[], port⟩, edges := [], ends := [] }

/-- `flush_edge`。 -/
def flushEdge (st : LoadState) : LoadState :=
  if st.inEdge then
    { st with edges := st.edges ++ [st.curEdge], curEdge := .zero, inEdge := false }
  else st

/-- `flush_end`。 -/
def flushEnd (st : LoadState) : LoadState :=
  if st.inEnd then { st with ends := st.ends ++ [st.curEnd], curEnd := .zero, inEnd := false }
  else st

/-- `cloud` の節の行。 -/
def cloudLine (st : LoadState) (line : Text) : Option LoadState :=
  match splitKv line with
  | none => some st
  | some (k, v) =>
    if k = "host".toList then some { st with cloud := { st.cloud with host := v } }
    else if k = "port".toList then
      (parsePort v).map fun port => { st with cloud := { st.cloud with port } }
    else some st

/-- `edges` の節の行。 -/
def edgeLine (st : LoadState) (line : Text) : Option LoadState :=
  if line.head? = some '-' then
    let st := { st.flushEdge with inEdge := true }
    let rest := trim (line.drop 1)
    if rest.head? = some '\x7b' then
      (EdgeEntry.parseInline rest st.curEdge).map fun curEdge => { st with curEdge }
    else some st
  else if st.inEdge then
    match splitKv line with
    | none => some st
    | some (k, v) => (st.curEdge.parseKv k v).map fun curEdge => { st with curEdge }
  else some st

variable (stod : Text → Option Key)

/-- `ends` の節の行。 -/
def endLine (st : LoadState) (line : Text) : Option LoadState :=
  if line.head? = some '-' then
    let st := { st.flushEnd with inEnd := true }
    let rest := trim (line.drop 1)
    if rest.head? = some '\x7b' then
      (EndEntry.parseInline stod rest st.curEnd).map fun curEnd => { st with curEnd }
    else some st
  else if st.inEnd then
    match splitKv line with
    | none => some st
    | some (k, v) => (EndEntry.parseKv stod st.curEnd k v).map fun curEnd => { st with curEnd }
  else some st

/-- loop の一周。 -/
def step (st : LoadState) (raw : Text) : Option LoadState :=
  let line := trim raw
  if line = [] ∨ line.head? = some '#' then some st
  else if "cloud:".toList.isPrefixOf line then
    let st := { st.flushEdge.flushEnd with sec := .cloud }
    let val := trim (line.drop 6)
    if val.head? = some '\x7b' then
      (extractHostPort val (st.cloud.host, st.cloud.port)).map fun r =>
        { st with cloud := ⟨r.1, r.2⟩ }
    else some st
  else if line = "edges:".toList then some { st.flushEdge.flushEnd with sec := .edges }
  else if line = "ends:".toList then some { st.flushEdge.flushEnd with sec := .ends }
  else
    match st.sec with
    | .none => some st
    | .cloud => st.cloudLine line
    | .edges => st.edgeLine line
    | .ends => st.endLine stod line

end LoadState

/-- `std::getline` を繰り返して得る行。`cur` は読みかけの行である。 -/
def getlines (cur : Text) : Text → List Text
  | [] => if cur = [] then [] else [cur]
  | c :: s => if c = '\n' then cur :: getlines [] s else getlines (cur ++ [c]) s

/-- `load` が `true` を返さない理由。 -/
inductive LoadFault where
  /-- `stoi` / `stod` / `substr` の例外。 -/
  | thrown
  /-- `cloud block missing or incomplete`。 -/
  | cloudIncomplete
  /-- `edges or ends list is empty`。 -/
  | listEmpty
  deriving DecidableEq

/-- `RangeMap::load`。`.ok` が `true` である。 -/
def Topology.load (stod : Text → Option Key) (sorter : EndSorter) (port : Nat) (text : Text) :
    Except LoadFault Topology :=
  match (getlines [] text).foldlM (LoadState.step stod) (LoadState.initial port) with
  | none => .error .thrown
  | some st =>
    let st := st.flushEdge.flushEnd
    if st.cloud.host = [] ∨ st.cloud.port = 0 then .error .cloudIncomplete
    else if st.edges = [] ∨ st.ends = [] then .error .listEmpty
    else .ok { cloud := st.cloud, edges := st.edges, ends := sorter.sort st.ends }

end Plin
