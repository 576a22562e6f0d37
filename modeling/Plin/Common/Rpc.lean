import Plin.Infra.Bytes

/-!
# frame（`proto.h` / `rpc.cpp`）

frame は、4 byte の big endian の長さ（type の 1 byte と body を合わせたもの）、type の 1 byte、body の
順に並ぶ。`write_frame` はこの三つを別々に書く。body が空なら三つ目の書き込みは無い。

長さは `uint32_t` で計算されるので、body が `2 ^ 32 - 1` byte 以上あると折り返す。
-/

namespace Plin

open Infra

/-- `MsgType`。受け取った byte はそのまま型に直されるので、名前の無い値もある。 -/
structure MsgType where
  byte : UInt8
  deriving DecidableEq

namespace MsgType

def edgeFetchReq : MsgType := ⟨3⟩

def edgeFetchResp : MsgType := ⟨4⟩

def plinParamPush : MsgType := ⟨5⟩

def hotUpdate : MsgType := ⟨6⟩

def crossEdgeReq : MsgType := ⟨8⟩

def heartbeat : MsgType := ⟨9⟩

def heartbeatAck : MsgType := ⟨10⟩

def rdmaSnapshotInfo : MsgType := ⟨11⟩

end MsgType

/-- `Frame`。 -/
structure Frame where
  type : MsgType
  body : Bytes
  deriving DecidableEq

namespace Frame

/-- `write_frame` の `payload_len`。 -/
def payloadLen (f : Frame) : Nat := (1 + f.body.length % 2 ^ 32) % 2 ^ 32

/-- `write_frame` の書き込み。一つの要素が一回の `::write` である。 -/
def chunks (f : Frame) : List Bytes :=
  [beBytes 4 f.payloadLen, [f.type.byte]] ++ if f.body = [] then [] else [f.body]

/-- 一つの frame の byte 列。 -/
def bytes (f : Frame) : Bytes := f.chunks.flatten

/-- 長さの計算が折り返さない大きさ。 -/
def Small (f : Frame) : Prop := f.body.length + 1 < 2 ^ 32

instance (f : Frame) : Decidable f.Small := inferInstanceAs (Decidable (_ < _))

end Frame

/-- `read_all`。足りなければ `none`。 -/
def readAll (n : Nat) (s : Bytes) : Option (Bytes × Bytes) :=
  if n ≤ s.length then some (s.take n, s.drop n) else none

/-- `read_frame`。読んだ frame と残りを返す。 -/
def readFrame (s : Bytes) : Option (Frame × Bytes) := do
  let (lenBe, s) ← readAll 4 s
  let payloadLen := ofBeBytes lenBe
  if payloadLen < 1 then none
  else do
    let (typeByte, s) ← readAll 1 s
    let (body, s) ← readAll (payloadLen - 1) s
    some (⟨⟨typeByte.headD 0⟩, body⟩, s)

/-- 読めるだけ `read_frame` を繰り返す loop。`fuel` は回数の上限である。 -/
def readFrames : Nat → Bytes → List Frame
  | 0, _ => []
  | fuel + 1, s =>
    match readFrame s with
    | none => []
    | some (f, rest) => f :: readFrames fuel rest

/-- stream から受け取る frame。一つの frame は 1 byte 以上なので、回数は長さを超えない。 -/
def received (s : Bytes) : List Frame := readFrames s.length s

/-! ## 部分的な読み書き

`::read` と `::write` は、頼まれた byte 数より少なく済ませてよい。`calls` 回目の system call が
済ませる byte 数を `split calls + 1`（頼まれた数を超えない）とすれば、どんな刻み方も
`split : Nat → Nat` で表せる。
-/

/-- 接続。`stream` は流れている byte 列、`calls` はこれまでの system call の数である。 -/
structure Socket where
  calls : Nat
  stream : Bytes

/-- `write_all` の loop。 -/
def writeAllOn (split : Nat → Nat) (buf : Bytes) (s : Socket) : Socket :=
  if h : buf = [] then s
  else
    let w := min buf.length (split s.calls + 1)
    have : (buf.drop w).length < buf.length := by
      have := List.length_pos_iff.mpr h
      simp only [List.length_drop]
      omega
    writeAllOn split (buf.drop w) ⟨s.calls + 1, s.stream ++ buf.take w⟩
termination_by buf.length

/-- `write_frame`。 -/
def writeFrameOn (split : Nat → Nat) (s : Socket) (f : Frame) : Socket :=
  f.chunks.foldl (fun s chunk => writeAllOn split chunk s) s

/-- frame を順に書く。 -/
def writeFramesOn (split : Nat → Nat) (fs : List Frame) (s : Socket) : Socket :=
  fs.foldl (writeFrameOn split) s

/-- `read_all` の loop。stream が尽きれば `::read` は 0 を返す。 -/
def readAllOn (split : Nat → Nat) : (n : Nat) → Socket → Option (Bytes × Socket)
  | 0, s => some ([], s)
  | n + 1, s =>
    let r := min (min (n + 1) s.stream.length) (split s.calls + 1)
    if hr : r = 0 then none
    else
      have : n + 1 - r < n + 1 := Nat.sub_lt (Nat.succ_pos n) (Nat.pos_of_ne_zero hr)
      (readAllOn split (n + 1 - r) ⟨s.calls + 1, s.stream.drop r⟩).map fun (rest, s') =>
        (s.stream.take r ++ rest, s')
termination_by n => n

/-- `read_frame`。 -/
def readFrameOn (split : Nat → Nat) (s : Socket) : Option (Frame × Socket) := do
  let (lenBe, s) ← readAllOn split 4 s
  let payloadLen := ofBeBytes lenBe
  if payloadLen < 1 then none
  else do
    let (typeByte, s) ← readAllOn split 1 s
    let bodyLen := payloadLen - 1
    let (body, s) ← if 0 < bodyLen then readAllOn split bodyLen s else some ([], s)
    some (⟨⟨typeByte.headD 0⟩, body⟩, s)

/-- `read_frame` が偽を返すまで読むと、frame の列 `fs` が出る。 -/
inductive ReadsFrames (split : Nat → Nat) : Socket → List Frame → Prop
  | stop {s : Socket} (h : readFrameOn split s = none) : ReadsFrames split s []
  | frame {s s' : Socket} {f : Frame} {fs : List Frame} (h : readFrameOn split s = some (f, s'))
      (hrest : ReadsFrames split s' fs) : ReadsFrames split s (f :: fs)

/-- stream の最初の `n` byte に丸ごと入っている frame。 -/
def wholeFrames : List Frame → (n : Nat) → List Frame
  | [], _ => []
  | f :: fs, n =>
    if f.bytes.length ≤ n then f :: wholeFrames fs (n - f.bytes.length) else []

end Plin
