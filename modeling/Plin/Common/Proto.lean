import Plin.Common.Rpc
import Plin.Index.Key

/-!
# 本文の組み立てと読み出し（`proto.h`）

本文の整数と `double` は `memcpy` で写される。`append_*`、`read_*`、`make_fetch_resp` は三つの process に
同じ本体で書かれている。
-/

namespace Plin

open Infra

/-- `Status`。 -/
inductive Status where
  | ok
  | notFound
  | paramStale
  | notImplemented
  | error
  deriving DecidableEq

def Status.byte : Status → UInt8
  | .ok => 0
  | .notFound => 1
  | .paramStale => 2
  | .notImplemented => 3
  | .error => 255

/-- `append_u32`。 -/
def appendU32 (b : Bytes) (v : Nat) : Bytes := b ++ leBytes 4 v

/-- `append_u64`。 -/
def appendU64 (b : Bytes) (v : Payload) : Bytes := b ++ leBytes 8 v.toNat

/-- `append_double`。 -/
def appendDouble (b : Bytes) (v : Key) : Bytes := b ++ leBytes 8 v.bits

/-- `read_u32`。 -/
def readU32 (b : Bytes) (off : Nat) : Option Nat :=
  if off + 4 ≤ b.length then some (ofLeBytes ((b.drop off).take 4)) else none

/-- `read_double`。外側の `none` は長さが足りないこと、内側の `none` は NaN である。 -/
def readDouble (b : Bytes) (off : Nat) : Option (Option Key) :=
  if off + 8 ≤ b.length then some (Key.ofBits (ofLeBytes ((b.drop off).take 8))) else none

/-- `make_fetch_resp`。最後の byte は `param_stale` である。 -/
def makeFetchResp (status : Status) (payload : Payload) : Frame :=
  ⟨.edgeFetchResp, appendU64 [status.byte] payload ++ [0]⟩

end Plin
