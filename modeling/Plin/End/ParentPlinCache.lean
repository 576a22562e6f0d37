import Plin.Common.Rpc
import Plin.Index.Serialize

/-!
# 親の Edge の parameter の写し（`parent_plin_cache.h` / `make_param_push`）

End は `PLIN_PARAM_PUSH` の本文を表に読み、手元の表と取り替える。読む間に例外が出れば取り替えない。
-/

namespace Plin

open Infra

/-- `make_param_push`。 -/
def makeParamPush (parameter : ParamTable) : Frame := ⟨.plinParamPush, serializeParameter parameter⟩

/-- `ParentPlinCache`。 -/
structure ParentPlinCache where
  parameter : ParamTable
  deriving DecidableEq

namespace ParentPlinCache

/-- `load_from_push`。投げた例外と、後の cache を返す。 -/
def loadFromPush (mem : Memory) (garbage : Nat → UInt64) (cache : ParentPlinCache) (data : Bytes) :
    Option ParamFault × ParentPlinCache :=
  match deserializeParameter mem garbage ⟨data, false⟩ with
  | .ok (params, _) => (none, ⟨params⟩)
  | .error e => (some e, cache)

/-- `predict_pos`。表が空なら -1 を返す。 -/
def predictPos [DoubleBits] (cache : ParentPlinCache) (key : UInt64) : Option Int32 :=
  if cache.parameter = [] then some (-1) else LocalModel.predictPos cache.parameter key

end ParentPlinCache

end Plin
