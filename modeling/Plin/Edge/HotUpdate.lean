import Plin.Common.Proto

/-!
# `HOT_UPDATE` の中継（`edge_server.cpp`）

Cloud からの `HOT_UPDATE` は、宛先の End の番号の 4 byte に組の列が続く。Edge は番号を取り除いて、その
End の接続に書く。
-/

namespace Plin

open Infra

/-- `handle_cloud_hot_update`。宛先と、End に書く frame。短すぎる frame は捨てる。 -/
def handleCloudHotUpdate (f : Frame) : Option (Nat × Frame) :=
  match readU32 f.body 0 with
  | none => none
  | some target => some (target, ⟨.hotUpdate, f.body.drop 4⟩)

end Plin
