import Plin.Index.Utils

/-!
# 丸めの無い演算

`Arith` の有理数による実現。丸めが起きないので、model の性質を計算で確かめるときに使う。
`double` と違うのは、0 で割ると 0 になるところ（鍵が一つの node でしか起きない）と、`int64_t` に収まらない値も
そのまま切り捨てるところである。
-/

namespace Plin

/-- 0 の方向への切り捨て。 -/
def truncRat (q : ℚ) : Int := q.num.tdiv q.den

instance : Arith ℚ where
  ofKey := Key.toRat
  ofNat n := n
  lt a b := a < b
  toInt64 := truncRat
  fitsInt64 q := decide (-2 ^ 63 ≤ truncRat q ∧ truncRat q < 2 ^ 63)
  toFloat q := q

end Plin
