import Mathlib.Data.List.Basic
import Mathlib.Tactic.Ring

/-!
# 整数の byte 列

`memcpy` は host の little endian で、`htonl` を通したものは big endian で整数を並べる。
**`w` byte に並べた整数は、読み戻すと `256 ^ w` を法として元に戻る**（`ofLeBytes_leBytes`）。
-/

namespace Plin.Infra

/-- 一つの byte。 -/
abbrev Bytes := List UInt8

/-- 下位の byte から順に `w` 個。 -/
def leBytes : Nat → Nat → Bytes
  | 0, _ => []
  | w + 1, n => UInt8.ofNat n :: leBytes w (n / 256)

def ofLeBytes : Bytes → Nat
  | [] => 0
  | b :: bs => b.toNat + 256 * ofLeBytes bs

/-- 上位の byte から順に `w` 個。 -/
def beBytes (w n : Nat) : Bytes := (leBytes w n).reverse

def ofBeBytes (bs : Bytes) : Nat := ofLeBytes bs.reverse

@[simp] theorem length_leBytes (w n : Nat) : (leBytes w n).length = w := by
  induction w generalizing n with
  | zero => rfl
  | succ w ih => rw [leBytes, List.length_cons, ih]

theorem ofLeBytes_leBytes (w n : Nat) : ofLeBytes (leBytes w n) = n % 256 ^ w := by
  induction w generalizing n with
  | zero => rw [pow_zero, Nat.mod_one]; rfl
  | succ w ih =>
    rw [leBytes, ofLeBytes, ih, pow_succ, mul_comm (256 ^ w), Nat.mod_mul]
    rfl

theorem ofLeBytes_lt (bs : Bytes) : ofLeBytes bs < 256 ^ bs.length := by
  induction bs with
  | nil => simp [ofLeBytes]
  | cons b bs ih =>
    have hb := b.toNat_lt
    rw [ofLeBytes, List.length_cons, pow_succ]
    omega

@[simp] theorem length_beBytes (w n : Nat) : (beBytes w n).length = w := by
  rw [beBytes, List.length_reverse, length_leBytes]

theorem ofBeBytes_beBytes (w n : Nat) : ofBeBytes (beBytes w n) = n % 256 ^ w := by
  rw [ofBeBytes, beBytes, List.reverse_reverse, ofLeBytes_leBytes]

end Plin.Infra
