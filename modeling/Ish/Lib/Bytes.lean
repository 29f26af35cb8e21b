import Mathlib.Data.List.Basic
import Mathlib.Tactic.Ring

/-!
# Strings and numbers in bytes

`leBytes` and `leNat` are the little-endian bytes of a number; `cstr` is a string up to its zero.
-/

namespace Ish.Lib

/-- The bytes before the first zero. -/
def cstr (l : List UInt8) : List UInt8 := l.takeWhile (· != 0)

/-- The `n` low bytes of a number, the lowest first. -/
def leBytes : Nat → Nat → List UInt8
  | 0, _ => []
  | n + 1, v => UInt8.ofNat v :: leBytes n (v / 256)

/-- The number of bytes with the lowest first. -/
def leNat : List UInt8 → Nat
  | [] => 0
  | b :: bs => b.toNat + 256 * leNat bs

@[simp]
theorem length_leBytes (n v : Nat) : (leBytes n v).length = n := by
  induction n generalizing v with
  | zero => rfl
  | succ n ih => rw [leBytes, List.length_cons, ih]

/-- The bytes of a number give its low part. -/
theorem leNat_leBytes (n v : Nat) : leNat (leBytes n v) = v % 256 ^ n := by
  induction n generalizing v with
  | zero => rw [leBytes, leNat, pow_zero, Nat.mod_one]
  | succ n ih =>
    have hbyte : (UInt8.ofNat v).toNat = v % 256 := rfl
    rw [leBytes, leNat, ih, hbyte, pow_succ, Nat.mul_comm (256 ^ n) 256, Nat.mod_mul]

theorem leBytes_leNat (bs : List UInt8) : leBytes bs.length (leNat bs) = bs := by
  induction bs with
  | nil => rfl
  | cons b bs ih =>
    have hdiv : (b.toNat + 256 * leNat bs) / 256 = leNat bs := by have := b.toNat_lt; omega
    have hbyte : UInt8.ofNat (b.toNat + 256 * leNat bs) = b := by
      refine UInt8.toNat_inj.1 ?_
      have := b.toNat_lt
      rw [UInt8.toNat_ofNat']
      omega
    rw [List.length_cons, leNat, leBytes, hdiv, hbyte, ih]

end Ish.Lib
