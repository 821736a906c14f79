import Mathlib.Algebra.Order.Ring.Nat
import Mathlib.Tactic.Ring

/-!
# Numbers as bytes

A number in a fixed count of bytes, least significant byte first or most significant byte first.
-/

namespace Brutal.Lib

/-- The lowest bytes of a number, least significant first. -/
def leBytes : ℕ → ℕ → List UInt8
  | 0, _ => []
  | count + 1, n => UInt8.ofNat n :: leBytes count (n / 256)

/-- The number that bytes stand for, least significant first. -/
def ofLeBytes : List UInt8 → ℕ
  | [] => 0
  | byte :: rest => byte.toNat + 256 * ofLeBytes rest

@[simp]
theorem length_leBytes (count n : ℕ) : (leBytes count n).length = count := by
  induction count generalizing n with
  | zero => rfl
  | succ count ih => rw [leBytes, List.length_cons, ih]

theorem ofLeBytes_lt (bytes : List UInt8) : ofLeBytes bytes < 256 ^ bytes.length := by
  induction bytes with
  | nil => exact Nat.one_pos
  | cons byte rest ih =>
    have hbyte : byte.toNat < 256 := byte.toNat_lt
    rw [ofLeBytes, List.length_cons, pow_succ']
    omega

theorem ofLeBytes_leBytes (count n : ℕ) : ofLeBytes (leBytes count n) = n % 256 ^ count := by
  induction count generalizing n with
  | zero => rw [leBytes, ofLeBytes, pow_zero, Nat.mod_one]
  | succ count ih =>
    calc
      ofLeBytes (leBytes (count + 1) n) =
          (UInt8.ofNat n).toNat + 256 * (n / 256 % 256 ^ count) := by
        rw [leBytes, ofLeBytes, ih]
      _ = n % 256 + 256 * (n / 256 % 256 ^ count) := by
        rw [UInt8.toNat_ofNat']
      _ = n % (256 * 256 ^ count) := (Nat.mod_mul).symm
      _ = n % 256 ^ (count + 1) := by rw [pow_succ']

theorem ofLeBytes_leBytes_of_lt {count n : ℕ} (h : n < 256 ^ count) :
    ofLeBytes (leBytes count n) = n := by
  rw [ofLeBytes_leBytes, Nat.mod_eq_of_lt h]

/-- The lowest bytes of a number, most significant first. -/
def beBytes (count n : ℕ) : List UInt8 := (leBytes count n).reverse

/-- The number that bytes stand for, most significant first. -/
def ofBeBytes (bytes : List UInt8) : ℕ := ofLeBytes bytes.reverse

@[simp]
theorem length_beBytes (count n : ℕ) : (beBytes count n).length = count := by
  rw [beBytes, List.length_reverse, length_leBytes]

theorem ofBeBytes_lt (bytes : List UInt8) : ofBeBytes bytes < 256 ^ bytes.length := by
  have h := ofLeBytes_lt bytes.reverse
  rw [List.length_reverse] at h
  exact h

theorem ofBeBytes_beBytes_of_lt {count n : ℕ} (h : n < 256 ^ count) :
    ofBeBytes (beBytes count n) = n := by
  rw [ofBeBytes, beBytes, List.reverse_reverse, ofLeBytes_leBytes_of_lt h]

end Brutal.Lib
