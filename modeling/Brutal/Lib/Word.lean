import Mathlib.Data.Nat.Bitwise
import Mathlib.Tactic.Common

/-!
# Masks on 64-bit words

What masking with `align - 1` and its complement means for the value of a word, when `align` is a
power of two, and what a field of a word is.
-/

namespace Brutal.Lib

/-- Clearing the low bits of a word rounds it down to a multiple of the power of two. -/
theorem toNat_and_not_mask {word align : UInt64} {k : ℕ} (halign : align.toNat = 2 ^ k) :
    (word &&& ~~~(align - 1)).toNat = word.toNat / 2 ^ k * 2 ^ k := by
  have hword := word.toNat_lt
  have hlt : 2 ^ k < 2 ^ 64 := halign ▸ align.toNat_lt
  have hk : k < 64 := (Nat.pow_lt_pow_iff_right (by decide)).1 hlt
  have hmask : (align - 1).toNat = 2 ^ k - 1 := by
    rw [UInt64.toNat_sub_of_le, halign]
    · rfl
    · rw [UInt64.le_iff_toNat_le, halign]
      exact Nat.one_le_two_pow
  apply Nat.eq_of_testBit_eq
  intro i
  rw [UInt64.toNat_and, Nat.testBit_and, UInt64.toNat_not, hmask]
  have hnot : (UInt64.size - 1 - (2 ^ k - 1)).testBit i = (decide (i < 64) && !decide (i < k)) := by
    have hsub : UInt64.size - 1 - (2 ^ k - 1) = 2 ^ 64 - ((2 ^ k - 1) + 1) := by
      simp only [UInt64.size]
      omega
    rw [hsub, Nat.testBit_two_pow_sub_succ (by omega), Nat.testBit_two_pow_sub_one]
  rw [hnot, Nat.testBit_mul_two_pow, Nat.testBit_div_two_pow]
  by_cases hi : k ≤ i
  · rw [Nat.sub_add_cancel hi]
    by_cases h64 : i < 64
    · simp [hi, h64]
    · have hbit : word.toNat.testBit i = false :=
        Nat.testBit_eq_false_of_lt
          (lt_of_lt_of_le hword (Nat.pow_le_pow_right (by decide) (by omega)))
      simp [hbit]
  · simp [hi, Nat.lt_of_not_le hi]

/-- A field of `width` bits at position `k` of a word. -/
theorem toNat_and_shift_field {word mask shift : UInt64} {k width : ℕ} (hshift : shift.toNat = k)
    (hmask : mask.toNat = 2 ^ width - 1) (hk : k + width ≤ 64) (hwidth : 0 < width) :
    ((word &&& (mask <<< shift)) >>> shift).toNat = word.toNat / 2 ^ k % 2 ^ width := by
  have hmod : shift.toNat % 64 = k := by omega
  apply Nat.eq_of_testBit_eq
  intro i
  rw [UInt64.toNat_shiftRight, UInt64.toNat_and, UInt64.toNat_shiftLeft, hmod, hmask,
    Nat.testBit_shiftRight, Nat.testBit_and, Nat.testBit_mod_two_pow, Nat.testBit_mod_two_pow,
    Nat.testBit_shiftLeft, Nat.testBit_two_pow_sub_one, Nat.testBit_div_two_pow]
  have hsub : k + i - k = i := by omega
  rw [hsub, Nat.add_comm i k]
  by_cases hi : i < width
  · simp [hi, show k + i < 64 by omega]
  · simp [hi]

/-- Dropping the low bits of a multiple of a power of two and putting zeros there changes
nothing. -/
theorem shift_roundtrip {word shift : UInt64} {k : ℕ} (hshift : shift.toNat = k) (hk : k < 64)
    (haligned : word.toNat % 2 ^ k = 0) : (word >>> shift) <<< shift = word := by
  have hmod : shift.toNat % 64 = k := by omega
  have hword := word.toNat_lt
  rw [← UInt64.toNat_inj, UInt64.toNat_shiftLeft, UInt64.toNat_shiftRight, hmod,
    Nat.shiftLeft_eq, Nat.shiftRight_eq_div_pow,
    Nat.div_mul_cancel (Nat.dvd_of_mod_eq_zero haligned), Nat.mod_eq_of_lt hword]

end Brutal.Lib
