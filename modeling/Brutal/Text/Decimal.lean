import Brutal.Text.Emit
import Mathlib.Data.Nat.Digits.Lemmas
import Mathlib.Tactic.IntervalCases

/-!
# Decimal numbers

What the formatted output writes for a number, the scanner reads again.
-/

namespace Brutal.Text

open Base Lib

/-- The digits of a number, with one digit for zero. -/
def decimal (n : ℕ) : List UInt8 :=
  if n = 0 then [48] else ((Nat.digits 10 n).map fun d ↦ UInt8.ofNat (48 + d)).reverse

/-- The text of a number: its digits behind the sign of a negative one. -/
def numberText (n : ℤ) : List UInt8 := (if n < 0 then [45] else []) ++ decimal n.natAbs

theorem decimal_of_lt {n : ℕ} (h : n < 10) : decimal n = [UInt8.ofNat (48 + n)] := by
  by_cases hzero : n = 0
  · rw [hzero]
    rfl
  · rw [decimal, if_neg hzero, Nat.digits_of_lt 10 n hzero h]
    rfl

/-- The last digit of a number stands behind the digits of its tenth. -/
theorem decimal_of_le {n : ℕ} (h : 10 ≤ n) :
    decimal n = decimal (n / 10) ++ [UInt8.ofNat (48 + n % 10)] := by
  have htenth : n / 10 ≠ 0 := by omega
  rw [decimal, if_neg (by omega), decimal, if_neg htenth,
    Nat.digits_def' (by decide) (by omega), List.map_cons, List.reverse_cons]

/-- A property of one digit, and of a text with one more digit, holds of every number. -/
theorem decimal_induction {motive : ℕ → Prop} (lt : ∀ n, n < 10 → motive n)
    (le : ∀ n, 10 ≤ n → motive (n / 10) → motive n) (n : ℕ) : motive n := by
  induction n using Nat.strong_induction_on with
  | _ n ih =>
    by_cases h : n < 10
    · exact lt n h
    · exact le n (by omega) (ih (n / 10) (by omega))

theorem isdigit_ofNat {d : ℕ} (h : d < 10) : isdigit (UInt8.ofNat (48 + d)) = true := by
  interval_cases d <;> rfl

theorem toNat_ofNat_digit {d : ℕ} (h : d < 10) : (UInt8.ofNat (48 + d)).toNat = 48 + d :=
  UInt8.toNat_ofNat_of_lt' (show 48 + d < 256 by omega)

theorem decimal_ne_nil (n : ℕ) : decimal n ≠ [] := by
  induction n using decimal_induction with
  | lt n h => simp [decimal_of_lt h]
  | le n h ih => simp [decimal_of_le h]

/-- Every byte of a number is a digit. -/
theorem isdigit_of_mem_decimal (n : ℕ) : ∀ byte ∈ decimal n, isdigit byte = true := by
  induction n using decimal_induction with
  | lt n h =>
    intro byte hbyte
    rw [decimal_of_lt h, List.mem_singleton] at hbyte
    rw [hbyte]
    exact isdigit_ofNat h
  | le n h ih =>
    intro byte hbyte
    rw [decimal_of_le h, List.mem_append, List.mem_singleton] at hbyte
    cases hbyte with
    | inl hbyte => exact ih byte hbyte
    | inr hbyte =>
      rw [hbyte]
      exact isdigit_ofNat (Nat.mod_lt n (by decide))

theorem length_decimal (n : ℕ) : (decimal n).length = max 1 (Nat.digits 10 n).length := by
  by_cases hzero : n = 0
  · rw [hzero]
    rfl
  · have hlength : (Nat.digits 10 n).length ≠ 0 := by
      rw [Ne, List.length_eq_zero_iff]
      exact Nat.digits_ne_nil_iff_ne_zero.2 hzero
    rw [decimal, if_neg hzero, List.length_reverse, List.length_map]
    omega

/-- The format of a place without options. -/
def fmtDefault : Fmt := ⟨.none, .default, 0, fmtPrecisionDefault, 32, false, false⟩

theorem fmtDigit_default {d : ℕ} (h : d < 10) : fmtDigit fmtDefault d = UInt8.ofNat (48 + d) := by
  interval_cases d <;> rfl

theorem fmtDigits_default (n : ℕ) (sign : List UInt8) :
    fmtDigits fmtDefault n sign = sign.reverse ++ decimal n := by
  have hdigits : (Nat.digits 10 n).map (fmtDigit fmtDefault) =
      (Nat.digits 10 n).map fun d ↦ UInt8.ofNat (48 + d) := by
    apply List.map_congr_left
    intro d hd
    exact fmtDigit_default (Nat.digits_lt_base (by decide) hd)
  by_cases hzero : n = 0
  · rw [hzero]
    simp [fmtDigits, fmtPrecision, fmtDefault, fmtPrecisionDefault, decimal]
  · have hlength : (Nat.digits 10 n).length ≠ 0 := by
      rw [Ne, List.length_eq_zero_iff]
      exact Nat.digits_ne_nil_iff_ne_zero.2 hzero
    have hnone : 1 - (Nat.digits 10 n).length = 0 := by omega
    rw [decimal, if_neg hzero, ← hdigits]
    simp [fmtDigits, fmtPrecision, fmtDefault, fmtBase, hnone]

theorem length_decimal_le {n : ℕ} (h : n < 2 ^ 64) : (decimal n).length ≤ 20 := by
  have hdigits : (Nat.digits 10 n).length ≤ 20 := by
    rw [Nat.digits_length_le_iff (by decide)]
    omega
  rw [length_decimal]
  omega

/-- The text of a number of a `long` fits in the buffer. -/
theorem length_numberText_le {n : ℤ} (h : IsLong n) : (numberText n).length ≤ fmtBufSize := by
  have hdigits := length_decimal_le (show n.natAbs < 2 ^ 64 by unfold IsLong at h; omega)
  have hsign : (if n < 0 then [(45 : UInt8)] else []).length ≤ 1 := by
    split <;> decide
  rw [numberText, List.length_append, fmtBufSize]
  omega

/-- A number is written with its sign if it fits in the buffer, and the number that has no negation
is not written. -/
theorem fmtSigned_default (n : ℤ) :
    fmtSigned fmtDefault n =
      if n = -2 ^ 63 then .error .overflow
      else if (numberText n).length ≤ fmtBufSize then .ok (numberText n)
      else .error .outOfBounds := by
  rw [fmtSigned]
  by_cases hmin : n = -2 ^ 63
  · rw [if_pos hmin, if_pos hmin]
  · have hsign : (if n < 0 then [(45 : UInt8)]
        else if fmtDefault.prefixPlus then [43] else []).reverse = if n < 0 then [45] else [] := by
      split <;> rfl
    rw [if_neg hmin, if_neg hmin, fmtNumber_eq, fmtDigits_default, hsign, ← numberText]

/-- The digits of a number that fits are read as that number. -/
theorem foldlM_scanDigit (n : ℕ) (h : n < 2 ^ 63) :
    (decimal n).foldlM scanDigit 0 = .ok (n : ℤ) := by
  induction n using decimal_induction with
  | lt n hlt =>
    have hlong : IsLong (0 * 10 + (((48 + n : ℕ) : ℤ) - 48)) := by
      constructor <;> push_cast <;> omega
    rw [decimal_of_lt hlt, List.foldlM_cons, scanDigit, toNat_ofNat_digit hlt, if_pos hlong]
    change Except.ok _ = _
    congr 1
    push_cast
    omega
  | le n hle ih =>
    have hmod := Nat.mod_lt n (show 0 < 10 by decide)
    have hlong : IsLong (((n / 10 : ℕ) : ℤ) * 10 + (((48 + n % 10 : ℕ) : ℤ) - 48)) := by
      constructor <;> push_cast <;> omega
    rw [decimal_of_le hle, List.foldlM_append, ih (by omega), ok_bind, List.foldlM_cons, scanDigit,
      toNat_ofNat_digit hmod, if_pos hlong]
    change Except.ok _ = _
    congr 1
    push_cast
    omega

theorem not_isdigit_minus : isdigit 45 = false := rfl

/-- What is written for a number is read as that number, in front of anything but a digit. -/
theorem scanNextInt_numberText {n : ℤ} (hlong : IsLong n) (hmin : n ≠ -2 ^ 63) {rest : List UInt8}
    (hrest : ∀ byte ∈ rest.head?, isdigit byte = false) :
    scanNextInt ⟨numberText n ++ rest, false⟩ = .ok (some n, ⟨rest, false⟩) := by
  have hdigits := isdigit_of_mem_decimal n.natAbs
  have habs : n.natAbs < 2 ^ 63 := by
    unfold IsLong at hlong
    omega
  have heat := scanEatMatch_append hdigits hrest
  have hvalue := foldlM_scanDigit n.natAbs habs
  obtain ⟨digit, digits, hcons⟩ := List.exists_cons_of_ne_nil (decimal_ne_nil n.natAbs)
  have hdigit : isdigit digit = true := hdigits digit (by rw [hcons]; exact List.mem_cons_self)
  by_cases hneg : n < 0
  · have hsign : (scanPeek ⟨45 :: (decimal n.natAbs ++ rest), false⟩ 0 = 45 &&
        isdigit (scanPeek ⟨45 :: (decimal n.natAbs ++ rest), false⟩ 1)) = true := by
      rw [hcons]
      simpa [scanPeek] using hdigit
    have hnumber : ((n.natAbs : ℤ) * -1) = n := by omega
    rw [numberText, if_pos hneg, List.singleton_append, List.cons_append, scanNextInt, hsign]
    simp only [if_true, scanNext_cons, heat]
    rw [hvalue, ok_bind, hnumber]
    rfl
  · have hsign : (scanPeek ⟨decimal n.natAbs ++ rest, false⟩ 0 = 45 &&
        isdigit (scanPeek ⟨decimal n.natAbs ++ rest, false⟩ 1)) = false := by
      have hne : digit ≠ 45 := by
        intro heq
        rw [heq, not_isdigit_minus] at hdigit
        cases hdigit
      rw [hcons]
      simp [scanPeek, hne]
    have hnumber : (n.natAbs : ℤ) = n := by omega
    have hsome : (decimal n.natAbs).isEmpty = false := by
      rw [hcons]
      rfl
    rw [numberText, if_neg hneg, List.nil_append, scanNextInt, hsign]
    simp only [Bool.false_eq_true, if_false, heat]
    rw [hvalue, ok_bind, hsome, hnumber]
    rfl

end Brutal.Text
