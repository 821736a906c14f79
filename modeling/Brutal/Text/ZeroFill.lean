import Brutal.Text.Decimal

/-!
# Numbers filled with zeros

`str_to_int` and `str_to_uint` of `libs/brutal-parse/nums.c` on what `fmt_signed` and `fmt_unsigned`
write in base 10 for a width.  The fill stands in front of the sign.
-/

namespace Brutal.Text

open Base Lib

/-- The next value of a number with one more digit, in an `unsigned long`. -/
def scanUintDigit (value : ℕ) (digit : UInt8) : ℕ :=
  (value * 10 % 2 ^ 64 + (digit.toNat - 48)) % 2 ^ 64

/-- `scan_next_uint`, which is never without a result. -/
def scanNextUint (self : Scan) (value : ℕ) : ℕ × Scan :=
  let (digits, self) := scanEatMatch self isdigit
  (digits.foldl scanUintDigit value, self)

/-- `str_to_uint` -/
def strToUint (string : List UInt8) (value : ℕ) : Except Fault ℕ := do
  let scan ← scanInit string
  return (scanNextUint scan value).1

/-- `str_to_int` -/
def strToInt (string : List UInt8) : Except Fault (Option ℤ) := do
  let scan ← scanInit string
  let (value, _) ← scanNextInt scan
  return value

/-- A format in base 10 with a width that is filled with zeros, and no other option. -/
structure ZeroFilled (fmt : Fmt) : Prop where
  base : fmtBase fmt = 10
  fill : fmt.fill = 48
  precision : fmt.precision = fmtPrecisionDefault
  noPrefix : fmt.withPrefix = false
  noPlus : fmt.prefixPlus = false
  width : 0 ≤ fmt.width ∧ fmt.width ≤ 64

/-- The zeros in front of some bytes. -/
def zerosFor (self : Fmt) (bytes : List UInt8) : List UInt8 :=
  List.replicate (self.width.toNat - bytes.length) 48

variable {self : Fmt}

theorem ZeroFilled.fmtDigit (h : ZeroFilled self) {d : ℕ} (hd : d < 10) :
    fmtDigit self d = UInt8.ofNat (48 + d) := by
  rw [Text.fmtDigit, h.base]
  interval_cases d <;> rfl

theorem ZeroFilled.fmtDigits (h : ZeroFilled self) (n : ℕ) {sign : List UInt8} :
    fmtDigits self n sign =
      zerosFor self (sign.reverse ++ decimal n) ++ (sign.reverse ++ decimal n) := by
  have hdigits : (Nat.digits 10 n).map (Text.fmtDigit self) =
      (Nat.digits 10 n).map fun d ↦ UInt8.ofNat (48 + d) := by
    apply List.map_congr_left
    intro d hd
    exact h.fmtDigit (Nat.digits_lt_base (by decide) hd)
  have hfill : fmtPrecision self = (1, 48) := by rw [fmtPrecision, if_pos h.precision, h.fill]
  have hdecimal : (Nat.digits 10 n).map (Text.fmtDigit self) ++
      List.replicate ((1 : ℤ).toNat - ((Nat.digits 10 n).map (Text.fmtDigit self)).length) 48 =
        (decimal n).reverse := by
    rw [hdigits, List.length_map]
    by_cases hzero : n = 0
    · rw [hzero]
      rfl
    · have hlength : (Nat.digits 10 n).length ≠ 0 := by
        rw [Ne, List.length_eq_zero_iff]
        exact Nat.digits_ne_nil_iff_ne_zero.2 hzero
      have hnone : (1 : ℤ).toNat - (Nat.digits 10 n).length = 0 := by omega
      rw [hnone, List.replicate_zero, List.append_nil, decimal, if_neg hzero, List.reverse_reverse]
  rw [Text.fmtDigits, hfill, h.base]
  dsimp only
  rw [hdecimal, h.noPrefix]
  simp only [Bool.false_eq_true, if_false, List.append_nil, List.reverse_append,
    List.reverse_reverse, List.reverse_replicate, zerosFor, List.length_append, List.length_reverse]
  rw [Nat.add_comm]

/-- A number of 64 bits with its fill is written into the buffer. -/
theorem ZeroFilled.fmtNumber (h : ZeroFilled self) {n : ℕ} (hn : n < 2 ^ 64) {sign : List UInt8}
    (hsign : sign.length ≤ 1) :
    fmtNumber self n sign =
      .ok (zerosFor self (sign.reverse ++ decimal n) ++ (sign.reverse ++ decimal n)) := by
  have hdecimal := length_decimal_le hn
  have hwidth := h.width
  rw [fmtNumber_eq, h.fmtDigits n, if_pos]
  simp only [zerosFor, List.length_append, List.length_replicate, List.length_reverse, fmtBufSize]
  omega

theorem length_zerosFor_append (hwidth : 0 ≤ self.width) (bytes : List UInt8) :
    ((zerosFor self bytes ++ bytes).length : ℤ) = max self.width bytes.length := by
  rw [zerosFor, List.length_append, List.length_replicate]
  omega

theorem isdigit_of_mem_zerosFor (bytes : List UInt8) :
    ∀ byte ∈ zerosFor self bytes, isdigit byte = true := by
  intro byte hbyte
  rw [List.eq_of_mem_replicate hbyte]
  rfl

/-- Zeros in front of a number do not change it. -/
theorem foldlM_scanDigit_zeros (count : ℕ) (digits : List UInt8) :
    (List.replicate count 48 ++ digits).foldlM scanDigit 0 = digits.foldlM scanDigit 0 := by
  induction count with
  | zero => rfl
  | succ count ih =>
    have hzero : scanDigit 0 48 = .ok 0 := rfl
    rw [List.replicate_succ, List.cons_append, List.foldlM_cons, hzero]
    exact ih

/-- Digits without a sign are read up to their end. -/
theorem scanNextInt_digits {digits rest : List UInt8} (hne : digits ≠ [])
    (hdigits : ∀ byte ∈ digits, isdigit byte = true)
    (hrest : ∀ byte ∈ rest.head?, isdigit byte = false) :
    scanNextInt ⟨digits ++ rest, false⟩ =
      digits.foldlM scanDigit 0 >>= fun value ↦ .ok (some value, ⟨rest, false⟩) := by
  obtain ⟨digit, tail, rfl⟩ := List.exists_cons_of_ne_nil hne
  have hsign : (scanPeek ⟨digit :: tail ++ rest, false⟩ 0 = 45 &&
      isdigit (scanPeek ⟨digit :: tail ++ rest, false⟩ 1)) = false := by
    have hnot : digit ≠ 45 := by
      intro heq
      have hdigit := hdigits digit List.mem_cons_self
      rw [heq, not_isdigit_minus] at hdigit
      cases hdigit
    have hhead : scanPeek ⟨digit :: tail ++ rest, false⟩ 0 = digit := rfl
    rw [hhead, decide_eq_false hnot, Bool.false_and]
  rw [scanNextInt, hsign]
  simp only [Bool.false_eq_true, if_false, scanEatMatch_append hdigits hrest, List.isEmpty_cons]
  rfl

theorem scanNextInt_zeros (zeros : ℕ) {n : ℕ} (h : n < 2 ^ 63) :
    scanNextInt ⟨List.replicate zeros 48 ++ decimal n, false⟩ =
      .ok (some (n : ℤ), ⟨[], false⟩) := by
  have hdigits : ∀ byte ∈ List.replicate zeros 48 ++ decimal n, isdigit byte = true := by
    intro byte hbyte
    rw [List.mem_append] at hbyte
    cases hbyte with
    | inl hzero =>
      rw [List.eq_of_mem_replicate hzero]
      rfl
    | inr hdigit => exact isdigit_of_mem_decimal n byte hdigit
  have hread := scanNextInt_digits (List.append_ne_nil_of_right_ne_nil _ (decimal_ne_nil n)) hdigits
    (show ∀ byte ∈ ([] : List UInt8).head?, isdigit byte = false from nofun)
  rw [List.append_nil, foldlM_scanDigit_zeros, foldlM_scanDigit n h] at hread
  exact hread

/-- The digits of a number of 64 bits are read as that number. -/
theorem foldl_scanUintDigit (n : ℕ) (h : n < 2 ^ 64) :
    (decimal n).foldl scanUintDigit 0 = n := by
  induction n using decimal_induction with
  | lt n hlt =>
    rw [decimal_of_lt hlt, List.foldl_cons, List.foldl_nil, scanUintDigit, toNat_ofNat_digit hlt]
    omega
  | le n hle ih =>
    have hmod := Nat.mod_lt n (show 0 < 10 by decide)
    rw [decimal_of_le hle, List.foldl_append, ih (by omega), List.foldl_cons, List.foldl_nil,
      scanUintDigit, toNat_ofNat_digit hmod]
    omega

theorem foldl_scanUintDigit_zeros (count : ℕ) (digits : List UInt8) :
    (List.replicate count 48 ++ digits).foldl scanUintDigit 0 = digits.foldl scanUintDigit 0 := by
  induction count with
  | zero => rfl
  | succ count ih =>
    rw [List.replicate_succ, List.cons_append, List.foldl_cons]
    exact ih

/-- What `fmt_signed` writes is read as the number again, and is as long as the width or as the
number, whichever is longer. -/
def SignedReadBack (self : Fmt) (n : ℤ) : Prop :=
  ∃ text, fmtSigned self n = .ok text ∧ strToInt text = .ok (some n) ∧
    (text.length : ℤ) = max self.width (numberText n).length

/-- What `fmt_unsigned` writes is read as the number again, and is as long as the width or as the
number, whichever is longer. -/
def UnsignedReadBack (self : Fmt) (n : ℕ) : Prop :=
  ∃ text, fmtUnsigned self n = .ok text ∧ strToUint text 0 = .ok n ∧
    (text.length : ℤ) = max self.width (decimal n).length

theorem ZeroFilled.length_lt (h : ZeroFilled self) {bytes : List UInt8}
    (hbytes : bytes.length ≤ 21) :
    (zerosFor self bytes ++ bytes).length < 2 ^ 31 := by
  have hwidth := h.width
  have hlength := length_zerosFor_append hwidth.1 bytes
  omega

theorem ZeroFilled.unsigned (h : ZeroFilled self) {n : ℕ} (hn : n < 2 ^ 64) :
    UnsignedReadBack self n := by
  have hwritten := h.fmtNumber hn (show ([] : List UInt8).length ≤ 1 from Nat.zero_le 1)
  rw [List.reverse_nil, List.nil_append] at hwritten
  have hdigits : ∀ byte ∈ zerosFor self (decimal n) ++ decimal n, isdigit byte = true := by
    intro byte hbyte
    rw [List.mem_append] at hbyte
    cases hbyte with
    | inl hzero => exact isdigit_of_mem_zerosFor _ byte hzero
    | inr hdigit => exact isdigit_of_mem_decimal n byte hdigit
  have heat := scanEatMatch_append hdigits
    (show ∀ byte ∈ ([] : List UInt8).head?, isdigit byte = false from nofun)
  rw [List.append_nil] at heat
  refine ⟨_, ?_, ?_, length_zerosFor_append h.width.1 _⟩
  · rw [fmtUnsigned, h.noPlus, if_neg Bool.false_ne_true, hwritten]
  · have hlength := h.length_lt (show (decimal n).length ≤ 21 by
      have := length_decimal_le hn
      omega)
    rw [strToUint, scanInit, if_pos hlength, ok_bind, scanNextUint, heat]
    dsimp only
    rw [zerosFor, foldl_scanUintDigit_zeros, foldl_scanUintDigit n hn]
    rfl

theorem ZeroFilled.signed_of_nonneg (h : ZeroFilled self) {n : ℤ} (hlong : IsLong n)
    (hnonneg : 0 ≤ n) : SignedReadBack self n := by
  have hsmall : n.natAbs < 2 ^ 63 := by
    unfold IsLong at hlong
    omega
  have hnumber : numberText n = decimal n.natAbs := by
    rw [numberText, if_neg (Int.not_lt.mpr hnonneg), List.nil_append]
  have hwritten := h.fmtNumber (show n.natAbs < 2 ^ 64 by omega)
    (show ([] : List UInt8).length ≤ 1 from Nat.zero_le 1)
  rw [List.reverse_nil, List.nil_append] at hwritten
  refine ⟨zerosFor self (decimal n.natAbs) ++ decimal n.natAbs, ?_, ?_, ?_⟩
  · rw [fmtSigned, if_neg (by omega), if_neg (Int.not_lt.mpr hnonneg), h.noPlus,
      if_neg Bool.false_ne_true, hwritten]
  · have hlength := h.length_lt (show (decimal n.natAbs).length ≤ 21 by
      have := length_decimal_le (show n.natAbs < 2 ^ 64 by omega)
      omega)
    rw [strToInt, scanInit, if_pos hlength, ok_bind, zerosFor, scanNextInt_zeros _ hsmall, ok_bind,
      Int.natAbs_of_nonneg hnonneg]
    rfl
  · rw [hnumber]
    exact length_zerosFor_append h.width.1 _

/-- A negative number is written behind its fill. -/
theorem ZeroFilled.fmtSigned_neg (h : ZeroFilled self) {n : ℤ} (hlong : IsLong n)
    (hmin : n ≠ -2 ^ 63) (hneg : n < 0) :
    fmtSigned self n = .ok (zerosFor self (numberText n) ++ numberText n) := by
  have hsmall : n.natAbs < 2 ^ 64 := by
    unfold IsLong at hlong
    omega
  rw [fmtSigned, if_neg hmin, if_pos hneg,
    h.fmtNumber hsmall (show [45].length ≤ 1 from Nat.le_refl 1), numberText,
    if_pos hneg]
  rfl

/-- A negative number comes back exactly when there is no fill. -/
theorem ZeroFilled.signed_of_neg (h : ZeroFilled self) {n : ℤ} (hlong : IsLong n)
    (hmin : n ≠ -2 ^ 63) (hneg : n < 0) :
    SignedReadBack self n ↔ self.width ≤ (numberText n).length := by
  have hdecimal := length_decimal_le (show n.natAbs < 2 ^ 64 by unfold IsLong at hlong; omega)
  have hnumber : numberText n = 45 :: decimal n.natAbs := by
    rw [numberText, if_pos hneg, List.singleton_append]
  have hlength := h.length_lt (show (numberText n).length ≤ 21 by
    rw [hnumber, List.length_cons]
    omega)
  have hread : strToInt (zerosFor self (numberText n) ++ numberText n) =
      scanNextInt ⟨zerosFor self (numberText n) ++ numberText n, false⟩ >>= fun (value, _) ↦
        .ok value := by
    rw [strToInt, scanInit, if_pos hlength, ok_bind]
    rfl
  by_cases hfill : self.width ≤ (numberText n).length
  · have hnone : zerosFor self (numberText n) = [] := by
      rw [zerosFor, show self.width.toNat - (numberText n).length = 0 by omega, List.replicate_zero]
    have hback := scanNextInt_numberText hlong hmin
      (show ∀ byte ∈ ([] : List UInt8).head?, isdigit byte = false from by rintro _ ⟨⟩)
    rw [List.append_nil] at hback
    refine iff_of_true ⟨_, h.fmtSigned_neg hlong hmin hneg, ?_, ?_⟩ hfill
    · rw [hread, hnone, List.nil_append, hback]
      rfl
    · exact length_zerosFor_append h.width.1 _
  · -- Only the fill is read.
    have hzeros : zerosFor self (numberText n) ≠ [] := by
      rw [zerosFor, Ne, List.replicate_eq_nil_iff]
      omega
    have hback := scanNextInt_digits hzeros (isdigit_of_mem_zerosFor _)
      (show ∀ byte ∈ (numberText n).head?, isdigit byte = false by
        rw [hnumber]
        intro byte hbyte
        cases hbyte
        rfl)
    have hzero : (zerosFor self (numberText n)).foldlM scanDigit 0 = .ok 0 := by
      have hdigits := foldlM_scanDigit_zeros (self.width.toNat - (numberText n).length) []
      rw [List.append_nil] at hdigits
      exact hdigits
    rw [hzero, ok_bind] at hback
    refine iff_of_false ?_ hfill
    rintro ⟨text, htext, hvalue, -⟩
    rw [h.fmtSigned_neg hlong hmin hneg] at htext
    cases htext
    rw [hread, hback, ok_bind] at hvalue
    cases hvalue
    exact Int.lt_irrefl 0 hneg

/-- Every unsigned number comes back from its text, and a signed one exactly when it is not
negative, or has a negation and is not filled. -/
theorem fmt_readBack_iff {self : Fmt} (h : ZeroFilled self) :
    (∀ n, IsLong n → (SignedReadBack self n ↔
      0 ≤ n ∨ n ≠ -2 ^ 63 ∧ self.width ≤ (numberText n).length)) ∧
    ∀ n < 2 ^ 64, UnsignedReadBack self n := by
  constructor
  · intro n hlong
    by_cases hnonneg : 0 ≤ n
    · exact iff_of_true (h.signed_of_nonneg hlong hnonneg) (Or.inl hnonneg)
    by_cases hmin : n = -2 ^ 63
    · apply iff_of_false
      · rintro ⟨text, htext, -⟩
        rw [fmtSigned, if_pos hmin] at htext
        cases htext
      · rintro (hpos | ⟨hne, -⟩)
        · exact hnonneg hpos
        · exact hne hmin
    · rw [h.signed_of_neg hlong hmin (Int.not_le.mp hnonneg)]
      constructor
      · exact fun hfit ↦ Or.inr ⟨hmin, hfit⟩
      · rintro (hpos | ⟨-, hfit⟩)
        · exact absurd hpos hnonneg
        · exact hfit
  · exact fun n hn ↦ h.unsigned hn

/-- The format `{04}`. -/
def fourZeros : Fmt := { fmtDefault with width := 4, fill := 48 }

theorem fourZeros_zeroFilled : ZeroFilled fourZeros :=
  ⟨rfl, rfl, rfl, rfl, rfl, by decide⟩

theorem fmt_readBack_fourZeros : ZeroFilled fourZeros ∧
    (∀ n, IsLong n → (SignedReadBack fourZeros n ↔
      0 ≤ n ∨ n ≠ -2 ^ 63 ∧ fourZeros.width ≤ (numberText n).length)) ∧
    ∀ n < 2 ^ 64, UnsignedReadBack fourZeros n :=
  ⟨fourZeros_zeroFilled, fmt_readBack_iff fourZeros_zeroFilled⟩

/-- The text of -5 for a width of four is `00-5`, which is read as zero. -/
theorem fmt_readBack_fails :
    ZeroFilled fourZeros ∧ IsLong (-5) ∧ ¬ SignedReadBack fourZeros (-5) := by
  refine ⟨fourZeros_zeroFilled, by decide, ?_⟩
  rintro ⟨text, htext, hvalue, -⟩
  have hwritten : fmtSigned fourZeros (-5) = .ok [48, 48, 45, 53] := by
    rfl
  rw [hwritten] at htext
  cases htext
  cases hvalue

end Brutal.Text
