import Brutal.Hash.Crc32
import Mathlib.Data.Nat.Bitwise
import Mathlib.Logic.Function.Iterate

/-!
# The checksum bit by bit

The table of `crc32.c` has the remainders of four bits.  A step of the register is linear for the
exclusive or, and so four bits of the register are its upper part, which only moves down, and the
remainder of its lower part, which is in the table.
-/

namespace Brutal.Hash

open Io

/-- The register after one bit, for the reflected polynomial. -/
def crcBit (crc : UInt32) : UInt32 :=
  if crc &&& 1 = 1 then (crc >>> 1) ^^^ 0xEDB88320 else crc >>> 1

/-- The register after the eight bits of a byte. -/
def crcBits (crc : UInt32) (byte : UInt8) : UInt32 := crcBit^[8] (crc ^^^ byte.toUInt32)

/-- The CRC-32 of a string, bit by bit. -/
def crc32Bitwise (data : List UInt8) : UInt32 := data.foldl crcBits 0xFFFFFFFF ^^^ 0xFFFFFFFF

theorem toNat_and_one (x : UInt32) : (x &&& 1).toNat = x.toNat % 2 := by
  rw [UInt32.toNat_and]
  exact Nat.and_one_is_mod _

theorem and_one_cases (x : UInt32) : x &&& 1 = 0 ∨ x &&& 1 = 1 := by
  have hbit := toNat_and_one x
  cases Nat.mod_two_eq_zero_or_one x.toNat with
  | inl h => exact Or.inl (UInt32.toNat_inj.mp (by rw [hbit, h]; rfl))
  | inr h => exact Or.inr (UInt32.toNat_inj.mp (by rw [hbit, h]; rfl))

theorem crcBit_of_zero {x : UInt32} (h : x &&& 1 = 0) : crcBit x = x >>> 1 :=
  if_neg (by rw [h]; decide)

theorem crcBit_of_one {x : UInt32} (h : x &&& 1 = 1) : crcBit x = (x >>> 1) ^^^ 0xEDB88320 :=
  if_pos h

/-- A step of the register is linear. -/
theorem crcBit_xor (x y : UInt32) : crcBit (x ^^^ y) = crcBit x ^^^ crcBit y := by
  have hand : (x ^^^ y) &&& 1 = (x &&& 1) ^^^ (y &&& 1) := by
    apply UInt32.toNat_inj.mp
    rw [UInt32.toNat_and, UInt32.toNat_xor, UInt32.toNat_xor, UInt32.toNat_and, UInt32.toNat_and,
      Nat.and_xor_distrib_right]
  cases and_one_cases x with
  | inl hx =>
    rw [crcBit_of_zero hx]
    cases and_one_cases y with
    | inl hy =>
      rw [hx, hy] at hand
      rw [crcBit_of_zero hy, crcBit_of_zero hand, UInt32.shiftRight_xor]
    | inr hy =>
      rw [hx, hy] at hand
      rw [crcBit_of_one hy, crcBit_of_one hand, UInt32.shiftRight_xor, UInt32.xor_assoc]
  | inr hx =>
    rw [crcBit_of_one hx]
    cases and_one_cases y with
    | inl hy =>
      rw [hx, hy] at hand
      rw [crcBit_of_zero hy, crcBit_of_one hand, UInt32.shiftRight_xor]
      ac_rfl
    | inr hy =>
      rw [hx, hy] at hand
      have hcancel : ∀ a b p : UInt32, a ^^^ p ^^^ (b ^^^ p) = a ^^^ b := by
        intro a b p
        calc a ^^^ p ^^^ (b ^^^ p) = a ^^^ b ^^^ (p ^^^ p) := by ac_rfl
          _ = a ^^^ b := by rw [UInt32.xor_self, UInt32.xor_zero]
      rw [crcBit_of_one hy, crcBit_of_zero hand, UInt32.shiftRight_xor, hcancel]

theorem iterate_crcBit_xor (n : ℕ) (x y : UInt32) :
    crcBit^[n] (x ^^^ y) = crcBit^[n] x ^^^ crcBit^[n] y := by
  induction n generalizing x y with
  | zero => rfl
  | succ n ih => rw [Function.iterate_succ_apply, Function.iterate_succ_apply,
      Function.iterate_succ_apply, crcBit_xor, ih]

/-- Bits that are zero are only moved out of the register. -/
theorem iterate_crcBit_of_mul {n m : ℕ} {x : UInt32} (h : x.toNat = 2 ^ n * m) :
    (crcBit^[n] x).toNat = m := by
  induction n generalizing x with
  | zero => rw [Function.iterate_zero_apply, h, Nat.pow_zero, Nat.one_mul]
  | succ n ih =>
    have hdouble : x.toNat = 2 * (2 ^ n * m) := by rw [h, Nat.pow_succ', Nat.mul_assoc]
    have hzero : x &&& 1 = 0 := by
      apply UInt32.toNat_inj.mp
      rw [toNat_and_one, hdouble, Nat.mul_mod_right]
      rfl
    rw [Function.iterate_succ_apply, crcBit_of_zero hzero]
    apply ih
    rw [UInt32.toNat_shiftRight, show (1 : UInt32).toNat % 32 = 1 from rfl,
      Nat.shiftRight_eq_div_pow, hdouble, Nat.pow_one, Nat.mul_div_cancel_left _ Nat.two_pos]

/-- What is left of a number without its lowest bits. -/
theorem xor_mod_two_pow (n k : ℕ) : n ^^^ n % 2 ^ k = 2 ^ k * (n / 2 ^ k) := by
  apply Nat.eq_of_testBit_eq
  intro i
  rw [Nat.testBit_xor, Nat.testBit_mod_two_pow, Nat.mul_comm, Nat.testBit_mul_two_pow,
    Nat.testBit_div_two_pow]
  by_cases hi : k ≤ i
  · simp [hi, Nat.not_lt.mpr hi]
  · simp [hi, Nat.lt_of_not_le hi]

/-- The table has the remainders of four bits. -/
theorem crc32tab_eq : ∀ n < 16, crc32tab.getD n 0 = crcBit^[4] (UInt32.ofNat n) := by decide

theorem crc32Nibble_eq (crc : UInt32) : crc32Nibble crc = crcBit^[4] crc := by
  have hlow : (crc &&& 0x0F).toNat = crc.toNat % 2 ^ 4 := by
    rw [UInt32.toNat_and]
    exact Nat.and_two_pow_sub_one_eq_mod crc.toNat 4
  have hlt : (crc &&& 0x0F).toNat < 16 := by
    rw [hlow]
    exact Nat.mod_lt _ (by decide)
  have hsplit : crc = (crc &&& 0x0F) ^^^ (crc ^^^ (crc &&& 0x0F)) := by
    calc crc = crc ^^^ ((crc &&& 0x0F) ^^^ (crc &&& 0x0F)) := by
          rw [UInt32.xor_self, UInt32.xor_zero]
      _ = (crc &&& 0x0F) ^^^ (crc ^^^ (crc &&& 0x0F)) := by ac_rfl
  have hhigh : crcBit^[4] (crc ^^^ (crc &&& 0x0F)) = crc >>> 4 := by
    apply UInt32.toNat_inj.mp
    have hmul : (crc ^^^ (crc &&& 0x0F)).toNat = 2 ^ 4 * (crc.toNat / 2 ^ 4) := by
      rw [UInt32.toNat_xor, hlow, xor_mod_two_pow]
    rw [iterate_crcBit_of_mul hmul, UInt32.toNat_shiftRight,
      show (4 : UInt32).toNat % 32 = 4 from rfl, Nat.shiftRight_eq_div_pow]
  calc crc32Nibble crc = crcBit^[4] (crc &&& 0x0F) ^^^ (crc >>> 4) := by
        rw [crc32Nibble, crc32tab_eq _ hlt, UInt32.ofNat_toNat]
    _ = crcBit^[4] ((crc &&& 0x0F) ^^^ (crc ^^^ (crc &&& 0x0F))) := by
        rw [iterate_crcBit_xor, hhigh]
    _ = crcBit^[4] crc := by rw [← hsplit]

theorem crc32Byte_eq (crc : UInt32) (byte : UInt8) : crc32Byte crc byte = crcBits crc byte := by
  rw [crc32Byte, crc32Nibble_eq, crc32Nibble_eq, crcBits, ← Function.iterate_add_apply]

theorem crc32_eq_crc32Bitwise (data : List UInt8) : crc32 data = crc32Bitwise data := by
  have hbyte : crc32Byte = crcBits := by
    funext crc byte
    exact crc32Byte_eq crc byte
  rw [crc32, crc32Impl, hbyte, crc32Bitwise]

/-- Writes of some chunks, with what they answer. -/
def writeChunks {ω : Type} [IoWriter ω] : List (List UInt8) → ω → List (IoResult ℕ) × ω
  | [], writer => ([], writer)
  | chunk :: chunks, writer =>
    let (result, writer) := IoWriter.write writer chunk
    let (results, writer) := writeChunks chunks writer
    (result :: results, writer)

/-- Reads of some sizes, with what they answer. -/
def readChunks {ρ : Type} [IoReader ρ] : List ℕ → ρ → List (IoResult (List UInt8)) × ρ
  | [], reader => ([], reader)
  | size :: sizes, reader =>
    let (result, reader) := IoReader.read reader size
    let (results, reader) := readChunks sizes reader
    (result :: results, reader)

/-- The bytes that were read. -/
def delivered (results : List (IoResult (List UInt8))) : List UInt8 :=
  results.flatMap fun result ↦ result.toOption.getD []

theorem writeChunks_crc {ω : Type} [IoWriter ω] (self : Crc32 ω) (chunks : List (List UInt8)) :
    (writeChunks chunks self).1 = (writeChunks chunks self.base).1 ∧
      (writeChunks chunks self).2.base = (writeChunks chunks self.base).2 ∧
        (writeChunks chunks self).2.crc = crc32Impl self.crc chunks.flatten := by
  induction chunks generalizing self with
  | nil => exact ⟨rfl, rfl, rfl⟩
  | cons chunk chunks ih =>
    obtain ⟨hresults, hbase, hcrc⟩ := ih (IoWriter.write self chunk).2
    have hwrite : (IoWriter.write self chunk).2.base = (IoWriter.write self.base chunk).2 := rfl
    have htaken : (IoWriter.write self chunk).2.crc = crc32Impl self.crc chunk := rfl
    refine ⟨?_, ?_, ?_⟩
    · rw [hwrite] at hresults
      exact congrArg ((IoWriter.write self.base chunk).1 :: ·) hresults
    · rw [hwrite] at hbase
      exact hbase
    · rw [htaken] at hcrc
      rw [List.flatten_cons, crc32Impl_append]
      exact hcrc

theorem readChunks_crc {ρ : Type} [IoReader ρ] (self : Crc32 ρ) (sizes : List ℕ) :
    (readChunks sizes self).1 = (readChunks sizes self.base).1 ∧
      (readChunks sizes self).2.base = (readChunks sizes self.base).2 ∧
        (readChunks sizes self).2.crc =
          crc32Impl self.crc (delivered (readChunks sizes self.base).1) := by
  induction sizes generalizing self with
  | nil => exact ⟨rfl, rfl, rfl⟩
  | cons size sizes ih =>
    obtain ⟨hresults, hbase, hcrc⟩ := ih (IoReader.read self size).2
    have hread : (IoReader.read self size).1 = (IoReader.read self.base size).1 ∧
        (IoReader.read self size).2.base = (IoReader.read self.base size).2 ∧
          (IoReader.read self size).2.crc = crc32Impl self.crc
            ((IoReader.read self.base size).1.toOption.getD []) := by
      change (crc32Read self size).1 = _ ∧ (crc32Read self size).2.base = _ ∧
        (crc32Read self size).2.crc = _
      rw [crc32Read]
      cases IoReader.read self.base size with
      | mk result base =>
        cases result with
        | error error => exact ⟨rfl, rfl, rfl⟩
        | ok data => exact ⟨rfl, rfl, rfl⟩
    obtain ⟨hresult, hnext, htaken⟩ := hread
    rw [hnext] at hresults hbase hcrc
    rw [htaken, ← crc32Impl_append] at hcrc
    refine ⟨?_, hbase, hcrc⟩
    exact congrArg₂ List.cons hresult hresults

/-- A checksum hands its writes and reads on to its base and answers what the base answers.  The one
that a writer has taken is that of all the chunks, and the one that a reader has taken is that of
the bytes that its base delivered; both are the ones of the definition by bits. -/
theorem crc32_chunks :
    (∀ data, crc32 data = crc32Bitwise data) ∧
      (∀ {ω : Type} [IoWriter ω] (base : ω) (chunks : List (List UInt8)),
        (writeChunks chunks (crc32Init base)).1 = (writeChunks chunks base).1 ∧
          (writeChunks chunks (crc32Init base)).2.base = (writeChunks chunks base).2 ∧
            crc32Get (writeChunks chunks (crc32Init base)).2 = crc32 chunks.flatten) ∧
        ∀ {ρ : Type} [IoReader ρ] (base : ρ) (sizes : List ℕ),
          (readChunks sizes (crc32Init base)).1 = (readChunks sizes base).1 ∧
            (readChunks sizes (crc32Init base)).2.base = (readChunks sizes base).2 ∧
              crc32Get (readChunks sizes (crc32Init base)).2 =
                crc32 (delivered (readChunks sizes base).1) := by
  refine ⟨crc32_eq_crc32Bitwise, fun base chunks ↦ ?_, fun base sizes ↦ ?_⟩
  · obtain ⟨hresults, hbase, hcrc⟩ := writeChunks_crc (crc32Init base) chunks
    refine ⟨hresults, hbase, ?_⟩
    rw [crc32Get, hcrc]
    rfl
  · obtain ⟨hresults, hbase, hcrc⟩ := readChunks_crc (crc32Init base) sizes
    refine ⟨hresults, hbase, ?_⟩
    rw [crc32Get, hcrc]
    rfl

end Brutal.Hash
