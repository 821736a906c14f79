import Brutal.Io.BitStream
import Mathlib.Algebra.Order.Group.Nat

/-!
# The bits of a stream

What a bit reader over memory has still to give, as a list of bits: those in its buffer, and those
of the bytes that it has not read, the lowest bit of every byte first.
-/

namespace Brutal.Io

open Lib

/-- The lowest bits of a number, from the lowest one on. -/
def natBits : ℕ → ℕ → List Bool
  | 0, _ => []
  | n + 1, value => (value % 2 == 1) :: natBits n (value / 2)

/-- The number with the given bits. -/
def natOfBits : List Bool → ℕ
  | [] => 0
  | bit :: bits => bit.toNat + 2 * natOfBits bits

@[simp] theorem length_natBits (n value : ℕ) : (natBits n value).length = n := by
  induction n generalizing value with
  | zero => rfl
  | succ n ih => rw [natBits, List.length_cons, ih]

theorem natBits_add (m n value : ℕ) :
    natBits (m + n) value = natBits m value ++ natBits n (value / 2 ^ m) := by
  induction m generalizing value with
  | zero => rw [Nat.zero_add, natBits, List.nil_append, Nat.pow_zero, Nat.div_one]
  | succ m ih =>
    rw [Nat.succ_add, natBits, natBits, ih, List.cons_append, Nat.div_div_eq_div_mul,
      Nat.pow_succ, Nat.mul_comm 2]

theorem natOfBits_natBits (n value : ℕ) : natOfBits (natBits n value) = value % 2 ^ n := by
  induction n generalizing value with
  | zero => rw [natBits, natOfBits, Nat.pow_zero, Nat.mod_one]
  | succ n ih =>
    have hbit : (value % 2 == 1).toNat = value % 2 := by
      cases Nat.mod_two_eq_zero_or_one value with
      | inl h => rw [h]; rfl
      | inr h => rw [h]; rfl
    rw [natBits, natOfBits, ih, hbit, Nat.pow_succ', Nat.mod_mul]

/-- Only the lowest bits count. -/
theorem natBits_add_mul (n low high : ℕ) : natBits n (low + high * 2 ^ n) = natBits n low := by
  induction n generalizing low with
  | zero => rfl
  | succ n ih =>
    have hdiv : (low + high * 2 ^ (n + 1)) / 2 = low / 2 + high * 2 ^ n := by
      rw [Nat.pow_succ, ← Nat.mul_assoc, Nat.add_mul_div_right _ _ Nat.two_pos]
    have hmod : (low + high * 2 ^ (n + 1)) % 2 = low % 2 := by
      rw [Nat.pow_succ, ← Nat.mul_assoc, Nat.add_mul_mod_self_right]
    rw [natBits, natBits, hdiv, hmod, ih]

/-- A number below the power is followed by the bits of the rest. -/
theorem natBits_pack {m : ℕ} (n high : ℕ) {low : ℕ} (h : low < 2 ^ m) :
    natBits (m + n) (low + high * 2 ^ m) = natBits m low ++ natBits n high := by
  rw [natBits_add, natBits_add_mul, Nat.add_mul_div_right _ _ (Nat.two_pow_pos m),
    Nat.div_eq_of_lt h, Nat.zero_add]

theorem natOfBits_lt (bits : List Bool) : natOfBits bits < 2 ^ bits.length := by
  induction bits with
  | nil => exact Nat.one_pos
  | cons bit bits ih =>
    have hbit : bit.toNat ≤ 1 := Bool.toNat_le bit
    rw [natOfBits, List.length_cons, Nat.pow_succ]
    omega

/-- The bits of a string, the lowest one of every byte first. -/
def bitsOf (bytes : List UInt8) : List Bool := bytes.flatMap fun byte ↦ natBits 8 byte.toNat

theorem length_bitsOf (bytes : List UInt8) : (bitsOf bytes).length = 8 * bytes.length := by
  induction bytes with
  | nil => rfl
  | cons byte bytes ih =>
    rw [bitsOf, List.flatMap_cons, List.length_append, length_natBits, List.length_cons]
    rw [bitsOf] at ih
    omega

/-- Bytes are known by their bits. -/
theorem bitsOf_eq_append {bytes front : List UInt8} {rest : List Bool}
    (h : bitsOf bytes = bitsOf front ++ rest) :
    ∃ back, bytes = front ++ back ∧ rest = bitsOf back := by
  induction front generalizing bytes with
  | nil => exact ⟨bytes, rfl, h.symm⟩
  | cons byte front ih =>
    cases bytes with
    | nil =>
      have hlength := congrArg List.length h
      rw [List.length_append, length_bitsOf, length_bitsOf, List.length_cons, List.length_nil]
        at hlength
      omega
    | cons byte' bytes =>
      rw [bitsOf, List.flatMap_cons, bitsOf, List.flatMap_cons, List.append_assoc] at h
      obtain ⟨hbyte, htail⟩ := List.append_inj h (by rw [length_natBits, length_natBits])
      obtain ⟨back, rfl, hrest⟩ := ih htail
      have hvalue := congrArg natOfBits hbyte
      rw [natOfBits_natBits, natOfBits_natBits, Nat.mod_eq_of_lt byte'.toNat_lt,
        Nat.mod_eq_of_lt byte.toNat_lt] at hvalue
      rw [UInt8.toNat_inj.mp hvalue]
      exact ⟨back, rfl, hrest⟩

/-- A byte is shifted into the buffer whole, as far as the reader shifts it. -/
theorem shiftedByte_toNat (b : UInt8) {bitcount : ℕ} (h : bitcount < 16) :
    (shiftedByte b bitcount).toNat = b.toNat * 2 ^ bitcount := by
  have hcount : ∀ c < 16, (Int32.ofNat c).toBitVec.smod 32 = BitVec.ofNat 32 c := by decide
  have hpow : 2 ^ bitcount ≤ 2 ^ 15 := Nat.pow_le_pow_right (by decide) (by omega)
  have hbyte : b.toNat < 2 ^ 8 := b.toNat_lt
  have hsmall : b.toNat * 2 ^ bitcount < 2 ^ 23 := by
    calc b.toNat * 2 ^ bitcount ≤ b.toNat * 2 ^ 15 := Nat.mul_le_mul_left _ hpow
      _ < 2 ^ 23 := by omega
  have hword : (b.toUInt32.toInt32 <<< Int32.ofNat bitcount).toBitVec.toNat =
      b.toNat * 2 ^ bitcount := by
    change (b.toUInt32.toBitVec <<< (Int32.ofNat bitcount).toBitVec.smod 32).toNat = _
    rw [hcount bitcount h, BitVec.shiftLeft_eq', BitVec.toNat_shiftLeft, BitVec.toNat_ofNat,
      Nat.mod_eq_of_lt (by omega : bitcount < 2 ^ 32), Nat.shiftLeft_eq]
    have hwide : b.toUInt32.toBitVec.toNat = b.toNat := by simp
    rw [hwide, Nat.mod_eq_of_lt (by omega)]
  have hmsb : (b.toUInt32.toInt32 <<< Int32.ofNat bitcount).toBitVec.msb = false := by
    rw [BitVec.msb_eq_false_iff_two_mul_lt, hword]
    omega
  change ((b.toUInt32.toInt32 <<< Int32.ofNat bitcount).toBitVec.signExtend 64).toNat = _
  rw [BitVec.signExtend_eq_setWidth_of_msb_false hmsb, BitVec.toNat_setWidth, hword,
    Nat.mod_eq_of_lt (by omega)]

/-- A byte above the bits that the buffer holds. -/
theorem bitbuf_or_shiftedByte {bitbuf : UInt64} (b : UInt8) {bitcount : ℕ} (h : bitcount < 16)
    (hclean : bitbuf.toNat < 2 ^ bitcount) :
    (bitbuf ||| shiftedByte b bitcount).toNat = bitbuf.toNat + b.toNat * 2 ^ bitcount := by
  rw [UInt64.toNat_or, shiftedByte_toNat b h, ← Nat.shiftLeft_eq, Nat.or_comm,
    ← Nat.shiftLeft_add_eq_or_of_lt hclean, Nat.add_comm]

/-- The lowest bits of the buffer. -/
theorem and_bitMask_toNat (bitbuf : UInt64) {numBits : ℕ} (h : numBits < 31) :
    (bitbuf &&& bitMask numBits).toUInt32.toNat = bitbuf.toNat % 2 ^ numBits := by
  have hpow : 2 ^ numBits ≤ 2 ^ 30 := Nat.pow_le_pow_right (by decide) (by omega)
  have hlt : bitbuf.toNat % 2 ^ numBits < 2 ^ numBits := Nat.mod_lt _ (Nat.two_pow_pos _)
  rw [UInt64.toNat_toUInt32, UInt64.toNat_and, bitMask_toNat h, Nat.and_two_pow_sub_one_eq_mod,
    Nat.mod_eq_of_lt (by omega)]

/-- A reader over memory that has still to give the bits `rest`. -/
structure Stands (data : List UInt8) (rest : List Bool) (reader : IoRBits IoMem) : Prop where
  memory : reader.reader.data = data
  used : reader.reader.used ≤ data.length
  clean : reader.bitbuf.toNat < 2 ^ reader.bitcount
  bits : rest = natBits reader.bitcount reader.bitbuf.toNat ++
    bitsOf (data.drop reader.reader.used)

variable {data : List UInt8} {rest : List Bool} {reader : IoRBits IoMem}

/-- A reader at the beginning of a byte. -/
theorem stands_memAt (before bytes : List UInt8) (stack : Stack) :
    Stands (before ++ bytes) (bitsOf bytes) ⟨memAt before bytes, 0, 0, stack⟩ := by
  refine ⟨rfl, ?_, Nat.one_pos, ?_⟩
  · simp only [memAt, List.length_append]
    exact Nat.le_add_right _ _
  · simp only [memAt, natBits, List.nil_append, List.drop_left]

/-- The bits that are left, in terms of bytes. -/
theorem Stands.length (h : Stands data rest reader) :
    rest.length + 8 * reader.reader.used = reader.bitcount + 8 * data.length := by
  have hused := h.used
  rw [h.bits, List.length_append, length_natBits, length_bitsOf, List.length_drop]
  omega

/-- With less than a byte in the buffer, all bytes were read that a bit was taken from, and no
others. -/
theorem Stands.used_eq (h : Stands data rest reader) (hfew : reader.bitcount < 8) :
    reader.reader.used = (8 * data.length - rest.length + 7) / 8 := by
  have hlength := h.length
  have hused := h.used
  omega

/-- The loop of `io_rbits_ensure_bits`, as long as there are enough bits. -/
theorem Stands.ensureBitsLoop (h : Stands data rest reader) {numBits : ℕ} (hnum : numBits ≤ 16)
    (hrest : numBits ≤ rest.length) {turns : ℕ} (hturns : numBits ≤ reader.bitcount + 8 * turns)
    (b : UInt8) :
    ∃ reader', ensureBitsLoop numBits turns reader b = (.ok numBits, reader') ∧
      Stands data rest reader' ∧ numBits ≤ reader'.bitcount ∧
      (reader'.bitcount = reader.bitcount ∨ reader'.bitcount < numBits + 8) := by
  induction turns generalizing reader b with
  | zero => exact ⟨reader, rfl, h, by omega, Or.inl rfl⟩
  | succ turns ih =>
    by_cases hmore : reader.bitcount < numBits
    · obtain ⟨⟨bytes, used⟩, bitbuf, bitcount, stack⟩ := reader
      obtain ⟨rfl, hused, hclean, hbits⟩ := h
      simp only at hused hclean hbits hmore hturns
      have hlt : used < bytes.length := by
        by_contra hend
        rw [hbits, List.length_append, length_natBits, length_bitsOf, List.length_drop] at hrest
        omega
      have hbyte : (bytes.drop used) = bytes[used] :: bytes.drop (used + 1) :=
        List.drop_eq_getElem_cons hlt
      have hread : IoReader.read (⟨bytes, used⟩ : IoMem) 1 =
          (.ok [bytes[used]], ⟨bytes, used + 1⟩) := by
        change ioMemRead _ _ = _
        rw [ioMemRead, hbyte]
        simp only [show min 1 (bytes.length - used) = 1 by omega, List.take_succ_cons,
          List.take_zero]
      have hword := bitbuf_or_shiftedByte bytes[used] (show bitcount < 16 by omega) hclean
      have hbound : bytes[used].toNat < 2 ^ 8 := bytes[used].toNat_lt
      have hnext : Stands bytes rest ⟨⟨bytes, used + 1⟩,
          bitbuf ||| shiftedByte bytes[used] bitcount, bitcount + 8, stack⟩ := by
        refine ⟨rfl, hlt, ?_, ?_⟩
        · have hpow : 2 ^ (bitcount + 8) = 2 ^ 8 * 2 ^ bitcount := by
            rw [Nat.pow_add, Nat.mul_comm]
          have hmul : bytes[used].toNat * 2 ^ bitcount ≤ (2 ^ 8 - 1) * 2 ^ bitcount :=
            Nat.mul_le_mul_right _ (by omega)
          simp only [hword, hpow]
          omega
        · rw [hbits, hword, natBits_pack 8 _ hclean, hbyte, bitsOf, List.flatMap_cons,
            List.append_assoc]
          rfl
      obtain ⟨reader', hloop, hstands, hcount, hfew⟩ := ih hnext
        (by simp only; omega) bytes[used]
      refine ⟨reader', ?_, hstands, hcount, Or.inr ?_⟩
      · rw [Io.ensureBitsLoop]
        simp only [if_pos hmore, hread]
        exact hloop
      · simp only at hfew
        omega
    · refine ⟨reader, ?_, h, Nat.le_of_not_lt hmore, Or.inl rfl⟩
      rw [Io.ensureBitsLoop, if_neg hmore]

/-- `io_rbits_ensure_bits`, as long as there are enough bits. -/
theorem Stands.ensure (h : Stands data rest reader) {numBits : ℕ} (hnum : numBits ≤ 16)
    (hrest : numBits ≤ rest.length) :
    ∃ reader', ioRbitsEnsureBits reader numBits = .ok (.ok numBits, reader') ∧
      Stands data rest reader' ∧ numBits ≤ reader'.bitcount ∧
      (reader'.bitcount = reader.bitcount ∨ reader'.bitcount < numBits + 8) := by
  have hstack : Stands data rest { reader with stack := reader.stack.drop 1 } :=
    ⟨h.memory, h.used, h.clean, h.bits⟩
  obtain ⟨reader', hloop, hreader'⟩ := hstack.ensureBitsLoop hnum hrest
    (show numBits ≤ reader.bitcount + 8 * numBits by omega) (reader.stack 0)
  refine ⟨reader', ?_, hreader'⟩
  rw [ioRbitsEnsureBits, if_pos (show numBits ≤ maxEnsure by rw [maxEnsure]; omega), hloop]

/-- `io_rbits_remove_bits` drops bits from the front. -/
theorem Stands.remove {bits : List Bool} (h : Stands data (bits ++ rest) reader)
    (hsmall : bits.length < 64) (hcount : bits.length ≤ reader.bitcount) :
    ∃ reader', ioRbitsRemoveBits reader bits.length = .ok reader' ∧ Stands data rest reader' ∧
      reader'.bitcount = reader.bitcount - bits.length ∧
      reader.bitbuf.toNat % 2 ^ bits.length = natOfBits bits := by
  have hbitcount : reader.bitcount = bits.length + (reader.bitcount - bits.length) := by omega
  have hsplit := h.bits
  rw [hbitcount, natBits_add, List.append_assoc] at hsplit
  obtain ⟨hfront, hback⟩ := List.append_inj hsplit (by rw [length_natBits])
  have hshift : (reader.bitbuf >>> UInt64.ofNat bits.length).toNat =
      reader.bitbuf.toNat / 2 ^ bits.length := by
    rw [UInt64.toNat_shiftRight, UInt64.toNat_ofNat_of_lt' (Nat.lt_trans hsmall (by decide)),
      Nat.mod_eq_of_lt hsmall, Nat.shiftRight_eq_div_pow]
  refine ⟨_, if_pos hcount, ⟨h.memory, h.used, ?_, ?_⟩, rfl, ?_⟩
  · have hclean := h.clean
    rw [hbitcount, Nat.pow_add] at hclean
    rw [hshift]
    exact Nat.div_lt_of_lt_mul hclean
  · rw [hshift]
    exact hback
  · have hvalue := natOfBits_natBits bits.length reader.bitbuf.toNat
    rw [← hfront] at hvalue
    exact hvalue.symm

/-- `io_rbits_pop_bits` gives the number with the bits at the front. -/
theorem Stands.pop {bits : List Bool} (h : Stands data (bits ++ rest) reader)
    (hsmall : bits.length < 31) (hcount : bits.length ≤ reader.bitcount) :
    ∃ reader', ioRbitsPopBits reader bits.length = .ok (natOfBits bits, reader') ∧
      Stands data rest reader' ∧ reader'.bitcount = reader.bitcount - bits.length := by
  obtain ⟨reader', hremove, hstands, hleft, hvalue⟩ := h.remove (by omega) hcount
  refine ⟨reader', ?_, hstands, hleft⟩
  rw [ioRbitsPopBits, ioRbitsGetBits, if_pos hcount, ok_bind, hremove,
    and_bitMask_toNat _ hsmall, hvalue]
  rfl

/-- The bits that are asked for, as long as there are enough, and no more than a byte is begun. -/
theorem Stands.ensureThenPop {bits : List Bool} (h : Stands data (bits ++ rest) reader)
    (hnum : bits.length ≤ 16) :
    ∃ reader', ensureThenPop reader bits.length = .ok (natOfBits bits, reader') ∧
      Stands data rest reader' ∧ (reader.bitcount < 8 → reader'.bitcount < 8) := by
  obtain ⟨mid, hensure, hmid, hcount, hfew⟩ := h.ensure hnum
    (by rw [List.length_append]; exact Nat.le_add_right _ _)
  obtain ⟨reader', hpop, hstands, hleft⟩ := hmid.pop (by omega) hcount
  refine ⟨reader', ?_, hstands, by omega⟩
  simp only [Io.ensureThenPop, hensure, ok_bind, hpop]

end Brutal.Io
