import Brutal.Io.BitStream
import Mathlib.Data.Nat.Bitwise

/-!
# Fields of bits

Numbers of up to 32 bits that `io_wbits` writes one after the other and `io_rbits` reads back.  The
reader shifts a byte as an `int`: if 24 bits of a field are in the buffer before its last byte, then
the top of that byte is lost, and the sign of the `int` is spilled over the rest of the buffer.
-/

namespace Brutal.Io

open Lib

/-- `io_wbits_flush_bits_remaining` -/
def ioWbitsFlushBitsRemaining {ω : Type} [IoWriter ω] (self : IoWBits ω) : IoWBits ω :=
  let self := ioWbitsFlushBits self
  { writer := (IoWriter.write self.writer [self.bitbuf.toUInt8]).2, bitbuf := 0, bitcount := 0 }

/-- A number and the number of bits that it is written with. -/
structure BitField where
  value : ℕ
  width : ℕ
  positive : 1 ≤ width
  narrow : width ≤ 32
  fits : value < 2 ^ width

/-- `io_wbits_add_bits` and `io_wbits_flush_bits` for each of the fields. -/
def writeFields {ω : Type} [IoWriter ω] : IoWBits ω → List BitField → IoWBits ω
  | self, [] => self
  | self, field :: fields =>
    writeFields
      (ioWbitsFlushBits (ioWbitsAddBits self (UInt64.ofNat field.value) field.width)) fields

/-- The bytes of some fields. -/
def fieldBytes (fields : List BitField) : List UInt8 :=
  (ioWbitsFlushBitsRemaining (writeFields (ioWbitsInit (⟨[]⟩ : Collector)) fields)).writer.bytes

/-- `io_rbits_ensure_bits` and `io_rbits_pop_bits` for each of the widths. -/
def readFields {ρ : Type} [IoReader ρ] : IoRBits ρ → List ℕ → Except Stop (List ℕ)
  | _, [] => .ok []
  | self, width :: widths => do
    let (value, self) ← ensureThenPop self width
    let values ← readFields self widths
    return value :: values

/-- The fields are read back from the bytes that were written. -/
def ReadsBack (fields : List BitField) (stack : Stack) : Prop :=
  readFields (ioRbitsInit (ioMemInit (fieldBytes fields)) stack) (fields.map BitField.width) =
    .ok (fields.map BitField.value)

/-- The number whose bits are those of the fields, from the lowest one on. -/
def streamOf : List BitField → ℕ
  | [] => 0
  | field :: fields => 2 ^ field.width * streamOf fields + field.value

/-- How many bits there are in all. -/
def widthOf : List BitField → ℕ
  | [] => 0
  | field :: fields => field.width + widthOf fields

/-- A bit of a string of bytes, the lowest one of every byte first. -/
def bitAt (bytes : List UInt8) (p : ℕ) : Bool := (bytes.getD (p / 8) 0).toNat.testBit (p % 8)

theorem bitAt_append_left {first second : List UInt8} {p : ℕ} (h : p < 8 * first.length) :
    bitAt (first ++ second) p = bitAt first p := by
  rw [bitAt, bitAt, List.getD_append _ _ _ _ (by omega)]

theorem bitAt_append_singleton {bytes : List UInt8} {byte : UInt8} {p : ℕ}
    (h : 8 * bytes.length ≤ p) (hlast : p < 8 * bytes.length + 8) :
    bitAt (bytes ++ [byte]) p = byte.toNat.testBit (p - 8 * bytes.length) := by
  rw [bitAt, List.getD_append_right _ _ _ _ (by omega)]
  have hindex : p / 8 - bytes.length = 0 := by omega
  have hbit : p % 8 = p - 8 * bytes.length := by omega
  rw [hindex, hbit]
  rfl

/-- The bit stream, and where it was cut into bytes so far. -/
structure Wrote (stream count : ℕ) (out : IoWBits Collector) : Prop where
  count : 8 * out.writer.bytes.length + out.bitcount = count
  bytes : ∀ p < 8 * out.writer.bytes.length, bitAt out.writer.bytes p = stream.testBit p
  buffer : ∀ i, out.bitbuf.toNat.testBit i = stream.testBit (8 * out.writer.bytes.length + i)

/-- One more byte of the buffer is written. -/
theorem Wrote.byte {stream count : ℕ} {out : IoWBits Collector} (h : Wrote stream count out) :
    ∀ p < 8 * (out.writer.bytes.length + 1),
      bitAt (out.writer.bytes ++ [out.bitbuf.toUInt8]) p = stream.testBit p := by
  intro p hp
  by_cases hold : p < 8 * out.writer.bytes.length
  · rw [bitAt_append_left hold, h.bytes p hold]
  · have hlow : p - 8 * out.writer.bytes.length < 8 := by omega
    rw [bitAt_append_singleton (by omega) (by omega), UInt64.toNat_toUInt8, Nat.testBit_mod_two_pow,
      decide_eq_true hlow, Bool.true_and, h.buffer]
    congr 1
    omega

/-- The loop of `io_wbits_flush_bits`. -/
theorem Wrote.flushBitsLoop {stream count turns : ℕ} {out : IoWBits Collector}
    (h : Wrote stream count out) (hturns : out.bitcount / 8 = turns) :
    Wrote stream count (flushBitsLoop turns out) ∧ (flushBitsLoop turns out).bitcount < 8 := by
  induction turns generalizing out with
  | zero => exact ⟨h, by rw [Io.flushBitsLoop]; omega⟩
  | succ turns ih =>
    rw [Io.flushBitsLoop, if_pos (by omega)]
    apply ih
    · refine ⟨?_, ?_, ?_⟩
      · have hcount := h.count
        simp only [IoWriter.write, List.length_append, List.length_singleton]
        omega
      · simp only [IoWriter.write, List.length_append, List.length_singleton]
        exact h.byte
      · intro i
        have hshift : (out.bitbuf >>> 8).toNat = out.bitbuf.toNat >>> 8 := by
          rw [UInt64.toNat_shiftRight]
          rfl
        simp only [IoWriter.write, List.length_append, List.length_singleton]
        rw [hshift, Nat.testBit_shiftRight, h.buffer]
        congr 1
        omega
    · simp only
      omega

/-- The bits of a number with another one above it. -/
theorem testBit_above {low high n : ℕ} (h : low < 2 ^ n) (p : ℕ) :
    (2 ^ n * high + low).testBit p = if p < n then low.testBit p else high.testBit (p - n) :=
  Nat.testBit_two_pow_mul_add _ h p

/-- A field is added above the bits that were written. -/
theorem Wrote.field {stream count : ℕ} {out : IoWBits Collector} (h : Wrote stream count out)
    (hstream : stream < 2 ^ count) (hfew : out.bitcount < 8) (field : BitField) :
    Wrote (2 ^ count * field.value + stream) (count + field.width)
      (ioWbitsFlushBits (ioWbitsAddBits out (UInt64.ofNat field.value) field.width)) ∧
    (ioWbitsFlushBits
      (ioWbitsAddBits out (UInt64.ofNat field.value) field.width)).bitcount < 8 := by
  have hcount := h.count
  have hvalue : field.value < 2 ^ 32 :=
    Nat.lt_of_lt_of_le field.fits (Nat.pow_le_pow_right (by decide) field.narrow)
  have hwide : field.value * 2 ^ out.bitcount < 2 ^ 64 := by
    calc field.value * 2 ^ out.bitcount < 2 ^ 32 * 2 ^ 8 := by
          apply Nat.mul_lt_mul_of_lt_of_le hvalue (Nat.pow_le_pow_right (by decide) (by omega))
          decide
      _ ≤ 2 ^ 64 := by decide
  have hshift : (UInt64.ofNat field.value <<< UInt64.ofNat out.bitcount).toNat =
      field.value <<< out.bitcount := by
    rw [UInt64.toNat_shiftLeft,
      UInt64.toNat_ofNat_of_lt' (by exact Nat.lt_trans hvalue (by decide)),
      UInt64.toNat_ofNat_of_lt' (by exact Nat.lt_trans hfew (by decide)),
      Nat.mod_eq_of_lt (by omega : out.bitcount < 64), Nat.shiftLeft_eq, Nat.mod_eq_of_lt hwide]
  have hadded : Wrote (2 ^ count * field.value + stream) (count + field.width)
      (ioWbitsAddBits out (UInt64.ofNat field.value) field.width) := by
    refine ⟨?_, ?_, ?_⟩
    · simp only [ioWbitsAddBits]
      omega
    · intro p hp
      simp only [ioWbitsAddBits] at hp ⊢
      rw [testBit_above hstream, if_pos (by omega), h.bytes p hp]
    · intro i
      simp only [ioWbitsAddBits]
      rw [testBit_above hstream, UInt64.toNat_or, Nat.testBit_or, hshift, Nat.testBit_shiftLeft,
        h.buffer]
      by_cases hi : i < out.bitcount
      · rw [if_pos (by omega), decide_eq_false (by omega), Bool.false_and, Bool.or_false]
      · rw [if_neg (by omega), decide_eq_true (by omega), Bool.true_and,
          Nat.testBit_lt_two_pow (Nat.lt_of_lt_of_le hstream
            (Nat.pow_le_pow_right (by decide) (by omega))), Bool.false_or]
        congr 1
        omega
  exact hadded.flushBitsLoop rfl

/-- All fields are written. -/
theorem Wrote.writeFields {stream count : ℕ} {out : IoWBits Collector} (h : Wrote stream count out)
    (hstream : stream < 2 ^ count) (hfew : out.bitcount < 8) (fields : List BitField) :
    Wrote (2 ^ count * streamOf fields + stream) (count + widthOf fields)
      (writeFields out fields) ∧ (writeFields out fields).bitcount < 8 := by
  induction fields generalizing stream count out with
  | nil =>
    rw [streamOf, Nat.mul_zero, Nat.zero_add]
    exact ⟨h, hfew⟩
  | cons field fields ih =>
    obtain ⟨hfield, hfew'⟩ := h.field hstream hfew field
    have hlt : 2 ^ count * field.value + stream < 2 ^ (count + field.width) := by
      rw [Nat.pow_add]
      calc 2 ^ count * field.value + stream < 2 ^ count * field.value + 2 ^ count :=
            Nat.add_lt_add_left hstream _
        _ = 2 ^ count * (field.value + 1) := (Nat.mul_succ _ _).symm
        _ ≤ 2 ^ count * 2 ^ field.width := Nat.mul_le_mul_left _ field.fits
    have hall := ih hfield hlt hfew'
    have hsum : 2 ^ count * streamOf (field :: fields) + stream =
        2 ^ (count + field.width) * streamOf fields + (2 ^ count * field.value + stream) := by
      rw [streamOf, Nat.pow_add, Nat.mul_add, Nat.mul_assoc, Nat.add_assoc _ _ stream]
    rw [hsum, widthOf, ← Nat.add_assoc count]
    exact hall

/-- The bytes of some fields have all their bits, and as many more as fill the last byte. -/
theorem fieldBytes_bits (fields : List BitField) :
    (fieldBytes fields).length = widthOf fields / 8 + 1 ∧
      ∀ p < 8 * (fieldBytes fields).length,
        bitAt (fieldBytes fields) p = (streamOf fields).testBit p := by
  have hinit : Wrote 0 0 (ioWbitsInit (⟨[]⟩ : Collector)) :=
    ⟨rfl, fun p hp ↦ absurd hp (Nat.not_lt_zero p), fun i ↦ by
      rw [Nat.zero_testBit]
      exact Nat.zero_testBit i⟩
  obtain ⟨hfields, -⟩ := hinit.writeFields Nat.one_pos (show 0 < 8 by decide) fields
  rw [Nat.pow_zero, Nat.one_mul, Nat.add_zero, Nat.zero_add] at hfields
  obtain ⟨hflushed, hfew⟩ := hfields.flushBitsLoop rfl
  have hlength : (fieldBytes fields).length = widthOf fields / 8 + 1 := by
    have hcount := hflushed.count
    simp only [fieldBytes, ioWbitsFlushBitsRemaining, ioWbitsFlushBits, IoWriter.write,
      List.length_append, List.length_singleton]
    omega
  refine ⟨hlength, ?_⟩
  have hbyte := hflushed.byte
  intro p hp
  apply hbyte p
  simpa only [fieldBytes, ioWbitsFlushBitsRemaining, ioWbitsFlushBits, IoWriter.write,
    List.length_append, List.length_singleton] using hp

/-- The number of bits from a place in a stream to the end of its byte. -/
def gap (q : ℕ) : ℕ := (8 - q % 8) % 8

/-- The fields that begin at the given places are those whose last byte is shifted by 24 bits or
more.  The bits of that byte that do not fit in an `int` are lost. -/
def Lost (spills : List ℕ) (p : ℕ) : Prop := ∃ q ∈ spills, q + 32 ≤ p ∧ p < q + 32 + gap q

/-- The highest bit that does fit is the sign, which is spilled over the rest of the buffer. -/
def Spilled (stream : ℕ) (spills : List ℕ) (p : ℕ) : Prop :=
  ∃ q ∈ spills, stream.testBit (q + 31) = true ∧ q + 32 ≤ p ∧ p < q + 64

instance (spills : List ℕ) (p : ℕ) : Decidable (Lost spills p) :=
  inferInstanceAs (Decidable (∃ q ∈ spills, _))

instance (stream : ℕ) (spills : List ℕ) (p : ℕ) : Decidable (Spilled stream spills p) :=
  inferInstanceAs (Decidable (∃ q ∈ spills, _))

/-- The places where a byte was shifted too far, after one more field. -/
def spillsAfter (spills : List ℕ) (q width : ℕ) : List ℕ :=
  if gap q + 24 < width then q :: spills else spills

/-- A bit as the reader finds it. -/
def readBit (stream : ℕ) (spills : List ℕ) (p : ℕ) : Bool :=
  (stream.testBit p && !decide (Lost spills p)) || decide (Spilled stream spills p)

/-- No field has bits that were lost or spilled over, unless they happen to be the same, and fields
of 32 bits, which are read with an empty mask, are zero. -/
def Unspoiled (stream : ℕ) : ℕ → List ℕ → List BitField → Prop
  | _, _, [] => True
  | q, spills, field :: fields =>
    (if field.width = 32 then field.value = 0
      else ∀ i < field.width,
        if Spilled stream spills (q + i) then stream.testBit (q + i) = true
        else Lost spills (q + i) → stream.testBit (q + i) = false) ∧
      Unspoiled stream (q + field.width) (spillsAfter spills q field.width) fields

/-! ## The bits of the buffer -/

/-- A byte in the buffer, whose sign is widened. -/
theorem shiftedByte_testBit (b : UInt8) {s i : ℕ} (hs : s < 32) (hi : i < 64) :
    (shiftedByte b s).toNat.testBit i =
      if i < 32 then decide (s ≤ i) && b.toNat.testBit (i - s) else b.toNat.testBit (31 - s) := by
  have hcount : ∀ c < 32, (Int32.ofNat c).toBitVec.smod 32 = BitVec.ofNat 32 c := by decide
  have hword : (b.toUInt32.toInt32 <<< Int32.ofNat s).toBitVec =
      b.toUInt32.toBitVec <<< s := by
    change b.toUInt32.toBitVec <<< (Int32.ofNat s).toBitVec.smod 32 = _
    rw [hcount s hs, BitVec.shiftLeft_eq', BitVec.toNat_ofNat, Nat.mod_eq_of_lt (by omega)]
  have hbit (j : ℕ) : b.toUInt32.toBitVec.getLsbD j = b.toNat.testBit j := by
    rw [BitVec.getLsbD]
    simp
  change ((b.toUInt32.toInt32 <<< Int32.ofNat s).toBitVec.signExtend 64).toNat.testBit i = _
  rw [hword, BitVec.testBit_toNat, BitVec.getLsbD_signExtend, decide_eq_true hi, Bool.true_and]
  by_cases hlow : i < 32
  · rw [if_pos hlow, if_pos hlow, BitVec.getLsbD_shiftLeft, hbit, decide_eq_true hlow]
    by_cases hsi : s ≤ i
    · simp [hsi]
    · simp [hsi]
  · rw [if_neg hlow, if_neg hlow, BitVec.msb_eq_getLsbD_last, BitVec.getLsbD_shiftLeft, hbit]
    simp
    omega

section Reader

variable {data : List UInt8} {stream q p : ℕ} {spills : List ℕ}

theorem spilled_cons : Spilled stream (q :: spills) p ↔
    (stream.testBit (q + 31) = true ∧ q + 32 ≤ p ∧ p < q + 64) ∨ Spilled stream spills p := by
  rw [Spilled, List.exists_mem_cons_iff]
  rfl

theorem lost_cons : Lost (q :: spills) p ↔
    (q + 32 ≤ p ∧ p < q + 32 + gap q) ∨ Lost spills p := by
  rw [Lost, List.exists_mem_cons_iff]
  rfl

/-- A byte that is shifted too far leaves the first 32 bits alone. -/
theorem readBit_cons (h : p < q + 32) :
    readBit stream (q :: spills) p = readBit stream spills p := by
  have hlost : Lost (q :: spills) p ↔ Lost spills p := by
    rw [lost_cons]
    exact or_iff_right fun h' ↦ by omega
  have hspilled : Spilled stream (q :: spills) p ↔ Spilled stream spills p := by
    rw [spilled_cons]
    exact or_iff_right fun h' ↦ by omega
  simp only [readBit, hlost, hspilled]

/-- A reader at a place in a stream, some bits of which it has in its buffer; above them there is
what was spilled. -/
structure Finds (data : List UInt8) (stream : ℕ) (spills : List ℕ) (q : ℕ)
    (reader : IoRBits IoMem) : Prop where
  memory : reader.reader.data = data
  place : q + reader.bitcount = 8 * reader.reader.used
  buffer : ∀ i < 64, reader.bitbuf.toNat.testBit i =
    if i < reader.bitcount then readBit stream spills (q + i)
    else decide (Spilled stream spills (q + i))
  lost : ∀ q' ∈ spills, q' + 32 + gap q' ≤ q + reader.bitcount
  before : ∀ q' ∈ spills, q' ≤ q

/-- The reader with one more byte in its buffer. -/
def withByte (reader : IoRBits IoMem) (b : UInt8) : IoRBits IoMem :=
  { reader with
    reader := { reader.reader with used := reader.reader.used + 1 }
    bitbuf := reader.bitbuf ||| shiftedByte b reader.bitcount
    bitcount := reader.bitcount + 8 }

variable {reader : IoRBits IoMem}

/-- Bits that were not in the buffer are not lost yet. -/
theorem Finds.not_lost (h : Finds data stream spills q reader) {i : ℕ}
    (hi : reader.bitcount ≤ i) : ¬ Lost spills (q + i) := by
  rintro ⟨q', hq', -, hlt⟩
  have := h.lost q' hq'
  omega

/-- The first bits of a byte that is added, as far as they fit in an `int`. -/
theorem Finds.buffer_low (h : Finds data stream spills q reader) {b : UInt8}
    (hb : ∀ j < 8, b.toNat.testBit j = stream.testBit (q + reader.bitcount + j))
    (hcount : reader.bitcount < 32) {i : ℕ} (hi : i < 32) :
    (withByte reader b).bitbuf.toNat.testBit i =
      if i < reader.bitcount + 8 then readBit stream spills (q + i)
      else decide (Spilled stream spills (q + i)) := by
  change (reader.bitbuf ||| shiftedByte b reader.bitcount).toNat.testBit i = _
  rw [UInt64.toNat_or, Nat.testBit_or, h.buffer i (by omega),
    shiftedByte_testBit b hcount (by omega), if_pos hi]
  by_cases hold : i < reader.bitcount
  · rw [if_pos hold, if_pos (by omega), decide_eq_false (by omega), Bool.false_and, Bool.or_false]
  · rw [if_neg hold, decide_eq_true (Nat.le_of_not_lt hold), Bool.true_and]
    by_cases hnew : i < reader.bitcount + 8
    · have hplace : q + reader.bitcount + (i - reader.bitcount) = q + i := by omega
      rw [if_pos hnew, hb _ (by omega), hplace, readBit,
        decide_eq_false (h.not_lost (Nat.le_of_not_lt hold)), Bool.not_false, Bool.and_true,
        Bool.or_comm]
    · have hzero : b.toNat.testBit (i - reader.bitcount) = false :=
        Nat.testBit_lt_two_pow (Nat.lt_of_lt_of_le b.toNat_lt
          (Nat.pow_le_pow_right (by decide) (by omega)))
      rw [if_neg hnew, hzero, Bool.or_false]

/-- A byte that is shifted by less than 24 bits. -/
theorem Finds.nearByte (h : Finds data stream spills q reader) {b : UInt8}
    (hb : ∀ j < 8, b.toNat.testBit j = stream.testBit (q + reader.bitcount + j))
    (hcount : reader.bitcount < 24) : Finds data stream spills q (withByte reader b) := by
  have hplace := h.place
  refine ⟨h.memory, ?_, ?_, fun q' hq' ↦ ?_, h.before⟩
  · simp only [withByte]
    omega
  · intro i hi
    by_cases hlow : i < 32
    · exact h.buffer_low hb (by omega) hlow
    · have hsign : b.toNat.testBit (31 - reader.bitcount) = false :=
        Nat.testBit_lt_two_pow (Nat.lt_of_lt_of_le b.toNat_lt
          (Nat.pow_le_pow_right (by decide) (by omega)))
      change (reader.bitbuf ||| shiftedByte b reader.bitcount).toNat.testBit i =
        if i < reader.bitcount + 8 then _ else _
      rw [UInt64.toNat_or, Nat.testBit_or, h.buffer i hi, shiftedByte_testBit b (by omega) hi,
        if_neg hlow, hsign, Bool.or_false, if_neg (by omega), if_neg (by omega)]
  · have := h.lost q' hq'
    simp only [withByte]
    omega

/-- A byte that is shifted by 24 bits or more, which begins where the first 24 bits and the gap
were. -/
theorem Finds.farByte (h : Finds data stream spills q reader) {b : UInt8}
    (hb : ∀ j < 8, b.toNat.testBit j = stream.testBit (q + reader.bitcount + j))
    (hcount : reader.bitcount = gap q + 24) :
    Finds data stream (q :: spills) q (withByte reader b) := by
  have hplace := h.place
  have hgap : gap q < 8 := Nat.mod_lt _ (by decide)
  refine ⟨h.memory, ?_, ?_, ?_, ?_⟩
  · simp only [withByte]
    omega
  · intro i hi
    by_cases hlow : i < 32
    · have hspilled : Spilled stream (q :: spills) (q + i) ↔ Spilled stream spills (q + i) := by
        rw [spilled_cons]
        exact or_iff_right fun h' ↦ by omega
      rw [h.buffer_low hb (by omega) hlow, readBit_cons (by omega), decide_eq_decide.mpr hspilled]
      rfl
    · have hsign : b.toNat.testBit (31 - reader.bitcount) = stream.testBit (q + 31) := by
        rw [hb _ (by omega)]
        congr 1
        omega
      have hspilled : decide (Spilled stream (q :: spills) (q + i)) =
          (decide (Spilled stream spills (q + i)) || stream.testBit (q + 31)) := by
        rw [Bool.eq_iff_iff, decide_eq_true_iff, Bool.or_eq_true, decide_eq_true_iff, spilled_cons]
        exact ⟨fun hor ↦ hor.elim (fun h' ↦ Or.inr h'.1) Or.inl,
          fun hor ↦ hor.elim Or.inr fun h' ↦ Or.inl ⟨h', by omega, by omega⟩⟩
      have hread : i < reader.bitcount + 8 →
          readBit stream (q :: spills) (q + i) = decide (Spilled stream (q :: spills) (q + i)) := by
        intro hi'
        have hlost : Lost (q :: spills) (q + i) := lost_cons.mpr (Or.inl ⟨by omega, by omega⟩)
        rw [readBit, decide_eq_true hlost, Bool.not_true, Bool.and_false, Bool.false_or]
      change (reader.bitbuf ||| shiftedByte b reader.bitcount).toNat.testBit i =
        if i < reader.bitcount + 8 then _ else _
      rw [UInt64.toNat_or, Nat.testBit_or, h.buffer i hi, shiftedByte_testBit b (by omega) hi,
        if_neg hlow, hsign, if_neg (by omega), ← hspilled]
      split
      next hi' => exact (hread hi').symm
      next => rfl
  · intro q' hq'
    simp only [withByte]
    cases List.mem_cons.mp hq' with
    | inl heq =>
      rw [heq]
      omega
    | inr hold =>
      have := h.lost q' hold
      omega
  · intro q' hq'
    cases List.mem_cons.mp hq' with
    | inl heq => omega
    | inr hold => exact h.before q' hold

theorem ensureBitsLoop_done {w : ℕ} (h : w ≤ reader.bitcount) (turns : ℕ) (b : UInt8) :
    ensureBitsLoop w turns reader b = (.ok w, reader) := by
  cases turns with
  | zero => rfl
  | succ turns => rw [ensureBitsLoop, if_neg (Nat.not_lt.mpr h)]

theorem ioMemRead_one {mem : IoMem} (h : mem.used < mem.data.length) :
    IoReader.read mem 1 = (.ok [mem.data.getD mem.used 0], { mem with used := mem.used + 1 }) := by
  change ioMemRead mem 1 = _
  rw [ioMemRead, List.drop_eq_getElem_cons h]
  simp only [show min 1 (mem.data.length - mem.used) = 1 by omega, List.take_succ_cons,
    List.take_zero, List.getD_eq_getElem _ _ h]

/-- A turn of the loop of `io_rbits_ensure_bits`. -/
theorem ensureBitsLoop_turn {w : ℕ} (h : reader.bitcount < w)
    (hused : reader.reader.used < reader.reader.data.length) (turns : ℕ) (b : UInt8) :
    ensureBitsLoop w (turns + 1) reader b =
      ensureBitsLoop w turns (withByte reader (reader.reader.data.getD reader.reader.used 0))
        (reader.reader.data.getD reader.reader.used 0) := by
  rw [ensureBitsLoop, if_pos h, ioMemRead_one hused]
  rfl

/-- The loop of `io_rbits_ensure_bits`. -/
theorem Finds.ensureBitsLoop (h : Finds data stream spills q reader)
    (hdata : ∀ p < 8 * data.length, bitAt data p = stream.testBit p) {w : ℕ} (hw : w ≤ 32)
    (hroom : q + w ≤ 8 * data.length) (hcount : reader.bitcount ≤ gap q + 24)
    (hfew : reader.bitcount < w + 8) {turns : ℕ} (hturns : w ≤ reader.bitcount + 8 * turns)
    (b : UInt8) :
    ∃ reader', ensureBitsLoop w turns reader b = (.ok w, reader') ∧
      Finds data stream (spillsAfter spills q w) q reader' ∧ w ≤ reader'.bitcount ∧
      reader'.bitcount < w + 8 := by
  induction turns generalizing reader b with
  | zero =>
    refine ⟨reader, rfl, ?_, by omega, hfew⟩
    rwa [spillsAfter, if_neg (by omega)]
  | succ turns ih =>
    by_cases hmore : reader.bitcount < w
    · have hplace := h.place
      have hused : reader.reader.used < reader.reader.data.length := by
        rw [h.memory]
        omega
      have hb : ∀ j < 8, (reader.reader.data.getD reader.reader.used 0).toNat.testBit j =
          stream.testBit (q + reader.bitcount + j) := by
        intro j hj
        have hindex : (8 * reader.reader.used + j) / 8 = reader.reader.used := by omega
        have hbit : (8 * reader.reader.used + j) % 8 = j := by omega
        rw [hplace, ← hdata _ (by rw [h.memory] at hused; omega), bitAt, h.memory, hindex, hbit]
      rw [ensureBitsLoop_turn hmore hused]
      by_cases hfar : reader.bitcount = gap q + 24
      · have hdone : w ≤ reader.bitcount + 8 := by omega
        refine ⟨_, ensureBitsLoop_done hdone turns _, ?_, hdone, ?_⟩
        · rw [spillsAfter, if_pos (by omega)]
          exact h.farByte hb hfar
        · simp only [withByte]
          omega
      · have hgap : (q + gap q) % 8 = 0 := by
          rw [gap]
          omega
        have hlow : reader.bitcount + 8 ≤ gap q + 24 := by omega
        have hgap8 : gap q < 8 := Nat.mod_lt _ (by decide)
        apply ih (h.nearByte hb (by omega))
        · exact hlow
        · simp only [withByte]
          omega
        · simp only [withByte]
          omega
    · refine ⟨reader, ensureBitsLoop_done (Nat.le_of_not_lt hmore) _ _, ?_,
        Nat.le_of_not_lt hmore, hfew⟩
      rwa [spillsAfter, if_neg (by omega)]

/-- What is read for a field at a place in a stream. -/
def FoundValue (stream : ℕ) (spills : List ℕ) (q w value : ℕ) : Prop :=
  if w = 32 then value = 0
  else value < 2 ^ w ∧ ∀ i < w, value.testBit i = readBit stream spills (q + i)

theorem bitMask_cases {w : ℕ} (h : w ≤ 32) :
    (bitMask w).toNat = if w = 32 then 0 else 2 ^ w - 1 := by
  have hall : ∀ n < 33, (bitMask n).toNat = if n = 32 then 0 else 2 ^ n - 1 := by decide
  exact hall w (by omega)

/-- `io_rbits_pop_bits` -/
theorem Finds.pop (h : Finds data stream spills q reader) {w : ℕ} (hw : w ≤ 32)
    (hcount : w ≤ reader.bitcount) (hfew : reader.bitcount < 64) :
    ∃ value reader', ioRbitsPopBits reader w = .ok (value, reader') ∧
      FoundValue stream spills q w value ∧ Finds data stream spills (q + w) reader' ∧
      reader'.bitcount = reader.bitcount - w := by
  obtain ⟨mem, bitbuf, bitcount, stack⟩ := reader
  simp only at hcount hfew
  refine ⟨_, _, ioRbitsPopBits_eq mem bitbuf stack hcount, ?_, ?_, rfl⟩
  · have hmask := bitMask_cases hw
    have hvalue : (bitbuf &&& bitMask w).toUInt32.toNat =
        (bitbuf.toNat &&& (bitMask w).toNat) % 2 ^ 32 := by
      rw [UInt64.toNat_toUInt32, UInt64.toNat_and]
    rw [FoundValue, hvalue, hmask]
    split
    next => rw [Nat.and_zero, Nat.zero_mod]
    next hne =>
      rw [Nat.and_two_pow_sub_one_eq_mod]
      have hpow : 2 ^ w ≤ 2 ^ 32 := Nat.pow_le_pow_right (by decide) hw
      have hlt : bitbuf.toNat % 2 ^ w < 2 ^ w := Nat.mod_lt _ (Nat.two_pow_pos w)
      rw [Nat.mod_eq_of_lt (Nat.lt_of_lt_of_le hlt hpow)]
      refine ⟨hlt, fun i hi ↦ ?_⟩
      rw [Nat.testBit_mod_two_pow, decide_eq_true hi, Bool.true_and]
      have hbuffer := h.buffer i (by omega)
      rwa [if_pos (show i < bitcount by omega)] at hbuffer
  · have hplace := h.place
    have hshift : (bitbuf >>> UInt64.ofNat w).toNat = bitbuf.toNat >>> w := by
      rw [UInt64.toNat_shiftRight,
        UInt64.toNat_ofNat_of_lt' (by exact Nat.lt_of_le_of_lt hw (by decide)),
        Nat.mod_eq_of_lt (by omega)]
    refine ⟨h.memory, ?_, fun i hi ↦ ?_, fun q' hq' ↦ ?_, fun q' hq' ↦ ?_⟩
    · simp only at hplace ⊢
      omega
    · simp only
      rw [hshift, Nat.testBit_shiftRight, Nat.add_assoc q]
      by_cases htop : w + i < 64
      · rw [h.buffer (w + i) htop]
        by_cases hi' : i < bitcount - w
        · rw [if_pos hi', if_pos (by simp only; omega)]
        · rw [if_neg hi', if_neg (by simp only; omega)]
      · have hclear : ¬ Spilled stream spills (q + (w + i)) := by
          rintro ⟨q', hq', -, -, hlt⟩
          have := h.before q' hq'
          omega
        have hzero : bitbuf.toNat.testBit (w + i) = false :=
          Nat.testBit_lt_two_pow (Nat.lt_of_lt_of_le bitbuf.toNat_lt
            (Nat.pow_le_pow_right (by decide) (by omega)))
        rw [hzero, if_neg (by omega), decide_eq_false hclear]
    · have := h.lost q' hq'
      simp only at this ⊢
      omega
    · have := h.before q' hq'
      omega

/-- `io_rbits_ensure_bits` and `io_rbits_pop_bits` for a field, at the end of which less than a byte
is in the buffer. -/
theorem Finds.field (h : Finds data stream spills q reader)
    (hdata : ∀ p < 8 * data.length, bitAt data p = stream.testBit p) {w : ℕ} (hpos : 1 ≤ w)
    (hw : w ≤ 32) (hroom : q + w ≤ 8 * data.length) (hfew : reader.bitcount < 8) :
    ∃ value reader', ensureThenPop reader w = .ok (value, reader') ∧
      FoundValue stream (spillsAfter spills q w) q w value ∧
      Finds data stream (spillsAfter spills q w) (q + w) reader' ∧ reader'.bitcount < 8 := by
  have hstack : Finds data stream spills q { reader with stack := reader.stack.drop 1 } :=
    ⟨h.memory, h.place, h.buffer, h.lost, h.before⟩
  obtain ⟨mid, hloop, hmid, hcount, hfew'⟩ := hstack.ensureBitsLoop hdata hw hroom
    (by simp only; omega) (by simp only; omega)
    (show w ≤ reader.bitcount + 8 * w by omega) (reader.stack 0)
  obtain ⟨value, reader', hpop, hvalue, hreader', hleft⟩ := hmid.pop hw hcount (by omega)
  refine ⟨value, reader', ?_, hvalue, hreader', by omega⟩
  rw [ensureThenPop, ioRbitsEnsureBits, if_pos (show w ≤ maxEnsure by rw [maxEnsure]; omega), hloop,
    ok_bind]
  exact hpop

end Reader

/-- A field is read back if its bits are not spoiled. -/
theorem foundValue_iff {stream q value : ℕ} {spills : List ℕ} {field : BitField}
    (hfield : ∀ i < field.width, stream.testBit (q + i) = field.value.testBit i)
    (hfound : FoundValue stream (spillsAfter spills q field.width) q field.width value) :
    value = field.value ↔
      if field.width = 32 then field.value = 0
      else ∀ i < field.width,
        if Spilled stream spills (q + i) then stream.testBit (q + i) = true
        else Lost spills (q + i) → stream.testBit (q + i) = false := by
  rw [FoundValue] at hfound
  by_cases hwide : field.width = 32
  · rw [if_pos hwide] at hfound ⊢
    rw [hfound]
    exact eq_comm
  · rw [if_neg hwide] at hfound ⊢
    obtain ⟨hlt, hbits⟩ := hfound
    have hread (i : ℕ) (hi : i < field.width) :
        value.testBit i = readBit stream spills (q + i) := by
      have hnarrow := field.narrow
      rw [hbits i hi, spillsAfter]
      split
      next => exact readBit_cons (by omega)
      next => rfl
    have hsame (i : ℕ) : readBit stream spills (q + i) = stream.testBit (q + i) ↔
        if Spilled stream spills (q + i) then stream.testBit (q + i) = true
        else Lost spills (q + i) → stream.testBit (q + i) = false := by
      rw [readBit]
      by_cases hspilled : Spilled stream spills (q + i)
      · rw [if_pos hspilled, decide_eq_true hspilled, Bool.or_true]
        exact eq_comm
      · rw [if_neg hspilled, decide_eq_false hspilled, Bool.or_false]
        by_cases hlost : Lost spills (q + i)
        · rw [decide_eq_true hlost, Bool.not_true, Bool.and_false]
          exact ⟨fun heq _ ↦ heq.symm, fun heq ↦ (heq hlost).symm⟩
        · rw [decide_eq_false hlost, Bool.not_false, Bool.and_true]
          exact ⟨fun _ h ↦ absurd h hlost, fun _ ↦ rfl⟩
    constructor
    · rintro rfl i hi
      rw [← hsame, hfield i hi, ← hread i hi]
    · intro hall
      apply Nat.eq_of_testBit_eq
      intro i
      by_cases hi : i < field.width
      · rw [hread i hi, (hsame i).mpr (hall i hi), hfield i hi]
      · have hpow : 2 ^ field.width ≤ 2 ^ i :=
          Nat.pow_le_pow_right (by decide) (Nat.le_of_not_lt hi)
        rw [Nat.testBit_lt_two_pow (Nat.lt_of_lt_of_le hlt hpow),
          Nat.testBit_lt_two_pow (Nat.lt_of_lt_of_le field.fits hpow)]

/-- The fields that are left are read back exactly if they are not spoiled. -/
theorem Finds.readFields_iff {data : List UInt8} {stream q : ℕ} {spills : List ℕ}
    {reader : IoRBits IoMem} (h : Finds data stream spills q reader)
    (hdata : ∀ p < 8 * data.length, bitAt data p = stream.testBit p) (hfew : reader.bitcount < 8)
    {fields : List BitField} (hstream : stream / 2 ^ q = streamOf fields)
    (hroom : q + widthOf fields ≤ 8 * data.length) :
    readFields reader (fields.map BitField.width) = .ok (fields.map BitField.value) ↔
      Unspoiled stream q spills fields := by
  induction fields generalizing q spills reader with
  | nil => exact ⟨fun _ ↦ trivial, fun _ ↦ rfl⟩
  | cons field fields ih =>
    rw [widthOf] at hroom
    rw [streamOf] at hstream
    obtain ⟨value, reader', hpop, hfound, hreader', hfew'⟩ :=
      h.field hdata field.positive field.narrow (by omega) hfew
    have hfield : ∀ i < field.width, stream.testBit (q + i) = field.value.testBit i := by
      intro i hi
      rw [Nat.add_comm, ← Nat.testBit_div_two_pow, hstream, testBit_above field.fits, if_pos hi]
    have hrest : stream / 2 ^ (q + field.width) = streamOf fields := by
      rw [Nat.pow_add, ← Nat.div_div_eq_div_mul, hstream, Nat.mul_add_div (Nat.two_pow_pos _),
        Nat.div_eq_of_lt field.fits, Nat.add_zero]
    have hfields := ih hreader' hfew' hrest (by omega)
    rw [Unspoiled, ← foundValue_iff hfield hfound, ← hfields, List.map_cons, List.map_cons,
      readFields, hpop, ok_bind]
    simp only [bind_eq_ok, pure_eq_ok, List.cons.injEq]
    constructor
    · rintro ⟨values, hvalues, rfl, rfl⟩
      exact ⟨rfl, hvalues⟩
    · rintro ⟨rfl, hvalues⟩
      exact ⟨_, hvalues, rfl, rfl⟩

/-- The fields are read back exactly if they are not spoiled. -/
theorem readsBack_iff (fields : List BitField) (stack : Stack) :
    ReadsBack fields stack ↔ Unspoiled (streamOf fields) 0 [] fields := by
  obtain ⟨hlength, hbits⟩ := fieldBytes_bits fields
  have hinit : Finds (fieldBytes fields) (streamOf fields) [] 0
      (ioRbitsInit (ioMemInit (fieldBytes fields)) stack) := by
    refine ⟨rfl, rfl, fun i hi ↦ ?_, fun _ h ↦ absurd h List.not_mem_nil,
      fun _ h ↦ absurd h List.not_mem_nil⟩
    have hclear : ¬ Spilled (streamOf fields) [] (0 + i) := by
      rintro ⟨q, hq, -⟩
      exact List.not_mem_nil hq
    calc (0 : UInt64).toNat.testBit i = false := Nat.zero_testBit i
      _ = decide (Spilled (streamOf fields) [] (0 + i)) := (decide_eq_false hclear).symm
      _ = _ := (if_neg (Nat.not_lt_zero i)).symm
  apply hinit.readFields_iff hbits (show 0 < 8 by decide)
  · rw [Nat.pow_zero, Nat.div_one]
  · rw [hlength]
    omega

/-- A field of 25 bits at the beginning of a byte, and two more. -/
def spilledFields : List BitField :=
  [⟨0, 25, by decide, by decide, by decide⟩, ⟨64, 7, by decide, by decide, by decide⟩,
    ⟨0, 8, by decide, by decide, by decide⟩]

/-- The top bit of the fourth byte is read again as the last field. -/
theorem readsBack_fails : ∃ fields : List BitField, ∃ stack : Stack,
    fieldBytes fields = [0, 0, 0, 128, 0, 0] ∧
      readFields (ioRbitsInit (ioMemInit (fieldBytes fields)) stack) (fields.map BitField.width) =
        .ok [0, 64, 255] ∧ ¬ ReadsBack fields stack := by
  have hread : readFields (ioRbitsInit (ioMemInit (fieldBytes spilledFields)) fun _ ↦ 0)
      (spilledFields.map BitField.width) = .ok [0, 64, 255] := by
    decide
  refine ⟨spilledFields, fun _ ↦ 0, by decide, hread, fun h ↦ ?_⟩
  rw [ReadsBack, hread] at h
  exact absurd h (by decide)

end Brutal.Io
