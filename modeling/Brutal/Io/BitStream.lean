import Brutal.Io.Stream
import Mathlib.Tactic.Common

/-!
# Bit streams

`io_rbits` and `io_wbits` of `libs/brutal-io`.  The buffer is a 64-bit word; a byte or mask is
shifted as an `int` first and widened afterwards, and the hardware takes shift counts modulo the
width.
-/

namespace Brutal.Io

open Lib

/-- A 32-bit `int` as it is widened to a `BitBuf`. -/
def widen (value : Int32) : UInt64 := value.toInt64.toUInt64

/-- `b << self->bitcount` -/
def shiftedByte (b : UInt8) (bitcount : ℕ) : UInt64 :=
  widen (b.toUInt32.toInt32 <<< Int32.ofNat bitcount)

/-- `(1 << num_bits) - 1` -/
def bitMask (numBits : ℕ) : UInt64 := widen ((1 <<< Int32.ofNat numBits) - 1)

theorem bitMask_toNat {numBits : ℕ} (h : numBits < 31) :
    (bitMask numBits).toNat = 2 ^ numBits - 1 := by
  have hall : ∀ n < 31, (bitMask n).toNat = 2 ^ n - 1 := by decide
  exact hall numBits h

/-- `MAX_ENSURE` -/
def maxEnsure : ℕ := 57

/-- `IoRBits`, with the values that uninitialised variables will have. -/
structure IoRBits (ρ : Type) where
  reader : ρ
  bitbuf : UInt64
  bitcount : ℕ
  stack : Stack

/-- `io_rbits_init` -/
def ioRbitsInit {ρ : Type} (reader : ρ) (stack : Stack) : IoRBits ρ := ⟨reader, 0, 0, stack⟩

section Read

variable {ρ : Type} [IoReader ρ]

/-- The loop of `io_rbits_ensure_bits`, which adds a byte in every turn.  At the end of the input
the byte keeps the value that it had. -/
def ensureBitsLoop (numBits : ℕ) : ℕ → IoRBits ρ → UInt8 → IoResult ℕ × IoRBits ρ
  | 0, self, _ => (.ok numBits, self)
  | turns + 1, self, b =>
    if self.bitcount < numBits then
      match IoReader.read self.reader 1 with
      | (.error error, reader) => (.error error, { self with reader })
      | (.ok bytes, reader) =>
        let b := bytes.headD b
        ensureBitsLoop numBits turns
          { self with
            reader
            bitbuf := self.bitbuf ||| shiftedByte b self.bitcount
            bitcount := self.bitcount + 8 } b
    else (.ok numBits, self)

/-- `io_rbits_ensure_bits` -/
def ioRbitsEnsureBits (self : IoRBits ρ) (numBits : ℕ) : Except Stop (IoResult ℕ × IoRBits ρ) :=
  if numBits ≤ maxEnsure then
    .ok (ensureBitsLoop numBits numBits { self with stack := self.stack.drop 1 } (self.stack 0))
  else .error .panic

/-- `io_rbits_get_bits` -/
def ioRbitsGetBits (self : IoRBits ρ) (numBits : ℕ) : Except Stop ℕ :=
  if numBits ≤ self.bitcount then .ok (self.bitbuf &&& bitMask numBits).toUInt32.toNat
  else .error .panic

/-- `io_rbits_remove_bits` -/
def ioRbitsRemoveBits (self : IoRBits ρ) (numBits : ℕ) : Except Stop (IoRBits ρ) :=
  if numBits ≤ self.bitcount then
    .ok { self with
      bitbuf := self.bitbuf >>> UInt64.ofNat numBits
      bitcount := self.bitcount - numBits }
  else .error .panic

/-- `io_rbits_pop_bits` -/
def ioRbitsPopBits (self : IoRBits ρ) (numBits : ℕ) : Except Stop (ℕ × IoRBits ρ) := do
  let result ← ioRbitsGetBits self numBits
  let self ← ioRbitsRemoveBits self numBits
  return (result, self)

/-- `io_rbits_align` -/
def ioRbitsAlign (self : IoRBits ρ) : Except Stop (IoRBits ρ) :=
  ioRbitsRemoveBits self (self.bitcount % 8)

omit [IoReader ρ] in
theorem ioRbitsPopBits_eq (reader : ρ) (bitbuf : UInt64) (stack : Stack) {bitcount numBits : ℕ}
    (h : numBits ≤ bitcount) :
    ioRbitsPopBits ⟨reader, bitbuf, bitcount, stack⟩ numBits =
      .ok ((bitbuf &&& bitMask numBits).toUInt32.toNat,
        ⟨reader, bitbuf >>> UInt64.ofNat numBits, bitcount - numBits, stack⟩) := by
  simp only [ioRbitsPopBits, ioRbitsGetBits, ioRbitsRemoveBits, if_pos h, ok_bind]
  rfl

/-- The callers of `io_rbits_ensure_bits` do not look at its result. -/
def ensureThenPop (self : IoRBits ρ) (numBits : ℕ) : Except Stop (ℕ × IoRBits ρ) := do
  let (_, self) ← ioRbitsEnsureBits self numBits
  ioRbitsPopBits self numBits

end Read

/-- `IoWBits` -/
structure IoWBits (ω : Type) where
  writer : ω
  bitbuf : UInt64
  bitcount : ℕ

/-- `io_wbits_init` -/
def ioWbitsInit {ω : Type} (writer : ω) : IoWBits ω := ⟨writer, 0, 0⟩

section Write

variable {ω : Type} [IoWriter ω]

/-- `io_wbits_add_bits` -/
def ioWbitsAddBits (self : IoWBits ω) (bits : UInt64) (numBits : ℕ) : IoWBits ω :=
  { self with
    bitbuf := self.bitbuf ||| (bits <<< UInt64.ofNat self.bitcount)
    bitcount := self.bitcount + numBits }

/-- The loop of `io_wbits_flush_bits`. -/
def flushBitsLoop : ℕ → IoWBits ω → IoWBits ω
  | 0, self => self
  | turns + 1, self =>
    if 8 ≤ self.bitcount then
      flushBitsLoop turns
        { writer := (IoWriter.write self.writer [self.bitbuf.toUInt8]).2
          bitbuf := self.bitbuf >>> 8
          bitcount := self.bitcount - 8 }
    else self

/-- `io_wbits_flush_bits` -/
def ioWbitsFlushBits (self : IoWBits ω) : IoWBits ω :=
  flushBitsLoop (self.bitcount / 8) self

/-- `io_wbits_align_bitstream` -/
def ioWbitsAlignBitstream (self : IoWBits ω) : IoWBits ω :=
  ioWbitsFlushBits { self with bitcount := self.bitcount + (8 - self.bitcount % 8) % 8 }

end Write

end Brutal.Io
