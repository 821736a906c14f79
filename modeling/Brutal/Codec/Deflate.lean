import Brutal.Io.BitStream
import Brutal.Lib.Loop

/-!
# Deflate

`libs/codec-deflate/deflate.c`, whose only level stores its input in uncompressed blocks.
-/

namespace Brutal.Codec

open Io Lib

/-- The bytes of a `uint16_t`. -/
def uint16Bytes (value : UInt16) : List UInt8 := [value.toUInt8, (value >>> 8).toUInt8]

section Deflate

variable {ρ ω : Type} [IoReader ρ] [IoWriter ω]

/-- `deflate_write_block_header` -/
def deflateWriteBlockHeader (bitWriter : IoWBits ω) (isFinalBlock : Bool) (blockType : UInt64) :
    IoWBits ω :=
  ioWbitsFlushBits
    (ioWbitsAddBits (ioWbitsAddBits bitWriter isFinalBlock.toUInt64 1) blockType 2)

/-- `io_write` whose result is not looked at. -/
def emit (bitWriter : IoWBits ω) (bytes : List UInt8) : IoWBits ω :=
  { bitWriter with writer := (IoWriter.write bitWriter.writer bytes).2 }

/-- `deflate_compress_block_uncompressed` -/
def deflateCompressBlockUncompressed (bitWriter : IoWBits ω) (input : List UInt8)
    (isLast : Bool) : ℕ × IoWBits ω :=
  let bitWriter := deflateWriteBlockHeader bitWriter isLast 0
  let bitWriter := ioWbitsAlignBitstream bitWriter
  let blockLen := UInt16.ofNat input.length
  let bitWriter := emit bitWriter (uint16Bytes blockLen)
  let bitWriter := emit bitWriter (uint16Bytes (~~~blockLen))
  let bitWriter := emit bitWriter input
  (input.length + 5, bitWriter)

/-- The variables of `deflate_compress_stream`. -/
structure Compressing (ρ ω : Type) where
  total : ℕ
  reader : ρ
  bitWriter : IoWBits ω

/-- The turn of `deflate_compress_stream`. -/
def compressTurn (state : Compressing ρ ω) :
    Except Stop (Compressing ρ ω ⊕ Compressing ρ ω) := do
  let (buf, reader) ← attempt (IoReader.read state.reader 65535)
  let last := decide (buf.length < 65535)
  let (size, bitWriter) := deflateCompressBlockUncompressed state.bitWriter buf last
  let state := ⟨state.total + size, reader, bitWriter⟩
  if last then return .inr state else return .inl state

/-- `deflate_compress_stream`, which returns the streams along with the size. -/
def deflateCompressStream (turns : ℕ) (writer : ω) (reader : ρ) : Except Stop (ℕ × ω × ρ) := do
  let state ← loop compressTurn .fuel turns ⟨0, reader, ioWbitsInit writer⟩
  return (state.total, state.bitWriter.writer, state.reader)

end Deflate

end Brutal.Codec
