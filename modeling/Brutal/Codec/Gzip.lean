import Brutal.Codec.Deflate
import Brutal.Codec.Inflate
import Brutal.Hash.Crc32

/-!
# Gzip

`libs/codec-gzip/gzip.c`: a header, the deflated data, and the checksum and length of the data in
32 bits each.
-/

namespace Brutal.Codec

open Io Hash Lib

/-- A `le_uint32_t` as it is loaded. -/
def leLoad32 (bytes : List UInt8) : UInt32 :=
  (bytes.getD 0 0).toUInt32 ||| ((bytes.getD 1 0).toUInt32 <<< 8) |||
    ((bytes.getD 2 0).toUInt32 <<< 16) ||| ((bytes.getD 3 0).toUInt32 <<< 24)

/-- A `le_uint32_t` as it is stored. -/
def leStore32 (value : UInt32) : List UInt8 :=
  [value.toUInt8, (value >>> 8).toUInt8, (value >>> 16).toUInt8, (value >>> 24).toUInt8]

section Gzip

variable {ρ ω : Type} [IoReader ρ] [IoWriter ω]

/-- `TRY` of `io_read_byte` into a variable with a value. -/
def readByte (reader : ρ) (old : UInt8) : Except Stop (UInt8 × ρ) := do
  let (bytes, reader) ← attempt (IoReader.read reader 1)
  return (bytes.headD old, reader)

/-- `TRY` of `io_read` into a variable of several bytes. -/
def readBytes (reader : ρ) (old : List UInt8) : Except Stop (List UInt8 × ρ) := do
  let (bytes, reader) ← attempt (IoReader.read reader old.length)
  return (store old bytes, reader)

/-- The turn of the loops that skip the file name and the comment. -/
def textTurn (state : UInt8 × ρ) : Except Stop ((UInt8 × ρ) ⊕ ρ) := do
  let (val, reader) ← readByte state.2 state.1
  if val ≠ 0 then return .inl (val, reader) else return .inr reader

/-- The fields of the header that come with a flag: extra data, a file name, a comment and a
checksum of the header, which is not compared. -/
def skipOptional (turns : ℕ) (flags : UInt8) (reader : ρ) (stack : Stack) : Except Stop ρ := do
  let reader ←
    if flags &&& 4 ≠ 0 then
      let (value, reader) ← readBytes reader (stack.take 2)
      let (_, reader) ← ioSkip reader (uint16Of value).toNat
      pure reader
    else pure reader
  let reader ← if flags &&& 8 ≠ 0 then loop textTurn .fuel turns (0, reader) else pure reader
  let reader ← if flags &&& 16 ≠ 0 then loop textTurn .fuel turns (0, reader) else pure reader
  if flags &&& 2 ≠ 0 then
    let (_, reader) ← readBytes reader ((stack.drop 2).take 2)
    return reader
  else return reader

/-- The header, up to the deflated data. -/
def readHeader (turns : ℕ) (reader : ρ) (stack : Stack) : Except Stop ρ := do
  let (id1, reader) ← readByte reader (stack 0)
  let (id2, reader) ← readByte reader (stack 1)
  -- Check this a valid gzip stream
  if id1 ≠ 0x1f ∨ id2 ≠ 0x8b then throw (.error .invalidData)
  let (cm, reader) ← readByte reader (stack 2)
  -- Check method is deflate
  if cm ≠ 8 then throw (.error .notImplemented)
  let (flags, reader) ← readByte reader (stack 3)
  -- Check that reserved bits are zero
  if flags &&& 0xE0 ≠ 0 then throw (.error .invalidData)
  let (_, reader) ← ioSkip reader 6
  skipOptional turns flags reader (stack.drop 4)

/-- `gzip_decompress_stream`, which returns the writer along with the size. -/
def gzipDecompressStream (turns : ℕ) (writer : ω) (reader : ρ) (stack : Stack) :
    Except Stop (ℕ × ω) := do
  let reader ← readHeader turns reader stack
  let (decompressed, crc, reader, stack) ←
    deflateDecompressStream turns (crc32Init writer) reader (stack.drop 8)
  let (value, reader) ← readBytes reader (stack.take 4)
  if leLoad32 value ≠ crc32Get crc then throw (.error .checksumMismatch)
  -- Get the stored size of the uncompressed data
  let (value, _) ← readBytes reader value
  if (leLoad32 value).toNat ≠ decompressed then throw (.error .invalidData)
  return (decompressed, crc.base)

/-- The header that `gzip_compress_stream` writes, a byte at a time. -/
def headerBytes : List UInt8 := [0x1f, 0x8b, 8, 0, 0, 0, 0, 0, 0, 0]

def writeByte (writer : ω) (byte : UInt8) : Except Stop ω := do
  let (_, writer) ← attempt (IoWriter.write writer [byte])
  return writer

/-- `gzip_compress_stream`, which returns the writer along with the size. -/
def gzipCompressStream (turns : ℕ) (writer : ω) (reader : ρ) : Except Stop (ℕ × ω) := do
  let writer ← headerBytes.foldlM writeByte writer
  let (compressed, writer, crc) ← deflateCompressStream turns writer (crc32Init reader)
  let (_, writer) ← attempt (IoWriter.write writer (leStore32 (crc32Get crc)))
  -- Write size of original data
  let (_, writer) ← attempt (IoWriter.write writer (leStore32 (UInt32.ofNat (crc32Count crc))))
  return (compressed, writer)

end Gzip

/-- `gzip_decompress_data`, which returns the output buffer along with the size. -/
def gzipDecompressData (turns : ℕ) (stack : Stack) (input output : List UInt8) :
    Except Stop (ℕ × List UInt8) := do
  let (size, writer) ← gzipDecompressStream turns (ioMemInit output) (ioMemInit input) stack
  return (size, writer.data)

/-- `gzip_compress_data`, which returns the output buffer along with the size. -/
def gzipCompressData (turns : ℕ) (input output : List UInt8) : Except Stop (ℕ × List UInt8) := do
  let (size, writer) ← gzipCompressStream turns (ioMemInit output) (ioMemInit input)
  return (size, writer.data)

end Brutal.Codec
