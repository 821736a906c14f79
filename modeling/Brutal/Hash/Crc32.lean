import Brutal.Io.Stream

/-!
# Checksums of streams

`libs/brutal-hash/crc32.c`: the CRC-32 of the bytes that go through a reader or a writer.
-/

namespace Brutal.Hash

open Io

/-- `crc32tab` -/
def crc32tab : List UInt32 :=
  [0x00000000, 0x1DB71064, 0x3B6E20C8, 0x26D930AC, 0x76DC4190, 0x6B6B51F4, 0x4DB26158, 0x5005713C,
    0xEDB88320, 0xF00F9344, 0xD6D6A3E8, 0xCB61B38C, 0x9B64C2B0, 0x86D3D2D4, 0xA00AE278, 0xBDBDF21C]

/-- The step of `crc32_impl` for four bits; the index is below the length of the table. -/
def crc32Nibble (crc : UInt32) : UInt32 :=
  crc32tab.getD (crc &&& 0x0F).toNat 0 ^^^ (crc >>> 4)

def crc32Byte (crc : UInt32) (byte : UInt8) : UInt32 :=
  crc32Nibble (crc32Nibble (crc ^^^ byte.toUInt32))

/-- `crc32_impl` -/
def crc32Impl (crc : UInt32) (data : List UInt8) : UInt32 :=
  data.foldl crc32Byte crc

theorem crc32Impl_append (crc : UInt32) (first second : List UInt8) :
    crc32Impl crc (first ++ second) = crc32Impl (crc32Impl crc first) second :=
  List.foldl_append

/-- `Crc32` over a reader or a writer. -/
structure Crc32 (σ : Type) where
  crc : UInt32
  count : ℕ
  base : σ

/-- `crc32_init_reader` and `crc32_init_writer` -/
def crc32Init {σ : Type} (base : σ) : Crc32 σ := ⟨0xFFFFFFFF, 0, base⟩

/-- `crc32_write_impl` -/
def crc32Write {ω : Type} [IoWriter ω] (self : Crc32 ω) (data : List UInt8) :
    IoResult ℕ × Crc32 ω :=
  let (result, base) := IoWriter.write self.base data
  (result, ⟨crc32Impl self.crc data, self.count + data.length, base⟩)

/-- `crc32_read_impl` -/
def crc32Read {ρ : Type} [IoReader ρ] (self : Crc32 ρ) (size : ℕ) :
    IoResult (List UInt8) × Crc32 ρ :=
  match IoReader.read self.base size with
  | (.error error, base) => (.error error, { self with base })
  | (.ok data, base) =>
    (.ok data, ⟨crc32Impl self.crc data, self.count + data.length, base⟩)

instance {ω : Type} [IoWriter ω] : IoWriter (Crc32 ω) := ⟨crc32Write⟩

instance {ρ : Type} [IoReader ρ] : IoReader (Crc32 ρ) := ⟨crc32Read⟩

/-- `crc32_get` -/
def crc32Get {σ : Type} (self : Crc32 σ) : UInt32 := self.crc ^^^ 0xFFFFFFFF

/-- `crc32_count` -/
def crc32Count {σ : Type} (self : Crc32 σ) : ℕ := self.count

/-- `crc32` -/
def crc32 (data : List UInt8) : UInt32 := crc32Impl 0xFFFFFFFF data ^^^ 0xFFFFFFFF

/-- A checksum that has seen the given bytes, over a reader or writer that has. -/
structure CrcRep {σ : Type} (rep : List UInt8 → σ → Prop) (taken : List UInt8) (stream : Crc32 σ) :
    Prop where
  base : rep taken stream.base
  crc : stream.crc = crc32Impl 0xFFFFFFFF taken
  count : stream.count = taken.length

theorem CrcRep.get {σ : Type} {rep : List UInt8 → σ → Prop} {taken : List UInt8} {self : Crc32 σ}
    (h : CrcRep rep taken self) : crc32Get self = crc32 taken := by
  rw [crc32Get, crc32, h.crc]

theorem takes_crc32 {ω : Type} [IoWriter ω] {rep : List UInt8 → ω → Prop} {limit bound : ℕ}
    (h : Takes rep limit bound) : Takes (CrcRep rep) limit bound := by
  intro taken self bytes hself hlimit hbound
  obtain ⟨base, hwrite, hrep⟩ := h taken self.base bytes hself.base hlimit hbound
  have hcrc : IoWriter.write self bytes =
      (.ok bytes.length, ⟨crc32Impl self.crc bytes, self.count + bytes.length, base⟩) := by
    change crc32Write self bytes = _
    simp only [crc32Write, hwrite]
  refine ⟨_, hcrc, hrep, ?_, ?_⟩
  · rw [crc32Impl_append, ← hself.crc]
  · rw [List.length_append, ← hself.count]

end Brutal.Hash
