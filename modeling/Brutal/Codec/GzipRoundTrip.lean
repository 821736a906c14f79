import Brutal.Codec.Gzip

/-!
# Gzip round trip

What `gzip_compress_data` writes for a string of any length, and what `gzip_decompress_data` makes
of it.  The blocks come back whole, and so do the checksum and the length modulo `2 ^ 32`; the
length is then compared with the full number of bytes.
-/

namespace Brutal.Codec

open Io Hash Lib

theorem uint16Of_uint16Bytes (value : UInt16) : uint16Of (uint16Bytes value) = value := by
  apply UInt16.eq_of_toBitVec_eq
  simp only [uint16Of, uint16Bytes, List.getD_cons_zero, List.getD_cons_succ, UInt16.toBitVec_or,
    UInt16.toBitVec_shiftLeft, UInt8.toBitVec_toUInt16, UInt16.toBitVec_toUInt8,
    UInt16.toBitVec_shiftRight]
  ext i hi
  simp
  grind

theorem leLoad32_leStore32 (value : UInt32) : leLoad32 (leStore32 value) = value := by
  apply UInt32.eq_of_toBitVec_eq
  simp only [leLoad32, leStore32, List.getD_cons_zero, List.getD_cons_succ, UInt32.toBitVec_or,
    UInt32.toBitVec_shiftLeft, UInt8.toBitVec_toUInt32, UInt32.toBitVec_toUInt8,
    UInt32.toBitVec_shiftRight]
  ext i hi
  simp
  grind

/-- An uncompressed block. -/
def storedBytes (last : Bool) (chunk : List UInt8) : List UInt8 :=
  last.toUInt8 :: (uint16Bytes (UInt16.ofNat chunk.length) ++
    (uint16Bytes (~~~UInt16.ofNat chunk.length) ++ chunk))

/-- The blocks of a string: full ones, and a last one that is not full. -/
def storedBlocks (x : List UInt8) : List UInt8 :=
  if x.length < 65535 then storedBytes true x
  else storedBytes false (x.take 65535) ++ storedBlocks (x.drop 65535)
termination_by x.length
decreasing_by
  rw [List.length_drop]
  omega

theorem length_storedBytes (last : Bool) (chunk : List UInt8) :
    (storedBytes last chunk).length = chunk.length + 5 := by
  simp only [storedBytes, uint16Bytes, List.length_cons, List.length_append, List.length_nil]
  omega

/-- Five bytes for every block. -/
theorem length_storedBlocks (x : List UInt8) :
    (storedBlocks x).length = x.length + 5 * (x.length / 65535 + 1) := by
  induction x using storedBlocks.induct with
  | case1 x h =>
    rw [storedBlocks, if_pos h, length_storedBytes]
    omega
  | case2 x h ih =>
    rw [storedBlocks, if_neg h, List.length_append, length_storedBytes, ih, List.length_take,
      List.length_drop]
    omega

/-- All that `gzip_compress_data` writes. -/
def gzipBytes (x : List UInt8) : List UInt8 :=
  headerBytes ++ (storedBlocks x ++ (leStore32 (crc32 x) ++ leStore32 (UInt32.ofNat x.length)))

/-- The space that it takes: header and trailer, and five bytes for every block. -/
def gzipSize (x : List UInt8) : ℕ := 18 + x.length + 5 * (x.length / 65535 + 1)

theorem length_gzipBytes (x : List UInt8) : (gzipBytes x).length = gzipSize x := by
  simp only [gzipBytes, headerBytes, leStore32, List.length_append, List.length_cons,
    List.length_nil, length_storedBlocks, gzipSize]
  omega

section Compress

variable {ω : Type} [IoWriter ω] {rep : List UInt8 → ω → Prop}

/-- The buffer `out` after some bytes were written to it. -/
def MemRep (out taken : List UInt8) (writer : IoMem) : Prop :=
  writer = memAfter out taken

theorem swallows_mem (out : List UInt8) : Swallows (MemRep out) := by
  rintro taken writer bytes rfl
  exact ⟨_, _, write_memAfter out taken bytes, rfl⟩

theorem takes_mem (out : List UInt8) (limit : ℕ) : Takes (MemRep out) limit out.length := by
  rintro taken writer bytes rfl _ hbound
  rw [List.length_append] at hbound
  refine ⟨_, ?_, rfl⟩
  rw [write_memAfter, min_eq_right (by omega)]

theorem rep_emit (hswallows : Swallows rep) {taken : List UInt8} (bitWriter : IoWBits ω)
    (hrep : rep taken bitWriter.writer) (bytes : List UInt8) :
    rep (taken ++ bytes) (emit bitWriter bytes).writer := by
  obtain ⟨count, writer, hwrite, hrep'⟩ := hswallows taken _ bytes hrep
  simp only [emit, hwrite]
  exact hrep'

/-- The three bits of the header and the alignment make one byte. -/
theorem writeBlockHeader_eq (writer : ω) (last : Bool) :
    ioWbitsAlignBitstream (deflateWriteBlockHeader ⟨writer, 0, 0⟩ last 0) =
      emit ⟨writer, 0, 0⟩ [last.toUInt8] := by
  have hheader : deflateWriteBlockHeader ⟨writer, 0, 0⟩ last 0 = ⟨writer, last.toUInt64, 3⟩ := by
    cases last <;> simp [deflateWriteBlockHeader, ioWbitsAddBits, ioWbitsFlushBits, flushBitsLoop]
  have hbyte : last.toUInt64.toUInt8 = last.toUInt8 ∧ last.toUInt64 >>> 8 = 0 := by
    cases last <;> decide
  simp [hheader, ioWbitsAlignBitstream, ioWbitsFlushBits, flushBitsLoop, emit, hbyte]

theorem compressBlock_eq (hswallows : Swallows rep) {taken : List UInt8} {writer : ω}
    (hrep : rep taken writer) (chunk : List UInt8) (last : Bool) :
    ∃ writer', deflateCompressBlockUncompressed ⟨writer, 0, 0⟩ chunk last =
      (chunk.length + 5, ⟨writer', 0, 0⟩) ∧ rep (taken ++ storedBytes last chunk) writer' := by
  have hbyte := rep_emit hswallows ⟨writer, 0, 0⟩ hrep [last.toUInt8]
  have hlen := rep_emit hswallows _ hbyte (uint16Bytes (UInt16.ofNat chunk.length))
  have hnlen := rep_emit hswallows _ hlen (uint16Bytes (~~~UInt16.ofNat chunk.length))
  have hchunk := rep_emit hswallows _ hnlen chunk
  simp only [List.append_assoc, List.singleton_append] at hchunk
  refine ⟨_, ?_, hchunk⟩
  rw [deflateCompressBlockUncompressed, writeBlockHeader_eq]
  rfl

/-- The checksum reader after it has delivered some bytes. -/
def crcAt (before rest : List UInt8) : Crc32 IoMem :=
  ⟨crc32Impl 0xFFFFFFFF before, before.length, memAt before rest⟩

theorem delivers_crcAt : Delivers crcAt := by
  intro before bytes rest size hsize
  change crc32Read _ _ = _
  simp only [crc32Read, crcAt, delivers_memAt before bytes rest size hsize, crc32Impl_append,
    List.length_append]

/-- The loop of `deflate_compress_stream` writes the blocks of what is left to read, and counts
their bytes. -/
theorem compressLoop_eq {ρ : Type} [IoReader ρ] {source : List UInt8 → List UInt8 → ρ}
    (hsource : Delivers source) (hswallows : Swallows rep) (x : List UInt8) :
    ∀ (taken before : List UInt8) (writer : ω) (total turns : ℕ), rep taken writer →
      x.length < turns →
      ∃ writer', loop compressTurn .fuel turns
        ⟨total, source before x, (⟨writer, 0, 0⟩ : IoWBits ω)⟩ =
          .ok ⟨total + (storedBlocks x).length, source (before ++ x) [], ⟨writer', 0, 0⟩⟩ ∧
        rep (taken ++ storedBlocks x) writer' := by
  induction x using storedBlocks.induct with
  | case1 x h =>
    intro taken before writer total turns hrep hturns
    rw [storedBlocks, if_pos h]
    rw [length_storedBytes]
    obtain ⟨writer', hblock, hrep'⟩ := compressBlock_eq hswallows hrep x true
    obtain ⟨turns, rfl⟩ := Nat.exists_eq_add_of_lt hturns
    have hread := hsource before x [] 65535 (Or.inr ⟨h.le, rfl⟩)
    rw [List.append_nil] at hread
    have hturn : compressTurn ⟨total, source before x, (⟨writer, 0, 0⟩ : IoWBits ω)⟩ =
        .ok (.inr ⟨total + (x.length + 5), source (before ++ x) [], ⟨writer', 0, 0⟩⟩) := by
      simp only [compressTurn, hread, attempt_ok, ok_bind, h, decide_true, hblock, if_true]
      rfl
    exact ⟨writer', loop_leave hturn _, hrep'⟩
  | case2 x h ih =>
    intro taken before writer total turns hrep hturns
    rw [storedBlocks, if_neg h]
    obtain ⟨chunk, tail, hsplit, hlength, htake, hdrop⟩ : ∃ chunk tail, x = chunk ++ tail ∧
        chunk.length = 65535 ∧ x.take 65535 = chunk ∧ x.drop 65535 = tail :=
      ⟨x.take 65535, x.drop 65535, (List.take_append_drop _ _).symm,
        by rw [List.length_take]; omega, rfl, rfl⟩
    rw [htake, hdrop]
    rw [hdrop] at ih
    rw [← List.append_assoc]
    obtain ⟨writer', hblock, hrep'⟩ := compressBlock_eq hswallows hrep chunk false
    have hread := hsource before chunk tail 65535 (Or.inl hlength)
    have hturn : compressTurn ⟨total, source before x, (⟨writer, 0, 0⟩ : IoWBits ω)⟩ =
        .ok (.inl ⟨total + (chunk.length + 5), source (before ++ chunk) tail,
          ⟨writer', 0, 0⟩⟩) := by
      simp only [compressTurn, hsplit, hread, attempt_ok, ok_bind, hlength, Nat.lt_irrefl,
        decide_false, hblock]
      rfl
    rw [hsplit, List.length_append] at hturns
    obtain ⟨turns, rfl⟩ := Nat.exists_eq_add_of_lt hturns
    obtain ⟨writer'', hloop, hrep''⟩ := ih _ (before ++ chunk) _
      (total + (chunk.length + 5)) _ hrep'
      (show tail.length < chunk.length + tail.length + turns by omega)
    refine ⟨writer'', ?_, hrep''⟩
    rw [loop_turn hturn, hloop, hsplit, List.append_assoc, List.length_append, length_storedBytes,
      Nat.add_assoc]

theorem writeHeader_eq (hswallows : Swallows rep) (bytes : List UInt8) :
    ∀ (taken : List UInt8) (writer : ω), rep taken writer →
      ∃ writer', bytes.foldlM writeByte writer = (.ok writer' : Except Stop ω) ∧
        rep (taken ++ bytes) writer' := by
  induction bytes with
  | nil =>
    intro taken writer hrep
    exact ⟨writer, rfl, by rwa [List.append_nil]⟩
  | cons byte bytes ih =>
    intro taken writer hrep
    rw [List.append_cons]
    obtain ⟨count, writer', hwrite, hrep'⟩ := hswallows taken writer [byte] hrep
    obtain ⟨writer'', hfold, hrep''⟩ := ih _ writer' hrep'
    refine ⟨writer'', ?_, hrep''⟩
    rw [List.foldlM_cons, writeByte, hwrite]
    exact hfold

theorem deflateCompressStream_eq {ρ : Type} [IoReader ρ] {source : List UInt8 → List UInt8 → ρ}
    (hsource : Delivers source) (hswallows : Swallows rep) {taken : List UInt8} {writer : ω}
    (hrep : rep taken writer) (x : List UInt8) {turns : ℕ} (hturns : x.length < turns) :
    ∃ writer', deflateCompressStream turns writer (source [] x) =
        .ok ((storedBlocks x).length, writer', source x []) ∧
      rep (taken ++ storedBlocks x) writer' := by
  obtain ⟨writer', hloop, hrep'⟩ := compressLoop_eq hsource hswallows x taken [] writer 0 turns
    hrep hturns
  rw [List.nil_append, Nat.zero_add] at hloop
  refine ⟨writer', ?_, hrep'⟩
  rw [deflateCompressStream, ioWbitsInit, hloop]
  rfl

theorem gzipCompressStream_eq (hswallows : Swallows rep) {writer : ω} (hrep : rep [] writer)
    (x : List UInt8) {turns : ℕ} (hturns : x.length < turns) :
    ∃ writer', gzipCompressStream turns writer (ioMemInit x) =
        .ok ((storedBlocks x).length, writer') ∧
      rep (gzipBytes x) writer' := by
  obtain ⟨w₁, hheader, hrep₁⟩ := writeHeader_eq hswallows headerBytes [] writer hrep
  rw [List.nil_append] at hrep₁
  obtain ⟨w₂, hstream, hrep₂⟩ := deflateCompressStream_eq delivers_crcAt hswallows hrep₁ x hturns
  obtain ⟨_, w₃, hcrc, hrep₃⟩ := hswallows _ w₂ (leStore32 (crc32 x)) hrep₂
  obtain ⟨_, w₄, hcount, hrep₄⟩ := hswallows _ w₃ (leStore32 (UInt32.ofNat x.length)) hrep₃
  refine ⟨w₄, ?_, by simpa only [gzipBytes, List.append_assoc] using hrep₄⟩
  have hinit : crc32Init (ioMemInit x) = crcAt [] x := rfl
  rw [gzipCompressStream, hheader, ok_bind, hinit, hstream, ok_bind]
  simp only [show crc32Get (crcAt x []) = crc32 x from rfl, hcrc, attempt_ok, ok_bind]
  simp only [show crc32Count (crcAt x []) = x.length from rfl, hcount, attempt_ok, ok_bind]
  rfl

end Compress

/-- What `gzip_compress_data` leaves in a buffer: as much of the result as fits. -/
theorem gzipCompressData_eq (x out : List UInt8) {turns : ℕ} (hturns : x.length < turns) :
    gzipCompressData turns x out =
      .ok ((storedBlocks x).length,
        (gzipBytes x).take out.length ++ out.drop (gzipSize x)) := by
  obtain ⟨writer, hstream, hrep⟩ := gzipCompressStream_eq (swallows_mem out)
    (ioMemInit_eq_memAfter out) x hturns
  have hdata : writer.data = (gzipBytes x).take out.length ++ out.drop (gzipSize x) := by
    rw [hrep, memAfter, length_gzipBytes]
  simp only [gzipCompressData, hstream, ok_bind, hdata]
  rfl

/-! ## Decompression -/

theorem readByte_memAt (before rest : List UInt8) (byte old : UInt8) :
    readByte (memAt before (byte :: rest)) old = .ok (byte, memAt (before ++ [byte]) rest) := by
  have hread := read_memAt before [byte] rest
  rw [List.singleton_append, List.length_singleton] at hread
  rw [readByte, hread]
  rfl

theorem readBytes_memAt (before bytes rest old : List UInt8) (h : old.length = bytes.length) :
    readBytes (memAt before (bytes ++ rest)) old = .ok (bytes, memAt (before ++ bytes) rest) := by
  simp only [readBytes, h, read_memAt, attempt_ok, ok_bind, store_eq h.le]
  rfl

theorem ioSkip_memAt (before bytes rest : List UInt8) :
    ioSkip (memAt before (bytes ++ rest)) bytes.length =
      .ok (bytes.length, memAt (before ++ bytes) rest) := by
  have htakes : Takes (fun _ (_ : IoSink) ↦ True) 512 bytes.length :=
    fun _ writer _ _ _ _ ↦ ⟨writer, rfl, trivial⟩
  obtain ⟨writer, hcopy, -⟩ := ioCopyN_of_takes htakes before bytes rest []
    (trivial : (fun _ (_ : IoSink) ↦ True) [] IoSink.mk) (by rw [List.nil_append])
  rw [ioSkip, hcopy]
  rfl

/-- The header that was written is skipped. -/
theorem readHeader_headerBytes (rest : List UInt8) (turns : ℕ) (stack : Stack) :
    readHeader turns (memAt [] (headerBytes ++ rest)) stack = .ok (memAt headerBytes rest) := by
  have hskip := ioSkip_memAt [0x1f, 0x8b, 8, 0] [0, 0, 0, 0, 0, 0] rest
  simp only [List.cons_append, List.nil_append, List.length_cons, List.length_nil, Nat.zero_add,
    Nat.reduceAdd] at hskip
  simp only [readHeader, headerBytes, List.cons_append, List.nil_append, readByte_memAt, ok_bind]
  simp [hskip, skipOptional]

section Decompress

variable {ω : Type} [IoWriter ω] {rep : List UInt8 → ω → Prop} {bound : ℕ}

/-- The header of an uncompressed block is in one byte. -/
theorem blockHeader_stored (before rest : List UInt8) (last : Bool) (stack : Stack) :
    blockHeader (⟨memAt before (last.toUInt8 :: rest), 0, 0, stack⟩ : IoRBits IoMem) =
      .ok ((last, 0), ⟨memAt (before ++ [last.toUInt8]) rest, 0, 5, stack.drop 1⟩) := by
  have hread := read_memAt before [last.toUInt8] rest
  rw [List.singleton_append, List.length_singleton] at hread
  have hensure : ioRbitsEnsureBits
      (⟨memAt before (last.toUInt8 :: rest), 0, 0, stack⟩ : IoRBits IoMem) 3 =
        .ok (.ok 3, ⟨memAt (before ++ [last.toUInt8]) rest, last.toUInt64, 8, stack.drop 1⟩) := by
    have hbyte : 0 ||| shiftedByte last.toUInt8 0 = last.toUInt64 := by
      cases last <;> decide
    simp [ioRbitsEnsureBits, maxEnsure, ensureBitsLoop, hread, hbyte]
  have hfinal : ioRbitsPopBits (⟨memAt (before ++ [last.toUInt8]) rest, last.toUInt64, 8,
      stack.drop 1⟩ : IoRBits IoMem) 1 =
        .ok (last.toNat, ⟨memAt (before ++ [last.toUInt8]) rest, 0, 7, stack.drop 1⟩) := by
    have hbit : (last.toUInt64 &&& bitMask 1).toUInt32.toNat = last.toNat ∧
        last.toUInt64 >>> UInt64.ofNat 1 = 0 := by
      cases last <;> decide
    rw [ioRbitsPopBits_eq _ _ _ (by decide), hbit.1, hbit.2]
  have htype : ioRbitsPopBits (⟨memAt (before ++ [last.toUInt8]) rest, 0, 7,
      stack.drop 1⟩ : IoRBits IoMem) 2 =
        .ok (0, ⟨memAt (before ++ [last.toUInt8]) rest, 0, 5, stack.drop 1⟩) := by
    rw [ioRbitsPopBits_eq _ _ _ (by decide)]
    simp
  have hlast : (last.toNat == 1) = last := by cases last <;> rfl
  simp only [blockHeader, hensure, ok_bind, hfinal, htype, hlast]
  rfl

/-- The sizes of a block that was written, from the next byte on. -/
theorem storedSizes_eq {reader : IoRBits IoMem} {before rest : List UInt8} {len : UInt16}
    {stack : Stack}
    (halign : ioRbitsAlign reader =
      .ok ⟨memAt before (uint16Bytes len ++ (uint16Bytes (~~~len) ++ rest)), 0, 0, stack⟩) :
    storedSizes reader =
      .ok ((len, ~~~len), ⟨memAt (before ++ uint16Bytes len ++ uint16Bytes (~~~len)) rest, 0, 0,
        stack.drop 4⟩) := by
  have hlen : IoReader.read (memAt before (uint16Bytes len ++ (uint16Bytes (~~~len) ++ rest))) 2 =
      (.ok (uint16Bytes len), memAt (before ++ uint16Bytes len) (uint16Bytes (~~~len) ++ rest)) :=
    read_memAt before (uint16Bytes len) _
  have hnlen : IoReader.read (memAt (before ++ uint16Bytes len) (uint16Bytes (~~~len) ++ rest)) 2 =
      (.ok (uint16Bytes (~~~len)),
        memAt (before ++ uint16Bytes len ++ uint16Bytes (~~~len)) rest) :=
    read_memAt _ (uint16Bytes (~~~len)) _
  have hstore : ∀ (s : Stack) (value : UInt16), store (s.take 2) (uint16Bytes value) =
      uint16Bytes value := fun s value ↦ store_eq (by simp [Stack.take, uint16Bytes])
  simp only [storedSizes, halign, ok_bind, hlen, hnlen, attempt_ok, hstore, uint16Of_uint16Bytes]
  rfl

/-- A stored block that was written comes back, from the next byte on. -/
theorem storedBlock_eq (htakes : ∀ limit, Takes rep limit bound) {taken chunk : List UInt8}
    {window : IoWindow ω} (hwindow : WindowRep rep taken window ∧ window.capacity = 0x8000)
    (hchunk : chunk.length ≤ 65535) (hbound : (taken ++ chunk).length ≤ bound)
    {before rest : List UInt8} (lengthTree distTree : HuffTree) {stack : Stack}
    {reader : IoRBits IoMem}
    (halign : ioRbitsAlign reader =
      .ok ⟨memAt before (uint16Bytes (UInt16.ofNat chunk.length) ++
        (uint16Bytes (~~~UInt16.ofNat chunk.length) ++ (chunk ++ rest))), 0, 0, stack⟩) :
    ∃ window', storedBlock ⟨lengthTree, distTree, window, reader⟩ =
        .ok (chunk.length, ⟨lengthTree, distTree, window',
          ⟨memAt (before ++ uint16Bytes (UInt16.ofNat chunk.length) ++
            uint16Bytes (~~~UInt16.ofNat chunk.length) ++ chunk) rest, 0, 0, stack.drop 4⟩⟩) ∧
      WindowRep rep (taken ++ chunk) window' ∧ window'.capacity = 0x8000 := by
  have hlen : (UInt16.ofNat chunk.length).toNat = chunk.length :=
    UInt16.toNat_ofNat_of_lt (Nat.lt_succ_of_le hchunk)
  have hsizes := storedSizes_eq halign
  have htake := takes_window htakes (show 512 ≤ 0x8000 by decide) (by decide)
  obtain ⟨window', hcopy, hwindow'⟩ := ioCopyN_of_takes htake
    (before ++ uint16Bytes (UInt16.ofNat chunk.length) ++
      uint16Bytes (~~~UInt16.ofNat chunk.length)) chunk rest taken hwindow hbound
  refine ⟨window', ?_, hwindow'⟩
  simp only [storedBlock, hsizes, ok_bind, ne_eq, UInt16.not_not, not_true_eq_false, if_false, hlen,
    hcopy]
  rfl

/-- A decompressor at the start of a block, with nothing left in its bit buffer. -/
structure AtBlock (rep : List UInt8 → ω → Prop) (before rest taken : List UInt8)
    (ctx : DeflateDecompressor IoMem ω) : Prop where
  reader : ∃ stack, ctx.bitReader = ⟨memAt before rest, 0, 0, stack⟩
  window : WindowRep rep taken ctx.window ∧ ctx.window.capacity = 0x8000

/-- A block that was written comes back. -/
theorem decompressBlock_stored (htakes : ∀ limit, Takes rep limit bound)
    {before rest taken chunk : List UInt8} {ctx : DeflateDecompressor IoMem ω} (last : Bool)
    (h : AtBlock rep before (storedBytes last chunk ++ rest) taken ctx)
    (hchunk : chunk.length ≤ 65535) (hbound : (taken ++ chunk).length ≤ bound) (turns : ℕ) :
    ∃ ctx', deflateDecompressBlock turns ctx = .ok ((chunk.length, last), ctx') ∧
      AtBlock rep (before ++ storedBytes last chunk) rest (taken ++ chunk) ctx' := by
  obtain ⟨lengthTree, distTree, window, bitReader⟩ := ctx
  obtain ⟨⟨stack, hreader⟩, hwindow⟩ := h
  simp only at hreader hwindow
  have halign : ioRbitsAlign (⟨memAt (before ++ [last.toUInt8])
      (uint16Bytes (UInt16.ofNat chunk.length) ++
        (uint16Bytes (~~~UInt16.ofNat chunk.length) ++ (chunk ++ rest))), 0, 5,
      stack.drop 1⟩ : IoRBits IoMem) =
        .ok ⟨memAt (before ++ [last.toUInt8]) (uint16Bytes (UInt16.ofNat chunk.length) ++
          (uint16Bytes (~~~UInt16.ofNat chunk.length) ++ (chunk ++ rest))), 0, 0,
          stack.drop 1⟩ := by
    simp [ioRbitsAlign, ioRbitsRemoveBits]
  obtain ⟨window', hblock, hwindow'⟩ := storedBlock_eq htakes hwindow hchunk hbound lengthTree
    distTree halign
  have hheader := blockHeader_stored before
    (uint16Bytes (UInt16.ofNat chunk.length) ++
      (uint16Bytes (~~~UInt16.ofNat chunk.length) ++ (chunk ++ rest))) last stack
  have hrest : storedBytes last chunk ++ rest = last.toUInt8 ::
      (uint16Bytes (UInt16.ofNat chunk.length) ++
        (uint16Bytes (~~~UInt16.ofNat chunk.length) ++ (chunk ++ rest))) := by
    simp only [storedBytes, List.cons_append, List.append_assoc]
  rw [hrest] at hreader
  have hbefore : before ++ storedBytes last chunk = before ++ [last.toUInt8] ++
      uint16Bytes (UInt16.ofNat chunk.length) ++ uint16Bytes (~~~UInt16.ofNat chunk.length) ++
        chunk := by
    simp only [storedBytes, List.append_assoc, List.cons_append, List.nil_append]
  have heq : deflateDecompressBlock turns ⟨lengthTree, distTree, window, bitReader⟩ =
      .ok ((chunk.length, last), ⟨lengthTree, distTree, window',
        ⟨memAt (before ++ storedBytes last chunk) rest, 0, 0, (stack.drop 1).drop 4⟩⟩) := by
    simp only [deflateDecompressBlock, hreader, hheader, ok_bind, hblock, hbefore]
    rfl
  exact ⟨_, heq, ⟨_, rfl⟩, hwindow'⟩

/-- The loop of `deflate_decompress_stream` over the blocks of a string. -/
theorem decompressLoop_eq (htakes : ∀ limit, Takes rep limit bound) (x : List UInt8) :
    ∀ (before rest taken : List UInt8) (ctx : DeflateDecompressor IoMem ω) (total turns limit : ℕ),
      AtBlock rep before (storedBlocks x ++ rest) taken ctx → (taken ++ x).length ≤ bound →
      x.length < turns →
      ∃ ctx', loop (blockTurn limit) .fuel turns ⟨total, ctx⟩ = .ok ⟨total + x.length, ctx'⟩ ∧
        AtBlock rep (before ++ storedBlocks x) rest (taken ++ x) ctx' := by
  induction x using storedBlocks.induct with
  | case1 x h =>
    intro before rest taken ctx total turns limit hctx hbound hturns
    rw [storedBlocks, if_pos h] at hctx ⊢
    obtain ⟨ctx', hblock, hctx'⟩ := decompressBlock_stored htakes true hctx h.le hbound limit
    obtain ⟨turns, rfl⟩ := Nat.exists_eq_add_of_lt hturns
    have hturn : blockTurn limit (⟨total, ctx⟩ : Symbols IoMem ω) =
        .ok (.inr ⟨total + x.length, ctx'⟩) := by
      simp only [blockTurn, hblock, ok_bind, if_true]
      rfl
    exact ⟨ctx', loop_leave hturn _, hctx'⟩
  | case2 x h ih =>
    intro before rest taken ctx total turns limit hctx hbound hturns
    rw [storedBlocks, if_neg h] at hctx ⊢
    obtain ⟨chunk, tail, hsplit, hlength, htake, hdrop⟩ : ∃ chunk tail, x = chunk ++ tail ∧
        chunk.length = 65535 ∧ x.take 65535 = chunk ∧ x.drop 65535 = tail :=
      ⟨x.take 65535, x.drop 65535, (List.take_append_drop _ _).symm,
        by rw [List.length_take]; omega, rfl, rfl⟩
    rw [htake, hdrop, List.append_assoc] at hctx
    rw [htake, hdrop, ← List.append_assoc]
    rw [hdrop] at ih
    rw [hsplit, ← List.append_assoc] at hbound
    obtain ⟨ctx', hblock, hctx'⟩ := decompressBlock_stored htakes false hctx hlength.le
      (by rw [List.length_append] at hbound; omega) limit
    have hturn : blockTurn limit (⟨total, ctx⟩ : Symbols IoMem ω) =
        .ok (.inl ⟨total + chunk.length, ctx'⟩) := by
      simp only [blockTurn, hblock, ok_bind]
      rfl
    rw [hsplit, List.length_append] at hturns
    obtain ⟨turns, rfl⟩ := Nat.exists_eq_add_of_lt hturns
    obtain ⟨ctx'', hloop, hctx''⟩ := ih _ rest _ ctx' (total + chunk.length)
      (chunk.length + tail.length + turns) limit hctx' hbound (by omega)
    refine ⟨ctx'', ?_, ?_⟩
    · rw [loop_turn hturn, hloop, hsplit, List.length_append, Nat.add_assoc]
    · rwa [hsplit, ← List.append_assoc]

/-- The blocks of a string come back through `deflate_decompress_stream`. -/
theorem deflateDecompressStream_stored (htakes : ∀ limit, Takes rep limit bound) {writer : ω}
    (hrep : rep [] writer) (before x rest : List UInt8) (hbound : x.length ≤ bound) {turns : ℕ}
    (hturns : x.length < turns) (stack : Stack) :
    ∃ writer' stack', deflateDecompressStream turns writer (memAt before (storedBlocks x ++ rest))
        stack = .ok (x.length, writer', memAt (before ++ storedBlocks x) rest, stack') ∧
      rep x writer' := by
  have hwindow : WindowRep rep [] (ioWindowInit writer 0x8000) :=
    ⟨[], hrep, rfl, Nat.zero_le _, Nat.min_le_left _ _⟩
  have hinit : AtBlock rep before (storedBlocks x ++ rest) []
      (decompressorInit writer (memAt before (storedBlocks x ++ rest)) stack) :=
    ⟨⟨stack, rfl⟩, hwindow, rfl⟩
  obtain ⟨ctx, hloop, ⟨stack', hreader⟩, hwindow', -⟩ := decompressLoop_eq htakes x before rest []
    _ 0 turns turns hinit (by rwa [List.nil_append]) hturns
  rw [List.nil_append] at hwindow'
  refine ⟨_, stack', ?_, rep_flushAll htakes hwindow' hbound⟩
  simp only [deflateDecompressStream, hloop, ok_bind, hreader, Nat.zero_add]
  rfl

/-- What `gzip_decompress_stream` makes of what was written for a string. -/
theorem gzipDecompressStream_eq (htakes : ∀ limit, Takes rep limit bound) {writer : ω}
    (hrep : rep [] writer) (x rest : List UInt8) (hbound : x.length ≤ bound) {turns : ℕ}
    (hturns : x.length < turns) (stack : Stack) :
    ∃ writer', rep x writer' ∧
      gzipDecompressStream turns writer (ioMemInit (gzipBytes x ++ rest)) stack =
        if x.length < 2 ^ 32 then .ok (x.length, writer') else .error (.error .invalidData) := by
  have hbytes : gzipBytes x ++ rest = headerBytes ++ (storedBlocks x ++
      (leStore32 (crc32 x) ++ (leStore32 (UInt32.ofNat x.length) ++ rest))) := by
    simp only [gzipBytes, List.append_assoc]
  obtain ⟨crc, stack', hstream, hcrc⟩ := deflateDecompressStream_stored
    (fun limit ↦ takes_crc32 (htakes limit))
    (show CrcRep rep [] (crc32Init writer) from ⟨hrep, rfl, rfl⟩)
    headerBytes x (leStore32 (crc32 x) ++ (leStore32 (UInt32.ofNat x.length) ++ rest)) hbound hturns
    (stack.drop 8)
  have hcheck := readBytes_memAt (headerBytes ++ storedBlocks x) (leStore32 (crc32 x))
    (leStore32 (UInt32.ofNat x.length) ++ rest) (stack'.take 4) (by simp [Stack.take, leStore32])
  have hcount := readBytes_memAt (headerBytes ++ storedBlocks x ++ leStore32 (crc32 x))
    (leStore32 (UInt32.ofNat x.length)) rest (leStore32 (crc32 x)) (by simp [leStore32])
  refine ⟨crc.base, hcrc.base, ?_⟩
  simp only [gzipDecompressStream, hbytes, ioMemInit_eq, readHeader_headerBytes, ok_bind, hstream,
    hcheck, hcount, leLoad32_leStore32, hcrc.get, ne_eq, not_true_eq_false, if_false]
  have hcount : (UInt32.ofNat x.length).toNat = x.length ↔ x.length < 2 ^ 32 := by
    rw [UInt32.toNat_ofNat']
    omega
  by_cases hsmall : x.length < 2 ^ 32
  · rw [if_neg (not_not.mpr (hcount.mpr hsmall)), if_pos hsmall]
    rfl
  · rw [if_pos (mt hcount.mp hsmall), if_neg hsmall]
    rfl

end Decompress

/-- What `gzip_decompress_data` makes of what was written for a string, whatever follows it. -/
theorem gzipDecompressData_eq (x rest dst : List UInt8) (hdst : x.length ≤ dst.length) {turns : ℕ}
    (hturns : x.length < turns) (stack : Stack) :
    gzipDecompressData turns stack (gzipBytes x ++ rest) dst =
      if x.length < 2 ^ 32 then .ok (x.length, x ++ dst.drop x.length)
      else .error (.error .invalidData) := by
  obtain ⟨writer, hrep, hstream⟩ := gzipDecompressStream_eq (takes_mem dst)
    (ioMemInit_eq_memAfter dst) x rest hdst hturns stack
  have hdata : writer.data = x ++ dst.drop x.length := by
    rw [hrep, memAfter, List.take_of_length_le hdst]
  rw [gzipDecompressData, hstream]
  split
  · rw [ok_bind, ← hdata]
    rfl
  · rfl

/-- The string goes through `gzip_compress_data`, with any output buffer that is large enough for
the result, and from there through `gzip_decompress_data`, with any output buffer that is large
enough for the string: the length is returned, the string is at the front of the last buffer and
the rest of that buffer is as it was. -/
def RoundTrips (x : List UInt8) : Prop :=
  ∀ (out dst : List UInt8) (stack : Stack) (turns : ℕ), gzipSize x ≤ out.length →
    x.length ≤ dst.length → x.length < turns →
    ∃ size out', gzipCompressData turns x out = .ok (size, out') ∧
      gzipDecompressData turns stack out' dst = .ok (x.length, x ++ dst.drop x.length)

theorem roundTrips_of_lt {x : List UInt8} (h : x.length < 2 ^ 32) : RoundTrips x := by
  intro out dst stack turns hout hdst hturns
  have hcompress := gzipCompressData_eq x out hturns
  rw [List.take_of_length_le (by rwa [length_gzipBytes])] at hcompress
  refine ⟨_, _, hcompress, ?_⟩
  rw [gzipDecompressData_eq x _ dst hdst hturns, if_pos h]

theorem not_roundTrips {x : List UInt8} (h : 2 ^ 32 ≤ x.length) : ¬ RoundTrips x := by
  intro htrips
  obtain ⟨size, out', hcompress, hdecompress⟩ := htrips (List.replicate (gzipSize x) 0)
    (List.replicate x.length 0) (fun _ ↦ 0) (x.length + 1) (by simp) (by simp)
    (Nat.lt_succ_self _)
  have hcompress' := gzipCompressData_eq x (List.replicate (gzipSize x) 0) (Nat.lt_succ_self _)
  rw [List.take_of_length_le (by rw [length_gzipBytes, List.length_replicate])] at hcompress'
  rw [hcompress'] at hcompress
  cases hcompress
  rw [gzipDecompressData_eq _ _ _ (by simp) (Nat.lt_succ_self _), if_neg (Nat.not_lt.mpr h)]
    at hdecompress
  cases hdecompress

/-- Strings shorter than 4 GiB make it, and no others. -/
theorem roundTrips_iff (x : List UInt8) : RoundTrips x ↔ x.length < 2 ^ 32 := by
  constructor
  · intro h
    by_contra hlarge
    exact not_roundTrips (Nat.le_of_not_lt hlarge) h
  · exact roundTrips_of_lt

/-- A string of 4 GiB is compressed, and refused when it is decompressed. -/
theorem roundTrips_replicate : ¬ RoundTrips (List.replicate (2 ^ 32) 0) :=
  not_roundTrips (Nat.le_of_eq List.length_replicate.symm)

end Brutal.Codec
