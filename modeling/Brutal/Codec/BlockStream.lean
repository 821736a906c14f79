import Brutal.Codec.BlockTrees

/-!
# The position of the bit reader

Every block of a stream that is well formed is decoded to what it stands for, and the bit reader is
never more than a part of a byte ahead: neither at the beginning of a block, nor where a stored
block is aligned, nor at the end.
-/

namespace Brutal.Codec

open Io Lib

variable {data : List UInt8} {rest : List Bool}

/-- A reader at the bits in front of a byte goes on with the bytes. -/
theorem Poised.align {reader : IoRBits IoMem} {pad : List Bool} {bytes : List UInt8}
    (h : Poised data (pad ++ (bitsOf bytes ++ rest)) reader) (hpad : pad.length < 8)
    (hrest : rest.length % 8 = 0) :
    ∃ before tail stack, ioRbitsAlign reader = .ok ⟨memAt before (bytes ++ tail), 0, 0, stack⟩ ∧
      data = before ++ (bytes ++ tail) ∧ rest = bitsOf tail := by
  have hfew := h.2
  have hlength := h.1.length
  rw [List.length_append, List.length_append, length_bitsOf] at hlength
  have hbitcount : reader.bitcount = pad.length := by omega
  obtain ⟨aligned, hremove, hstands, hnone, -⟩ :=
    h.1.remove (by omega) (Nat.le_of_eq hbitcount.symm)
  rw [hbitcount, Nat.sub_self] at hnone
  obtain ⟨⟨bytes', used⟩, bitbuf, bitcount, stack⟩ := aligned
  obtain ⟨rfl, hused, hclean, hbits⟩ := hstands
  simp only at hnone hused hclean hbits
  rw [hnone, Nat.pow_zero] at hclean
  have hbuffer : bitbuf = 0 := UInt64.toNat_inj.mp (Nat.lt_one_iff.mp hclean)
  rw [hnone, natBits, List.nil_append] at hbits
  obtain ⟨tail, htail, hrest'⟩ := bitsOf_eq_append hbits.symm
  refine ⟨bytes'.take used, tail, stack, ?_, ?_, hrest'⟩
  · rw [ioRbitsAlign, Nat.mod_eq_of_lt hfew, hbitcount, hremove, hbuffer, hnone, ← htail, memAt,
      List.take_append_drop, List.length_take, min_eq_left hused]
  · rw [← htail, List.take_append_drop]

/-- The header of a block. -/
theorem blockHeader_decode {reader : IoRBits IoMem} {last : Bool} {blockType : ℕ}
    (htype : blockType < 2 ^ 2)
    (h : Poised data ([last] ++ (natBits 2 blockType ++ rest)) reader) :
    ∃ reader', blockHeader reader = .ok ((last, blockType), reader') ∧
      Poised data rest reader' := by
  obtain ⟨r₀, hensure, hr₀, hcount, hfew⟩ := h.1.ensure (show 1 + 2 ≤ 16 by decide) (by
    simp only [List.length_append, length_natBits, List.length_singleton]
    omega)
  have hfirst := h.2
  obtain ⟨r₁, hpop₁, hr₁, hleft₁⟩ := hr₀.pop (by simp) (by rw [List.length_singleton]; omega)
  have hlength := length_natBits 2 blockType
  rw [List.length_singleton] at hpop₁ hleft₁
  obtain ⟨r₂, hpop₂, hr₂, hleft₂⟩ := hr₁.pop (by rw [hlength]; decide) (by rw [hlength]; omega)
  rw [natOfBits_natBits, Nat.mod_eq_of_lt htype, hlength] at hpop₂
  rw [hlength] at hleft₂
  have hlast : (natOfBits [last] == 1) = last := by cases last <;> rfl
  refine ⟨r₂, ?_, hr₂, by omega⟩
  simp only [blockHeader, hensure, ok_bind, hpop₁, hpop₂, hlast]
  rfl

section Decode

variable {ω : Type} [IoWriter ω] {rep : List UInt8 → ω → Prop}

/-- A stored block is decoded to its data. -/
theorem storedBlock_decode (haccepts : AcceptsAll rep) {before out : List UInt8} {pad : List Bool}
    (hpad : pad.length < 8) (hout : out.length ≤ 65535) (hrest : rest.length % 8 = 0)
    {ctx : DeflateDecompressor IoMem ω}
    (hctx : Decodes rep data (pad ++ (bitsOf (uint16Bytes (UInt16.ofNat out.length) ++
      (uint16Bytes (~~~UInt16.ofNat out.length) ++ out)) ++ rest)) before ctx) :
    ∃ ctx', storedBlock ctx = .ok (out.length, ctx') ∧
      Decodes rep data rest (before ++ out) ctx' := by
  obtain ⟨front, tail, stack, halign, hdata, hrest'⟩ := hctx.reader.align hpad hrest
  rw [List.append_assoc, List.append_assoc] at halign
  obtain ⟨window', hstored, hwindow⟩ := storedBlock_eq (haccepts.takes · (before ++ out).length)
    hctx.window hout (Nat.le_refl _) ctx.lengthTree ctx.distTree halign
  have hstands := stands_memAt (front ++ uint16Bytes (UInt16.ofNat out.length) ++
    uint16Bytes (~~~UInt16.ofNat out.length) ++ out) tail (stack.drop 4)
  have hmemory : front ++ uint16Bytes (UInt16.ofNat out.length) ++
      uint16Bytes (~~~UInt16.ofNat out.length) ++ out ++ tail = data := by
    rw [hdata]
    simp only [List.append_assoc]
  rw [hmemory, ← hrest'] at hstands
  exact ⟨_, hstored, ⟨hstands, Nat.succ_pos 7⟩, hwindow, hctx.lengthTree, hctx.distTree⟩

/-- A block is decoded to what it stands for, and exactly its bits are used. -/
theorem deflateDecompressBlock_decode (haccepts : AcceptsAll rep) {pos : ℕ}
    {before out : List UInt8}
    {last : Bool} {bits : List Bool} (h : BlockBits 30 pos before last out bits)
    (hpos : (pos + bits.length + rest.length) % 8 = 0) {turns : ℕ} (hturns : bits.length ≤ turns)
    {ctx : DeflateDecompressor IoMem ω} (hctx : Decodes rep data (bits ++ rest) before ctx) :
    ∃ ctx', deflateDecompressBlock turns ctx = .ok ((out.length, last), ctx') ∧
      Decodes rep data rest (before ++ out) ctx' := by
  have hreader := hctx.reader
  cases h with
  | stored hpad hout =>
    rename_i pad
    simp only [List.append_assoc] at hreader
    obtain ⟨reader, hheader, hreader'⟩ := blockHeader_decode (by decide) hreader
    have hrest : rest.length % 8 = 0 := by
      simp only [List.length_append, length_natBits, List.length_singleton, length_bitsOf, hpad,
        padding] at hpos
      omega
    have hmid : Decodes rep data (pad ++ (bitsOf (uint16Bytes (UInt16.ofNat out.length) ++
        (uint16Bytes (~~~UInt16.ofNat out.length) ++ out)) ++ rest)) before
          { ctx with bitReader := reader } :=
      ⟨hreader', hctx.window, hctx.lengthTree, hctx.distTree⟩
    obtain ⟨ctx', hstored, hctx'⟩ := storedBlock_decode haccepts (by rw [hpad, padding]; omega) hout
      hrest hmid
    refine ⟨ctx', ?_, hctx'⟩
    simp only [deflateDecompressBlock, hheader, ok_bind, hstored]
    rfl
  | fixed hsymbols =>
    simp only [List.append_assoc] at hreader
    obtain ⟨reader, hheader, hreader'⟩ := blockHeader_decode (by decide) hreader
    simp only [List.length_append] at hturns
    have hmid : Decodes rep data _ before
        (buildStaticHuffTrees { ctx with bitReader := reader }) :=
      ⟨hreader', hctx.window, by simp [buildStaticHuffTrees],
        by simp [buildStaticHuffTrees, hctx.distTree]⟩
    obtain ⟨ctx', hloop, hctx'⟩ := symbols_decode haccepts hsymbols _ 0 turns hmid
      ⟨staticTrees_lit _, staticTrees_dist _⟩ (by omega)
    rw [Nat.zero_add] at hloop
    refine ⟨ctx', ?_, hctx'⟩
    simp only [deflateDecompressBlock, hheader, ok_bind, hloop]
    rfl
  | dynamic htrees hsymbols =>
    simp only [List.append_assoc] at hreader
    obtain ⟨reader, hheader, hreader'⟩ := blockHeader_decode (by decide) hreader
    simp only [List.length_append] at hturns
    have hend := hsymbols.inUse_end
    obtain ⟨mid, hbuild, hmidTrees, hwindow, hmidReader, hlitSize, hdistSize⟩ :=
      @buildDynamicHuffTrees_decode _ _ _ _ _ htrees hend { ctx with bitReader := reader }
        hctx.lengthTree hctx.distTree hreader'
    have hmid : Decodes rep data _ before mid :=
      ⟨hmidReader, by rw [hwindow]; exact hctx.window, hlitSize, hdistSize⟩
    obtain ⟨ctx', hloop, hctx'⟩ := symbols_decode haccepts hsymbols mid 0 turns hmid hmidTrees
      (by omega)
    rw [Nat.zero_add] at hloop
    refine ⟨ctx', ?_, hctx'⟩
    simp only [deflateDecompressBlock, hheader, ok_bind, hbuild, hloop]
    rfl

/-- A block with too many distance codes is refused. -/
theorem BlockBits.supported_or_refused {pos : ℕ} {before out : List UInt8} {last : Bool}
    {bits : List Bool} (h : BlockBits 32 pos before last out bits)
    {ctx : DeflateDecompressor IoMem ω} (hctx : Decodes rep data (bits ++ rest) before ctx) :
    BlockBits 30 pos before last out bits ∨
      ∀ turns, deflateDecompressBlock turns ctx = .error (.error .tooManySymbols) := by
  cases h with
  | stored hpad hout => exact Or.inl (.stored hpad hout)
  | fixed hsymbols => exact Or.inl (.fixed hsymbols)
  | dynamic htrees hsymbols =>
    have hreader := hctx.reader
    simp only [List.append_assoc] at hreader
    obtain ⟨reader, hheader, hreader'⟩ := blockHeader_decode (by decide) hreader
    have hmid : Poised data _
        ({ ctx with bitReader := reader } : DeflateDecompressor IoMem ω).bitReader :=
      hreader'
    cases htrees.supported_or_refused hmid with
    | inl hfew => exact Or.inl (.dynamic hfew hsymbols)
    | inr hmany =>
      right
      intro turns
      simp only [deflateDecompressBlock, hheader, ok_bind, hmany]
      rfl

/-- The blocks of a stream are decoded one after the other. -/
theorem blocks_decode (haccepts : AcceptsAll rep) {pos : ℕ} {before out : List UInt8}
    {blocks : List (List Bool)} (h : StreamBits 30 pos before out blocks) {limit : ℕ} :
    ∀ (ctx : DeflateDecompressor IoMem ω) (size turns : ℕ),
      Decodes rep data (blocks.flatten ++ rest) before ctx →
      (pos + blocks.flatten.length + rest.length) % 8 = 0 → blocks.flatten.length ≤ limit →
      blocks.length ≤ turns →
      ∃ ctx', loop (blockTurn limit) .fuel turns ⟨size, ctx⟩ = .ok ⟨size + out.length, ctx'⟩ ∧
        Decodes rep data rest (before ++ out) ctx' := by
  induction h with
  | last hblock =>
    intro ctx size turns hctx hpos hlimit hturns
    rename_i pos before out bits
    rw [List.flatten_singleton] at hctx hpos hlimit
    obtain ⟨ctx', hdecode, hctx'⟩ := deflateDecompressBlock_decode haccepts hblock hpos hlimit hctx
    obtain ⟨turns, rfl⟩ := Nat.exists_eq_add_of_lt hturns
    have hturn : blockTurn limit ⟨size, ctx⟩ = .ok (.inr ⟨size + out.length, ctx'⟩) := by
      simp only [blockTurn, hdecode, ok_bind]
      rfl
    exact ⟨ctx', loop_leave hturn _, hctx'⟩
  | more hblock tail ih =>
    intro ctx size turns hctx hpos hlimit hturns
    rename_i pos before out out' bits blocks
    rw [List.flatten_cons, List.append_assoc] at hctx
    rw [List.flatten_cons, List.length_append] at hpos hlimit
    obtain ⟨mid, hdecode, hmid⟩ := deflateDecompressBlock_decode haccepts hblock
      (by rw [List.length_append]; omega) (show bits.length ≤ limit by omega) hctx
    have hturn : blockTurn limit ⟨size, ctx⟩ = .ok (.inl ⟨size + out.length, mid⟩) := by
      simp only [blockTurn, hdecode, ok_bind]
      rfl
    rw [List.length_cons] at hturns
    obtain ⟨turns, rfl⟩ := Nat.exists_eq_add_of_lt (show 0 < turns by omega)
    obtain ⟨ctx', hloop, hctx'⟩ := ih mid (size + out.length) (0 + turns) hmid (by omega) (by omega)
      (by omega)
    refine ⟨ctx', ?_, ?_⟩
    · rw [loop_turn hturn, hloop, List.length_append, Nat.add_assoc]
    · rwa [List.append_assoc] at hctx'

/-- Wherever the loop over the blocks begins a turn, a block begins. -/
theorem blocks_reached (haccepts : AcceptsAll rep) {pos : ℕ} {before out : List UInt8}
    {blocks : List (List Bool)} (h : StreamBits 32 pos before out blocks) {limit : ℕ} :
    ∀ (ctx : DeflateDecompressor IoMem ω) (size : ℕ) (state : Symbols IoMem ω),
      Decodes rep data (blocks.flatten ++ rest) before ctx →
      (pos + blocks.flatten.length + rest.length) % 8 = 0 → blocks.flatten.length ≤ limit →
      Reached (blockTurn limit) ⟨size, ctx⟩ state →
      ∃ done bits todo before' last out', blocks = done ++ bits :: todo ∧
        BlockBits 32 (pos + done.flatten.length) before' last out' bits ∧
        Decodes rep data (bits ++ (todo.flatten ++ rest)) before' state.ctx := by
  induction h with
  | last hblock =>
    intro ctx size state hctx hpos hlimit hreached
    rename_i pos before out bits
    rw [List.flatten_singleton] at hctx hpos hlimit
    cases hreached with
    | refl => exact ⟨[], bits, [], before, true, out, rfl, hblock, hctx⟩
    | turn head _ =>
      cases hblock.supported_or_refused hctx with
      | inl hfew =>
        obtain ⟨ctx', hdecode, -⟩ := deflateDecompressBlock_decode haccepts hfew hpos hlimit hctx
        simp only [blockTurn, hdecode, ok_bind] at head
        cases head
      | inr hrefused =>
        simp only [blockTurn, hrefused] at head
        cases head
  | more hblock tail ih =>
    intro ctx size state hctx hpos hlimit hreached
    rename_i pos before out out' bits blocks
    rw [List.flatten_cons, List.append_assoc] at hctx
    rw [List.flatten_cons, List.length_append] at hpos hlimit
    cases hreached with
    | refl => exact ⟨[], bits, blocks, before, false, out, rfl, hblock, hctx⟩
    | turn head tail' =>
      cases hblock.supported_or_refused hctx with
      | inl hfew =>
        obtain ⟨mid, hdecode, hmid⟩ := deflateDecompressBlock_decode haccepts hfew
          (by rw [List.length_append]; omega) (show bits.length ≤ limit by omega) hctx
        simp only [blockTurn, hdecode, ok_bind] at head
        cases head
        obtain ⟨done, bits', todo, before', last, out₂, rfl, hblock', hstate⟩ :=
          ih mid (size + out.length) state hmid (by omega) (by omega) tail'
        refine ⟨bits :: done, bits', todo, before', last, out₂, rfl, ?_, hstate⟩
        rwa [List.flatten_cons, List.length_append, ← Nat.add_assoc]
      | inr hrefused =>
        simp only [blockTurn, hrefused] at head
        cases head

/-- From the byte `start` on, the reader has used `count` bits: it has read the bytes that they are
in, and has fewer than 8 bits left over. -/
def KeepsPace (start count : ℕ) (reader : IoRBits IoMem) : Prop :=
  reader.bitcount < 8 ∧ reader.reader.used = start + (count + 7) / 8

/-- A block of `size` bits, which begins at the bit `count`: the reader keeps pace at its
beginning, where it is aligned for a stored block, whose sizes then begin at the next byte, and at
its end. -/
structure BlockPace (start count size turns : ℕ) (ctx : DeflateDecompressor IoMem ω) : Prop where
  begins : KeepsPace start count ctx.bitReader
  aligns : ∀ last reader, blockHeader ctx.bitReader = .ok ((last, 0), reader) →
    KeepsPace start (count + 3) reader ∧ ∃ aligned, ioRbitsAlign reader = .ok aligned ∧
      aligned.bitcount = 0 ∧ aligned.reader.used = start + (count + 3 + 7) / 8
  returns : ∀ result ctx', deflateDecompressBlock turns ctx = .ok (result, ctx') →
    KeepsPace start (count + size) ctx'.bitReader

theorem Poised.keepsPace {reader : IoRBits IoMem} (h : Poised data rest reader) {start count : ℕ}
    (hcount : count + rest.length + 8 * start = 8 * data.length) :
    KeepsPace start count reader := by
  have hused := h.1.used_eq h.2
  exact ⟨h.2, by omega⟩

theorem blockPace_of_decodes (haccepts : AcceptsAll rep) {start count : ℕ} {before out : List UInt8}
    {last : Bool} {bits : List Bool} (h : BlockBits 32 count before last out bits)
    {ctx : DeflateDecompressor IoMem ω} (hctx : Decodes rep data (bits ++ rest) before ctx)
    (hcount : count + (bits ++ rest).length + 8 * start = 8 * data.length) {turns : ℕ}
    (hturns : bits.length ≤ turns) : BlockPace start count bits.length turns ctx := by
  rw [List.length_append] at hcount
  refine ⟨hctx.reader.keepsPace (by rw [List.length_append]; omega), ?_, ?_⟩
  · intro last' reader hheader
    have hreader := hctx.reader
    cases h with
    | stored hpad hout =>
      rename_i pad
      simp only [List.append_assoc] at hreader
      obtain ⟨reader', hheader', hreader'⟩ := blockHeader_decode (by decide) hreader
      rw [hheader'] at hheader
      cases hheader
      simp only [List.length_append, length_natBits, List.length_singleton] at hcount
      refine ⟨hreader'.keepsPace (by simp only [List.length_append]; omega), ?_⟩
      have hrest : rest.length % 8 = 0 := by
        rw [hpad, padding, length_bitsOf] at hcount
        omega
      obtain ⟨front, tail, stack, halign, hdata, htail⟩ := hreader'.align
        (by rw [hpad, padding]; omega) hrest
      refine ⟨_, halign, rfl, ?_⟩
      have hlength := congrArg List.length hdata
      rw [List.length_append, List.length_append] at hlength
      rw [htail, length_bitsOf, length_bitsOf, hpad, padding] at hcount
      simp only [memAt]
      omega
    | fixed hsymbols =>
      simp only [List.append_assoc] at hreader
      obtain ⟨reader', hheader', -⟩ := blockHeader_decode (by decide) hreader
      rw [hheader'] at hheader
      cases hheader
    | dynamic htrees hsymbols =>
      simp only [List.append_assoc] at hreader
      obtain ⟨reader', hheader', -⟩ := blockHeader_decode (by decide) hreader
      rw [hheader'] at hheader
      cases hheader
  · intro result ctx' hresult
    cases h.supported_or_refused hctx with
    | inl hfew =>
      obtain ⟨ctx'', hdecode, hctx''⟩ :=
        deflateDecompressBlock_decode haccepts hfew (by omega) hturns hctx
      rw [hdecode] at hresult
      cases hresult
      exact hctx''.reader.keepsPace (by omega)
    | inr hrefused =>
      rw [hrefused] at hresult
      cases hresult

end Decode

/-- At the beginning of a stream. -/
theorem decodes_init {start : ℕ} (hstart : start ≤ data.length) {bits : List Bool}
    (hdata : bitsOf (data.drop start) = bits) (stack : Stack) :
    Decodes (fun _ (_ : IoSink) ↦ True) data bits []
      (decompressorInit IoSink.mk ⟨data, start⟩ stack) := by
  refine
    ⟨⟨⟨rfl, hstart, Nat.one_pos, ?_⟩, Nat.succ_pos 7⟩, ⟨⟨[], trivial, rfl, ?_, ?_⟩, rfl⟩, ?_, ?_⟩
  · exact hdata.symm
  · exact Nat.zero_le _
  · exact Nat.min_le_left _ _
  · exact List.length_replicate
  · exact List.length_replicate

theorem acceptsAll_sink : AcceptsAll fun _ (_ : IoSink) ↦ True :=
  fun _ writer _ _ ↦ ⟨writer, rfl, trivial⟩

/-- The reader does not depend on the writer. -/
theorem BlockPace.of_sink {ω : Type} [IoWriter ω] {start count size turns : ℕ}
    {ctx : DeflateDecompressor IoMem ω}
    (h : BlockPace start count size turns (decompressorOver (fun _ ↦ IoSink.mk) ctx)) :
    BlockPace start count size turns ctx := by
  have hfollows : Follows fun _ : ω ↦ IoSink.mk := fun _ _ ↦ rfl
  refine ⟨h.begins, h.aligns, fun result ctx' hresult ↦ ?_⟩
  apply h.returns result (decompressorOver (fun _ ↦ IoSink.mk) ctx')
  rw [hfollows.deflateDecompressBlock, hresult]
  rfl

/-- In a stream that is well formed and followed by anything, from the byte `start` on, the reader
keeps pace in every block that is begun.  Unless a block has distance codes that cannot be in use,
all of the stream is decoded, and in the end the reader has read its bytes and no more. -/
theorem deflateDecompressStream_keepsPace {ω : Type} [IoWriter ω] {data out : List UInt8}
    {blocks : List (List Bool)} {rest : List Bool} {start turns : ℕ}
    (hstream : StreamBits 32 0 [] out blocks) (hstart : start ≤ data.length)
    (hdata : bitsOf (data.drop start) = blocks.flatten ++ rest)
    (hturns : blocks.flatten.length ≤ turns) (writer : ω) (stack : Stack) :
    (∀ state, Reached (blockTurn turns) ⟨0, decompressorInit writer ⟨data, start⟩ stack⟩ state →
      ∃ done bits todo, blocks = done ++ bits :: todo ∧
        BlockPace start done.flatten.length bits.length turns state.ctx) ∧
    (StreamBits 30 0 [] out blocks →
      ∃ writer' reader stack', deflateDecompressStream turns writer (⟨data, start⟩ : IoMem) stack =
          .ok (out.length, writer', reader, stack') ∧
        reader.used = start + (blocks.flatten.length + 7) / 8) := by
  have hfollows : Follows fun _ : ω ↦ IoSink.mk := fun _ _ ↦ rfl
  have hinit := decodes_init hstart hdata stack
  have hlength := congrArg List.length hdata
  rw [length_bitsOf, List.length_drop, List.length_append] at hlength
  have hpos : (0 + blocks.flatten.length + rest.length) % 8 = 0 := by omega
  constructor
  · intro state hreached
    have hsink := hreached.carried (hfollows.blockTurn turns)
    obtain ⟨done, bits, todo, before, last, out', rfl, hblock, hdecodes⟩ :=
      blocks_reached acceptsAll_sink hstream _ 0 _ hinit hpos hturns hsink
    rw [Nat.zero_add] at hblock
    simp only [List.flatten_append, List.flatten_cons, List.length_append] at hlength hturns
    refine ⟨done, bits, todo, rfl, BlockPace.of_sink ?_⟩
    exact blockPace_of_decodes acceptsAll_sink hblock hdecodes
      (by simp only [List.length_append]; omega) (by omega)
  · intro hfew
    have hblocks : blocks.length ≤ turns := Nat.le_trans hstream.length_le hturns
    obtain ⟨ctx, hloop, hctx⟩ := blocks_decode acceptsAll_sink hfew _ 0 turns hinit hpos hturns
      hblocks
    have hsink : deflateDecompressStream turns IoSink.mk (⟨data, start⟩ : IoMem) stack =
        .ok (out.length, (ioWindowFlushAll ctx.window).underlying, ctx.bitReader.reader,
          ctx.bitReader.stack) := by
      rw [deflateDecompressStream, hloop, Nat.zero_add]
      rfl
    have hover := hfollows.deflateDecompressStream turns writer (⟨data, start⟩ : IoMem) stack
    rw [hsink] at hover
    cases hresult : deflateDecompressStream turns writer (⟨data, start⟩ : IoMem) stack with
    | error stop =>
      rw [hresult] at hover
      cases hover
    | ok result =>
      obtain ⟨size, writer', reader, stack'⟩ := result
      rw [hresult] at hover
      cases hover
      refine ⟨writer', _, _, rfl, ?_⟩
      exact (hctx.reader.keepsPace (by omega)).2

/-- A stored block of two bytes and a block of one byte with the fixed codes. -/
def mixedBlocks : List (List Bool) :=
  [bitsOf [0, 2, 0, 0xfd, 0xff, 72, 105], (bitsOf [0x53, 4, 0]).take 18]

theorem mixedBlocks_bits (maxDist : ℕ) : StreamBits maxDist 0 [] [72, 105, 33] mixedBlocks := by
  have hpad : (List.replicate 5 false).length = padding 0 := rfl
  have hliteral : canonicalBits fixedCodes.lit fixedCodes.numLit 33 =
      [false, true, false, true, false, false, false, true] := by decide +kernel
  have hend : canonicalBits fixedCodes.lit fixedCodes.numLit 256 = List.replicate 7 false := by
    decide +kernel
  have hsymbols : SymbolBits fixedCodes [72, 105] [33] _ :=
    .literal (by decide) ⟨by decide, by decide⟩ (.endOfBlock ⟨by decide, by decide⟩)
  rw [hliteral, hend] at hsymbols
  have hstored : BlockBits maxDist 0 [] false [72, 105] _ := .stored hpad (by decide)
  have hfixed : BlockBits maxDist 56 [72, 105] true [33] _ := .fixed hsymbols
  exact .more hstored (.last hfixed)

/-- Three bytes come out of ten, which one more byte follows. -/
theorem deflateDecompressStream_keepsPace_mixed :
    (∀ state, Reached (blockTurn 80) ⟨0, decompressorInit IoSink.mk
        ⟨[0, 2, 0, 0xfd, 0xff, 72, 105, 0x53, 4, 0, 42], 0⟩ fun _ ↦ 0⟩ state →
      ∃ done bits todo, mixedBlocks = done ++ bits :: todo ∧
        BlockPace 0 done.flatten.length bits.length 80 state.ctx) ∧
    ∃ writer' reader stack', deflateDecompressStream 80 IoSink.mk
        (⟨[0, 2, 0, 0xfd, 0xff, 72, 105, 0x53, 4, 0, 42], 0⟩ : IoMem) (fun _ ↦ 0) =
          .ok (3, writer', reader, stack') ∧
      reader.used = 10 := by
  have hdata : bitsOf (([0, 2, 0, 0xfd, 0xff, 72, 105, 0x53, 4, 0, 42] : List UInt8).drop 0) =
      mixedBlocks.flatten ++ (List.replicate 6 false ++ bitsOf [42]) := rfl
  have hturns : mixedBlocks.flatten.length ≤ 80 := by decide
  have hpace := deflateDecompressStream_keepsPace (mixedBlocks_bits 32) (by decide) hdata hturns
    IoSink.mk fun _ ↦ 0
  exact ⟨hpace.1, hpace.2 (mixedBlocks_bits 30)⟩

end Brutal.Codec
