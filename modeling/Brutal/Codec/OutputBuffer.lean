import Brutal.Codec.GzipRoundTrip
import Brutal.Io.WindowHistory

/-!
# Writers of a decompressor

No caller looks at the count that a writer reports, so that decompression does the same whatever it
writes into.
-/

namespace Brutal.Codec

open Io Lib

section Follow

variable {ω ω' : Type} [IoWriter ω] [IoWriter ω']

/-- A writer carried over to another one, which goes through the same writes. -/
def Follows (f : ω → ω') : Prop :=
  ∀ writer bytes, (IoWriter.write (f writer) bytes).2 = f (IoWriter.write writer bytes).2

/-- A writer carried over to another one, which gives the same answers too. -/
def Copies (f : ω → ω') : Prop :=
  ∀ writer bytes, IoWriter.write (f writer) bytes = Prod.map id f (IoWriter.write writer bytes)

/-- A window over another writer. -/
def windowOver {σ σ' : Type} (f : σ → σ') (self : IoWindow σ) : IoWindow σ' :=
  ⟨self.data, self.capacity, f self.underlying⟩

/-- A window does not look at the answers of the writer under it. -/
theorem Follows.window {f : ω → ω'} (hf : Follows f) : Copies (windowOver f) := by
  have hchunk : ∀ self : IoWindow ω,
      ioWindowFlushChunk (windowOver f self) = windowOver f (ioWindowFlushChunk self) := by
    intro self
    exact congrArg (IoWindow.mk _ _) (hf self.underlying _)
  intro self bytes
  let toWrite := min (self.capacity * 3 % 2 ^ 64 - self.data.length) bytes.length
  let self' : IoWindow ω := { self with data := self.data ++ bytes.take toWrite }
  by_cases hflush : self'.data.length > self.capacity * 2 % 2 ^ 64
  · have hone : IoWriter.write self bytes = (.ok toWrite, ioWindowFlushChunk self') :=
      congrArg (Prod.mk _) (if_pos hflush)
    have hother : IoWriter.write (windowOver f self) bytes =
        (.ok toWrite, ioWindowFlushChunk (windowOver f self')) :=
      congrArg (Prod.mk _) (if_pos hflush)
    rw [hone, hother, hchunk]
    rfl
  · have hone : IoWriter.write self bytes = (.ok toWrite, self') :=
      congrArg (Prod.mk _) (if_neg hflush)
    have hother : IoWriter.write (windowOver f self) bytes = (.ok toWrite, windowOver f self') :=
      congrArg (Prod.mk _) (if_neg hflush)
    rw [hone, hother]
    rfl

theorem Follows.flushAll {f : ω → ω'} (hf : Follows f) (self : IoWindow ω) :
    (ioWindowFlushAll (windowOver f self)).underlying = f (ioWindowFlushAll self).underlying :=
  hf self.underlying self.data

theorem Copies.attempt {f : ω → ω'} (hf : Copies f) (writer : ω) (bytes : List UInt8) :
    attempt (IoWriter.write (f writer) bytes) =
      Prod.map id f <$> attempt (IoWriter.write writer bytes) := by
  rw [hf]
  rcases IoWriter.write writer bytes with ⟨_ | _, _⟩ <;> rfl

theorem Copies.ioCopyN {ρ : Type} [IoReader ρ] {f : ω → ω'} (hf : Copies f) (reader : ρ)
    (writer : ω) (size : ℕ) :
    ioCopyN reader (f writer) size =
      (fun (total, reader, writer) ↦ (total, reader, f writer)) <$> ioCopyN reader writer size := by
  have hloop : ∀ (turns : ℕ) (reader : ρ) (writer : ω) (total : ℕ),
      ioCopyNLoop size turns reader (f writer) total =
        (fun (total, reader, writer) ↦ (total, reader, f writer)) <$>
          ioCopyNLoop size turns reader writer total := by
    intro turns
    induction turns with
    | zero => exact fun _ _ _ ↦ rfl
    | succ turns ih =>
      intro reader writer total
      simp only [ioCopyNLoop, map_bind]
      apply bind_congr
      rintro ⟨buf, reader⟩
      by_cases hempty : buf.length = 0
      · simp only [if_pos hempty]
        rfl
      · simp only [if_neg hempty, hf.attempt, bind_map_left, map_bind, Prod.map, id_eq]
        apply bind_congr
        rintro ⟨written, writer⟩
        by_cases hwritten : written = 0
        · simp only [if_pos hwritten]
          rfl
        · by_cases hmore : total + written < size
          · simp only [if_neg hwritten, if_pos hmore, ih]
          · simp only [if_neg hwritten, if_neg hmore]
            rfl
  exact hloop (size + 1) reader writer 0

variable {ρ : Type} [IoReader ρ]

/-- A decompressor over another writer. -/
def decompressorOver {σ σ' : Type} (f : σ → σ') (ctx : DeflateDecompressor ρ σ) :
    DeflateDecompressor ρ σ' :=
  ⟨ctx.lengthTree, ctx.distTree, windowOver f ctx.window, ctx.bitReader⟩

def symbolsOver {σ σ' : Type} (f : σ → σ') (state : Symbols ρ σ) : Symbols ρ σ' :=
  ⟨state.size, decompressorOver f state.ctx⟩

theorem Follows.copyTurn {f : ω → ω'} (hf : Follows f) (offset : ℕ) (window : IoWindow ω)
    (i : ℕ) :
    copyTurn offset (windowOver f window) i = windowOver f <$> copyTurn offset window i := by
  simp only [Codec.copyTurn, map_bind]
  apply bind_congr
  intro val
  rw [hf.window.attempt, bind_map_left]
  rfl

theorem Follows.symbolTurn {f : ω → ω'} (hf : Follows f) (state : Symbols ρ ω) :
    symbolTurn (symbolsOver f state) =
      Sum.map (symbolsOver f) (symbolsOver f) <$> symbolTurn state := by
  simp only [Codec.symbolTurn, map_bind]
  apply bind_congr
  rintro ⟨symbol, reader⟩
  by_cases hliteral : symbol < 256
  · simp only [if_pos hliteral, map_bind]
    change attempt (IoWriter.write (windowOver f state.ctx.window) _) >>= _ = _
    rw [hf.window.attempt, bind_map_left]
    rfl
  · by_cases hend : symbol = 256
    · simp only [if_neg hliteral, if_pos hend]
      rfl
    · simp only [if_neg hliteral, if_neg hend]
      by_cases hrejects : rejects state.ctx symbol
      · have hrejects' : rejects (symbolsOver f state).ctx symbol := hrejects
        simp only [if_pos hrejects, if_pos hrejects']
        rfl
      · have hrejects' : ¬ rejects (symbolsOver f state).ctx symbol := hrejects
        simp only [if_neg hrejects, if_neg hrejects', map_bind]
        apply bind_congr
        rintro ⟨length, reader⟩
        apply bind_congr
        rintro ⟨dist, reader⟩
        apply bind_congr
        rintro ⟨offset, reader⟩
        change List.foldlM _ (windowOver f state.ctx.window) _ >>= _ = _
        rw [foldlM_carried (hf.copyTurn offset), bind_map_left]
        rfl

theorem Follows.symbols {f : ω → ω'} (hf : Follows f) (turns : ℕ) (ctx : DeflateDecompressor ρ ω) :
    loop Codec.symbolTurn .fuel turns ⟨0, decompressorOver f ctx⟩ =
      symbolsOver f <$> loop Codec.symbolTurn .fuel turns ⟨0, ctx⟩ :=
  loop_carried hf.symbolTurn .fuel turns ⟨0, ctx⟩

theorem Follows.storedBlock {f : ω → ω'} (hf : Follows f) (ctx : DeflateDecompressor ρ ω) :
    storedBlock (decompressorOver f ctx) =
      Prod.map id (decompressorOver f) <$> storedBlock ctx := by
  simp only [Codec.storedBlock, map_bind]
  apply bind_congr
  rintro ⟨⟨len, nlen⟩, reader⟩
  by_cases hsizes : len ≠ ~~~nlen
  · simp only [if_pos hsizes]
    rfl
  · simp only [if_neg hsizes, map_bind]
    change Io.ioCopyN _ (windowOver f ctx.window) _ >>= _ = _
    rw [hf.window.ioCopyN, bind_map_left]
    rfl

omit [IoWriter ω] [IoWriter ω'] in
/-- The trees do not depend on the writer. -/
theorem buildDynamicHuffTrees_over (f : ω → ω') (ctx : DeflateDecompressor ρ ω) :
    buildDynamicHuffTrees (decompressorOver f ctx) =
      decompressorOver f <$> buildDynamicHuffTrees ctx := by
  have hprecode : buildPrecodeTree (decompressorOver f ctx) =
      Prod.map id (decompressorOver f) <$> buildPrecodeTree ctx := by
    simp only [buildPrecodeTree, map_bind]
    apply bind_congr
    rintro ⟨⟨hlit, hdist, hclen⟩, reader⟩
    by_cases hmany : 286 < hlit ∨ 30 < hdist
    · simp only [if_pos hmany]
      rfl
    · simp only [if_neg hmany, map_bind]
      rfl
  have hcode : ∀ (ctx : DeflateDecompressor ρ ω) (hlit hdist : ℕ) (lengths : Cells ℕ),
      buildCodeTrees (decompressorOver f ctx) hlit hdist lengths =
        decompressorOver f <$> buildCodeTrees ctx hlit hdist lengths := by
    intro ctx hlit hdist lengths
    simp only [buildCodeTrees, map_bind]
    apply bind_congr
    intro endOfBlock
    by_cases hzero : endOfBlock = 0
    · simp only [if_pos hzero]
      rfl
    · simp only [if_neg hzero, map_bind]
      rfl
  simp only [buildDynamicHuffTrees, hprecode, bind_map_left, map_bind]
  apply bind_congr
  rintro ⟨⟨hlit, hdist, lengths⟩, ctx⟩
  apply bind_congr
  intro state
  exact hcode { ctx with bitReader := state.reader } hlit hdist state.lengths

theorem Follows.deflateDecompressBlock {f : ω → ω'} (hf : Follows f) (turns : ℕ)
    (ctx : DeflateDecompressor ρ ω) :
    deflateDecompressBlock turns (decompressorOver f ctx) =
      Prod.map id (decompressorOver f) <$> deflateDecompressBlock turns ctx := by
  simp only [Codec.deflateDecompressBlock, map_bind]
  apply bind_congr
  rintro ⟨⟨finalBlock, blockType⟩, reader⟩
  obtain _ | _ | _ | _ := blockType
  · change Codec.storedBlock (decompressorOver f { ctx with bitReader := reader }) >>= _ = _
    simp only [hf.storedBlock, bind_map_left, map_bind]
    rfl
  · change loop Codec.symbolTurn .fuel turns
      ⟨0, decompressorOver f (buildStaticHuffTrees { ctx with bitReader := reader })⟩ >>= _ = _
    simp only [hf.symbols, bind_map_left, map_bind]
    rfl
  · change buildDynamicHuffTrees (decompressorOver f { ctx with bitReader := reader }) >>= _ = _
    simp only [buildDynamicHuffTrees_over, hf.symbols, bind_map_left, map_bind]
    rfl
  · rfl

theorem Follows.blockTurn {f : ω → ω'} (hf : Follows f) (turns : ℕ) (state : Symbols ρ ω) :
    blockTurn turns (symbolsOver f state) =
      Sum.map (symbolsOver f) (symbolsOver f) <$> blockTurn turns state := by
  simp only [Codec.blockTurn, symbolsOver, hf.deflateDecompressBlock, bind_map_left, map_bind]
  apply bind_congr
  rintro ⟨⟨size, finalBlock⟩, ctx⟩
  cases finalBlock <;> rfl

theorem Follows.deflateDecompressStream {f : ω → ω'} (hf : Follows f) (turns : ℕ) (writer : ω)
    (reader : ρ) (stack : Stack) :
    deflateDecompressStream turns (f writer) reader stack =
      Prod.map id (Prod.map f id) <$> deflateDecompressStream turns writer reader stack := by
  have hloop := loop_carried (hf.blockTurn turns) .fuel turns
    ⟨0, decompressorInit writer reader stack⟩
  change loop (Codec.blockTurn turns) .fuel turns
    (symbolsOver f ⟨0, decompressorInit writer reader stack⟩) >>= _ = _
  simp only [Codec.deflateDecompressStream, hloop, bind_map_left, map_bind]
  apply bind_congr
  intro state
  exact congrArg (fun writer ↦ (pure (state.size, writer, state.ctx.bitReader.reader,
    state.ctx.bitReader.stack) : Except Stop _)) (hf.flushAll state.ctx.window)

end Follow

section Given

variable {ω : Type} [IoWriter ω] {rep : List UInt8 → ω → Prop}

/-- A window with the capacity of a decompressor was given some bytes. -/
def Given (rep : List UInt8 → ω → Prop) (taken : List UInt8) (window : IoWindow ω) : Prop :=
  WindowRep rep taken window ∧ window.capacity = 0x8000

theorem given_takes (haccepts : AcceptsAll rep) (bound : ℕ) :
    Takes (Given rep) 0x8000 bound :=
  takes_window (haccepts.takes · bound) (Nat.le_refl 0x8000) (by decide)

end Given

end Brutal.Codec
