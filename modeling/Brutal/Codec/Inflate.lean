import Brutal.Codec.Huff
import Brutal.Io.Window
import Brutal.Lib.Loop

/-!
# Inflate

`libs/codec-deflate/inflate.c`.  The loops over blocks and symbols end only when the input says so;
the functions that contain them get the number of turns that each may take.
-/

namespace Brutal.Codec

open Io Lib

/-- `LENS_BASE` -/
def lensBase : List ℕ :=
  [3, 4, 5, 6, 7, 8, 9, 10, 11, 13, 15, 17, 19, 23, 27, 31,
    35, 43, 51, 59, 67, 83, 99, 115, 131, 163, 195, 227, 258, 0]

/-- `LENS_BITS` -/
def lensBits : List ℕ :=
  [0, 0, 0, 0, 0, 0, 0, 0, 1, 1, 1, 1, 2, 2, 2, 2, 3, 3, 3, 3, 4, 4, 4, 4, 5, 5, 5, 5, 0, 127]

/-- `DIST_BASE` -/
def distBase : List ℕ :=
  [1, 2, 3, 4, 5, 7, 9, 13, 17, 25, 33, 49, 65, 97, 129, 193,
    257, 385, 513, 769, 1025, 1537, 2049, 3073, 4097, 6145, 8193, 12289, 16385, 24577]

/-- `DIST_BITS`, which is longer than its initialiser. -/
def distBits : List ℕ :=
  [0, 0, 0, 0, 1, 1, 2, 2, 3, 3, 4, 4, 5, 5, 6, 6, 7, 7, 8, 8, 9, 9, 10, 10, 11, 11, 12, 12, 13,
    13, 0, 0]

/-- `order`, the special ordering of code length codes. -/
def order : List ℕ := [16, 17, 18, 0, 8, 7, 9, 6, 10, 5, 11, 4, 12, 3, 13, 2, 14, 1, 15]

def readTable (table : List ℕ) (index : ℕ) : Except Stop ℕ :=
  match table[index]? with
  | some value => .ok value
  | none => .error .outOfBounds

/-- `DeflateDecompressor`; its writer is the window. -/
structure DeflateDecompressor (ρ ω : Type) where
  lengthTree : HuffTree
  distTree : HuffTree
  window : IoWindow ω
  bitReader : IoRBits ρ

section Inflate

variable {ρ ω : Type} [IoReader ρ] [IoWriter ω]

/-- The first bits of a dynamic block: `hlit`, `hdist` and `hclen`. -/
def treeSizes (reader : IoRBits ρ) : Except Stop ((ℕ × ℕ × ℕ) × IoRBits ρ) := do
  let (_, reader) ← ioRbitsEnsureBits reader 14
  let (hlit, reader) ← ioRbitsPopBits reader 5
  let (hdist, reader) ← ioRbitsPopBits reader 5
  let (hclen, reader) ← ioRbitsPopBits reader 4
  return ((hlit + 257, hdist + 1, hclen + 4), reader)

/-- The turn of `build_dynamic_huff_trees` that reads the length of a code length code. -/
def precodeTurn (state : Cells ℕ × IoRBits ρ) (i : ℕ) : Except Stop (Cells ℕ × IoRBits ρ) := do
  let (lengths, reader) := state
  let (length, reader) ← ensureThenPop reader 3
  let place ← readTable order i
  let lengths ← writeCell lengths place length
  return (lengths, reader)

/-- The variables of the loop over the code lengths. -/
structure CodeLengths (ρ : Type) where
  num : ℕ
  lengths : Cells ℕ
  reader : IoRBits ρ

/-- What a code length symbol stands for: a length, and how often it is repeated. -/
def repeatOf (state : CodeLengths ρ) (symbol : ℕ) (reader : IoRBits ρ) :
    Except Stop ((ℕ × ℕ) × IoRBits ρ) :=
  match symbol with
  | 16 => do
    let (count, reader) ← ensureThenPop reader 2
    -- Last element will get repeated
    let last ← if state.num = 0 then throw .outOfBounds else readCell state.lengths (state.num - 1)
    return ((last, count + 3), reader)
  | 17 => do
    let (count, reader) ← ensureThenPop reader 3
    return ((0, count + 3), reader)
  | 18 => do
    let (count, reader) ← ensureThenPop reader 7
    return ((0, count + 11), reader)
  | symbol => return ((symbol, 1), reader)

/-- The turn of `build_dynamic_huff_trees` that reads code lengths. -/
def codeLengthsTurn (tree : HuffTree) (total : ℕ) (state : CodeLengths ρ) :
    Except Stop (CodeLengths ρ ⊕ CodeLengths ρ) := do
  if state.num < total then
    let (symbol, reader) ← huffDecoderNext tree state.reader
    let ((symbol, repeatCount), reader) ← repeatOf state symbol reader
    if repeatCount > total - state.num then throw (.error .badData)
    let lengths ← (List.range' state.num repeatCount).foldlM
      (fun lengths i ↦ writeCell lengths i symbol) state.lengths
    return .inl ⟨state.num + repeatCount, lengths, reader⟩
  else return .inr state

/-- The first part of `build_dynamic_huff_trees`: the tree of the code length codes, with the array
that it was built from. -/
def buildPrecodeTree (ctx : DeflateDecompressor ρ ω) :
    Except Stop ((ℕ × ℕ × Cells ℕ) × DeflateDecompressor ρ ω) := do
  let ((hlit, hdist, hclen), reader) ← treeSizes ctx.bitReader
  if 286 < hlit ∨ 30 < hdist then throw (.error .tooManySymbols)
  -- Initialize lengths with zeros
  let lengths ← (List.range 19).foldlM (fun lengths i ↦ writeCell lengths i 0)
    (Cells.make ℕ (288 + 32))
  -- 3 bits per code
  let (lengths, reader) ← (List.range hclen).foldlM precodeTurn (lengths, reader)
  let tree ← buildHuffTree ctx.lengthTree lengths 19
  return ((hlit, hdist, lengths), { ctx with lengthTree := tree, bitReader := reader })

/-- The last part of `build_dynamic_huff_trees`. -/
def buildCodeTrees (ctx : DeflateDecompressor ρ ω) (hlit hdist : ℕ) (lengths : Cells ℕ) :
    Except Stop (DeflateDecompressor ρ ω) := do
  let endOfBlock ← readCell lengths 256
  if endOfBlock = 0 then throw (.error .invalidCode)
  let lengthTree ← buildHuffTree ctx.lengthTree lengths hlit
  let distTree ← buildHuffTree ctx.distTree (lengths.drop hlit) hdist
  return { ctx with lengthTree, distTree }

/-- `build_dynamic_huff_trees`; the loop over the code lengths adds one at least in every turn. -/
def buildDynamicHuffTrees (ctx : DeflateDecompressor ρ ω) :
    Except Stop (DeflateDecompressor ρ ω) := do
  let ((hlit, hdist, lengths), ctx) ← buildPrecodeTree ctx
  let state ← loop (codeLengthsTurn ctx.lengthTree (hdist + hlit)) .fuel (hdist + hlit + 1)
    ⟨0, lengths, ctx.bitReader⟩
  buildCodeTrees { ctx with bitReader := state.reader } hlit hdist state.lengths

def countsOf (counts : List (ℕ × ℕ)) : Cells ℕ :=
  counts.foldl (fun cells (length, count) ↦ cells.set length (some count))
    (List.replicate 16 (some 0))

/-- `build_static_huff_trees` -/
def buildStaticHuffTrees (ctx : DeflateDecompressor ρ ω) : DeflateDecompressor ρ ω :=
  { ctx with
    lengthTree :=
      { counts := countsOf [(7, 24), (8, 152), (9, 112)]
        symbols := (List.range' 256 24 ++ List.range 144 ++ List.range' 280 8 ++
          List.range' 144 112).map some
        maxSym := 285 }
    distTree :=
      { counts := countsOf [(5, 32)]
        symbols := (List.range 32).map some ++ ctx.distTree.symbols.drop 32
        maxSym := 29 } }

/-- The header of a block: whether it is the last one, and its type. -/
def blockHeader (reader : IoRBits ρ) : Except Stop ((Bool × ℕ) × IoRBits ρ) := do
  let (_, reader) ← ioRbitsEnsureBits reader (1 + 2)
  let (finalBlock, reader) ← ioRbitsPopBits reader 1
  let (blockType, reader) ← ioRbitsPopBits reader 2
  return ((finalBlock == 1, blockType), reader)

/-- A `uint16_t` in memory. -/
def uint16Of (bytes : List UInt8) : UInt16 :=
  (bytes.getD 0 0).toUInt16 ||| ((bytes.getD 1 0).toUInt16 <<< 8)

/-- Read `len` and `nlen`, whose bytes are those of the stack if there are not enough. -/
def storedSizes (reader : IoRBits ρ) : Except Stop ((UInt16 × UInt16) × IoRBits ρ) := do
  let reader ← ioRbitsAlign reader
  let stack := reader.stack
  let (len, input) ← attempt (IoReader.read reader.reader 2)
  let (nlen, input) ← attempt (IoReader.read input 2)
  return ((uint16Of (store (stack.take 2) len), uint16Of (store ((stack.drop 2).take 2) nlen)),
    { reader with reader := input, stack := stack.drop 4 })

/-- A block of type `DEFLATE_BLOCKTYPE_UNCOMPRESSED`. -/
def storedBlock (ctx : DeflateDecompressor ρ ω) : Except Stop (ℕ × DeflateDecompressor ρ ω) := do
  let ((len, nlen), reader) ← storedSizes ctx.bitReader
  if len ≠ ~~~nlen then throw .panic
  let (size, input, window) ← ioCopyN reader.reader ctx.window len.toNat
  return (size, { ctx with window, bitReader := { reader with reader := input } })

/-- The turn of the loop that copies a match. -/
def copyTurn (offset : ℕ) (window : IoWindow ω) (_ : ℕ) : Except Stop (IoWindow ω) := do
  let val ← ioWindowPeekFromBack window offset
  let (_, window) ← attempt (IoWriter.write window [val])
  return window

/-- The length of a match, for a symbol that was accepted. -/
def matchLength (reader : IoRBits ρ) (symbol : ℕ) : Except Stop (ℕ × IoRBits ρ) := do
  let bits ← readTable lensBits (symbol - 257)
  let base ← readTable lensBase (symbol - 257)
  let (extra, reader) ← ensureThenPop reader bits
  return (base + extra, reader)

/-- The offset of a match. -/
def matchOffset (reader : IoRBits ρ) (dist : ℕ) : Except Stop (ℕ × IoRBits ρ) := do
  let bits ← readTable distBits dist
  let base ← readTable distBase dist
  let (extra, reader) ← ensureThenPop reader bits
  return (base + extra, reader)

/-- The test for symbols without a meaning. -/
def rejects (ctx : DeflateDecompressor ρ ω) (symbol : ℕ) : Prop :=
  (symbol : ℤ) > ctx.lengthTree.maxSym ∨ symbol - 257 > 28 ∨ ctx.distTree.maxSym = -1

instance (ctx : DeflateDecompressor ρ ω) (symbol : ℕ) : Decidable (rejects ctx symbol) :=
  inferInstanceAs (Decidable (_ ∨ _ ∨ _))

/-- The variables of the loop over the symbols of a block. -/
structure Symbols (ρ ω : Type) where
  size : ℕ
  ctx : DeflateDecompressor ρ ω

/-- The turn of `deflate_decompress_block` for a symbol. -/
def symbolTurn (state : Symbols ρ ω) : Except Stop (Symbols ρ ω ⊕ Symbols ρ ω) := do
  let ctx := state.ctx
  let (symbol, reader) ← huffDecoderNext ctx.lengthTree ctx.bitReader
  if symbol < 256 then
    let (_, window) ← attempt (IoWriter.write ctx.window [UInt8.ofNat symbol])
    return .inl ⟨state.size + 1, { ctx with window, bitReader := reader }⟩
  else if symbol = 256 then
    return .inr ⟨state.size, { ctx with bitReader := reader }⟩
  else
    if rejects ctx symbol then throw (.error .badData)
    let (length, reader) ← matchLength reader symbol
    let (dist, reader) ← huffDecoderNext ctx.distTree reader
    let (offset, reader) ← matchOffset reader dist
    let window ← (List.range length).foldlM (copyTurn offset) ctx.window
    return .inl ⟨state.size + length, { ctx with window, bitReader := reader }⟩

/-- `deflate_decompress_block` -/
def deflateDecompressBlock (turns : ℕ) (ctx : DeflateDecompressor ρ ω) :
    Except Stop ((ℕ × Bool) × DeflateDecompressor ρ ω) := do
  let ((finalBlock, blockType), reader) ← blockHeader ctx.bitReader
  let ctx := { ctx with bitReader := reader }
  match blockType with
  | 0 =>
    let (size, ctx) ← storedBlock ctx
    return ((size, finalBlock), ctx)
  | 1 =>
    let state ← loop symbolTurn .fuel turns ⟨0, buildStaticHuffTrees ctx⟩
    return ((state.size, finalBlock), state.ctx)
  | 2 =>
    let ctx ← buildDynamicHuffTrees ctx
    let state ← loop symbolTurn .fuel turns ⟨0, ctx⟩
    return ((state.size, finalBlock), state.ctx)
  | _ => throw (.error .unknownBlock)

/-- The turn of `deflate_decompress_stream`. -/
def blockTurn (turns : ℕ) (state : Symbols ρ ω) : Except Stop (Symbols ρ ω ⊕ Symbols ρ ω) := do
  let ((size, finalBlock), ctx) ← deflateDecompressBlock turns state.ctx
  let state := ⟨state.size + size, ctx⟩
  if finalBlock then return .inr state else return .inl state

/-- The decompressor of `deflate_decompress_stream`. -/
def decompressorInit (writer : ω) (reader : ρ) (stack : Stack) : DeflateDecompressor ρ ω :=
  { lengthTree := HuffTree.fresh
    distTree := HuffTree.fresh
    window := ioWindowInit writer 0x8000
    bitReader := ioRbitsInit reader stack }

/-- `deflate_decompress_stream`, which returns the streams and the stack along with the size. -/
def deflateDecompressStream (turns : ℕ) (writer : ω) (reader : ρ) (stack : Stack) :
    Except Stop (ℕ × ω × ρ × Stack) := do
  let state ← loop (blockTurn turns) .fuel turns ⟨0, decompressorInit writer reader stack⟩
  let window := ioWindowFlushAll state.ctx.window
  return (state.size, window.underlying, state.ctx.bitReader.reader, state.ctx.bitReader.stack)

end Inflate

end Brutal.Codec
