import Brutal.Io.BitStream
import Brutal.Io.Cells

/-!
# Huffman trees

`libs/codec-deflate/huff.h`.  A tree is a table of how many codes there are of each length, and the
symbols in the order of their codes.
-/

namespace Brutal.Codec

open Io Lib

/-- `HuffTree` -/
structure HuffTree where
  counts : Cells ℕ
  symbols : Cells ℕ
  maxSym : ℤ
deriving DecidableEq

/-- A tree that nothing was written to yet. -/
def HuffTree.fresh : HuffTree := ⟨Cells.make ℕ 16, Cells.make ℕ 288, 0⟩

/-- The turn of `build_huff_tree` that counts the code of a symbol. -/
def countCode (lengths : Cells ℕ) (t : HuffTree) (i : ℕ) : Except Stop HuffTree := do
  let length ← readCell lengths i
  if 16 ≤ length then throw .panic
  if length = 0 then return t
  let count ← readCell t.counts length
  let counts ← writeCell t.counts length (count + 1)
  return { t with counts, maxSym := i }

/-- The variables of the loop over the code lengths. -/
structure Offsets where
  available : ℕ
  numCodes : ℕ
  offs : Cells ℕ

/-- The turn of `build_huff_tree` that finds where the symbols of a code length start. -/
def offsetCodes (t : HuffTree) (o : Offsets) (i : ℕ) : Except Stop Offsets := do
  let used ← readCell t.counts i
  if used > o.available then throw (.error .notEnoughTableSpace)
  let offs ← writeCell o.offs i o.numCodes
  return ⟨2 * (o.available - used), o.numCodes + used, offs⟩

/-- The turn of `build_huff_tree` that puts a symbol in its place. -/
def placeSymbol (lengths : Cells ℕ) (state : Cells ℕ × Cells ℕ) (i : ℕ) :
    Except Stop (Cells ℕ × Cells ℕ) := do
  let (symbols, offs) := state
  let length ← readCell lengths i
  if length = 0 then return (symbols, offs)
  let place ← readCell offs length
  let symbols ← writeCell symbols place i
  let offs ← writeCell offs length (place + 1)
  return (symbols, offs)

/-- `build_huff_tree` -/
def buildHuffTree (t : HuffTree) (lengths : Cells ℕ) (num : ℕ) : Except Stop HuffTree := do
  if 288 < num then throw .panic
  let t := { t with counts := List.replicate 16 (some 0), maxSym := -1 }
  -- Count number of codes for each non-zero length
  let t ← (List.range num).foldlM (countCode lengths) t
  -- Compute offset table for distribution sort
  let o ← (List.range 16).foldlM (offsetCodes t) ⟨1, 0, Cells.make ℕ 16⟩
  -- Check all codes were used, or for the special case of only one code that it has length 1
  let ones ← readCell t.counts 1
  if (1 < o.numCodes ∧ 0 < o.available) ∨ (o.numCodes = 1 ∧ ones ≠ 1) then
    throw (.error .invalidCode)
  -- Fill in symbols sorted by code
  let (symbols, _) ← (List.range num).foldlM (placeSymbol lengths) (t.symbols, o.offs)
  -- A single code gets a second one, for a symbol that is too large
  if o.numCodes = 1 then
    let counts ← writeCell t.counts 1 2
    let symbols ← writeCell symbols 1 (t.maxSym + 1).toNat
    return { t with counts, symbols }
  return { t with symbols }

section Decode

variable {ρ : Type} [IoReader ρ]

/-- The loop of `huff_decoder_next`. -/
def huffDecoderLoop (tree : HuffTree) :
    ℕ → IoRBits ρ → ℕ → ℕ → ℕ → Except Stop (ℕ × IoRBits ρ)
  | 0, _, _, _, _ => .error .fuel
  | turns + 1, reader, base, offs, len => do
    let (bit, reader) ← ensureThenPop reader 1
    let offs := 2 * offs + bit
    if 15 < len then throw .panic
    let count ← readCell tree.counts len
    if offs < count then return (base + offs, reader)
    else huffDecoderLoop tree turns reader (base + count) (offs - count) (len + 1)

/-- `huff_decoder_next` -/
def huffDecoderNext (tree : HuffTree) (reader : IoRBits ρ) : Except Stop (ℕ × IoRBits ρ) := do
  let (index, reader) ← huffDecoderLoop tree 16 reader 0 0 1
  if 288 ≤ index then throw .panic
  let symbol ← readCell tree.symbols index
  return (symbol, reader)

end Decode

end Brutal.Codec
