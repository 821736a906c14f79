import Brutal.Codec.Canonical
import Brutal.Codec.OutputBuffer

/-!
# Deflate streams, bit for bit

The blocks of a deflate stream as a relation between the data and its bits: stored blocks, which
begin at a byte, and blocks with the fixed codes or with codes of their own.
-/

namespace Brutal.Codec

open Io Lib

theorem readTable_of_lt {table : List ℕ} {i : ℕ} (h : i < table.length) :
    readTable table i = .ok table[i] := by
  simp only [readTable, List.getElem?_eq_getElem h]

theorem readTable_getD {table : List ℕ} {i : ℕ} (h : i < table.length) :
    readTable table i = .ok (table.getD i 0) := by
  simp [readTable_of_lt h, List.getD, List.getElem?_eq_getElem h]

/-- Writing a value to a stretch of an array. -/
theorem fillCells (start count : ℕ) (cells : Cells ℕ) (value : ℕ)
    (h : start + count ≤ cells.length) :
    ∃ cells', (List.range' start count).foldlM (fun cells i ↦ writeCell cells i value) cells =
        .ok cells' ∧ cells'.length = cells.length ∧
      ∀ j, cells'[j]? = if start ≤ j ∧ j < start + count then some (some value) else cells[j]? := by
  induction count generalizing start cells with
  | zero => exact ⟨cells, rfl, rfl, fun j ↦ by rw [if_neg (by omega)]⟩
  | succ count ih =>
    obtain ⟨mid, hmid⟩ := exists_writeCell value (show start < cells.length by omega)
    have hlength := length_writeCell hmid
    obtain ⟨cells', hfill, hlength', hcells⟩ := ih (start + 1) mid (by omega)
    refine ⟨cells', ?_, hlength'.trans hlength, fun j ↦ ?_⟩
    · rw [List.range'_succ, List.foldlM_cons, hmid, ok_bind]
      exact hfill
    · rw [hcells, getElem?_writeCell hmid]
      grind

theorem lengthAt_drop (lengths : Cells ℕ) (start i : ℕ) :
    lengthAt (lengths.drop start) i = lengthAt lengths (start + i) := by
  simp only [lengthAt, List.getElem?_drop]

/-- The counts of the fixed trees. -/
def staticCounts (l : ℕ) : ℕ :=
  if l = 7 then 24 else if l = 8 then 152 else if l = 9 then 112 else 0

def staticDistCounts (l : ℕ) : ℕ := if l = 5 then 32 else 0

/-- The code lengths of a block. -/
structure BlockCodes where
  lit : ℕ → ℕ
  numLit : ℕ
  dist : ℕ → ℕ
  numDist : ℕ

/-- A symbol that has a code. -/
def InUse (lengths : ℕ → ℕ) (num i : ℕ) : Prop := i < num ∧ lengths i ≠ 0

/-- The bytes of a match: each one is looked up at the same distance from the back. -/
def copyBytes (before : List UInt8) (offset : ℕ) : ℕ → List UInt8
  | 0 => []
  | length + 1 =>
    let byte := before.getD (before.length - offset) 0
    byte :: copyBytes (before ++ [byte]) offset length

@[simp] theorem length_copyBytes (before : List UInt8) (offset length : ℕ) :
    (copyBytes before offset length).length = length := by
  induction length generalizing before with
  | zero => rfl
  | succ length ih => rw [copyBytes, List.length_cons, ih]

/-- The symbols of a block up to the end of the block, after the data `before`: they stand for the
data `out`. -/
inductive SymbolBits (codes : BlockCodes) : List UInt8 → List UInt8 → List Bool → Prop where
  | literal {before out : List UInt8} {bits : List Bool} {symbol : ℕ} (hsymbol : symbol < 256)
      (huse : InUse codes.lit codes.numLit symbol)
      (tail : SymbolBits codes (before ++ [UInt8.ofNat symbol]) out bits) :
      SymbolBits codes before (UInt8.ofNat symbol :: out)
        (canonicalBits codes.lit codes.numLit symbol ++ bits)
  | copy {before out : List UInt8} {bits extraLength extraDist : List Bool} {symbol dist : ℕ}
      (hsymbol : 257 ≤ symbol ∧ symbol ≤ 285) (huse : InUse codes.lit codes.numLit symbol)
      (hlength : extraLength.length = lensBits.getD (symbol - 257) 0)
      (hdist : dist < 30) (huse' : InUse codes.dist codes.numDist dist)
      (hextra : extraDist.length = distBits.getD dist 0)
      (hoffset : distBase.getD dist 0 + natOfBits extraDist ≤ before.length)
      (tail : SymbolBits codes
        (before ++ copyBytes before (distBase.getD dist 0 + natOfBits extraDist)
          (lensBase.getD (symbol - 257) 0 + natOfBits extraLength)) out bits) :
      SymbolBits codes before
        (copyBytes before (distBase.getD dist 0 + natOfBits extraDist)
          (lensBase.getD (symbol - 257) 0 + natOfBits extraLength) ++ out)
        (canonicalBits codes.lit codes.numLit symbol ++
          (extraLength ++ (canonicalBits codes.dist codes.numDist dist ++ (extraDist ++ bits))))
  | endOfBlock {before : List UInt8} (huse : InUse codes.lit codes.numLit 256) :
      SymbolBits codes before [] (canonicalBits codes.lit codes.numLit 256)

/-- A block always comes to its end. -/
theorem SymbolBits.inUse_end {codes : BlockCodes} {before out : List UInt8} {bits : List Bool}
    (h : SymbolBits codes before out bits) : InUse codes.lit codes.numLit 256 := by
  induction h with
  | literal _ _ _ ih => exact ih
  | copy _ _ _ _ _ _ _ _ ih => exact ih
  | endOfBlock huse => exact huse

/-- Code lengths that make a tree: those of a complete code, or of a single code of one bit, or
none. -/
def Accepted (lengths : ℕ → ℕ) (num : ℕ) : Prop :=
  2 ≤ codeTotal lengths num ∧ Kraft lengths num ∨
    codeTotal lengths num ≤ 1 ∧ ∀ i < num, lengths i ≤ 1

/-- The code length of a code length symbol. -/
def precodeLength (pre : List ℕ) (symbol : ℕ) : ℕ := pre.getD (order.idxOf symbol) 0

/-- Code lengths, after those in front: single ones, repetitions of the last one, and zeros. -/
inductive LengthsBits (pre : ℕ → ℕ) (total : ℕ) : List ℕ → List ℕ → List Bool → Prop where
  | done {front : List ℕ} (htotal : front.length = total) : LengthsBits pre total front front []
  | length {front all : List ℕ} {bits : List Bool} {length : ℕ} (hlength : length < 16)
      (huse : pre length ≠ 0) (tail : LengthsBits pre total (front ++ [length]) all bits) :
      LengthsBits pre total front all (canonicalBits pre 19 length ++ bits)
  | again {front all : List ℕ} {bits extra : List Bool} {last : ℕ} (hextra : extra.length = 2)
      (huse : pre 16 ≠ 0)
      (tail : LengthsBits pre total
        (front ++ [last] ++ List.replicate (natOfBits extra + 3) last) all bits) :
      LengthsBits pre total (front ++ [last]) all (canonicalBits pre 19 16 ++ (extra ++ bits))
  | zeros {front all : List ℕ} {bits extra : List Bool} (hextra : extra.length = 3)
      (huse : pre 17 ≠ 0)
      (tail : LengthsBits pre total (front ++ List.replicate (natOfBits extra + 3) 0) all bits) :
      LengthsBits pre total front all (canonicalBits pre 19 17 ++ (extra ++ bits))
  | manyZeros {front all : List ℕ} {bits extra : List Bool} (hextra : extra.length = 7)
      (huse : pre 18 ≠ 0)
      (tail : LengthsBits pre total (front ++ List.replicate (natOfBits extra + 11) 0) all bits) :
      LengthsBits pre total front all (canonicalBits pre 19 18 ++ (extra ++ bits))

/-- The codes of a block with codes of its own, at its beginning.  The format has room for 32
distance codes; the last two of them are never in use. -/
inductive TreesBits (maxDist : ℕ) : BlockCodes → List Bool → Prop where
  | intro {hlit hdist : ℕ} {pre all : List ℕ} {bits : List Bool}
      (hlit_le : 257 ≤ hlit ∧ hlit ≤ 286) (hdist_le : 1 ≤ hdist ∧ hdist ≤ maxDist)
      (hpre_le : 4 ≤ pre.length ∧ pre.length ≤ 19) (hpre_lt : ∀ length ∈ pre, length < 8)
      (hpre : Accepted (precodeLength pre) 19)
      (hlengths : LengthsBits (precodeLength pre) (hlit + hdist) [] all bits)
      (hlit_ok : Accepted (fun i ↦ all.getD i 0) hlit)
      (hdist_ok : Accepted (fun i ↦ all.getD (hlit + i) 0) hdist) :
      TreesBits maxDist ⟨fun i ↦ all.getD i 0, hlit, fun i ↦ all.getD (hlit + i) 0, hdist⟩
        (natBits 5 (hlit - 257) ++ (natBits 5 (hdist - 1) ++ (natBits 4 (pre.length - 4) ++
          (pre.flatMap (natBits 3) ++ bits))))

/-- The fixed codes. -/
def fixedCodes : BlockCodes where
  lit i := if i < 144 then 8 else if i < 256 then 9 else if i < 280 then 7 else 8
  numLit := 288
  dist _ := 5
  numDist := 32

/-- The bits that are skipped in front of the sizes of a stored block, whose header begins at the
bit `pos`. -/
def padding (pos : ℕ) : ℕ := (8 - (pos + 3) % 8) % 8

/-- A block that begins at the bit `pos`, after the data `before`, and stands for `out`. -/
inductive BlockBits (maxDist pos : ℕ) (before : List UInt8) :
    Bool → List UInt8 → List Bool → Prop where
  | stored {last : Bool} {pad : List Bool} {out : List UInt8} (hpad : pad.length = padding pos)
      (hout : out.length ≤ 65535) :
      BlockBits maxDist pos before last out ([last] ++ (natBits 2 0 ++ (pad ++
        bitsOf (uint16Bytes (UInt16.ofNat out.length) ++
          (uint16Bytes (~~~UInt16.ofNat out.length) ++ out)))))
  | fixed {last : Bool} {out : List UInt8} {bits : List Bool}
      (hsymbols : SymbolBits fixedCodes before out bits) :
      BlockBits maxDist pos before last out ([last] ++ (natBits 2 1 ++ bits))
  | dynamic {last : Bool} {out : List UInt8} {codes : BlockCodes} {treeBits bits : List Bool}
      (htrees : TreesBits maxDist codes treeBits) (hsymbols : SymbolBits codes before out bits) :
      BlockBits maxDist pos before last out ([last] ++ (natBits 2 2 ++ (treeBits ++ bits)))

/-- The blocks of a stream, from the bit `pos` on and after the data `before`: the last one, and no
other, is marked. -/
inductive StreamBits (maxDist : ℕ) : ℕ → List UInt8 → List UInt8 → List (List Bool) → Prop where
  | last {pos : ℕ} {before out : List UInt8} {bits : List Bool}
      (hblock : BlockBits maxDist pos before true out bits) :
      StreamBits maxDist pos before out [bits]
  | more {pos : ℕ} {before out out' : List UInt8} {bits : List Bool} {blocks : List (List Bool)}
      (hblock : BlockBits maxDist pos before false out bits)
      (tail : StreamBits maxDist (pos + bits.length) (before ++ out) out' blocks) :
      StreamBits maxDist pos before (out ++ out') (bits :: blocks)

/-- Every block has a bit at least. -/
theorem StreamBits.length_le {maxDist pos : ℕ} {before out : List UInt8} {blocks : List (List Bool)}
    (h : StreamBits maxDist pos before out blocks) : blocks.length ≤ blocks.flatten.length := by
  have hblock : ∀ {pos : ℕ} {before out : List UInt8} {last : Bool} {bits : List Bool},
      BlockBits maxDist pos before last out bits → 1 ≤ bits.length := by
    intro pos before out last bits hbits
    cases hbits <;> exact Nat.le_add_left 1 _
  induction h with
  | last hbits => simpa using hblock hbits
  | more hbits tail ih =>
    have hpos := hblock hbits
    rw [List.flatten_cons, List.length_append, List.length_cons]
    omega

/-- A reader in front of some bits, with less than a byte in its buffer. -/
def Poised (data : List UInt8) (rest : List Bool) (reader : IoRBits IoMem) : Prop :=
  Stands data rest reader ∧ reader.bitcount < 8

variable {data : List UInt8} {rest : List Bool}

theorem Poised.ensureThenPop {reader : IoRBits IoMem} {bits : List Bool} {numBits : ℕ}
    (h : Poised data (bits ++ rest) reader) (hbits : bits.length = numBits) (hnum : numBits ≤ 16) :
    ∃ reader', ensureThenPop reader numBits = .ok (natOfBits bits, reader') ∧
      Poised data rest reader' := by
  rw [← hbits] at hnum ⊢
  obtain ⟨reader', hpop, hstands, hfew⟩ := h.1.ensureThenPop hnum
  exact ⟨reader', hpop, hstands, hfew h.2⟩

/-- A tree for the codes of some lengths, which does not refuse the symbols below the limit. -/
structure TreeFor (lengths : ℕ → ℕ) (num limit : ℕ) (t : HuffTree) : Prop where
  num_le : num ≤ 288
  lt : ∀ i < num, lengths i < 16
  codes : HasCodes lengths num t
  le_maxSym : ∀ i < limit, InUse lengths num i → (i : ℤ) ≤ t.maxSym

theorem TreeFor.next {lengths : ℕ → ℕ} {num limit : ℕ} {t : HuffTree}
    (h : TreeFor lengths num limit t) {i : ℕ} (huse : InUse lengths num i)
    {reader : IoRBits IoMem} (hreader : Poised data (canonicalBits lengths num i ++ rest) reader) :
    ∃ reader', huffDecoderNext t reader = .ok (i, reader') ∧ Poised data rest reader' := by
  obtain ⟨reader', hnext, hstands, hfew⟩ :=
    h.codes.next h.num_le huse.1 huse.2 (h.lt i huse.1) hreader.1
  exact ⟨reader', hnext, hstands, hfew hreader.2⟩

section Decode

variable {ω : Type} [IoWriter ω] {rep : List UInt8 → ω → Prop}

/-- A decompressor that has written some data, and stands in front of some bits. -/
structure Decodes (rep : List UInt8 → ω → Prop) (data : List UInt8) (rest : List Bool)
    (taken : List UInt8) (ctx : DeflateDecompressor IoMem ω) : Prop where
  reader : Poised data rest ctx.bitReader
  window : Given rep taken ctx.window
  lengthTree : ctx.lengthTree.symbols.length = 288
  distTree : ctx.distTree.symbols.length = 288

/-- A decompressor with the trees of a block. -/
structure HasTrees (codes : BlockCodes) (ctx : DeflateDecompressor IoMem ω) : Prop where
  lit : TreeFor codes.lit codes.numLit 286 ctx.lengthTree
  dist : TreeFor codes.dist codes.numDist 30 ctx.distTree

theorem Given.write (haccepts : AcceptsAll rep) {taken : List UInt8} {window : IoWindow ω}
    (h : Given rep taken window) (byte : UInt8) :
    ∃ window', IoWriter.write window [byte] = (.ok 1, window') ∧
      Given rep (taken ++ [byte]) window' :=
  given_takes haccepts (taken ++ [byte]).length taken window [byte] h (by simp) (Nat.le_refl _)

/-- The loop that copies a match. -/
theorem Given.copy (haccepts : AcceptsAll rep) {taken : List UInt8} {window : IoWindow ω}
    (h : Given rep taken window) {offset : ℕ} (hpos : 1 ≤ offset) (hle : offset ≤ taken.length)
    (hwindow : offset ≤ 0x8000) (length : ℕ) :
    ∃ window', (List.range length).foldlM (copyTurn offset) window = .ok window' ∧
      Given rep (taken ++ copyBytes taken offset length) window' := by
  have hall : ∀ (items : List ℕ) (taken : List UInt8) (window : IoWindow ω),
      Given rep taken window → offset ≤ taken.length →
        ∃ window', items.foldlM (copyTurn offset) window = .ok window' ∧
          Given rep (taken ++ copyBytes taken offset items.length) window' := by
    intro items
    induction items with
    | nil =>
      intro taken window h _
      exact ⟨window, rfl, by rwa [List.length_nil, copyBytes, List.append_nil]⟩
    | cons item rest ih =>
      intro taken window h hle
      obtain ⟨byte, hbyte, hpeek⟩ := h.1.peek hpos (by rw [h.2]; omega)
      have hgetD : taken.getD (taken.length - offset) 0 = byte := by
        rw [List.getD_eq_getElem?_getD, hbyte]
        rfl
      obtain ⟨mid, hwrite, hmid⟩ := h.write haccepts byte
      obtain ⟨window', hrest, hwindow'⟩ := ih _ mid hmid
        (by rw [List.length_append]; exact Nat.le_add_right_of_le hle)
      refine ⟨window', ?_, ?_⟩
      · rw [List.foldlM_cons, copyTurn, hpeek, ok_bind, hwrite, attempt_ok, ok_bind]
        exact hrest
      · rw [List.length_cons, copyBytes, hgetD]
        rwa [List.append_assoc] at hwindow'
  obtain ⟨window', hfold, hgiven⟩ := hall (List.range length) taken window h hle
  rw [List.length_range] at hgiven
  exact ⟨window', hfold, hgiven⟩

omit [IoWriter ω] in
/-- A symbol that a block may contain is not refused. -/
theorem HasTrees.not_rejects {codes : BlockCodes} {ctx : DeflateDecompressor IoMem ω}
    (h : HasTrees codes ctx) {symbol dist : ℕ} (hsymbol : 257 ≤ symbol ∧ symbol ≤ 285)
    (huse : InUse codes.lit codes.numLit symbol) (hdist : dist < 30)
    (huse' : InUse codes.dist codes.numDist dist) : ¬ rejects ctx symbol := by
  have hlit := h.lit.le_maxSym symbol (by omega) huse
  have hdist := h.dist.le_maxSym dist hdist huse'
  rintro (hmax | htable | hnone)
  · omega
  · omega
  · omega

/-- The loop over the symbols of a block writes what they stand for, and uses their bits. -/
theorem symbols_decode (haccepts : AcceptsAll rep) {codes : BlockCodes} {before out : List UInt8}
    {bits : List Bool} (h : SymbolBits codes before out bits) :
    ∀ (ctx : DeflateDecompressor IoMem ω) (size turns : ℕ),
      Decodes rep data (bits ++ rest) before ctx → HasTrees codes ctx → bits.length ≤ turns →
      ∃ ctx', loop symbolTurn .fuel turns ⟨size, ctx⟩ = .ok ⟨size + out.length, ctx'⟩ ∧
        Decodes rep data rest (before ++ out) ctx' := by
  induction h with
  | literal hsymbol huse tail ih =>
    intro ctx size turns hctx htrees hturns
    rename_i before out bits symbol
    have hreader := hctx.reader
    rw [List.append_assoc] at hreader
    obtain ⟨reader, hnext, hreader'⟩ := htrees.lit.next huse hreader
    obtain ⟨window, hwrite, hwindow⟩ := hctx.window.write haccepts (UInt8.ofNat symbol)
    have hturn : symbolTurn ⟨size, ctx⟩ =
        .ok (.inl ⟨size + 1, { ctx with window, bitReader := reader }⟩) := by
      simp only [symbolTurn, hnext, ok_bind, if_pos hsymbol, hwrite, attempt_ok]
      rfl
    have hlength : codes.lit symbol ≠ 0 := huse.2
    rw [List.length_append, length_canonicalBits] at hturns
    obtain ⟨turns, rfl⟩ := Nat.exists_eq_add_of_lt (show 0 < turns by omega)
    obtain ⟨ctx', hloop, hctx'⟩ := ih { ctx with window, bitReader := reader } (size + 1)
      (0 + turns) ⟨hreader', hwindow, hctx.lengthTree, hctx.distTree⟩ ⟨htrees.lit, htrees.dist⟩
      (by omega)
    refine ⟨ctx', ?_, ?_⟩
    · rw [loop_turn hturn, hloop, List.length_cons, Nat.add_assoc, Nat.add_comm 1]
    · rwa [List.append_assoc] at hctx'
  | copy hsymbol huse hlength hdist huse' hextra hoffset tail ih =>
    intro ctx size turns hctx htrees hturns
    rename_i before out bits extraLength extraDist symbol dist
    have hreader := hctx.reader
    simp only [List.append_assoc] at hreader
    have htables : ∀ i < 29, lensBits.getD i 0 ≤ 16 := by decide
    have hdists : ∀ d < 30, 1 ≤ distBase.getD d 0 ∧ distBits.getD d 0 ≤ 16 ∧
        distBase.getD d 0 + 2 ^ distBits.getD d 0 ≤ 0x8001 := by decide
    obtain ⟨hbase, hfew, hsum⟩ := hdists dist hdist
    obtain ⟨r₁, hnext, hr₁⟩ := htrees.lit.next huse hreader
    obtain ⟨r₂, hpop, hr₂⟩ := hr₁.ensureThenPop hlength (htables (symbol - 257) (by omega))
    obtain ⟨r₃, hnext', hr₃⟩ := htrees.dist.next huse' hr₂
    obtain ⟨r₄, hpop', hr₄⟩ := hr₃.ensureThenPop hextra hfew
    have hbound := natOfBits_lt extraDist
    rw [hextra] at hbound
    obtain ⟨window, hcopy, hwindow⟩ := hctx.window.copy haccepts
      (show 1 ≤ distBase.getD dist 0 + natOfBits extraDist by omega) hoffset (by omega)
      (lensBase.getD (symbol - 257) 0 + natOfBits extraLength)
    have hreads : matchLength r₁ symbol =
        .ok (lensBase.getD (symbol - 257) 0 + natOfBits extraLength, r₂) := by
      have hindex : symbol - 257 < 29 := by omega
      have hbits := readTable_getD (Nat.lt_of_lt_of_le hindex (show 29 ≤ lensBits.length by decide))
      have hbase := readTable_getD (Nat.lt_of_lt_of_le hindex (show 29 ≤ lensBase.length by decide))
      simp only [matchLength, hbits, hbase, ok_bind, hpop]
      rfl
    have hreads' : matchOffset r₃ dist =
        .ok (distBase.getD dist 0 + natOfBits extraDist, r₄) := by
      have hbits := readTable_getD (Nat.lt_of_lt_of_le hdist (show 30 ≤ distBits.length by decide))
      have hbase := readTable_getD (Nat.lt_of_lt_of_le hdist (show 30 ≤ distBase.length by decide))
      simp only [matchOffset, hbits, hbase, ok_bind, hpop']
      rfl
    have hturn : symbolTurn ⟨size, ctx⟩ =
        .ok (.inl ⟨size + (lensBase.getD (symbol - 257) 0 + natOfBits extraLength),
          { ctx with window, bitReader := r₄ }⟩) := by
      simp only [symbolTurn, hnext, ok_bind, if_neg (show ¬ symbol < 256 by omega),
        if_neg (show symbol ≠ 256 by omega),
        if_neg (htrees.not_rejects hsymbol huse hdist huse'), hreads, hnext', hreads', hcopy]
      rfl
    have hpos : codes.lit symbol ≠ 0 := huse.2
    simp only [List.length_append, length_canonicalBits] at hturns
    obtain ⟨turns, rfl⟩ := Nat.exists_eq_add_of_lt (show 0 < turns by omega)
    obtain ⟨ctx', hloop, hctx'⟩ := ih { ctx with window, bitReader := r₄ }
      (size + (lensBase.getD (symbol - 257) 0 + natOfBits extraLength))
      (0 + turns) ⟨hr₄, hwindow, hctx.lengthTree, hctx.distTree⟩ ⟨htrees.lit, htrees.dist⟩
      (by omega)
    refine ⟨ctx', ?_, ?_⟩
    · rw [loop_turn hturn, hloop, List.length_append, length_copyBytes, Nat.add_assoc]
    · rwa [List.append_assoc] at hctx'
  | endOfBlock huse =>
    intro ctx size turns hctx htrees hturns
    rename_i before
    obtain ⟨reader, hnext, hreader⟩ := htrees.lit.next huse hctx.reader
    have hturn : symbolTurn ⟨size, ctx⟩ =
        .ok (.inr ⟨size, { ctx with bitReader := reader }⟩) := by
      simp only [symbolTurn, hnext, ok_bind, if_neg (show ¬ 256 < 256 by omega), if_true]
      rfl
    have hpos : codes.lit 256 ≠ 0 := huse.2
    rw [length_canonicalBits] at hturns
    obtain ⟨turns, rfl⟩ := Nat.exists_eq_add_of_lt (show 0 < turns by omega)
    refine ⟨{ ctx with bitReader := reader }, ?_, ?_⟩
    · rw [loop_leave hturn, List.length_nil, Nat.add_zero]
    · exact ⟨hreader, by rw [List.append_nil]; exact hctx.window, hctx.lengthTree, hctx.distTree⟩

end Decode

/-- How many of the first symbols have a fixed code of a length. -/
theorem codeCount_fixed {n : ℕ} (hn : n ≤ 288) (l : ℕ) :
    codeCount fixedCodes.lit n l =
      if l = 7 then min (n - 256) 24 else if l = 8 then min n 144 + (n - 280)
        else if l = 9 then min (n - 144) 112 else 0 := by
  induction n with
  | zero => simp [codeCount]
  | succ n ih =>
    rw [codeCount_succ, ih (Nat.le_of_succ_le hn)]
    simp only [fixedCodes]
    grind

theorem codeCount_fixedDist (n l : ℕ) :
    codeCount fixedCodes.dist n l = if l = 5 then n else 0 := by
  induction n with
  | zero => simp [codeCount]
  | succ n ih =>
    rw [codeCount_succ, ih]
    simp only [fixedCodes]
    grind

theorem codeCount_fixed_all : codeCount fixedCodes.lit 288 = staticCounts := by
  funext l
  rw [codeCount_fixed (Nat.le_refl 288), staticCounts]
  split_ifs <;> rfl

theorem codeCount_fixedDist_all : codeCount fixedCodes.dist 32 = staticDistCounts := by
  funext l
  rw [codeCount_fixedDist, staticDistCounts]

/-- Symbols that follow one another. -/
def symbolRun (start size : ℕ) : Cells ℕ := (List.range' start size).map some

theorem fixedSymbols_eq {ω : Type} (ctx : DeflateDecompressor IoMem ω) :
    (buildStaticHuffTrees ctx).lengthTree.symbols =
      symbolRun 256 24 ++ symbolRun 0 144 ++ symbolRun 280 8 ++ symbolRun 144 112 := by
  simp only [buildStaticHuffTrees, symbolRun, List.map_append, List.range_eq_range']

theorem staticTrees_lit {ω : Type} (ctx : DeflateDecompressor IoMem ω) :
    TreeFor fixedCodes.lit 288 286 (buildStaticHuffTrees ctx).lengthTree := by
  have hcounts : ∀ l < 16, (countsOf [(7, 24), (8, 152), (9, 112)])[l]? =
      some (some (staticCounts l)) := by
    decide
  have hstart : ∀ i < 288, startOf staticCounts (fixedCodes.lit i) =
      if i < 144 then 24 else if i < 256 then 176 else if i < 280 then 0 else 24 := by
    intro i _
    simp only [fixedCodes]
    split_ifs <;> rfl
  have hlit : ∀ i, fixedCodes.lit i < 16 := by
    intro i
    simp only [fixedCodes]
    split_ifs <;> decide
  refine ⟨Nat.le_refl 288, fun i _ ↦ hlit i, ⟨?_, ?_, ?_⟩, ?_⟩
  · intro i _ _ l hl
    rw [codeCount_fixed_all]
    have hall : ∀ l < 16, staticCounts l ≤ availableOf staticCounts l := by decide
    exact hall l (Nat.lt_of_le_of_lt hl (hlit i))
  · intro i _ _ l hl
    rw [codeCount_fixed_all]
    exact ⟨_, hcounts l (Nat.lt_of_le_of_lt hl (hlit i)), Nat.le_refl _, fun _ ↦ rfl⟩
  · intro i hi _
    have hplace : placeOf fixedCodes.lit 288 i =
        if i < 144 then 24 + i else if i < 256 then 176 + (i - 144)
          else if i < 280 then i - 256 else 168 + (i - 280) := by
      rw [placeOf, codeCount_fixed_all, hstart i hi, codeCount_fixed (Nat.le_of_lt hi)]
      simp only [fixedCodes]
      grind
    rw [hplace]
    rw [fixedSymbols_eq]
    have hlength : ∀ start size, (symbolRun start size).length = size := by simp [symbolRun]
    have hrun :
        ∀ start size k, k < size → (symbolRun start size)[k]? = some (some (start + k)) := by
      intro start size k hk
      simp [symbolRun, hk]
    by_cases h₁ : i < 144
    · rw [if_pos h₁, List.getElem?_append_left (by simp [hlength]; omega),
        List.getElem?_append_left (by simp [hlength]; omega),
        List.getElem?_append_right (by simp [hlength]), hlength, hrun _ _ _ (by omega)]
      exact congrArg (fun symbol ↦ some (some symbol)) (by omega)
    · by_cases h₂ : i < 256
      · rw [if_neg h₁, if_pos h₂, List.getElem?_append_right (by simp [hlength]),
          hrun _ _ _ (by simp [hlength]; omega)]
        simp only [List.length_append, hlength]
        exact congrArg (fun symbol ↦ some (some symbol)) (by omega)
      · by_cases h₃ : i < 280
        · rw [if_neg h₁, if_neg h₂, if_pos h₃, List.getElem?_append_left (by simp [hlength]; omega),
            List.getElem?_append_left (by simp [hlength]; omega),
            List.getElem?_append_left (by simp [hlength]; omega), hrun _ _ _ (by omega)]
          exact congrArg (fun symbol ↦ some (some symbol)) (by omega)
        · rw [if_neg h₁, if_neg h₂, if_neg h₃, List.getElem?_append_left (by simp [hlength]; omega),
            List.getElem?_append_right (by simp [hlength]), hrun _ _ _ (by simp [hlength]; omega)]
          simp only [List.length_append, hlength]
          exact congrArg (fun symbol ↦ some (some symbol)) (by omega)
  · intro i hi _
    simp only [buildStaticHuffTrees]
    omega

theorem staticTrees_dist {ω : Type} (ctx : DeflateDecompressor IoMem ω) :
    TreeFor fixedCodes.dist 32 30 (buildStaticHuffTrees ctx).distTree := by
  have hcounts : ∀ l < 16, (countsOf [(5, 32)])[l]? = some (some (staticDistCounts l)) := by decide
  refine ⟨by decide, fun _ _ ↦ (by decide : 5 < 16), ⟨?_, ?_, ?_⟩, ?_⟩
  · intro i _ _ l hl
    rw [codeCount_fixedDist_all]
    have hall : ∀ l < 16, staticDistCounts l ≤ availableOf staticDistCounts l := by decide
    exact hall l (Nat.lt_of_le_of_lt hl (by decide : 5 < 16))
  · intro i _ _ l hl
    rw [codeCount_fixedDist_all]
    exact ⟨_, hcounts l (Nat.lt_of_le_of_lt hl (by decide : 5 < 16)), Nat.le_refl _, fun _ ↦ rfl⟩
  · intro i hi _
    have hplace : placeOf fixedCodes.dist 32 i = i := by
      rw [placeOf, codeCount_fixedDist_all, codeCount_fixedDist]
      simp [fixedCodes, startOf, staticDistCounts]
    rw [hplace]
    simp [buildStaticHuffTrees, List.getElem?_append, hi]
  · intro i hi _
    simp only [buildStaticHuffTrees]
    omega

end Brutal.Codec
