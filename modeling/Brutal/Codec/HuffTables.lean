import Brutal.Codec.Huff
import Brutal.Io.Safe

/-!
# Huffman tables

What `build_huff_tree` leaves in a tree: the counts of the codes of each length, the symbols of each
length next to each other, and counts that use up all codes.  From such a tree
`huff_decoder_next` always gets a symbol, whatever bits come.
-/

namespace Brutal.Codec

open Io Lib

variable {n i j num : ℕ} {counts : ℕ → ℕ} {lengths symbols : Cells ℕ} {t : HuffTree}

/-- How many of the first symbols have a code of the length. -/
def codeCount (lengths : ℕ → ℕ) (num length : ℕ) : ℕ :=
  if length = 0 then 0 else (List.range num).countP fun i ↦ lengths i = length

/-- Where the symbols of a length start. -/
def startOf (counts : ℕ → ℕ) : ℕ → ℕ
  | 0 => 0
  | i + 1 => startOf counts i + counts i

/-- How many codes of a length are left by the shorter ones. -/
def availableOf (counts : ℕ → ℕ) : ℕ → ℕ
  | 0 => 1
  | i + 1 => 2 * (availableOf counts i - counts i)

/-- The counts use codes that there are, and all of them. -/
def Complete (counts : ℕ → ℕ) : Prop :=
  (∀ i < 16, counts i ≤ availableOf counts i) ∧ availableOf counts 16 = 0

theorem codeCount_succ (lengths : ℕ → ℕ) (num length : ℕ) :
    codeCount lengths (num + 1) length = codeCount lengths num length +
      if length ≠ 0 ∧ lengths num = length then 1 else 0 := by
  unfold codeCount
  by_cases hzero : length = 0
  · simp [hzero]
  · simp [hzero, List.range_succ, List.countP_append, List.countP_cons]

theorem codeCount_mono (lengths : ℕ → ℕ) {m n : ℕ} (h : m ≤ n) (length : ℕ) :
    codeCount lengths m length ≤ codeCount lengths n length := by
  induction n, h using Nat.le_induction with
  | base => exact Nat.le_refl _
  | succ n _ ih =>
    rw [codeCount_succ]
    omega

theorem startOf_mono (counts : ℕ → ℕ) (h : i ≤ j) : startOf counts i ≤ startOf counts j := by
  induction j, h using Nat.le_induction with
  | base => exact Nat.le_refl _
  | succ j _ ih =>
    rw [startOf]
    omega

/-- There are no more codes than symbols. -/
theorem startOf_codeCount_le (lengths : ℕ → ℕ) (num length : ℕ) :
    startOf (codeCount lengths num) length ≤ num := by
  induction num with
  | zero =>
    have hzero : ∀ length, startOf (codeCount lengths 0) length = 0 := by
      intro length
      induction length with
      | zero => rfl
      | succ length ih => simp [startOf, ih, codeCount]
    rw [hzero]
  | succ num ih =>
    have hstep : startOf (codeCount lengths (num + 1)) length ≤
        startOf (codeCount lengths num) length + if lengths num < length then 1 else 0 := by
      clear ih
      induction length with
      | zero => exact Nat.zero_le _
      | succ length ih =>
        rw [startOf, startOf, codeCount_succ]
        grind
    have hone : (if lengths num < length then 1 else 0) ≤ 1 := by
      split <;> omega
    omega

/-- Every place below the end belongs to some length. -/
theorem exists_length_of_lt {j length : ℕ} (h : j < startOf counts length) :
    ∃ i < length, startOf counts i ≤ j ∧ j < startOf counts i + counts i := by
  induction length with
  | zero => exact absurd h (Nat.not_lt_zero j)
  | succ length ih =>
    by_cases hlt : j < startOf counts length
    · obtain ⟨i, hi, hplace⟩ := ih hlt
      exact ⟨i, Nat.lt_succ_of_lt hi, hplace⟩
    · exact ⟨length, Nat.lt_succ_self length, Nat.le_of_not_lt hlt, h⟩

theorem codeCount_pos {lengths : ℕ → ℕ} (hi : i < num) (h : lengths i ≠ 0) :
    0 < codeCount lengths num (lengths i) := by
  rw [codeCount, if_neg h, List.countP_pos_iff]
  exact ⟨i, List.mem_range.mpr hi, by simp⟩

/-- A symbol is counted from the next one on. -/
theorem codeCount_lt {lengths : ℕ → ℕ} (hi : i < n) (h : lengths i ≠ 0) :
    codeCount lengths i (lengths i) < codeCount lengths n (lengths i) := by
  have hmono := codeCount_mono lengths (Nat.succ_le_of_lt hi) (lengths i)
  rw [codeCount_succ, if_pos ⟨h, rfl⟩] at hmono
  omega

/-- The place of a symbol among those that are sorted by length, then by symbol. -/
def placeOf (lengths : ℕ → ℕ) (num i : ℕ) : ℕ :=
  startOf (codeCount lengths num) (lengths i) + codeCount lengths i (lengths i)

theorem placeOf_lt {lengths : ℕ → ℕ} (hi : i < num) (h : lengths i ≠ 0) :
    placeOf lengths num i < startOf (codeCount lengths num) (lengths i + 1) := by
  rw [placeOf, startOf]
  exact Nat.add_lt_add_left (codeCount_lt hi h) _

/-- Different symbols have different places. -/
theorem placeOf_ne {lengths : ℕ → ℕ} (hi : i < n) (hn : n < num) (hlength : lengths i ≠ 0)
    (hlength' : lengths n ≠ 0) : placeOf lengths num i ≠ placeOf lengths num n := by
  have hlow := placeOf_lt (Nat.lt_trans hi hn) hlength
  have hhigh := placeOf_lt hn hlength'
  by_cases hsame : lengths i = lengths n
  · have hless := codeCount_lt hi hlength
    rw [placeOf, placeOf, ← hsame]
    omega
  · cases Nat.lt_or_gt_of_ne hsame with
    | inl hlt =>
      have hmono := startOf_mono (codeCount lengths num) (show lengths i + 1 ≤ lengths n from hlt)
      have hbase : startOf (codeCount lengths num) (lengths n) ≤ placeOf lengths num n :=
        Nat.le_add_right _ _
      omega
    | inr hgt =>
      have hmono := startOf_mono (codeCount lengths num) (show lengths n + 1 ≤ lengths i from hgt)
      have hbase : startOf (codeCount lengths num) (lengths i) ≤ placeOf lengths num i :=
        Nat.le_add_right _ _
      omega

/-- There is no code exactly when no symbol has a length. -/
theorem startOf_codeCount_eq_zero {lengths : ℕ → ℕ} (hlt : ∀ i < num, lengths i < 16) :
    startOf (codeCount lengths num) 16 = 0 ↔ ∀ i < num, lengths i = 0 := by
  constructor
  · intro h i hi
    by_contra hne
    have hpos := codeCount_pos hi hne
    have hmono := startOf_mono (codeCount lengths num) (show lengths i + 1 ≤ 16 from hlt i hi)
    rw [startOf] at hmono
    omega
  · intro h
    have hzero : ∀ length, startOf (codeCount lengths num) length = 0 := by
      intro length
      induction length with
      | zero => rfl
      | succ length ih =>
        rw [startOf, ih, Nat.zero_add, codeCount]
        split
        next => rfl
        next hne =>
          rw [List.countP_eq_zero]
          intro i hi
          simpa [h i (List.mem_range.mp hi)] using Ne.symm hne
    exact hzero 16

/-! ## Building a tree -/

/-- The code length of a symbol, in an array of them. -/
def lengthAt (lengths : Cells ℕ) (i : ℕ) : ℕ :=
  match lengths[i]? with
  | some (some length) => length
  | _ => 0

theorem readCell_of_written (h : Written lengths i) :
    readCell lengths i = .ok (lengthAt lengths i) := by
  obtain ⟨value, hvalue⟩ := h
  simp only [readCell, lengthAt, hvalue]

/-- The tree after the codes of the first symbols were counted. -/
structure Counted (lengths : ℕ → ℕ) (num : ℕ) (t : HuffTree) : Prop where
  counts : ∀ l < 16, t.counts[l]? = some (some (codeCount lengths num l))
  size : t.counts.length = 16
  symbols : t.symbols.length = 288
  le_maxSym : ∀ i < num, lengths i ≠ 0 → (i : ℤ) ≤ t.maxSym
  maxSym_eq : (∀ i < num, lengths i = 0) → t.maxSym = -1

theorem countCode_good (h : Counted (lengthAt lengths) i t) (hwritten : Written lengths i)
    (hgood : lengthAt lengths i < 16) :
    ∃ t', countCode lengths t i = .ok t' ∧ Counted (lengthAt lengths) (i + 1) t' := by
  by_cases hzero : lengthAt lengths i = 0
  · refine ⟨t, ?_, ?_, h.size, h.symbols, ?_, ?_⟩
    · simp only [countCode, readCell_of_written hwritten, ok_bind, hzero]
      rfl
    · intro l hl
      rw [h.counts l hl, codeCount_succ, hzero]
      grind
    · intro j hj hne
      cases Nat.lt_succ_iff_lt_or_eq.mp hj with
      | inl hlt => exact h.le_maxSym j hlt hne
      | inr heq => exact absurd (heq ▸ hzero) hne
    · exact fun hall ↦ h.maxSym_eq fun j hj ↦ hall j (Nat.lt_succ_of_lt hj)
  · have hread : readCell t.counts (lengthAt lengths i) =
        .ok (codeCount (lengthAt lengths) i (lengthAt lengths i)) :=
      readCell_eq_ok.mpr (h.counts _ hgood)
    obtain ⟨counts, hwrite⟩ := exists_writeCell
      (codeCount (lengthAt lengths) i (lengthAt lengths i) + 1) (h.size.symm ▸ hgood)
    refine ⟨{ t with counts, maxSym := i }, ?_, ?_, ?_, h.symbols, ?_, ?_⟩
    · simp only [countCode, readCell_of_written hwritten, ok_bind, hread, hwrite, hzero, if_false,
        if_neg (Nat.not_le.mpr hgood)]
      rfl
    · intro l hl
      rw [getElem?_writeCell hwrite, codeCount_succ]
      have hold := h.counts l hl
      grind
    · exact (length_writeCell hwrite).trans h.size
    · intro j hj _
      exact Int.ofNat_le.mpr (Nat.le_of_lt_succ hj)
    · exact fun hall ↦ absurd (hall i (Nat.lt_succ_self i)) hzero

theorem countCode_bad (hwritten : Written lengths i) (hbad : ¬ lengthAt lengths i < 16) :
    ¬ Safe (countCode lengths t i) := by
  simp only [countCode, readCell_of_written hwritten, ok_bind, if_pos (Nat.le_of_not_lt hbad)]
  exact fun h ↦ h .panic rfl trivial

/-- Counting is safe exactly when all code lengths are below 16. -/
theorem countCodes_iff (hwritten : ∀ i < num, Written lengths i) (ht : t.symbols.length = 288) :
    (Safe ((List.range num).foldlM (countCode lengths)
        { t with counts := List.replicate 16 (some 0), maxSym := -1 }) ↔
      ∀ i < num, lengthAt lengths i < 16) ∧
    ((∀ i < num, lengthAt lengths i < 16) →
      ∃ t', (List.range num).foldlM (countCode lengths)
        { t with counts := List.replicate 16 (some 0), maxSym := -1 } = .ok t' ∧
        Counted (lengthAt lengths) num t') := by
  apply safe_range_iff (Counted (lengthAt lengths)) (fun i ↦ lengthAt lengths i < 16)
  · refine ⟨?_, by simp, ht, by simp, by simp⟩
    intro l hl
    rw [List.getElem?_replicate, if_pos hl]
    simp [codeCount]
  · exact fun i hi t hinv hgood ↦ countCode_good hinv (hwritten i hi) hgood
  · exact fun i hi t _ hbad ↦ countCode_bad (hwritten i hi) hbad

/-- The offsets after the first code lengths. -/
structure Offset (counts : ℕ → ℕ) (i : ℕ) (o : Offsets) : Prop where
  available : o.available = availableOf counts i
  numCodes : o.numCodes = startOf counts i
  size : o.offs.length = 16
  offs : ∀ l < i, o.offs[l]? = some (some (startOf counts l))
  le : ∀ l < i, counts l ≤ availableOf counts l

theorem offsetCodes_spec (ht : ∀ l < 16, t.counts[l]? = some (some (counts l))) :
    Safe ((List.range 16).foldlM (offsetCodes t) ⟨1, 0, Cells.make ℕ 16⟩) ∧
      ∀ o, (List.range 16).foldlM (offsetCodes t) ⟨1, 0, Cells.make ℕ 16⟩ = .ok o →
        Offset counts 16 o := by
  apply safe_range (Offset counts)
  · exact ⟨rfl, rfl, by simp [Cells.make], by simp, by simp⟩
  · intro i hi o hinv
    have hread := readCell_eq_ok.mpr (ht i hi)
    obtain ⟨offs, hwrite⟩ := exists_writeCell o.numCodes (hinv.size.symm ▸ hi)
    by_cases hmore : counts i > o.available
    · simp only [offsetCodes, hread, ok_bind, if_pos hmore]
      exact ⟨fun _ hstop ↦ by cases hstop; exact id, nofun⟩
    · simp only [offsetCodes, hread, ok_bind, if_neg hmore, hwrite]
      refine ⟨safe_ok _, ?_⟩
      rintro _ ⟨⟩
      refine ⟨?_, ?_, ?_, ?_, ?_⟩
      · rw [availableOf, hinv.available]
      · rw [startOf, hinv.numCodes]
      · exact (length_writeCell hwrite).trans hinv.size
      · intro l hl
        rw [getElem?_writeCell hwrite, hinv.numCodes]
        have hold := hinv.offs l
        grind
      · intro l hl
        cases Nat.lt_succ_iff_lt_or_eq.mp hl with
        | inl hlt => exact hinv.le l hlt
        | inr heq =>
          rw [heq, ← hinv.available]
          exact Nat.le_of_not_lt hmore

/-- The tables after the first symbols were put in place. -/
structure Placed (lengths : ℕ → ℕ) (num n : ℕ) (state : Cells ℕ × Cells ℕ) : Prop where
  symbols : state.1.length = 288
  size : state.2.length = 16
  offs : ∀ l < 16, state.2[l]? =
    some (some (startOf (codeCount lengths num) l + codeCount lengths n l))
  written : ∀ l < 16, ∀ j, startOf (codeCount lengths num) l ≤ j →
    j < startOf (codeCount lengths num) l + codeCount lengths n l → Written state.1 j
  sorted : ∀ i < n, lengths i ≠ 0 → state.1[placeOf lengths num i]? = some (some i)

theorem placeSymbol_spec {state : Cells ℕ × Cells ℕ} (h : Placed (lengthAt lengths) num n state)
    (hn : n < num) (hnum : num ≤ 288) (hwritten : Written lengths n)
    (hlt : lengthAt lengths n < 16) :
    ∃ state', placeSymbol lengths state n = .ok state' ∧
      Placed (lengthAt lengths) num (n + 1) state' := by
  obtain ⟨symbols, offs⟩ := state
  by_cases hzero : lengthAt lengths n = 0
  · refine ⟨(symbols, offs), ?_, h.symbols, h.size, ?_, ?_, ?_⟩
    · simp only [placeSymbol, readCell_of_written hwritten, ok_bind, hzero, if_true]
      rfl
    · intro l hl
      rw [h.offs l hl, codeCount_succ, hzero]
      grind
    · intro l hl j hj hlt'
      apply h.written l hl j hj
      rw [codeCount_succ, hzero] at hlt'
      grind
    · intro i hi hlength
      cases Nat.lt_succ_iff_lt_or_eq.mp hi with
      | inl hless => exact h.sorted i hless hlength
      | inr heq => exact absurd (heq ▸ hzero) hlength
  · -- The place is below the end of the symbols of this length, hence inside of the table.
    have hone := codeCount_mono (lengthAt lengths) (Nat.succ_le_of_lt hn) (lengthAt lengths n)
    rw [codeCount_succ, if_pos ⟨hzero, rfl⟩] at hone
    have hend := startOf_codeCount_le (lengthAt lengths) num (lengthAt lengths n + 1)
    rw [startOf] at hend
    have hread := readCell_eq_ok.mpr (h.offs _ hlt)
    simp only at hread
    obtain ⟨symbols', hsymbols⟩ := exists_writeCell n (show
      startOf (codeCount (lengthAt lengths) num) (lengthAt lengths n) +
        codeCount (lengthAt lengths) n (lengthAt lengths n) < symbols.length by
          rw [h.symbols]; omega)
    obtain ⟨offs', hoffs⟩ := exists_writeCell
      (startOf (codeCount (lengthAt lengths) num) (lengthAt lengths n) +
        codeCount (lengthAt lengths) n (lengthAt lengths n) + 1) (h.size.symm ▸ hlt)
    refine ⟨(symbols', offs'), ?_, ?_, ?_, ?_, ?_, ?_⟩
    · simp only [placeSymbol, readCell_of_written hwritten, ok_bind, hzero, if_false, hread,
        hsymbols, hoffs]
      rfl
    · exact (length_writeCell hsymbols).trans h.symbols
    · exact (length_writeCell hoffs).trans h.size
    · intro l hl
      have hold := h.offs l hl
      simp only at hold ⊢
      rw [getElem?_writeCell hoffs, codeCount_succ]
      grind
    · intro l hl j hj hlt'
      rw [codeCount_succ] at hlt'
      by_cases hnew : l = lengthAt lengths n ∧
          j = startOf (codeCount (lengthAt lengths) num) l + codeCount (lengthAt lengths) n l
      · obtain ⟨rfl, rfl⟩ := hnew
        exact ⟨n, by rw [getElem?_writeCell hsymbols, if_pos rfl]⟩
      · apply Written.writeCell (h.written l hl j hj _) hsymbols
        grind
    · intro i hi hlength
      cases Nat.lt_succ_iff_lt_or_eq.mp hi with
      | inl hless =>
        have hne := placeOf_ne hless hn hlength hzero
        rw [getElem?_writeCell hsymbols]
        exact (if_neg hne).trans (h.sorted i hless hlength)
      | inr heq =>
        rw [heq, getElem?_writeCell hsymbols]
        exact if_pos rfl

/-- A tree without codes. -/
def HuffTree.Empty (t : HuffTree) : Prop := ∀ l < 16, t.counts[l]? = some (some 0)

/-- A tree whose codes are all used, and whose symbols are in place. -/
def HuffTree.Full (t : HuffTree) : Prop :=
  ∃ counts : ℕ → ℕ, (∀ l < 16, t.counts[l]? = some (some (counts l))) ∧ counts 0 = 0 ∧
    Complete counts ∧ startOf counts 16 ≤ 288 ∧ ∀ j < startOf counts 16, Written t.symbols j

/-- A tree with all that the codes of the given lengths need: no more codes than there are, the
counts up to the length of every code, where the last count may be too large, and the symbols in
their places. -/
structure HasCodes (lengths : ℕ → ℕ) (num : ℕ) (t : HuffTree) : Prop where
  fits : ∀ i < num, lengths i ≠ 0 → ∀ l ≤ lengths i,
    codeCount lengths num l ≤ availableOf (codeCount lengths num) l
  counts : ∀ i < num, lengths i ≠ 0 → ∀ l ≤ lengths i, ∃ count,
    t.counts[l]? = some (some count) ∧ codeCount lengths num l ≤ count ∧
      (l < lengths i → count = codeCount lengths num l)
  sorted : ∀ i < num, lengths i ≠ 0 → t.symbols[placeOf lengths num i]? = some (some i)

/-- What `build_huff_tree` leaves. -/
structure Built (lengths : ℕ → ℕ) (num : ℕ) (t : HuffTree) : Prop where
  symbols : t.symbols.length = 288
  le_maxSym : ∀ i < num, lengths i ≠ 0 → (i : ℤ) ≤ t.maxSym
  empty : t.maxSym = -1 → t.Empty
  full : t.maxSym ≠ -1 → t.Full
  codes : HasCodes lengths num t

/-- With one code, of length 1, there are no others. -/
theorem counts_eq_of_single (hzero : counts 0 = 0) (hone : counts 1 = 1)
    (hnum : startOf counts 16 = 1) : ∀ l, 2 ≤ l → l < 16 → counts l = 0 := by
  intro l hl hlt
  have hstart : startOf counts 2 = 1 := by simp [startOf, hzero, hone]
  have hlow := startOf_mono counts hl
  have hhigh := startOf_mono counts (Nat.succ_le_of_lt hlt)
  rw [startOf] at hhigh
  omega

/-- Two codes of length 1 are complete. -/
theorem complete_pair (hzero : counts 0 = 0) (hone : counts 1 = 2)
    (hrest : ∀ l, 2 ≤ l → l < 16 → counts l = 0) : Complete counts ∧ startOf counts 16 = 2 := by
  have havailable : ∀ l, availableOf counts (l + 2) = 0 := by
    intro l
    induction l with
    | zero => simp [availableOf, hzero, hone]
    | succ l ih => rw [availableOf, ih, Nat.zero_sub]
  have hstart : ∀ l, l + 2 ≤ 16 → startOf counts (l + 2) = 2 := by
    intro l hl
    induction l with
    | zero => simp [startOf, hzero, hone]
    | succ l ih =>
      rw [startOf, ih (by omega), hrest (l + 2) (by omega) (by omega)]
  refine ⟨⟨?_, havailable 14⟩, hstart 14 (by omega)⟩
  intro l hl
  match l with
  | 0 => simp [hzero]
  | 1 => simp [hone, availableOf, hzero]
  | l + 2 => rw [hrest (l + 2) (by omega) hl]; exact Nat.zero_le _

/-- All symbols find their place. -/
theorem placeSymbols_spec {symbols offs : Cells ℕ} (hnum : num ≤ 288)
    (hwritten : ∀ i < num, Written lengths i) (hlt : ∀ i < num, lengthAt lengths i < 16)
    (hsymbols : symbols.length = 288) (hsize : offs.length = 16)
    (hoffs : ∀ l < 16, offs[l]? = some (some (startOf (codeCount (lengthAt lengths) num) l))) :
    ∃ state, (List.range num).foldlM (placeSymbol lengths) (symbols, offs) = .ok state ∧
      Placed (lengthAt lengths) num num state := by
  have hinit : Placed (lengthAt lengths) num 0 (symbols, offs) := by
    refine ⟨hsymbols, hsize, ?_, ?_, fun i hi ↦ absurd hi (Nat.not_lt_zero i)⟩
    · intro l hl
      rw [hoffs l hl]
      simp [codeCount]
    · intro l _ j hj hlt'
      simp only [codeCount, List.range_zero, List.countP_nil, ite_self] at hlt'
      omega
  apply (safe_range_iff (Placed (lengthAt lengths) num) (fun _ ↦ True) hinit _ _).2
  · exact fun _ _ ↦ trivial
  · exact fun i hi state hinv _ ↦ placeSymbol_spec hinv hi hnum (hwritten i hi) (hlt i hi)
  · exact fun _ _ _ _ h ↦ absurd trivial h

/-- The symbols below the number of codes are written. -/
theorem Placed.written_of_lt {lengths : ℕ → ℕ} {state : Cells ℕ × Cells ℕ}
    (h : Placed lengths num num state) (hj : j < startOf (codeCount lengths num) 16) :
    Written state.1 j := by
  obtain ⟨l, hl, hlow, hhigh⟩ := exists_length_of_lt hj
  exact h.written l hl j hlow hhigh

/-- A single code is completed to a pair. -/
theorem built_single {counted : HuffTree} (hcounted : Counted (lengthAt lengths) num counted)
    {counts symbols symbols' : Cells ℕ} (hlt : ∀ i < num, lengthAt lengths i < 16)
    (hnum : startOf (codeCount (lengthAt lengths) num) 16 = 1)
    (hone : codeCount (lengthAt lengths) num 1 = 1) (hsymbols : symbols.length = 288)
    (hwritten : Written symbols 0) (hsorted : ∀ i < num, lengthAt lengths i ≠ 0 →
      symbols[placeOf (lengthAt lengths) num i]? = some (some i))
    (hcounts : writeCell counted.counts 1 2 = .ok counts) {symbol : ℕ}
    (hwrite : writeCell symbols 1 symbol = .ok symbols') :
    Built (lengthAt lengths) num { counted with counts, symbols := symbols' } := by
  have hne : counted.maxSym ≠ -1 := by
    intro hmax
    have hzero := (startOf_codeCount_eq_zero hlt).mpr (fun i hi ↦ by
      by_contra hlength
      have hle := hcounted.le_maxSym i hi hlength
      omega)
    omega
  have hrest := counts_eq_of_single rfl hone hnum
  have hsingle : ∀ i < num, lengthAt lengths i ≠ 0 → lengthAt lengths i = 1 := by
    intro i hi hlength
    by_contra hother
    have hzero := hrest (lengthAt lengths i) (by omega) (hlt i hi)
    have hpos := codeCount_pos hi hlength
    omega
  have hpair : ∀ l, 2 ≤ l → l < 16 →
      (fun l ↦ if l = 1 then 2 else codeCount (lengthAt lengths) num l) l = 0 := by
    intro l hl hlt
    simp only [hrest l hl hlt, if_neg (show l ≠ 1 by omega)]
  obtain ⟨hcomplete, htotal⟩ := complete_pair rfl rfl hpair
  refine ⟨(length_writeCell hwrite).trans hsymbols, hcounted.le_maxSym,
    fun h ↦ absurd h hne, fun _ ↦ ⟨_, ?_, rfl, hcomplete, by omega, ?_⟩, ?_, ?_, ?_⟩
  · intro l hl
    rw [getElem?_writeCell hcounts]
    split
    next => rfl
    next => exact hcounted.counts l hl
  · intro j hj
    rw [htotal] at hj
    match j with
    | 0 => exact hwritten.writeCell hwrite
    | 1 => exact ⟨symbol, by rw [getElem?_writeCell hwrite, if_pos rfl]⟩
  · intro i hi hlength l hl
    rw [hsingle i hi hlength] at hl
    match l with
    | 0 => exact Nat.zero_le _
    | 1 => rw [hone]; exact Nat.le_succ 1
  · intro i hi hlength l hl
    have hlength' := hsingle i hi hlength
    rw [getElem?_writeCell hcounts]
    by_cases hl' : l = 1
    · refine ⟨2, if_pos hl', ?_, fun hless ↦ absurd hless (by omega)⟩
      rw [hl', hone]
      exact Nat.le_succ 1
    · exact ⟨_, (if_neg hl').trans (hcounted.counts l (by omega)), Nat.le_refl _, fun _ ↦ rfl⟩
  · intro i hi hlength
    have hplace := placeOf_lt hi hlength
    have hmono := startOf_mono (codeCount (lengthAt lengths) num)
      (show lengthAt lengths i + 1 ≤ 16 from hlt i hi)
    rw [getElem?_writeCell hwrite]
    exact (if_neg (by omega)).trans (hsorted i hi hlength)

/-- Without a single code, the counts are as they were. -/
theorem built_counted {counted : HuffTree} (hcounted : Counted (lengthAt lengths) num counted)
    (hnum : num ≤ 288) (hlt : ∀ i < num, lengthAt lengths i < 16) (hsymbols : symbols.length = 288)
    (hwritten : ∀ j < startOf (codeCount (lengthAt lengths) num) 16, Written symbols j)
    (hsorted : ∀ i < num, lengthAt lengths i ≠ 0 →
      symbols[placeOf (lengthAt lengths) num i]? = some (some i))
    (hcomplete : startOf (codeCount (lengthAt lengths) num) 16 ≠ 0 →
      Complete (codeCount (lengthAt lengths) num)) :
    Built (lengthAt lengths) num { counted with symbols } := by
  refine ⟨hsymbols, hcounted.le_maxSym, ?_, ?_, ?_, ?_, hsorted⟩
  · intro hmax l hl
    have hall : ∀ i < num, lengthAt lengths i = 0 := by
      intro i hi
      by_contra hlength
      have hle := hcounted.le_maxSym i hi hlength
      simp only at hmax
      omega
    have hstart := (startOf_codeCount_eq_zero hlt).mpr hall
    have hmono := startOf_mono (codeCount (lengthAt lengths) num) (Nat.succ_le_of_lt hl)
    rw [startOf] at hmono
    have hzero : codeCount (lengthAt lengths) num l = 0 := by omega
    rw [hcounted.counts l hl, hzero]
  · intro hmax
    refine ⟨_, hcounted.counts, rfl, hcomplete ?_, ?_, hwritten⟩
    · intro hzero
      exact hmax (hcounted.maxSym_eq ((startOf_codeCount_eq_zero hlt).mp hzero))
    · exact Nat.le_trans (startOf_codeCount_le _ _ _) hnum
  · intro i hi hlength l hl
    have hbound := hlt i hi
    apply (hcomplete _).1 l (by omega)
    exact fun hzero ↦ hlength ((startOf_codeCount_eq_zero hlt).mp hzero i hi)
  · intro i hi hlength l hl
    have hbound := hlt i hi
    exact ⟨_, hcounted.counts l (by omega), Nat.le_refl _, fun _ ↦ rfl⟩

/-- `build_huff_tree` is safe exactly when all code lengths are below 16. -/
theorem buildHuffTree_spec (hnum : num ≤ 288) (hwritten : ∀ i < num, Written lengths i)
    (ht : t.symbols.length = 288) :
    (Safe (buildHuffTree t lengths num) ↔ ∀ i < num, lengthAt lengths i < 16) ∧
      ∀ t', buildHuffTree t lengths num = .ok t' → Built (lengthAt lengths) num t' := by
  obtain ⟨hiff, hcount⟩ := countCodes_iff hwritten ht
  by_cases hall : ∀ i < num, lengthAt lengths i < 16
  · obtain ⟨counted, hcounted, hinv⟩ := hcount hall
    obtain ⟨hoffsets, hoffset⟩ := offsetCodes_spec hinv.counts
    have hones := readCell_eq_ok.mpr (hinv.counts 1 (by decide))
    simp only [buildHuffTree, if_neg (Nat.not_lt.mpr hnum), hcounted, ok_bind]
    cases hfold : (List.range 16).foldlM (offsetCodes counted) ⟨1, 0, Cells.make ℕ 16⟩ with
    | error stop =>
      rw [hfold] at hoffsets
      exact ⟨⟨fun _ ↦ hall, fun _ _ hstop ↦ by cases hstop; exact hoffsets stop rfl⟩, nofun⟩
    | ok o =>
      have hoff := hoffset o hfold
      obtain ⟨state, hplace, hplaced⟩ := placeSymbols_spec hnum hwritten hall hinv.symbols hoff.size
        hoff.offs
      simp only [ok_bind, hones, hplace]
      by_cases hcheck : 1 < o.numCodes ∧ 0 < o.available ∨
          o.numCodes = 1 ∧ codeCount (lengthAt lengths) num 1 ≠ 1
      · simp only [if_pos hcheck]
        exact ⟨⟨fun _ ↦ hall, fun _ _ hstop ↦ by cases hstop; exact id⟩, nofun⟩
      · simp only [if_neg hcheck]
        by_cases hsingle : o.numCodes = 1
        · obtain ⟨counts, hcounts⟩ := exists_writeCell 2 (hinv.size.symm ▸ (by decide : 1 < 16))
          obtain ⟨symbols, hsymbols⟩ := exists_writeCell (counted.maxSym + 1).toNat
            (hplaced.symbols.symm ▸ (by decide : 1 < 288))
          simp only [if_pos hsingle, hcounts, hsymbols, ok_bind]
          refine ⟨⟨fun _ ↦ hall, fun _ ↦ safe_pure _⟩, ?_⟩
          rintro _ ⟨⟩
          rw [hoff.numCodes] at hsingle hcheck
          have hone : codeCount (lengthAt lengths) num 1 = 1 := by
            by_contra hne
            exact hcheck (.inr ⟨hsingle, hne⟩)
          exact built_single hinv hall hsingle hone hplaced.symbols
            (hplaced.written_of_lt (by omega)) hplaced.sorted hcounts hsymbols
        · simp only [if_neg hsingle]
          refine ⟨⟨fun _ ↦ hall, fun _ ↦ safe_pure _⟩, ?_⟩
          rintro _ ⟨⟩
          rw [hoff.numCodes, hoff.available] at hcheck
          rw [hoff.numCodes] at hsingle
          apply built_counted hinv hnum hall hplaced.symbols (fun j hj ↦ hplaced.written_of_lt hj)
            hplaced.sorted
          intro hne
          exact ⟨hoff.le, by omega⟩
  · have hunsafe : ¬ Safe (buildHuffTree t lengths num) := by
      simp only [buildHuffTree, if_neg (Nat.not_lt.mpr hnum)]
      intro hsafe
      exact hall (hiff.mp (safe_bind.mp hsafe).1)
    refine ⟨⟨fun h ↦ absurd h hunsafe, fun h ↦ absurd h hall⟩, fun t' ht' ↦ ?_⟩
    rw [ht'] at hunsafe
    exact absurd (safe_ok t') hunsafe

end Brutal.Codec
