import Brutal.Codec.HuffTables
import Brutal.Io.Bits
import Mathlib.Algebra.BigOperators.Intervals
import Mathlib.Algebra.BigOperators.Ring.Finset
import Mathlib.Algebra.Order.Field.Rat
import Mathlib.Algebra.Order.BigOperators.Ring.Finset
import Mathlib.Tactic.FieldSimp
import Mathlib.Tactic.Linarith

/-!
# Canonical codes

The codes that code lengths stand for: ordered by length, then by symbol.  The decoder, which only
has the counts and the sorted symbols, gives a symbol back for the bits of its code.  The tables are
accepted for the lengths that satisfy Kraft's equality.
-/

namespace Brutal.Codec

open Io Lib

/-- The first code of a length, which follows the last one of the length before with a zero
appended. -/
def firstCode (counts : ℕ → ℕ) : ℕ → ℕ
  | 0 => 0
  | l + 1 => 2 * (firstCode counts l + counts l)

/-- The code of a symbol: they are numbered through for every length. -/
def canonicalCode (lengths : ℕ → ℕ) (num i : ℕ) : ℕ :=
  firstCode (codeCount lengths num) (lengths i) + codeCount lengths i (lengths i)

/-- The bits of a code, from the highest one on. -/
def canonicalBits (lengths : ℕ → ℕ) (num i : ℕ) : List Bool :=
  (natBits (lengths i) (canonicalCode lengths num i)).reverse

@[simp] theorem length_canonicalBits (lengths : ℕ → ℕ) (num i : ℕ) :
    (canonicalBits lengths num i).length = lengths i := by
  rw [canonicalBits, List.length_reverse, length_natBits]

/-- The codes before a length and those that are available for it are all. -/
theorem firstCode_add_available {counts : ℕ → ℕ} {l : ℕ}
    (h : ∀ i < l, counts i ≤ availableOf counts i) :
    firstCode counts l + availableOf counts l = 2 ^ l := by
  induction l with
  | zero => rfl
  | succ l ih =>
    have hprev := ih fun i hi ↦ h i (Nat.lt_succ_of_lt hi)
    have hle := h l (Nat.lt_succ_self l)
    rw [firstCode, availableOf, Nat.pow_succ]
    omega

/-- The first bits of a later code are past all codes of their length. -/
theorem firstCode_add_le (counts : ℕ → ℕ) {code l : ℕ} (hcode : firstCode counts l ≤ code)
    {k m : ℕ} (hl : k + m + 1 = l) : firstCode counts k + counts k ≤ code / 2 ^ (m + 1) := by
  induction m generalizing k with
  | zero =>
    rw [← hl, Nat.add_zero, firstCode] at hcode
    rw [Nat.zero_add, Nat.pow_one]
    omega
  | succ m ih =>
    have hnext := ih (k := k + 1) (by omega)
    rw [firstCode] at hnext
    rw [Nat.pow_succ, ← Nat.div_div_eq_div_mul]
    omega

theorem HasCodes.code_lt {lengths : ℕ → ℕ} {num : ℕ} {t : HuffTree} (h : HasCodes lengths num t)
    {i : ℕ} (hi : i < num) (hlength : lengths i ≠ 0) :
    canonicalCode lengths num i < 2 ^ lengths i := by
  have hfits := h.fits i hi hlength
  have hall := firstCode_add_available fun l hl ↦ hfits l (Nat.le_of_lt hl)
  have hown := hfits (lengths i) (Nat.le_refl _)
  have hless := codeCount_lt hi hlength
  rw [canonicalCode]
  omega

/-- The highest of some bits comes first. -/
theorem natBits_reverse (m value : ℕ) :
    (natBits (m + 1) value).reverse = (value / 2 ^ m % 2 == 1) :: (natBits m value).reverse := by
  rw [natBits_add, List.reverse_append, natBits, natBits, List.reverse_singleton,
    List.singleton_append]

variable {lengths : ℕ → ℕ} {num : ℕ} {t : HuffTree} {data : List UInt8} {rest : List Bool}

/-- The decoder has read the first `k` bits of a code, and subtracted the codes that are not
longer; it stops with the last bit. -/
theorem HasCodes.loop (h : HasCodes lengths num t) {i : ℕ} (hi : i < num)
    (hlength : lengths i ≠ 0) (hlt : lengths i < 16) {m k : ℕ} (hm : k + m + 1 = lengths i)
    {turns : ℕ} (hturns : turns + k = 16) {reader : IoRBits IoMem}
    (hreader : Stands data
      ((natBits (m + 1) (canonicalCode lengths num i)).reverse ++ rest) reader) :
    ∃ reader', huffDecoderLoop t turns reader (startOf (codeCount lengths num) (k + 1))
        (canonicalCode lengths num i / 2 ^ (m + 1) -
          (firstCode (codeCount lengths num) k + codeCount lengths num k)) (k + 1) =
        .ok (placeOf lengths num i, reader') ∧
      Stands data rest reader' ∧ (reader.bitcount < 8 → reader'.bitcount < 8) := by
  have hcode : firstCode (codeCount lengths num) (lengths i) ≤ canonicalCode lengths num i :=
    Nat.le_add_right _ _
  obtain ⟨turns, rfl⟩ : ∃ n, turns = n + 1 := ⟨15 - k, by omega⟩
  induction m generalizing k turns reader with
  | zero =>
    rw [natBits_reverse, List.cons_append, ← List.singleton_append] at hreader
    obtain ⟨reader', hpop, hstands, hfew⟩ := hreader.ensureThenPop (by simp)
    have hbit : natOfBits [canonicalCode lengths num i / 2 ^ 0 % 2 == 1] =
        canonicalCode lengths num i % 2 := by
      have hvalue := natOfBits_natBits 1 (canonicalCode lengths num i)
      simpa [natBits] using hvalue
    rw [hbit, List.length_singleton] at hpop
    have hprefix := firstCode_add_le (codeCount lengths num) hcode (k := k) (m := 0) hm
    obtain ⟨count, hcount, hle, -⟩ := h.counts i hi hlength (k + 1) (by omega)
    have hlen : k + 1 = lengths i := by omega
    have hfirst : firstCode (codeCount lengths num) (lengths i) =
        2 * (firstCode (codeCount lengths num) k + codeCount lengths num k) := by
      rw [← hlen, firstCode]
    have hrank : canonicalCode lengths num i =
        firstCode (codeCount lengths num) (lengths i) + codeCount lengths i (lengths i) := rfl
    have hoffs : 2 * (canonicalCode lengths num i / 2 ^ (0 + 1) -
        (firstCode (codeCount lengths num) k + codeCount lengths num k)) +
          canonicalCode lengths num i % 2 = codeCount lengths i (lengths i) := by
      rw [Nat.zero_add, Nat.pow_one] at hprefix ⊢
      omega
    have hless := codeCount_lt hi hlength
    refine ⟨reader', ?_, hstands, hfew⟩
    simp only [huffDecoderLoop, hpop, ok_bind, hoffs, if_neg (show ¬ 15 < k + 1 by omega),
      readCell_eq_ok.mpr hcount]
    rw [if_pos (by rw [hlen] at hle; omega), hlen]
    rfl
  | succ m ih =>
    rw [natBits_reverse, List.cons_append, ← List.singleton_append] at hreader
    obtain ⟨reader', hpop, hstands, hfew⟩ := hreader.ensureThenPop (by simp)
    have hbit : natOfBits [canonicalCode lengths num i / 2 ^ (m + 1) % 2 == 1] =
        canonicalCode lengths num i / 2 ^ (m + 1) % 2 := by
      have hvalue := natOfBits_natBits 1 (canonicalCode lengths num i / 2 ^ (m + 1))
      simpa [natBits] using hvalue
    rw [hbit, List.length_singleton] at hpop
    have hprefix := firstCode_add_le (codeCount lengths num) hcode (k := k) (m := m + 1) hm
    have hnext := firstCode_add_le (codeCount lengths num) hcode (k := k + 1) (m := m) (by omega)
    obtain ⟨count, hcount, -, hsame⟩ := h.counts i hi hlength (k + 1) (by omega)
    rw [hsame (by omega)] at hcount
    have hfirst : firstCode (codeCount lengths num) (k + 1) =
        2 * (firstCode (codeCount lengths num) k + codeCount lengths num k) := rfl
    have hoffs : 2 * (canonicalCode lengths num i / 2 ^ (m + 1 + 1) -
        (firstCode (codeCount lengths num) k + codeCount lengths num k)) +
          canonicalCode lengths num i / 2 ^ (m + 1) % 2 =
        canonicalCode lengths num i / 2 ^ (m + 1) - firstCode (codeCount lengths num) (k + 1) := by
      rw [Nat.pow_succ _ (m + 1), ← Nat.div_div_eq_div_mul] at hprefix ⊢
      omega
    obtain ⟨turns, rfl⟩ : ∃ n, turns = n + 1 := ⟨14 - k, by omega⟩
    obtain ⟨final, hloop, hfinal, hfewer⟩ := ih (k := k + 1) (by omega) hstands turns (by omega)
    refine ⟨final, ?_, hfinal, fun hcount ↦ hfewer (hfew hcount)⟩
    rw [huffDecoderLoop]
    simp only [hpop, ok_bind, hoffs, if_neg (show ¬ 15 < k + 1 by omega),
      readCell_eq_ok.mpr hcount]
    rw [if_neg (by omega), Nat.sub_sub]
    exact hloop

/-- The decoder gives a symbol for the bits of its code, and has used up no others. -/
theorem HasCodes.next (h : HasCodes lengths num t) (hnum : num ≤ 288) {i : ℕ} (hi : i < num)
    (hlength : lengths i ≠ 0) (hlt : lengths i < 16) {reader : IoRBits IoMem}
    (hreader : Stands data (canonicalBits lengths num i ++ rest) reader) :
    ∃ reader', huffDecoderNext t reader = .ok (i, reader') ∧ Stands data rest reader' ∧
      (reader.bitcount < 8 → reader'.bitcount < 8) := by
  obtain ⟨m, hm⟩ : ∃ m, 0 + m + 1 = lengths i := ⟨lengths i - 1, by omega⟩
  have hlen : m + 1 = lengths i := by omega
  have hzero : canonicalCode lengths num i / 2 ^ (m + 1) = 0 := by
    rw [hlen]
    exact Nat.div_eq_of_lt (h.code_lt hi hlength)
  rw [canonicalBits, ← hlen] at hreader
  obtain ⟨reader', hloop, hstands, hfew⟩ := h.loop hi hlength hlt hm (show 16 + 0 = 16 from rfl)
    hreader
  have hstart : startOf (codeCount lengths num) (0 + 1) = 0 := rfl
  rw [hzero, Nat.zero_sub, hstart] at hloop
  have hplace : placeOf lengths num i < 288 :=
    calc placeOf lengths num i < startOf (codeCount lengths num) (lengths i + 1) :=
          placeOf_lt hi hlength
      _ ≤ num := startOf_codeCount_le _ _ _
      _ ≤ 288 := hnum
  refine ⟨reader', ?_, hstands, hfew⟩
  simp only [huffDecoderNext, hloop, ok_bind, if_neg (Nat.not_le_of_lt hplace),
    readCell_eq_ok.mpr (h.sorted i hi hlength)]
  rfl

/-- The number of codes. -/
def codeTotal (lengths : ℕ → ℕ) (num : ℕ) : ℕ := (List.range num).countP fun i ↦ lengths i ≠ 0

theorem codeTotal_eq {lengths : ℕ → ℕ} {num : ℕ} (hlt : ∀ i < num, lengths i < 16) :
    startOf (codeCount lengths num) 16 = codeTotal lengths num := by
  induction num with
  | zero =>
    have hzero := (startOf_codeCount_eq_zero hlt).mpr fun i hi ↦ absurd hi (Nat.not_lt_zero i)
    rw [hzero]
    rfl
  | succ num ih =>
    have hstep : ∀ l, startOf (codeCount lengths (num + 1)) l = startOf (codeCount lengths num) l +
        if lengths num ≠ 0 ∧ lengths num < l then 1 else 0 := by
      intro l
      induction l with
      | zero => simp [startOf]
      | succ l ihl =>
        rw [startOf, startOf, ihl, codeCount_succ]
        grind
    rw [hstep, ih fun i hi ↦ hlt i (Nat.lt_succ_of_lt hi), codeTotal, codeTotal, List.range_succ,
      List.countP_append]
    have hlast := hlt num (Nat.lt_succ_self num)
    by_cases hzero : lengths num = 0
    · simp [hzero]
    · simp [hzero, hlast]

/-- Kraft's equality. -/
def Kraft (lengths : ℕ → ℕ) (num : ℕ) : Prop :=
  ∑ i ∈ Finset.range num with lengths i ≠ 0, (1 / 2 : ℚ) ^ lengths i = 1

/-- The sum over the symbols, ordered by length. -/
theorem kraft_sum_eq {lengths : ℕ → ℕ} {num : ℕ} (hlt : ∀ i < num, lengths i < 16) :
    ∑ i ∈ Finset.range num with lengths i ≠ 0, (1 / 2 : ℚ) ^ lengths i =
      ∑ l ∈ Finset.range 16, codeCount lengths num l * (1 / 2 : ℚ) ^ l := by
  rw [Finset.sum_filter]
  induction num with
  | zero => simp [codeCount]
  | succ num ih =>
    have hlast := hlt num (Nat.lt_succ_self num)
    have hone : ∑ l ∈ Finset.range 16,
        (if l ≠ 0 ∧ lengths num = l then (1 / 2 : ℚ) ^ l else 0) =
          if lengths num ≠ 0 then (1 / 2 : ℚ) ^ lengths num else 0 := by
      rw [Finset.sum_eq_single (lengths num)]
      · simp
      · intro l _ hne
        rw [if_neg fun h ↦ hne h.2.symm]
      · exact fun h ↦ absurd (Finset.mem_range.mpr hlast) h
    rw [Finset.sum_range_succ, ih fun i hi ↦ hlt i (Nat.lt_succ_of_lt hi), ← hone,
      ← Finset.sum_add_distrib]
    apply Finset.sum_congr rfl
    intro l _
    rw [codeCount_succ]
    split
    next => push_cast; ring
    next => push_cast; ring

/-- What is available for a length, as the part of all codes that the shorter ones leave. -/
theorem available_eq {counts : ℕ → ℕ} {l : ℕ} (h : ∀ i < l, counts i ≤ availableOf counts i) :
    (availableOf counts l : ℚ) =
      2 ^ l * (1 - ∑ i ∈ Finset.range l, counts i * (1 / 2 : ℚ) ^ i) := by
  induction l with
  | zero => simp [availableOf]
  | succ l ih =>
    have hle := h l (Nat.lt_succ_self l)
    have hpow : (2 : ℚ) ^ l * (1 / 2) ^ l = 1 := by
      rw [← mul_pow, mul_one_div_cancel two_ne_zero, one_pow]
    rw [availableOf, Nat.cast_mul, Nat.cast_sub hle, ih fun i hi ↦ h i (Nat.lt_succ_of_lt hi),
      Finset.sum_range_succ]
    push_cast
    calc (2 : ℚ) * (2 ^ l * (1 - ∑ i ∈ Finset.range l, counts i * (1 / 2 : ℚ) ^ i) - counts l)
        = 2 * (2 ^ l * (1 - ∑ i ∈ Finset.range l, counts i * (1 / 2 : ℚ) ^ i) -
            counts l * (2 ^ l * (1 / 2) ^ l)) := by rw [hpow, mul_one]
      _ = 2 ^ (l + 1) * (1 - (∑ i ∈ Finset.range l, counts i * (1 / 2 : ℚ) ^ i +
            counts l * (1 / 2) ^ l)) := by ring

/-- The counts are complete if and only if they sum up to one. -/
theorem complete_iff (counts : ℕ → ℕ) :
    Complete counts ↔ ∑ l ∈ Finset.range 16, counts l * (1 / 2 : ℚ) ^ l = 1 := by
  constructor
  · rintro ⟨hle, hend⟩
    have havailable := available_eq hle
    rw [hend, Nat.cast_zero] at havailable
    have hzero := (mul_eq_zero.mp havailable.symm).resolve_left (by positivity)
    linarith
  · intro hsum
    have hle : ∀ l < 16, counts l ≤ availableOf counts l := by
      intro l
      induction l using Nat.strongRecOn with
      | ind l ih =>
        intro hl
        have havailable := available_eq fun i hi ↦ ih i hi (Nat.lt_trans hi hl)
        have hpart : ∑ i ∈ Finset.range (l + 1), counts i * (1 / 2 : ℚ) ^ i ≤ 1 :=
          calc ∑ i ∈ Finset.range (l + 1), counts i * (1 / 2 : ℚ) ^ i
              ≤ ∑ i ∈ Finset.range 16, counts i * (1 / 2 : ℚ) ^ i := by
                apply Finset.sum_le_sum_of_subset_of_nonneg (Finset.range_mono hl)
                intro i _ _
                positivity
            _ = 1 := hsum
        rw [Finset.sum_range_succ] at hpart
        have hpow : (2 : ℚ) ^ l * (1 / 2) ^ l = 1 := by
          rw [← mul_pow, mul_one_div_cancel two_ne_zero, one_pow]
        have hscaled : (2 : ℚ) ^ l * (counts l * (1 / 2 : ℚ) ^ l) ≤
            2 ^ l * (1 - ∑ i ∈ Finset.range l, counts i * (1 / 2 : ℚ) ^ i) :=
          mul_le_mul_of_nonneg_left (by linarith) (by positivity)
        rw [← havailable, mul_left_comm, hpow, mul_one] at hscaled
        exact_mod_cast hscaled
    refine ⟨hle, ?_⟩
    have havailable := available_eq hle
    rw [hsum, sub_self, mul_zero] at havailable
    exact_mod_cast havailable

/-- The offsets are found as long as there are enough codes of every length. -/
theorem offsetCodes_ok {t : HuffTree} {counts : ℕ → ℕ}
    (ht : ∀ l < 16, t.counts[l]? = some (some (counts l)))
    (hle : ∀ l < 16, counts l ≤ availableOf counts l) :
    ∃ o, (List.range 16).foldlM (offsetCodes t) ⟨1, 0, Cells.make ℕ 16⟩ = .ok o ∧
      Offset counts 16 o := by
  have hspec := (offsetCodes_spec ht).2
  have hfold : ∀ n ≤ 16, ∃ o,
      (List.range n).foldlM (offsetCodes t) ⟨1, 0, Cells.make ℕ 16⟩ = .ok o ∧
        o.available = availableOf counts n ∧ o.offs.length = 16 := by
    intro n
    induction n with
    | zero => exact fun _ ↦ ⟨_, rfl, rfl, by simp [Cells.make]⟩
    | succ n ih =>
      intro hn
      obtain ⟨o, ho, havailable, hsize⟩ := ih (Nat.le_of_succ_le hn)
      have hread := readCell_eq_ok.mpr (ht n hn)
      obtain ⟨offs, hwrite⟩ := exists_writeCell o.numCodes (hsize.symm ▸ (show n < 16 from hn))
      have hcodes := hle n hn
      refine ⟨⟨2 * (o.available - counts n), o.numCodes + counts n, offs⟩, ?_, ?_,
        (length_writeCell hwrite).trans hsize⟩
      · rw [List.range_succ, List.foldlM_append, ho, ok_bind, List.foldlM_cons]
        simp only [offsetCodes, hread, ok_bind, if_neg (show ¬ counts n > o.available by omega),
          hwrite]
        rfl
      · rw [availableOf, havailable]
  obtain ⟨o, ho, -⟩ := hfold 16 (Nat.le_refl 16)
  exact ⟨o, ho, hspec o ho⟩

/-- The lengths that `build_huff_tree` accepts. -/
theorem buildHuffTree_ok_iff {t : HuffTree} {lengths : Cells ℕ} {num : ℕ} (hnum : num ≤ 288)
    (hwritten : ∀ i < num, Written lengths i) (hlt : ∀ i < num, lengthAt lengths i < 16)
    (ht : t.symbols.length = 288) :
    (∃ t', buildHuffTree t lengths num = .ok t') ↔
      (∀ l < 16, codeCount (lengthAt lengths) num l ≤
        availableOf (codeCount (lengthAt lengths) num) l) ∧
      (1 < codeTotal (lengthAt lengths) num →
        availableOf (codeCount (lengthAt lengths) num) 16 = 0) ∧
      (codeTotal (lengthAt lengths) num = 1 → codeCount (lengthAt lengths) num 1 = 1) := by
  obtain ⟨counted, hcounted, hinv⟩ := (countCodes_iff hwritten ht).2 hlt
  have hones := readCell_eq_ok.mpr (hinv.counts 1 (by decide))
  rw [← codeTotal_eq hlt]
  by_cases hle : ∀ l < 16, codeCount (lengthAt lengths) num l ≤
      availableOf (codeCount (lengthAt lengths) num) l
  · obtain ⟨o, ho, hoff⟩ := offsetCodes_ok hinv.counts hle
    obtain ⟨state, hplace, hplaced⟩ := placeSymbols_spec hnum hwritten hlt hinv.symbols hoff.size
      hoff.offs
    rw [← hoff.numCodes, ← hoff.available]
    simp only [buildHuffTree, if_neg (Nat.not_lt.mpr hnum), hcounted, ho, ok_bind, hones, hplace]
    by_cases hcheck : 1 < o.numCodes ∧ 0 < o.available ∨
        o.numCodes = 1 ∧ codeCount (lengthAt lengths) num 1 ≠ 1
    · simp only [if_pos hcheck]
      constructor
      · rintro ⟨t', ht'⟩
        cases ht'
      · rintro ⟨-, hmany, hone⟩
        cases hcheck with
        | inl h => exact absurd (hmany h.1) (Nat.ne_of_gt h.2)
        | inr h => exact absurd (hone h.1) h.2
    · simp only [if_neg hcheck]
      have hright : (∀ l < 16, codeCount (lengthAt lengths) num l ≤
            availableOf (codeCount (lengthAt lengths) num) l) ∧
          (1 < o.numCodes → o.available = 0) ∧
          (o.numCodes = 1 → codeCount (lengthAt lengths) num 1 = 1) := by
        refine ⟨hle, fun hmany ↦ ?_, fun hone ↦ ?_⟩
        · exact Nat.eq_zero_of_not_pos fun h ↦ hcheck (Or.inl ⟨hmany, h⟩)
        · exact not_not.mp fun h ↦ hcheck (Or.inr ⟨hone, h⟩)
      refine iff_of_true ?_ hright
      by_cases hsingle : o.numCodes = 1
      · obtain ⟨counts, hcounts⟩ := exists_writeCell 2 (hinv.size.symm ▸ (by decide : 1 < 16))
        obtain ⟨symbols, hsymbols⟩ := exists_writeCell (counted.maxSym + 1).toNat
          (hplaced.symbols.symm ▸ (by decide : 1 < 288))
        simp only [if_pos hsingle, hcounts, hsymbols, ok_bind]
        exact ⟨_, rfl⟩
      · simp only [if_neg hsingle]
        exact ⟨_, rfl⟩
  · constructor
    · rintro ⟨t', ht'⟩
      simp only [buildHuffTree, if_neg (Nat.not_lt.mpr hnum), hcounted, ok_bind] at ht'
      obtain ⟨o, ho, -⟩ := bind_eq_ok.mp ht'
      exact absurd ((offsetCodes_spec hinv.counts).2 o ho).le hle
    · exact fun h ↦ absurd h.1 hle

/-- With one code, all symbols that have a length have that of the code. -/
theorem codeCount_one_iff {lengths : ℕ → ℕ} {num : ℕ} (hlt : ∀ i < num, lengths i < 16)
    (htotal : codeTotal lengths num = 1) :
    codeCount lengths num 1 = 1 ↔ ∀ i < num, lengths i ≠ 0 → lengths i = 1 := by
  have hstart := codeTotal_eq hlt
  rw [htotal] at hstart
  constructor
  · intro hone i hi hlength
    by_contra hother
    have hzero := counts_eq_of_single rfl hone hstart (lengths i) (by omega) (hlt i hi)
    have hpos := codeCount_pos hi hlength
    omega
  · intro hall
    have hsame : codeCount lengths num 1 = codeTotal lengths num := by
      rw [codeCount, if_neg one_ne_zero, codeTotal]
      apply List.countP_congr
      intro i hi
      have hlength := hall i (List.mem_range.mp hi)
      simp only [decide_eq_true_eq]
      constructor
      · exact fun h ↦ by omega
      · exact hlength
    rw [hsame, htotal]

/-- No length has more than one code, if there is only one. -/
theorem codeCount_le_available {lengths : ℕ → ℕ} {num : ℕ} (hone : codeCount lengths num 1 = 1)
    (hstart : startOf (codeCount lengths num) 16 = 1) :
    ∀ l < 16, codeCount lengths num l ≤ availableOf (codeCount lengths num) l := by
  intro l hl
  have hrest := counts_eq_of_single rfl hone hstart
  match l with
  | 0 => exact Nat.zero_le _
  | 1 => rw [hone]; exact Nat.le_succ 1
  | l + 2 =>
    rw [hrest (l + 2) (by omega) hl]
    exact Nat.zero_le _

/-- From the tree of any code lengths that are accepted, the canonical code of a symbol is decoded
to the symbol, and exactly the bits of the code are used; several code lengths are accepted if and
only if they satisfy Kraft's equality, and a single one if and only if it is 1. -/
theorem huffman_canonical {t : HuffTree} {lengths : Cells ℕ} {num : ℕ} (hnum : num ≤ 288)
    (hwritten : ∀ i < num, Written lengths i) (hlt : ∀ i < num, lengthAt lengths i < 16)
    (ht : t.symbols.length = 288) :
    (∀ t', buildHuffTree t lengths num = .ok t' →
      ∀ i < num, lengthAt lengths i ≠ 0 → ∀ data rest reader,
        Stands data (canonicalBits (lengthAt lengths) num i ++ rest) reader →
        ∃ reader', huffDecoderNext t' reader = .ok (i, reader') ∧ Stands data rest reader') ∧
    (2 ≤ codeTotal (lengthAt lengths) num →
      ((∃ t', buildHuffTree t lengths num = .ok t') ↔ Kraft (lengthAt lengths) num)) ∧
    (codeTotal (lengthAt lengths) num = 1 →
      ((∃ t', buildHuffTree t lengths num = .ok t') ↔
        ∀ i < num, lengthAt lengths i ≠ 0 → lengthAt lengths i = 1)) := by
  refine ⟨?_, ?_, ?_⟩
  · intro t' hbuild i hi hlength data rest reader hreader
    have hcodes := ((buildHuffTree_spec hnum hwritten ht).2 t' hbuild).codes
    obtain ⟨reader', hnext, hstands, -⟩ := hcodes.next hnum hi hlength (hlt i hi) hreader
    exact ⟨reader', hnext, hstands⟩
  · intro htotal
    rw [buildHuffTree_ok_iff hnum hwritten hlt ht, Kraft, kraft_sum_eq hlt, ← complete_iff]
    constructor
    · exact fun h ↦ ⟨h.1, h.2.1 htotal⟩
    · exact fun h ↦ ⟨h.1, fun _ ↦ h.2, fun hone ↦ absurd hone (by omega)⟩
  · intro htotal
    rw [buildHuffTree_ok_iff hnum hwritten hlt ht, ← codeCount_one_iff hlt htotal]
    constructor
    · exact fun h ↦ h.2.2 htotal
    · intro hone
      exact ⟨codeCount_le_available hone ((codeTotal_eq hlt).trans htotal),
        fun hmany ↦ absurd htotal (by omega), fun _ ↦ hone⟩

/-- Three codes, of the lengths 2, 1 and 2. -/
theorem huffman_canonical_three :
    (∀ t', buildHuffTree HuffTree.fresh [some 2, some 1, some 2] 3 = .ok t' →
      ∀ i < 3, lengthAt [some 2, some 1, some 2] i ≠ 0 → ∀ data rest reader,
        Stands data (canonicalBits (lengthAt [some 2, some 1, some 2]) 3 i ++ rest) reader →
        ∃ reader', huffDecoderNext t' reader = .ok (i, reader') ∧ Stands data rest reader') ∧
    (2 ≤ codeTotal (lengthAt [some 2, some 1, some 2]) 3 →
      ((∃ t', buildHuffTree HuffTree.fresh [some 2, some 1, some 2] 3 = .ok t') ↔
        Kraft (lengthAt [some 2, some 1, some 2]) 3)) ∧
    (codeTotal (lengthAt [some 2, some 1, some 2]) 3 = 1 →
      ((∃ t', buildHuffTree HuffTree.fresh [some 2, some 1, some 2] 3 = .ok t') ↔
        ∀ i < 3, lengthAt [some 2, some 1, some 2] i ≠ 0 →
          lengthAt [some 2, some 1, some 2] i = 1)) := by
  apply huffman_canonical (by decide)
  · intro i hi
    match i with
    | 0 => exact ⟨2, rfl⟩
    | 1 => exact ⟨1, rfl⟩
    | 2 => exact ⟨2, rfl⟩
  · decide
  · exact List.length_replicate

end Brutal.Codec
