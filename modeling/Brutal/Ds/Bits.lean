import Brutal.Base.Range
import Mathlib.Data.Nat.Count
import Mathlib.Logic.Function.Basic

/-!
# Bitmaps

`brutal-ds/bits.c`.  The bitmap does not own its memory: `data` points into physical memory, so a
position past the end reads whatever stands there.  `bits_find_free` does look at the position
`bits_len` when it searches downwards.
-/

namespace Brutal.Ds

open Base

variable {i base count start size : UInt64} {n left : ℕ} {bits bits' : Bits} {value upper : Bool}

/-- `Bits`, with the memory behind `data` seen as a sequence of bits. -/
structure Bits where
  data : UInt64
  size : UInt64
  bit : ℕ → Bool

def bitsLen (bits : Bits) : UInt64 := bits.size * 8

def bitsGet (bits : Bits) (index : UInt64) : Bool := bits.bit index.toNat

def bitsSet (bits : Bits) (index : UInt64) (value : Bool) : Bits :=
  { bits with bit := Function.update bits.bit index.toNat value }

def bitsFill (bits : Bits) (value : Bool) : Bits :=
  { bits with bit := fun i ↦ if i < (bitsLen bits).toNat then value else bits.bit i }

/-- The bitmap and the counter of `bits_set_range` after the first iterations of its loop. -/
def setBits (bits : Bits) (base : UInt64) (value : Bool) : ℕ → Bits × UInt64
  | 0 => (bits, 0)
  | i + 1 =>
    let (bits, count) := setBits bits base value i
    let index := base + UInt64.ofNat i
    if bitsGet bits index != value then (bitsSet bits index value, count + 1) else (bits, count)

/-- `bits_set_range` -/
def bitsSetRange (bits : Bits) (range : USizeRange) (value : Bool) :
    Except Fault (Bits × UInt64) :=
  if rangeEnd range ≤ bitsLen bits then .ok (setBits bits range.base value range.size.toNat)
  else .error .panic

/-- The loop of `bits_find_free` at position `i`, with the number of iterations left. -/
def findFree (bits : Bits) (size : UInt64) (upper : Bool) :
    ℕ → UInt64 → UInt64 → UInt64 → USizeRange
  | 0, _, _, _ => ⟨0, 0⟩
  | left + 1, i, rangeStart, rangeSize =>
    let free := bitsGet bits i == false
    let rangeStart :=
      if free then if rangeSize == 0 || upper then i else rangeStart else 0
    let rangeSize := if free then rangeSize + 1 else 0
    if size == rangeSize then ⟨rangeStart, rangeSize⟩
    else findFree bits size upper left (if upper then i - 1 else i + 1) rangeStart rangeSize

/-- `bits_find_free` -/
def bitsFindFree (bits : Bits) (start size : UInt64) (upper : Bool) : Except Fault USizeRange :=
  if bitsLen bits > 1 then
    let start := min start (bitsLen bits)
    if bits.size == 0 then .ok ⟨0, 0⟩
    else
      let left := if upper then start.toNat else (bitsLen bits).toNat - start.toNat
      .ok (findFree bits size upper left start 0 0)
  else .error .panic

/-- The number of clear bits of the bitmap. -/
def clearBits (bits : Bits) : ℕ := Nat.count (fun i ↦ bits.bit i = false) (bitsLen bits).toNat

@[simp]
theorem bitsLen_bitsSet (bits : Bits) (index : UInt64) (value : Bool) :
    bitsLen (bitsSet bits index value) = bitsLen bits := rfl

@[simp]
theorem bitsLen_bitsFill (bits : Bits) (value : Bool) :
    bitsLen (bitsFill bits value) = bitsLen bits := rfl

/-- The length is a multiple of eight, so the position past it is representable. -/
theorem bitsLen_lt (bits : Bits) : (bitsLen bits).toNat + 1 < 2 ^ 64 := by
  have hsize := bits.size.toNat_lt
  have height : (8 : UInt64).toNat = 8 := rfl
  rw [bitsLen, UInt64.toNat_mul, height]
  omega

/-- Clearing one set bit adds one to the number of clear bits. -/
theorem count_update_false {bit : ℕ → Bool} {i n : ℕ} (hi : i < n) (hbit : bit i = true) :
    Nat.count (fun j ↦ Function.update bit i false j = false) n =
      Nat.count (fun j ↦ bit j = false) n + 1 := by
  induction n with
  | zero => exact absurd hi (Nat.not_lt_zero i)
  | succ n ih =>
    rw [Nat.count_succ, Nat.count_succ]
    rcases Nat.lt_succ_iff_lt_or_eq.1 hi with hlt | rfl
    · rw [ih hlt, Function.update_of_ne hlt.ne']
      omega
    · have hsame : Nat.count (fun j ↦ Function.update bit i false j = false) i =
          Nat.count (fun j ↦ bit j = false) i := by
        rw [Nat.count_eq_card_filter_range, Nat.count_eq_card_filter_range]
        congr 1
        apply Finset.filter_congr
        intro j hj
        rw [Function.update_of_ne (Finset.mem_range.1 hj).ne]
      rw [hsame, Function.update_self, hbit]
      simp

/-- What one iteration of `bits_set_range` does to the number of clear bits. -/
theorem clearBits_bitsSet {index : UInt64} (hindex : index.toNat < (bitsLen bits).toNat)
    (hflip : bitsGet bits index ≠ value) :
    if value then clearBits (bitsSet bits index value) + 1 = clearBits bits
    else clearBits (bitsSet bits index value) = clearBits bits + 1 := by
  cases value with
  | false => exact count_update_false hindex (by simpa [bitsGet] using hflip)
  | true =>
    have hclear : bits.bit index.toNat = false := by simpa [bitsGet] using hflip
    have hset : (bitsSet bits index true).bit index.toNat = true := by simp [bitsSet]
    have hback := count_update_false hindex hset
    have hrestore : Function.update (bitsSet bits index true).bit index.toNat false =
        bits.bit := by
      simp only [bitsSet, Function.update_idem]
      rw [← hclear, Function.update_eq_self]
    rw [hrestore] at hback
    exact hback.symm

/-- The bitmap after the bits at `base, …, base + n - 1` were given a value, `count` of them having
had the other one. -/
structure RangeSet (bits : Bits) (base n : ℕ) (value : Bool) (bits' : Bits) (count : UInt64) :
    Prop where
  data_eq : bits'.data = bits.data
  size_eq : bits'.size = bits.size
  bit_eq : ∀ j, bits'.bit j = if base ≤ j ∧ j < base + n then value else bits.bit j
  clear_eq :
    if value then clearBits bits' + count.toNat = clearBits bits
    else clearBits bits' = clearBits bits + count.toNat
  count_le : count.toNat ≤ n
  count_eq : (∀ j, base ≤ j → j < base + n → bits.bit j ≠ value) → count.toNat = n

theorem RangeSet.bitsLen_eq {base n : ℕ} (h : RangeSet bits base n value bits' count) :
    bitsLen bits' = bitsLen bits := by
  rw [bitsLen, h.size_eq, bitsLen]

/-- One iteration of the loop that finds the other value at its position. -/
theorem RangeSet.flip (h : RangeSet bits base.toNat n value bits' count)
    (hlen : base.toNat + (n + 1) ≤ (bitsLen bits).toNat)
    (hflip : bitsGet bits' (base + UInt64.ofNat n) ≠ value) :
    RangeSet bits base.toNat (n + 1) value (bitsSet bits' (base + UInt64.ofNat n) value)
      (count + 1) := by
  have hbound := (bitsLen bits).toNat_lt
  have hindex : (base + UInt64.ofNat n).toNat = base.toNat + n := by
    rw [UInt64.toNat_add, UInt64.toNat_ofNat']
    omega
  have hcount : (count + 1).toNat = count.toNat + 1 := by
    have hle := h.count_le
    have hone : (1 : UInt64).toNat = 1 := rfl
    rw [UInt64.toNat_add, hone]
    omega
  refine ⟨h.data_eq, h.size_eq, ?_, ?_, ?_, ?_⟩
  · intro j
    simp only [bitsSet, hindex]
    by_cases hj : j = base.toNat + n
    · rw [hj, Function.update_self, if_pos (by omega)]
    · rw [Function.update_of_ne hj, h.bit_eq]
      simp only [show base.toNat ≤ j ∧ j < base.toNat + (n + 1) ↔
        base.toNat ≤ j ∧ j < base.toNat + n by omega]
  · have hinside : (base + UInt64.ofNat n).toNat < (bitsLen bits').toNat := by
      rw [h.bitsLen_eq, hindex]
      omega
    have hset := clearBits_bitsSet hinside hflip
    have hclear := h.clear_eq
    rw [hcount]
    cases value with
    | false =>
      simp only [Bool.false_eq_true, ↓reduceIte] at hset hclear ⊢
      omega
    | true =>
      simp only [↓reduceIte] at hset hclear ⊢
      omega
  · have hle := h.count_le
    rw [hcount]
    omega
  · intro hall
    rw [hcount, h.count_eq fun j hlow hhigh ↦ hall j hlow (by omega)]

/-- One iteration of the loop that finds the value at its position already. -/
theorem RangeSet.keep (h : RangeSet bits base.toNat n value bits' count)
    (hlen : base.toNat + (n + 1) ≤ (bitsLen bits).toNat)
    (hkeep : bitsGet bits' (base + UInt64.ofNat n) = value) :
    RangeSet bits base.toNat (n + 1) value bits' count := by
  have hbound := (bitsLen bits).toNat_lt
  have hindex : (base + UInt64.ofNat n).toNat = base.toNat + n := by
    rw [UInt64.toNat_add, UInt64.toNat_ofNat']
    omega
  rw [bitsGet, hindex] at hkeep
  refine ⟨h.data_eq, h.size_eq, ?_, h.clear_eq, h.count_le.trans (Nat.le_succ n), ?_⟩
  · intro j
    by_cases hj : j = base.toNat + n
    · rw [hj, hkeep, if_pos (by omega)]
    · rw [h.bit_eq]
      simp only [show base.toNat ≤ j ∧ j < base.toNat + (n + 1) ↔
        base.toNat ≤ j ∧ j < base.toNat + n by omega]
  · intro hall
    have hold := h.bit_eq (base.toNat + n)
    rw [hkeep, if_neg (by omega)] at hold
    exact absurd hold.symm (hall _ (by omega) (by omega))

theorem setBits_spec (value : Bool) (hlen : base.toNat + n ≤ (bitsLen bits).toNat) :
    RangeSet bits base.toNat n value (setBits bits base value n).1
      (setBits bits base value n).2 := by
  induction n with
  | zero =>
    refine ⟨rfl, rfl, fun j ↦ ?_, by cases value <;> rfl, le_rfl, fun _ ↦ rfl⟩
    rw [if_neg (by omega)]
    rfl
  | succ n ih =>
    have hprev := ih (by omega)
    rw [setBits]
    by_cases hget : bitsGet (setBits bits base value n).1 (base + UInt64.ofNat n) = value
    · simpa [hget] using hprev.keep hlen hget
    · simpa [hget] using hprev.flip hlen hget

/-- `bits_set_range` on a range that does not wrap. -/
theorem bitsSetRange_spec {range : USizeRange} (hrange : range.Bounded)
    (h : bitsSetRange bits range value = .ok (bits', count)) :
    range.finish ≤ (bitsLen bits).toNat ∧
      RangeSet bits range.base.toNat range.size.toNat value bits' count := by
  rw [bitsSetRange] at h
  split at h
  next hend =>
    rw [UInt64.le_iff_toNat_le, hrange.rangeEnd_toNat] at hend
    refine ⟨hend, ?_⟩
    have hspec := setBits_spec value hend
    rw [Except.ok.inj h] at hspec
    exact hspec
  next => cases h

/-- Every position of the range is clear. -/
def AllClear (bits : Bits) (range : USizeRange) : Prop :=
  ∀ j, range.base.toNat ≤ j → j < range.finish → bits.bit j = false

theorem allClear_empty (bits : Bits) (base : UInt64) : AllClear bits ⟨base, 0⟩ := by
  intro j hlow hhigh
  exact absurd (hlow.trans_lt hhigh) (lt_irrefl base.toNat)

/-- The position after `i` in the direction of the search. -/
def nextPosition (upper : Bool) (i : UInt64) : UInt64 := if upper then i - 1 else i + 1

theorem nextPosition_toNat
    (hleft : if upper then left + 1 ≤ i.toNat else i.toNat + (left + 1) < 2 ^ 64) :
    (nextPosition upper i).toNat = if upper then i.toNat - 1 else i.toNat + 1 := by
  have hone : (1 : UInt64).toNat = 1 := rfl
  have hi := i.toNat_lt
  cases upper with
  | false =>
    simp only [nextPosition, Bool.false_eq_true, ↓reduceIte, UInt64.toNat_add, hone] at hleft ⊢
    omega
  | true =>
    simp only [nextPosition, ↓reduceIte, UInt64.toNat_sub, hone] at hleft ⊢
    omega

/-- The run of clear bits that the search has collected borders on the position it looks at. -/
structure RunAt (bits : Bits) (upper : Bool) (limit : ℕ) (i start size : UInt64) : Prop where
  clear : AllClear bits ⟨start, size⟩
  fits : start.toNat + size.toNat ≤ limit
  adjacent : size = 0 ∨
    if upper then start.toNat = i.toNat + 1 else start.toNat + size.toNat = i.toNat

theorem RunAt.nil (bits : Bits) (upper : Bool) (limit : ℕ) (i : UInt64) :
    RunAt bits upper limit i 0 0 :=
  ⟨allClear_empty bits 0, Nat.zero_le _, Or.inl rfl⟩

/-- A clear bit at the position makes the run longer by one. -/
theorem RunAt.grow {limit left : ℕ} (h : RunAt bits upper limit i start size)
    (hbit : bitsGet bits i = false) (hi : i.toNat < limit) (hlimit : limit < 2 ^ 64)
    (hleft : if upper then left + 1 ≤ i.toNat else i.toNat + (left + 1) < 2 ^ 64) :
    RunAt bits upper limit (nextPosition upper i)
      (if size == 0 || upper then i else start) (size + 1) := by
  have hone : (1 : UInt64).toNat = 1 := rfl
  have hzero : (0 : UInt64).toNat = 0 := rfl
  have hnext := nextPosition_toNat hleft
  obtain ⟨hclear, hfits, hadjacent⟩ := h
  unfold AllClear USizeRange.finish at hclear
  by_cases hsize : size = 0
  · subst hsize
    have hgrown : ((0 : UInt64) + 1).toNat = 1 := rfl
    refine ⟨?_, ?_, ?_⟩
    · intro j hlow hhigh
      simp only [beq_self_eq_true, Bool.true_or, ↓reduceIte, USizeRange.finish, hgrown]
        at hlow hhigh
      rwa [show j = i.toNat by omega]
    · simp only [beq_self_eq_true, Bool.true_or, ↓reduceIte, hgrown]
      omega
    · refine Or.inr ?_
      cases upper <;> simp at hnext hleft ⊢ <;> omega
  · have hpos : size.toNat ≠ 0 := fun h ↦ hsize (UInt64.toNat_inj.1 h)
    have hadjacent := hadjacent.resolve_left hsize
    have hbeq : (size == 0) = false := beq_eq_false_iff_ne.2 hsize
    have hgrown : (size + 1).toNat = size.toNat + 1 := by
      rw [UInt64.toNat_add, hone]
      cases upper <;> simp at hadjacent <;> omega
    cases upper with
    | false =>
      simp only [Bool.false_eq_true, ↓reduceIte, hbeq, Bool.or_self] at hadjacent hnext ⊢
      refine ⟨fun j hlow hhigh ↦ ?_, by omega, Or.inr ?_⟩
      · simp only [USizeRange.finish, hgrown] at hlow hhigh
        by_cases hj : j = i.toNat
        · rwa [hj]
        · exact hclear j hlow (by simp only; omega)
      · simp only [Bool.false_eq_true, ↓reduceIte]
        omega
    | true =>
      simp only [↓reduceIte, Bool.or_true] at hadjacent hnext ⊢
      refine ⟨fun j hlow hhigh ↦ ?_, by omega, Or.inr ?_⟩
      · simp only [USizeRange.finish, hgrown] at hlow hhigh
        by_cases hj : j = i.toNat
        · rwa [hj]
        · exact hclear j (by simp only; omega) (by simp only; omega)
      · simp only [↓reduceIte] at hleft ⊢
        omega

/-- What the searches find: nothing, or clear bits in the number asked for. -/
def Found (bits : Bits) (size : UInt64) (limit : ℕ) (range : USizeRange) : Prop :=
  AllClear bits range ∧ range.finish ≤ limit ∧ (range.size = 0 ∨ range.size = size)

theorem findFree_spec {size i start runSize : UInt64} {limit left : ℕ} (hlimit : limit < 2 ^ 64)
    (hleft : if upper then left ≤ i.toNat ∧ i.toNat < limit else i.toNat + left ≤ limit)
    (hrun : RunAt bits upper limit i start runSize) :
    Found bits size limit (findFree bits size upper left i start runSize) := by
  induction left generalizing i start runSize with
  | zero => exact ⟨allClear_empty bits 0, Nat.zero_le _, Or.inl rfl⟩
  | succ left ih =>
    have hposition : (if upper then left + 1 ≤ i.toNat else i.toNat + (left + 1) < 2 ^ 64) ∧
        i.toNat < limit := by
      cases upper <;> simp at hleft ⊢ <;> omega
    have hnext := nextPosition_toNat hposition.1
    have hleft' : if upper then left ≤ (nextPosition upper i).toNat ∧
        (nextPosition upper i).toNat < limit
        else (nextPosition upper i).toNat + left ≤ limit := by
      rw [hnext]
      cases upper <;> simp at hleft ⊢ <;> omega
    rw [findFree]
    by_cases hbit : bitsGet bits i = false
    · have hgrown := hrun.grow hbit hposition.2 hlimit hposition.1
      simp only [hbit, beq_self_eq_true, ↓reduceIte]
      by_cases hsize : size = runSize + 1
      · rw [if_pos (by simp [hsize])]
        exact ⟨hgrown.clear, hgrown.fits, Or.inr hsize.symm⟩
      · rw [if_neg (by simpa using hsize)]
        exact ih hleft' hgrown
    · simp only [Bool.not_eq_false] at hbit
      simp only [hbit, Bool.true_beq, Bool.false_eq_true, ↓reduceIte]
      split
      · exact ⟨allClear_empty bits 0, Nat.zero_le _, Or.inl rfl⟩
      · exact ih hleft' (RunAt.nil bits upper limit _)

/-- `bits_find_free` may look one position past the end, never further. -/
theorem bitsFindFree_spec {range : USizeRange}
    (h : bitsFindFree bits start size upper = .ok range) :
    Found bits size ((bitsLen bits).toNat + 1) range := by
  rw [bitsFindFree] at h
  split at h
  next =>
    dsimp only at h
    split at h
    next =>
      cases h
      exact ⟨allClear_empty bits 0, Nat.zero_le _, Or.inl rfl⟩
    next =>
      cases h
      have hstart : (min start (bitsLen bits)).toNat ≤ (bitsLen bits).toNat := by
        rw [UInt64.toNat_min]
        omega
      apply findFree_spec (bitsLen_lt bits) _ (RunAt.nil bits upper _ _)
      cases upper <;> simp <;> omega
  next => cases h

end Brutal.Ds
