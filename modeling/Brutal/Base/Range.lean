import Brutal.Base.Debug
import Brutal.Lib.Word
import Mathlib.Tactic.Common

/-!
# Ranges of 64-bit addresses

The macros of `brutal-base/range.h`, `brutal-base/macros.h` and `brutal-mem/pages.h` at the type
`USizeRange`.  All arithmetic is that of `size_t`, so `rangeEnd` wraps.

An address belongs to a range when it is one of `base, base + 1, …, base + size - 1` modulo
`2 ^ 64`.  A range is `Bounded` when its end is representable; there the wrapped comparisons of the
macros decide the ordinary relations between half-open intervals.
-/

namespace Brutal.Base

/-- `USizeRange`, the `Range(size_t)` of the source. -/
structure USizeRange where
  base : UInt64
  size : UInt64
deriving DecidableEq, Repr, Inhabited

/-- `MEM_PAGE_SIZE` -/
def memPageSize : UInt64 := 0x1000

def alignDown (addr align : UInt64) : UInt64 := addr &&& ~~~(align - 1)

def alignUp (addr align : UInt64) : UInt64 := (addr + align - 1) &&& ~~~(align - 1)

def rangeEmpty (range : USizeRange) : Bool := range.size == 0

def rangeEnd (range : USizeRange) : UInt64 := range.base + range.size

def rangeContiguous (lhs rhs : USizeRange) : Bool :=
  lhs.base == rangeEnd rhs || rangeEnd lhs == rhs.base

def rangeColide (lhs rhs : USizeRange) : Bool :=
  lhs.base < rangeEnd rhs && rangeEnd lhs > rhs.base

def rangeTouch (lhs rhs : USizeRange) : Bool :=
  rangeColide lhs rhs || rangeContiguous lhs rhs

def rangeFromStartAndEnd (start finish : UInt64) : USizeRange := ⟨start, finish - start⟩

def rangeMerge (lhs rhs : USizeRange) : USizeRange :=
  rangeFromStartAndEnd (min lhs.base rhs.base) (max (rangeEnd lhs) (rangeEnd rhs))

/-- The part of `self` below `split`, empty when the two do not collide. -/
def rangeHalfUnder (self split : USizeRange) : USizeRange :=
  if rangeColide self split && self.base < split.base then
    ⟨self.base, split.base - self.base⟩
  else ⟨0, 0⟩

/-- The part of `self` above `split`, empty when the two do not collide. -/
def rangeHalfOver (self split : USizeRange) : USizeRange :=
  if rangeColide self split && rangeEnd self > rangeEnd split then
    ⟨rangeEnd split, rangeEnd self - rangeEnd split⟩
  else ⟨0, 0⟩

def rangeEq (lhs rhs : USizeRange) : Bool := lhs.base == rhs.base && lhs.size == rhs.size

theorem rangeEq_iff {lhs rhs : USizeRange} : rangeEq lhs rhs = true ↔ lhs = rhs := by
  obtain ⟨base, size⟩ := lhs
  obtain ⟨base', size'⟩ := rhs
  simp [rangeEq]

def rangeMul (self : USizeRange) (val : UInt64) : USizeRange := ⟨self.base * val, self.size * val⟩

def rangeDiv (self : USizeRange) (val : UInt64) : USizeRange := ⟨self.base / val, self.size / val⟩

def rangeAlignBigger (self : USizeRange) (align : UInt64) : USizeRange :=
  ⟨alignDown self.base align, alignUp self.size align⟩

def rangeAlignSmaller (self : USizeRange) (align : UInt64) : USizeRange :=
  ⟨alignUp self.base align, alignDown self.size align⟩

def memIsSizePageAligned (size : UInt64) : Bool := size % memPageSize == 0

def memIsRangePageAligned (range : USizeRange) : Bool :=
  range.base % memPageSize == 0 && range.size % memPageSize == 0

/-- The addresses `base, …, base + size - 1`, taken modulo `2 ^ 64`. -/
instance : Membership UInt64 USizeRange where
  mem range addr := addr - range.base < range.size

instance (range : USizeRange) (addr : UInt64) : Decidable (addr ∈ range) :=
  inferInstanceAs (Decidable (_ < _))

theorem mem_def {range : USizeRange} {addr : UInt64} :
    addr ∈ range ↔ addr - range.base < range.size := Iff.rfl

namespace USizeRange

/-- The end of the range is representable. -/
def Bounded (range : USizeRange) : Prop := range.base.toNat + range.size.toNat < 2 ^ 64

instance (range : USizeRange) : Decidable range.Bounded :=
  inferInstanceAs (Decidable (_ < _))

/-- The first address past the range, as a natural number. -/
def finish (range : USizeRange) : ℕ := range.base.toNat + range.size.toNat

theorem base_le_finish (range : USizeRange) : range.base.toNat ≤ range.finish :=
  Nat.le_add_right _ _

variable {self split : USizeRange}

theorem Bounded.rangeEnd_toNat {range : USizeRange} (h : range.Bounded) :
    (rangeEnd range).toNat = range.finish := by
  rw [rangeEnd, UInt64.toNat_add, Nat.mod_eq_of_lt h, finish]

theorem Bounded.mem_iff {range : USizeRange} (h : range.Bounded) {addr : UInt64} :
    addr ∈ range ↔ range.base.toNat ≤ addr.toNat ∧ addr.toNat < range.finish := by
  rw [mem_def, UInt64.lt_iff_toNat_lt, UInt64.toNat_sub]
  have haddr := addr.toNat_lt
  have hbase := range.base.toNat_lt
  unfold Bounded at h
  unfold finish
  omega

theorem rangeColide_iff (hself : self.Bounded) (hsplit : split.Bounded) :
    rangeColide self split = true ↔
      self.base.toNat < split.finish ∧ split.base.toNat < self.finish := by
  simp only [rangeColide, Bool.and_eq_true, decide_eq_true_eq, gt_iff_lt,
    UInt64.lt_iff_toNat_lt, hself.rangeEnd_toNat, hsplit.rangeEnd_toNat]

theorem rangeContiguous_iff (hself : self.Bounded) (hsplit : split.Bounded) :
    rangeContiguous self split = true ↔
      self.base.toNat = split.finish ∨ self.finish = split.base.toNat := by
  simp only [rangeContiguous, Bool.or_eq_true, beq_iff_eq, ← UInt64.toNat_inj,
    hself.rangeEnd_toNat, hsplit.rangeEnd_toNat]

/-- The merge of two bounded ranges is their hull. -/
theorem rangeMerge_toNat (hself : self.Bounded) (hsplit : split.Bounded) :
    (rangeMerge self split).base.toNat = min self.base.toNat split.base.toNat ∧
      (rangeMerge self split).finish = max self.finish split.finish ∧
      (rangeMerge self split).Bounded := by
  have hmin : (min self.base split.base).toNat = min self.base.toNat split.base.toNat := by
    rw [UInt64.toNat_min]
  have hmax : (max (rangeEnd self) (rangeEnd split)).toNat = max self.finish split.finish := by
    rw [UInt64.toNat_max, hself.rangeEnd_toNat, hsplit.rangeEnd_toNat]
  have hself' := self.base_le_finish
  have hsplit' := split.base_le_finish
  have hbound := UInt64.toNat_lt (max (rangeEnd self) (rangeEnd split))
  have hsize : (rangeMerge self split).size.toNat =
      max self.finish split.finish - min self.base.toNat split.base.toNat := by
    rw [rangeMerge, rangeFromStartAndEnd, UInt64.toNat_sub, hmin, hmax]
    omega
  have hbase : (rangeMerge self split).base.toNat = min self.base.toNat split.base.toNat := hmin
  refine ⟨hbase, ?_, ?_⟩
  · rw [finish, hbase, hsize]
    omega
  · rw [Bounded, hbase, hsize]
    omega

/-- The lower half is the part of the range below the split, and is never past it. -/
theorem rangeHalfUnder_cases (hself : self.Bounded) (hsplit : split.Bounded) :
    (self.base.toNat < split.base.toNat ∧ split.base.toNat < self.finish ∧
        (rangeHalfUnder self split).base.toNat = self.base.toNat ∧
        (rangeHalfUnder self split).finish = split.base.toNat) ∨
      (¬ (self.base.toNat < split.base.toNat ∧ split.base.toNat < self.finish) ∧
        rangeHalfUnder self split = ⟨0, 0⟩) := by
  have hfinish := split.base_le_finish
  by_cases hcut : rangeColide self split = true ∧ self.base < split.base
  · have hcolide := (rangeColide_iff hself hsplit).1 hcut.1
    have hlt := UInt64.lt_iff_toNat_lt.1 hcut.2
    refine Or.inl ⟨hlt, hcolide.2, ?_, ?_⟩
    · simp [rangeHalfUnder, hcut]
    · have hle : self.base ≤ split.base := UInt64.le_iff_toNat_le.2 hlt.le
      simp only [rangeHalfUnder, hcut, decide_true, Bool.and_self, ↓reduceIte, finish,
        UInt64.toNat_sub_of_le _ _ hle]
      omega
  · refine Or.inr ⟨?_, ?_⟩
    · rintro ⟨hlt, hinside⟩
      refine hcut ⟨(rangeColide_iff hself hsplit).2 ⟨by omega, hinside⟩, ?_⟩
      exact UInt64.lt_iff_toNat_lt.2 hlt
    · rw [rangeHalfUnder, if_neg]
      simpa using hcut

/-- The upper half is the part of the range above the split, and starts where the split ends. -/
theorem rangeHalfOver_cases (hself : self.Bounded) (hsplit : split.Bounded) :
    (self.base.toNat < split.finish ∧ split.base.toNat < self.finish ∧
        split.finish < self.finish ∧
        (rangeHalfOver self split).base.toNat = split.finish ∧
        (rangeHalfOver self split).finish = self.finish) ∨
      (¬ (self.base.toNat < split.finish ∧ split.base.toNat < self.finish ∧
          split.finish < self.finish) ∧
        rangeHalfOver self split = ⟨0, 0⟩) := by
  by_cases hcut : rangeColide self split = true ∧ rangeEnd self > rangeEnd split
  · have hcolide := (rangeColide_iff hself hsplit).1 hcut.1
    have hlt := UInt64.lt_iff_toNat_lt.1 hcut.2
    have hsub := UInt64.toNat_sub_of_le _ _ (UInt64.le_iff_toNat_le.2 hlt.le)
    rw [hself.rangeEnd_toNat, hsplit.rangeEnd_toNat] at hlt hsub
    refine Or.inl ⟨hcolide.1, hcolide.2, hlt, ?_, ?_⟩
    · simp [rangeHalfOver, hcut, hsplit.rangeEnd_toNat]
    · simp only [rangeHalfOver, hcut, decide_true, Bool.and_self, ↓reduceIte]
      rw [finish, hsub, hsplit.rangeEnd_toNat]
      omega
  · refine Or.inr ⟨?_, ?_⟩
    · rintro ⟨hbelow, habove, hlt⟩
      refine hcut ⟨(rangeColide_iff hself hsplit).2 ⟨hbelow, habove⟩, ?_⟩
      rw [gt_iff_lt, UInt64.lt_iff_toNat_lt, hself.rangeEnd_toNat, hsplit.rangeEnd_toNat]
      exact hlt
    · rw [rangeHalfOver, if_neg]
      simpa using hcut

end USizeRange

theorem memPageSize_toNat : memPageSize.toNat = 2 ^ 12 := rfl

/-- Both ends of the range are multiples of the page size. -/
theorem memIsRangePageAligned_iff {range : USizeRange} :
    memIsRangePageAligned range = true ↔
      range.base.toNat % 4096 = 0 ∧ range.size.toNat % 4096 = 0 := by
  simp [memIsRangePageAligned, memPageSize, ← UInt64.toNat_inj]

theorem alignDown_page {addr : UInt64} (h : addr.toNat % 4096 = 0) :
    alignDown addr memPageSize = addr := by
  rw [← UInt64.toNat_inj, alignDown, Lib.toNat_and_not_mask memPageSize_toNat]
  omega

theorem alignUp_page {addr : UInt64} (h : addr.toNat % 4096 = 0) :
    alignUp addr memPageSize = addr := by
  rw [← UInt64.toNat_inj, alignUp, Lib.toNat_and_not_mask memPageSize_toNat]
  have haddr := addr.toNat_lt
  have hsum : (addr + memPageSize - 1).toNat = addr.toNat + 4095 := by
    have hone : (1 : UInt64).toNat = 1 := rfl
    rw [UInt64.toNat_sub, UInt64.toNat_add, memPageSize_toNat, hone]
    omega
  rw [hsum]
  omega

/-- Aligned ranges are left as they are, whichever way they are aligned. -/
theorem rangeAlign_page {range : USizeRange} (h : memIsRangePageAligned range = true) :
    rangeAlignBigger range memPageSize = range ∧ rangeAlignSmaller range memPageSize = range := by
  obtain ⟨hbase, hsize⟩ := memIsRangePageAligned_iff.1 h
  simp only [rangeAlignBigger, rangeAlignSmaller, alignDown_page hbase, alignUp_page hbase,
    alignDown_page hsize, alignUp_page hsize, and_self]

end Brutal.Base
