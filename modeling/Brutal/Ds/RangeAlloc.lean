import Brutal.Base.Range
import Mathlib.Data.List.Basic
import Mathlib.Logic.Function.Basic

/-!
# Vectors and the range allocator

`brutal-ds/vec.c` and `brutal-ds/range.c`.  A vector is the memory of its array and the number of
elements in use; what stands behind them is whatever the memory held before.  `vec_insert` makes
this visible: `vec_insert_impl` returns before it moves the elements, so the new element replaces
the one at its place and the vector grows by what stands behind its last element.
-/

namespace Brutal.Ds

open Base Lib

/-- `Vec(T)` -/
structure Vec (α : Type*) where
  data : ℕ → α
  len : ℕ

section Vec

variable {α : Type*}

/-- `vec_init`, where `memory` is what the array will hold behind its elements. -/
def vecInit (memory : ℕ → α) : Vec α := ⟨memory, 0⟩

def vecPush (v : Vec α) (val : α) : Vec α := ⟨Function.update v.data v.len val, v.len + 1⟩

/-- `vec_insert`, in which `vec_insert_impl` takes the success of `vec_expand_impl` for an
error. -/
def vecInsert (v : Vec α) (idx : ℕ) (val : α) : Vec α :=
  ⟨Function.update v.data idx val, v.len + 1⟩

/-- `vec_splice`; a `start` past the end makes `mem_move` run over all of memory. -/
def vecSplice (v : Vec α) (start count : ℕ) : Except Fault (Vec α) :=
  if start + count ≤ v.len then
    .ok
      { data := fun j ↦ if start ≤ j ∧ j + count < v.len then v.data (j + count) else v.data j
        len := v.len - count }
  else .error .outOfBounds

end Vec

/-- `RangeAlloc`, the free ranges in the order in which they are tried. -/
abbrev RangeAlloc := Vec USizeRange

/-- `range_alloc_init` -/
def rangeAllocInit (memory : ℕ → USizeRange) : RangeAlloc := vecInit memory

/-- The first loop of `range_alloc_compress`, with the number of elements it may still remove. -/
def compressAfter (start : ℕ) : ℕ → RangeAlloc → Except Fault RangeAlloc
  | 0, self => .ok self
  | left + 1, self =>
    if start + 1 < self.len && rangeContiguous (self.data start) (self.data (start + 1)) then do
      let merged := rangeMerge (self.data start) (self.data (start + 1))
      let self ← vecSplice { self with data := Function.update self.data start merged }
        (start + 1) 1
      compressAfter start left self
    else .ok self

/-- The second loop of `range_alloc_compress`, which leaves `start` where it is. -/
def compressBefore (start : ℕ) : ℕ → RangeAlloc → Except Fault RangeAlloc
  | 0, self => .ok self
  | left + 1, self =>
    if start > 0 && rangeContiguous (self.data start) (self.data (start - 1)) then do
      let merged := rangeMerge (self.data start) (self.data (start - 1))
      let self ← vecSplice { self with data := Function.update self.data start merged }
        (start - 1) 1
      compressBefore start left self
    else .ok self

/-- `range_alloc_compress`; every iteration removes an element, so neither loop runs more often
than there are elements. -/
def rangeAllocCompress (self : RangeAlloc) (start : ℕ) : Except Fault RangeAlloc := do
  let self ← compressAfter start self.len self
  compressBefore start (self.len + 1) self

/-- The loop of `range_alloc_unused` from element `i` on. -/
def unusedFrom (range : USizeRange) : ℕ → ℕ → RangeAlloc → Except Fault RangeAlloc
  | 0, _, self => .ok (vecPush self range)
  | left + 1, i, self =>
    if rangeContiguous (self.data i) range then
      let merged := rangeMerge (self.data i) range
      rangeAllocCompress { self with data := Function.update self.data i merged } i
    else if i + 1 < self.len && (self.data i).base < range.base &&
        range.base < (self.data (i + 1)).base then
      .ok (vecInsert self (i + 1) range)
    else unusedFrom range left (i + 1) self

/-- `range_alloc_unused` -/
def rangeAllocUnused (self : RangeAlloc) (range : USizeRange) : Except Fault RangeAlloc :=
  unusedFrom range self.len 0 self

/-- One iteration of `range_alloc_used` that cuts the range out of element `i`. -/
def cutOut (self : RangeAlloc) (i : ℕ) (range : USizeRange) : Except Fault RangeAlloc :=
  let curr := self.data i
  let lowerHalf := rangeHalfUnder curr range
  let upperHalf := rangeHalfOver curr range
  if lowerHalf.size != 0 then
    let self := { self with data := Function.update self.data i lowerHalf }
    if upperHalf.size != 0 then rangeAllocUnused self upperHalf else .ok self
  else if upperHalf.size != 0 then
    .ok { self with data := Function.update self.data i upperHalf }
  else .ok self

/-- The loop of `range_alloc_used` from element `i` on.  The vector may grow while it runs. -/
def usedFrom (range : USizeRange) : ℕ → ℕ → RangeAlloc → Except Fault RangeAlloc
  | 0, _, _ => .error .overflow
  | left + 1, i, self =>
    if i < self.len then
      if rangeEq (self.data i) range then vecSplice self i 1
      else if rangeColide (self.data i) range then do
        let self ← cutOut self i range
        usedFrom range left (i + 1) self
      else usedFrom range left (i + 1) self
    else .ok self

/-- `range_alloc_used`, whose counter is an `int`. -/
def rangeAllocUsed (self : RangeAlloc) (range : USizeRange) : Except Fault RangeAlloc :=
  usedFrom range (2 ^ 31) 0 self

/-- The loop of `range_alloc_alloc` from element `i` on. -/
def allocFrom (size : UInt64) : ℕ → ℕ → RangeAlloc → Except Fault (USizeRange × RangeAlloc)
  | 0, _, self => .ok (⟨0, 0⟩, self)
  | left + 1, i, self =>
    let curr := self.data i
    if curr.size == size then do
      let self ← vecSplice self i 1
      pure (curr, self)
    else if curr.size > size then
      let rest : USizeRange := ⟨curr.base + size, curr.size - size⟩
      .ok (⟨curr.base, size⟩, { self with data := Function.update self.data i rest })
    else allocFrom size left (i + 1) self

/-- `range_alloc_alloc` -/
def rangeAllocAlloc (self : RangeAlloc) (size : UInt64) :
    Except Fault (USizeRange × RangeAlloc) :=
  allocFrom size self.len 0 self

/-- The first free range that is large enough. -/
def firstFit (self : RangeAlloc) (size : UInt64) : Option USizeRange :=
  ((List.range self.len).map self.data).find? fun range ↦ size ≤ range.size

/-- An allocation is the start of the first free range that is large enough. -/
theorem rangeAllocAlloc_spec {self self' : RangeAlloc} {size : UInt64} {range : USizeRange}
    (h : rangeAllocAlloc self size = .ok (range, self')) :
    (firstFit self size = none ∧ range = ⟨0, 0⟩) ∨
      ∃ free, firstFit self size = some free ∧ range = ⟨free.base, size⟩ := by
  have hloop : ∀ left i, allocFrom size left i self = .ok (range, self') →
      (((List.range' i left).map self.data).find? (fun range ↦ size ≤ range.size) = none ∧
          range = ⟨0, 0⟩) ∨
        ∃ free, ((List.range' i left).map self.data).find? (fun range ↦ size ≤ range.size) =
          some free ∧ range = ⟨free.base, size⟩ := by
    intro left
    induction left with
    | zero =>
      intro i h
      cases h
      exact Or.inl ⟨rfl, rfl⟩
    | succ left ih =>
      intro i h
      rw [allocFrom] at h
      dsimp only at h
      rw [List.range'_succ, List.map_cons, List.find?_cons]
      split at h
      next hsize =>
        obtain ⟨spliced, _, h⟩ := bind_eq_ok.1 h
        cases h
        rw [beq_iff_eq] at hsize
        refine Or.inr ⟨self.data i, by simp [hsize], ?_⟩
        rw [← hsize]
      next hne =>
        split at h
        next hlarger =>
          cases h
          exact Or.inr ⟨self.data i, by simp [UInt64.le_of_lt hlarger], rfl⟩
        next hnot =>
          have hsmall : ¬ size ≤ (self.data i).size := by
            intro hle
            rcases UInt64.le_iff_lt_or_eq.1 hle with hlt | heq
            · exact hnot hlt
            · exact hne (by simp [heq])
          simpa [hsmall] using ih (i + 1) h
  have hresult := hloop self.len 0 h
  rwa [← List.range_eq_range'] at hresult

end Brutal.Ds
