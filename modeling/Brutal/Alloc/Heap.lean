import Brutal.Base.Range
import Brutal.Lib.Loop
import Mathlib.Logic.Function.Basic

/-!
# The heap allocator

`brutal-alloc/heap.c`.  Majors are areas taken from the system; each starts with a header, and the
blocks handed out lie in it behind headers of their own, the minors.  The memory of the model has
the headers at their addresses, the bytes of the blocks, and the areas that the system has given
out: reading a header where there is none, writing one outside of an area and giving back an area
that is not held are faults.

`embed_mem_acquire` is not part of the allocator.  A call carries the address that it would
return, and running out of memory is what happens when there is no free area at that address.
-/

namespace Brutal.Alloc

open Brutal.Lib

/-- `NodeSize` -/
inductive NodeSize where
  | small
  | default
  | large
deriving DecidableEq, Repr

def NodeSize.bytes : NodeSize → ℕ
  | small => 0x1000
  | default => 0x4000
  | large => 0x20000

/-- `HeapMajor` -/
structure HeapMajor where
  pages : ℕ
  size : ℕ
  usage : ℕ
  prev : Option ℕ
  next : Option ℕ
  first : Option ℕ
deriving DecidableEq, Repr

/-- `HeapMinor` -/
structure HeapMinor where
  magic : ℕ
  size : ℕ
  reqSize : ℕ
  prev : Option ℕ
  next : Option ℕ
  block : ℕ
deriving DecidableEq, Repr

/-- An area of memory given out by the system. -/
structure Area where
  base : ℕ
  size : ℕ
deriving DecidableEq, Repr

def Area.Disjoint (first second : Area) : Prop :=
  first.base + first.size ≤ second.base ∨ second.base + second.size ≤ first.base
deriving Decidable

/-- What ends a call without a result. -/
inductive HeapFault where
  | outOfMemory
  | overrun
  | multipleFree
  | badFree
  | wildAccess
  | notHeld
  | turns
deriving DecidableEq, Repr

/-- `HeapAlloc` together with the memory that it works in.  `acquired` and `released` record the
calls of `embed_mem_acquire` and `embed_mem_release`. -/
structure Heap where
  size : NodeSize
  root : Option ℕ
  best : Option ℕ
  majors : ℕ → Option HeapMajor
  minors : ℕ → Option HeapMinor
  bytes : ℕ → UInt8
  held : List Area
  acquired : List Area
  released : List Area

/-- `ALLOC_HEAP_MAGIC` -/
def allocHeapMagic : ℕ := 0xc001c0de

/-- `ALLOC_HEAP_DEAD` -/
def allocHeapDead : ℕ := 0xdeaddead

/-- `MAJOR_BLOCK_HEADER_SIZE` -/
def majorBlockHeaderSize : ℕ := 64

/-- `MINOR_BLOCK_HEADER_SIZE` -/
def minorBlockHeaderSize : ℕ := 64

/-- `MEM_PAGE_SIZE` -/
def pageSize : ℕ := 0x1000

/-- Addition of `size_t` -/
def add (a b : ℕ) : ℕ := (a + b) % 2 ^ 64

/-- Subtraction of `size_t` -/
def sub (a b : ℕ) : ℕ := (a + (2 ^ 64 - b)) % 2 ^ 64

/-- Multiplication of `size_t` -/
def mul (a b : ℕ) : ℕ := a * b % 2 ^ 64

/-- Conversion of a `size_t` to an `int` -/
def toInt (a : ℕ) : ℤ := Int.bmod a (2 ^ 32)

/-- `align_up$(size, ALLOC_HEAP_ALIGN)` -/
def heapAlign (size : ℕ) : ℕ := (Base.alignUp (.ofNat size) 64).toNat

section Memory

variable (h : Heap)

def getMajor (address : ℕ) : Except HeapFault HeapMajor :=
  match h.majors address with
  | some major => .ok major
  | none => .error .wildAccess

def getMinor (address : ℕ) : Except HeapFault HeapMinor :=
  match h.minors address with
  | some minor => .ok minor
  | none => .error .wildAccess

/-- The header's bytes lie in an area that the allocator holds. -/
def Mapped (address : ℕ) : Prop :=
  ∃ area ∈ h.held, area.base ≤ address ∧ address + 48 ≤ area.base + area.size
deriving Decidable

def setMajor (address : ℕ) (major : HeapMajor) : Except HeapFault Heap :=
  if Mapped h address then
    .ok { h with majors := Function.update h.majors address (some major) }
  else .error .wildAccess

def setMinor (address : ℕ) (minor : HeapMinor) : Except HeapFault Heap :=
  if Mapped h address then
    .ok { h with minors := Function.update h.minors address (some minor) }
  else .error .wildAccess

/-- A write to some fields of a major. -/
def updateMajor (address : ℕ) (change : HeapMajor → HeapMajor) : Except HeapFault Heap := do
  let major ← getMajor h address
  setMajor h address (change major)

/-- A write to some fields of a minor. -/
def updateMinor (address : ℕ) (change : HeapMinor → HeapMinor) : Except HeapFault Heap := do
  let minor ← getMinor h address
  setMinor h address (change minor)

/-- A write through a pointer that is tested for `nullptr` before. -/
def updateMinorAt (pointer : Option ℕ) (change : HeapMinor → HeapMinor) : Except HeapFault Heap :=
  match pointer with
  | some address => updateMinor h address change
  | none => .ok h

def updateMajorAt (pointer : Option ℕ) (change : HeapMajor → HeapMajor) : Except HeapFault Heap :=
  match pointer with
  | some address => updateMajor h address change
  | none => .ok h

/-- The area is one that the system can give out. -/
def Fresh (area : Area) : Prop :=
  area.base ≠ 0 ∧ area.base + area.size ≤ 2 ^ 64 ∧ ∀ other ∈ h.held, area.Disjoint other
deriving Decidable

def embedMemAcquire (size base : ℕ) : Except HeapFault Heap :=
  if Fresh h ⟨base, size⟩ then
    .ok { h with held := ⟨base, size⟩ :: h.held, acquired := ⟨base, size⟩ :: h.acquired }
  else .error .outOfMemory

/-- What lay in the area is gone. -/
def embedMemRelease (base size : ℕ) : Except HeapFault Heap :=
  if (⟨base, size⟩ : Area) ∈ h.held then
    .ok { h with
      majors := fun address ↦
        if base ≤ address ∧ address < base + size then none else h.majors address
      minors := fun address ↦
        if base ≤ address ∧ address < base + size then none else h.minors address
      held := h.held.erase ⟨base, size⟩
      released := ⟨base, size⟩ :: h.released }
  else .error .notHeld

def memCpy (dest src count : ℕ) : Heap :=
  { h with bytes := fun address ↦
      if dest ≤ address ∧ address < dest + count then h.bytes (src + (address - dest))
      else h.bytes address }

end Memory

/-- The number of pages that `major_block_create` asks for. -/
def majorPages (size : ℕ) (nodeSize : NodeSize) : ℕ :=
  let st := add (add size majorBlockHeaderSize) minorBlockHeaderSize
  let st := if st % pageSize = 0 then st / pageSize else st / pageSize + 1
  max st (nodeSize.bytes / pageSize)

def majorBlockCreate (h : Heap) (size base : ℕ) : Except HeapFault Heap := do
  let st := majorPages size h.size
  let h ← embedMemAcquire h (mul st pageSize) base
  setMajor h base
    { pages := st
      size := mul st pageSize
      usage := majorBlockHeaderSize
      prev := none
      next := none
      first := none }

def checkMinorMagic (minor : HeapMinor) : Except HeapFault Unit :=
  if minor.magic = allocHeapMagic then .ok ()
  else if minor.magic % 2 ^ 24 = allocHeapMagic % 2 ^ 24 ∨
      minor.magic % 2 ^ 16 = allocHeapMagic % 2 ^ 16 ∨
      minor.magic % 2 ^ 8 = allocHeapMagic % 2 ^ 8 then .error .overrun
  else if minor.magic = allocHeapDead then .error .multipleFree
  else .error .badFree

/-- The header of a block that has just been placed. -/
def placedMinor (maj size : ℕ) (prev next : Option ℕ) : HeapMinor :=
  { magic := allocHeapMagic
    size
    reqSize := size
    prev
    next
    block := maj }

def addUsage (size : ℕ) (major : HeapMajor) : HeapMajor :=
  { major with usage := add major.usage (add size minorBlockHeaderSize) }

/-- One turn of the loop over the minors of a major, which changes nothing until it has found a
gap. -/
def gapBody (h : Heap) (maj size min : ℕ) : Except HeapFault (ℕ ⊕ (Option ℕ × Heap)) := do
  let minor ← getMinor h min
  match minor.next with
  -- CASE 4.1: End of minors in a block. Space from last and end?
  | none =>
    let major ← getMajor h maj
    let diff := sub (sub (sub (add maj major.size) min) minorBlockHeaderSize) minor.size
    if diff ≥ add size minorBlockHeaderSize then
      let new := add (add min minorBlockHeaderSize) minor.size
      let h ← updateMinor h min fun minor ↦ { minor with next := some new }
      let h ← setMinor h new (placedMinor maj size (some min) none)
      let h ← updateMajor h maj (addUsage size)
      pure (.inr (some (add new minorBlockHeaderSize), h))
    else pure (.inr (none, h))
  -- CASE 4.2: Is there space between two minors?
  | some next =>
    let diff := sub (sub (sub next min) minorBlockHeaderSize) minor.size
    if diff ≥ add size minorBlockHeaderSize then
      let new := add (add min minorBlockHeaderSize) minor.size
      let h ← setMinor h new (placedMinor maj size (some min) (some next))
      let h ← updateMinor h next fun minor ↦ { minor with prev := some new }
      let h ← updateMinor h min fun minor ↦ { minor with next := some new }
      let h ← updateMajor h maj (addUsage size)
      pure (.inr (some (add new minorBlockHeaderSize), h))
    else pure (.inl next)

/-- CASES 2 to 4: a place for the block in the major, and none when no gap is large enough.  A
major has fewer minors than bytes, so the loop ends before its turns are used up. -/
def placeBlock (h : Heap) (maj size : ℕ) : Except HeapFault (Option ℕ × Heap) := do
  let major ← getMajor h maj
  match major.first with
  -- CASE 2: It's a brand new block.
  | none =>
    let min := add maj majorBlockHeaderSize
    let h ← setMinor h min (placedMinor maj size none none)
    let h ← updateMajor h maj fun major ↦ addUsage size { major with first := some min }
    pure (some (add min minorBlockHeaderSize), h)
  | some first =>
    -- CASE 3: Block in use and enough space at the start of the block.
    let diff := sub (sub first maj) majorBlockHeaderSize
    if diff ≥ add size minorBlockHeaderSize then
      let min := add maj majorBlockHeaderSize
      let h ← updateMinor h first fun minor ↦ { minor with prev := some min }
      let h ← setMinor h min (placedMinor maj size none (some first))
      let h ← updateMajor h maj fun major ↦ addUsage size { major with first := some min }
      pure (some (add min minorBlockHeaderSize), h)
    -- CASE 4: There is enough space in this block. But is it contiguous?
    else loop (gapBody h maj size) .turns major.size first

/-- Where the search for a place is. -/
structure Search where
  heap : Heap
  maj : ℕ
  bestSize : ℕ
  startedWithBestbet : Bool

/-- `maj->next = major_block_create(...); maj->next->prev = maj;` -/
def appendMajor (h : Heap) (maj size base : ℕ) : Except HeapFault Heap := do
  let h ← majorBlockCreate h size base
  let h ← updateMajor h maj fun major ↦ { major with next := some base }
  updateMajor h base fun major ↦ { major with prev := some maj }

/-- The end of the list of majors is reached in a search that started at the best bet. -/
def restart (s : Search) : Search ⊕ (Option ℕ × Heap) :=
  match s.heap.root with
  | some root => .inl { s with maj := root, startedWithBestbet := false }
  | none => .inr (none, s.heap)

/-- CASES 2 to 5: place the block in this major or go on with the next one. -/
def fillMajor (size base : ℕ) (s : Search) :
    Except HeapFault (Search ⊕ (Option ℕ × Heap)) := do
  match ← placeBlock s.heap s.maj size with
  | (some pointer, h) => pure (.inr (some pointer, h))
  | (none, h) =>
    -- CASE 5: Block full! Ensure next block and loop.
    let major ← getMajor h s.maj
    match major.next with
    | some next => pure (.inl { s with heap := h, maj := next })
    | none =>
      if s.startedWithBestbet then pure (restart { s with heap := h })
      else do
        let h ← appendMajor h s.maj size base
        pure (.inl { s with heap := h, maj := base })

/-- A major with more memory than the best bet is remembered. -/
def rememberBest (s : Search) (majDiff : ℕ) : Search :=
  if s.bestSize < majDiff then
    { s with heap := { s.heap with best := some s.maj }, bestSize := majDiff }
  else s

/-- CASES 1 to 5, for a major with `majDiff` free bytes. -/
def tryMajor (size base majDiff : ℕ) (next : Option ℕ) (s : Search) :
    Except HeapFault (Search ⊕ (Option ℕ × Heap)) :=
  -- CASE 1:  There is not enough space in this major block.
  if majDiff < add size minorBlockHeaderSize then
    match next with
    | some next => pure (.inl { s with maj := next })
    | none =>
      if s.startedWithBestbet then pure (restart s)
      else do
        let h ← appendMajor s.heap s.maj size base
        fillMajor size base { s with heap := h, maj := base }
  else fillMajor size base s

/-- One turn of the loop over the majors. -/
def searchBody (size base : ℕ) (s : Search) :
    Except HeapFault (Search ⊕ (Option ℕ × Heap)) := do
  let major ← getMajor s.heap s.maj
  let majDiff := sub major.size major.usage
  tryMajor size base majDiff major.next (rememberBest s majDiff)

/-- The first major, and the best bet when it has room for the block. -/
def searchStart (h : Heap) (size root : ℕ) : Except HeapFault Search :=
  match h.best with
  | none => pure { heap := h, maj := root, bestSize := 0, startedWithBestbet := false }
  | some best => do
    let major ← getMajor h best
    let bestSize := sub major.size major.usage
    if bestSize > add size minorBlockHeaderSize then
      pure { heap := h, maj := best, bestSize, startedWithBestbet := true }
    else pure { heap := h, maj := root, bestSize, startedWithBestbet := false }

/-- `heap_alloc_acquire` behind its test for zero.  The search goes over the majors twice at most,
and once more over the one that it appends. -/
def acquireAligned (h : Heap) (size base : ℕ) : Except HeapFault (Option ℕ × Heap) := do
  let (root, h) ← (match h.root with
    | some root => pure (root, h)
    | none => do
      let h ← majorBlockCreate h size base
      pure (base, { h with root := some base }) : Except HeapFault (ℕ × Heap))
  let s ← searchStart h size root
  loop (searchBody size base) .turns (2 * h.held.length + 2) s

def heapAllocAcquire (h : Heap) (reqSize base : ℕ) : Except HeapFault (Option ℕ × Heap) :=
  let size := heapAlign reqSize
  if size = 0 then acquireAligned h (heapAlign 1) base
  else acquireAligned h size base

/-- A major without blocks is taken out of the list and given back. -/
def dropMajor (h : Heap) (maj : ℕ) (major : HeapMajor) : Except HeapFault Heap := do
  let h := { h with
    root := if h.root = some maj then major.next else h.root
    best := if h.best = some maj then none else h.best }
  let h ← updateMajorAt h major.prev fun prev ↦ { prev with next := major.next }
  let h ← updateMajorAt h major.next fun next ↦ { next with prev := major.prev }
  embedMemRelease h maj (mul major.pages pageSize)

/-- A major that has got room may be a better bet.  The sizes are compared as `int`s. -/
def improveBest (h : Heap) (maj : ℕ) (major : HeapMajor) : Except HeapFault Heap :=
  match h.best with
  | none => pure h
  | some best => do
    let bestMajor ← getMajor h best
    let bestSize := toInt (sub bestMajor.size bestMajor.usage)
    let majSize := toInt (sub major.size major.usage)
    if majSize > bestSize then pure { h with best := some maj } else pure h

/-- The block is taken out of its major. -/
def unlinkMinor (h : Heap) (min : ℕ) (minor : HeapMinor) : Except HeapFault Heap := do
  let maj := minor.block
  let h ← updateMajor h maj fun major ↦
    { major with usage := sub major.usage (add minor.size minorBlockHeaderSize) }
  let h ← updateMinor h min fun minor ↦ { minor with magic := allocHeapDead }
  let h ← updateMinorAt h minor.next fun next ↦ { next with prev := minor.prev }
  let h ← updateMinorAt h minor.prev fun prev ↦ { prev with next := minor.next }
  if minor.prev = none then
    updateMajor h maj fun major ↦ { major with first := minor.next }
  else pure h

def heapAllocRelease (h : Heap) (pointer : Option ℕ) : Except HeapFault Heap :=
  match pointer with
  | none => pure h
  | some ptr => do
    let min := sub ptr minorBlockHeaderSize
    let minor ← getMinor h min
    checkMinorMagic minor
    let maj := minor.block
    let h ← unlinkMinor h min minor
    let major ← getMajor h maj
    if major.first = none then dropMajor h maj major else improveBest h maj major

/-- A block that has to grow gets another place. -/
def moveBlock (h : Heap) (ptr min size base : ℕ) : Except HeapFault (Option ℕ × Heap) := do
  let (newPtr, h) ← heapAllocAcquire h size base
  let minor ← getMinor h min
  let h := memCpy h (newPtr.getD 0) ptr minor.reqSize
  let h ← heapAllocRelease h (some ptr)
  pure (newPtr, h)

def heapAllocResize (h : Heap) (pointer : Option ℕ) (size base : ℕ) :
    Except HeapFault (Option ℕ × Heap) :=
  let size := heapAlign size
  if size = 0 then do
    let h ← heapAllocRelease h pointer
    pure (none, h)
  else
    match pointer with
    | none => heapAllocAcquire h size base
    | some ptr => do
      let min := sub ptr minorBlockHeaderSize
      let minor ← getMinor h min
      checkMinorMagic minor
      if minor.size ≥ size then
        let h ← updateMinor h min fun minor ↦ { minor with reqSize := size }
        pure (some ptr, h)
      else moveBlock h ptr min size base

def heapAllocInit (size : NodeSize) (bytes : ℕ → UInt8) : Heap :=
  { size
    root := none
    best := none
    majors := fun _ ↦ none
    minors := fun _ ↦ none
    bytes
    held := []
    acquired := []
    released := [] }

end Brutal.Alloc
