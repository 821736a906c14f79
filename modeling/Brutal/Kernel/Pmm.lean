import Brutal.Base.Abi
import Brutal.Boot.Handover
import Brutal.Ds.Bits

/-!
# The physical memory manager

`kernel/pmm.c`: one bit for each page of the usable range, two hints where the next search should
start, and two counters.  Positions in the bitmap are relative to the base of the usable range.
-/

namespace Brutal.Kernel

open Base Boot Ds Lib

variable {result : PmmResult} {upper : Bool} {pages : USizeRange} {memoryMap : HandoverMmap}

/-- The static variables of `pmm.c`. -/
structure Pmm where
  bitmap : Bits
  bestbetUpper : UInt64
  bestbetLower : UInt64
  availableMemory : UInt64
  usedMemory : UInt64
  usableRange : USizeRange

/-- `MMAP_IO_BASE` -/
def mmapIoBase : UInt64 := 0xffff800000000000

def mmapPhysToIo (physAddr : UInt64) : UInt64 := physAddr + mmapIoBase

def mmapIoToPhys (ioAddr : UInt64) : UInt64 := ioAddr - mmapIoBase

/-- `PmmResult` -/
abbrev PmmResult := Except BrResult USizeRange

def addr2pages (pmm : Pmm) (range : USizeRange) : USizeRange :=
  rangeDiv { range with base := range.base - pmm.usableRange.base } memPageSize

def pages2addr (pmm : Pmm) (range : USizeRange) : USizeRange :=
  let range := rangeMul range memPageSize
  { range with base := range.base + pmm.usableRange.base }

/-- `pmm_used` -/
def pmmUsed (pmm : Pmm) (range : USizeRange) : Except Fault (PmmResult × Pmm) := do
  assertTruth (memIsRangePageAligned range)
  let pageRange := addr2pages pmm range
  let (bitmap, count) ← bitsSetRange pmm.bitmap pageRange true
  pure (.ok range, { pmm with bitmap, usedMemory := pmm.usedMemory + count * memPageSize })

/-- `pmm_unused` -/
def pmmUnused (pmm : Pmm) (range : USizeRange) : Except Fault (PmmResult × Pmm) := do
  assertTruth (memIsRangePageAligned range)
  if range.base == 0 then pure (.error .badAddress, pmm)
  else
    let pageRange := addr2pages pmm range
    let (bitmap, count) ← bitsSetRange pmm.bitmap pageRange false
    pure (.ok range,
      { pmm with
        bitmap
        usedMemory := pmm.usedMemory - count * memPageSize
        bestbetUpper :=
          if pmm.bestbetUpper < rangeEnd pageRange then rangeEnd pageRange - 1
          else pmm.bestbetUpper
        bestbetLower :=
          if pmm.bestbetLower > pageRange.base then pageRange.base else pmm.bestbetLower })

/-- The two searches of `pmm_alloc`, the second one over the whole bitmap. -/
def searchPages (pmm : Pmm) (pageCount : UInt64) (upper : Bool) :
    Except Fault (USizeRange × Pmm) := do
  let pageRange ← bitsFindFree pmm.bitmap (if upper then pmm.bestbetUpper else pmm.bestbetLower)
    pageCount upper
  if rangeEmpty pageRange then
    let pmm := if upper then { pmm with bestbetUpper := -1 } else { pmm with bestbetLower := 0 }
    let pageRange ← bitsFindFree pmm.bitmap (if upper then -1 else 0) pageCount upper
    pure (pageRange, pmm)
  else pure (pageRange, pmm)

/-- `pmm_alloc` -/
def pmmAlloc (pmm : Pmm) (size : UInt64) (upper : Bool) : Except Fault (PmmResult × Pmm) := do
  assertTruth (memIsSizePageAligned size)
  let pageCount := size / memPageSize
  let (pageRange, pmm) ← searchPages pmm pageCount upper
  if rangeEmpty pageRange then .error .panic
  else
    let pmm :=
      if upper then { pmm with bestbetUpper := pageRange.base }
      else { pmm with bestbetLower := rangeEnd pageRange }
    let (bitmap, _) ← bitsSetRange pmm.bitmap pageRange true
    let pmmRange := pages2addr pmm pageRange
    pure (.ok pmmRange, { pmm with bitmap, usedMemory := pmm.usedMemory + pmmRange.size })

/-- The pages at the start of memory that nobody gets. -/
def firstPages (base : UInt64) : USizeRange := ⟨base, 0x4000⟩

/-- `pmm_bitmap_init`, where `memory data` are the bits behind a pointer at boot.  The state before
it is the initial value of the static variables. -/
def pmmBitmapInit (memory : UInt64 → ℕ → Bool) (memoryMap : HandoverMmap) : Except Fault Pmm :=
  match memoryMap.entries.head?, memoryMap.entries.getLast? with
  | some first, some last =>
    let usableRange := rangeFromStartAndEnd first.range.base (rangeEnd last.range)
    let bitmapSize := alignUp (usableRange.size / memPageSize / 8) memPageSize
    let entry? := memoryMap.entries.find? fun entry ↦
      entry.type = .free && entry.range.size > bitmapSize &&
        !rangeColide entry.range (firstPages 0)
    let bitmap : Bits :=
      match entry? with
      | some entry =>
        let data := mmapPhysToIo entry.range.base
        { data, size := bitmapSize, bit := memory data }
      | none => { data := 0, size := 0, bit := memory 0 }
    .ok
      { bitmap := bitsFill bitmap true
        bestbetUpper := 0
        bestbetLower := -1
        availableMemory := 0
        usedMemory := 0
        usableRange }
  | _, _ => .error .outOfBounds

/-- One iteration of the loop of `pmm_mmap_load`. -/
def loadEntry (pmm : Pmm) (entry : HandoverMmapEntry) : Except Fault Pmm :=
  match entry.type with
  | .free => do
    let pmm := { pmm with usedMemory := pmm.usedMemory + entry.range.size }
    let (_, pmm) ← pmmUnused pmm entry.range
    pure { pmm with availableMemory := pmm.availableMemory + entry.range.size }
  | .used =>
    .ok
      { pmm with
        availableMemory := pmm.availableMemory + entry.range.size
        usedMemory := pmm.usedMemory + entry.range.size }
  | _ => .ok pmm

/-- `pmm_mmap_load` -/
def pmmMmapLoad (pmm : Pmm) (memoryMap : HandoverMmap) : Except Fault Pmm := do
  let pmm ← memoryMap.entries.foldlM loadEntry pmm
  let (_, pmm) ← pmmUsed pmm (firstPages pmm.usableRange.base)
  pure pmm

/-- `pmm_initialize` -/
def pmmInitialize (memory : UInt64 → ℕ → Bool) (memoryMap : HandoverMmap) : Except Fault Pmm := do
  let pmm ← pmmBitmapInit memory memoryMap
  let pmm ← pmmMmapLoad pmm memoryMap
  let pmm ←
    if pmm.usableRange.base > 0 then do
      let (_, pmm) ← pmmUsed pmm ⟨pmm.usableRange.base, memPageSize⟩
      pure pmm
    else pure pmm
  let (_, pmm) ← pmmUsed pmm ⟨mmapIoToPhys pmm.bitmap.data, pmm.bitmap.size⟩
  pure pmm

variable {pmm pmm' : Pmm} {range : USizeRange}

theorem addr2pages_lt (pmm : Pmm) (range : USizeRange) :
    (addr2pages pmm range).base.toNat < 2 ^ 52 ∧ (addr2pages pmm range).size.toNat < 2 ^ 52 := by
  have hpage : memPageSize.toNat = 4096 := rfl
  have hbase := (range.base - pmm.usableRange.base).toNat_lt
  have hsize := range.size.toNat_lt
  simp only [addr2pages, rangeDiv, UInt64.toNat_div, hpage]
  omega

theorem addr2pages_bounded (pmm : Pmm) (range : USizeRange) : (addr2pages pmm range).Bounded := by
  have h := addr2pages_lt pmm range
  unfold USizeRange.Bounded
  omega

/-- The calls do not move the usable range and do not touch memory behind the bitmap. -/
structure SameLayout (pmm pmm' : Pmm) : Prop where
  usableRange_eq : pmm'.usableRange = pmm.usableRange
  data_eq : pmm'.bitmap.data = pmm.bitmap.data
  size_eq : pmm'.bitmap.size = pmm.bitmap.size
  available_eq : pmm'.availableMemory = pmm.availableMemory

/-- What a call that gives a value to the bits of some pages does. -/
structure Marks (pmm : Pmm) (pages : USizeRange) (value : Bool) (count : UInt64) (pmm' : Pmm) :
    Prop where
  layout : SameLayout pmm pmm'
  inside : pages.finish ≤ (bitsLen pmm.bitmap).toNat
  marked : RangeSet pmm.bitmap pages.base.toNat pages.size.toNat value pmm'.bitmap count
  used_eq : pmm'.usedMemory =
    if value then pmm.usedMemory + count * memPageSize else pmm.usedMemory - count * memPageSize

theorem pmmUsed_spec (h : pmmUsed pmm range = .ok (result, pmm')) :
    memIsRangePageAligned range = true ∧
      ∃ count, Marks pmm (addr2pages pmm range) true count pmm' := by
  simp only [pmmUsed, bind_eq_ok, assertTruth_eq_ok, pure_eq_ok, Prod.exists] at h
  obtain ⟨_, haligned, bitmap, count, hset, h⟩ := h
  cases h
  obtain ⟨hinside, hmarked⟩ := bitsSetRange_spec (addr2pages_bounded pmm range) hset
  exact ⟨haligned, count, ⟨rfl, hmarked.data_eq, hmarked.size_eq, rfl⟩, hinside, hmarked, rfl⟩

theorem pmmUnused_spec (h : pmmUnused pmm range = .ok (result, pmm')) :
    memIsRangePageAligned range = true ∧
      (pmm' = pmm ∨ ∃ count, Marks pmm (addr2pages pmm range) false count pmm') := by
  simp only [pmmUnused, bind_eq_ok, assertTruth_eq_ok] at h
  obtain ⟨_, haligned, h⟩ := h
  refine ⟨haligned, ?_⟩
  split at h
  next =>
    cases h
    exact Or.inl rfl
  next =>
    simp only [bind_eq_ok, pure_eq_ok, Prod.exists] at h
    obtain ⟨bitmap, count, hset, h⟩ := h
    cases h
    obtain ⟨hinside, hmarked⟩ := bitsSetRange_spec (addr2pages_bounded pmm range) hset
    exact Or.inr ⟨count, ⟨rfl, hmarked.data_eq, hmarked.size_eq, rfl⟩, hinside, hmarked, rfl⟩

/-- What a search of the bitmap that is not empty-handed found. -/
theorem bitsFindFree_pages {start pageCount : UInt64}
    (h : bitsFindFree pmm.bitmap start pageCount upper = .ok pages)
    (hnonempty : rangeEmpty pages = false) :
    pages.size = pageCount ∧ AllClear pmm.bitmap pages ∧ pages.Bounded := by
  obtain ⟨hclear, hfinish, hsize⟩ := bitsFindFree_spec h
  have hlen := bitsLen_lt pmm.bitmap
  have hbounded : pages.Bounded := hfinish.trans_lt hlen
  rcases hsize with hsize | hsize
  · simp [rangeEmpty, hsize] at hnonempty
  · exact ⟨hsize, hclear, hbounded⟩

/-- The searches only move the hints. -/
theorem searchPages_spec {pageCount : UInt64}
    (h : searchPages pmm pageCount upper = .ok (pages, pmm')) :
    (∃ start, bitsFindFree pmm.bitmap start pageCount upper = .ok pages) ∧
      ∃ bestbetUpper bestbetLower, pmm' = { pmm with bestbetUpper, bestbetLower } := by
  simp only [searchPages, bind_eq_ok] at h
  obtain ⟨first, hfirst, h⟩ := h
  split at h
  next =>
    simp only [bind_eq_ok, pure_eq_ok, Prod.mk.injEq] at h
    obtain ⟨second, hsecond, rfl, rfl⟩ := h
    cases upper with
    | false => exact ⟨⟨_, hsecond⟩, _, _, rfl⟩
    | true => exact ⟨⟨_, hsecond⟩, _, _, rfl⟩
  next =>
    cases h
    exact ⟨⟨_, hfirst⟩, _, _, rfl⟩

theorem pmmAlloc_spec {size : UInt64} (h : pmmAlloc pmm size upper = .ok (result, pmm')) :
    memIsSizePageAligned size = true ∧ ∃ pages count, result = .ok (pages2addr pmm pages) ∧
      pages.size = size / memPageSize ∧ AllClear pmm.bitmap pages ∧
      Marks pmm pages true count pmm' := by
  simp only [pmmAlloc, bind_eq_ok, assertTruth_eq_ok, Prod.exists] at h
  obtain ⟨_, haligned, pages, searched, hsearch, h⟩ := h
  obtain ⟨⟨start, hfound⟩, bestbetUpper, bestbetLower, rfl⟩ := searchPages_spec hsearch
  rw [ite_error_eq_ok] at h
  obtain ⟨hnonempty, h⟩ := h
  obtain ⟨hsize, hclear, hbounded⟩ := bitsFindFree_pages hfound (Bool.eq_false_iff.2 hnonempty)
  simp only [bind_eq_ok, pure_eq_ok, Prod.exists, Prod.mk.injEq] at h
  obtain ⟨bitmap, count, hset, rfl, rfl⟩ := h
  have hbitmap : bitsSetRange pmm.bitmap pages true = .ok (bitmap, count) := by
    cases upper <;> exact hset
  obtain ⟨hinside, hmarked⟩ := bitsSetRange_spec hbounded hbitmap
  have hcount : count = pages.size := by
    rw [← UInt64.toNat_inj]
    apply hmarked.count_eq
    intro j hlow hhigh
    simp [hclear j hlow hhigh]
  refine ⟨haligned, pages, count, ?_, hsize, hclear, ?_, hinside, hmarked, ?_⟩
  · cases upper <;> rfl
  · cases upper <;> exact ⟨rfl, hmarked.data_eq, hmarked.size_eq, rfl⟩
  · rw [hcount]
    cases upper <;> rfl

/-- A call as it is seen from outside, with the range that `pmm_alloc` returned, or a change of the
memory behind the bitmap, which the manager does not own. -/
inductive PmmCall where
  | alloc (size : UInt64) (upper : Bool) (range : USizeRange)
  | used (range : USizeRange)
  | unused (range : USizeRange)
  | memory (bit : ℕ → Bool)

/-- The bitmap after the memory behind it changed. -/
def overwriteBehind (bits : Bits) (bit : ℕ → Bool) : Bits :=
  { bits with bit := fun i ↦ if i < (bitsLen bits).toNat then bits.bit i else bit i }

def PmmStep (pmm : Pmm) (call : PmmCall) (pmm' : Pmm) : Prop :=
  match call with
  | .alloc size upper range => pmmAlloc pmm size upper = .ok (.ok range, pmm')
  | .used range => ∃ result, pmmUsed pmm range = .ok (result, pmm')
  | .unused range => ∃ result, pmmUnused pmm range = .ok (result, pmm')
  | .memory bit => pmm' = { pmm with bitmap := overwriteBehind pmm.bitmap bit }

/-- Everything a call can do to the bitmap and the counters. -/
theorem PmmStep.cases {call : PmmCall} (h : PmmStep pmm call pmm') :
    (∃ size upper pages count, call = .alloc size upper (pages2addr pmm pages) ∧
        memIsSizePageAligned size = true ∧ pages.size = size / memPageSize ∧
        AllClear pmm.bitmap pages ∧ Marks pmm pages true count pmm') ∨
      (∃ range count, call = .used range ∧ memIsRangePageAligned range = true ∧
        Marks pmm (addr2pages pmm range) true count pmm') ∨
      (∃ range, call = .unused range ∧ memIsRangePageAligned range = true ∧
        (pmm' = pmm ∨ ∃ count, Marks pmm (addr2pages pmm range) false count pmm')) ∨
      ∃ bit, pmm' = { pmm with bitmap := overwriteBehind pmm.bitmap bit } := by
  cases call with
  | alloc size upper range =>
    obtain ⟨haligned, pages, count, hresult, hsize, hclear, hmarks⟩ := pmmAlloc_spec h
    cases hresult
    exact Or.inl ⟨size, upper, pages, count, rfl, haligned, hsize, hclear, hmarks⟩
  | used range =>
    obtain ⟨result, h⟩ := h
    obtain ⟨haligned, count, hmarks⟩ := pmmUsed_spec h
    exact Or.inr (Or.inl ⟨range, count, rfl, haligned, hmarks⟩)
  | unused range =>
    obtain ⟨result, h⟩ := h
    obtain ⟨haligned, hmarks⟩ := pmmUnused_spec h
    exact Or.inr (Or.inr (Or.inl ⟨range, rfl, haligned, hmarks⟩))
  | memory bit => exact Or.inr (Or.inr (Or.inr ⟨bit, h⟩))

/-- The used memory and what the clear bits stand for. -/
def accounted (pmm : Pmm) : UInt64 :=
  pmm.usedMemory + memPageSize * UInt64.ofNat (clearBits pmm.bitmap)

/-- The counters agree with the bitmap, modulo `2 ^ 64`. -/
def Accounts (pmm : Pmm) : Prop := pmm.availableMemory = accounted pmm

theorem Marks.accounted_eq {value : Bool} {count : UInt64} (h : Marks pmm pages value count pmm') :
    accounted pmm' = accounted pmm := by
  have hclear := h.marked.clear_eq
  have hused := h.used_eq
  unfold accounted
  cases value with
  | false =>
    simp only [Bool.false_eq_true, ↓reduceIte] at hclear hused
    rw [hused, hclear, UInt64.ofNat_add, UInt64.ofNat_toNat]
    grind
  | true =>
    simp only [↓reduceIte] at hclear hused
    rw [hused, ← hclear, UInt64.ofNat_add, UInt64.ofNat_toNat]
    grind

theorem clearBits_overwriteBehind (bits : Bits) (bit : ℕ → Bool) :
    clearBits (overwriteBehind bits bit) = clearBits bits := by
  unfold clearBits
  rw [Nat.count_eq_card_filter_range, Nat.count_eq_card_filter_range]
  congr 1
  apply Finset.filter_congr
  intro i hi
  have hlt : i < (bitsLen bits).toNat := Finset.mem_range.1 hi
  simp only [overwriteBehind, if_pos hlt]

/-- No call changes what is available or what is accounted for. -/
theorem PmmStep.accounted_eq {call : PmmCall} (h : PmmStep pmm call pmm') :
    SameLayout pmm pmm' ∧ accounted pmm' = accounted pmm := by
  rcases h.cases with ⟨_, _, _, _, _, _, _, _, hmarks⟩ | ⟨_, _, _, _, hmarks⟩ |
    ⟨_, _, _, rfl | ⟨_, hmarks⟩⟩ | ⟨bit, rfl⟩
  · exact ⟨hmarks.layout, hmarks.accounted_eq⟩
  · exact ⟨hmarks.layout, hmarks.accounted_eq⟩
  · exact ⟨⟨rfl, rfl, rfl, rfl⟩, rfl⟩
  · exact ⟨hmarks.layout, hmarks.accounted_eq⟩
  · refine ⟨⟨rfl, rfl, rfl, rfl⟩, ?_⟩
    rw [accounted, clearBits_overwriteBehind]
    rfl

theorem run_accounts {calls : List PmmCall} (hrun : Run PmmStep pmm calls pmm')
    (hpmm : Accounts pmm) : Accounts pmm' := by
  apply hrun.invariant _ hpmm
  intro s call t hs hstep
  obtain ⟨hlayout, haccounted⟩ := hstep.accounted_eq
  rw [Accounts, hlayout.available_eq, haccounted]
  exact hs

/-- A freshly filled bitmap has no clear bit. -/
theorem clearBits_bitsFill_true (bits : Bits) : clearBits (bitsFill bits true) = 0 := by
  rw [clearBits, Nat.count_eq_card_filter_range, Finset.card_eq_zero, Finset.filter_eq_empty_iff]
  intro i hi
  have hlt : i < (bitsLen bits).toNat := Finset.mem_range.1 hi
  simp [bitsFill, hlt]

/-- The bitmap covers at most the pages of the address space. -/
theorem bitmapSize_le (size : UInt64) :
    (alignUp (size / memPageSize / 8) memPageSize * 8).toNat ≤ 2 ^ 52 := by
  have hsize := size.toNat_lt
  have hpage : memPageSize.toNat = 4096 := rfl
  have height : (8 : UInt64).toNat = 8 := rfl
  have hone : (1 : UInt64).toNat = 1 := rfl
  have hbytes : (size / memPageSize / 8).toNat < 2 ^ 49 := by
    rw [UInt64.toNat_div, UInt64.toNat_div, hpage, height]
    omega
  have hsum : (size / memPageSize / 8 + memPageSize - 1).toNat < 2 ^ 49 + 4095 := by
    rw [UInt64.toNat_sub, UInt64.toNat_add, hpage, hone]
    omega
  have halign : (alignUp (size / memPageSize / 8) memPageSize).toNat ≤ 2 ^ 49 := by
    rw [alignUp, toNat_and_not_mask memPageSize_toNat]
    omega
  rw [UInt64.toNat_mul, height]
  omega

theorem pmmBitmapInit_spec {memory : UInt64 → ℕ → Bool}
    (h : pmmBitmapInit memory memoryMap = .ok pmm) :
    Accounts pmm ∧ (bitsLen pmm.bitmap).toNat ≤ 2 ^ 52 := by
  unfold pmmBitmapInit at h
  split at h
  next first last _ _ =>
    cases h
    refine ⟨?_, ?_⟩
    · rw [Accounts, accounted, clearBits_bitsFill_true]
      rfl
    · rw [bitsLen_bitsFill]
      split
      · exact bitmapSize_le _
      · exact Nat.zero_le _
  next => cases h

/-- One entry of the map adds the same to both sides. -/
theorem loadEntry_accounts {entry : HandoverMmapEntry} (h : loadEntry pmm entry = .ok pmm')
    (hpmm : Accounts pmm) : Accounts pmm' := by
  unfold Accounts at hpmm
  unfold loadEntry at h
  split at h
  next =>
    simp only [bind_eq_ok, pure_eq_ok, Prod.exists] at h
    obtain ⟨result, unused, hunused, rfl⟩ := h
    have hstep : PmmStep _ (.unused entry.range) unused := ⟨result, hunused⟩
    obtain ⟨hlayout, haccounted⟩ := hstep.accounted_eq
    have havailable := hlayout.available_eq
    unfold Accounts accounted at *
    simp only at haccounted havailable ⊢
    rw [haccounted, havailable, hpmm]
    grind
  next =>
    cases h
    unfold Accounts accounted at *
    simp only
    rw [hpmm]
    grind
  next =>
    cases h
    exact hpmm

/-- The manager after `pmm_mmap_load`. -/
def pmmLoad (memory : UInt64 → ℕ → Bool) (memoryMap : HandoverMmap) : Except Fault Pmm := do
  let pmm ← pmmBitmapInit memory memoryMap
  pmmMmapLoad pmm memoryMap

theorem pmmMmapLoad_accounts (h : pmmMmapLoad pmm memoryMap = .ok pmm') (hpmm : Accounts pmm) :
    Accounts pmm' := by
  simp only [pmmMmapLoad, bind_eq_ok, pure_eq_ok, Prod.exists] at h
  obtain ⟨loaded, hload, result, used, hused, rfl⟩ := h
  have hloaded : Accounts loaded :=
    (Run.ofFold hload).invariant (fun _ _ _ hs hstep ↦ loadEntry_accounts hstep hs) hpmm
  have hstep : PmmStep loaded (.used (firstPages loaded.usableRange.base)) used :=
    ⟨result, hused⟩
  obtain ⟨hlayout, haccounted⟩ := hstep.accounted_eq
  rw [Accounts, hlayout.available_eq, haccounted]
  exact hloaded

/-- `pmm_initialize` goes on from `pmm_mmap_load` with calls of `pmm_used`, the last of which
reserves the bitmap. -/
theorem pmmInitialize_run {memory : UInt64 → ℕ → Bool}
    (h : pmmInitialize memory memoryMap = .ok pmm) :
    ∃ loaded reserved calls, pmmLoad memory memoryMap = .ok loaded ∧
      Run PmmStep loaded calls reserved ∧ (∀ call ∈ calls, ∃ range, call = .used range) ∧
      PmmStep reserved (.used ⟨mmapIoToPhys reserved.bitmap.data, reserved.bitmap.size⟩) pmm := by
  simp only [pmmInitialize, bind_eq_ok] at h
  obtain ⟨init, hinit, loaded, hload, h⟩ := h
  have hloaded : pmmLoad memory memoryMap = .ok loaded := by
    rw [pmmLoad, hinit]
    exact hload
  split at h
  next =>
    simp only [bind_eq_ok, pure_eq_ok, Prod.exists] at h
    obtain ⟨result, based, hbased, _, rfl, result', last, hlast, rfl⟩ := h
    exact ⟨loaded, based, [.used _], hloaded, .cons ⟨result, hbased⟩ (.nil _), by simp,
      result', hlast⟩
  next =>
    simp only [bind_eq_ok, pure_eq_ok, Prod.exists] at h
    obtain ⟨based, rfl, result', last, hlast, rfl⟩ := h
    exact ⟨loaded, loaded, [], hloaded, .nil _, by simp, result', hlast⟩

/-- After `pmm_mmap_load`, and from there on after every call, the available memory is the used
memory and the clear pages together. -/
theorem pmm_accounts {memory : UInt64 → ℕ → Bool} {memoryMap : HandoverMmap}
    {loaded : Pmm} {calls : List PmmCall} (hload : pmmLoad memory memoryMap = .ok loaded)
    (hrun : Run PmmStep loaded calls pmm) :
    pmm.availableMemory =
      pmm.usedMemory + memPageSize * UInt64.ofNat (clearBits pmm.bitmap) := by
  simp only [pmmLoad, bind_eq_ok] at hload
  obtain ⟨init, hinit, hload⟩ := hload
  have haccounts := pmmMmapLoad_accounts hload (pmmBitmapInit_spec hinit).1
  exact run_accounts hrun haccounts

/-- A map of eight free pages, the first of which gets the bitmap. -/
def eightPages : HandoverMmap := ⟨[⟨⟨0x10000, 0x8000⟩, .free⟩]⟩

/-- A page is allocated and given back. -/
theorem pmm_accounts_eightPages :
    ∃ loaded pmm, pmmLoad (fun _ _ ↦ false) eightPages = .ok loaded ∧
      Run PmmStep loaded
        [.alloc 0x1000 false ⟨0x14000, 0x1000⟩, .unused ⟨0x14000, 0x1000⟩] pmm ∧
      pmm.availableMemory =
        pmm.usedMemory + memPageSize * UInt64.ofNat (clearBits pmm.bitmap) := by
  obtain ⟨loaded, hload⟩ : ∃ loaded, pmmLoad (fun _ _ ↦ false) eightPages = .ok loaded :=
    ⟨_, rfl⟩
  obtain ⟨pmm, hrun⟩ : ∃ pmm, Run PmmStep loaded
      [.alloc 0x1000 false ⟨0x14000, 0x1000⟩, .unused ⟨0x14000, 0x1000⟩] pmm := by
    cases hload
    exact ⟨_, .cons (show pmmAlloc _ _ _ = .ok (_, _) from rfl) (.cons ⟨_, rfl⟩ (.nil _))⟩
  exact ⟨loaded, pmm, hload, hrun, pmm_accounts hload hrun⟩

end Brutal.Kernel
