import Brutal.Kernel.PmmExclusive

/-!
# Virtual memory

`kernel/x86_64/vmm.c` and `kernel/x86_64/paging.h`.  A page table is named by the address at which
the kernel sees it, in the window at `MMAP_IO_BASE`; the memory of the tables is part of the state,
and so is the physical memory manager that new tables come from.
-/

namespace Brutal.Kernel

open Base Boot Ds Lib

/-- `PmlEntry` -/
structure PmlEntry where
  present : Bool
  readWrite : Bool
  user : Bool
  pageWriteThrough : Bool
  cachingDisable : Bool
  accessed : Bool
  dirty : Bool
  hugePage : Bool
  globalPage : Bool
  available : UInt8
  physical : UInt64
deriving DecidableEq, Repr

/-- `BrMemoryFlags` -/
abbrev BrMemoryFlags := UInt64

def brMemWritable : BrMemoryFlags := (1 : UInt64) <<< 1

def brMemUser : BrMemoryFlags := (1 : UInt64) <<< 3

def brMemLower : BrMemoryFlags := (1 : UInt64) <<< 4

def brMemDma : BrMemoryFlags := (1 : UInt64) <<< 5

def brMemGlobal : BrMemoryFlags := (1 : UInt64) <<< 6

def brMemWriteThrought : BrMemoryFlags := (1 : UInt64) <<< 7

def pmlMakeEntry (physical : UInt64) (flags : BrMemoryFlags) : PmlEntry where
  physical := physical >>> 12
  user := flags &&& brMemUser != 0
  readWrite := flags &&& brMemWritable != 0
  present := true
  pageWriteThrough := flags &&& brMemWriteThrought != 0
  cachingDisable := false
  accessed := false
  dirty := false
  hugePage := false
  globalPage := flags &&& brMemGlobal != 0
  available := 0

def pmlCleanEntry : PmlEntry where
  physical := 0
  user := false
  readWrite := false
  present := false
  pageWriteThrough := false
  cachingDisable := false
  accessed := false
  dirty := false
  hugePage := false
  globalPage := false
  available := 0

def pmlGetAddr (pml : PmlEntry) : UInt64 := pml.physical <<< 12

/-- `PMLX_GET_INDEX` -/
def pmlxGetIndex (addr level : UInt64) : UInt64 :=
  (addr &&& ((0x1ff : UInt64) <<< (12 + level * 9))) >>> (12 + level * 9)

def pml4GetIndex (addr : UInt64) : UInt64 := pmlxGetIndex addr 3

def pml3GetIndex (addr : UInt64) : UInt64 := pmlxGetIndex addr 2

def pml2GetIndex (addr : UInt64) : UInt64 := pmlxGetIndex addr 1

def pml1GetIndex (addr : UInt64) : UInt64 := pmlxGetIndex addr 0

/-- The page tables in memory, the kernel's own top table and the physical memory manager. -/
structure Vmm where
  tables : UInt64 → ℕ → PmlEntry
  kpml : UInt64
  pmm : Pmm

/-- `VmmResult`, and `HeapResult`, which is the same type. -/
abbrev VmmResult := Except BrResult USizeRange

/-- `heap_alloc_impl` -/
def heapAllocImpl (pmm : Pmm) (size : UInt64) (higher : Bool) : Except Fault (VmmResult × Pmm) :=
  tryBind (pmmAlloc pmm (alignUp size memPageSize) higher) fun pmmRange pmm ↦
    .ok (.ok { pmmRange with base := mmapPhysToIo pmmRange.base }, pmm)

/-- `heap_alloc` -/
def heapAlloc (pmm : Pmm) (size : UInt64) : Except Fault (VmmResult × Pmm) :=
  heapAllocImpl pmm size true

/-- `heap_alloc_lower` -/
def heapAllocLower (pmm : Pmm) (size : UInt64) : Except Fault (VmmResult × Pmm) :=
  heapAllocImpl pmm size false

/-- `heap_free` -/
def heapFree (pmm : Pmm) (range : USizeRange) : Except Fault (VmmResult × Pmm) :=
  tryBind (pmmUnused pmm { range with base := mmapIoToPhys range.base }) fun _ pmm ↦
    .ok (.ok range, pmm)

/-- Writing one entry of a table. -/
def setEntry (vmm : Vmm) (table : UInt64) (idx : ℕ) (entry : PmlEntry) : Vmm :=
  { vmm with
    tables := Function.update vmm.tables table (Function.update (vmm.tables table) idx entry) }

/-- `mem_set` of a whole table to zero. -/
def clearTable (vmm : Vmm) (table : UInt64) : Vmm :=
  { vmm with tables := Function.update vmm.tables table fun _ ↦ pmlCleanEntry }

/-- `vmm_get_pml` -/
def vmmGetPml (vmm : Vmm) (table : UInt64) (idx : ℕ) : VmmResult :=
  let entry := vmm.tables table idx
  if !entry.present then .error .badAddress
  else .ok ⟨mmapPhysToIo (pmlGetAddr entry), memPageSize⟩

/-- `vmm_get_pml_or_alloc` -/
def vmmGetPmlOrAlloc (vmm : Vmm) (table : UInt64) (idx : ℕ) (flags : BrMemoryFlags) :
    Except Fault (VmmResult × Vmm) :=
  let entry := vmm.tables table idx
  if entry.present then .ok (.ok ⟨mmapPhysToIo (pmlGetAddr entry), memPageSize⟩, vmm)
  else do
    let (result, pmm) ← heapAlloc vmm.pmm memPageSize
    let vmm := { vmm with pmm }
    match result with
    | .error err => pure (.error err, vmm)
    | .ok heapRange =>
      let target := heapRange.base
      let vmm := clearTable vmm target
      let vmm := setEntry vmm table idx (pmlMakeEntry (mmapIoToPhys target) flags)
      pure (.ok ⟨target, memPageSize⟩, vmm)

/-- `vmm_map_page` -/
def vmmMapPage (vmm : Vmm) (pml4 virtualPage physicalPage : UInt64) (flags : BrMemoryFlags) :
    Except Fault (VmmResult × Vmm) :=
  let tableFlags := flags ||| brMemWritable ||| brMemUser
  tryBind (vmmGetPmlOrAlloc vmm pml4 (pml4GetIndex virtualPage).toNat
      (tableFlags &&& ~~~brMemGlobal)) fun pml3 vmm ↦
  tryBind (vmmGetPmlOrAlloc vmm pml3.base (pml3GetIndex virtualPage).toNat tableFlags)
      fun pml2 vmm ↦
  tryBind (vmmGetPmlOrAlloc vmm pml2.base (pml2GetIndex virtualPage).toNat tableFlags)
      fun pml1 vmm ↦
    let idx := (pml1GetIndex virtualPage).toNat
    if (vmm.tables pml1.base idx).present then .error .panic
    else
      .ok (.ok ⟨virtualPage, memPageSize⟩,
        setEntry vmm pml1.base idx (pmlMakeEntry physicalPage flags))

/-- `vmm_unmap_page` -/
def vmmUnmapPage (vmm : Vmm) (pml4 virtualPage : UInt64) : Except Fault (VmmResult × Vmm) :=
  tryBind (.ok (vmmGetPml vmm pml4 (pml4GetIndex virtualPage).toNat, vmm)) fun pml3 vmm ↦
  tryBind (.ok (vmmGetPml vmm pml3.base (pml3GetIndex virtualPage).toNat, vmm)) fun pml2 vmm ↦
  tryBind (.ok (vmmGetPml vmm pml2.base (pml2GetIndex virtualPage).toNat, vmm)) fun pml1 vmm ↦
    let idx := (pml1GetIndex virtualPage).toNat
    if (vmm.tables pml1.base idx).present then
      .ok (.ok ⟨virtualPage, memPageSize⟩, setEntry vmm pml1.base idx pmlCleanEntry)
    else .error .panic

/-- The loop of `vmm_map` from page `i` on, which ignores the results of `vmm_map_page`. -/
def mapPages (space : UInt64) (virtualRange physicalRange : USizeRange) (flags : BrMemoryFlags) :
    ℕ → ℕ → Vmm → Except Fault Vmm
  | 0, _, vmm => .ok vmm
  | left + 1, i, vmm => do
    let offset := UInt64.ofNat i * memPageSize
    let (_, vmm) ← vmmMapPage vmm space (offset + virtualRange.base) (offset + physicalRange.base)
      flags
    mapPages space virtualRange physicalRange flags left (i + 1) vmm

/-- `vmm_map` -/
def vmmMap (vmm : Vmm) (space : UInt64) (virtualRange physicalRange : USizeRange)
    (flags : BrMemoryFlags) : Except Fault (VmmResult × Vmm) := do
  assertTruth (memIsRangePageAligned virtualRange)
  assertTruth (memIsRangePageAligned physicalRange)
  if virtualRange.size != physicalRange.size then .error .panic
  else
    let pages := (virtualRange.size / memPageSize).toNat
    let vmm ← mapPages space virtualRange physicalRange flags pages 0 vmm
    pure (.ok virtualRange, vmm)

/-- The loop of `vmm_unmap` from page `i` on, which ignores the results of `vmm_unmap_page`. -/
def unmapPages (space : UInt64) (virtualRange : USizeRange) : ℕ → ℕ → Vmm → Except Fault Vmm
  | 0, _, vmm => .ok vmm
  | left + 1, i, vmm => do
    let offset := UInt64.ofNat i * memPageSize
    let (_, vmm) ← vmmUnmapPage vmm space (offset + alignDown virtualRange.base memPageSize)
    unmapPages space virtualRange left (i + 1) vmm

/-- `vmm_unmap` -/
def vmmUnmap (vmm : Vmm) (space : UInt64) (virtualRange : USizeRange) :
    Except Fault (VmmResult × Vmm) := do
  assertTruth (memIsRangePageAligned virtualRange)
  let vmm ← unmapPages space virtualRange (virtualRange.size / memPageSize).toNat 0 vmm
  pure (.ok virtualRange, vmm)

/-- `vmm_virt2phys` -/
def vmmVirt2phys (vmm : Vmm) (space : UInt64) (virtualRange : USizeRange) : PmmResult := do
  let pml3 ← vmmGetPml vmm space (pml4GetIndex virtualRange.base).toNat
  let pml2 ← vmmGetPml vmm pml3.base (pml3GetIndex virtualRange.base).toNat
  let pml1 ← vmmGetPml vmm pml2.base (pml2GetIndex virtualRange.base).toNat
  let entry := vmm.tables pml1.base (pml1GetIndex virtualRange.base).toNat
  pure ⟨pmlGetAddr entry, virtualRange.size⟩

/-- `UNWRAP` -/
def unwrap {α State : Type} (outcome : Except BrResult α × State) : Except Fault (α × State) :=
  match outcome with
  | (.ok value, state) => .ok (value, state)
  | (.error _, _) => .error .panic

/-- The entries of a new top table: those of the kernel from slot 255 on. -/
def spaceTable (vmm : Vmm) (idx : ℕ) : PmlEntry :=
  if idx < 255 then pmlCleanEntry
  else if idx < 512 then vmm.tables vmm.kpml idx
  else pmlCleanEntry

/-- `vmm_space_create` -/
def vmmSpaceCreate (vmm : Vmm) : Except Fault (UInt64 × Vmm) := do
  let result ← heapAlloc vmm.pmm memPageSize
  let (heapResult, pmm) ← unwrap result
  let vmm := clearTable { vmm with pmm } heapResult.base
  pure (heapResult.base,
    { vmm with tables := Function.update vmm.tables heapResult.base (spaceTable vmm) })

/-- `vmm_space_destroy_pml`, which ignores the results of `heap_free`. -/
def vmmSpaceDestroyPml : ℕ → UInt64 → ℕ → ℕ → Vmm → Except Fault Vmm
  | 0, _, _, _, vmm => .ok vmm
  | level + 1, pml, first, last, vmm => do
    let vmm ← (List.range' first (last - first)).foldlM (fun vmm i ↦
      match vmmGetPml vmm pml i with
      | .error _ => .ok vmm
      | .ok table => vmmSpaceDestroyPml level table.base 0 512 vmm) vmm
    let (_, pmm) ← heapFree vmm.pmm ⟨pml, memPageSize⟩
    pure { vmm with pmm }

/-- `vmm_space_destroy` -/
def vmmSpaceDestroy (vmm : Vmm) (space : UInt64) : Except Fault Vmm :=
  vmmSpaceDestroyPml 4 space 0 255 vmm

/-- `MMAP_KERNEL_BASE` -/
def mmapKernelBase : UInt64 := 0xffffffff80000000

def mmapPhysToKernel (physAddr : UInt64) : UInt64 := physAddr + mmapKernelBase

/-- A mapping of the kernel that is made only under a condition. -/
def mapWhen (condition : Bool) (vmm : Vmm) (target : UInt64)
    (virtualRange physicalRange : USizeRange) : Except Fault Vmm :=
  if condition then do
    let (_, vmm) ← vmmMap vmm target virtualRange physicalRange (brMemWritable ||| brMemGlobal)
    pure vmm
  else .ok vmm

/-- One iteration of `vmm_load_memory_map`. -/
def mapEntry (target : UInt64) (vmm : Vmm) (entry : HandoverMmapEntry) : Except Fault Vmm := do
  let range := entry.range
  let vmm ← mapWhen (entry.type = .used) vmm target
    ⟨mmapPhysToKernel range.base, range.size⟩ range
  mapWhen (range.base ≥ 0x100000000) vmm target ⟨mmapPhysToIo range.base, range.size⟩ range

/-- `vmm_initialize`; loading the new tables into the processor is not part of the model. -/
def vmmInitialize (tables : UInt64 → ℕ → PmlEntry) (pmm : Pmm) (memoryMap : HandoverMmap) :
    Except Fault Vmm := do
  let result ← heapAllocLower pmm memPageSize
  let (heapResult, pmm) ← unwrap result
  let vmm := clearTable { tables, kpml := heapResult.base, pmm } heapResult.base
  let lower4GiB : USizeRange := ⟨0, 0x100000000⟩
  let (_, vmm) ← vmmMap vmm vmm.kpml { lower4GiB with base := mmapPhysToIo 0 } lower4GiB
    brMemWritable
  memoryMap.entries.foldlM (mapEntry vmm.kpml) vmm

end Brutal.Kernel
