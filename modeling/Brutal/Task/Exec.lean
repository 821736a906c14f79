import Brutal.Base.Range
import Brutal.Lib.Bytes
import Brutal.Lib.Memory
import Mathlib.Data.List.Basic
import Mathlib.Logic.Function.Basic

/-!
# Loading a program

`bal_exec_load` of `libs/bal/task/exec.c`, over what the calls `br_map`, `br_create`, `br_unmap` and
`bal_close` do with memory objects and spaces.

A space is the list of its mappings.  As in `space_map` of the kernel, a mapping of size 0 is one of
the whole object, a mapping at the address 0 is put where the kernel chooses, and the kernel stops
if a page is mapped twice or is no whole page.  A memory object is known by its number, which is not
used again and is also its handle.
-/

namespace Brutal.Task

open Base Lib

/-- Why loading does not return. -/
inductive LoadFault where
  /-- A call that is not successful, or a check of the kernel that fails. -/
  | failed
  /-- The kernel has no memory or no addresses left. -/
  | exhausted
  /-- An access to memory that is not there. -/
  | outOfBounds
deriving DecidableEq, Repr

structure MemoryObject where
  size : UInt64
  bytes : ℕ → UInt8

/-- `Mmap`, with the object as a number and whether its pages may be written. -/
structure Mapping where
  range : USizeRange
  object : ℕ
  offset : UInt64
  writable : Bool
deriving DecidableEq, Repr

abbrev AddressSpace := List Mapping

/-- Two ranges have an address in common. -/
def meets (range other : USizeRange) : Bool :=
  decide (range.base ∈ other) || decide (other.base ∈ range)

/-- The mapping of an address. -/
def mappingAt (space : AddressSpace) (addr : UInt64) : Option Mapping :=
  space.find? fun mapping ↦ decide (addr ∈ mapping.range)

/-- The byte of the object at an address of a mapping. -/
def Mapping.place (mapping : Mapping) (addr : UInt64) : ℕ :=
  (mapping.offset + (addr - mapping.range.base)).toNat

/-- The memory objects, those of them to which there is a handle, and the spaces of the loader and
of the new program. -/
structure LoadState where
  objects : ℕ → MemoryObject
  created : ℕ
  handles : List ℕ
  own : AddressSpace
  target : AddressSpace

/-- The byte that is read at an address of a space. -/
def byteAt (state : LoadState) (space : AddressSpace) (addr : UInt64) : Option UInt8 :=
  (mappingAt space addr).map fun mapping ↦
    (state.objects mapping.object).bytes (mapping.place addr)

/-- What the kernel chooses: the free addresses for a mapping, whether there is memory for an
object, and what is in this memory. -/
structure Kernel where
  place : AddressSpace → UInt64 → Option UInt64
  enough : LoadState → UInt64 → Bool
  contents : LoadState → ℕ → UInt8
  place_spec : ∀ {space size base}, place space size = some base →
    base ≠ 0 ∧ base % memPageSize = 0 ∧ ∀ mapping ∈ space, meets mapping.range ⟨base, size⟩ = false

/-- Where `space_map` puts a mapping. -/
def placeMapping (kernel : Kernel) (space : AddressSpace) (size vaddr : UInt64) :
    Except LoadFault UInt64 :=
  if vaddr = 0 then
    match kernel.place space size with
    | some base => .ok base
    | none => .error .exhausted
  else .ok vaddr

/-- `space_map` -/
def spaceMap (kernel : Kernel) (space : AddressSpace) (object : ℕ) (memory : MemoryObject)
    (offset size vaddr : UInt64) (writable : Bool) :
    Except LoadFault (USizeRange × AddressSpace) := do
  let size := if size = 0 then memory.size else size
  if memory.size < offset + size then .error .failed
  else
    let base ← placeMapping kernel space size vaddr
    let range : USizeRange := ⟨base, size⟩
    if memIsRangePageAligned range ∧ offset % memPageSize = 0 ∧
        ∀ mapping ∈ space, meets mapping.range range = false then
      return (range, space ++ [⟨range, object, offset, writable⟩])
    else .error .failed

/-- `BR_HANDLE_SELF`, or the handle of the new space. -/
inductive SpaceHandle where
  | self
  | space
deriving DecidableEq, Repr

/-- `br_map` -/
def brMap (kernel : Kernel) (state : LoadState) (space : SpaceHandle) (memory : ℕ)
    (offset size vaddr : UInt64) (writable : Bool) : Except LoadFault (USizeRange × LoadState) :=
  if memory ∈ state.handles then
    match space with
    | .self => do
      let (range, own) ← spaceMap kernel state.own memory (state.objects memory) offset size vaddr
        writable
      return (range, { state with own })
    | .space => do
      let (range, target) ← spaceMap kernel state.target memory (state.objects memory) offset size
        vaddr writable
      return (range, { state with target })
  else .error .failed

/-- `br_create` for a memory object; `pmm_alloc` takes whole pages and at least one. -/
def brCreate (kernel : Kernel) (state : LoadState) (size : UInt64) :
    Except LoadFault (ℕ × LoadState) :=
  if size % memPageSize = 0 ∧ size ≠ 0 then
    if kernel.enough state size then
      .ok (state.created,
        { state with
          objects := Function.update state.objects state.created ⟨size, kernel.contents state⟩
          created := state.created + 1
          handles := state.created :: state.handles })
    else .error .exhausted
  else .error .failed

/-- `br_unmap` for the space of the loader. -/
def brUnmap (state : LoadState) (range : USizeRange) : Except LoadFault LoadState :=
  if ∃ mapping ∈ state.own, rangeEq mapping.range range then
    .ok { state with own := state.own.eraseP fun mapping ↦ rangeEq mapping.range range }
  else .error .failed

/-- `bal_close` -/
def balClose (state : LoadState) (handle : ℕ) : Except LoadFault LoadState :=
  if handle ∈ state.handles then .ok { state with handles := state.handles.erase handle }
  else .error .failed

/-- A byte is written at an address of the loader. -/
def storeByte (state : LoadState) (addr : UInt64) (value : UInt8) : Except LoadFault LoadState :=
  match mappingAt state.own addr with
  | some mapping =>
    if mapping.writable then
      let object := state.objects mapping.object
      let bytes := Function.update object.bytes (mapping.place addr) value
      .ok
        { state with
          objects := Function.update state.objects mapping.object { object with bytes } }
    else .error .outOfBounds
  | none => .error .outOfBounds

/-- `mem_cpy` of bytes to an address of the loader. -/
def memCpy : UInt64 → List UInt8 → LoadState → Except LoadFault LoadState
  | _, [], state => .ok state
  | addr, value :: rest, state => do
    let state ← storeByte state addr value
    memCpy (addr + 1) rest state

/-- `mem_set` at an address of the loader. -/
def memSet (addr : UInt64) (value : UInt8) (size : ℕ) (state : LoadState) :
    Except LoadFault LoadState :=
  memCpy addr (List.replicate size value) state

/-- The number in a field of a file. -/
def fieldAt (file : MemoryObject) (off size : ℕ) : ℕ := ofLeBytes (readAt file.bytes off size)

/-- The fields of `Elf64Header` that are read here. -/
structure Elf64Header where
  programsOffset : UInt64
  programsSize : UInt16
  programsCount : UInt16
deriving DecidableEq, Repr

def elfHeader (file : MemoryObject) : Elf64Header :=
  ⟨UInt64.ofNat (fieldAt file 32 8), UInt16.ofNat (fieldAt file 54 2),
    UInt16.ofNat (fieldAt file 56 2)⟩

/-- The fields of `Elf64ProgramHeader` that are read here. -/
structure Elf64ProgramHeader where
  type : UInt32
  flags : UInt32
  fileOffset : UInt64
  virtualAddress : UInt64
  fileSize : UInt64
  memorySize : UInt64
deriving DecidableEq, Repr

def programHeader (file : MemoryObject) (off : ℕ) : Elf64ProgramHeader :=
  ⟨UInt32.ofNat (fieldAt file off 4), UInt32.ofNat (fieldAt file (off + 4) 4),
    UInt64.ofNat (fieldAt file (off + 8) 8), UInt64.ofNat (fieldAt file (off + 16) 8),
    UInt64.ofNat (fieldAt file (off + 32) 8), UInt64.ofNat (fieldAt file (off + 40) 8)⟩

/-- `sizeof(Elf64Header)` -/
def elfHeaderSize : ℕ := 64

/-- `sizeof(Elf64ProgramHeader)` -/
def programHeaderSize : ℕ := 56

/-- `ELF_PROGRAM_HEADER_LOAD` -/
def elfProgramHeaderLoad : UInt32 := 1

/-- `ELF_PROGRAM_HEADER_WRITABLE` -/
def elfProgramHeaderWritable : UInt32 := (1 : UInt32) <<< 1

namespace Elf64ProgramHeader

def isLoad (header : Elf64ProgramHeader) : Bool := header.type == elfProgramHeaderLoad

def isWritable (header : Elf64ProgramHeader) : Bool :=
  header.flags &&& elfProgramHeaderWritable != 0

/-- The size of the segment, in whole pages. -/
def pagesSize (header : Elf64ProgramHeader) : UInt64 :=
  alignUp (max header.memorySize header.fileSize) memPageSize

end Elf64ProgramHeader

/-- The segment is a copy of the file, with zeros behind it. -/
def copySegment (kernel : Kernel) (elfMemory : ℕ) (state : LoadState)
    (header : Elf64ProgramHeader) : Except LoadFault LoadState := do
  let size := header.pagesSize
  let (object, state) ← brCreate kernel state size
  let (range, state) ← brMap kernel state .self object 0 0 0 true
  let state ← memSet range.base 0 size.toNat state
  let file := state.objects elfMemory
  if file.size.toNat < header.fileOffset.toNat + header.fileSize.toNat then .error .outOfBounds
  else
    let data := readAt file.bytes header.fileOffset.toNat header.fileSize.toNat
    let state ← memCpy range.base data state
    let (_, state) ← brMap kernel state .space object 0 0 header.virtualAddress true
    let state ← brUnmap state ⟨range.base, size⟩
    balClose state object

/-- What `bal_exec_load` does for a header of the type `ELF_PROGRAM_HEADER_LOAD`. -/
def loadSegment (kernel : Kernel) (elfMemory : ℕ) (state : LoadState)
    (header : Elf64ProgramHeader) : Except LoadFault LoadState :=
  if !header.isWritable && header.fileSize == header.memorySize then do
    let (_, state) ← brMap kernel state .space elfMemory header.fileOffset header.pagesSize
      header.virtualAddress false
    return state
  else copySegment kernel elfMemory state header

/-- The loop of `bal_exec_load`, with the number of turns that are left; `continue` leaves the
pointer to the header as it is. -/
def execLoadLoop (kernel : Kernel) (elfMemory programsSize : ℕ) :
    ℕ → ℕ → LoadState → Except LoadFault LoadState
  | 0, _, state => .ok state
  | left + 1, off, state =>
    let file := state.objects elfMemory
    if file.size.toNat < off + programHeaderSize then .error .outOfBounds
    else
      let header := programHeader file off
      if header.isLoad then do
        let state ← loadSegment kernel elfMemory state header
        execLoadLoop kernel elfMemory programsSize left (off + programsSize) state
      else execLoadLoop kernel elfMemory programsSize left off state

/-- `bal_exec_load` -/
def balExecLoad (kernel : Kernel) (state : LoadState) (elfMemory : ℕ) :
    Except LoadFault LoadState :=
  let file := state.objects elfMemory
  if file.size.toNat < elfHeaderSize then .error .outOfBounds
  else
    let header := elfHeader file
    execLoadLoop kernel elfMemory header.programsSize.toNat header.programsCount.toNat
      header.programsOffset.toNat state

end Brutal.Task
