import Brutal.Kernel.Syscall

/-!
# The first objects

`kernel/tasking.c` and `kernel/init.c`: the tasks that every processor starts with, and the first
task that runs a program.  The program is given by its headers; what it holds in memory is not
part of the model.
-/

namespace Brutal.Kernel

open Base Boot Lib

/-- `Elf64ProgramHeader`, as far as it is read. -/
structure ElfProgram where
  load : Bool
  writable : Bool
  fileOffset : UInt64
  fileSize : UInt64
  memorySize : UInt64
  virtualAddress : UInt64
deriving DecidableEq, Repr

/-- The module that `init_start` finds, with what it reads of its `Elf64Header`. -/
structure ElfModule where
  addr : UInt64
  size : UInt64
  supported : Bool
  programsCount : ℕ
  programs : List ElfProgram
deriving DecidableEq, Repr

/-- `tasking_create_idle` -/
def taskingCreateIdle (memory : ℕ → USizeRange) (s : KernelState) :
    Except Fault (ℕ × KernelState) := do
  let (space, s) ← s.spaceCreate memory 0
  let (task, s) ← s.taskCreate space 0 0
  let s ← objectDeref s space
  pure (task, s)

/-- `tasking_create_boot`, and `tasking_create_finalizer`. -/
def taskingCreateBoot (memory : ℕ → USizeRange) (s : KernelState) :
    Except Fault (ℕ × KernelState) := do
  let (space, s) ← s.spaceCreate memory 0
  let (task, s) ← s.taskCreate space 0 0
  let s ← s.schedStart task
  let s ← objectDeref s space
  let s ← objectDeref s task
  pure (task, s)

/-- What `tasking_initialize` does for one processor. -/
def taskingCreate (memory : ℕ → USizeRange) (s : KernelState) (_ : ℕ) :
    Except Fault KernelState := do
  let (_, s) ← taskingCreateIdle memory s
  let (task, s) ← taskingCreateBoot memory s
  -- Processor 0 does the work.
  pure { s with self := if s.self = 0 then task else s.self }

/-- `tasking_initialize` -/
def KernelState.taskingInitialize (memory : ℕ → USizeRange) (cpuCount : ℕ) (s : KernelState) :
    Except Fault KernelState := do
  let s ← (List.range cpuCount).foldlM (taskingCreate memory) s
  let (_, s) ← taskingCreateBoot memory s
  pure s

/-- A new memory object on the heap, mapped into a space. -/
def mapHeap (s : KernelState) (space : ℕ) (size vaddr : UInt64) :
    Except Fault (SpaceResult × KernelState) := do
  let (range, s) ← heapTake s size
  let (memory, s) ← s.memoryCreate .heap range
  let (result, s) ← s.spaceMap space memory 0 0 vaddr (brMemUser ||| brMemWritable)
  let s ← objectDeref s memory
  pure (result, s)

/-- The body of the loop of `elf_load_program` for a segment that is loaded. -/
def elfLoadSegment (space elf : ℕ) (program : ElfProgram) (s : KernelState) :
    Except Fault KernelState := do
  let size := alignUp (max program.memorySize program.fileSize) memPageSize
  if !program.writable && program.fileSize == program.memorySize then do
    let result ← s.spaceMap space elf program.fileOffset size program.virtualAddress brMemUser
    let (_, s) ← unwrap result
    pure s
  else do
    let result ← mapHeap s space size program.virtualAddress
    let (_, s) ← unwrap result
    pure s

/-- `elf_load_program`, which stays at a header that it ignores. -/
def elfLoadProgram (space elf : ℕ) :
    ℕ → List ElfProgram → KernelState → Except Fault KernelState
  | 0, _, s => .ok s
  | _ + 1, [], _ => .error .outOfBounds
  | left + 1, program :: rest, s =>
    if !program.load then elfLoadProgram space elf left (program :: rest) s
    else do
      let s ← elfLoadSegment space elf program s
      elfLoadProgram space elf left rest s

/-- `USER_STACK_BASE` -/
def userStackBase : UInt64 := 0xc0000000

/-- The memory that `init_pass` takes for a `Handover`, which fits in a page. -/
def handoverPages : UInt64 := memPageSize

/-- The rights of the first program. -/
def initRights : BrRight :=
  brRightIrq ||| brRightDma ||| brRightLog ||| brRightTask ||| brRightPio

/-- `init_start` -/
def initStart (memory : ℕ → USizeRange) (elf : ElfModule) (s : KernelState) :
    Except Fault KernelState := do
  let (elfObj, s) ← s.memoryCreate .pmm ⟨elf.addr, elf.size⟩
  assertTruth elf.supported
  let (space, s) ← s.spaceCreate memory 0
  let (task, s) ← s.taskCreate space initRights brTaskUser
  let s ← objectDeref s space
  let s ← elfLoadProgram space elfObj elf.programsCount elf.programs s
  -- `init_stack` ignores an error of `space_map`, and `init_pass` does not.
  let (_, s) ← mapHeap s space kernelStackSize (userStackBase - kernelStackSize)
  let passed ← mapHeap s space handoverPages 0
  let (_, s) ← unwrap passed
  let s ← objectRef s task
  let s ← s.schedStart task
  let s ← objectDeref s task
  objectDeref s elfObj

/-- The kernel before it has any objects. -/
def kernelEmpty (vmm : Vmm) : KernelState where
  objects := ∅
  nextId := 1
  queue := []
  tick := 0
  self := 0
  bindings := []
  vmm := vmm

/-- The part of `arch_entry_main` that makes objects, on a machine with `cpuCount + 1` processors;
`memory` is what a new vector of free ranges holds behind its elements. -/
def kernelBoot (memory : ℕ → USizeRange) (cpuCount : ℕ) (elf : ElfModule) (vmm : Vmm) :
    Except Fault KernelState := do
  let s ← (kernelEmpty vmm).taskingInitialize memory (cpuCount + 1)
  let s ← initStart memory elf s
  s.schedStop s.self 0

end Brutal.Kernel
