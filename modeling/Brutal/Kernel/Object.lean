import Brutal.Kernel.Event
import Brutal.Kernel.Sched
import Brutal.Kernel.Space
import Brutal.Lib.RefCount

/-!
# Kernel objects

`kernel/object.c`, with the constructors and destructors of `kernel/memory.c`, `kernel/domain.c`,
`kernel/space.c` and `kernel/task.c`.  An object is named by its identifier, which is never given
out twice; a pointer to an object that was freed is then a number under which nothing is kept.

The objects, the queue of the scheduler, the event bindings and the memory of the machine are one
state here, because destroying an object reaches into all of them.
-/

namespace Brutal.Kernel

open Base Ds Lib

/-- What is left to do of a call of `sys_ipc` that waits in `sched_block`: its local variables, its
`ChannelOp` and the result of its `Blocker`. -/
structure IpcWait where
  args : BrIpcArgs
  /-- The task that the call sends to and holds a reference to; none while it receives. -/
  target : Option ℕ
  msg : BrMsg
  opResult : BrResult
  result : BrResult
deriving DecidableEq, Repr

/-- `Task`, without the object header and the saved registers. -/
structure TaskObject where
  flags : UInt64
  sched : SchedTask
  rights : BrRight
  space : ℕ
  domain : ℕ
  channel : Channel ℕ
  stack : USizeRange
  result : UInt64
  wait : Option IpcWait

/-- What stands behind the header of an object. -/
inductive Payload where
  | memory (self : Memory)
  | domain (self : Domain ℕ)
  | space (flags : UInt64) (self : Space ℕ)
  | task (self : TaskObject)

/-- `Object`, whose type and destructor follow from the payload. -/
structure Object where
  refs : ℕ
  payload : Payload

/-- The kernel: the objects, the next identifier, the queue `_tasks` and the clock of the
scheduler, the task that the processor at hand executes, the event bindings and the memory. -/
structure KernelState where
  objects : AList fun _ : ℕ ↦ Object
  nextId : ℕ
  queue : List ℕ
  tick : UInt64
  self : ℕ
  bindings : List EventBinding
  vmm : Vmm

/-- `INT_MAX`, the largest reference count. -/
def refsMax : ℕ := 2 ^ 31 - 1

def getObject (s : KernelState) (o : ℕ) : Except Fault Object :=
  match s.objects.lookup o with
  | some object => .ok object
  | none => .error .outOfBounds

def setPayload (s : KernelState) (o : ℕ) (payload : Payload) : Except Fault KernelState := do
  let object ← getObject s o
  pure { s with objects := s.objects.insert o { object with payload } }

def asMemory : Payload → Except Fault Memory
  | .memory self => .ok self
  | _ => .error .outOfBounds

def asDomain : Payload → Except Fault (Domain ℕ)
  | .domain self => .ok self
  | _ => .error .outOfBounds

def asSpace : Payload → Except Fault (UInt64 × Space ℕ)
  | .space flags self => .ok (flags, self)
  | _ => .error .outOfBounds

def asTask : Payload → Except Fault TaskObject
  | .task self => .ok self
  | _ => .error .outOfBounds

def getMemory (s : KernelState) (o : ℕ) : Except Fault Memory := do
  let object ← getObject s o
  asMemory object.payload

def getDomain (s : KernelState) (o : ℕ) : Except Fault (Domain ℕ) := do
  let object ← getObject s o
  asDomain object.payload

def getSpace (s : KernelState) (o : ℕ) : Except Fault (UInt64 × Space ℕ) := do
  let object ← getObject s o
  asSpace object.payload

def getTask (s : KernelState) (o : ℕ) : Except Fault TaskObject := do
  let object ← getObject s o
  asTask object.payload

def payloadType : Payload → BrType
  | .memory _ => .memory
  | .domain _ => .domain
  | .space _ _ => .space
  | .task _ => .task

/-- The type in the header of an object. -/
def objectType (s : KernelState) (o : ℕ) : BrType :=
  match s.objects.lookup o with
  | some object => payloadType object.payload
  | none => .none

/-- `object_init`, with the identifier. -/
def objectInit (s : KernelState) (payload : Payload) : Except Fault (ℕ × KernelState) :=
  if s.nextId ≥ 2 ^ 64 then .error .overflow
  else
    .ok (s.nextId,
      { s with objects := s.objects.insert s.nextId ⟨1, payload⟩, nextId := s.nextId + 1 })

/-- `object_ref` -/
def objectRef (s : KernelState) (o : ℕ) : Except Fault KernelState := do
  let object ← getObject s o
  if object.refs ≥ refsMax then .error .overflow
  else pure { s with objects := s.objects.insert o { object with refs := object.refs + 1 } }

/-- The objects in the slots in use, which `domain_destroy` goes through in this order. -/
def domainObjects (self : Domain ℕ) : List ℕ :=
  self.objects.cells.filterMap fun cell ↦ if cell.used then cell.data else none

/-- The elements that the loop of `space_destroy` comes to: it removes the element at its index
and then goes on to the next index, past the one that moved into the gap. -/
def everyOther {α : Type*} : List α → List α
  | [] => []
  | [first] => [first]
  | first :: _ :: rest => first :: everyOther rest

/-- The elements that the loop of `space_destroy` passes over. -/
def passedOver {α : Type*} : List α → List α
  | [] => []
  | [_] => []
  | _ :: second :: rest => second :: passedOver rest

def freeHeap (s : KernelState) (range : USizeRange) : Except Fault KernelState := do
  let (_, pmm) ← heapFree s.vmm.pmm range
  pure { s with vmm := { s.vmm with pmm } }

/-- `memory_destroy` -/
def memoryDestroy (s : KernelState) (self : Memory) : Except Fault KernelState :=
  match self.type with
  | .heap => freeHeap s self.range
  | .pmm => do
    let (_, pmm) ← pmmUnused s.vmm.pmm self.range
    pure { s with vmm := { s.vmm with pmm } }
  | .dma => .ok s

section Destroy

variable (deref : KernelState → ℕ → Except Fault KernelState)

/-- `space_mmap_destroy`, up to the removal of the mapping from the list. -/
def spaceMmapDestroy (table : UInt64) (s : KernelState) (mapping : Mmap ℕ) :
    Except Fault KernelState := do
  let (_, vmm) ← vmmUnmap s.vmm table mapping.range
  let s := { s with vmm }
  let _ ← getMemory s mapping.object
  deref s mapping.object

/-- `domain_destroy` -/
def domainDestroy (s : KernelState) (self : Domain ℕ) : Except Fault KernelState :=
  (domainObjects self).foldlM deref s

/-- `space_destroy` -/
def spaceDestroy (s : KernelState) (self : Space ℕ) : Except Fault KernelState := do
  let s ← (everyOther self.mmaps).foldlM (spaceMmapDestroy deref self.vmm) s
  let vmm ← vmmSpaceDestroy s.vmm self.vmm
  pure { s with vmm }

/-- `task_destroy`.  The destructor of the channel frees the ring and nothing in it. -/
def taskDestroy (o : ℕ) (s : KernelState) (self : TaskObject) : Except Fault KernelState := do
  let s := { s with bindings := eventUnbindAllFrom o s.bindings }
  let s ← deref s self.space
  let s ← deref s self.domain
  freeHeap s self.stack

/-- The destructor of an object. -/
def payloadDestroy (o : ℕ) (s : KernelState) : Payload → Except Fault KernelState
  | .memory self => memoryDestroy s self
  | .domain self => domainDestroy deref s self
  | .space _ self => spaceDestroy deref s self
  | .task self => taskDestroy deref o s self

end Destroy

/-- `object_deref`, where the destructors that it runs are nested to this depth at most. -/
def derefWithin : ℕ → KernelState → ℕ → Except Fault KernelState
  | 0, _, _ => .error .depth
  | depth + 1, s, o => do
    let object ← getObject s o
    if object.refs = 1 then
      payloadDestroy (derefWithin depth) o { s with objects := s.objects.erase o } object.payload
    else
      pure { s with objects := s.objects.insert o { object with refs := object.refs - 1 } }

/-- `object_deref`.  Every destructor that runs inside another one has one object less to reach,
so the depth is enough; see `derefWithin_depth`. -/
def objectDeref (s : KernelState) (o : ℕ) : Except Fault KernelState :=
  derefWithin (s.objects.entries.length + 1) s o

/-- `object_deref` of the objects in a list. -/
def objectDerefAll (s : KernelState) (objects : List ℕ) : Except Fault KernelState :=
  objects.foldlM objectDeref s

def objectRefAll (s : KernelState) (objects : List ℕ) : Except Fault KernelState :=
  objects.foldlM objectRef s

/-- `global_lookup`, which takes a reference to the object that it finds. -/
def globalLookup (s : KernelState) (id : UInt64) (type : BrType) :
    Except Fault (Option ℕ × KernelState) :=
  match s.objects.lookup id.toNat with
  | none => .ok (none, s)
  | some object =>
    if payloadType object.payload = type ∨ type = .any then do
      let s ← objectRef s id.toNat
      pure (some id.toNat, s)
    else .ok (none, s)

/-- The objects that a parcel points to. -/
def parcelObjects (self : Parcel ℕ) : List ℕ := self.objs.toList.reduceOption

/-! ## Domains

The operations of `Domain`, `Space` and the scheduler on a part of the kernel return under the
same names to the whole of it, where they count references.
-/

/-- `domain_add`, which takes a reference to the object. -/
def KernelState.domainAdd (s : KernelState) (domain o : ℕ) :
    Except Fault (UInt64 × KernelState) := do
  let s ← objectRef s o
  let self ← getDomain s domain
  let (handle, self) ← Kernel.domainAdd self o
  let s ← setPayload s domain (.domain self)
  pure (handle, s)

/-- `domain_lookup`, which takes a reference to the object that it returns. -/
def KernelState.domainLookup (s : KernelState) (domain : ℕ) (handle : UInt64) (type : BrType) :
    Except Fault (Option ℕ × KernelState) := do
  let self ← getDomain s domain
  match ← Kernel.domainLookup (objectType s) self handle type with
  | none => pure (none, s)
  | some o => do
    let s ← objectRef s o
    pure (some o, s)

/-- `object_deref` of a pointer that may be null. -/
def derefOption (s : KernelState) : Option ℕ → Except Fault KernelState
  | none => .ok s
  | some o => objectDeref s o

/-- `domain_remove`, which releases the slot after it dropped the reference. -/
def KernelState.domainRemove (s : KernelState) (domain : ℕ) (handle : UInt64) :
    Except Fault (BrResult × KernelState) := do
  let self ← getDomain s domain
  let (result, object, self) ← Kernel.domainRemove self handle
  let s ← derefOption s object
  let s ← setPayload s domain (.domain self)
  pure (result, s)

/-- `domain_create` -/
def KernelState.domainCreate (s : KernelState) : Except Fault (ℕ × KernelState) :=
  objectInit s (.domain Kernel.domainCreate)

/-- `space_create`, where `memory` is what the vector of free ranges will hold behind its
elements. -/
def KernelState.spaceCreate (s : KernelState) (memory : ℕ → USizeRange) (flags : UInt64) :
    Except Fault (ℕ × KernelState) := do
  let (self, vmm) ← Kernel.spaceCreate memory s.vmm
  objectInit { s with vmm } (.space flags self)

/-- `memory_heap`, `memory_pmm` and `memory_dma` -/
def KernelState.memoryCreate (s : KernelState) (type : MemoryType) (range : USizeRange) :
    Except Fault (ℕ × KernelState) :=
  objectInit s (.memory ⟨type, range⟩)

/-- `KERNEL_STACK_SIZE` -/
def kernelStackSize : UInt64 := 16384

/-- `UNWRAP` of `heap_alloc` -/
def heapTake (s : KernelState) (size : UInt64) : Except Fault (USizeRange × KernelState) := do
  let result ← heapAlloc s.vmm.pmm size
  let (range, pmm) ← unwrap result
  pure (range, { s with vmm := { s.vmm with pmm } })

/-- `task_create` -/
def KernelState.taskCreate (s : KernelState) (space : ℕ) (rights : BrRight) (flags : UInt64) :
    Except Fault (ℕ × KernelState) := do
  let s ← objectRef s space
  let (domain, s) ← s.domainCreate
  let (stack, s) ← heapTake s kernelStackSize
  objectInit s (.task
    { flags, sched := default, rights, space, domain, channel := channelCreate, stack
      result := 0, wait := none })

/-- `space_map`, where a mapping that is made takes a reference to the memory object. -/
def KernelState.spaceMap (s : KernelState) (space memory : ℕ) (offset size vaddr : UInt64)
    (flags : BrMemoryFlags) : Except Fault (SpaceResult × KernelState) := do
  let (spaceFlags, self) ← getSpace s space
  let object ← getMemory s memory
  let (result, self, vmm) ← Kernel.spaceMap self s.vmm memory object offset size vaddr flags
  let s ← setPayload { s with vmm } space (.space spaceFlags self)
  match result with
  | .error err => pure (.error err, s)
  | .ok range => do
    let s ← objectRef s memory
    pure (.ok range, s)

/-- `space_unmap`, where the mapping leaves the list after it dropped its reference. -/
def KernelState.spaceUnmap (s : KernelState) (space : ℕ) (range : USizeRange) :
    Except Fault (SpaceResult × KernelState) := do
  let (flags, self) ← getSpace s space
  match findMmap range self.mmaps with
  | none => pure (.error .badAddress, s)
  | some (before, mapping, after) => do
    let s ← spaceMmapDestroy objectDeref self.vmm s mapping
    let s ← setPayload s space (.space flags { self with mmaps := before ++ after })
    pure (.ok range, s)

/-- `sched_enqueue` -/
def KernelState.schedEnqueue (s : KernelState) (task : ℕ) : Except Fault KernelState := do
  let s ← objectRef s task
  pure { s with queue := s.queue ++ [task] }

/-- `sched_dequeue` -/
def KernelState.schedDequeue (s : KernelState) (task : ℕ) : Except Fault KernelState :=
  objectDeref { s with queue := s.queue.erase task } task

/-- `sched_start` -/
def KernelState.schedStart (s : KernelState) (task : ℕ) : Except Fault KernelState := do
  let self ← getTask s task
  assertTruth (!self.sched.started)
  let s ← setPayload s task (.task { self with sched := { self.sched with started := true } })
  s.schedEnqueue task

/-- `sched_stop` -/
def KernelState.schedStop (s : KernelState) (task : ℕ) (result : UInt64) :
    Except Fault KernelState := do
  let self ← getTask s task
  if self.sched.stopped then pure s
  else setPayload s task (.task { self with sched := { self.sched with stopped := true }, result })

end Brutal.Kernel
