import Brutal.Kernel.SyscallRuns

/-!
# Rights

The rights of tasks along whole runs, and the operations that need one.  The system calls that
reach such an operation are written a second time here, with a list of the operations that they
carry out; `kernelTraced_erase` says that they are otherwise the calls of `Brutal.Kernel.Syscall`.
The kernel's own page tables, stacks and spaces come from `heap_alloc`, which never takes lower
memory.
-/

namespace Brutal.Kernel

open Base Ds Lib

variable {s : KernelState} {ops : List Privileged} {op : Privileged} {w w' : World}
  {action : WorldStep × List Privileged} {rights : BrRight}

/-- The operations that `kernel/syscalls.c` reserves to tasks with a right. -/
inductive Privileged where
  | dmaMemory
  | lowerMemory
  /-- `space_map` with `BR_MEM_WRITE_THROUGHT` or `BR_MEM_GLOBAL`. -/
  | sharedMapping
  | taskCreation
  | irqBinding
  | portAccess
  | logWrite
deriving DecidableEq, Repr

def Privileged.right : Privileged → BrRight
  | .dmaMemory | .lowerMemory | .sharedMapping => brRightDma
  | .taskCreation => brRightTask
  | .irqBinding => brRightIrq
  | .portAccess => brRightPio
  | .logWrite => brRightLog

/-- A computation without the list of the operations that it has carried out. -/
def erased {α : Type} (traced : Except Fault (List Privileged × α)) : Except Fault α := do
  let (_, value) ← traced
  pure value

/-- `space_map` -/
def KernelState.spaceMapTraced (s : KernelState) (space memory : ℕ) (offset size vaddr : UInt64)
    (flags : BrMemoryFlags) : Except Fault (List Privileged × SpaceResult × KernelState) := do
  let mapped ← s.spaceMap space memory offset size vaddr flags
  let shared := flags &&& (brMemWriteThrought ||| brMemGlobal) != 0
  pure (if shared then [.sharedMapping] else [], mapped)

/-- `pmm_alloc` -/
def pmmAllocTraced (pmm : Pmm) (size : UInt64) (upper : Bool) :
    Except Fault (List Privileged × Except BrResult USizeRange × Pmm) := do
  let allocated ← pmmAlloc pmm size upper
  pure (if upper then [] else [.lowerMemory], allocated)

/-- `memory_pmm` and `memory_dma` -/
def KernelState.memoryCreateTraced (s : KernelState) (type : MemoryType) (range : USizeRange) :
    Except Fault (List Privileged × ℕ × KernelState) := do
  let created ← s.memoryCreate type range
  pure (if type = .dma then [.dmaMemory] else [], created)

/-- `task_create` -/
def KernelState.taskCreateTraced (s : KernelState) (space : ℕ) (rights : BrRight)
    (flags : UInt64) : Except Fault (List Privileged × ℕ × KernelState) := do
  let created ← s.taskCreate space rights flags
  pure ([.taskCreation], created)

/-- `event_bind` -/
def eventBindTraced (events : Events ℕ) (task : ℕ) (event : BrEvent) :
    Except Fault (List Privileged × BrResult × Events ℕ) := do
  let bound ← eventBind events task event
  pure (if event.type = .irq then [.irqBinding] else [], bound)

/-- `sys_map`, once it has a reference to the space. -/
def sysMapIntoTraced (s : KernelState) (self : TaskObject) (args : BrMapArgs) (space : ℕ) :
    Except Fault (List Privileged × BrResult × BrMapArgs × KernelState) := do
  let (memory, s) ← s.domainLookup self.domain args.memory .memory
  match memory with
  | none => do
    let s ← objectDeref s space
    pure ([], .badHandle, args, s)
  | some memory => do
    let (ops, result, s) ←
      s.spaceMapTraced space memory args.offset args.size args.vaddr args.flags
    let s ← objectDeref s space
    let s ← objectDeref s memory
    match result with
    | .error err => pure (ops, err, args, s)
    | .ok range => pure (ops, .success, { args with vaddr := range.base, size := range.size }, s)

/-- `sys_map` -/
def sysMapTraced (s : KernelState) (args : BrMapArgs) :
    Except Fault (List Privileged × BrResult × BrMapArgs × KernelState) := do
  let self ← taskSelf s
  if args.flags &&& (brMemWriteThrought ||| brMemGlobal) != 0 && self.rights &&& brRightDma == 0
  then pure ([], .notPermitted, args, s)
  else do
    let (space, s) ← lookupSpace s self args.space
    match space with
    | none => pure ([], .badHandle, args, s)
    | some space => sysMapIntoTraced s self args space

/-- `sys_create_task` -/
def sysCreateTaskTraced (s : KernelState) (self : TaskObject) (props : BrTaskProps) :
    Except Fault (List Privileged × BrResult × Option Created × KernelState) := do
  let (space, s) ← lookupSpace s self props.space
  match space with
  | none => pure ([], .badHandle, none, s)
  | some space => do
    let (ops, task, s) ←
      s.taskCreateTraced space (props.rights &&& self.rights) (props.flags ||| brTaskUser)
    let (handle, s) ← s.domainAdd self.domain task
    let s ← objectDeref s space
    let s ← objectDeref s task
    pure (ops, .success, some ⟨task, handle, none⟩, s)

/-- The part of `sys_create_memory` for memory from the allocator. -/
def sysCreatePmmTraced (s : KernelState) (self : TaskObject) (props : BrMemoryProps) :
    Except Fault (List Privileged × BrResult × Option Created × KernelState) := do
  let (ops, result, pmm) ←
    pmmAllocTraced s.vmm.pmm props.size (props.flags &&& brMemLower == 0)
  let s := { s with vmm := { s.vmm with pmm } }
  match result with
  | .error err => pure (ops, err, none, s)
  | .ok range => do
    let (ops', id, s) ← s.memoryCreateTraced .pmm range
    let created ← createHandle s self id (some range.base)
    pure (ops ++ ops', created)

/-- `sys_create_memory` -/
def sysCreateMemoryTraced (s : KernelState) (self : TaskObject) (props : BrMemoryProps) :
    Except Fault (List Privileged × BrResult × Option Created × KernelState) :=
  if props.flags &&& brMemDma != 0 then
    if self.rights &&& brRightDma == 0 then .ok ([], .notPermitted, none, s)
    else do
      let (ops, id, s) ← s.memoryCreateTraced .dma ⟨props.addr, props.size⟩
      let created ← createHandle s self id none
      pure (ops, created)
  else if props.flags &&& brMemLower != 0 && self.rights &&& brRightDma == 0 then
    .ok ([], .notPermitted, none, s)
  else sysCreatePmmTraced s self props

/-- `sys_create` -/
def sysCreateTraced (s : KernelState) (memory : ℕ → USizeRange) (args : BrCreateArgs) :
    Except Fault (List Privileged × BrResult × Option Created × KernelState) := do
  let self ← taskSelf s
  match args with
  | .task props =>
    if self.rights &&& brRightTask == 0 then pure ([], .notPermitted, none, s)
    else sysCreateTaskTraced s self props
  | .space flags => do
    let created ← sysCreateSpace s self memory flags
    pure ([], created)
  | .memory props => sysCreateMemoryTraced s self props
  | .other _ => pure ([], .badArguments, none, s)

/-- `sys_bind` -/
def sysBindTraced (s : KernelState) (event : BrEvent) :
    Except Fault (List Privileged × BrResult × KernelState) := do
  let self ← taskSelf s
  if event.type = .irq ∧ self.rights &&& brRightIrq = 0 then pure ([], .notPermitted, s)
  else do
    let (ops, result, events) ← eventBindTraced s.events s.self event
    pure (ops, result, { s with bindings := events.bindings })

/-- One step of the kernel. -/
def kernelTraced (s : KernelState) : KernelStep → Except Fault (List Privileged × KernelState)
  | .call (.map args) => do
    let (ops, _, _, s) ← sysMapTraced s args
    pure (ops, s)
  | .call (.create args memory) => do
    let (ops, _, _, s) ← sysCreateTraced s memory args
    pure (ops, s)
  | .bind event => do
    let (ops, _, s) ← sysBindTraced s event
    pure (ops, s)
  | step => do
    let s ← kernelNext s step
    pure ([], s)

theorem sysMapTraced_erase (s : KernelState) (args : BrMapArgs) :
    erased (sysMapTraced s args) = sysMap s args := by
  unfold sysMapTraced sysMap erased
  simp only [bind_assoc]
  congr 1
  funext self
  split
  · rfl
  · simp only [bind_assoc]
    congr 1
    funext found
    obtain ⟨space, s⟩ := found
    cases space with
    | none => rfl
    | some space =>
      simp only [sysMapIntoTraced, sysMapInto, bind_assoc, KernelState.spaceMapTraced, pure_bind]
      congr 1
      funext found
      obtain ⟨memory, s⟩ := found
      cases memory with
      | none => simp only [bind_assoc, pure_bind]
      | some memory =>
        simp only [bind_assoc]
        congr 1
        funext mapped
        obtain ⟨result, s⟩ := mapped
        congr 1
        funext s
        congr 1
        funext s
        cases result <;> rfl

theorem sysCreateTaskTraced_erase (s : KernelState) (self : TaskObject) (props : BrTaskProps) :
    erased (sysCreateTaskTraced s self props) = sysCreateTask s self props := by
  unfold sysCreateTaskTraced sysCreateTask erased
  simp only [bind_assoc]
  congr 1
  funext found
  obtain ⟨space, s⟩ := found
  cases space with
  | none => rfl
  | some space => simp only [KernelState.taskCreateTraced, bind_assoc, pure_bind]

theorem sysCreateMemoryTraced_erase (s : KernelState) (self : TaskObject)
    (props : BrMemoryProps) :
    erased (sysCreateMemoryTraced s self props) = sysCreateMemory s self props := by
  unfold sysCreateMemoryTraced sysCreateMemory
  split
  · split
    · rfl
    · simp only [erased, KernelState.memoryCreateTraced, bind_assoc, pure_bind, bind_pure]
  · split
    · rfl
    · simp only [erased, sysCreatePmmTraced, sysCreatePmm, pmmAllocTraced, bind_assoc, pure_bind]
      congr 1
      funext allocated
      obtain ⟨result, pmm⟩ := allocated
      cases result with
      | error err => rfl
      | ok range =>
        simp only [KernelState.memoryCreateTraced, bind_assoc, pure_bind, bind_pure]

theorem sysCreateTraced_erase (s : KernelState) (memory : ℕ → USizeRange) (args : BrCreateArgs) :
    erased (sysCreateTraced s memory args) = sysCreate s memory args := by
  unfold sysCreateTraced sysCreate erased
  simp only [bind_assoc]
  congr 1
  funext self
  cases args with
  | task props =>
    by_cases hright : (self.rights &&& brRightTask == 0) = true
    · simp only [hright, if_true, pure_bind]
    · simp only [hright, ← sysCreateTaskTraced_erase]
      rfl
  | space flags => simp only [bind_assoc, pure_bind, bind_pure]
  | memory props => exact sysCreateMemoryTraced_erase s self props
  | other type => rfl

theorem sysBindTraced_erase (s : KernelState) (event : BrEvent) :
    erased (sysBindTraced s event) = sysBind s event := by
  unfold sysBindTraced sysBind erased
  simp only [bind_assoc]
  congr 1
  funext self
  split
  · rfl
  · simp only [eventBindTraced, bind_assoc, pure_bind]

/-- The kernel that lists its operations is the kernel. -/
theorem kernelTraced_erase (s : KernelState) (step : KernelStep) :
    erased (kernelTraced s step) = kernelNext s step := by
  cases step with
  | call call =>
    cases call with
    | map args =>
      simp only [kernelNext, sysCall, ← sysMapTraced_erase]
      simp only [kernelTraced, erased, bind_assoc, pure_bind]
    | create args memory =>
      simp only [kernelNext, sysCall, ← sysCreateTraced_erase]
      simp only [kernelTraced, erased, bind_assoc, pure_bind]
    | _ => simp only [kernelTraced, erased, bind_assoc, pure_bind, bind_pure]
  | bind event =>
    simp only [kernelNext, ← sysBindTraced_erase]
    simp only [kernelTraced, erased, bind_assoc, pure_bind]
  | _ => simp only [kernelTraced, erased, bind_assoc, pure_bind, bind_pure]

/-- The task that executes holds the right. -/
def HoldsRight (s : KernelState) (right : BrRight) : Prop :=
  ∃ self, taskSelf s = .ok self ∧ self.rights &&& right ≠ 0

theorem sysMapTraced_permitted {args : BrMapArgs} {result : BrResult × BrMapArgs × KernelState}
    (h : sysMapTraced s args = .ok (ops, result)) (hop : op ∈ ops) : HoldsRight s op.right := by
  simp only [sysMapTraced, bind_eq_ok] at h
  obtain ⟨self, hself, h⟩ := h
  split at h
  · cases h
    cases hop
  next hallowed =>
    simp only [bind_eq_ok, Prod.exists] at h
    obtain ⟨space, s₁, _, h⟩ := h
    cases space with
    | none =>
      cases h
      cases hop
    | some space =>
      simp only [sysMapIntoTraced, bind_eq_ok, Prod.exists] at h
      obtain ⟨memory, s₂, _, h⟩ := h
      cases memory with
      | none =>
        simp only [bind_eq_ok, pure_eq_ok, Prod.mk.injEq] at h
        obtain ⟨_, _, rfl, _⟩ := h
        cases hop
      | some memory =>
        simp only [KernelState.spaceMapTraced, bind_eq_ok, pure_eq_ok, Prod.exists,
          Prod.mk.injEq] at h
        obtain ⟨ops', _, _, ⟨_, _, _, rfl, _⟩, _, _, _, _, h⟩ := h
        have hops : ops = if (args.flags &&& (brMemWriteThrought ||| brMemGlobal) != 0) = true
            then [.sharedMapping] else [] := by
          split at h <;> (cases h; rfl)
        rw [hops] at hop
        split at hop
        next hshared =>
          cases List.mem_singleton.1 hop
          refine ⟨self, hself, fun hzero ↦ hallowed ?_⟩
          rw [hshared, Bool.true_and, beq_iff_eq]
          exact hzero
        · cases hop

theorem sysCreateMemoryTraced_permitted {self : TaskObject} {props : BrMemoryProps}
    {result : BrResult × Option Created × KernelState} (hself : taskSelf s = .ok self)
    (h : sysCreateMemoryTraced s self props = .ok (ops, result)) (hop : op ∈ ops) :
    HoldsRight s op.right := by
  unfold sysCreateMemoryTraced at h
  split at h
  · split at h
    · cases h
      cases hop
    next hright =>
      simp only [KernelState.memoryCreateTraced, bind_eq_ok, pure_eq_ok, Prod.exists,
        Prod.mk.injEq] at h
      obtain ⟨_, _, _, ⟨_, _, _, rfl, _⟩, _, _, _, _, rfl, _⟩ := h
      cases List.mem_singleton.1 hop
      exact ⟨self, hself, fun hzero ↦ hright (beq_iff_eq.2 hzero)⟩
  · split at h
    · cases h
      cases hop
    next hlower =>
      simp only [sysCreatePmmTraced, pmmAllocTraced, bind_eq_ok, pure_eq_ok, Prod.exists,
        Prod.mk.injEq] at h
      obtain ⟨_, _, _, ⟨allocated, pmm, _, rfl, rfl, rfl⟩, h⟩ := h
      have hops : op ∈ if (props.flags &&& brMemLower == 0) = true then []
          else [Privileged.lowerMemory] := by
        cases allocated with
        | error err =>
          cases h
          exact hop
        | ok range =>
          simp only [KernelState.memoryCreateTraced, bind_eq_ok, pure_eq_ok, Prod.exists,
            Prod.mk.injEq] at h
          obtain ⟨_, _, _, ⟨_, _, _, rfl, _⟩, _, _, _, _, rfl, _⟩ := h
          simpa using hop
      split at hops
      · cases hops
      next hflag =>
        cases List.mem_singleton.1 hops
        refine ⟨self, hself, fun hzero ↦ hlower ?_⟩
        rw [Bool.and_eq_true, bne, beq_iff_eq]
        exact ⟨by simpa using hflag, hzero⟩

theorem sysCreateTraced_permitted {memory : ℕ → USizeRange} {args : BrCreateArgs}
    {result : BrResult × Option Created × KernelState}
    (h : sysCreateTraced s memory args = .ok (ops, result)) (hop : op ∈ ops) :
    HoldsRight s op.right := by
  simp only [sysCreateTraced, bind_eq_ok] at h
  obtain ⟨self, hself, h⟩ := h
  cases args with
  | task props =>
    simp only at h
    split at h
    · cases h
      cases hop
    next hright =>
      have hops : ∀ op ∈ ops, op = .taskCreation := by
        simp only [sysCreateTaskTraced, bind_eq_ok, Prod.exists] at h
        obtain ⟨space, s₁, _, h⟩ := h
        cases space with
        | none =>
          cases h
          nofun
        | some space =>
          simp only [KernelState.taskCreateTraced, bind_eq_ok, pure_eq_ok, Prod.exists,
            Prod.mk.injEq] at h
          obtain ⟨_, _, _, ⟨_, _, _, rfl, _⟩, _, _, _, _, _, _, _, rfl, _⟩ := h
          exact fun op hop ↦ List.mem_singleton.1 hop
      cases hops op hop
      exact ⟨self, hself, fun hzero ↦ hright (beq_iff_eq.2 hzero)⟩
  | space flags =>
    simp only [bind_eq_ok, pure_eq_ok, Prod.mk.injEq] at h
    obtain ⟨_, _, rfl, _⟩ := h
    cases hop
  | memory props => exact sysCreateMemoryTraced_permitted hself h hop
  | other type =>
    cases h
    cases hop

theorem sysBindTraced_permitted {event : BrEvent} {result : BrResult × KernelState}
    (h : sysBindTraced s event = .ok (ops, result)) (hop : op ∈ ops) : HoldsRight s op.right := by
  simp only [sysBindTraced, bind_eq_ok] at h
  obtain ⟨self, hself, h⟩ := h
  split at h
  · cases h
    cases hop
  next hallowed =>
    simp only [eventBindTraced, bind_eq_ok, pure_eq_ok, Prod.exists, Prod.mk.injEq] at h
    obtain ⟨_, _, _, ⟨_, _, _, rfl, _⟩, rfl, _⟩ := h
    split at hop
    next hirq =>
      cases List.mem_singleton.1 hop
      exact ⟨self, hself, fun hzero ↦ hallowed ⟨hirq, hzero⟩⟩
    · cases hop

theorem kernelTraced_permitted {s t : KernelState} {step : KernelStep}
    (h : kernelTraced s step = .ok (ops, t)) (hop : op ∈ ops) : HoldsRight s op.right := by
  unfold kernelTraced at h
  split at h
  · simp only [bind_eq_ok, pure_eq_ok, Prod.exists, Prod.mk.injEq] at h
    obtain ⟨_, _, _, _, h, rfl, _⟩ := h
    exact sysMapTraced_permitted h hop
  · simp only [bind_eq_ok, pure_eq_ok, Prod.exists, Prod.mk.injEq] at h
    obtain ⟨_, _, _, _, h, rfl, _⟩ := h
    exact sysCreateTraced_permitted h hop
  · simp only [bind_eq_ok, pure_eq_ok, Prod.exists, Prod.mk.injEq] at h
    obtain ⟨_, _, _, h, rfl, _⟩ := h
    exact sysBindTraced_permitted h hop
  · simp only [bind_eq_ok, pure_eq_ok, Prod.mk.injEq] at h
    obtain ⟨_, _, rfl, _⟩ := h
    cases hop

/-! ## The machine around the kernel -/

/-- An access to an I/O port. -/
inductive PortAccess where
  | read (port : UInt16) (size : ℤ)
  | write (port : UInt16) (size : ℤ) (data : UInt32)
deriving DecidableEq, Repr

/-- The kernel with what tasks have written to its log and with the accesses to ports. -/
structure World where
  kernel : KernelState
  log : List UInt8
  ports : List PortAccess

/-- The bits that an access of a size moves; other sizes make no access. -/
def portMask (size : ℤ) : Option UInt32 :=
  if size = 1 then some 0xff
  else if size = 2 then some 0xffff
  else if size = 4 then some 0xffffffff
  else none

/-- `arch_in`, where `device` is what the port holds. -/
def archIn (w : World) (port : UInt16) (size : ℤ) (device : UInt32) :
    List Privileged × UInt32 × World :=
  match portMask size with
  | some mask => ([.portAccess], device &&& mask, { w with ports := w.ports ++ [.read port size] })
  | none => ([], 0, w)

/-- `arch_out` -/
def archOut (w : World) (port : UInt16) (size : ℤ) (data : UInt32) : List Privileged × World :=
  match portMask size with
  | some mask => ([.portAccess], { w with ports := w.ports ++ [.write port size (data &&& mask)] })
  | none => ([], w)

/-- `io_write` to `embed_log_writer` -/
def logWrite (w : World) (message : List UInt8) : List Privileged × World :=
  ([.logWrite], { w with log := w.log ++ message })

/-- `sys_log` -/
def sysLog (w : World) (message : List UInt8) :
    Except Fault (List Privileged × BrResult × World) := do
  let self ← taskSelf w.kernel
  if self.rights &&& brRightLog == 0 then pure ([], .notPermitted, w)
  else do
    let (ops, w) := logWrite w message
    pure (ops, .success, w)

/-- `sys_in`, with the data. -/
def sysIn (w : World) (port : UInt16) (size : ℤ) (device : UInt32) :
    Except Fault (List Privileged × BrResult × Option UInt32 × World) := do
  let self ← taskSelf w.kernel
  if self.rights &&& brRightPio == 0 then pure ([], .notPermitted, none, w)
  else do
    let (ops, data, w) := archIn w port size device
    pure (ops, .success, some data, w)

/-- `sys_out` -/
def sysOut (w : World) (port : UInt16) (size : ℤ) (data : UInt32) :
    Except Fault (List Privileged × BrResult × World) := do
  let self ← taskSelf w.kernel
  if self.rights &&& brRightPio == 0 then pure ([], .notPermitted, w)
  else do
    let (ops, w) := archOut w port size data
    pure (ops, .success, w)

/-- The steps of the kernel and the system calls that touch none of its objects. -/
inductive WorldStep where
  | kernel (step : KernelStep)
  | log (message : List UInt8)
  | now (timestamp : UInt64)
  | portIn (port : UInt16) (size : ℤ) (device : UInt32)
  | portOut (port : UInt16) (size : ℤ) (data : UInt32)

def worldTraced (w : World) : WorldStep → Except Fault (List Privileged × World)
  | .kernel step => do
    let (ops, kernel) ← kernelTraced w.kernel step
    pure (ops, { w with kernel })
  | .log message => do
    let (ops, _, w) ← sysLog w message
    pure (ops, w)
  | .now _ => .ok ([], w)
  | .portIn port size device => do
    let (ops, _, _, w) ← sysIn w port size device
    pure (ops, w)
  | .portOut port size data => do
    let (ops, _, w) ← sysOut w port size data
    pure (ops, w)

/-- A step that can be taken, with the operations that it carries out. -/
def WorldSteps (w : World) (action : WorldStep × List Privileged) (w' : World) : Prop :=
  (∀ step, action.1 = .kernel step → Enabled w.kernel step) ∧
    worldTraced w action.1 = .ok (action.2, w')

theorem sysLog_permitted {message : List UInt8} {result : BrResult × World}
    (h : sysLog w message = .ok (ops, result)) (hop : op ∈ ops) : HoldsRight w.kernel op.right := by
  simp only [sysLog, bind_eq_ok] at h
  obtain ⟨self, hself, h⟩ := h
  split at h
  · cases h
    cases hop
  next hright =>
    cases h
    cases List.mem_singleton.1 hop
    exact ⟨self, hself, fun hzero ↦ hright (beq_iff_eq.2 hzero)⟩

theorem sysIn_permitted {port : UInt16} {size : ℤ} {device : UInt32}
    {result : BrResult × Option UInt32 × World} (h : sysIn w port size device = .ok (ops, result))
    (hop : op ∈ ops) : HoldsRight w.kernel op.right := by
  simp only [sysIn, bind_eq_ok] at h
  obtain ⟨self, hself, h⟩ := h
  split at h
  · cases h
    cases hop
  next hright =>
    cases h
    unfold archIn at hop
    split at hop
    · cases List.mem_singleton.1 hop
      exact ⟨self, hself, fun hzero ↦ hright (beq_iff_eq.2 hzero)⟩
    · cases hop

theorem sysOut_permitted {port : UInt16} {size : ℤ} {data : UInt32} {result : BrResult × World}
    (h : sysOut w port size data = .ok (ops, result)) (hop : op ∈ ops) :
    HoldsRight w.kernel op.right := by
  simp only [sysOut, bind_eq_ok] at h
  obtain ⟨self, hself, h⟩ := h
  split at h
  · cases h
    cases hop
  next hright =>
    cases h
    unfold archOut at hop
    split at hop
    · cases List.mem_singleton.1 hop
      exact ⟨self, hself, fun hzero ↦ hright (beq_iff_eq.2 hzero)⟩
    · cases hop

theorem worldSteps_permitted (h : WorldSteps w action w') (hop : op ∈ action.2) :
    HoldsRight w.kernel op.right := by
  obtain ⟨step, ops⟩ := action
  have hstep := h.2
  cases step with
  | kernel step =>
    simp only [worldTraced, bind_eq_ok, pure_eq_ok, Prod.exists, Prod.mk.injEq] at hstep
    obtain ⟨_, _, htraced, rfl, _⟩ := hstep
    exact kernelTraced_permitted htraced hop
  | log message =>
    simp only [worldTraced, bind_eq_ok, pure_eq_ok, Prod.exists, Prod.mk.injEq] at hstep
    obtain ⟨_, _, _, hcall, rfl, _⟩ := hstep
    exact sysLog_permitted hcall hop
  | now timestamp =>
    cases hstep
    cases hop
  | portIn port size device =>
    simp only [worldTraced, bind_eq_ok, pure_eq_ok, Prod.exists, Prod.mk.injEq] at hstep
    obtain ⟨_, _, _, _, hcall, rfl, _⟩ := hstep
    exact sysIn_permitted hcall hop
  | portOut port size data =>
    simp only [worldTraced, bind_eq_ok, pure_eq_ok, Prod.exists, Prod.mk.injEq] at hstep
    obtain ⟨_, _, _, hcall, rfl, _⟩ := hstep
    exact sysOut_permitted hcall hop

/-- The rights that a new task may have after a step. -/
def worldBound (w : World) : WorldStep → Option BrRight
  | .kernel step => stepBound w.kernel step
  | _ => none

/-- Only the steps of the kernel change it. -/
theorem worldTraced_kernel {step : WorldStep} (h : worldTraced w step = .ok (ops, w')) :
    (∃ inner, step = .kernel inner ∧ kernelNext w.kernel inner = .ok w'.kernel) ∨
      (worldBound w step = none ∧ w'.kernel = w.kernel) := by
  cases step with
  | kernel step =>
    simp only [worldTraced, bind_eq_ok, pure_eq_ok, Prod.exists, Prod.mk.injEq] at h
    obtain ⟨_, kernel, htraced, _, rfl⟩ := h
    refine Or.inl ⟨step, rfl, ?_⟩
    rw [← kernelTraced_erase, htraced]
    rfl
  | log message =>
    simp only [worldTraced, sysLog, bind_eq_ok, pure_eq_ok, Prod.exists, Prod.mk.injEq] at h
    obtain ⟨_, _, _, ⟨self, _, hcall⟩, _, rfl⟩ := h
    split at hcall <;> (cases hcall; exact Or.inr ⟨rfl, rfl⟩)
  | now timestamp =>
    cases h
    exact Or.inr ⟨rfl, rfl⟩
  | portIn port size device =>
    simp only [worldTraced, sysIn, bind_eq_ok, pure_eq_ok, Prod.exists, Prod.mk.injEq] at h
    obtain ⟨_, _, _, _, ⟨self, _, hcall⟩, _, rfl⟩ := h
    split at hcall
    · cases hcall
      exact Or.inr ⟨rfl, rfl⟩
    · cases hcall
      refine Or.inr ⟨rfl, ?_⟩
      unfold archIn
      split <;> rfl
  | portOut port size data =>
    simp only [worldTraced, sysOut, bind_eq_ok, pure_eq_ok, Prod.exists, Prod.mk.injEq] at h
    obtain ⟨_, _, _, ⟨self, _, hcall⟩, _, rfl⟩ := h
    split at hcall
    · cases hcall
      exact Or.inr ⟨rfl, rfl⟩
    · cases hcall
      refine Or.inr ⟨rfl, ?_⟩
      unfold archOut
      split <;> rfl

theorem worldSteps_confined (hw : Wf w.kernel) (h : WorldSteps w action w') :
    Wf w'.kernel ∧ RightsConfined (worldBound w action.1) w.kernel w'.kernel := by
  obtain ⟨step, ops⟩ := action
  rcases worldTraced_kernel h.2 with ⟨inner, rfl, hnext⟩ | ⟨hbound, hsame⟩
  · have hleaves := kernelNext_leaves hw (h.1 inner rfl) hnext
    exact ⟨hleaves.wf, hleaves.confined⟩
  · rw [hsame]
    have hleaves : Leaves true (worldBound w step) w.kernel w.kernel [] := .refl hw
    exact ⟨hw, hleaves.confined⟩

/-- The task was created in the run by a call of `sys_create`, and the task that made the call
held its rights then. -/
def CreatedIn (start t : World) (actions : List (WorldStep × List Privileged)) (o : ℕ)
    (rights : BrRight) : Prop :=
  ∃ before action after u v, actions = before ++ action :: after ∧
    Run WorldSteps start before u ∧ WorldSteps u action v ∧ Run WorldSteps v after t ∧
    u.kernel.nextId ≤ o ∧ o < v.kernel.nextId ∧
    ∃ props memory creator, action.1 = .kernel (.call (.create (.task props) memory)) ∧
      taskSelf u.kernel = .ok creator ∧ RightsLe rights creator.rights

/-- Every task has rights that it had at the start of the run, or was created in the run. -/
def RightsFrom (start t : World) (actions : List (WorldStep × List Privileged)) : Prop :=
  ∀ o rights, HasRights t.kernel o rights →
    (∃ before, HasRights start.kernel o before ∧ RightsLe rights before) ∨
      (start.kernel.nextId ≤ o ∧ CreatedIn start t actions o rights)

theorem CreatedIn.snoc {start t t' : World} {actions : List (WorldStep × List Privileged)} {o : ℕ}
    {rights rights' : BrRight} (h : CreatedIn start t actions o rights)
    (hstep : WorldSteps t action t') (hle : RightsLe rights' rights) :
    CreatedIn start t' (actions ++ [action]) o rights' := by
  obtain ⟨before, created, after, u, v, rfl, hbefore, hcreated, hafter, hfirst, hlast, props,
    memory, creator, hcall, hself, hrights⟩ := h
  refine ⟨before, created, after ++ [action], u, v, ?_, hbefore, hcreated,
    hafter.append (.cons hstep (.nil t')), hfirst, hlast, props, memory, creator, hcall, hself,
    hle.trans hrights⟩
  rw [List.append_assoc, List.cons_append]

/-- A bound on the rights of new tasks comes from the task that calls `sys_create`. -/
theorem worldBound_creator (h : WorldSteps w action w')
    (hwithin : Within rights (worldBound w action.1)) :
    ∃ props memory creator, action.1 = .kernel (.call (.create (.task props) memory)) ∧
      taskSelf w.kernel = .ok creator ∧ RightsLe rights creator.rights := by
  obtain ⟨step, ops⟩ := action
  obtain ⟨most, hmost, hle⟩ := hwithin
  cases step with
  | kernel step =>
    cases step with
    | call call =>
      cases call with
      | create args memory =>
        cases args with
        | task props =>
          obtain ⟨creator, hself, _⟩ := h.1 _ rfl
          have hself' : taskSelf w.kernel = .ok creator := hself
          simp only [worldBound, stepBound, callBound, selfRights, hself'] at hmost
          cases hmost
          exact ⟨props, memory, creator, rfl, hself', hle⟩
        | _ => cases hmost
      | _ => cases hmost
    | _ => cases hmost
  | _ => cases hmost

theorem run_created {start t : World} {actions : List (WorldStep × List Privileged)}
    (hstart : Wf start.kernel) (hrun : Run WorldSteps start actions t) :
    (Wf t.kernel ∧ start.kernel.nextId ≤ t.kernel.nextId) ∧ RightsFrom start t actions := by
  have hmotive := hrun.history
    (motive := fun actions t ↦ Run WorldSteps start actions t ∧
      (Wf t.kernel ∧ start.kernel.nextId ≤ t.kernel.nextId) ∧ RightsFrom start t actions)
    ⟨.nil start, ⟨hstart, Nat.le_refl _⟩, fun o rights h ↦ Or.inl ⟨rights, h, .refl _⟩⟩
    (by
      rintro done u action v ⟨hdone, ⟨hu, hnext⟩, hrights⟩ hstep
      obtain ⟨hv, hconfined⟩ := worldSteps_confined hu hstep
      refine ⟨hdone.append (.cons hstep (.nil v)), ⟨hv, hnext.trans hconfined.nextId⟩, ?_⟩
      intro o rights h
      rcases hconfined.task o rights h with ⟨_, between, hbetween, hle⟩ | ⟨hnew, hwithin⟩
      · rcases hrights o between hbetween with ⟨before, hbefore, hle'⟩ | ⟨hlater, hcreated⟩
        · exact Or.inl ⟨before, hbefore, hle.trans hle'⟩
        · exact Or.inr ⟨hlater, hcreated.snoc hstep hle⟩
      · obtain ⟨self, hself, _⟩ := h
        obtain ⟨refs, hlookup⟩ := getTask_eq_ok.1 hself
        exact Or.inr ⟨hnext.trans hnew, done, action, [], u, v, rfl, hdone, hstep, .nil v, hnew,
          hv.fresh hlookup, worldBound_creator hstep hwithin⟩)
  exact hmotive.2

/-- No task has the right. -/
def Absent (right : BrRight) (s : KernelState) : Prop :=
  ∀ o rights, HasRights s o rights → rights &&& right = 0

theorem RightsLe.absent {rights rights' right : BrRight} (h : RightsLe rights rights')
    (habsent : rights' &&& right = 0) : rights &&& right = 0 := by
  rw [← h, UInt32.and_assoc, habsent, UInt32.and_zero]

/-- A right that no task has does not come back. -/
theorem worldSteps_absent {right : BrRight} (hw : Wf w.kernel) (h : WorldSteps w action w')
    (habsent : Absent right w.kernel) : Absent right w'.kernel := by
  intro o rights hrights
  rcases (worldSteps_confined hw h).2.task o rights hrights with
    ⟨_, before, hbefore, hle⟩ | ⟨_, hwithin⟩
  · exact hle.absent (habsent o before hbefore)
  · obtain ⟨props, memory, creator, _, hself, hle⟩ := worldBound_creator h hwithin
    exact hle.absent (habsent w.kernel.self creator.rights ⟨creator, hself, rfl⟩)

/-- Along every run, the rights of a task are among those that it had before, and those of a task
created in the run among those of the task that called `sys_create`, when it did; a right that no
task has never comes back; and every operation that needs a right is carried out for a task that
holds it then. -/
theorem rights_confined {start t : World} {actions : List (WorldStep × List Privileged)}
    (hstart : Wf start.kernel) (hrun : Run WorldSteps start actions t) :
    RightsFrom start t actions ∧
    (∀ right, Absent right start.kernel → Absent right t.kernel) ∧
    ∀ before step ops after, actions = before ++ (step, ops) :: after →
      ∃ u v, Run WorldSteps start before u ∧ WorldSteps u (step, ops) v ∧
        Run WorldSteps v after t ∧ ∀ op ∈ ops, HoldsRight u.kernel op.right := by
  refine ⟨(run_created hstart hrun).2, ?_, ?_⟩
  · intro right habsent
    have hkeeps : ∀ u action v, Wf u.kernel ∧ Absent right u.kernel → WorldSteps u action v →
        Wf v.kernel ∧ Absent right v.kernel := by
      rintro u action v ⟨hu, habsent⟩ hstep
      exact ⟨(worldSteps_confined hu hstep).1, worldSteps_absent hu hstep habsent⟩
    exact (hrun.invariant hkeeps ⟨hstart, habsent⟩).2
  · rintro before step ops after rfl
    obtain ⟨u, hbefore, hrest⟩ := hrun.split
    cases hrest with
    | cons hstep hafter =>
      exact ⟨u, _, hbefore, hstep, hafter, fun op hop ↦ worldSteps_permitted hstep hop⟩

/-- The first program creates a memory object for a device, with the right to do so. -/
theorem rights_confined_dma :
    ∃ start u t, Wf start.kernel ∧
      Run WorldSteps start [(.kernel (.switch 13), []), (.kernel createDma, [.dmaMemory])] t ∧
      Run WorldSteps start [(.kernel (.switch 13), [])] u ∧ HoldsRight u.kernel brRightDma := by
  have hsmall : ∃ vmm, smallMemory = .ok vmm ∧ ∃ kernel, smallBoot vmm = .ok kernel ∧
      Enabled kernel (.switch 13) ∧ ∃ switched, kernelTraced kernel (.switch 13) = .ok switched ∧
        switched.1 = [] ∧ Enabled switched.2 createDma ∧
        ∃ created, kernelTraced switched.2 createDma = .ok created ∧ created.1 = [.dmaMemory] := by
    decide +kernel
  obtain ⟨vmm, _, kernel, hboot, hfirst, ⟨_, s⟩, hswitch, rfl, hsecond, ⟨_, s'⟩, hcreate, rfl⟩ :=
    hsmall
  have hstart : Wf (World.mk kernel [] []).kernel := kernelBoot_wf hboot
  have hstep : WorldSteps ⟨kernel, [], []⟩ (.kernel (.switch 13), []) ⟨s, [], []⟩ := by
    refine ⟨fun step hstep ↦ ?_, ?_⟩
    · cases hstep
      exact hfirst
    · rw [worldTraced, hswitch]
      rfl
  have hstep' : WorldSteps ⟨s, [], []⟩ (.kernel createDma, [.dmaMemory]) ⟨s', [], []⟩ := by
    refine ⟨fun step hstep ↦ ?_, ?_⟩
    · cases hstep
      exact hsecond
    · rw [worldTraced, hcreate]
      rfl
  have hrun := Run.cons hstep (.cons hstep' (.nil _))
  obtain ⟨u, _, hbefore, _, _, hholds⟩ :=
    (rights_confined hstart hrun).2.2 [(.kernel (.switch 13), [])] _ _ [] rfl
  exact ⟨_, u, _, hstart, hrun, hbefore, hholds .dmaMemory List.mem_cons_self⟩

end Brutal.Kernel
