import Brutal.Kernel.Object

/-!
# System calls

`kernel/syscalls.c`, with what `kernel/channel.c` and `kernel/sched.c` do for a call that blocks.
A call is one step, but for `sys_ipc` where it blocks: its task then keeps an `IpcWait`, the passes
of `sched_updated_blocked` try the operation again, and the task resumes the call when one of them
has ended the wait.  Other calls and interrupts may come in between.
-/

namespace Brutal.Kernel

open Base Boot Ds Lib

def taskSelf (s : KernelState) : Except Fault TaskObject := getTask s s.self

/-- A space by its handle or that of the task itself, with a reference to it. -/
def lookupSpace (s : KernelState) (self : TaskObject) (handle : UInt64) :
    Except Fault (Option ℕ × KernelState) :=
  if handle = brHandleSelf then do
    let s ← objectRef s self.space
    pure (some self.space, s)
  else s.domainLookup self.domain handle .space

/-- A task by its handle or the task itself, with a reference to it. -/
def lookupTask (s : KernelState) (self : TaskObject) (handle : UInt64) :
    Except Fault (Option ℕ × KernelState) :=
  if handle = brHandleSelf then do
    let s ← objectRef s s.self
    pure (some s.self, s)
  else s.domainLookup self.domain handle .task

/-- `sys_map`, once it has a reference to the space. -/
def sysMapInto (s : KernelState) (self : TaskObject) (args : BrMapArgs) (space : ℕ) :
    Except Fault (BrResult × BrMapArgs × KernelState) := do
  let (memory, s) ← s.domainLookup self.domain args.memory .memory
  match memory with
  | none => do
    let s ← objectDeref s space
    pure (.badHandle, args, s)
  | some memory => do
    let (result, s) ← s.spaceMap space memory args.offset args.size args.vaddr args.flags
    let s ← objectDeref s space
    let s ← objectDeref s memory
    match result with
    | .error err => pure (err, args, s)
    | .ok range => pure (.success, { args with vaddr := range.base, size := range.size }, s)

/-- `sys_map` -/
def sysMap (s : KernelState) (args : BrMapArgs) :
    Except Fault (BrResult × BrMapArgs × KernelState) := do
  let self ← taskSelf s
  if args.flags &&& (brMemWriteThrought ||| brMemGlobal) != 0 && self.rights &&& brRightDma == 0
  then pure (.notPermitted, args, s)
  else do
    let (space, s) ← lookupSpace s self args.space
    match space with
    | none => pure (.badHandle, args, s)
    | some space => sysMapInto s self args space

/-- The result of a call from that of an operation. -/
def resultOf {α : Type} : Except BrResult α → BrResult
  | .ok _ => .success
  | .error err => err

/-- `sys_unmap` -/
def sysUnmap (s : KernelState) (args : BrUnmapArgs) : Except Fault (BrResult × KernelState) := do
  let self ← taskSelf s
  let (space, s) ← lookupSpace s self args.space
  match space with
  | none => pure (.badHandle, s)
  | some space => do
    let (result, s) ← s.spaceUnmap space ⟨args.vaddr, args.size⟩
    let s ← objectDeref s space
    pure (resultOf result, s)

/-- What `sys_create` writes back: `id`, `handle` and, for memory that it allocates, `addr`. -/
structure Created where
  id : ℕ
  handle : UInt64
  addr : Option UInt64
deriving DecidableEq, Repr

/-- The end of every `sys_create_*`: a handle for the new object, whose first reference goes. -/
def createHandle (s : KernelState) (self : TaskObject) (id : ℕ) (addr : Option UInt64) :
    Except Fault (BrResult × Option Created × KernelState) := do
  let (handle, s) ← s.domainAdd self.domain id
  let s ← objectDeref s id
  pure (.success, some ⟨id, handle, addr⟩, s)

/-- `sys_create_task` -/
def sysCreateTask (s : KernelState) (self : TaskObject) (props : BrTaskProps) :
    Except Fault (BrResult × Option Created × KernelState) := do
  let (space, s) ← lookupSpace s self props.space
  match space with
  | none => pure (.badHandle, none, s)
  | some space => do
    let (task, s) ← s.taskCreate space (props.rights &&& self.rights) (props.flags ||| brTaskUser)
    let (handle, s) ← s.domainAdd self.domain task
    let s ← objectDeref s space
    let s ← objectDeref s task
    pure (.success, some ⟨task, handle, none⟩, s)

/-- The part of `sys_create_memory` for memory from the allocator. -/
def sysCreatePmm (s : KernelState) (self : TaskObject) (props : BrMemoryProps) :
    Except Fault (BrResult × Option Created × KernelState) := do
  let (result, pmm) ← pmmAlloc s.vmm.pmm props.size (props.flags &&& brMemLower == 0)
  let s := { s with vmm := { s.vmm with pmm } }
  match result with
  | .error err => pure (err, none, s)
  | .ok range => do
    let (id, s) ← s.memoryCreate .pmm range
    createHandle s self id (some range.base)

/-- `sys_create_memory` -/
def sysCreateMemory (s : KernelState) (self : TaskObject) (props : BrMemoryProps) :
    Except Fault (BrResult × Option Created × KernelState) :=
  if props.flags &&& brMemDma != 0 then
    if self.rights &&& brRightDma == 0 then .ok (.notPermitted, none, s)
    else do
      let (id, s) ← s.memoryCreate .dma ⟨props.addr, props.size⟩
      createHandle s self id none
  else if props.flags &&& brMemLower != 0 && self.rights &&& brRightDma == 0 then
    .ok (.notPermitted, none, s)
  else sysCreatePmm s self props

/-- `sys_create_space` -/
def sysCreateSpace (s : KernelState) (self : TaskObject) (memory : ℕ → USizeRange)
    (flags : UInt64) : Except Fault (BrResult × Option Created × KernelState) := do
  let (id, s) ← s.spaceCreate memory flags
  createHandle s self id none

/-- `sys_create`, where `memory` is what a new vector of free ranges holds behind its elements. -/
def sysCreate (s : KernelState) (memory : ℕ → USizeRange) (args : BrCreateArgs) :
    Except Fault (BrResult × Option Created × KernelState) := do
  let self ← taskSelf s
  match args with
  | .task props =>
    if self.rights &&& brRightTask == 0 then pure (.notPermitted, none, s)
    else sysCreateTask s self props
  | .space flags => sysCreateSpace s self memory flags
  | .memory props => sysCreateMemory s self props
  | .other _ => pure (.badArguments, none, s)

/-- `sys_dup`, with the new handle. -/
def sysDup (s : KernelState) (handle : UInt64) :
    Except Fault (BrResult × Option UInt64 × KernelState) := do
  let self ← taskSelf s
  let (object, s) ← s.domainLookup self.domain handle .any
  match object with
  | none => pure (.badHandle, none, s)
  | some object => do
    let (copy, s) ← s.domainAdd self.domain object
    let s ← objectDeref s object
    pure (.success, some copy, s)

/-- `sys_start`, without the registers that it sets. -/
def sysStart (s : KernelState) (handle : UInt64) : Except Fault (BrResult × KernelState) := do
  let self ← taskSelf s
  let (task, s) ← s.domainLookup self.domain handle .task
  match task with
  | none => pure (.badHandle, s)
  | some task => do
    let s ← s.schedStart task
    let s ← objectDeref s task
    pure (.success, s)

/-- `sys_exit` -/
def sysExit (s : KernelState) (args : BrExitArgs) : Except Fault (BrResult × KernelState) := do
  let self ← taskSelf s
  let (task, s) ← lookupTask s self args.handle
  match task with
  | none => pure (.badHandle, s)
  | some task => do
    let s ← s.schedStop task args.result
    let s ← objectDeref s task
    pure (.success, s)

/-- `sys_drop`, once it has a reference to the task. -/
def sysDropFrom (s : KernelState) (rights : BrRight) (task : ℕ) :
    Except Fault (BrResult × KernelState) := do
  let object ← getTask s task
  if object.rights &&& rights == 0 then do
    let s ← objectDeref s task
    pure (.notPermitted, s)
  else do
    let s ← setPayload s task (.task { object with rights := object.rights &&& ~~~rights })
    let s ← objectDeref s task
    pure (.success, s)

/-- `sys_drop` -/
def sysDrop (s : KernelState) (args : BrDropArgs) : Except Fault (BrResult × KernelState) := do
  let self ← taskSelf s
  let (task, s) ← lookupTask s self args.handle
  match task with
  | none => pure (.badHandle, s)
  | some task => sysDropFrom s args.rights task

/-- `sys_close` -/
def sysClose (s : KernelState) (handle : UInt64) : Except Fault (BrResult × KernelState) := do
  let self ← taskSelf s
  s.domainRemove self.domain handle

/-- The union in `BrInspectArgs`, by the type of the object. -/
inductive Infos where
  | memory (range : USizeRange)
  | domain (objectCount : ℕ)
  | space (flags : UInt64)
  | task (rights : BrRight) (stopped started blocked : Bool)
deriving DecidableEq, Repr

/-- `sys_stat_memory`, `sys_stat_domain`, `sys_stat_space` and `sys_stat_task` -/
def sysStat : Payload → Infos
  | .memory self => .memory self.range
  | .domain self => .domain self.objects.cells.length
  | .space flags _ => .space flags
  | .task self => .task self.rights self.sched.stopped self.sched.started self.sched.blocked

/-- The object that `sys_inspect` is about. -/
def lookupInspect (s : KernelState) (self : TaskObject) (handle : UInt64) :
    Except Fault (Option ℕ × KernelState) :=
  if handle = brHandleSelf then .ok (some s.self, s) else s.domainLookup self.domain handle .any

/-- `sys_inspect`, with the identifier of the object and what it says about it. -/
def sysInspect (s : KernelState) (handle : UInt64) :
    Except Fault (BrResult × Option (ℕ × Infos) × KernelState) := do
  let self ← taskSelf s
  let (object, s) ← lookupInspect s self handle
  match object with
  | none => pure (.badHandle, none, s)
  | some id => do
    let object ← getObject s id
    pure (.success, some (id, sysStat object.payload), s)

/-! ## Messages -/

/-- `channel_send_unlock` on the channel of a task, which counts the references that
`parcel_pack` takes and, where it fails, gives back. -/
def KernelState.channelSendUnlock (s : KernelState) (target domain : ℕ) (msg : BrMsg) :
    Except Fault (BrResult × KernelState) := do
  let task ← getTask s target
  if ringFull task.channel.msgs then pure (.channelFull, s)
  else do
    let self ← getDomain s domain
    let (result, parcel) ← parcelPack (objectType s) msg (some self)
    let s ← objectRefAll s (parcelObjects parcel)
    if result ≠ .success then do
      let s ← objectDerefAll s (parcelObjects parcel)
      pure (result, s)
    else do
      let channel : Channel ℕ := ⟨(ringPush task.channel.msgs parcel).2⟩
      let s ← setPayload s target (.task { task with channel })
      pure (.success, s)

/-- `channel_recv_unlock` on the channel and the domain of a task. -/
def KernelState.channelRecvUnlock (s : KernelState) (task : ℕ) (msg : BrMsg) :
    Except Fault (BrResult × BrMsg × KernelState) := do
  let self ← getTask s task
  match ringPop self.channel.msgs with
  | (none, _) => pure (.channelEmpty, msg, s)
  | (some parcel, msgs) => do
    let s ← setPayload s task (.task { self with channel := ⟨msgs⟩ })
    let domain ← getDomain s self.domain
    let (result, msg, domain') ← parcelUnpack parcel (some domain)
    let s ← objectRefAll s (parcelObjects parcel)
    let s ← setPayload s self.domain (.domain (domain'.getD domain))
    let s ← objectDerefAll s (parcelObjects parcel)
    pure (result, msg, s)

/-- `channel_wait_send` and `channel_wait_recv` for a call of the task.  Where the lock of the
channel is not acquired, another processor holds it. -/
def KernelState.channelWait (s : KernelState) (task : ℕ) (wait : IpcWait) (acquired : Bool) :
    Except Fault (Bool × IpcWait × KernelState) :=
  if !acquired then .ok (false, wait, s)
  else
    match wait.target with
    | some target => do
      let self ← getTask s task
      let (result, s) ← s.channelSendUnlock target self.domain wait.msg
      pure (result != .channelFull, { wait with opResult := result }, s)
    | none => do
      let (result, msg, s) ← s.channelRecvUnlock task wait.msg
      pure (result != .channelEmpty, { wait with opResult := result, msg }, s)

/-- The part of `sched_block` that leaves the task blocked.  A task is in one call at a time. -/
def KernelState.schedBlock (s : KernelState) (wait : IpcWait) : Except Fault KernelState := do
  let self ← taskSelf s
  assertTruth self.wait.isNone
  let sched :=
    { self.sched with blocked := true, inSyscall := true, deadline := wait.args.deadline }
  setPayload s s.self (.task { self with sched, wait := some wait })

/-- What `sys_ipc` has returned, the result and its arguments; nothing while it waits. -/
abbrev IpcResult := Option (BrResult × BrIpcArgs)

/-- `channel_recv` for `sys_ipc`. -/
def ipcRecv (s : KernelState) (args : BrIpcArgs) (msg : BrMsg) (acquired : Bool) :
    Except Fault (IpcResult × KernelState) :=
  if args.flags &&& brIpcBlock != 0 then do
    let (reached, wait, s) ← s.channelWait s.self ⟨args, none, msg, .success, .success⟩ acquired
    if reached then pure (some (wait.opResult, { args with msg := wait.msg }), s)
    else do
      let s ← s.schedBlock wait
      pure (none, s)
  else do
    let (result, msg, s) ← s.channelRecvUnlock s.self msg
    pure (some (result, { args with msg }), s)

/-- `sys_ipc` after `channel_send` has returned. -/
def ipcSent (s : KernelState) (args : BrIpcArgs) (msg : BrMsg) (result : BrResult)
    (acquired : Bool) : Except Fault (IpcResult × KernelState) :=
  if result ≠ .success then .ok (some (result, args), s)
  else if args.flags &&& brIpcRecv != 0 then ipcRecv s args msg acquired
  else .ok (some (.success, { args with msg }), s)

/-- `channel_send` for `sys_ipc`, which then drops its reference to the target. -/
def ipcSend (s : KernelState) (self : TaskObject) (args : BrIpcArgs) (target : ℕ) (msg : BrMsg)
    (acquired : Bool × Bool) : Except Fault (IpcResult × KernelState) :=
  if args.flags &&& brIpcBlock != 0 then do
    let (reached, wait, s) ←
      s.channelWait s.self ⟨args, some target, msg, .success, .success⟩ acquired.1
    if reached then do
      let s ← objectDeref s target
      ipcSent s args msg wait.opResult acquired.2
    else do
      let s ← s.schedBlock wait
      pure (none, s)
  else do
    let (result, s) ← s.channelSendUnlock target self.domain msg
    let s ← objectDeref s target
    ipcSent s args msg result acquired.2

/-- `sys_ipc`, where `acquired` says whether the locks of the two channels are free. -/
def sysIpc (s : KernelState) (args : BrIpcArgs) (acquired : Bool × Bool) :
    Except Fault (IpcResult × KernelState) := do
  let self ← taskSelf s
  if args.flags &&& brIpcSend != 0 then do
    let fromAddr := { args.msg.fromAddr with id := UInt64.ofNat s.self }
    let (target, s) ← globalLookup s args.to.id .task
    match target with
    | none => pure (some (.badId, args), s)
    | some target =>
      ipcSend s self args target { args.msg with fromAddr, toAddr := args.to } acquired
  else ipcSent s args args.msg .success acquired.2

/-- The end of a wait, in the record of the task. -/
def KernelState.endWait (s : KernelState) : Except Fault KernelState := do
  let self ← taskSelf s
  setPayload s s.self
    (.task { self with sched := { self.sched with inSyscall := false }, wait := none })

/-- `sys_ipc` after `sched_block` has returned. -/
def ipcResume (s : KernelState) (wait : IpcWait) (acquired : Bool) :
    Except Fault (IpcResult × KernelState) := do
  let result := if wait.result ≠ .success then wait.result else wait.opResult
  let s ← derefOption s wait.target
  let s ← s.endWait
  if wait.target.isSome then ipcSent s wait.args wait.msg result acquired
  else pure (some (result, { wait.args with msg := wait.msg }), s)

/-- The system calls that deal in objects, with what decides them besides the state. -/
inductive SysCall where
  | map (args : BrMapArgs)
  | unmap (args : BrUnmapArgs)
  | create (args : BrCreateArgs) (memory : ℕ → USizeRange)
  | dup (handle : UInt64)
  | start (handle : UInt64)
  | exit (args : BrExitArgs)
  | ipc (args : BrIpcArgs) (acquired : Bool × Bool)
  | drop (args : BrDropArgs)
  | close (handle : UInt64)
  | inspect (handle : UInt64)

/-- The result of a call, and nothing while it waits. -/
def sysCall (s : KernelState) : SysCall → Except Fault (Option BrResult × KernelState)
  | .map args => do
    let (result, _, s) ← sysMap s args
    pure (some result, s)
  | .unmap args => do
    let (result, s) ← sysUnmap s args
    pure (some result, s)
  | .create args memory => do
    let (result, _, s) ← sysCreate s memory args
    pure (some result, s)
  | .dup handle => do
    let (result, _, s) ← sysDup s handle
    pure (some result, s)
  | .start handle => do
    let (result, s) ← sysStart s handle
    pure (some result, s)
  | .exit args => do
    let (result, s) ← sysExit s args
    pure (some result, s)
  | .ipc args acquired => do
    let (result, s) ← sysIpc s args acquired
    pure (result.map Prod.fst, s)
  | .drop args => do
    let (result, s) ← sysDrop s args
    pure (some result, s)
  | .close handle => do
    let (result, s) ← sysClose s handle
    pure (some result, s)
  | .inspect handle => do
    let (result, _, s) ← sysInspect s handle
    pure (some result, s)

/-- What else the kernel does. -/
inductive KernelStep where
  | call (call : SysCall)
  /-- The task goes on with its call of `sys_ipc`. -/
  | resume (acquired : Bool)
  /-- `sched_updated_blocked`, for one task. -/
  | update (task : ℕ) (acquired : Bool)
  | tick
  /-- A processor that executes the task enters the kernel. -/
  | switch (task : ℕ)
  | bind (event : BrEvent)
  | unbind (event : BrEvent)
  | ack (event : BrEvent)
  | trigger (event : BrEvent)
  /-- `sched_finalize`, for one task. -/
  | finalize (task : ℕ)

/-- A task with another state of its `ChannelOp` and of its `Blocker`. -/
def TaskObject.withWait (self : TaskObject) (op : IpcWait) (blocked : Bool) (result : BrResult) :
    TaskObject :=
  { self with
    sched := { self.sched with blocked }
    wait := self.wait.map fun wait ↦ { wait with msg := op.msg, opResult := op.opResult, result } }

/-- What `sched_updated_blocked` makes of a blocked task whose operation was tried. -/
def updated (tick : UInt64) (self : TaskObject) (op : IpcWait) (reached : Bool) : TaskObject :=
  if reached then self.withWait op false .success
  else if hasReachedDeadline self.sched tick then self.withWait op false .timeout
  else if self.sched.stopped then self.withWait op false .interrupted
  else self.withWait op true op.result

/-- `sched_updated_blocked`, for one task. -/
def KernelState.schedUpdateTask (s : KernelState) (task : ℕ) (acquired : Bool) :
    Except Fault KernelState := do
  let self ← getTask s task
  match self.wait with
  | none => pure s
  | some wait =>
    if !self.sched.blocked then pure s
    else do
      let (reached, wait, s) ← s.channelWait task wait acquired
      let self ← getTask s task
      setPayload s task (.task (updated s.tick self wait reached))

/-- The bindings as `kernel/event.c` sees them; binding does not touch the channels. -/
def KernelState.events (s : KernelState) : Events ℕ := ⟨s.bindings, fun _ ↦ channelCreate⟩

/-- `sys_bind` -/
def sysBind (s : KernelState) (event : BrEvent) : Except Fault (BrResult × KernelState) := do
  let self ← taskSelf s
  if event.type = .irq ∧ self.rights &&& brRightIrq = 0 then pure (.notPermitted, s)
  else do
    let (result, events) ← eventBind s.events s.self event
    pure (result, { s with bindings := events.bindings })

/-- `sys_unbind` -/
def sysUnbind (s : KernelState) (event : BrEvent) : Except Fault (BrResult × KernelState) := do
  let (result, events) ← eventUnbind s.events s.self event
  pure (result, { s with bindings := events.bindings })

/-- `sys_ack` -/
def sysAck (s : KernelState) (event : BrEvent) : Except Fault (BrResult × KernelState) := do
  let (result, events) ← eventAck s.events s.self event
  pure (result, { s with bindings := events.bindings })

/-- The body of the loop of `event_trigger`, on the channel of the task. -/
def KernelState.eventTriggerBinding (s : KernelState) (event : BrEvent) (binding : EventBinding) :
    Except Fault (EventBinding × KernelState) := do
  let same ← brEventEq binding.event event
  if same && binding.ack then do
    let task ← getTask s binding.task
    let (_, channel) ← eventDispatch (objectType s) task.channel event
    let s ← setPayload s binding.task (.task { task with channel })
    pure ({ binding with ack := false }, s)
  else pure (binding, s)

/-- The loop of `event_trigger`. -/
def KernelState.eventTriggerFrom (event : BrEvent) :
    List EventBinding → KernelState → Except Fault (List EventBinding × KernelState)
  | [], s => .ok ([], s)
  | binding :: rest, s => do
    let (binding, s) ← s.eventTriggerBinding event binding
    let (rest, s) ← KernelState.eventTriggerFrom event rest s
    pure (binding :: rest, s)

/-- `event_trigger` -/
def KernelState.eventTrigger (s : KernelState) (event : BrEvent) : Except Fault KernelState := do
  let (bindings, s) ← KernelState.eventTriggerFrom event s.bindings s
  pure { s with bindings }

/-- The step of a task that goes on with its call. -/
def kernelResume (s : KernelState) (acquired : Bool) :
    Except Fault (Option BrResult × KernelState) := do
  let self ← taskSelf s
  match self.wait with
  | none => .error .panic
  | some wait => do
    let (result, s) ← ipcResume s wait acquired
    pure (result.map Prod.fst, s)

/-- One step of the kernel. -/
def kernelNext (s : KernelState) : KernelStep → Except Fault KernelState
  | .call call => do
    let (_, s) ← sysCall s call
    pure s
  | .resume acquired => do
    let (_, s) ← kernelResume s acquired
    pure s
  | .update task acquired => s.schedUpdateTask task acquired
  | .tick => .ok { s with tick := s.tick + 1 }
  | .switch task => .ok { s with self := task }
  | .bind event => do
    let (_, s) ← sysBind s event
    pure s
  | .unbind event => do
    let (_, s) ← sysUnbind s event
    pure s
  | .ack event => do
    let (_, s) ← sysAck s event
    pure s
  | .trigger event => s.eventTrigger event
  | .finalize task => s.schedDequeue task

/-- When a step can be taken: a task that waits takes no other step, a processor executes a queued
task that is runnable, and `sched_finalize` takes a stopped task that no processor executes. -/
def Enabled (s : KernelState) : KernelStep → Prop
  | .call _ => ∃ self, getTask s s.self = .ok self ∧ self.wait = none
  | .resume _ => ∃ self, getTask s s.self = .ok self ∧ self.wait.isSome ∧
      self.sched.blocked = false
  | .switch task => task ∈ s.queue ∧ ∃ self, getTask s task = .ok self ∧ taskRunnable self.sched
  | .update task _ => task ∈ s.queue
  | .finalize task => task ∈ s.queue ∧ task ≠ s.self ∧ ∃ self, getTask s task = .ok self ∧
      self.sched.stopped = true ∧ schedRunnable self.sched = false
  | _ => True

instance (s : KernelState) : DecidablePred (Enabled s)
  | .call _ => inferInstanceAs (Decidable (∃ self, getTask s s.self = .ok self ∧ self.wait = none))
  | .resume _ => inferInstanceAs (Decidable (∃ self, getTask s s.self = .ok self ∧
      self.wait.isSome ∧ self.sched.blocked = false))
  | .switch task => inferInstanceAs (Decidable (task ∈ s.queue ∧
      ∃ self, getTask s task = .ok self ∧ taskRunnable self.sched))
  | .update task _ => inferInstanceAs (Decidable (task ∈ s.queue))
  | .finalize task => inferInstanceAs (Decidable (task ∈ s.queue ∧ task ≠ s.self ∧
      ∃ self, getTask s task = .ok self ∧ self.sched.stopped = true ∧
        schedRunnable self.sched = false))
  | .tick | .bind _ | .unbind _ | .ack _ | .trigger _ => inferInstanceAs (Decidable True)

end Brutal.Kernel
