import Brutal.Kernel.Init
import Brutal.Kernel.SyscallBalance
import Brutal.Lib.Run

/-!
# Reference counts over whole runs

Every step of the kernel changes the reference counts and the holders of an object alike, but for
the references that it leaves behind: `sys_inspect` keeps the one that it takes, and destructors
that do not drop all that their object points to leave the rest.
-/

namespace Brutal.Kernel

open Base Ds Lib

variable {waits : Bool} {bound : Option BrRight}
variable {s t : KernelState} {task id space cpuCount : ℕ} {step : KernelStep}
  {memory : ℕ → USizeRange} {elf : ElfModule}

/-- The rights of the task that executes. -/
def selfRights (s : KernelState) : BrRight :=
  match taskSelf s with
  | .ok self => self.rights
  | .error _ => 0

theorem selfBounded (s : KernelState) : SelfBounded s (some (selfRights s)) := by
  intro self hself
  rw [selfRights, hself]
  exact ⟨_, rfl, .refl _⟩

/-- The references that a system call leaves behind. -/
def leaked (waits : Bool) (s : KernelState) : SysCall → List ℕ
  | .inspect handle => if handle = brHandleSelf then [] else (handleObject s handle).toList
  | .close handle => (handleObject s handle).elim [] (left waits s)
  | _ => []

/-- The rights that a new task may have after a system call: only a call that creates a task
makes one. -/
def callBound (s : KernelState) : SysCall → Option BrRight
  | .create (.task _) _ => some (selfRights s)
  | _ => none

theorem sysCall_leaves {call : SysCall} {result : Option BrResult} (hs : Wf s)
    (h : sysCall s call = .ok (result, t)) (hwaits : waits = true ∨ result.isSome) :
    Leaves waits (callBound s call) s t (leaked waits s call) := by
  cases call with
  | map args =>
    simp only [sysCall, bind_eq_ok, pure_eq_ok, Prod.exists, Prod.mk.injEq] at h
    obtain ⟨_, _, _, h, _, rfl⟩ := h
    exact (sysMap_owes hs h).leaves
  | unmap args =>
    simp only [sysCall, bind_eq_ok, pure_eq_ok, Prod.exists, Prod.mk.injEq] at h
    obtain ⟨_, _, h, _, rfl⟩ := h
    exact (sysUnmap_owes hs h).leaves
  | create args memory =>
    simp only [sysCall, bind_eq_ok, pure_eq_ok, Prod.exists, Prod.mk.injEq] at h
    obtain ⟨_, _, _, h, _, rfl⟩ := h
    apply (sysCreate_owes hs _ h).leaves
    intro props hargs
    rw [hargs]
    exact selfBounded s
  | dup handle =>
    simp only [sysCall, bind_eq_ok, pure_eq_ok, Prod.exists, Prod.mk.injEq] at h
    obtain ⟨_, _, _, h, _, rfl⟩ := h
    exact (sysDup_owes hs h).leaves
  | start handle =>
    simp only [sysCall, bind_eq_ok, pure_eq_ok, Prod.exists, Prod.mk.injEq] at h
    obtain ⟨_, _, h, _, rfl⟩ := h
    exact (sysStart_owes hs h).leaves
  | exit args =>
    simp only [sysCall, bind_eq_ok, pure_eq_ok, Prod.exists, Prod.mk.injEq] at h
    obtain ⟨_, _, h, _, rfl⟩ := h
    exact (sysExit_owes hs h).leaves
  | ipc args acquired =>
    simp only [sysCall, bind_eq_ok, pure_eq_ok, Prod.exists, Prod.mk.injEq] at h
    obtain ⟨_, _, h, rfl, rfl⟩ := h
    exact (sysIpc_owes hs h (by simpa using hwaits)).leaves
  | drop args =>
    simp only [sysCall, bind_eq_ok, pure_eq_ok, Prod.exists, Prod.mk.injEq] at h
    obtain ⟨_, _, h, _, rfl⟩ := h
    exact (sysDrop_owes hs h).leaves
  | close handle =>
    simp only [sysCall, bind_eq_ok, pure_eq_ok, Prod.exists, Prod.mk.injEq] at h
    obtain ⟨_, _, h, _, rfl⟩ := h
    exact sysClose_leaves hs h
  | inspect handle =>
    simp only [sysCall, bind_eq_ok, pure_eq_ok, Prod.exists, Prod.mk.injEq] at h
    obtain ⟨_, _, _, h, _, rfl⟩ := h
    exact sysInspect_leaves hs h

/-- The destructors that run when a reference to the object is dropped give back all that their
objects hold: no task among them has parcels with objects in its channel, and no space among them
has more than one mapping. -/
def DropsAll (waits : Bool) (s : KernelState) (o : ℕ) : Prop :=
  ∀ d ∈ doomed s o, payloadLeft waits (payloadAt s d) = []

theorem left_eq_nil {o : ℕ} : left waits s o = [] ↔ DropsAll waits s o := by
  rw [left, lostWith, List.flatMap_eq_nil_iff]
  rfl

/-- The system call leaves no reference behind. -/
def LeakFree (waits : Bool) (s : KernelState) : SysCall → Prop
  | .inspect handle => handle = brHandleSelf ∨ handleObject s handle = none
  | .close handle => ∀ o, handleObject s handle = some o → DropsAll waits s o
  | _ => True

theorem leaked_eq_nil {call : SysCall} : leaked waits s call = [] ↔ LeakFree waits s call := by
  cases call with
  | inspect handle =>
    by_cases hself : handle = brHandleSelf
    · simp [leaked, LeakFree, hself]
    · simp [leaked, LeakFree, hself]
  | close handle =>
    cases hobject : handleObject s handle with
    | none => simp [leaked, LeakFree, hobject]
    | some o => simp [leaked, LeakFree, hobject, left_eq_nil]
  | _ => simp [leaked, LeakFree]

theorem tally_eq_zero {objects : List ℕ} : (∀ o, tally objects o = 0) ↔ objects = [] := by
  constructor
  · intro h
    apply List.eq_nil_iff_forall_not_mem.2
    intro o ho
    have hpos := List.count_pos_iff.2 ho
    have hzero := h o
    unfold tally at hzero
    omega
  · rintro rfl o
    rfl

/-- Nothing stays behind exactly when the references balance as before. -/
theorem Leaves.balanced_iff {lost : List ℕ} (h : Leaves waits bound s t lost) :
    (∀ o, balance (payloadRefs waits) t o = balance (payloadRefs waits) s o) ↔ lost = [] := by
  rw [← tally_eq_zero]
  apply forall_congr'
  intro o
  rw [h.balances]
  omega

theorem Leaves.refl (hs : Wf s) : Leaves waits bound s s [] := by
  have hstart : Owes waits bound s s [] := .refl hs
  exact hstart.leaves

theorem Leaves.of_change (h : Change (payloadRefs waits) bound s t 0 0) :
    Leaves waits bound s t [] where
  wf := h.wf
  confined := h.confined
  balances o := by simp [h.balances, tally_nil]

theorem Leaves.trans {s t u : KernelState} {lost lost' : List ℕ}
    (hfirst : Leaves waits bound s t lost) (hsecond : Leaves waits bound t u lost') :
    Leaves waits bound s u (lost ++ lost') where
  wf := hsecond.wf
  confined := hfirst.confined.trans hsecond.confined
  balances o := by
    rw [hsecond.balances, hfirst.balances, tally_append, Pi.add_apply, add_assoc]

/-- A step that changes neither the objects nor the queue. -/
theorem Leaves.of_objects (hs : Wf s) (hobjects : t.objects = s.objects)
    (hnext : t.nextId = s.nextId) (hqueue : t.queue = s.queue) : Leaves waits bound s t [] :=
  .of_change (.of_objects hs hobjects hnext hqueue)

theorem Leaves.of_gains (hs : Wf s) (h : Gains waits bound s t) : Leaves waits bound s t [] := by
  have hstart : Owes waits bound s s [] := .refl hs
  exact (hstart.gain h).leaves

/-- A wait that ends no longer holds its reference. -/
theorem endWait_change {self : TaskObject} {refs : ℕ} (hs : Wf s)
    (hself : s.objects.lookup s.self = some ⟨refs, .task self⟩) (h : s.endWait = .ok t) :
    Change (payloadRefs waits) bound s t 0 (tally (waitRefs waits self.wait)) := by
  simp only [KernelState.endWait, taskSelf, bind_eq_ok, getTask_eq_ok] at h
  obtain ⟨self', ⟨refs', hself'⟩, hset⟩ := h
  rw [hself] at hself'
  cases hself'
  have hchange : Change (payloadRefs waits) bound s t 0 _ :=
    setPayload_change hs hself hset trivial (keepsRights_task rfl)
  apply hchange.of_eq rfl
  have hnone : waitRefs waits none = [] := by cases waits <;> rfl
  simp only [holds_task, hnone, tally_nil]
  abel

/-- What stays behind when a wait for a task ends. -/
def leftWait (waits : Bool) (s : KernelState) (wait : Option IpcWait) : List ℕ :=
  (wait.bind IpcWait.target).elim [] (left waits s)

theorem kernelResume_leaves {self : TaskObject} {acquired : Bool} {result : Option BrResult}
    (hs : Wf s) (hself : taskSelf s = .ok self) (h : kernelResume s acquired = .ok (result, t)) :
    Leaves true bound s t (leftWait true s self.wait) := by
  simp only [kernelResume, hself, bind_eq_ok, Except.ok.injEq, exists_eq_left'] at h
  obtain ⟨refs, hlookup⟩ := getTask_eq_ok.1 hself
  cases hwait : self.wait with
  | none =>
    rw [hwait] at h
    cases h
  | some wait =>
    rw [hwait] at h
    simp only [ipcResume, bind_eq_ok, pure_eq_ok, Prod.exists, Prod.mk.injEq] at h
    obtain ⟨result', t', ⟨t₁, hderef, t₂, hend, hrest⟩, _, rfl⟩ := h
    have hended : Leaves true bound s t₂ (leftWait true s (some wait)) := by
      cases htarget : wait.target with
      | none =>
        rw [htarget] at hderef
        cases hderef
        have hchange : Change (payloadRefs true) bound s t₂ 0 _ := endWait_change hs hlookup hend
        have hnil : waitRefs true self.wait = [] := by
          rw [waitRefs, hwait, if_pos rfl, Option.bind_some, htarget]
          rfl
        rw [leftWait, Option.bind_some, htarget]
        apply Leaves.of_change (hchange.of_eq rfl _)
        rw [hnil, tally_nil]
      | some target =>
        rw [htarget] at hderef
        have hcut := (objectDeref_cut hs hderef).1
        have hend' := hend
        simp only [KernelState.endWait, taskSelf, bind_eq_ok, getTask_eq_ok] at hend'
        obtain ⟨self', ⟨refs', hself'⟩, _⟩ := hend'
        rw [hcut.self] at hself'
        have hstill := hcut.lookup hlookup hself'
        rw [← hcut.self] at hstill
        have hchange : Change (payloadRefs true) bound t₁ t₂ 0 _ :=
          endWait_change hcut.wf hstill hend
        have hone : waitRefs true self.wait = [target] := by
          rw [waitRefs, hwait, if_pos rfl, Option.bind_some, htarget]
          rfl
        rw [leftWait, Option.bind_some, htarget]
        apply deref_leaves hs hderef hchange.wf hchange.confined
        intro x
        rw [hchange.balances, hone, tally_singleton]
    have hsent : Leaves true bound t₂ t' [] := by
      split at hrest
      · exact (ipcSent_owes (.refl hended.wf) hrest).leaves
      · cases hrest
        exact .refl hended.wf
    have htotal := hended.trans hsent
    rwa [List.append_nil] at htotal

theorem withWait_refs (self : TaskObject) (op : IpcWait) (blocked : Bool) (result : BrResult) :
    waitRefs waits (self.withWait op blocked result).wait = waitRefs waits self.wait := by
  rw [waitRefs, waitRefs, TaskObject.withWait]
  cases self.wait <;> rfl

theorem updated_cases (tick : UInt64) (self : TaskObject) (op : IpcWait) (reached : Bool) :
    ∃ blocked result, updated tick self op reached = self.withWait op blocked result := by
  unfold updated
  split_ifs
  · exact ⟨_, _, rfl⟩
  · exact ⟨_, _, rfl⟩
  · exact ⟨_, _, rfl⟩
  · exact ⟨_, _, rfl⟩

theorem schedUpdateTask_leaves {acquired : Bool} (hs : Wf s)
    (h : s.schedUpdateTask task acquired = .ok t) : Leaves waits bound s t [] := by
  simp only [KernelState.schedUpdateTask, bind_eq_ok] at h
  obtain ⟨self, _, h⟩ := h
  split at h
  · cases h
    exact .refl hs
  · split at h
    · cases h
      exact .refl hs
    · simp only [bind_eq_ok, Prod.exists, getTask_eq_ok] at h
      obtain ⟨reached, wait, t₁, hwait, self', ⟨refs, hself'⟩, hset⟩ := h
      have hstart : Owes waits bound s s [] := .refl hs
      have htried := (channelWait_owes hstart hwait).1
      obtain ⟨blocked, result, hupdated⟩ := updated_cases t₁.tick self' wait reached
      rw [hupdated] at hset
      have hgains : Gains waits bound t₁ t :=
        setTask_gains htried.wf hself' hset (.refl _) rfl rfl rfl (withWait_refs ..)
      exact (htried.gain hgains).leaves

/-- A message about an event carries no objects. -/
theorem eventDispatch_objects {typeOf : ℕ → BrType} {self self' : Channel ℕ} {event : BrEvent}
    {result : BrResult} (h : eventDispatch typeOf self event = .ok (result, self')) :
    channelObjects self' = channelObjects self := by
  unfold eventDispatch channelSendUnlock at h
  split at h
  next =>
    cases h
    rfl
  next hroom =>
    have hpack : parcelPack typeOf (eventMsg event) none = .ok (.success, eventParcel event) := rfl
    rw [hpack] at h
    cases h
    rcases ringPush_cases self.msgs (eventParcel event) with ⟨_, hpush⟩ | ⟨msgs, hpush, _, hadd⟩
    · rw [hpush]
    · rw [hpush, channelObjects, hadd, List.flatMap_append, channelObjects]
      exact List.append_nil _

theorem eventTriggerFrom_leaves {event : BrEvent} {bindings bindings' : List EventBinding}
    (hs : Wf s) (h : KernelState.eventTriggerFrom event bindings s = .ok (bindings', t)) :
    Leaves waits bound s t [] := by
  induction bindings generalizing s bindings' with
  | nil =>
    cases h
    exact .refl hs
  | cons binding rest ih =>
    simp only [KernelState.eventTriggerFrom, bind_eq_ok, pure_eq_ok, Prod.exists,
      Prod.mk.injEq] at h
    obtain ⟨binding', t₁, hone, rest', t₂, hrest, _, rfl⟩ := h
    have hfirst : Leaves waits bound s t₁ [] := by
      simp only [KernelState.eventTriggerBinding, bind_eq_ok] at hone
      obtain ⟨same, _, hone⟩ := hone
      split at hone
      · simp only [bind_eq_ok, pure_eq_ok, Prod.exists, Prod.mk.injEq, getTask_eq_ok] at hone
        obtain ⟨task, ⟨refs, htask⟩, _, channel, hdispatch, t', hset, _, rfl⟩ := hone
        apply Leaves.of_gains hs
        exact setTask_gains hs htask hset (.refl _) rfl rfl (eventDispatch_objects hdispatch) rfl
      · cases hone
        exact .refl hs
    exact hfirst.trans (ih hfirst.wf hrest)

/-- The queue gives up its reference to a task that leaves it. -/
theorem schedDequeue_leaves (hs : Wf s) (hqueue : task ∈ s.queue)
    (h : s.schedDequeue task = .ok t) :
    Leaves waits bound s t (left waits { s with queue := s.queue.erase task } task) := by
  unfold KernelState.schedDequeue at h
  have hwf : Wf { s with queue := s.queue.erase task } := hs.of_objects rfl rfl
  have hcut := (objectDeref_cut hwf h).1
  have hconfined : RightsConfined bound { s with queue := s.queue.erase task } t :=
    deref_confined hwf h
  refine ⟨hcut.wf, ⟨hconfined.nextId, hconfined.task⟩, fun x ↦ ?_⟩
  have hx := objectDeref_balance (splits_refs waits) hwf h x
  have hcount : ((s.queue.erase task).count x : ℤ) =
      s.queue.count x - (Pi.single task 1 : ℕ → ℤ) x := by
    by_cases hxt : x = task
    · have hpos := List.count_pos_iff.2 hqueue
      rw [hxt, Pi.single_eq_same, List.count_erase_self]
      omega
    · rw [Pi.single_eq_of_ne hxt, List.count_erase_of_ne hxt, sub_zero]
  have hqueued : balance (payloadRefs waits) { s with queue := s.queue.erase task } x =
      balance (payloadRefs waits) s x + (Pi.single task 1 : ℕ → ℤ) x := by
    rw [balance, balance, hcount]
    have hheld : heldBy (payloadRefs waits) { s with queue := s.queue.erase task } x =
        heldBy (payloadRefs waits) s x := rfl
    have hrefs : refCount { s with queue := s.queue.erase task } x = refCount s x := rfl
    rw [hheld, hrefs]
    omega
  rw [hx, hqueued, tally, left]
  omega

/-- The references that a step leaves behind, where those that waiting calls have taken count as
held. -/
def stepLeaked (s : KernelState) : KernelStep → List ℕ
  | .call call => leaked true s call
  | .resume _ =>
    match taskSelf s with
    | .ok self => leftWait true s self.wait
    | .error _ => []
  | .finalize task => left true { s with queue := s.queue.erase task } task
  | _ => []

/-- The rights that a new task may have after a step. -/
def stepBound (s : KernelState) : KernelStep → Option BrRight
  | .call call => callBound s call
  | _ => none

theorem kernelNext_leaves (hs : Wf s) (henabled : Enabled s step) (h : kernelNext s step = .ok t) :
    Leaves true (stepBound s step) s t (stepLeaked s step) := by
  cases step with
  | call call =>
    simp only [kernelNext, bind_eq_ok, pure_eq_ok, Prod.exists] at h
    obtain ⟨result, t', h, rfl⟩ := h
    exact sysCall_leaves hs h (Or.inl rfl)
  | resume acquired =>
    simp only [kernelNext, bind_eq_ok, pure_eq_ok, Prod.exists] at h
    obtain ⟨result, t', h, rfl⟩ := h
    obtain ⟨self, hself, _⟩ := henabled
    have hself' : taskSelf s = .ok self := hself
    simp only [stepLeaked, hself']
    exact kernelResume_leaves hs hself' h
  | update task acquired => exact schedUpdateTask_leaves hs h
  | tick =>
    cases h
    exact .of_objects hs rfl rfl rfl
  | switch task =>
    cases h
    exact .of_objects hs rfl rfl rfl
  | bind event =>
    simp only [kernelNext, sysBind, bind_eq_ok, pure_eq_ok, Prod.exists] at h
    obtain ⟨result, t', ⟨self, _, h⟩, rfl⟩ := h
    split at h
    · cases h
      exact .refl hs
    · simp only [bind_eq_ok, pure_eq_ok, Prod.exists, Prod.mk.injEq] at h
      obtain ⟨_, _, _, _, rfl⟩ := h
      exact .of_objects hs rfl rfl rfl
  | unbind event =>
    simp only [kernelNext, sysUnbind, bind_eq_ok, pure_eq_ok, Prod.exists, Prod.mk.injEq] at h
    obtain ⟨_, _, ⟨_, _, _, _, rfl⟩, rfl⟩ := h
    exact .of_objects hs rfl rfl rfl
  | ack event =>
    simp only [kernelNext, sysAck, bind_eq_ok, pure_eq_ok, Prod.exists, Prod.mk.injEq] at h
    obtain ⟨_, _, ⟨_, _, _, _, rfl⟩, rfl⟩ := h
    exact .of_objects hs rfl rfl rfl
  | trigger event =>
    simp only [kernelNext, KernelState.eventTrigger, bind_eq_ok, pure_eq_ok, Prod.exists] at h
    obtain ⟨bindings, t', h, rfl⟩ := h
    have hloop : Leaves true none s t' [] := eventTriggerFrom_leaves hs h
    exact hloop.trans (.of_objects hloop.wf rfl rfl rfl)
  | finalize task => exact schedDequeue_leaves hs henabled.1 h

/-! ## The first state -/

theorem objectDeref_wf {o : ℕ} (hs : Wf s) (h : objectDeref s o = .ok t) : Wf t :=
  (objectDeref_cut hs h).1.wf

theorem spaceCreate_wf {flags : UInt64} (hs : Wf s) (h : s.spaceCreate memory flags = .ok (id, t)) :
    Wf t := by
  have hchange : Change (payloadRefs true) none s t (Pi.single id 1) _ ∧ _ :=
    spaceCreate_change hs h
  exact hchange.1.wf

theorem memoryCreate_wf {type : MemoryType} {range : USizeRange} (hs : Wf s)
    (h : s.memoryCreate type range = .ok (id, t)) : Wf t := by
  have hchange : Change (payloadRefs true) none s t (Pi.single id 1) _ ∧ _ :=
    memoryCreate_change hs h
  exact hchange.1.wf

theorem taskCreate_wf {rights : BrRight} {flags : UInt64} (hs : Wf s)
    (h : s.taskCreate space rights flags = .ok (id, t)) : Wf t := by
  obtain ⟨refs, _, _, hchange⟩ :
      ∃ refs : ℕ → ℤ, 0 ≤ refs ∧ refCount s id = 0 ∧
        Change (payloadRefs true) (some rights) s t (refs + Pi.single id 1) (Pi.single id 1) :=
    taskCreate_change hs h ⟨rights, rfl, .refl _⟩
  exact hchange.wf

theorem schedStart_wf (hs : Wf s) (h : s.schedStart task = .ok t) : Wf t := by
  have hgains : Gains true none s t := schedStart_gains hs h
  exact hgains.wf

theorem spaceMap_wf {space memory : ℕ} {offset size vaddr : UInt64} {flags : BrMemoryFlags}
    {result : SpaceResult} (hs : Wf s)
    (h : s.spaceMap space memory offset size vaddr flags = .ok (result, t)) : Wf t := by
  have hgains : Gains true none s t := spaceMap_gains hs h
  exact hgains.wf

theorem taskingCreateIdle_wf (hs : Wf s) (h : taskingCreateIdle memory s = .ok (task, t)) :
    Wf t := by
  simp only [taskingCreateIdle, bind_eq_ok, pure_eq_ok, Prod.exists, Prod.mk.injEq] at h
  obtain ⟨space, t₁, hspace, task', t₂, htask, t₃, hderef, _, rfl⟩ := h
  exact objectDeref_wf (taskCreate_wf (spaceCreate_wf hs hspace) htask) hderef

theorem taskingCreateBoot_wf (hs : Wf s) (h : taskingCreateBoot memory s = .ok (task, t)) :
    Wf t := by
  simp only [taskingCreateBoot, bind_eq_ok, pure_eq_ok, Prod.exists, Prod.mk.injEq] at h
  obtain ⟨space, t₁, hspace, task', t₂, htask, t₃, hstart, t₄, hderef, t₅, hderef', _, rfl⟩ := h
  have hstarted := schedStart_wf (taskCreate_wf (spaceCreate_wf hs hspace) htask) hstart
  exact objectDeref_wf (objectDeref_wf hstarted hderef) hderef'

theorem taskingCreate_wf {cpu : ℕ} (hs : Wf s) (h : taskingCreate memory s cpu = .ok t) : Wf t := by
  simp only [taskingCreate, bind_eq_ok, pure_eq_ok, Prod.exists] at h
  obtain ⟨_, t₁, hidle, task, t₂, hboot, rfl⟩ := h
  exact (taskingCreateBoot_wf (taskingCreateIdle_wf hs hidle) hboot).of_objects rfl rfl

theorem taskingInitialize_wf (hs : Wf s) (h : s.taskingInitialize memory cpuCount = .ok t) :
    Wf t := by
  simp only [KernelState.taskingInitialize, bind_eq_ok, pure_eq_ok, Prod.exists] at h
  obtain ⟨t₁, hcpus, _, t₂, hboot, rfl⟩ := h
  have hrun : Run (Succeeds (taskingCreate memory)) s (List.range cpuCount) t₁ := .ofFold hcpus
  have hwf := hrun.invariant (fun _ _ _ hs hstep ↦ taskingCreate_wf hs hstep) hs
  exact taskingCreateBoot_wf hwf hboot

theorem mapHeap_wf {size vaddr : UInt64} {result : SpaceResult} (hs : Wf s)
    (h : mapHeap s space size vaddr = .ok (result, t)) : Wf t := by
  simp only [mapHeap, bind_eq_ok, pure_eq_ok, Prod.exists, Prod.mk.injEq] at h
  obtain ⟨range, t₁, htake, memory, t₂, hmemory, _, t₃, hmap, t₄, hderef, _, rfl⟩ := h
  obtain ⟨vmm, rfl⟩ := heapTake_vmm htake
  have hwf : Wf { s with vmm } := hs.of_objects rfl rfl
  exact objectDeref_wf (spaceMap_wf (memoryCreate_wf hwf hmemory) hmap) hderef

theorem unwrap_eq_ok {α β : Type} {result : Except BrResult α × β} {value : α} {s : β}
    (h : unwrap result = .ok (value, s)) : result = (.ok value, s) := by
  obtain ⟨result, s'⟩ := result
  cases result with
  | error err => cases h
  | ok value' =>
    cases h
    rfl

theorem elfLoadSegment_wf {space elf : ℕ} {program : ElfProgram} (hs : Wf s)
    (h : elfLoadSegment space elf program s = .ok t) : Wf t := by
  unfold elfLoadSegment at h
  dsimp only at h
  split at h
  · simp only [bind_eq_ok, pure_eq_ok, Prod.exists] at h
    obtain ⟨result, t₁, hmap, _, t₂, hunwrap, rfl⟩ := h
    cases unwrap_eq_ok hunwrap
    exact spaceMap_wf hs hmap
  · simp only [bind_eq_ok, pure_eq_ok, Prod.exists] at h
    obtain ⟨result, t₁, hmap, _, t₂, hunwrap, rfl⟩ := h
    cases unwrap_eq_ok hunwrap
    exact mapHeap_wf hs hmap

theorem elfLoadProgram_wf {space elf count : ℕ} {programs : List ElfProgram} (hs : Wf s)
    (h : elfLoadProgram space elf count programs s = .ok t) : Wf t := by
  induction count generalizing programs s with
  | zero =>
    cases h
    exact hs
  | succ left ih =>
    cases programs with
    | nil => cases h
    | cons program rest =>
      rw [elfLoadProgram] at h
      split at h
      · exact ih hs h
      · simp only [bind_eq_ok] at h
        obtain ⟨t₁, hsegment, hrest⟩ := h
        exact ih (elfLoadSegment_wf hs hsegment) hrest

theorem initStart_wf (hs : Wf s) (h : initStart memory elf s = .ok t) : Wf t := by
  simp only [initStart, bind_eq_ok, Prod.exists] at h
  obtain ⟨elfObj, t₁, helf, _, _, space, t₂, hspace, task, t₃, htask, t₄, hderef, t₅, hload, _,
    t₆, hstack, passed, t₇, hpassed, _, t₈, hunwrap, t₉, href, t₁₀, hstart, t₁₁, hderef', hend⟩ := h
  cases unwrap_eq_ok hunwrap
  have hcreated := taskCreate_wf (spaceCreate_wf (memoryCreate_wf hs helf) hspace) htask
  have hloaded := elfLoadProgram_wf (objectDeref_wf hcreated hderef) hload
  have hmapped := mapHeap_wf (mapHeap_wf hloaded hstack) hpassed
  have hrefs : Change (payloadRefs true) none t₇ t₉ _ _ := objectRef_change hmapped href
  exact objectDeref_wf (objectDeref_wf (schedStart_wf hrefs.wf hstart) hderef') hend

theorem kernelEmpty_wf (vmm : Vmm) : Wf (kernelEmpty vmm) where
  refs_pos h := by cases h
  fresh h := by cases h
  payload h := by cases h

theorem kernelBoot_wf {vmm : Vmm} (h : kernelBoot memory cpuCount elf vmm = .ok s) : Wf s := by
  simp only [kernelBoot, bind_eq_ok] at h
  obtain ⟨t₁, htasking, t₂, hinit, hstop⟩ := h
  have hwf := initStart_wf (taskingInitialize_wf (kernelEmpty_wf vmm) htasking) hinit
  have hgains : Gains true none t₂ s := schedStop_gains hwf hstop
  exact hgains.wf

/-- A step of the kernel that can be taken and does not stop it. -/
def Steps : KernelState → KernelStep → KernelState → Prop :=
  Guarded (Succeeds kernelNext) Enabled

theorem steps_leaves (hs : Wf s) (h : Steps s step t) :
    Leaves true (stepBound s step) s t (stepLeaked s step) :=
  kernelNext_leaves hs h.1 h.2

theorem run_wf {vmm : Vmm} {steps : List KernelStep}
    (hboot : kernelBoot memory cpuCount elf vmm = .ok s) (hrun : Run Steps s steps t) : Wf t := by
  have hkeeps : ∀ u step v, Wf u → Steps u step v → Wf v := by
    intro u step v hu hstep
    exact (steps_leaves hu hstep).wf
  exact hrun.invariant hkeeps (kernelBoot_wf hboot)

/-- The step leaves no reference behind, where those that waiting calls have taken count as
held. -/
def LeakFreeStep (s : KernelState) : KernelStep → Prop
  | .call call => LeakFree true s call
  | .resume _ => ∀ self target, taskSelf s = .ok self →
      self.wait.bind IpcWait.target = some target → DropsAll true s target
  | .finalize task => DropsAll true { s with queue := s.queue.erase task } task
  | _ => True

theorem stepLeaked_eq_nil (h : LeakFreeStep s step) : stepLeaked s step = [] := by
  cases step with
  | call call => exact leaked_eq_nil.2 h
  | resume acquired =>
    unfold stepLeaked
    cases hself : taskSelf s with
    | error fault => rfl
    | ok self =>
      simp only [leftWait]
      cases htarget : self.wait.bind IpcWait.target with
      | none => rfl
      | some target => exact left_eq_nil.2 (h self target hself htarget)
  | finalize task => exact left_eq_nil.2 h
  | _ => rfl

/-- Steps that leave nothing behind keep the references balanced, with those of the calls that
wait. -/
theorem run_balanced {steps : List KernelStep} (hs : Wf s)
    (hrun : Run (Guarded Steps LeakFreeStep) s steps t) (o : ℕ) :
    imbalance t o - inFlight t o = imbalance s o - inFlight s o := by
  have hinv : ∀ u step v, (Wf u ∧ balance (payloadRefs true) u o = balance (payloadRefs true) s o) →
      Guarded Steps LeakFreeStep u step v →
      Wf v ∧ balance (payloadRefs true) v o = balance (payloadRefs true) s o := by
    intro u step v hu hstep
    have hleaves := steps_leaves hu.1 hstep.2
    rw [stepLeaked_eq_nil hstep.1] at hleaves
    refine ⟨hleaves.wf, ?_⟩
    rw [hleaves.balanced_iff.2 rfl o, hu.2]
  have hend := (hrun.invariant hinv ⟨hs, rfl⟩).2
  rw [balance_waits, balance_waits] at hend
  exact hend

/-- In every reachable kernel, a system call that completes keeps the reference count of every
object less the number of its holders exactly when it leaves no reference behind.  A call of
`sys_ipc` that waits takes several steps, between which other tasks make calls; the reference to
its target is then held by the waiting call, and every sequence of steps that leave nothing behind
keeps the references balanced. -/
theorem sysCall_balanced_iff {memory : ℕ → USizeRange} {cpuCount : ℕ} {elf : ElfModule} {vmm : Vmm}
    {start s : KernelState} {steps : List KernelStep}
    (hboot : kernelBoot memory cpuCount elf vmm = .ok start) (hrun : Run Steps start steps s) :
    (∀ call result t, sysCall s call = .ok (some result, t) →
      ((∀ o, imbalance t o = imbalance s o) ↔ LeakFree false s call)) ∧
    ∀ later t, Run (Guarded Steps LeakFreeStep) s later t →
      ∀ o, imbalance t o - inFlight t o = imbalance s o - inFlight s o := by
  have hs := run_wf hboot hrun
  constructor
  · intro call result t hcall
    have hleaves : Leaves false (callBound s call) s t (leaked false s call) :=
      sysCall_leaves hs hcall (Or.inr rfl)
    rw [← leaked_eq_nil, ← hleaves.balanced_iff]
    simp only [balance_holders]
  · intro later t hlater
    exact run_balanced hs hlater

/-- The memory of a machine with 96 pages, whose kernel has an empty top table. -/
def smallMemory : Except Fault Vmm := do
  let pmm ← pmmInitialize (fun _ _ ↦ false) ⟨[⟨⟨0x10000, 0x60000⟩, .free⟩]⟩
  let result ← heapAllocLower pmm memPageSize
  let (heapResult, pmm) ← unwrap result
  pure (clearTable ⟨fun _ _ ↦ pmlCleanEntry, heapResult.base, pmm⟩ heapResult.base)

/-- The machine with one processor and an empty program, which is task 13. -/
def smallBoot (vmm : Vmm) : Except Fault KernelState :=
  kernelBoot (fun _ ↦ ⟨0, 0⟩) 0 ⟨0x60000, 0x1000, true, 0, []⟩ vmm

/-- The first program creates a memory object, which is object 16 and gets the handle 0. -/
def createDma : KernelStep := .call (.create (.memory ⟨0, 0x1000, brMemDma⟩) fun _ ↦ ⟨0, 0⟩)

/-- What a test says about the state before and after a call that follows `createDma`. -/
def afterCreate (call : SysCall) (test : KernelState → KernelState → Bool) :
    Except Fault Bool := do
  let vmm ← smallMemory
  let start ← smallBoot vmm
  let s₁ ← kernelNext start (.switch 13)
  let s ← kernelNext s₁ createDma
  let (result, t) ← sysCall s call
  pure (decide (Enabled start (.switch 13)) && decide (Enabled s₁ createDma) && result.isSome &&
    test s t)

/-- The run that `afterCreate` evaluates. -/
theorem afterCreate_run (call : SysCall) (test : KernelState → KernelState → Bool)
    (h : afterCreate call test = .ok true) :
    ∃ vmm start s result t, smallBoot vmm = .ok start ∧
      Run Steps start [.switch 13, createDma] s ∧ sysCall s call = .ok (some result, t) ∧
      test s t = true := by
  simp only [afterCreate, bind_eq_ok, pure_eq_ok, Prod.exists, Bool.and_eq_true,
    decide_eq_true_eq, Option.isSome_iff_exists] at h
  obtain ⟨vmm, _, start, hboot, s₁, hswitch, s, hcreate, _, t, hcall,
    ⟨⟨henabled, henabled'⟩, result, rfl⟩, htest⟩ := h
  exact ⟨vmm, start, s, result, t, hboot,
    .cons ⟨henabled, hswitch⟩ (.cons ⟨henabled', hcreate⟩ (.nil s)), hcall, htest⟩

/-- Closing the handle of the memory object balances. -/
theorem sysCall_balanced_iff_close :
    ∃ vmm start s result t, smallBoot vmm = .ok start ∧
      Run Steps start [.switch 13, createDma] s ∧ sysCall s (.close 0) = .ok (some result, t) ∧
      ∀ o, imbalance t o = imbalance s o := by
  obtain ⟨vmm, start, s, result, t, hboot, hrun, hcall, htest⟩ :=
    afterCreate_run (.close 0) (fun s _ ↦
      decide (handleObject s 0 = some 16 ∧
        ∀ d ∈ doomed s 16, payloadLeft false (payloadAt s d) = []))
      (by decide +kernel)
  obtain ⟨hobject, hdrops⟩ := of_decide_eq_true htest
  have hfree : LeakFree false s (.close 0) := by
    intro o ho
    rw [hobject] at ho
    cases ho
    exact hdrops
  exact ⟨vmm, start, s, result, t, hboot, hrun, hcall,
    ((sysCall_balanced_iff hboot hrun).1 _ _ _ hcall).2 hfree⟩

/-- `sys_inspect` of the memory object leaves a reference to it behind. -/
theorem sysCall_balanced_fails :
    ∃ vmm start s result t, smallBoot vmm = .ok start ∧
      Run Steps start [.switch 13, createDma] s ∧ sysCall s (.inspect 0) = .ok (some result, t) ∧
      ¬ ∀ o, imbalance t o = imbalance s o := by
  obtain ⟨vmm, start, s, result, t, hboot, hrun, hcall, htest⟩ :=
    afterCreate_run (.inspect 0) (fun s t ↦ decide (imbalance t 16 ≠ imbalance s 16))
      (by decide +kernel)
  refine ⟨vmm, start, s, result, t, hboot, hrun, hcall, fun hsame ↦ ?_⟩
  exact of_decide_eq_true htest (hsame 16)

end Brutal.Kernel
