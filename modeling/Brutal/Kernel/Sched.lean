import Brutal.Base.Debug
import Brutal.Lib.Run
import Mathlib.Data.Fintype.Basic

/-!
# The scheduler

`kernel/sched.c` on a machine with any number of processors.  The task that a processor executes is
its `current`; the task that it is to execute is its `next`.  Only the processor itself moves `next`
into `current`, when it takes the interrupt that `sched_switch` runs in, while every processor
assigns the `next` of all of them.

Each section of code that holds the scheduler's lock is one step here.  What the functions of the
blockers answer is not up to the scheduler, so the passes over the blocked tasks take it as an
argument.
-/

namespace Brutal.Kernel

open Base Lib

variable {n : ℕ}

/-- The part of a `Task` that the scheduler reads and writes. -/
structure SchedTask where
  started : Bool
  stopped : Bool
  blocked : Bool
  inSyscall : Bool
  timeStart : UInt64
  timeEnd : UInt64
  deadline : UInt64
deriving DecidableEq, Repr, Inhabited

/-- `Cpu`, with tasks by their number. -/
structure Cpu where
  idle : ℕ
  current : Option ℕ
  next : Option ℕ
deriving DecidableEq, Repr

/-- The state of the scheduler and of its `n + 1` processors. -/
structure Sched (n : ℕ) where
  tick : UInt64
  tasks : List ℕ
  task : ℕ → SchedTask
  cpus : Fin (n + 1) → Cpu

/-- A change to the record of one task. -/
def Sched.modifyTask (s : Sched n) (task : ℕ) (change : SchedTask → SchedTask) : Sched n :=
  { s with task := Function.update s.task task (change (s.task task)) }

/-- `sched_enqueue` -/
def schedEnqueue (s : Sched n) (task : ℕ) : Sched n := { s with tasks := s.tasks ++ [task] }

/-- `sched_start` -/
def schedStart (s : Sched n) (task : ℕ) : Except Fault (Sched n) := do
  assertTruth (!(s.task task).started)
  pure (schedEnqueue (s.modifyTask task fun t ↦ { t with started := true }) task)

/-- `sched_stop` up to the release of the lock. -/
def schedStop (s : Sched n) (task : ℕ) : Sched n :=
  if (s.task task).stopped then s else s.modifyTask task fun t ↦ { t with stopped := true }

/-- The section of `sched_block` that holds the lock, for the task that the processor executes. -/
def schedBlock (s : Sched n) (i : Fin (n + 1)) (deadline : UInt64) : Except Fault (Sched n) :=
  match (s.cpus i).current with
  | none => .error .outOfBounds
  | some task => .ok (s.modifyTask task fun t ↦ { t with blocked := true, deadline := deadline })

/-- The change of `in_syscall` in `task_begin_syscall` and `task_end_syscall`. -/
def taskSyscall (s : Sched n) (i : Fin (n + 1)) (inSyscall : Bool) : Except Fault (Sched n) :=
  match (s.cpus i).current with
  | none => .error .outOfBounds
  | some task => .ok (s.modifyTask task fun t ↦ { t with inSyscall := inSyscall })

/-- `sched_runnable` -/
def schedRunnable (task : SchedTask) : Bool :=
  (task.started && !task.blocked) || (task.started && task.stopped && !task.inSyscall)

/-- `sched_running`, whether `sched_cpu` finds a processor that is to execute the task. -/
def schedRunning (s : Sched n) (task : ℕ) : Bool :=
  (List.finRange (n + 1)).any fun i ↦ (s.cpus i).next = some task

/-- `sched_detach` -/
def schedDetach (s : Sched n) : Option ℕ → Sched n
  | none => s
  | some task =>
    { s.modifyTask task fun t ↦ { t with timeEnd := s.tick } with
      cpus := fun i ↦
        if (s.cpus i).next = some task then { s.cpus i with next := none } else s.cpus i }

/-- `sched_attach` -/
def schedAttach (s : Sched n) (task : ℕ) (i : Fin (n + 1)) : Sched n :=
  { s.modifyTask task fun t ↦ { t with timeStart := s.tick } with
    cpus := Function.update s.cpus i { s.cpus i with next := some task } }

/-- `sched_next` -/
def schedNext (s : Sched n) (task : ℕ) (i : Fin (n + 1)) : Sched n :=
  schedAttach (schedDetach s (s.cpus i).next) task i

/-- `sched_current` -/
def schedCurrent (s : Sched n) (task : ℕ) (i : Fin (n + 1)) : Sched n :=
  let s := schedNext s task i
  { s with cpus := Function.update s.cpus i { s.cpus i with current := some task } }

/-- `task_runnable` -/
def taskRunnable (task : SchedTask) : Bool :=
  task.started && !(task.blocked || (task.stopped && !task.inSyscall))

/-- The other task has waited longer than the best one so far. -/
def waitedMore (s : Sched n) (best : Option ℕ) (other : ℕ) : Bool :=
  match best with
  | none => true
  | some best => (s.task other).timeEnd < (s.task best).timeEnd

/-- `sched_pick` -/
def schedPick (s : Sched n) (best : Option ℕ) (other : ℕ) : Option ℕ :=
  if (s.task other).timeStart != s.tick &&
      (taskRunnable (s.task other) && !schedRunning s other) && waitedMore s best other
  then some other
  else best

/-- `sched_peek` -/
def schedPeek (s : Sched n) : Option ℕ := s.tasks.foldl (schedPick s) none

/-- `sched_dispatch_to_current` -/
def schedDispatchToCurrent (s : Sched n) (task : ℕ) : Option (Sched n) :=
  ((List.finRange (n + 1)).find? fun i ↦ (s.cpus i).current = some task).map (schedNext s task)

/-- `sched_dispatch_to_idle` -/
def schedDispatchToIdle (s : Sched n) (task : ℕ) : Option (Sched n) :=
  ((List.finRange (n + 1)).find? fun i ↦ (s.cpus i).next = some (s.cpus i).idle).map
    (schedNext s task)

/-- `active_time` of the next task of a processor. -/
def activeTime (s : Sched n) (i : Fin (n + 1)) : Except Fault UInt64 :=
  match (s.cpus i).next with
  | none => .error .outOfBounds
  | some task => .ok (s.tick - (s.task task).timeStart)

/-- The choice of a processor in `sched_dispatch_to_active`. -/
def schedActive (s : Sched n) : Except Fault (Fin (n + 1)) :=
  (List.finRange (n + 1)).foldlM (fun best i ↦ do
    let bestTime ← activeTime s best
    let time ← activeTime s i
    pure (if bestTime < time then i else best)) 0

/-- `sched_dispatch_to_active` -/
def schedDispatchToActive (s : Sched n) (task : ℕ) : Except Fault (Option (Sched n)) := do
  let best ← schedActive s
  let time ← activeTime s best
  pure (if time = 0 then none else some (schedNext s task best))

/-- `sched_dispatch`, which fails where it has no place for the task. -/
def schedDispatch (s : Sched n) (task : Option ℕ) : Except Fault (Option (Sched n)) :=
  match task with
  | none => .ok none
  | some task =>
    match schedDispatchToCurrent s task with
    | some s => .ok (some s)
    | none =>
      match schedDispatchToIdle s task with
      | some s => .ok (some s)
      | none => schedDispatchToActive s task

/-- The deadline of the blocker of a task has passed. -/
def hasReachedDeadline (task : SchedTask) (tick : UInt64) : Bool :=
  task.deadline != -1 && task.deadline < tick

/-- What `sched_updated_blocked` does to one task. -/
def schedUpdateTask (reached : ℕ → Bool) (s : Sched n) (task : ℕ) : Sched n :=
  if (s.task task).blocked &&
      (reached task || hasReachedDeadline (s.task task) s.tick || (s.task task).stopped)
  then s.modifyTask task fun t ↦ { t with blocked := false }
  else s

/-- What `sched_updated_blocked` does to one processor. -/
def schedUpdateCpu (s : Sched n) (i : Fin (n + 1)) : Except Fault (Sched n) :=
  match (s.cpus i).current with
  | none => .error .outOfBounds
  | some task => .ok (if taskRunnable (s.task task) then s else schedNext s (s.cpus i).idle i)

/-- `sched_updated_blocked`, where `reached` is what the functions of the blockers answer. -/
def schedUpdatedBlocked (s : Sched n) (reached : ℕ → Bool) : Except Fault (Sched n) :=
  (List.finRange (n + 1)).foldlM schedUpdateCpu (s.tasks.foldl (schedUpdateTask reached) s)

/-- `sched_yield` up to the release of the lock. -/
def schedYield (s : Sched n) (i : Fin (n + 1)) (reached : ℕ → Bool) : Except Fault (Sched n) := do
  let s ← schedUpdatedBlocked s reached
  pure (schedNext s ((schedPeek s).getD (s.cpus i).idle) i)

/-- The loop of `sched_schedule`. -/
def schedDispatchAll : ℕ → Sched n → Except Fault (Sched n)
  | 0, _ => .error .depth
  | depth + 1, s => do
    match ← schedDispatch s (schedPeek s) with
    | some s => schedDispatchAll depth s
    | none => pure s

/-- `sched_schedule` up to the release of the lock.  A round of the loop uses up a task that was
not given to a processor in this tick yet. -/
def schedSchedule (s : Sched n) (reached : ℕ → Bool) : Except Fault (Sched n) := do
  let s ← schedUpdatedBlocked { s with tick := s.tick + 1 } reached
  schedDispatchAll (s.tasks.length + 1) s

/-- `sched_switch` -/
def schedSwitch (s : Sched n) (i : Fin (n + 1)) : Sched n :=
  { s with cpus := Function.update s.cpus i { s.cpus i with current := (s.cpus i).next } }

/-- `sched_finalize` -/
def schedFinalize (s : Sched n) : Sched n :=
  { s with
    tasks := s.tasks.filter fun task ↦
      !((s.task task).stopped && !schedRunnable (s.task task) && !schedRunning s task) }

/-- What `tasking_initialize` does for one processor, whose boot task is `2 * i + 1`. -/
def taskingBoot (s : Sched n) (i : Fin (n + 1)) : Except Fault (Sched n) := do
  let s ← schedStart s (2 * i + 1)
  pure (schedCurrent s (2 * i + 1) i)

/-- `tasking_initialize`.  The idle task of processor `i` is `2 * i`, and the finalizer has the
number behind those of all boot tasks. -/
def taskingInitialize : Except Fault (Sched n) := do
  let s : Sched n :=
    { tick := 0, tasks := [], task := fun _ ↦ default, cpus := fun i ↦ ⟨2 * i, none, none⟩ }
  let s ← (List.finRange (n + 1)).foldlM taskingBoot s
  schedStart s (2 * (n + 1))

end Brutal.Kernel
