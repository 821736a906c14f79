import Brutal.Kernel.Sched

/-!
# Every processor has one next task

All assignments of `next` go through `sched_next`.  It takes the old task off every processor that
has it next, which is one, and gives the processor at hand the new one; `sched_pick` leaves out the
tasks that some processor has next already.
-/

namespace Brutal.Kernel

open Base Lib

variable {n : ℕ}
variable {s t : Sched n} {task depth : ℕ} {i : Fin (n + 1)} {reached : ℕ → Bool}

/-- Every processor has a next task, no two have the same, and an idle task is next on its own
processor only. -/
structure NextUnique (s : Sched n) : Prop where
  assigned : ∀ i, (s.cpus i).next.isSome = true
  unique : ∀ i j task, (s.cpus i).next = some task → (s.cpus j).next = some task → i = j
  idle_own : ∀ i j, (s.cpus i).next = some (s.cpus j).idle → i = j
  idle_inj : ∀ i j, (s.cpus i).idle = (s.cpus j).idle → i = j
  idle_tasks : ∀ i, (s.cpus i).idle ∉ s.tasks

/-- Giving a processor its next task changes nothing else about the processors. -/
theorem schedNext_cpus (hs : NextUnique s) (task : ℕ) (i j : Fin (n + 1)) :
    (schedNext s task i).cpus j =
      if j = i then { s.cpus i with next := some task } else s.cpus j := by
  obtain ⟨old, hold⟩ := Option.isSome_iff_exists.1 (hs.assigned i)
  by_cases hji : j = i
  · subst hji
    rw [if_pos rfl]
    simp [schedNext, schedAttach, schedDetach, hold]
  · have hother : (s.cpus j).next ≠ some old := by
      intro hnext
      exact hji (hs.unique j i old hnext hold)
    rw [if_neg hji]
    simp [schedNext, schedAttach, schedDetach, hold, hji, hother]

theorem schedDetach_tasks (s : Sched n) (task : Option ℕ) :
    (schedDetach s task).tasks = s.tasks := by
  cases task <;> rfl

theorem schedNext_tasks (s : Sched n) (task : ℕ) (i : Fin (n + 1)) :
    (schedNext s task i).tasks = s.tasks :=
  schedDetach_tasks s _

theorem schedDetach_tick (s : Sched n) (task : Option ℕ) :
    (schedDetach s task).tick = s.tick := by
  cases task <;> rfl

theorem schedNext_tick (s : Sched n) (task : ℕ) (i : Fin (n + 1)) :
    (schedNext s task i).tick = s.tick :=
  schedDetach_tick s _

theorem schedDetach_timeStart (s : Sched n) (task : Option ℕ) (other : ℕ) :
    ((schedDetach s task).task other).timeStart = (s.task other).timeStart := by
  cases task with
  | none => rfl
  | some task =>
    simp only [schedDetach, Sched.modifyTask, Function.update_apply]
    split
    next heq => rw [heq]
    next => rfl

/-- The task that is assigned starts in this tick, and the other tasks keep their start. -/
theorem schedNext_timeStart (s : Sched n) (task : ℕ) (i : Fin (n + 1)) (other : ℕ) :
    ((schedNext s task i).task other).timeStart =
      if other = task then s.tick else (s.task other).timeStart := by
  simp only [schedNext, schedAttach, Sched.modifyTask, Function.update_apply]
  split
  · exact schedDetach_tick s _
  · exact schedDetach_timeStart s _ other

theorem schedNext_idle (hs : NextUnique s) (task : ℕ) (i j : Fin (n + 1)) :
    ((schedNext s task i).cpus j).idle = (s.cpus j).idle := by
  rw [schedNext_cpus hs]
  split
  next hji => rw [hji]
  next => rfl

theorem schedNext_current (hs : NextUnique s) (task : ℕ) (i j : Fin (n + 1)) :
    ((schedNext s task i).cpus j).current = (s.cpus j).current := by
  rw [schedNext_cpus hs]
  split
  next hji => rw [hji]
  next => rfl

theorem NextUnique.congr (hs : NextUnique s) (hcpus : t.cpus = s.cpus)
    (htasks : t.tasks = s.tasks) : NextUnique t := by
  constructor
  · rw [hcpus]
    exact hs.assigned
  · rw [hcpus]
    exact hs.unique
  · rw [hcpus]
    exact hs.idle_own
  · rw [hcpus]
    exact hs.idle_inj
  · rw [hcpus, htasks]
    exact hs.idle_tasks

/-- The next tasks after a processor was given one. -/
theorem next_schedNext (hs : NextUnique s) {task other : ℕ} {i j : Fin (n + 1)}
    (h : ((schedNext s task i).cpus j).next = some other) :
    (j = i ∧ other = task) ∨ (j ≠ i ∧ (s.cpus j).next = some other) := by
  rw [schedNext_cpus hs] at h
  split at h
  next hji => exact Or.inl ⟨hji, (Option.some.inj h).symm⟩
  next hji => exact Or.inr ⟨hji, h⟩

/-- A processor may be given a task that is next on no other, if it is not the idle task of
another. -/
theorem NextUnique.next (hs : NextUnique s) (hfree : ∀ j, (s.cpus j).next = some task → j = i)
    (hidle : ∀ j, (s.cpus j).idle = task → j = i) : NextUnique (schedNext s task i) := by
  constructor
  · intro j
    rw [schedNext_cpus hs]
    split
    · rfl
    · exact hs.assigned j
  · intro j k other hj hk
    rcases next_schedNext hs hj with ⟨rfl, rfl⟩ | ⟨hji, hj'⟩
    · rcases next_schedNext hs hk with ⟨rfl, _⟩ | ⟨hki, hk'⟩
      · rfl
      · exact absurd (hfree k hk') hki
    · rcases next_schedNext hs hk with ⟨rfl, rfl⟩ | ⟨_, hk'⟩
      · exact absurd (hfree j hj') hji
      · exact hs.unique j k other hj' hk'
  · intro j k hj
    rw [schedNext_idle hs] at hj
    rcases next_schedNext hs hj with ⟨rfl, heq⟩ | ⟨_, hj⟩
    · exact (hidle k heq).symm
    · exact hs.idle_own j k hj
  · intro j k
    rw [schedNext_idle hs, schedNext_idle hs]
    exact hs.idle_inj j k
  · intro j
    rw [schedNext_idle hs, schedNext_tasks]
    exact hs.idle_tasks j

/-- A processor may always be given its own idle task. -/
theorem NextUnique.nextIdle (hs : NextUnique s) (i : Fin (n + 1)) :
    NextUnique (schedNext s (s.cpus i).idle i) :=
  hs.next (fun j hj ↦ hs.idle_own j i hj) (fun j hj ↦ hs.idle_inj j i hj)

/-- A task that `sched_pick` accepts. -/
structure Pickable (s : Sched n) (task : ℕ) : Prop where
  queued : task ∈ s.tasks
  fresh : (s.task task).timeStart ≠ s.tick
  runnable : taskRunnable (s.task task) = true
  waiting : ∀ i, (s.cpus i).next ≠ some task

theorem next_ne_of_not_running (h : schedRunning s task = false) (i : Fin (n + 1)) :
    (s.cpus i).next ≠ some task := by
  intro hnext
  have hrunning : schedRunning s task = true :=
    List.any_eq_true.2 ⟨i, List.mem_finRange i, by simpa using hnext⟩
  rw [h] at hrunning
  cases hrunning

theorem schedPick_pickable {best : Option ℕ} {other task : ℕ} (hother : other ∈ s.tasks)
    (hbest : ∀ b, best = some b → Pickable s b) (h : schedPick s best other = some task) :
    Pickable s task := by
  unfold schedPick at h
  split at h
  next hpick =>
    cases h
    simp only [Bool.and_eq_true, Bool.not_eq_true', bne_iff_ne] at hpick
    exact ⟨hother, hpick.1.1, hpick.1.2.1, next_ne_of_not_running hpick.1.2.2⟩
  next => exact hbest task h

/-- `sched_peek` finds a task that `sched_pick` accepts. -/
theorem schedPeek_pickable (h : schedPeek s = some task) : Pickable s task := by
  have hfold : ∀ (tasks : List ℕ) (best : Option ℕ), (∀ t ∈ tasks, t ∈ s.tasks) →
      (∀ b, best = some b → Pickable s b) →
      tasks.foldl (schedPick s) best = some task → Pickable s task := by
    intro tasks
    induction tasks with
    | nil =>
      intro best _ hbest h
      exact hbest task h
    | cons other rest ih =>
      intro best hmem hbest h
      apply ih (schedPick s best other) (fun t ht ↦ hmem t (List.mem_cons_of_mem _ ht)) _ h
      intro b hb
      exact schedPick_pickable (hmem other List.mem_cons_self) hbest hb
  exact hfold s.tasks none (fun _ ht ↦ ht) (fun _ hb ↦ nomatch hb) h

/-- A processor may be given what `sched_peek` finds. -/
theorem NextUnique.nextPeek (hs : NextUnique s) (h : schedPeek s = some task) (i : Fin (n + 1)) :
    NextUnique (schedNext s task i) := by
  have hpick := schedPeek_pickable h
  apply hs.next
  · intro j hj
    exact absurd hj (hpick.waiting j)
  · intro j hj
    exact absurd (hj ▸ hpick.queued) (hs.idle_tasks j)

/-- A task goes to the processor that executes it, or else no processor does. -/
theorem schedDispatch_cases {task : Option ℕ} (h : schedDispatch s task = .ok (some t)) :
    ∃ task' i, task = some task' ∧ t = schedNext s task' i ∧
      ((s.cpus i).current = some task' ∨ ∀ j, (s.cpus j).current ≠ some task') := by
  cases task with
  | none => cases h
  | some task =>
    rw [schedDispatch] at h
    cases hcurrent : (List.finRange (n + 1)).find? fun i ↦ (s.cpus i).current = some task with
    | some i =>
      simp only [schedDispatchToCurrent, hcurrent, Option.map_some] at h
      cases h
      have hfound := List.find?_some hcurrent
      exact ⟨task, i, rfl, rfl, Or.inl (by simpa using hfound)⟩
    | none =>
      have hnone : ∀ j, (s.cpus j).current ≠ some task := by
        intro j
        have hj := List.find?_eq_none.1 hcurrent j (List.mem_finRange j)
        simpa using hj
      simp only [schedDispatchToCurrent, hcurrent, Option.map_none] at h
      cases hidle : (List.finRange (n + 1)).find? fun i ↦
          (s.cpus i).next = some (s.cpus i).idle with
      | some i =>
        simp only [schedDispatchToIdle, hidle, Option.map_some] at h
        cases h
        exact ⟨task, i, rfl, rfl, Or.inr hnone⟩
      | none =>
        simp only [schedDispatchToIdle, hidle, Option.map_none, schedDispatchToActive,
          bind_eq_ok, pure_eq_ok] at h
        obtain ⟨best, _, time, _, h⟩ := h
        split at h
        · cases h
        · cases h
          exact ⟨task, best, rfl, rfl, Or.inr hnone⟩

theorem NextUnique.dispatch (hs : NextUnique s) (h : schedDispatch s (schedPeek s) = .ok (some t)) :
    NextUnique t := by
  obtain ⟨task, i, hpeek, rfl, _⟩ := schedDispatch_cases h
  exact hs.nextPeek hpeek i

/-- What every dispatch of the task that `sched_peek` finds keeps, the loop of `sched_schedule`
keeps. -/
theorem schedDispatchAll_invariant {P : Sched n → Prop}
    (hstep : ∀ s t, P s → schedDispatch s (schedPeek s) = .ok (some t) → P t) (hs : P s)
    (h : schedDispatchAll depth s = .ok t) : P t := by
  induction depth generalizing s with
  | zero => cases h
  | succ depth ih =>
    simp only [schedDispatchAll, bind_eq_ok] at h
    obtain ⟨result, hdispatch, h⟩ := h
    cases result with
    | none =>
      cases h
      exact hs
    | some u => exact ih (hstep s u hs hdispatch) h

theorem NextUnique.dispatchAll (hs : NextUnique s) (h : schedDispatchAll depth s = .ok t) :
    NextUnique t :=
  schedDispatchAll_invariant (fun _ _ hs hdispatch ↦ hs.dispatch hdispatch) hs h

/-- The tasks of the queue that were not given to a processor in this tick. -/
def freshCount (s : Sched n) : ℕ := s.tasks.countP fun task ↦ (s.task task).timeStart != s.tick

theorem countP_lt_of_flip {tasks : List ℕ} {before after : ℕ → Bool} (htask : task ∈ tasks)
    (hbefore : before task = true) (hafter : after task = false)
    (himp : ∀ t, after t = true → before t = true) : tasks.countP after < tasks.countP before := by
  induction tasks with
  | nil => cases htask
  | cons head rest ih =>
    rw [List.countP_cons, List.countP_cons]
    have hrest : rest.countP after ≤ rest.countP before :=
      List.countP_mono_left fun t _ ↦ himp t
    rcases List.mem_cons.1 htask with rfl | htask
    · rw [hbefore, hafter]
      simp only [Bool.false_eq_true, if_false, if_true]
      omega
    · have hlt := ih htask
      by_cases hhead : after head = true
      · rw [if_pos hhead, if_pos (himp head hhead)]
        omega
      · rw [if_neg hhead]
        omega

/-- Every round of the loop uses up one of them. -/
theorem freshCount_dispatch (h : schedDispatch s (schedPeek s) = .ok (some t)) :
    freshCount t < freshCount s := by
  obtain ⟨task, i, hpeek, rfl, _⟩ := schedDispatch_cases h
  have hpick := schedPeek_pickable hpeek
  rw [freshCount, freshCount, schedNext_tasks]
  apply countP_lt_of_flip hpick.queued
  · exact bne_iff_ne.2 hpick.fresh
  · rw [schedNext_timeStart, if_pos rfl, schedNext_tick, bne_self_eq_false]
  · intro other hother
    rw [schedNext_timeStart, schedNext_tick] at hother
    split at hother
    · rw [bne_self_eq_false] at hother
      cases hother
    · exact hother

theorem activeTime_ok (hs : NextUnique s) (i : Fin (n + 1)) :
    ∃ time, activeTime s i = .ok time := by
  obtain ⟨task, htask⟩ := Option.isSome_iff_exists.1 (hs.assigned i)
  exact ⟨_, by rw [activeTime, htask]⟩

theorem schedActive_ok (hs : NextUnique s) : ∃ best, schedActive s = .ok best := by
  have hfold : ∀ (cpus : List (Fin (n + 1))) (best : Fin (n + 1)), ∃ result,
      cpus.foldlM (fun best i ↦ do
        let bestTime ← activeTime s best
        let time ← activeTime s i
        pure (if bestTime < time then i else best)) best = .ok result := by
    intro cpus
    induction cpus with
    | nil =>
      intro best
      exact ⟨best, rfl⟩
    | cons i rest ih =>
      intro best
      obtain ⟨bestTime, hbest⟩ := activeTime_ok hs best
      obtain ⟨time, htime⟩ := activeTime_ok hs i
      obtain ⟨result, hresult⟩ := ih (if bestTime < time then i else best)
      exact ⟨result, by rw [List.foldlM_cons, hbest, htime]; exact hresult⟩
  exact hfold _ 0

theorem schedDispatch_ok (hs : NextUnique s) (task : Option ℕ) :
    ∃ result, schedDispatch s task = .ok result := by
  cases task with
  | none => exact ⟨none, rfl⟩
  | some task =>
    rw [schedDispatch]
    split
    next => exact ⟨_, rfl⟩
    next =>
      split
      next => exact ⟨_, rfl⟩
      next =>
        obtain ⟨best, hbest⟩ := schedActive_ok hs
        obtain ⟨time, htime⟩ := activeTime_ok hs best
        exact ⟨_, by rw [schedDispatchToActive, hbest]; simp only [bind, Except.bind, htime]; rfl⟩

theorem schedDispatchAll_ok (hs : NextUnique s) (hdepth : freshCount s < depth) :
    ∃ t, schedDispatchAll depth s = .ok t := by
  induction depth generalizing s with
  | zero => exact absurd hdepth (Nat.not_lt_zero _)
  | succ depth ih =>
    obtain ⟨result, hresult⟩ := schedDispatch_ok hs (schedPeek s)
    cases result with
    | none => exact ⟨s, by rw [schedDispatchAll, hresult]; rfl⟩
    | some u =>
      have hless := freshCount_dispatch hresult
      obtain ⟨t, ht⟩ := ih (hs.dispatch hresult) (by omega)
      exact ⟨t, by rw [schedDispatchAll, hresult]; exact ht⟩

/-- The pass over the tasks touches neither the queue nor the processors. -/
theorem schedUpdateTask_foldl (reached : ℕ → Bool) (tasks : List ℕ) (s : Sched n) :
    (tasks.foldl (schedUpdateTask reached) s).cpus = s.cpus ∧
      (tasks.foldl (schedUpdateTask reached) s).tasks = s.tasks ∧
      (tasks.foldl (schedUpdateTask reached) s).tick = s.tick := by
  induction tasks generalizing s with
  | nil => exact ⟨rfl, rfl, rfl⟩
  | cons task rest ih =>
    obtain ⟨hcpus, htasks, htick⟩ := ih (schedUpdateTask reached s task)
    rw [List.foldl_cons, hcpus, htasks, htick]
    unfold schedUpdateTask
    split <;> exact ⟨rfl, rfl, rfl⟩

theorem NextUnique.updateCpu (hs : NextUnique s) (h : schedUpdateCpu s i = .ok t) :
    NextUnique t := by
  unfold schedUpdateCpu at h
  split at h
  · cases h
  · cases h
    split
    · exact hs
    · exact hs.nextIdle i

theorem NextUnique.updatedBlocked (hs : NextUnique s) (h : schedUpdatedBlocked s reached = .ok t) :
    NextUnique t := by
  obtain ⟨hcpus, htasks, _⟩ := schedUpdateTask_foldl reached s.tasks s
  have hrun : Run (Succeeds schedUpdateCpu) _ (List.finRange (n + 1)) t := .ofFold h
  exact hrun.invariant (fun _ _ _ hu hstep ↦ hu.updateCpu hstep) (hs.congr hcpus htasks)

/-- The sections of code that hold the lock of the scheduler. -/
inductive SchedEvent (n : ℕ) where
  | start (task : ℕ)
  | stop (task : ℕ)
  | block (i : Fin (n + 1)) (deadline : UInt64)
  | syscall (i : Fin (n + 1)) (inSyscall : Bool)
  | yield (i : Fin (n + 1)) (reached : ℕ → Bool)
  | schedule (reached : ℕ → Bool)
  | switch (i : Fin (n + 1))
  | finalize

/-- One step of one of the processors.  No domain holds an idle task, so none can be started. -/
def schedStep (s : Sched n) : SchedEvent n → Except Fault (Sched n)
  | .start task => do
    assertTruth (∀ i, (s.cpus i).idle ≠ task)
    schedStart s task
  | .stop task => .ok (schedStop s task)
  | .block i deadline => schedBlock s i deadline
  | .syscall i inSyscall => taskSyscall s i inSyscall
  | .yield i reached => schedYield s i reached
  | .schedule reached => schedSchedule s reached
  | .switch i => .ok (schedSwitch s i)
  | .finalize => .ok (schedFinalize s)

theorem NextUnique.yield (hs : NextUnique s) (h : schedYield s i reached = .ok t) :
    NextUnique t := by
  simp only [schedYield, bind_eq_ok, pure_eq_ok] at h
  obtain ⟨u, hu, rfl⟩ := h
  have hupdated := hs.updatedBlocked hu
  cases hpeek : schedPeek u with
  | none => exact hupdated.nextIdle i
  | some task => exact hupdated.nextPeek hpeek i

theorem NextUnique.schedule (hs : NextUnique s) (h : schedSchedule s reached = .ok t) :
    NextUnique t := by
  simp only [schedSchedule, bind_eq_ok] at h
  obtain ⟨u, hu, h⟩ := h
  have hticked : NextUnique { s with tick := s.tick + 1 } := hs.congr rfl rfl
  exact (hticked.updatedBlocked hu).dispatchAll h

theorem schedSwitch_next (s : Sched n) (i j : Fin (n + 1)) :
    ((schedSwitch s i).cpus j).next = (s.cpus j).next ∧
      ((schedSwitch s i).cpus j).idle = (s.cpus j).idle := by
  by_cases hji : j = i
  · subst hji
    simp only [schedSwitch, Function.update_self, and_self]
  · simp only [schedSwitch, Function.update_of_ne hji, and_self]

theorem NextUnique.step {event : SchedEvent n} (hs : NextUnique s) (h : schedStep s event = .ok t) :
    NextUnique t := by
  cases event with
  | start task =>
    simp only [schedStep, schedStart, bind_eq_ok, assertTruth_eq_ok, decide_eq_true_eq,
      pure_eq_ok] at h
    obtain ⟨_, hidle, _, _, rfl⟩ := h
    refine ⟨hs.assigned, hs.unique, hs.idle_own, hs.idle_inj, fun i hmem ↦ ?_⟩
    rcases List.mem_append.1 hmem with hold | hnew
    · exact hs.idle_tasks i hold
    · exact hidle i (List.mem_singleton.1 hnew)
  | stop task =>
    cases h
    unfold schedStop
    split
    · exact hs
    · exact hs.congr rfl rfl
  | block i deadline =>
    simp only [schedStep, schedBlock] at h
    split at h <;> cases h
    exact hs.congr rfl rfl
  | syscall i inSyscall =>
    simp only [schedStep, taskSyscall] at h
    split at h <;> cases h
    exact hs.congr rfl rfl
  | yield i reached => exact hs.yield h
  | schedule reached => exact hs.schedule h
  | switch i =>
    cases h
    constructor
    · intro j
      rw [(schedSwitch_next s i j).1]
      exact hs.assigned j
    · intro j k
      rw [(schedSwitch_next s i j).1, (schedSwitch_next s i k).1]
      exact hs.unique j k
    · intro j k
      rw [(schedSwitch_next s i j).1, (schedSwitch_next s i k).2]
      exact hs.idle_own j k
    · intro j k
      rw [(schedSwitch_next s i j).2, (schedSwitch_next s i k).2]
      exact hs.idle_inj j k
    · intro j
      rw [(schedSwitch_next s i j).2]
      exact hs.idle_tasks j
  | finalize =>
    cases h
    refine ⟨hs.assigned, hs.unique, hs.idle_own, hs.idle_inj, fun i hmem ↦ ?_⟩
    exact hs.idle_tasks i (List.mem_filter.1 hmem).1

/-- Every processor has its own idle task next, and idle tasks are not in the queue. -/
structure IdleNext (s : Sched n) : Prop where
  next : ∀ i, (s.cpus i).next = some (s.cpus i).idle
  idle_inj : ∀ i j, (s.cpus i).idle = (s.cpus j).idle → i = j
  idle_tasks : ∀ i, (s.cpus i).idle ∉ s.tasks

theorem IdleNext.nextUnique (hs : IdleNext s) : NextUnique s where
  assigned i := by
    rw [hs.next]
    rfl
  unique i j task hi hj := by
    rw [hs.next] at hi hj
    exact hs.idle_inj i j (Option.some.inj (hi.trans hj.symm))
  idle_own i j hi := by
    rw [hs.next] at hi
    exact hs.idle_inj i j (Option.some.inj hi)
  idle_inj := hs.idle_inj
  idle_tasks := hs.idle_tasks

/-- From processors that have their idle tasks next, every sequence of steps leads to processors
each of which has a next task, where no task is next on two of them and an idle task is next on its
own processor only. -/
theorem sched_nextUnique {start t : Sched n} {events : List (SchedEvent n)}
    (hstart : IdleNext start) (hrun : Run (Succeeds schedStep) start events t) :
    (∀ i, (t.cpus i).next ≠ none) ∧
      (∀ i j task, (t.cpus i).next = some task → (t.cpus j).next = some task → i = j) ∧
      ∀ i j, (t.cpus i).next = some (t.cpus j).idle → i = j := by
  have ht := hrun.invariant (fun _ _ _ hs hstep ↦ hs.step hstep) hstart.nextUnique
  refine ⟨fun i hnone ↦ ?_, ht.unique, ht.idle_own⟩
  have hsome := ht.assigned i
  rw [hnone] at hsome
  cases hsome

/-- Two processors that have nothing to do. -/
def twoIdle : Sched 1 where
  tick := 0
  tasks := []
  task := fun _ ↦ default
  cpus := fun i ↦ ⟨i, some i, some i⟩

/-- A task is started, and the next tick gives it to the first processor. -/
theorem sched_nextUnique_two :
    ∃ t : Sched 1, Run (Succeeds schedStep) twoIdle [.start 2, .schedule fun _ ↦ false] t ∧
      (t.cpus 0).next = some 2 ∧ (t.cpus 1).next ≠ none ∧ (t.cpus 1).next ≠ some 2 := by
  have hsteps : ∃ t, [.start 2, .schedule fun _ ↦ false].foldlM schedStep twoIdle = .ok t ∧
      (t.cpus 0).next = some 2 := by
    decide +kernel
  obtain ⟨t, hfold, hnext⟩ := hsteps
  have hrun : Run (Succeeds schedStep) twoIdle [.start 2, .schedule fun _ ↦ false] t :=
    .ofFold hfold
  have hstart : IdleNext twoIdle := ⟨fun _ ↦ rfl, fun _ _ ↦ Fin.ext, fun _ ↦ List.not_mem_nil⟩
  obtain ⟨hassigned, hunique, _⟩ := sched_nextUnique hstart hrun
  refine ⟨t, hrun, hnext, hassigned 1, fun hsame ↦ ?_⟩
  exact absurd (hunique 0 1 2 hnext hsame) (by decide)

end Brutal.Kernel
