import Brutal.Kernel.SchedPeek

/-!
# Tasks execute on one processor at a time

A processor occupies the task that it executes and the task that it is to execute.  As long as no
two processors occupy the same task, a switch cannot bring one task onto two processors.  All
assignments of `next` keep this except the one in `sched_yield`: it asks whether a task is the
`next` of some processor, and not whether it is the `current` of another.
-/

namespace Brutal.Kernel

open Base Lib

variable {n : ℕ}
variable {s t : Sched n} {task : ℕ} {i : Fin (n + 1)}

/-- The processor executes the task, or is to execute it. -/
def Occupies (s : Sched n) (i : Fin (n + 1)) (task : ℕ) : Prop :=
  (s.cpus i).current = some task ∨ (s.cpus i).next = some task

/-- A task is occupied by at most one processor, and an idle task by its own. -/
structure Exclusive (s : Sched n) : Prop where
  unique : ∀ i j task, Occupies s i task → Occupies s j task → i = j
  idle_own : ∀ i j, Occupies s i (s.cpus j).idle → i = j
  idle_inj : ∀ i j, (s.cpus i).idle = (s.cpus j).idle → i = j
  idle_tasks : ∀ i, (s.cpus i).idle ∉ s.tasks
  assigned : ∀ i, (s.cpus i).current.isSome = true ∧ (s.cpus i).next.isSome = true

theorem Exclusive.congr (hs : Exclusive s) (hcpus : t.cpus = s.cpus) (htasks : t.tasks = s.tasks) :
    Exclusive t := by
  constructor
  · intro i j task
    rw [Occupies, Occupies, hcpus]
    exact hs.unique i j task
  · intro i j
    rw [Occupies, hcpus]
    exact hs.idle_own i j
  · rw [hcpus]
    exact hs.idle_inj
  · rw [hcpus, htasks]
    exact hs.idle_tasks
  · rw [hcpus]
    exact hs.assigned

theorem Exclusive.nextUnique (hs : Exclusive s) : NextUnique s where
  assigned i := (hs.assigned i).2
  unique i j task hi hj := hs.unique i j task (Or.inr hi) (Or.inr hj)
  idle_own i j hi := hs.idle_own i j (Or.inr hi)
  idle_inj := hs.idle_inj
  idle_tasks := hs.idle_tasks

theorem occupies_schedNext (hs : Exclusive s) {task other : ℕ} {i j : Fin (n + 1)}
    (h : Occupies (schedNext s task i) j other) : Occupies s j other ∨ (j = i ∧ other = task) := by
  rw [Occupies, schedNext_cpus hs.nextUnique] at h
  by_cases hji : j = i
  · rw [if_pos hji] at h
    rcases h with hcurrent | hnext
    · exact Or.inl (Or.inl (hji ▸ hcurrent))
    · exact Or.inr ⟨hji, (Option.some.inj hnext).symm⟩
  · rw [if_neg hji] at h
    exact Or.inl h

/-- A processor may be given a task that no other processor occupies. -/
theorem Exclusive.next (hs : Exclusive s) (hfree : ∀ j, Occupies s j task → j = i)
    (hidle : ∀ j, (s.cpus j).idle = task → j = i) : Exclusive (schedNext s task i) := by
  constructor
  · intro j k other hj hk
    rcases occupies_schedNext hs hj with hj' | ⟨rfl, rfl⟩
    · rcases occupies_schedNext hs hk with hk' | ⟨rfl, rfl⟩
      · exact hs.unique j k other hj' hk'
      · exact hfree j hj'
    · rcases occupies_schedNext hs hk with hk' | ⟨rfl, _⟩
      · exact (hfree k hk').symm
      · rfl
  · intro j k hj
    rw [schedNext_idle hs.nextUnique] at hj
    rcases occupies_schedNext hs hj with hj | ⟨rfl, heq⟩
    · exact hs.idle_own j k hj
    · exact (hidle k heq).symm
  · intro j k
    rw [schedNext_idle hs.nextUnique, schedNext_idle hs.nextUnique]
    exact hs.idle_inj j k
  · intro j
    rw [schedNext_idle hs.nextUnique, schedNext_tasks]
    exact hs.idle_tasks j
  · intro j
    rw [schedNext_current hs.nextUnique, schedNext_cpus hs.nextUnique]
    refine ⟨(hs.assigned j).1, ?_⟩
    split
    · rfl
    · exact (hs.assigned j).2

/-- A processor may always be given its own idle task. -/
theorem Exclusive.nextIdle (hs : Exclusive s) (i : Fin (n + 1)) :
    Exclusive (schedNext s (s.cpus i).idle i) :=
  hs.next (fun j hj ↦ hs.idle_own j i hj) (fun j hj ↦ hs.idle_inj j i hj)

/-- Dispatching what `sched_peek` finds keeps tasks on one processor each. -/
theorem Exclusive.dispatch (hs : Exclusive s) (h : schedDispatch s (schedPeek s) = .ok (some t)) :
    Exclusive t := by
  obtain ⟨task, i, hpeek, rfl, hplace⟩ := schedDispatch_cases h
  have hpick := schedPeek_pickable hpeek
  apply hs.next
  · intro j hj
    rcases hj with hcurrent | hnext
    · rcases hplace with hi | hnone
      · exact hs.unique j i task (Or.inl hcurrent) (Or.inl hi)
      · exact absurd hcurrent (hnone j)
    · exact absurd hnext (hpick.waiting j)
  · intro j hj
    exact absurd (hj ▸ hpick.queued) (hs.idle_tasks j)

theorem Exclusive.dispatchAll (hs : Exclusive s) {depth : ℕ}
    (h : schedDispatchAll depth s = .ok t) : Exclusive t :=
  schedDispatchAll_invariant (fun _ _ hs hdispatch ↦ hs.dispatch hdispatch) hs h

/-- What the pass over the processors keeps. -/
structure Passed (s t : Sched n) : Prop where
  exclusive : Exclusive t
  current : ∀ i, (t.cpus i).current = (s.cpus i).current
  idle : ∀ i, (t.cpus i).idle = (s.cpus i).idle
  tasks : t.tasks = s.tasks
  tick : t.tick = s.tick

theorem schedUpdateCpu_passed (hs : Exclusive s) (i : Fin (n + 1)) :
    ∃ t, schedUpdateCpu s i = .ok t ∧ Passed s t := by
  obtain ⟨task, htask⟩ := Option.isSome_iff_exists.1 (hs.assigned i).1
  simp only [schedUpdateCpu, htask]
  by_cases hrunnable : taskRunnable (s.task task) = true
  · rw [if_pos hrunnable]
    exact ⟨s, rfl, hs, fun _ ↦ rfl, fun _ ↦ rfl, rfl, rfl⟩
  · rw [if_neg hrunnable]
    exact
      ⟨_, rfl, hs.nextIdle i, schedNext_current hs.nextUnique _ i, schedNext_idle hs.nextUnique _ i,
      schedNext_tasks s _ i, schedNext_tick s _ i⟩

theorem schedUpdateCpu_foldlM (hs : Exclusive s) (cpus : List (Fin (n + 1))) :
    ∃ t, cpus.foldlM schedUpdateCpu s = .ok t ∧ Passed s t := by
  induction cpus generalizing s with
  | nil => exact ⟨s, rfl, hs, fun _ ↦ rfl, fun _ ↦ rfl, rfl, rfl⟩
  | cons i rest ih =>
    obtain ⟨u, hu, hpassed⟩ := schedUpdateCpu_passed hs i
    obtain ⟨t, ht, hrest⟩ := ih hpassed.exclusive
    refine ⟨t, ?_, hrest.exclusive, ?_, ?_, ?_, ?_⟩
    · rw [List.foldlM_cons, hu]
      exact ht
    · intro j
      rw [hrest.current, hpassed.current]
    · intro j
      rw [hrest.idle, hpassed.idle]
    · rw [hrest.tasks, hpassed.tasks]
    · rw [hrest.tick, hpassed.tick]

/-- The pass over the blocked tasks always ends, and moves no task onto a processor. -/
theorem schedUpdatedBlocked_passed (hs : Exclusive s) (reached : ℕ → Bool) :
    ∃ t, schedUpdatedBlocked s reached = .ok t ∧ Passed s t := by
  obtain ⟨hcpus, htasks, htick⟩ := schedUpdateTask_foldl reached s.tasks s
  obtain ⟨t, ht, hpassed⟩ :=
    schedUpdateCpu_foldlM (hs.congr hcpus htasks) (List.finRange (n + 1))
  refine ⟨t, ht, hpassed.exclusive, ?_, ?_, ?_, ?_⟩
  · intro i
    rw [hpassed.current, hcpus]
  · intro i
    rw [hpassed.idle, hcpus]
  · rw [hpassed.tasks, htasks]
  · rw [hpassed.tick, htick]

/-- `sched_schedule` always returns, and keeps tasks on one processor each. -/
theorem schedSchedule_ok (hs : Exclusive s) (reached : ℕ → Bool) :
    ∃ t, schedSchedule s reached = .ok t ∧ Exclusive t := by
  have hticked : Exclusive { s with tick := s.tick + 1 } := hs.congr rfl rfl
  obtain ⟨u, hu, hpassed⟩ := schedUpdatedBlocked_passed hticked reached
  obtain ⟨t, ht⟩ := schedDispatchAll_ok hpassed.exclusive.nextUnique
    (Nat.lt_succ_of_le List.countP_le_length)
  refine ⟨t, ?_, hpassed.exclusive.dispatchAll ht⟩
  rw [schedSchedule, hu]
  exact ht

/-- When a processor yields, the task that waited longest is not executed by another one. -/
def PicksFree (s : Sched n) : SchedEvent n → Prop
  | .yield i reached => ∀ task, LongestWaiting s reached task →
      ∀ j, (s.cpus j).current = some task → j = i
  | _ => True

theorem Exclusive.switch (hs : Exclusive s) (i : Fin (n + 1)) : Exclusive (schedSwitch s i) := by
  have hoccupies : ∀ j task, Occupies (schedSwitch s i) j task → Occupies s j task := by
    intro j task h
    by_cases hji : j = i
    · subst hji
      simp only [Occupies, schedSwitch, Function.update_self, or_self] at h
      exact Or.inr h
    · simp only [Occupies, schedSwitch, Function.update_of_ne hji] at h
      exact h
  have hidle : ∀ j, ((schedSwitch s i).cpus j).idle = (s.cpus j).idle := by
    intro j
    by_cases hji : j = i
    · subst hji
      simp only [schedSwitch, Function.update_self]
    · simp only [schedSwitch, Function.update_of_ne hji]
  constructor
  · intro j k task hj hk
    exact hs.unique j k task (hoccupies j task hj) (hoccupies k task hk)
  · intro j k hj
    rw [hidle] at hj
    exact hs.idle_own j k (hoccupies j _ hj)
  · intro j k
    rw [hidle, hidle]
    exact hs.idle_inj j k
  · intro j
    rw [hidle]
    exact hs.idle_tasks j
  · intro j
    by_cases hji : j = i
    · subst hji
      simp only [schedSwitch, Function.update_self]
      exact ⟨(hs.assigned j).2, (hs.assigned j).2⟩
    · simp only [schedSwitch, Function.update_of_ne hji]
      exact hs.assigned j

/-- A yield keeps tasks on one processor each unless it picks one that another is executing. -/
theorem Exclusive.yield (hs : Exclusive s) {reached : ℕ → Bool}
    (hfree : PicksFree s (.yield i reached)) (h : schedYield s i reached = .ok t) :
    Exclusive t := by
  obtain ⟨u, hu, hpassed⟩ := schedUpdatedBlocked_passed hs reached
  rw [schedYield, hu] at h
  cases h
  cases hpeek : schedPeek u with
  | none => exact hpassed.exclusive.nextIdle i
  | some task =>
    have hpick := schedPeek_pickable hpeek
    apply hpassed.exclusive.next
    · intro j hj
      rcases hj with hcurrent | hnext
      · rw [hpassed.current] at hcurrent
        exact hfree task (schedPeek_updated hs.nextUnique hu hpeek) j hcurrent
      · exact absurd hnext (hpick.waiting j)
    · intro j hj
      exact absurd (hj ▸ hpick.queued) (hpassed.exclusive.idle_tasks j)

theorem Exclusive.start (hs : Exclusive s) (hidle : ∀ i, (s.cpus i).idle ≠ task)
    (h : schedStart s task = .ok t) : Exclusive t := by
  simp only [schedStart, bind_eq_ok, pure_eq_ok] at h
  obtain ⟨_, _, rfl⟩ := h
  refine ⟨hs.unique, hs.idle_own, hs.idle_inj, ?_, hs.assigned⟩
  intro i hmem
  rcases List.mem_append.1 hmem with hold | hnew
  · exact hs.idle_tasks i hold
  · exact hidle i (List.mem_singleton.1 hnew)

theorem Exclusive.step {event : SchedEvent n} (hs : Exclusive s) (hfree : PicksFree s event)
    (h : schedStep s event = .ok t) : Exclusive t := by
  cases event with
  | start task =>
    simp only [schedStep, bind_eq_ok, assertTruth_eq_ok, decide_eq_true_eq] at h
    obtain ⟨_, hidle, hstart⟩ := h
    exact hs.start hidle hstart
  | stop task =>
    cases h
    unfold schedStop
    split
    · exact hs
    · exact hs.congr rfl rfl
  | block i deadline =>
    simp only [schedStep, schedBlock] at h
    split at h <;> cases h
    exact hs.congr rfl rfl
  | syscall i inSyscall =>
    simp only [schedStep, taskSyscall] at h
    split at h <;> cases h
    exact hs.congr rfl rfl
  | yield i reached => exact hs.yield hfree h
  | schedule reached =>
    obtain ⟨u, hu, hexclusive⟩ := schedSchedule_ok hs reached
    simp only [schedStep, hu] at h
    cases h
    exact hexclusive
  | switch i =>
    cases h
    exact hs.switch i
  | finalize =>
    cases h
    refine ⟨hs.unique, hs.idle_own, hs.idle_inj, ?_, hs.assigned⟩
    intro i hmem
    exact hs.idle_tasks i (List.mem_filter.1 hmem).1

/-- The scheduler while the processors of the list still have no task. -/
structure Booting (s : Sched n) (rest : List (Fin (n + 1))) : Prop where
  idle : ∀ i, (s.cpus i).idle = 2 * i
  unassigned : ∀ i ∈ rest, (s.cpus i).next = none
  booted : ∀ i, i ∉ rest → s.cpus i = ⟨2 * i, some (2 * i + 1), some (2 * i + 1)⟩
  tasks : ∀ task ∈ s.tasks, ∃ i : Fin (n + 1), task = 2 * i + 1
  started : ∀ task, (s.task task).started = true →
    ∃ i : Fin (n + 1), i ∉ rest ∧ task = 2 * i + 1

theorem Booting.boot {rest : List (Fin (n + 1))} (hs : Booting s (i :: rest)) (hi : i ∉ rest) :
    ∃ t, taskingBoot s i = .ok t ∧ Booting t rest := by
  have hfresh : (s.task (2 * i + 1)).started = false := by
    rw [Bool.eq_false_iff]
    intro hstarted
    obtain ⟨j, hj, heq⟩ := hs.started _ hstarted
    have hij : j = i := Fin.ext (by omega)
    exact hj (hij ▸ List.mem_cons_self)
  have hstart : schedStart s (2 * i + 1) = .ok
      (schedEnqueue (s.modifyTask (2 * i + 1) fun t ↦ { t with started := true }) (2 * i + 1)) := by
    rw [schedStart, hfresh]
    rfl
  refine ⟨_, by rw [taskingBoot, hstart]; rfl, ?_⟩
  have hnone := hs.unassigned i List.mem_cons_self
  constructor
  · intro j
    by_cases hji : j = i
    · simp [schedCurrent, schedNext, schedAttach, schedEnqueue, Sched.modifyTask, hji, hnone,
        schedDetach, hs.idle]
    · simp [schedCurrent, schedNext, schedAttach, schedEnqueue, Sched.modifyTask, hji, hnone,
        schedDetach, hs.idle]
  · intro j hj
    have hji : j ≠ i := fun heq ↦ hi (heq ▸ hj)
    have hnext := hs.unassigned j (List.mem_cons_of_mem _ hj)
    simp [schedCurrent, schedNext, schedAttach, schedEnqueue, Sched.modifyTask, hji, hnone,
      schedDetach, hnext]
  · intro j hj
    by_cases hji : j = i
    · simp [schedCurrent, schedNext, schedAttach, schedEnqueue, Sched.modifyTask, hji, hnone,
        schedDetach, hs.idle]
    · have hbooted := hs.booted j (by simp [hji, hj])
      simp [schedCurrent, schedNext, schedAttach, schedEnqueue, Sched.modifyTask, hji, hnone,
        schedDetach, hbooted]
  · intro task htask
    simp only [schedCurrent, schedNext_tasks, schedEnqueue, Sched.modifyTask] at htask
    rcases List.mem_append.1 htask with hold | hnew
    · exact hs.tasks task hold
    · exact ⟨i, List.mem_singleton.1 hnew⟩
  · intro task htask
    by_cases heq : task = 2 * i + 1
    · exact ⟨i, hi, heq⟩
    · simp [schedCurrent, schedNext, schedAttach, schedEnqueue, Sched.modifyTask, hnone,
        schedDetach, heq] at htask
      obtain ⟨j, hj, hjtask⟩ := hs.started task htask
      exact ⟨j, fun hmem ↦ hj (List.mem_cons_of_mem _ hmem), hjtask⟩

theorem Booting.bootAll {rest : List (Fin (n + 1))} (hs : Booting s rest) (hrest : rest.Nodup) :
    ∃ t, rest.foldlM taskingBoot s = .ok t ∧ Booting t [] := by
  induction rest generalizing s with
  | nil => exact ⟨s, rfl, hs⟩
  | cons i rest ih =>
    obtain ⟨hi, hnodup⟩ := List.nodup_cons.1 hrest
    obtain ⟨u, hu, hbooting⟩ := hs.boot hi
    obtain ⟨t, ht, hdone⟩ := ih hbooting hnodup
    exact ⟨t, by rw [List.foldlM_cons, hu]; exact ht, hdone⟩

theorem Booting.exclusive (hs : Booting s []) : Exclusive s := by
  have hcpus : ∀ i, s.cpus i = ⟨2 * i, some (2 * i + 1), some (2 * i + 1)⟩ :=
    fun i ↦ hs.booted i List.not_mem_nil
  have hoccupies : ∀ i task, Occupies s i task → task = 2 * i + 1 := by
    intro i task h
    rw [Occupies, hcpus, or_self] at h
    exact (Option.some.inj h).symm
  constructor
  · intro i j task hi hj
    have hvalue := hoccupies i task hi
    rw [hoccupies j task hj] at hvalue
    exact Fin.ext (by omega)
  · intro i j h
    have hvalue := hoccupies i _ h
    rw [hs.idle] at hvalue
    omega
  · intro i j h
    rw [hs.idle, hs.idle] at h
    exact Fin.ext (by omega)
  · intro i hmem
    obtain ⟨j, hj⟩ := hs.tasks _ hmem
    rw [hs.idle] at hj
    omega
  · intro i
    rw [hcpus]
    exact ⟨rfl, rfl⟩

/-- `tasking_initialize` always returns, with a task of its own on every processor. -/
theorem taskingInitialize_ok : ∃ s : Sched n, taskingInitialize = .ok s ∧ Exclusive s := by
  have hstart : Booting (⟨0, [], fun _ ↦ default, fun i ↦ ⟨2 * i, none, none⟩⟩ : Sched n)
      (List.finRange (n + 1)) := by
    constructor
    · exact fun _ ↦ rfl
    · exact fun _ _ ↦ rfl
    · exact fun i hi ↦ absurd (List.mem_finRange i) hi
    · intro task htask
      cases htask
    · intro task htask
      cases htask
  obtain ⟨s, hs, hdone⟩ := hstart.bootAll (List.nodup_finRange _)
  have hexclusive := hdone.exclusive
  have hidle : ∀ i, (s.cpus i).idle ≠ 2 * (n + 1) := by
    intro i
    rw [hdone.idle]
    omega
  have hfresh : (s.task (2 * (n + 1))).started = false := by
    rw [Bool.eq_false_iff]
    intro hstarted
    obtain ⟨j, _, heq⟩ := hdone.started _ hstarted
    omega
  obtain ⟨t, ht⟩ : ∃ t, schedStart s (2 * (n + 1)) = .ok t :=
    ⟨_, by rw [schedStart, hfresh]; rfl⟩
  refine ⟨t, ?_, hexclusive.start hidle ht⟩
  rw [taskingInitialize, hs]
  exact ht

/-- On any number of processors, in every run in which no yield picks a task that another
processor is still executing, no task is executed by two processors. -/
theorem sched_currentUnique {s₀ s : Sched n} {events : List (SchedEvent n)}
    (hboot : taskingInitialize = .ok s₀)
    (hrun : Run (Guarded (Succeeds schedStep) PicksFree) s₀ events s)
    {i j : Fin (n + 1)} {task : ℕ} (hi : (s.cpus i).current = some task)
    (hj : (s.cpus j).current = some task) : i = j := by
  obtain ⟨booted, hbooted, hexclusive⟩ : ∃ s : Sched n, taskingInitialize = .ok s ∧ Exclusive s :=
    taskingInitialize_ok
  rw [hbooted] at hboot
  cases hboot
  have hs := hrun.invariant (fun _ _ _ hs hstep ↦ hs.step hstep.1 hstep.2) hexclusive
  exact hs.unique i j task (Or.inl hi) (Or.inl hj)

/-- On two processors a tick passes. -/
theorem sched_currentUnique_tick :
    ∃ s₀ s : Sched 1, taskingInitialize = .ok s₀ ∧
      Run (Guarded (Succeeds schedStep) PicksFree) s₀
        [.schedule fun _ ↦ false, .switch 0, .switch 1] s ∧
      ∀ task, (s.cpus 0).current = some task → (s.cpus 1).current ≠ some task := by
  obtain ⟨s₀, hboot, hexclusive⟩ : ∃ s : Sched 1, taskingInitialize = .ok s ∧ Exclusive s :=
    taskingInitialize_ok
  obtain ⟨s, hs, _⟩ := schedSchedule_ok hexclusive fun _ ↦ false
  have hrun : Run (Guarded (Succeeds schedStep) PicksFree) s₀
      [.schedule fun _ ↦ false, .switch 0, .switch 1] (schedSwitch (schedSwitch s 0) 1) :=
    .cons ⟨trivial, hs⟩ (.cons ⟨trivial, rfl⟩ (.cons ⟨trivial, rfl⟩ (.nil _)))
  refine ⟨s₀, _, hboot, hrun, fun task hzero hone ↦ ?_⟩
  have heq := sched_currentUnique hboot hrun hzero hone
  cases heq

/-- Three more tasks than processors are runnable when a tick takes both processors from their
boot tasks.  The interrupt that tells processor 1 so is still on its way when the tasks on
processor 0 block one after the other. -/
def blockInTurn : List (SchedEvent 1) :=
  [.start 5, .start 6, .schedule fun _ ↦ false, .switch 0,
    .block 0 (-1), .yield 0 fun _ ↦ false, .switch 0,
    .block 0 (-1), .yield 0 fun _ ↦ false, .switch 0,
    .block 0 (-1), .yield 0 fun _ ↦ false, .switch 0]

/-- Processor 0 goes on with the boot task that processor 1 has not left yet. -/
theorem sched_currentUnique_fails :
    ∃ s₀ s : Sched 1, taskingInitialize = .ok s₀ ∧
      Run (Succeeds schedStep) s₀ blockInTurn s ∧
      (s.cpus 0).current = some 3 ∧ (s.cpus 1).current = some 3 ∧ ∀ i, (s.cpus i).idle ≠ 3 := by
  have heval : (taskingInitialize >>= fun s₀ ↦ blockInTurn.foldlM schedStep s₀).map
      (fun s : Sched 1 ↦ (s.cpus 0, s.cpus 1)) =
        .ok (⟨0, some 3, some 3⟩, ⟨2, some 3, some 5⟩) := by
    rfl
  cases hrun : (taskingInitialize >>= fun s₀ ↦ blockInTurn.foldlM schedStep s₀) with
  | error fault =>
    rw [hrun] at heval
    cases heval
  | ok s =>
    rw [hrun] at heval
    simp only [Except.map, Except.ok.injEq, Prod.mk.injEq] at heval
    obtain ⟨hzero, hone⟩ := heval
    obtain ⟨s₀, hboot, hfold⟩ := bind_eq_ok.1 hrun
    refine ⟨s₀, s, hboot, Run.ofFold hfold, by rw [hzero], by rw [hone], Fin.forall_fin_two.2 ?_⟩
    rw [hzero, hone]
    decide

end Brutal.Kernel
