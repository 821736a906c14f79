import Brutal.Kernel.SchedPeek
import Mathlib.Data.Finset.Card
import Mathlib.Data.Fintype.Card

/-!
# A tick hands a processor over

`sched_dispatch` gives the task that waited longest a processor.  The task that had the processor is
detached, and unless it was attached in the same tick it can be picked again: `sched_pick`
recognises a task that was just stopped by `time_start`.  `sched_dispatch_to_current` then takes the
processor back from the task that was just attached, which `sched_dispatch_to_active` would not do.
-/

namespace Brutal.Kernel

open Base Lib

variable {n : ℕ}
variable {s t : Sched n} {depth task other picked : ℕ} {i j : Fin (n + 1)}

/-- Every processor has one next task, and a task that is started stays in the queue until it is
stopped. -/
structure SchedValid (s : Sched n) : Prop where
  next : NextUnique s
  queued : ∀ task, (s.task task).started = true → (s.task task).stopped = false → task ∈ s.tasks

/-- The queue, and which tasks are started and stopped, are as before. -/
structure SameLife (s t : Sched n) : Prop where
  tasks : t.tasks = s.tasks
  started : ∀ task, (t.task task).started = (s.task task).started
  stopped : ∀ task, (t.task task).stopped = (s.task task).stopped

theorem SameLife.refl (s : Sched n) : SameLife s s := ⟨rfl, fun _ ↦ rfl, fun _ ↦ rfl⟩

theorem SameLife.trans {s t u : Sched n} (h : SameLife s t) (h' : SameLife t u) :
    SameLife s u where
  tasks := h'.tasks.trans h.tasks
  started task := (h'.started task).trans (h.started task)
  stopped task := (h'.stopped task).trans (h.stopped task)

theorem SameLife.assign (s : Sched n) (task : ℕ) (i : Fin (n + 1)) :
    SameLife s (schedNext s task i) where
  tasks := schedNext_tasks s task i
  started other := by rw [schedNext_task]
  stopped other := by rw [schedNext_task]

theorem SameLife.modifyTask (s : Sched n) (task : ℕ) {change : SchedTask → SchedTask}
    (hstarted : ∀ t, (change t).started = t.started)
    (hstopped : ∀ t, (change t).stopped = t.stopped) : SameLife s (s.modifyTask task change) where
  tasks := rfl
  started other := by
    simp only [Sched.modifyTask, Function.update_apply]
    split
    next heq => rw [heq, hstarted]
    next => rfl
  stopped other := by
    simp only [Sched.modifyTask, Function.update_apply]
    split
    next heq => rw [heq, hstopped]
    next => rfl

theorem SameLife.updatedBlocked {reached : ℕ → Bool} (h : schedUpdatedBlocked s reached = .ok t) :
    SameLife s t := by
  have htasks : ∀ (tasks : List ℕ) (s : Sched n),
      SameLife s (tasks.foldl (schedUpdateTask reached) s) := by
    intro tasks
    induction tasks with
    | nil => exact SameLife.refl
    | cons task rest ih =>
      intro s
      refine SameLife.trans ?_ (ih (schedUpdateTask reached s task))
      unfold schedUpdateTask
      split
      · exact SameLife.modifyTask s task (fun _ ↦ rfl) (fun _ ↦ rfl)
      · exact SameLife.refl s
  have hrun : Run (Succeeds schedUpdateCpu) _ (List.finRange (n + 1)) t := .ofFold h
  refine (htasks s.tasks s).trans (hrun.invariant ?_ (SameLife.refl _))
  intro u i v hu hstep
  simp only [Succeeds, schedUpdateCpu] at hstep
  split at hstep
  · cases hstep
  · cases hstep
    split
    · exact hu
    · exact hu.trans (SameLife.assign u _ i)

theorem SameLife.dispatchAll (h : schedDispatchAll depth s = .ok t) : SameLife s t := by
  refine schedDispatchAll_invariant (fun u v hu hdispatch ↦ ?_) (SameLife.refl s) h
  obtain ⟨task, i, _, rfl, _⟩ := schedDispatch_cases hdispatch
  exact hu.trans (SameLife.assign u task i)

theorem SchedValid.congr (hs : SchedValid s) (hlife : SameLife s t) (hnext : NextUnique t) :
    SchedValid t where
  next := hnext
  queued task hstarted hstopped := by
    rw [hlife.started] at hstarted
    rw [hlife.stopped] at hstopped
    rw [hlife.tasks]
    exact hs.queued task hstarted hstopped

theorem SchedValid.tick (hs : SchedValid s) (tick : UInt64) : SchedValid { s with tick := tick } :=
  hs.congr ⟨rfl, fun _ ↦ rfl, fun _ ↦ rfl⟩ (hs.next.congr rfl rfl)

theorem SchedValid.step {event : SchedEvent n} (hs : SchedValid s) (h : schedStep s event = .ok t) :
    SchedValid t := by
  have hnext : NextUnique t := hs.next.step h
  cases event with
  | start task =>
    simp only [schedStep, schedStart, bind_eq_ok, assertTruth_eq_ok, decide_eq_true_eq,
      pure_eq_ok] at h
    obtain ⟨_, _, _, _, rfl⟩ := h
    refine ⟨hnext, fun other hstarted hstopped ↦ ?_⟩
    apply List.mem_append.2
    by_cases heq : other = task
    · exact Or.inr (List.mem_singleton.2 heq)
    · simp only [schedEnqueue, Sched.modifyTask, Function.update_of_ne heq] at hstarted hstopped
      exact Or.inl (hs.queued other hstarted hstopped)
  | stop task =>
    cases h
    refine ⟨hnext, fun other hstarted hstopped ↦ ?_⟩
    unfold schedStop at hstarted hstopped ⊢
    split at hstarted
    next hstop =>
      rw [if_pos hstop] at hstopped ⊢
      exact hs.queued other hstarted hstopped
    next hstop =>
      rw [if_neg hstop] at hstopped ⊢
      by_cases heq : other = task
      · simp [Sched.modifyTask, heq] at hstopped
      · simp only [Sched.modifyTask, Function.update_of_ne heq] at hstarted hstopped
        exact hs.queued other hstarted hstopped
  | block i deadline =>
    simp only [schedStep, schedBlock] at h
    split at h <;> cases h
    exact hs.congr (SameLife.modifyTask s _ (fun _ ↦ rfl) (fun _ ↦ rfl)) hnext
  | syscall i inSyscall =>
    simp only [schedStep, taskSyscall] at h
    split at h <;> cases h
    exact hs.congr (SameLife.modifyTask s _ (fun _ ↦ rfl) (fun _ ↦ rfl)) hnext
  | yield i reached =>
    simp only [schedStep, schedYield, bind_eq_ok, pure_eq_ok] at h
    obtain ⟨u, hu, rfl⟩ := h
    exact hs.congr ((SameLife.updatedBlocked hu).trans (SameLife.assign u _ i)) hnext
  | schedule reached =>
    simp only [schedStep, schedSchedule, bind_eq_ok] at h
    obtain ⟨u, hu, h⟩ := h
    have hlife := (SameLife.updatedBlocked hu).trans (SameLife.dispatchAll h)
    exact (hs.tick (s.tick + 1)).congr hlife hnext
  | switch i =>
    cases h
    exact hs.congr ⟨rfl, fun _ ↦ rfl, fun _ ↦ rfl⟩ hnext
  | finalize =>
    cases h
    refine ⟨hnext, fun task hstarted hstopped ↦ ?_⟩
    have hkept : (s.task task).stopped = false := hstopped
    apply List.mem_filter.2
    refine ⟨hs.queued task hstarted hstopped, ?_⟩
    simp [hkept]

/-- Every state that is reached from one where no task was started is valid. -/
theorem sched_valid {start t : Sched n} {events : List (SchedEvent n)} (hstart : IdleNext start)
    (hnone : ∀ task, (start.task task).started = false)
    (hrun : Run (Succeeds schedStep) start events t) : SchedValid t := by
  refine hrun.invariant (fun _ _ _ hs hstep ↦ hs.step hstep) ⟨hstart.nextUnique, ?_⟩
  intro task hstarted
  rw [hnone] at hstarted
  cases hstarted

/-- The processor has its idle task next, or a task that was attached in an earlier tick. -/
def Available (s : Sched n) (i : Fin (n + 1)) : Prop :=
  (s.cpus i).next = some (s.cpus i).idle ∨
    ∃ task, (s.cpus i).next = some task ∧ (s.task task).timeStart ≠ s.tick

/-- The processor is the first that executes the task. -/
def Home (s : Sched n) (task : ℕ) (i : Fin (n + 1)) : Prop :=
  (List.finRange (n + 1)).find? (fun i ↦ (s.cpus i).current = some task) = some i

/-- The three places that `sched_dispatch` looks for, in their order. -/
inductive Place (s : Sched n) (task : ℕ) (i : Fin (n + 1)) : Prop
  | current (home : Home s task i)
  | idle (away : ∀ j, (s.cpus j).current ≠ some task)
      (first : (List.finRange (n + 1)).find? (fun i ↦ (s.cpus i).next = some (s.cpus i).idle) =
        some i)
  | active (away : ∀ j, (s.cpus j).current ≠ some task)
      (busy : ∀ j, (s.cpus j).next ≠ some (s.cpus j).idle) (best : schedActive s = .ok i)
      (time : UInt64) (timed : activeTime s i = .ok time) (ran : time ≠ 0)

theorem Home.current (h : Home s task i) : (s.cpus i).current = some task := by
  have hfound := List.find?_some h
  simpa using hfound

theorem available_of_time {time : UInt64} (h : activeTime s i = .ok time) (htime : time ≠ 0) :
    Available s i := by
  unfold activeTime at h
  split at h
  · cases h
  next task hnext =>
    cases h
    refine Or.inr ⟨task, hnext, fun heq ↦ htime ?_⟩
    rw [heq, UInt64.sub_self]

theorem Place.available (h : Place s task i) :
    Home s task i ∨ ((∀ j, (s.cpus j).current ≠ some task) ∧ Available s i) := by
  cases h with
  | current home => exact Or.inl home
  | idle away first =>
    have hfound := List.find?_some first
    exact Or.inr ⟨away, Or.inl (by simpa using hfound)⟩
  | active away busy best time timed ran => exact Or.inr ⟨away, available_of_time timed ran⟩

theorem Place.unique (hi : Place s task i) (hj : Place s task j) : i = j := by
  cases hi with
  | current home =>
    cases hj with
    | current home' => exact Option.some.inj (home.symm.trans home')
    | idle away => exact absurd home.current (away i)
    | active away => exact absurd home.current (away i)
  | idle away first =>
    have hidle := List.find?_some first
    cases hj with
    | current home => exact absurd home.current (away j)
    | idle _ first' => exact Option.some.inj (first.symm.trans first')
    | active _ busy => exact absurd (by simpa using hidle) (busy i)
  | active away busy best =>
    cases hj with
    | current home => exact absurd home.current (away j)
    | idle _ first =>
      have hidle := List.find?_some first
      exact absurd (by simpa using hidle) (busy j)
    | active _ _ best' => exact Except.ok.inj (best.symm.trans best')

/-- `sched_dispatch` gives the task the processor that it finds. -/
theorem schedDispatch_place (h : schedDispatch s (some task) = .ok (some t)) :
    ∃ i, Place s task i ∧ t = schedNext s task i := by
  rw [schedDispatch] at h
  cases hcurrent : (List.finRange (n + 1)).find? fun i ↦ (s.cpus i).current = some task with
  | some i =>
    simp only [schedDispatchToCurrent, hcurrent, Option.map_some] at h
    cases h
    exact ⟨i, .current hcurrent, rfl⟩
  | none =>
    have haway : ∀ j, (s.cpus j).current ≠ some task := by
      intro j
      have hj := List.find?_eq_none.1 hcurrent j (List.mem_finRange j)
      simpa using hj
    simp only [schedDispatchToCurrent, hcurrent, Option.map_none] at h
    cases hidle : (List.finRange (n + 1)).find? fun i ↦
        (s.cpus i).next = some (s.cpus i).idle with
    | some i =>
      simp only [schedDispatchToIdle, hidle, Option.map_some] at h
      cases h
      exact ⟨i, .idle haway hidle, rfl⟩
    | none =>
      have hbusy : ∀ j, (s.cpus j).next ≠ some (s.cpus j).idle := by
        intro j
        have hj := List.find?_eq_none.1 hidle j (List.mem_finRange j)
        simpa using hj
      simp only [schedDispatchToIdle, hidle, Option.map_none, schedDispatchToActive,
        bind_eq_ok, pure_eq_ok] at h
      obtain ⟨best, hbest, time, htime, h⟩ := h
      split at h
      · cases h
      next hran =>
        cases h
        exact ⟨best, .active haway hbusy hbest time htime hran, rfl⟩

/-- The processor that `sched_dispatch_to_active` chooses runs its task for the longest time. -/
theorem schedActive_max {best : Fin (n + 1)} (h : schedActive s = .ok best) (i : Fin (n + 1)) :
    ∃ bestTime time, activeTime s best = .ok bestTime ∧ activeTime s i = .ok time ∧
      time ≤ bestTime := by
  have hfold : ∀ (cpus : List (Fin (n + 1))) (start : Fin (n + 1)),
      cpus.foldlM (fun best i ↦ do
        let bestTime ← activeTime s best
        let time ← activeTime s i
        pure (if bestTime < time then i else best)) start = .ok best →
      (∀ startTime, activeTime s start = .ok startTime →
        ∃ bestTime, activeTime s best = .ok bestTime ∧ startTime ≤ bestTime) ∧
      ∀ i ∈ cpus, ∃ bestTime time, activeTime s best = .ok bestTime ∧
        activeTime s i = .ok time ∧ time ≤ bestTime := by
    intro cpus
    induction cpus with
    | nil =>
      intro start hstart
      cases hstart
      exact ⟨fun time htime ↦ ⟨time, htime, UInt64.le_refl _⟩, fun i hi ↦ nomatch hi⟩
    | cons i rest ih =>
      intro start hstart
      rw [List.foldlM_cons] at hstart
      obtain ⟨chosen, hchosen, hrest⟩ := bind_eq_ok.1 hstart
      obtain ⟨bestTime, hbestTime, hchosen⟩ := bind_eq_ok.1 hchosen
      obtain ⟨time, htime, hchosen⟩ := bind_eq_ok.1 hchosen
      obtain ⟨hfirst, hothers⟩ := ih chosen hrest
      have hkept : ∃ kept, activeTime s chosen = .ok kept ∧ bestTime ≤ kept ∧ time ≤ kept := by
        cases hchosen
        split
        next hlt => exact ⟨time, htime, UInt64.le_of_lt hlt, UInt64.le_refl _⟩
        next hnot => exact ⟨bestTime, hbestTime, UInt64.le_refl _, UInt64.not_lt.1 hnot⟩
      obtain ⟨kept, hkeptTime, hstartLe, htimeLe⟩ := hkept
      obtain ⟨final, hfinal, hkeptLe⟩ := hfirst kept hkeptTime
      refine ⟨fun startTime hstartTime ↦ ?_, fun j hj ↦ ?_⟩
      · rw [hbestTime] at hstartTime
        cases hstartTime
        exact ⟨final, hfinal, UInt64.le_trans hstartLe hkeptLe⟩
      · rcases List.mem_cons.1 hj with rfl | hj
        · exact ⟨final, time, hfinal, htime, UInt64.le_trans htimeLe hkeptLe⟩
        · exact hothers j hj
  exact (hfold _ 0 h).2 i (List.mem_finRange i)

/-- While a processor is available, a task is given one. -/
theorem schedDispatch_available (hs : NextUnique s) (hi : Available s i) (task : ℕ) :
    ∃ j, Place s task j ∧ schedDispatch s (some task) = .ok (some (schedNext s task j)) := by
  obtain ⟨result, hresult⟩ := schedDispatch_ok hs (some task)
  cases result with
  | some t =>
    obtain ⟨j, hplace, rfl⟩ := schedDispatch_place hresult
    exact ⟨j, hplace, hresult⟩
  | none =>
    rw [schedDispatch] at hresult
    split at hresult
    · cases hresult
    split at hresult
    · cases hresult
    next hidle =>
      have hbusy : (s.cpus i).next ≠ some (s.cpus i).idle := by
        rw [schedDispatchToIdle, Option.map_eq_none_iff] at hidle
        have hnone := List.find?_eq_none.1 hidle i (List.mem_finRange i)
        simpa using hnone
      simp only [schedDispatchToActive, bind_eq_ok, pure_eq_ok] at hresult
      obtain ⟨best, hbest, time, htime, hzero⟩ := hresult
      split at hzero
      next heq =>
        obtain ⟨bestTime, ran, hbestTime, hran, hle⟩ := schedActive_max hbest i
        rw [htime] at hbestTime
        cases hbestTime
        obtain ⟨old, hnext, hold⟩ := hi.resolve_left hbusy
        rw [activeTime, hnext] at hran
        cases hran
        rw [heq] at hle
        have hsub : s.tick - (s.task old).timeStart = 0 := UInt64.le_zero_iff.1 hle
        exact absurd (by simpa using (UInt64.sub_eq_iff_eq_add.1 hsub).symm) hold
      · cases hzero

/-- The processor executes another task, which is not barred from being picked in this tick. -/
structure Returns (s : Sched n) (task : ℕ) (i : Fin (n + 1)) (other : ℕ) : Prop where
  ne : other ≠ task
  home : Home s other i
  queued : other ∈ s.tasks
  fresh : (s.task other).timeStart ≠ s.tick
  runnable : taskRunnable (s.task other) = true

/-- The task waits for any processor, and is picked before the other one. -/
structure Ahead (s : Sched n) (other task : ℕ) : Prop where
  pickable : Pickable s task
  away : ∀ i, (s.cpus i).current ≠ some task
  longer : (s.task task).timeEnd < waitEnd s other ∨
    ((s.task task).timeEnd = waitEnd s other ∧ s.tasks.idxOf task < s.tasks.idxOf other)

/-- More tasks are ahead of the other one than processors are available. -/
def Crowded (s : Sched n) (other : ℕ) : Prop :=
  ∃ (free : Finset (Fin (n + 1))) (ahead : Finset ℕ), (∀ i, Available s i → i ∈ free) ∧
    (∀ task ∈ ahead, Ahead s other task) ∧ free.card < ahead.card

/-- What is not barred and is crowded out is not what `sched_peek` finds. -/
theorem Crowded.not_peeked (h : Crowded s other) : schedPeek s ≠ some other := by
  obtain ⟨free, ahead, _, hahead, hcard⟩ := h
  intro hpeek
  obtain ⟨task, htask⟩ := Finset.card_pos.1 (lt_of_le_of_lt (Nat.zero_le _) hcard)
  have hin := hahead task htask
  have hend : waitEnd s other = (s.task other).timeEnd :=
    if_neg (not_schedRunning (schedPeek_pickable hpeek).waiting)
  have hlonger := hin.longer
  rw [hend] at hlonger
  exact schedPeek_longest hpeek hin.pickable hlonger

theorem waitEnd_schedNext (hs : NextUnique s) (hne : other ≠ task) (i : Fin (n + 1)) :
    waitEnd (schedNext s task i) other = waitEnd s other := by
  unfold waitEnd
  rw [schedNext_tick, schedNext_timeEnd]
  by_cases hrunning : schedRunning s other = true
  · rw [if_pos hrunning]
    split
    · rfl
    next hdetached =>
      obtain ⟨j, hj⟩ := schedRunning_iff.1 hrunning
      by_cases hji : j = i
      · rw [if_pos (hji ▸ hj)]
      · refine absurd (schedRunning_iff.2 ⟨j, ?_⟩) hdetached
        rw [schedNext_cpus hs, if_neg hji]
        exact hj
  · rw [if_neg hrunning]
    have hwaits : ∀ j, (s.cpus j).next ≠ some other := fun j hj ↦
      hrunning (schedRunning_iff.2 ⟨j, hj⟩)
    have hstill : ¬ schedRunning (schedNext s task i) other = true := by
      apply not_schedRunning
      intro j hj
      rcases next_schedNext hs hj with ⟨_, heq⟩ | ⟨_, hnext⟩
      · exact hne heq
      · exact hwaits j hnext
    rw [if_neg hstill, if_neg (hwaits i)]

/-- Another task that could be picked still can be. -/
theorem Pickable.keep (hs : NextUnique s) (hne : other ≠ task) (h : Pickable s other)
    (i : Fin (n + 1)) : Pickable (schedNext s task i) other where
  queued := by
    rw [schedNext_tasks]
    exact h.queued
  fresh := by
    rw [schedNext_timeStart, if_neg hne, schedNext_tick]
    exact h.fresh
  runnable := by
    rw [schedNext_runnable]
    exact h.runnable
  waiting := by
    intro j hj
    rcases next_schedNext hs hj with ⟨_, heq⟩ | ⟨_, hnext⟩
    · exact hne heq
    · exact h.waiting j hnext

theorem Ahead.keep (hs : NextUnique s) {task other waiting : ℕ} (hne : waiting ≠ task)
    (hother : other ≠ task) (h : Ahead s other waiting) (i : Fin (n + 1)) :
    Ahead (schedNext s task i) other waiting where
  pickable := h.pickable.keep hs hne i
  away := by
    intro j
    rw [schedNext_current hs]
    exact h.away j
  longer := by
    rw [waitEnd_schedNext hs hother, schedNext_timeEnd, if_neg (h.pickable.waiting i),
      schedNext_tasks]
    exact h.longer

/-- The processor that is given a task from the queue is available no more. -/
theorem available_schedNext (hs : NextUnique s) (htask : Pickable s task)
    (h : Available (schedNext s task i) j) : j ≠ i ∧ Available s j := by
  have hidle : task ≠ (s.cpus i).idle := fun heq ↦ hs.idle_tasks i (heq ▸ htask.queued)
  unfold Available at h
  rw [schedNext_idle hs] at h
  rcases h with hnext | ⟨old, hnext, hold⟩
  · rcases next_schedNext hs hnext with ⟨hji, heq⟩ | ⟨hji, hnext⟩
    · exact absurd (hji ▸ heq.symm) hidle
    · exact ⟨hji, Or.inl hnext⟩
  · rw [schedNext_timeStart, schedNext_tick] at hold
    rcases next_schedNext hs hnext with ⟨_, heq⟩ | ⟨hji, hnext⟩
    · rw [if_pos heq] at hold
      exact absurd rfl hold
    · have hne : old ≠ task := fun heq ↦ htask.waiting j (heq ▸ hnext)
      rw [if_neg hne] at hold
      exact ⟨hji, Or.inr ⟨old, hnext, hold⟩⟩

/-- A task that is ahead and is given a processor uses up an available one. -/
theorem Crowded.keep (hs : NextUnique s) (htask : Pickable s task) (hother : other ≠ task)
    (hplace : Place s task i) (h : Crowded s other) : Crowded (schedNext s task i) other := by
  obtain ⟨free, ahead, hfree, hahead, hcard⟩ := h
  refine ⟨free.erase i, ahead.erase task, ?_, ?_, ?_⟩
  · intro j hj
    obtain ⟨hji, hj⟩ := available_schedNext hs htask hj
    exact Finset.mem_erase.2 ⟨hji, hfree j hj⟩
  · intro waiting hwaiting
    obtain ⟨hne, hin⟩ := Finset.mem_erase.1 hwaiting
    exact (hahead waiting hin).keep hs hne hother i
  · by_cases hin : task ∈ ahead
    · have hi : i ∈ free := by
        rcases hplace.available with hhome | ⟨_, havailable⟩
        · exact absurd hhome.current ((hahead task hin).away i)
        · exact hfree i havailable
      rw [Finset.card_erase_of_mem hin, Finset.card_erase_of_mem hi]
      have hpos := Finset.card_pos.2 ⟨i, hi⟩
      omega
    · rw [Finset.erase_eq_of_notMem hin]
      exact lt_of_le_of_lt (Finset.card_erase_le) hcard

/-! ## The loop -/

/-- The task has the processor next, and whatever could take it back is crowded out. -/
structure Kept (task : ℕ) (i : Fin (n + 1)) (s : Sched n) : Prop where
  next : NextUnique s
  attached : (s.cpus i).next = some task
  stamped : (s.task task).timeStart = s.tick
  queued : task ∈ s.tasks
  crowded : ∀ other, Returns s task i other → Crowded s other

theorem Home.of_schedNext (hs : NextUnique s) (h : Home (schedNext s task i) other j) :
    Home s other j := by
  unfold Home at h ⊢
  rw [← h]
  congr
  funext k
  rw [schedNext_current hs]

theorem Returns.of_schedNext (hs : NextUnique s) {task other returning : ℕ}
    (h : Returns (schedNext s task i) other j returning) :
    returning ≠ task ∧ Returns s other j returning := by
  have hfresh := h.fresh
  rw [schedNext_timeStart, schedNext_tick] at hfresh
  have hne : returning ≠ task := by
    intro heq
    rw [if_pos heq] at hfresh
    exact hfresh rfl
  rw [if_neg hne] at hfresh
  refine ⟨hne, h.ne, h.home.of_schedNext hs, ?_, hfresh, ?_⟩
  · have hqueued := h.queued
    rw [schedNext_tasks] at hqueued
    exact hqueued
  · have hrunnable := h.runnable
    rw [schedNext_runnable] at hrunnable
    exact hrunnable

/-- One round of the loop does not take the processor away. -/
theorem Kept.dispatch (hs : Kept task i s) (h : schedDispatch s (schedPeek s) = .ok (some t)) :
    Kept task i t := by
  obtain ⟨picked, _, hpeek, _, _⟩ := schedDispatch_cases h
  rw [hpeek] at h
  obtain ⟨j, hplace, rfl⟩ := schedDispatch_place h
  have hpick := schedPeek_pickable hpeek
  have hne : task ≠ picked := fun heq ↦ hpick.waiting i (heq ▸ hs.attached)
  have hji : j ≠ i := by
    intro hji
    rw [hji] at hplace
    rcases hplace.available with hhome | ⟨_, havailable⟩
    · have hreturns : Returns s task i picked :=
        ⟨hne.symm, hhome, hpick.queued, hpick.fresh, hpick.runnable⟩
      exact (hs.crowded picked hreturns).not_peeked hpeek
    · rcases havailable with hidle | ⟨old, hold, hstart⟩
      · rw [hs.attached] at hidle
        exact hs.next.idle_tasks i (Option.some.inj hidle ▸ hs.queued)
      · rw [hs.attached] at hold
        exact hstart (Option.some.inj hold ▸ hs.stamped)
  constructor
  · exact hs.next.nextPeek hpeek j
  · rw [schedNext_cpus hs.next, if_neg hji.symm]
    exact hs.attached
  · rw [schedNext_timeStart, if_neg hne, schedNext_tick]
    exact hs.stamped
  · rw [schedNext_tasks]
    exact hs.queued
  · intro other hreturns
    obtain ⟨hother, hreturns⟩ := hreturns.of_schedNext hs.next
    exact (hs.crowded other hreturns).keep hs.next hpick hother hplace

/-- The task is started, neither blocked nor stopped, and next on no processor. -/
structure Waiting (s : Sched n) (task : ℕ) : Prop where
  started : (s.task task).started = true
  blocked : (s.task task).blocked = false
  stopped : (s.task task).stopped = false
  waiting : ∀ i, (s.cpus i).next ≠ some task

/-- The task was not attached in this tick, and no stopped task that has yet to leave a system call
is before it. -/
structure First (s : Sched n) (task : ℕ) : Prop where
  fresh : (s.task task).timeStart ≠ s.tick
  finishing : ∀ other, Pickable s other → (s.task other).stopped = true → ¬ Longer s other task

/-- The task that the processor given to the task executes cannot be picked again, or else more
tasks are ahead of it then than processors are available. -/
def Undisturbed (s : Sched n) (task : ℕ) : Prop :=
  ∀ i other, Place s task i → Returns s task i other → Crowded (schedNext s task i) other

theorem Waiting.pickable (hs : SchedValid s) (h : Waiting s task)
    (hfresh : (s.task task).timeStart ≠ s.tick) : Pickable s task where
  queued := hs.queued task h.started h.stopped
  fresh := hfresh
  runnable := by simp [taskRunnable, h.started, h.blocked, h.stopped]
  waiting := h.waiting

/-- A task that can be picked is waiting, or was stopped within a system call. -/
theorem Pickable.cases (h : Pickable s task) : Waiting s task ∨ (s.task task).stopped = true := by
  have hrunnable := h.runnable
  simp only [taskRunnable, Bool.and_eq_true, Bool.not_eq_true', Bool.or_eq_false_iff] at hrunnable
  cases hstopped : (s.task task).stopped with
  | true => exact Or.inr rfl
  | false => exact Or.inl ⟨hrunnable.1, hrunnable.2.1, hstopped, h.waiting⟩

/-- The task that waited longest keeps the processor that it is given. -/
theorem Undisturbed.kept (hs : NextUnique s) (hpeek : schedPeek s = some task)
    (h : Undisturbed s task) (hplace : Place s task i) : Kept task i (schedNext s task i) := by
  constructor
  · exact hs.nextPeek hpeek i
  · rw [schedNext_cpus hs, if_pos rfl]
  · rw [schedNext_timeStart, if_pos rfl, schedNext_tick]
  · rw [schedNext_tasks]
    exact (schedPeek_pickable hpeek).queued
  · intro other hreturns
    obtain ⟨_, hreturns⟩ := hreturns.of_schedNext hs
    exact h i other hplace hreturns

/-- A task that waited longer than all others that wait, and that no stopped task is before, is the
one that is found. -/
theorem First.peeked (hs : SchedValid s) (htask : Waiting s task)
    (hlongest : ∀ other, Waiting s other → other ≠ task →
      (s.task task).timeEnd < (s.task other).timeEnd) (h : First s task) :
    schedPeek s = some task := by
  apply schedPeek_eq_some (htask.pickable hs h.fresh)
  intro other hother hne
  rcases hother.cases with hwaiting | hstopped
  · have hlt := hlongest other hwaiting hne
    rintro (hmore | ⟨heq, _⟩)
    · exact absurd (UInt64.lt_trans hlt hmore) (UInt64.lt_irrefl _)
    · exact absurd (heq ▸ hlt) (UInt64.lt_irrefl _)
  · exact h.finishing other hother hstopped

/-- No processor is available, and a task that executes on the processor can be picked before any
task that waits for a processor. -/
structure TakesBack (i : Fin (n + 1)) (other : ℕ) (s : Sched n) : Prop where
  next : NextUnique s
  full : ∀ j, ¬ Available s j
  home : Home s other i
  pickable : Pickable s other
  unobstructed : ∀ task, ¬ Ahead s other task

/-- The task has lost its processor for the rest of the tick. -/
structure Lost (task : ℕ) (s : Sched n) : Prop where
  next : NextUnique s
  detached : ∀ i, (s.cpus i).next ≠ some task
  stamped : (s.task task).timeStart = s.tick

theorem Lost.dispatch (hs : Lost task s) (h : schedDispatch s (schedPeek s) = .ok (some t)) :
    Lost task t := by
  obtain ⟨picked, i, hpeek, rfl, _⟩ := schedDispatch_cases h
  have hne : task ≠ picked := fun heq ↦ (schedPeek_pickable hpeek).fresh (heq ▸ hs.stamped)
  constructor
  · exact hs.next.nextPeek hpeek i
  · intro j hj
    rcases next_schedNext hs.next hj with ⟨_, heq⟩ | ⟨_, hnext⟩
    · exact hne heq
    · exact hs.detached j hnext
  · rw [schedNext_timeStart, if_neg hne, schedNext_tick]
    exact hs.stamped

theorem schedDispatch_home (h : Home s task i) :
    schedDispatch s (some task) = .ok (some (schedNext s task i)) := by
  unfold Home at h
  simp only [schedDispatch, schedDispatchToCurrent, h, Option.map_some]

theorem Home.keep (hs : NextUnique s) (h : Home s other j) : Home (schedNext s task i) other j := by
  unfold Home at h ⊢
  rw [← h]
  congr
  funext k
  rw [schedNext_current hs]

/-- A task that can be picked once a processor was given away for the second time in a tick could be
picked before. -/
theorem Pickable.of_schedNext (hs : NextUnique s) (hfull : ¬ Available s i)
    (h : Pickable (schedNext s task i) other) : other ≠ task ∧ Pickable s other := by
  have hfresh := h.fresh
  rw [schedNext_timeStart, schedNext_tick] at hfresh
  have hne : other ≠ task := by
    intro heq
    rw [if_pos heq] at hfresh
    exact hfresh rfl
  rw [if_neg hne] at hfresh
  refine ⟨hne, ?_, hfresh, ?_, ?_⟩
  · have hqueued := h.queued
    rw [schedNext_tasks] at hqueued
    exact hqueued
  · have hrunnable := h.runnable
    rw [schedNext_runnable] at hrunnable
    exact hrunnable
  · intro j hj
    by_cases hji : j = i
    · exact hfull (Or.inr ⟨other, hji ▸ hj, hfresh⟩)
    · apply h.waiting j
      rw [schedNext_cpus hs, if_neg hji]
      exact hj

theorem Ahead.of_schedNext (hs : NextUnique s) {task other waiting : ℕ} (hfull : ¬ Available s i)
    (hother : other ≠ task) (h : Ahead (schedNext s task i) other waiting) :
    Ahead s other waiting := by
  obtain ⟨_, hpick⟩ := h.pickable.of_schedNext hs hfull
  refine ⟨hpick, fun j ↦ ?_, ?_⟩
  · have haway := h.away j
    rw [schedNext_current hs] at haway
    exact haway
  · have hlonger := h.longer
    rw [waitEnd_schedNext hs hother, schedNext_timeEnd, if_neg (hpick.waiting i),
      schedNext_tasks] at hlonger
    exact hlonger

theorem longer_of_not_longer (htask : task ∈ s.tasks) (hne : task ≠ other)
    (h : ¬ Longer s other task) : Longer s task other := by
  simp only [Longer, not_or, not_and, UInt64.not_lt, Nat.not_lt] at h
  rcases UInt64.lt_or_eq_of_le h.1 with hlt | heq
  · exact Or.inl hlt
  · have hidx : s.tasks.idxOf task ≠ s.tasks.idxOf other := fun hidx ↦
      hne ((List.idxOf_inj htask).1 hidx)
    exact Or.inr ⟨heq, lt_of_le_of_ne (h.2 heq.symm) hidx⟩

/-- The task that executes on the processor is picked before the loop ends, and takes the processor
from the task that was given it. -/
theorem TakesBack.lost (hs : TakesBack i other s) (hattached : (s.cpus i).next = some task)
    (hstamped : (s.task task).timeStart = s.tick) (h : schedDispatchAll depth s = .ok t) :
    Lost task t := by
  have htask : task ≠ other := fun heq ↦ hs.pickable.waiting i (heq ▸ hattached)
  induction depth generalizing s with
  | zero => cases h
  | succ depth ih =>
    cases hpeek : schedPeek s with
    | none =>
      exact absurd hs.pickable
        ((schedPeek_foldl s.tasks fun _ ht ↦ ht).2 hpeek other hs.pickable.queued)
    | some picked =>
      have hpick := schedPeek_pickable hpeek
      have hne : task ≠ picked := fun heq ↦ hpick.waiting i (heq ▸ hattached)
      by_cases heq : picked = other
      · subst heq
        simp only [schedDispatchAll, hpeek, schedDispatch_home hs.home, ok_bind] at h
        have hlost : Lost task (schedNext s picked i) := by
          constructor
          · exact hs.next.nextPeek hpeek i
          · intro j hj
            rcases next_schedNext hs.next hj with ⟨_, heq⟩ | ⟨hji, hnext⟩
            · exact htask heq
            · exact hji (hs.next.unique j i task hnext hattached)
          · rw [schedNext_timeStart, if_neg hne, schedNext_tick]
            exact hstamped
        exact schedDispatchAll_invariant (fun _ _ hs hdispatch ↦ hs.dispatch hdispatch) hlost h
      · -- Only a task that some processor executes can be picked before.
        have hlonger : Longer s picked other :=
          longer_of_not_longer hpick.queued heq (schedPeek_longest hpeek hs.pickable)
        have hend : waitEnd s other = (s.task other).timeEnd :=
          if_neg (not_schedRunning hs.pickable.waiting)
        obtain ⟨j, hhome⟩ : ∃ j, Home s picked j := by
          cases hfind : (List.finRange (n + 1)).find? fun i ↦ (s.cpus i).current = some picked with
          | some j => exact ⟨j, hfind⟩
          | none =>
            refine absurd ⟨hpick, fun j ↦ ?_, hend ▸ hlonger⟩ (hs.unobstructed picked)
            have hj := List.find?_eq_none.1 hfind j (List.mem_finRange j)
            simpa using hj
        have hji : j ≠ i := by
          intro hji
          have hsame := hhome.current.symm.trans (hji ▸ hs.home.current)
          exact heq (Option.some.inj hsame)
        simp only [schedDispatchAll, hpeek, schedDispatch_home hhome, ok_bind] at h
        refine ih ⟨hs.next.nextPeek hpeek j, ?_, hs.home.keep hs.next,
          hs.pickable.keep hs.next (Ne.symm heq) j, ?_⟩ ?_ ?_ h
        · intro k hk
          exact hs.full k (available_schedNext hs.next hpick hk).2
        · intro waiting hahead
          exact hs.unobstructed waiting (hahead.of_schedNext hs.next (hs.full j) (Ne.symm heq))
        · rw [schedNext_cpus hs.next, if_neg hji.symm]
          exact hattached
        · rw [schedNext_timeStart, if_neg hne, schedNext_tick]
          exact hstamped

theorem Returns.takesBack (hs : NextUnique s) (hpeek : schedPeek s = some task)
    (h : Returns s task i other) (hfull : ∀ j, ¬ Available (schedNext s task i) j)
    (hcrowded : ¬ Crowded (schedNext s task i) other) : TakesBack i other (schedNext s task i) := by
  have hfresh : ((schedNext s task i).task other).timeStart ≠ (schedNext s task i).tick := by
    rw [schedNext_timeStart, if_neg h.ne, schedNext_tick]
    exact h.fresh
  refine ⟨hs.nextPeek hpeek i, hfull, h.home.keep hs, ⟨?_, hfresh, ?_, ?_⟩, ?_⟩
  · rw [schedNext_tasks]
    exact h.queued
  · rw [schedNext_runnable]
    exact h.runnable
  · intro j hj
    exact hfull j (Or.inr ⟨other, hj, hfresh⟩)
  · intro waiting hahead
    refine hcrowded ⟨∅, {waiting}, fun j hj ↦ absurd hj (hfull j), fun p hp ↦ ?_, ?_⟩
    · rw [Finset.mem_singleton.1 hp]
      exact hahead
    · rw [Finset.card_empty, Finset.card_singleton]
      exact Nat.one_pos

/-- The task can be picked in this tick, at once or when it loses its processor, and comes before
the other one then. -/
structure Before (s : Sched n) (task other : ℕ) : Prop where
  queued : other ∈ s.tasks
  fresh : (s.task other).timeStart ≠ s.tick
  runnable : taskRunnable (s.task other) = true
  longer : waitEnd s other < (s.task task).timeEnd ∨
    (waitEnd s other = (s.task task).timeEnd ∧ s.tasks.idxOf other < s.tasks.idxOf task)

/-- Fewer tasks come before the task than processors are available, or as many if a processor
executes it, and what executes on a processor that it may be given comes before it, too, or is
crowded out. -/
structure Spared (s : Sched n) (task : ℕ) : Prop where
  fresh : (s.task task).timeStart ≠ s.tick
  room : ∃ (free : Finset (Fin (n + 1))) (before : Finset ℕ), (∀ i ∈ free, Available s i) ∧
    (∀ other, Before s task other → other ∈ before) ∧
      (before.card < free.card ∨ (∃ i, Home s task i) ∧ before.card ≤ free.card)
  quiet : ∀ i other, Home s task i ∨ Available s i → Returns s task i other →
    Crowded s other ∨ Pickable s other ∧ Longer s other task

theorem Pickable.before (h : Pickable s other) (hlonger : Longer s other task) :
    Before s task other := by
  refine ⟨h.queued, h.fresh, h.runnable, ?_⟩
  rw [waitEnd, if_neg (not_schedRunning h.waiting)]
  exact hlonger

/-- Another processor stays available. -/
theorem Available.keep (hs : NextUnique s) (htask : Pickable s task) (hij : i ≠ j)
    (h : Available s i) : Available (schedNext s task j) i := by
  unfold Available
  rw [schedNext_idle hs, schedNext_cpus hs, if_neg hij]
  rcases h with hidle | ⟨old, hold, hstart⟩
  · exact Or.inl hidle
  · refine Or.inr ⟨old, hold, ?_⟩
    have hne : old ≠ task := fun heq ↦ htask.waiting i (heq ▸ hold)
    rw [schedNext_timeStart, if_neg hne, schedNext_tick]
    exact hstart

theorem Before.of_schedNext (hs : NextUnique s) (htask : Pickable s task)
    (h : Before (schedNext s picked i) task other) : other ≠ picked ∧ Before s task other := by
  have hfresh := h.fresh
  rw [schedNext_timeStart, schedNext_tick] at hfresh
  have hne : other ≠ picked := fun heq ↦ by
    rw [if_pos heq] at hfresh
    exact hfresh rfl
  rw [if_neg hne] at hfresh
  have hqueued := h.queued
  have hrunnable := h.runnable
  have hlonger := h.longer
  rw [schedNext_tasks] at hqueued
  rw [schedNext_runnable] at hrunnable
  rw [waitEnd_schedNext hs hne, schedNext_timeEnd, if_neg (htask.waiting i), schedNext_tasks]
    at hlonger
  exact ⟨hne, hqueued, hfresh, hrunnable, hlonger⟩

theorem Longer.keep (htask : Pickable s task) (hother : Pickable s other)
    (h : Longer s other task) : Longer (schedNext s picked i) other task := by
  unfold Longer
  rw [schedNext_timeEnd, schedNext_timeEnd, if_neg (htask.waiting i), if_neg (hother.waiting i),
    schedNext_tasks]
  exact h

/-- A task that is picked before the spared one uses up one place before it and at most one
processor. -/
theorem Spared.dispatch (hs : NextUnique s) (htask : Pickable s task) (hpick : Pickable s picked)
    (hne : task ≠ picked) (hlonger : Longer s picked task) (hplace : Place s picked j)
    (h : Spared s task) : Spared (schedNext s picked j) task := by
  obtain ⟨free, before, hfree, hbefore, hcard⟩ := h.room
  refine ⟨(htask.keep hs hne j).fresh, ⟨free.erase j, before.erase picked, ?_, ?_, ?_⟩, ?_⟩
  · intro i hi
    obtain ⟨hij, hi⟩ := Finset.mem_erase.1 hi
    exact (hfree i hi).keep hs hpick hij
  · intro other hother
    obtain ⟨hother, hfirst⟩ := hother.of_schedNext hs htask
    exact Finset.mem_erase.2 ⟨hother, hbefore other hfirst⟩
  · have hin := hbefore picked (hpick.before hlonger)
    have hpos := Finset.card_pos.2 ⟨picked, hin⟩
    have herase := Finset.pred_card_le_card_erase (s := free) (a := j)
    rw [Finset.card_erase_of_mem hin]
    refine hcard.imp (fun hlt ↦ by omega) fun hhome ↦ ?_
    obtain ⟨⟨i, hi⟩, hle⟩ := hhome
    exact ⟨⟨i, hi.keep hs⟩, by omega⟩
  · intro i other hfree hreturns
    obtain ⟨hother, hreturns⟩ := hreturns.of_schedNext hs
    have hbusy : Home s task i ∨ Available s i :=
      hfree.imp (Home.of_schedNext hs) fun h ↦ (available_schedNext hs hpick h).2
    refine (h.quiet i other hbusy hreturns).imp (Crowded.keep hs hpick hother hplace) ?_
    rintro ⟨hagain, hfirst⟩
    exact ⟨hagain.keep hs hother j, hfirst.keep htask hagain⟩

/-- The task is picked before the loop ends, and keeps the processor that it is given. -/
theorem Spared.kept (hs : NextUnique s) (htask : Pickable s task) (hspared : Spared s task)
    (h : schedDispatchAll depth s = .ok t) : ∃ i, Kept task i t := by
  induction depth generalizing s with
  | zero => cases h
  | succ depth ih =>
    obtain ⟨free, before, hfree, hbefore, hcard⟩ := hspared.room
    cases hpeek : schedPeek s with
    | none =>
      exact absurd htask ((schedPeek_foldl s.tasks fun _ ht ↦ ht).2 hpeek task htask.queued)
    | some picked =>
      have hpick := schedPeek_pickable hpeek
      have hfirst : picked = task ∨ Longer s picked task := by
        by_cases heq : picked = task
        · exact Or.inl heq
        · exact Or.inr (longer_of_not_longer hpick.queued heq (schedPeek_longest hpeek htask))
      have havailable (hpos : 0 < free.card) : ∃ i, Place s picked i ∧
          schedDispatch s (some picked) = .ok (some (schedNext s picked i)) := by
        obtain ⟨j, hj⟩ := Finset.card_pos.1 hpos
        exact schedDispatch_available hs (hfree j hj) picked
      have hfound : ∃ i, Place s picked i ∧
          schedDispatch s (some picked) = .ok (some (schedNext s picked i)) := by
        rcases hfirst with heq | hlonger
        · rcases hcard with hlt | ⟨⟨i, hi⟩, _⟩
          · exact havailable (lt_of_le_of_lt (Nat.zero_le _) hlt)
          · exact ⟨i, .current (heq ▸ hi), schedDispatch_home (heq ▸ hi)⟩
        · have hpos := Finset.card_pos.2 ⟨picked, hbefore picked (hpick.before hlonger)⟩
          exact havailable (by omega)
      obtain ⟨i, hplace, hdispatch⟩ := hfound
      simp only [schedDispatchAll, hpeek, hdispatch, ok_bind] at h
      by_cases heq : picked = task
      · subst heq
        refine ⟨i, schedDispatchAll_invariant (fun _ _ hs hdispatch ↦ hs.dispatch hdispatch)
          (Undisturbed.kept hs hpeek (fun j other hother hreturns ↦ ?_) hplace) h⟩
        have hbusy := hother.available.imp_right And.right
        have hcrowded := (hspared.quiet j other hbusy hreturns).resolve_right fun hagain ↦
          schedPeek_longest hpeek hagain.1 hagain.2
        exact hcrowded.keep hs hpick hreturns.ne hother
      · exact ih (hs.nextPeek hpeek i) (htask.keep hs (Ne.symm heq) i)
          (hspared.dispatch hs htask hpick (Ne.symm heq) (hfirst.resolve_left heq) hplace) h

/-- One processor executes task 1, and the others wait. -/
def busyWith (tasks : List ℕ) : Sched 0 where
  tick := 4
  tasks := tasks
  task := fun task ↦ ⟨decide (task ∈ tasks), false, false, false, 1, UInt64.ofNat task, 0⟩
  cpus := fun _ ↦ ⟨0, some 1, some 1⟩

theorem busyWith_valid {tasks : List ℕ} (h : 0 ∉ tasks) : SchedValid (busyWith tasks) where
  next := {
    assigned := fun _ ↦ rfl
    unique := fun i j _ _ _ ↦ (Fin.fin_one_eq_zero i).trans (Fin.fin_one_eq_zero j).symm
    idle_own := fun i j _ ↦ (Fin.fin_one_eq_zero i).trans (Fin.fin_one_eq_zero j).symm
    idle_inj := fun i j _ ↦ (Fin.fin_one_eq_zero i).trans (Fin.fin_one_eq_zero j).symm
    idle_tasks := fun _ ↦ h }
  queued := fun _ hstarted _ ↦ of_decide_eq_true hstarted

theorem busyWith_waiting {tasks : List ℕ} (hmem : task ∈ tasks) (hne : task ≠ 1) :
    Waiting { busyWith tasks with tick := 5 } task where
  started := decide_eq_true hmem
  blocked := rfl
  stopped := rfl
  waiting := fun _ hnext ↦ hne (Option.some.inj hnext).symm

end Brutal.Kernel
