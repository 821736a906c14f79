import Brutal.Kernel.SchedNext

/-!
# The dispatch loop

`sched_schedule` dispatches the task that `sched_peek` finds until there is none or it has no place
for it.  A dispatch may take the processor of another task, which then waits again.  What ends the
loop is the time stamp of the dispatched task: `sched_pick` leaves out the tasks that were given to
a processor in this tick, so that every round uses up one task of the queue.
-/

namespace Brutal.Kernel

open Base Lib

variable {n : ℕ}

/-- A round of the loop, which dispatches a task. -/
def Dispatches (s : Sched n) (task : ℕ) (t : Sched n) : Prop :=
  schedPeek s = some task ∧ schedDispatch s (some task) = .ok (some t)

theorem Dispatches.of_peek {s t : Sched n} (h : schedDispatch s (schedPeek s) = .ok (some t)) :
    ∃ task, Dispatches s task t := by
  cases hpeek : schedPeek s with
  | none =>
    rw [hpeek] at h
    cases h
  | some task =>
    rw [hpeek] at h
    exact ⟨task, hpeek, h⟩

theorem Dispatches.dispatch {s t : Sched n} {task : ℕ} (h : Dispatches s task t) :
    schedDispatch s (schedPeek s) = .ok (some t) := by
  rw [h.1]
  exact h.2

/-- What a round does. -/
theorem Dispatches.cases {s t : Sched n} {task : ℕ} (h : Dispatches s task t) :
    Pickable s task ∧ ∃ i, t = schedNext s task i := by
  obtain ⟨task', i, htask, ht, _⟩ := schedDispatch_cases h.2
  cases htask
  exact ⟨schedPeek_pickable h.1, i, ht⟩

/-- The tasks that the loop has dispatched so far all bear the stamp of the tick. -/
structure Stamped (s : Sched n) (tasks : List ℕ) (t : Sched n) : Prop where
  tick_eq : t.tick = s.tick
  queue_eq : t.tasks = s.tasks
  queued : ∀ task ∈ tasks, task ∈ s.tasks
  stamped : ∀ task ∈ tasks, (t.task task).timeStart = t.tick
  nodup : tasks.Nodup

theorem Stamped.nil (s : Sched n) : Stamped s [] s where
  tick_eq := rfl
  queue_eq := rfl
  queued _ h := absurd h List.not_mem_nil
  stamped _ h := absurd h List.not_mem_nil
  nodup := List.nodup_nil

/-- A round dispatches a task that does not bear the stamp yet, and stamps it. -/
theorem Stamped.snoc {s t u : Sched n} {tasks : List ℕ} {task : ℕ} (h : Stamped s tasks t)
    (hround : Dispatches t task u) : Stamped s (tasks ++ [task]) u := by
  obtain ⟨hpick, i, rfl⟩ := hround.cases
  have htick := schedNext_tick t task i
  constructor
  · exact htick.trans h.tick_eq
  · exact (schedNext_tasks t task i).trans h.queue_eq
  · intro other hother
    rcases List.mem_append.1 hother with hold | hnew
    · exact h.queued other hold
    · rw [List.mem_singleton.1 hnew, ← h.queue_eq]
      exact hpick.queued
  · intro other hother
    rw [schedNext_timeStart, htick]
    split
    next => rfl
    next hne =>
      rcases List.mem_append.1 hother with hold | hnew
      · exact h.stamped other hold
      · exact absurd (List.mem_singleton.1 hnew) hne
  · apply List.nodup_append'.2
    refine ⟨h.nodup, List.nodup_singleton task, ?_⟩
    rw [List.disjoint_singleton]
    exact fun hmem ↦ hpick.fresh (h.stamped task hmem)

theorem stamped_of_rounds {s t : Sched n} {tasks : List ℕ} (h : Run Dispatches s tasks t) :
    Stamped s tasks t :=
  h.history (Stamped.nil s) fun _ _ _ _ hstamped hround ↦ hstamped.snoc hround

/-- The loop comes to a round that dispatches nothing. -/
theorem exists_lastRound (s : Sched n) :
    ∃ tasks t, Run Dispatches s tasks t ∧ ∀ task u, ¬ Dispatches t task u := by
  induction hcount : freshCount s using Nat.strong_induction_on generalizing s with
  | _ count ih =>
    by_cases hround : ∃ task u, Dispatches s task u
    · obtain ⟨task, u, hround⟩ := hround
      have hless : freshCount u < count := hcount ▸ freshCount_dispatch hround.dispatch
      obtain ⟨tasks, t, hrun, hlast⟩ := ih (freshCount u) hless u rfl
      exact ⟨task :: tasks, t, .cons hround hrun, hlast⟩
    · simp only [not_exists] at hround
      exact ⟨[], s, .nil s, hround⟩

/-- The loop of the source makes the rounds and stops behind the last one. -/
theorem schedDispatchAll_of_rounds {s t : Sched n} {tasks : List ℕ} {depth : ℕ}
    (hrun : Run Dispatches s tasks t) (hlast : schedDispatch t (schedPeek t) = .ok none)
    (hdepth : tasks.length < depth) : schedDispatchAll depth s = .ok t := by
  induction hrun generalizing depth with
  | nil s =>
    obtain ⟨depth, rfl⟩ := Nat.exists_eq_succ_of_ne_zero (Nat.ne_zero_of_lt hdepth)
    rw [schedDispatchAll, hlast]
    rfl
  | cons hround _ ih =>
    obtain ⟨depth, rfl⟩ := Nat.exists_eq_succ_of_ne_zero (Nat.ne_zero_of_lt hdepth)
    rw [schedDispatchAll, hround.dispatch]
    exact ih hlast (Nat.lt_of_succ_lt_succ hdepth)

/-- In every state of the scheduler, each sequence of rounds dispatches different tasks of the
queue, and the loop comes to its last round.  Where every processor has a next task of its own, as
in all states that the scheduler reaches, that round finds no task or no place, and the loop of
`sched_schedule` returns. -/
theorem schedDispatch_loopEnds (s : Sched n) :
    (∀ tasks t, Run Dispatches s tasks t → tasks.Nodup ∧ tasks.length ≤ s.tasks.length) ∧
      ∃ tasks t, Run Dispatches s tasks t ∧ (∀ task u, ¬ Dispatches t task u) ∧
        (NextUnique s → schedDispatch t (schedPeek t) = .ok none ∧
          schedDispatchAll (s.tasks.length + 1) s = .ok t) := by
  have hbounded : ∀ tasks t, Run Dispatches s tasks t →
      tasks.Nodup ∧ tasks.length ≤ s.tasks.length := by
    intro tasks t hrun
    have hstamped := stamped_of_rounds hrun
    have hsub := List.subperm_of_subset hstamped.nodup hstamped.queued
    exact ⟨hstamped.nodup, hsub.length_le⟩
  obtain ⟨tasks, t, hrun, hlast⟩ := exists_lastRound s
  refine ⟨hbounded, tasks, t, hrun, hlast, fun hs ↦ ?_⟩
  have ht : NextUnique t :=
    hrun.invariant (fun _ _ _ hu hround ↦ hu.dispatch hround.dispatch) hs
  have hstop : schedDispatch t (schedPeek t) = .ok none := by
    obtain ⟨result, hresult⟩ := schedDispatch_ok ht (schedPeek t)
    cases result with
    | none => exact hresult
    | some u =>
      obtain ⟨task, hround⟩ := Dispatches.of_peek hresult
      exact absurd hround (hlast task u)
  have hlength := (hbounded tasks t hrun).2
  exact ⟨hstop, schedDispatchAll_of_rounds hrun hstop (by omega)⟩

/-- Three tasks that wait for two processors. -/
def threeWaiting : Sched 1 :=
  { twoIdle with
    tick := 1
    tasks := [2, 3, 4]
    task := fun _ ↦ { (default : SchedTask) with started := true } }

/-- The loop gives each of the processors a task and returns. -/
theorem schedDispatch_loopEnds_threeWaiting :
    ∃ tasks t, Run Dispatches threeWaiting tasks t ∧ tasks.Nodup ∧
      schedDispatchAll 4 threeWaiting = .ok t := by
  have hidle : IdleNext threeWaiting := ⟨fun _ ↦ rfl, fun _ _ ↦ Fin.ext, by decide⟩
  obtain ⟨hbounded, tasks, t, hrun, _, hends⟩ := schedDispatch_loopEnds threeWaiting
  exact ⟨tasks, t, hrun, (hbounded tasks t hrun).1, (hends hidle.nextUnique).2⟩

end Brutal.Kernel
