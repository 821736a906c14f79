import Brutal.Kernel.SchedNext
import Brutal.Lib.Removal

/-!
# Reaping tasks

`sched_finalize` takes tasks out of the queue and drops the reference of the queue to them.  The
tasks that nothing needs any more are those that are stopped, are not inside a system call and are
neither `next` nor `current` of a processor.  The condition of the source is another one:
`sched_runnable` holds of every task that is stopped outside a system call, so that such a task is
never taken, and a task that is stopped while it is blocked inside one is taken at once.
-/

namespace Brutal.Kernel

open Base Lib

variable {n : ℕ}

/-- The condition of `sched_finalize` on a task. -/
def finalizes (s : Sched n) (task : ℕ) : Bool :=
  (s.task task).stopped && !schedRunnable (s.task task) && !schedRunning s task

/-- The loop of `sched_finalize` from index `i` on, with the tasks that it has dereferenced.
`vec_remove` searches the queue for the task. -/
def schedFinalizeFrom (s : Sched n) (i : ℕ) (dereferenced tasks : List ℕ) : List ℕ × List ℕ :=
  if h : i < tasks.length then
    if finalizes s tasks[i] then
      schedFinalizeFrom s i (dereferenced ++ [tasks[i]]) (tasks.erase tasks[i])
    else schedFinalizeFrom s (i + 1) dereferenced tasks
  else (dereferenced, tasks)
termination_by tasks.length - i
decreasing_by
  · rw [List.length_erase_of_mem (List.getElem_mem h)]
    omega
  · omega

/-- Tasks before the index stay, so the search of `vec_remove` ends at the index. -/
theorem schedFinalizeFrom_eq_loop (s : Sched n) (i : ℕ) (dereferenced tasks : List ℕ)
    (hbefore : ∀ task ∈ tasks.take i, finalizes s task = false) :
    schedFinalizeFrom s i dereferenced tasks =
      removeLoop (finalizes s) true i dereferenced tasks := by
  fun_induction schedFinalizeFrom s i dereferenced tasks with
  | case1 i dereferenced tasks h hreap ih =>
    have hfirst : tasks[i] ∉ tasks.take i := by
      intro hmem
      rw [hbefore _ hmem] at hreap
      cases hreap
    have herase : tasks.erase tasks[i] = tasks.eraseIdx i := by
      have hsplit := List.take_append_drop i tasks
      rw [List.drop_eq_getElem_cons h] at hsplit
      calc
        tasks.erase tasks[i] =
            (tasks.take i ++ tasks[i] :: tasks.drop (i + 1)).erase tasks[i] := by rw [hsplit]
        _ = tasks.take i ++ tasks.drop (i + 1) := by
          rw [List.erase_append_right _ hfirst, List.erase_cons_head]
        _ = tasks.eraseIdx i := (List.eraseIdx_eq_take_drop_succ tasks i).symm
    rw [herase] at ih ⊢
    rw [removeLoop, dif_pos h, if_pos hreap, cond_true]
    apply ih
    rw [take_eraseIdx_self h]
    exact hbefore
  | case2 i dereferenced tasks h hreap ih =>
    rw [removeLoop, dif_pos h, if_neg hreap]
    apply ih
    rw [← List.take_concat_get' tasks i h]
    intro task htask
    rcases List.mem_append.1 htask with hold | hnew
    · exact hbefore task hold
    · rw [List.mem_singleton.1 hnew]
      exact Bool.eq_false_iff.2 hreap
  | case3 i dereferenced tasks h => rw [removeLoop, dif_neg h]

/-- The loop takes the tasks that meet the condition and keeps the order of the others. -/
theorem schedFinalizeFrom_eq (s : Sched n) :
    schedFinalizeFrom s 0 [] s.tasks = (s.tasks.filter (finalizes s), (schedFinalize s).tasks) := by
  rw [schedFinalizeFrom_eq_loop s 0 [] s.tasks (by simp), removeLoop_stays]
  rfl

/-- Nothing needs the task any more. -/
def Dead (s : Sched n) (task : ℕ) : Prop :=
  (s.task task).stopped = true ∧ (s.task task).inSyscall = false ∧
    ∀ i, (s.cpus i).next ≠ some task ∧ (s.cpus i).current ≠ some task

instance (s : Sched n) (task : ℕ) : Decidable (Dead s task) :=
  inferInstanceAs (Decidable (_ ∧ _ ∧ _))

/-- `sched_finalize` takes exactly the dead tasks out of the queue, dereferences each of them once
and leaves the others in their order. -/
structure ReapsExactly (s : Sched n) : Prop where
  queue : (schedFinalize s).tasks = s.tasks.filter fun task ↦ !decide (Dead s task)
  dereferenced :
    (schedFinalizeFrom s 0 [] s.tasks).1 = s.tasks.filter fun task ↦ decide (Dead s task)

/-- A stopped task that no processor has next is still needed where `sched_finalize` spares it, and
dead where it does not. -/
def JudgedRight (s : Sched n) (task : ℕ) : Prop :=
  if (s.task task).started then
    ((s.task task).inSyscall = true ∧ (s.task task).blocked = false) ∨
      ((s.task task).inSyscall = false ∧ ∃ i, (s.cpus i).current = some task)
  else (s.task task).inSyscall = false ∧ ∀ i, (s.cpus i).current ≠ some task

theorem schedRunning_eq_false_iff {s : Sched n} {task : ℕ} :
    schedRunning s task = false ↔ ∀ i, (s.cpus i).next ≠ some task := by
  simp [schedRunning, List.any_eq_false]

/-- The condition of the source agrees with what it is for on exactly the tasks that are judged
right. -/
theorem finalizes_eq_dead_iff {s : Sched n} {task : ℕ} :
    finalizes s task = decide (Dead s task) ↔
      ((s.task task).stopped = true → (∀ i, (s.cpus i).next ≠ some task) →
        JudgedRight s task) := by
  by_cases hstopped : (s.task task).stopped = true
  · by_cases hnext : ∀ i, (s.cpus i).next ≠ some task
    · have hrunning := schedRunning_eq_false_iff.2 hnext
      have hdead : Dead s task ↔
          (s.task task).inSyscall = false ∧ ∀ i, (s.cpus i).current ≠ some task := by
        simp only [Dead, hstopped, hnext, true_and, ne_eq, not_false_eq_true]
      rw [Bool.eq_iff_iff, decide_eq_true_iff, hdead]
      simp only [finalizes, JudgedRight, schedRunnable, hstopped, hrunning, hnext, ne_eq,
        not_false_eq_true, implies_true, forall_const]
      by_cases hcurrent : ∃ i, (s.cpus i).current = some task
      · have hall : ¬ ∀ i, ¬ (s.cpus i).current = some task := by simpa using hcurrent
        cases (s.task task).started <;> cases (s.task task).blocked <;>
          cases (s.task task).inSyscall <;> simp [hcurrent, hall]
      · have hall : ∀ i, ¬ (s.cpus i).current = some task := by simpa using hcurrent
        cases (s.task task).started <;> cases (s.task task).blocked <;>
          cases (s.task task).inSyscall <;> simp [hall]
    · have hrunning : schedRunning s task = true := by
        by_contra hfalse
        exact hnext (schedRunning_eq_false_iff.1 (Bool.eq_false_iff.2 hfalse))
      have halive : ¬ Dead s task := fun hdead ↦ hnext fun i ↦ (hdead.2.2 i).1
      simp [finalizes, hrunning, halive, hnext]
  · have halive : ¬ Dead s task := fun hdead ↦ hstopped hdead.1
    simp [finalizes, hstopped, halive]

/-- Two selections from a list are the same when they agree on its elements. -/
theorem filter_eq_filter_iff {α : Type*} {p q : α → Bool} {items : List α} :
    items.filter p = items.filter q ↔ ∀ item ∈ items, p item = q item := by
  constructor
  · intro heq item hitem
    have hmem : (item ∈ items.filter p) = (item ∈ items.filter q) := by rw [heq]
    rw [Bool.eq_iff_iff]
    simpa [List.mem_filter, hitem] using hmem
  · exact List.filter_congr

/-- `sched_finalize` reaps exactly the dead tasks when each queued task that is stopped, and that no
processor has next, is inside a system call and not blocked, or outside one and still `current`. -/
theorem schedFinalize_exact_iff (s : Sched n) :
    ReapsExactly s ↔ ∀ task ∈ s.tasks, (s.task task).stopped = true →
      (∀ i, (s.cpus i).next ≠ some task) → JudgedRight s task := by
  have hqueue : (schedFinalize s).tasks = s.tasks.filter fun task ↦ !finalizes s task := rfl
  have hdropped : (schedFinalizeFrom s 0 [] s.tasks).1 = s.tasks.filter (finalizes s) := by
    rw [schedFinalizeFrom_eq]
  constructor
  · intro hexact task htask
    have hfilter := hexact.dereferenced
    rw [hdropped, filter_eq_filter_iff] at hfilter
    exact finalizes_eq_dead_iff.1 (hfilter task htask)
  · intro hright
    have hsame : ∀ task ∈ s.tasks, finalizes s task = decide (Dead s task) :=
      fun task htask ↦ finalizes_eq_dead_iff.2 (hright task htask)
    constructor
    · rw [hqueue]
      exact List.filter_congr fun task htask ↦ by rw [hsame task htask]
    · rw [hdropped]
      exact List.filter_congr hsame

/-- A task that is killed before it ever ran stays in the queue for good, and one that is killed
while it waits inside a system call is taken out of it. -/
theorem schedFinalize_exact_fails :
    (∃ s : Sched 1, Run (Succeeds schedStep) twoIdle [.start 2, .stop 2] s ∧
      Dead s 2 ∧ 2 ∈ (schedFinalize s).tasks ∧ ¬ ReapsExactly s) ∧
    ∃ s : Sched 1, Run (Succeeds schedStep) twoIdle
        [.start 2, .schedule fun _ ↦ false, .switch 0, .syscall 0 true, .block 0 (-1),
          .yield 0 fun _ ↦ false, .switch 0, .stop 2] s ∧
      (s.task 2).inSyscall = true ∧ 2 ∈ s.tasks ∧ 2 ∉ (schedFinalize s).tasks := by
  have hkilled : ∃ s, [.start 2, .stop 2].foldlM schedStep twoIdle = .ok s ∧
      Dead s 2 ∧ 2 ∈ (schedFinalize s).tasks := by
    decide +kernel
  have hwaiting : ∃ s, [.start 2, .schedule fun _ ↦ false, .switch 0, .syscall 0 true,
        .block 0 (-1), .yield 0 fun _ ↦ false, .switch 0, .stop 2].foldlM schedStep twoIdle =
        .ok s ∧
      (s.task 2).inSyscall = true ∧ 2 ∈ s.tasks ∧ 2 ∉ (schedFinalize s).tasks := by
    decide +kernel
  obtain ⟨s, hfold, hdead, hqueued⟩ := hkilled
  obtain ⟨t, hfold', htaken⟩ := hwaiting
  refine ⟨⟨s, Run.ofFold hfold, hdead, hqueued, fun hexact ↦ ?_⟩, t, Run.ofFold hfold', htaken⟩
  rw [hexact.queue] at hqueued
  simpa [hdead] using (List.mem_filter.1 hqueued).2

end Brutal.Kernel
