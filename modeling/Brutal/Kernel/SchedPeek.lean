import Brutal.Kernel.SchedNext

/-!
# The task that waited longest

`sched_peek` goes over the queue and finds the first one of the tasks that waited longest.  In
`sched_yield` the pass over the blocked tasks comes before: it wakes tasks, and takes processors
from tasks that are not runnable any more.  Which task is found then is said of the state before the
pass.
-/

namespace Brutal.Kernel

open Base Lib

variable {n : ℕ}
variable {s t : Sched n} {task other : ℕ}

/-- Attaching stamps the new task and detaching the old one. -/
theorem schedNext_task (s : Sched n) (task : ℕ) (i : Fin (n + 1)) (other : ℕ) :
    (schedNext s task i).task other =
      { s.task other with
        timeStart := if other = task then s.tick else (s.task other).timeStart
        timeEnd := if (s.cpus i).next = some other then s.tick else (s.task other).timeEnd } := by
  cases hnext : (s.cpus i).next with
  | none =>
    simp only [schedNext, hnext, schedDetach, schedAttach, Sched.modifyTask, Function.update_apply]
    split
    next heq => simp [heq]
    next => simp
  | some old =>
    have hsome : (some old = some other) = (other = old) := by
      rw [Option.some.injEq]
      exact propext eq_comm
    simp only [schedNext, hnext, schedDetach, schedAttach, Sched.modifyTask,
      Function.update_apply, hsome]
    by_cases htask : other = task
    · subst htask
      by_cases hold : other = old
      · subst hold
        simp
      · simp [hold]
    · by_cases hold : other = old
      · subst hold
        simp [htask]
      · simp [htask, hold]

theorem schedNext_runnable (s : Sched n) (task : ℕ) (i : Fin (n + 1)) (other : ℕ) :
    taskRunnable ((schedNext s task i).task other) = taskRunnable (s.task other) := by
  rw [schedNext_task]
  rfl

theorem schedNext_timeEnd (s : Sched n) (task : ℕ) (i : Fin (n + 1)) (other : ℕ) :
    ((schedNext s task i).task other).timeEnd =
      if (s.cpus i).next = some other then s.tick else (s.task other).timeEnd := by
  rw [schedNext_task]

theorem schedRunning_iff : schedRunning s task = true ↔ ∃ i, (s.cpus i).next = some task := by
  simp [schedRunning]

theorem not_schedRunning (h : ∀ i, (s.cpus i).next ≠ some task) : ¬ schedRunning s task = true := by
  intro hrunning
  obtain ⟨i, hi⟩ := schedRunning_iff.1 hrunning
  exact h i hi

/-- The end of the time that a task ran, which is this tick if it is still to be detached. -/
def waitEnd (s : Sched n) (task : ℕ) : UInt64 :=
  if schedRunning s task then s.tick else (s.task task).timeEnd

/-- The order in which `sched_peek` takes the tasks. -/
def Longer (s : Sched n) (task other : ℕ) : Prop :=
  (s.task task).timeEnd < (s.task other).timeEnd ∨
    ((s.task task).timeEnd = (s.task other).timeEnd ∧ s.tasks.idxOf task < s.tasks.idxOf other)

/-- What `sched_peek` has found after a part of the queue. -/
structure BestOf (s : Sched n) (tasks : List ℕ) (best : ℕ) : Prop where
  mem : best ∈ tasks
  first : ∀ other ∈ tasks, Pickable s other →
    (s.task best).timeEnd < (s.task other).timeEnd ∨
      ((s.task best).timeEnd = (s.task other).timeEnd ∧ tasks.idxOf best ≤ tasks.idxOf other)

theorem schedPick_of_pickable (h : Pickable s other) (best : Option ℕ) :
    schedPick s best other = if waitedMore s best other = true then some other else best := by
  have hrunning : schedRunning s other = false := by
    apply Bool.eq_false_iff.2
    intro hany
    obtain ⟨i, _, hnext⟩ := List.any_eq_true.1 hany
    exact h.waiting i (by simpa using hnext)
  have hfresh : ((s.task other).timeStart != s.tick) = true := bne_iff_ne.2 h.fresh
  rw [schedPick, hfresh, h.runnable, hrunning]
  rfl

theorem schedPick_of_not_pickable (hmem : other ∈ s.tasks) (h : ¬ Pickable s other)
    (best : Option ℕ) : schedPick s best other = best := by
  unfold schedPick
  split
  next hpick =>
    simp only [Bool.and_eq_true, Bool.not_eq_true', bne_iff_ne] at hpick
    exact absurd ⟨hmem, hpick.1.1, hpick.1.2.1, next_ne_of_not_running hpick.1.2.2⟩ h
  next => rfl

theorem BestOf.snoc {tasks : List ℕ} {best other : ℕ} (h : BestOf s tasks best)
    (hother : Pickable s other → ¬ (s.task other).timeEnd < (s.task best).timeEnd) :
    BestOf s (tasks ++ [other]) best := by
  refine ⟨List.mem_append_left _ h.mem, fun p hp hpick ↦ ?_⟩
  rw [List.idxOf_append_of_mem h.mem]
  by_cases hold : p ∈ tasks
  · rw [List.idxOf_append_of_mem hold]
    exact h.first p hold hpick
  · have heq : p = other := List.mem_singleton.1 ((List.mem_append.1 hp).resolve_left hold)
    have hle := UInt64.not_lt.1 (hother (heq ▸ hpick))
    rw [heq] at hold ⊢
    rcases UInt64.lt_or_eq_of_le hle with hlt | heq
    · exact Or.inl hlt
    · refine Or.inr ⟨heq, ?_⟩
      rw [List.idxOf_append_of_notMem hold]
      exact le_trans (List.idxOf_lt_length_of_mem h.mem).le (Nat.le_add_right _ _)

/-- A task that waited longer than those in front of it is the best one. -/
theorem BestOf.last {rest : List ℕ} {other : ℕ}
    (h : ∀ p ∈ rest, Pickable s p → (s.task other).timeEnd < (s.task p).timeEnd) :
    BestOf s (rest ++ [other]) other := by
  refine ⟨List.mem_append_right _ (List.mem_singleton_self _), fun p hp hpickable ↦ ?_⟩
  rcases List.mem_append.1 hp with hin | heq
  · exact Or.inl (h p hin hpickable)
  · rw [List.mem_singleton.1 heq]
    exact Or.inr ⟨rfl, le_rfl⟩

/-- `sched_peek` finds the first of the tasks that waited longest, if there is one. -/
theorem schedPeek_foldl (tasks : List ℕ) (hmem : ∀ task ∈ tasks, task ∈ s.tasks) :
    (∀ best, tasks.foldl (schedPick s) none = some best → BestOf s tasks best) ∧
      (tasks.foldl (schedPick s) none = none → ∀ task ∈ tasks, ¬ Pickable s task) := by
  induction tasks using List.reverseRecOn with
  | nil =>
    refine ⟨fun best h ↦ ?_, fun _ task htask ↦ ?_⟩
    · cases h
    · cases htask
  | append_singleton rest other ih =>
    obtain ⟨hbest, hnone⟩ := ih fun task htask ↦ hmem task (List.mem_append_left _ htask)
    have hother : other ∈ s.tasks :=
      hmem other (List.mem_append_right _ (List.mem_singleton_self _))
    rw [List.foldl_append, List.foldl_cons, List.foldl_nil]
    by_cases hpick : Pickable s other
    · rw [schedPick_of_pickable hpick]
      cases hrest : rest.foldl (schedPick s) none with
      | none =>
        have hnew := hnone hrest
        rw [waitedMore, if_pos rfl]
        refine ⟨fun best h ↦ ?_, fun h ↦ ?_⟩
        · cases h
          exact BestOf.last fun p hp hpickable ↦ absurd hpickable (hnew p hp)
        · cases h
      | some old =>
        have hold := hbest old hrest
        refine ⟨fun best h ↦ ?_, fun h ↦ ?_⟩
        · by_cases hmore : (s.task other).timeEnd < (s.task old).timeEnd
          · have hw : waitedMore s (some old) other = true := decide_eq_true hmore
            rw [if_pos hw] at h
            cases h
            refine BestOf.last fun p hp hpickable ↦ ?_
            rcases hold.first p hp hpickable with hlt | ⟨heq, _⟩
            · exact UInt64.lt_trans hmore hlt
            · exact heq ▸ hmore
          · have hw : ¬ waitedMore s (some old) other = true := by
              simpa [waitedMore] using hmore
            rw [if_neg hw] at h
            cases h
            exact hold.snoc fun _ ↦ hmore
        · split at h <;> cases h
    · rw [schedPick_of_not_pickable hother hpick]
      refine ⟨fun best h ↦ (hbest best h).snoc fun hp ↦ absurd hp hpick, fun h task htask ↦ ?_⟩
      rcases List.mem_append.1 htask with hin | heq
      · exact hnone h task hin
      · rw [List.mem_singleton.1 heq]
        exact hpick

theorem schedPeek_longest {best other : ℕ} (h : schedPeek s = some best)
    (hother : Pickable s other) : ¬ Longer s other best := by
  have hfirst := ((schedPeek_foldl s.tasks fun _ ht ↦ ht).1 best h).first other hother.queued hother
  rintro (hlt | ⟨heq, hidx⟩)
  · rcases hfirst with hless | ⟨heq, _⟩
    · exact absurd (UInt64.lt_trans hlt hless) (UInt64.lt_irrefl _)
    · exact absurd (heq ▸ hlt) (UInt64.lt_irrefl _)
  · rcases hfirst with hless | ⟨_, hle⟩
    · exact absurd (heq ▸ hless) (UInt64.lt_irrefl _)
    · exact absurd (lt_of_lt_of_le hidx hle) (lt_irrefl _)

/-- A task that waited longer than all others is the one that is found. -/
theorem schedPeek_eq_some (htask : Pickable s task)
    (h : ∀ other, Pickable s other → other ≠ task → ¬ Longer s other task) :
    schedPeek s = some task := by
  cases hpeek : schedPeek s with
  | none =>
    exact absurd htask ((schedPeek_foldl s.tasks fun _ ht ↦ ht).2 hpeek task htask.queued)
  | some best =>
    have hbest := schedPeek_pickable hpeek
    have hlongest := schedPeek_longest hpeek htask
    by_cases heq : best = task
    · rw [heq]
    · have hother := h best hbest heq
      simp only [Longer, not_or, not_and, UInt64.not_lt, Nat.not_lt] at hlongest hother
      have htime := UInt64.le_antisymm hlongest.1 hother.1
      have hidx := le_antisymm (hlongest.2 htime.symm) (hother.2 htime)
      exact absurd ((List.idxOf_inj hbest.queued).1 hidx) heq

/-- What the pass makes of a task: it is woken when its blocker or its deadline is reached, or when
it is stopped. -/
def wake (reached : Bool) (tick : UInt64) (task : SchedTask) : SchedTask :=
  if task.blocked && (reached || hasReachedDeadline task tick || task.stopped) then
    { task with blocked := false }
  else task

/-- The record of a task once the tasks of the queue are woken. -/
def woken (s : Sched n) (reached : ℕ → Bool) (task : ℕ) : SchedTask :=
  if task ∈ s.tasks then wake (reached task) s.tick (s.task task) else s.task task

/-- The task that the processor executes is not runnable, so that the processor loses its `next`. -/
def GivesUp (s : Sched n) (reached : ℕ → Bool) (i : Fin (n + 1)) : Prop :=
  ∃ task, (s.cpus i).current = some task ∧ taskRunnable (woken s reached task) = false

/-- The task is in the queue and runnable, and no processor goes on with it. -/
structure Waits (s : Sched n) (reached : ℕ → Bool) (task : ℕ) : Prop where
  queued : task ∈ s.tasks
  fresh : (s.task task).timeStart ≠ s.tick
  runnable : taskRunnable (woken s reached task) = true
  released : ∀ i, (s.cpus i).next = some task → GivesUp s reached i

/-- Of the tasks that wait, this one is the first that waited longest. -/
structure LongestWaiting (s : Sched n) (reached : ℕ → Bool) (task : ℕ) : Prop where
  waits : Waits s reached task
  longest : ∀ other, Waits s reached other → waitEnd s task < waitEnd s other ∨
    (waitEnd s task = waitEnd s other ∧ s.tasks.idxOf task ≤ s.tasks.idxOf other)

theorem wake_wake (reached : Bool) (tick : UInt64) (task : SchedTask) :
    wake reached tick (wake reached tick task) = wake reached tick task := by
  unfold wake
  split
  · rfl
  · rfl

theorem schedUpdateTask_task (reached : ℕ → Bool) (s : Sched n) (task other : ℕ) :
    (schedUpdateTask reached s task).task other =
      if other = task then wake (reached other) s.tick (s.task other) else s.task other := by
  unfold schedUpdateTask wake
  by_cases heq : other = task
  · rw [heq, if_pos rfl]
    split
    · exact Function.update_self ..
    · rfl
  · rw [if_neg heq]
    split
    · exact Function.update_of_ne heq ..
    · rfl

theorem schedUpdateTask_foldl_task (reached : ℕ → Bool) (tasks : List ℕ) (s : Sched n)
    (other : ℕ) :
    (tasks.foldl (schedUpdateTask reached) s).task other =
      if other ∈ tasks then wake (reached other) s.tick (s.task other) else s.task other := by
  induction tasks generalizing s with
  | nil => rfl
  | cons task rest ih =>
    have htick : (schedUpdateTask reached s task).tick = s.tick := by
      unfold schedUpdateTask
      split <;> rfl
    rw [List.foldl_cons, ih, htick, schedUpdateTask_task]
    by_cases heq : other = task
    · rw [if_pos heq, if_pos (List.mem_cons.2 (Or.inl heq)), wake_wake, ite_self]
    · simp only [if_neg heq, List.mem_cons, or_iff_right heq]

/-- What the pass over some of the processors comes to. -/
structure Released (s : Sched n) (gives : Fin (n + 1) → Prop) (t : Sched n) : Prop where
  unique : NextUnique t
  tasks : t.tasks = s.tasks
  tick : t.tick = s.tick
  current : ∀ i, (t.cpus i).current = (s.cpus i).current
  kept : ∀ i, ¬ gives i → (t.cpus i).next = (s.cpus i).next
  given : ∀ i, gives i → (t.cpus i).next = some (s.cpus i).idle
  runnable : ∀ task, taskRunnable (t.task task) = taskRunnable (s.task task)
  timeStart : ∀ task ∈ s.tasks, (t.task task).timeStart = (s.task task).timeStart
  idle : ∀ task, ¬ (∃ i, gives i ∧ (s.cpus i).next = some task) →
    (t.task task).timeEnd = (s.task task).timeEnd
  ended : ∀ task, (∃ i, gives i ∧ (s.cpus i).next = some task) → (t.task task).timeEnd = s.tick

/-- The processor executes a task that is not runnable. -/
def Stops (s : Sched n) (i : Fin (n + 1)) : Prop :=
  ∃ task, (s.cpus i).current = some task ∧ taskRunnable (s.task task) = false

theorem Released.refl (hs : NextUnique s) : Released s (fun _ ↦ False) s where
  unique := hs
  tasks := rfl
  tick := rfl
  current _ := rfl
  kept _ _ := rfl
  given _ h := h.elim
  runnable _ := rfl
  timeStart _ _ := rfl
  idle _ _ := rfl
  ended _ h := h.elim fun _ h ↦ h.1.elim

theorem Released.congr {gives gives' : Fin (n + 1) → Prop} (h : Released s gives t)
    (hiff : ∀ i, gives' i ↔ gives i) : Released s gives' t := by
  have heq : gives' = gives := funext fun i ↦ propext (hiff i)
  rw [heq]
  exact h

/-- One more processor loses its `next`. -/
theorem Released.next {gives : Fin (n + 1) → Prop} (h : Released s gives t) {i : Fin (n + 1)}
    (hnot : ¬ gives i) (hidle : (t.cpus i).idle = (s.cpus i).idle)
    (hqueue : (s.cpus i).idle ∉ s.tasks) :
    Released s (fun j ↦ j = i ∨ gives j) (schedNext t (t.cpus i).idle i) := by
  have hnext := h.kept i hnot
  have hcpus := schedNext_cpus h.unique (t.cpus i).idle i
  constructor
  · exact h.unique.nextIdle i
  · rw [schedNext_tasks, h.tasks]
  · rw [schedNext_tick, h.tick]
  · intro j
    rw [schedNext_current h.unique, h.current]
  · intro j hj
    rw [not_or] at hj
    rw [hcpus, if_neg hj.1, h.kept j hj.2]
  · intro j hj
    by_cases hji : j = i
    · rw [hcpus, if_pos hji, hji, hidle]
    · rw [hcpus, if_neg hji]
      exact h.given j (hj.resolve_left hji)
  · intro task
    rw [schedNext_runnable, h.runnable]
  · intro task htask
    have hne : task ≠ (t.cpus i).idle := by
      intro heq
      rw [hidle] at heq
      exact hqueue (heq ▸ htask)
    rw [schedNext_task, ← h.timeStart task htask]
    exact if_neg hne
  · intro task hno
    have hold : ¬ ∃ j, gives j ∧ (s.cpus j).next = some task :=
      fun hsome ↦ hno (hsome.imp fun j hj ↦ ⟨Or.inr hj.1, hj.2⟩)
    have hnew : (t.cpus i).next ≠ some task := by
      rw [hnext]
      exact fun heq ↦ hno ⟨i, Or.inl rfl, heq⟩
    rw [schedNext_timeEnd, if_neg hnew, h.idle task hold]
  · intro task hsome
    rw [schedNext_timeEnd]
    split
    · exact h.tick
    · next hother =>
      apply h.ended task
      obtain ⟨j, hj, hjtask⟩ := hsome
      refine ⟨j, hj.resolve_left fun heq ↦ hother ?_, hjtask⟩
      rw [hnext, ← heq, hjtask]

/-- The pass over the processors takes the `next` of those that stop. -/
theorem schedUpdateCpu_released (hs : NextUnique s) {cpus : List (Fin (n + 1))}
    (hnodup : cpus.Nodup) (h : cpus.foldlM schedUpdateCpu s = .ok t) :
    Released s (fun i ↦ i ∈ cpus ∧ Stops s i) t ∧ ∀ i, (t.cpus i).idle = (s.cpus i).idle := by
  induction cpus using List.reverseRecOn generalizing t with
  | nil =>
    cases h
    refine ⟨(Released.refl hs).congr fun i ↦ ?_, fun _ ↦ rfl⟩
    exact iff_of_false (fun h ↦ List.not_mem_nil h.1) not_false
  | append_singleton cpus i ih =>
    obtain ⟨hbefore, -, hdisjoint⟩ := List.nodup_append.1 hnodup
    have hnew : i ∉ cpus := fun hmem ↦ hdisjoint i hmem i (List.mem_singleton_self i) rfl
    rw [List.foldlM_append] at h
    obtain ⟨u, hu, hlast⟩ := bind_eq_ok.1 h
    obtain ⟨hreleased, hidle⟩ := ih hbefore hu
    have hstep : schedUpdateCpu u i = .ok t := by
      rw [List.foldlM_cons] at hlast
      obtain ⟨v, hv, hnil⟩ := bind_eq_ok.1 hlast
      cases hnil
      exact hv
    have hmem : ∀ j, j ∈ cpus ++ [i] ↔ j = i ∨ j ∈ cpus := by
      intro j
      rw [List.mem_append, List.mem_singleton, or_comm]
    unfold schedUpdateCpu at hstep
    rw [hreleased.current] at hstep
    split at hstep
    · cases hstep
    · next task htask =>
      rw [hreleased.runnable] at hstep
      have hstops : Stops s i ↔ taskRunnable (s.task task) = false := by
        refine ⟨fun hsome ↦ ?_, fun hrun ↦ ⟨task, htask, hrun⟩⟩
        obtain ⟨other, hother, hrun⟩ := hsome
        rw [htask] at hother
        cases hother
        exact hrun
      by_cases hrun : taskRunnable (s.task task) = true
      · rw [if_pos hrun] at hstep
        cases hstep
        refine ⟨hreleased.congr fun j ↦ ?_, hidle⟩
        rw [hmem]
        refine and_congr_left fun hj ↦ or_iff_right fun heq ↦ ?_
        rw [heq, hstops, hrun] at hj
        cases hj
      · rw [if_neg hrun] at hstep
        cases hstep
        have hnext := hreleased.next (fun hgives ↦ hnew hgives.1) (hidle i) (hs.idle_tasks i)
        refine ⟨hnext.congr fun j ↦ ?_, fun j ↦ ?_⟩
        · rw [hmem, or_and_right]
          refine or_congr_left (and_iff_left_of_imp fun heq ↦ ?_)
          rw [heq, hstops]
          exact Bool.eq_false_iff.2 hrun
        · rw [schedNext_idle hreleased.unique, hidle]

/-- What the passes over the tasks and the processors come to. -/
theorem schedUpdatedBlocked_released (hs : NextUnique s) {reached : ℕ → Bool}
    (h : schedUpdatedBlocked s reached = .ok t) :
    t.tasks = s.tasks ∧ t.tick = s.tick ∧
      (∀ task, taskRunnable (t.task task) = taskRunnable (woken s reached task)) ∧
      ∀ task ∈ s.tasks, (t.task task).timeStart = (s.task task).timeStart ∧
        ((∀ i, (t.cpus i).next ≠ some task) ↔
          ∀ i, (s.cpus i).next = some task → GivesUp s reached i) ∧
        ((∀ i, (s.cpus i).next = some task → GivesUp s reached i) →
          (t.task task).timeEnd = waitEnd s task) := by
  obtain ⟨hcpus, htasks, htick⟩ := schedUpdateTask_foldl reached s.tasks s
  have hwoken : ∀ task, (s.tasks.foldl (schedUpdateTask reached) s).task task =
      woken s reached task := schedUpdateTask_foldl_task reached s.tasks s
  obtain ⟨hreleased, -⟩ :=
    schedUpdateCpu_released (hs.congr hcpus htasks) (List.nodup_finRange (n + 1)) h
  have hgives : ∀ i, (i ∈ List.finRange (n + 1) ∧
      Stops (s.tasks.foldl (schedUpdateTask reached) s) i) ↔ GivesUp s reached i := by
    intro i
    rw [and_iff_right (List.mem_finRange i), Stops, GivesUp, hcpus]
    simp only [hwoken]
  have hreleased := hreleased.congr fun i ↦ (hgives i).symm
  have hsame : ∀ task, (woken s reached task).timeStart = (s.task task).timeStart ∧
      (woken s reached task).timeEnd = (s.task task).timeEnd := by
    intro task
    unfold woken wake
    split
    · split <;> exact ⟨rfl, rfl⟩
    · exact ⟨rfl, rfl⟩
  refine ⟨hreleased.tasks.trans htasks, hreleased.tick.trans htick, fun task ↦ ?_,
    fun task htask ↦ ⟨?_, ?_, fun hall ↦ ?_⟩⟩
  · rw [hreleased.runnable, hwoken]
  · rw [hreleased.timeStart task (htasks.symm ▸ htask), hwoken, (hsame task).1]
  · constructor
    · intro hnone i hi
      by_contra hkeeps
      apply hnone i
      rw [hreleased.kept i hkeeps, hcpus, hi]
    · intro hall i hi
      by_cases hgive : GivesUp s reached i
      · rw [hreleased.given i hgive, hcpus, Option.some.injEq] at hi
        exact hs.idle_tasks i (hi ▸ htask)
      · rw [hreleased.kept i hgive, hcpus] at hi
        exact hgive (hall i hi)
  · by_cases hrunning : ∃ i, (s.cpus i).next = some task
    · have hended := hreleased.ended task <| by
        obtain ⟨i, hi⟩ := hrunning
        exact ⟨i, hall i hi, by rw [hcpus, hi]⟩
      rw [hended, htick, waitEnd, if_pos (schedRunning_iff.2 hrunning)]
    · have hidle := hreleased.idle task <| by
        rintro ⟨i, -, hi⟩
        exact hrunning ⟨i, by rw [← hcpus, hi]⟩
      rw [hidle, hwoken, (hsame task).2, waitEnd, if_neg (mt schedRunning_iff.1 hrunning)]

/-- What `sched_peek` finds after the pass is the task that waited longest before it. -/
theorem schedPeek_updated (hs : NextUnique s) {reached : ℕ → Bool}
    (h : schedUpdatedBlocked s reached = .ok t) (hpeek : schedPeek t = some task) :
    LongestWaiting s reached task := by
  obtain ⟨htasks, htick, hrunnable, hqueued⟩ := schedUpdatedBlocked_released hs h
  have hwaits : ∀ other, Pickable t other ↔ Waits s reached other := by
    intro other
    constructor
    · intro hpick
      have hmem : other ∈ s.tasks := htasks ▸ hpick.queued
      obtain ⟨hstart, hnext, -⟩ := hqueued other hmem
      exact ⟨hmem, by rw [← hstart, ← htick]; exact hpick.fresh,
        (hrunnable other).symm.trans hpick.runnable, hnext.1 hpick.waiting⟩
    · intro hwait
      obtain ⟨hstart, hnext, -⟩ := hqueued other hwait.queued
      exact ⟨htasks ▸ hwait.queued, by rw [hstart, htick]; exact hwait.fresh,
        (hrunnable other).trans hwait.runnable, hnext.2 hwait.released⟩
  have hend : ∀ other, Waits s reached other → (t.task other).timeEnd = waitEnd s other :=
    fun other hwait ↦ (hqueued other hwait.queued).2.2 hwait.released
  have htask := (hwaits task).1 (schedPeek_pickable hpeek)
  refine ⟨htask, fun other hother ↦ ?_⟩
  have hpick := (hwaits other).2 hother
  have hfirst := ((schedPeek_foldl t.tasks fun _ ht ↦ ht).1 task hpeek).first other
    hpick.queued hpick
  rwa [hend task htask, hend other hother, htasks] at hfirst

end Brutal.Kernel
