import Brutal.Base.Debug
import Brutal.Lib.Run
import Mathlib.Algebra.Order.Ring.Int
import Mathlib.Data.List.Count

/-!
# Locks and the interrupts that they hold back

`libs/brutal-sync` on one processor of the kernel, where `embed_sync_enter` and `embed_sync_leave`
are `cpu_retain_interrupts` and `cpu_release_interrupts`.  Other processors change the words of a
lock between any two accesses to them, so an attempt to take a lock is given the words that it
finds there.
-/

namespace Brutal.Sync

open Base Lib

variable {k : ℕ} {found : Found} {cpu' : Retain} {self : RwLock} {founds : List Found}

/-- The part of `Cpu` that `kernel/cpu.c` keeps for this, and the interrupt flag. -/
structure Retain where
  enabled : Bool
  depth : ℤ
  interrupts : Bool
deriving DecidableEq, Repr

/-- `cpu_retain_interrupts` -/
def cpuRetainInterrupts (cpu : Retain) : Retain :=
  if cpu.enabled then { cpu with interrupts := false, depth := cpu.depth + 1 } else cpu

/-- `cpu_release_interrupts` -/
def cpuReleaseInterrupts (cpu : Retain) : Retain :=
  if cpu.enabled then
    { cpu with
      depth := cpu.depth - 1
      interrupts := if cpu.depth - 1 = 0 then true else cpu.interrupts }
  else cpu

def embedSyncEnter : Retain → Retain := cpuRetainInterrupts

def embedSyncLeave : Retain → Retain := cpuReleaseInterrupts

/-- `lock_try_acquire_impl`, with the word that it leaves. -/
def lockTryAcquireImpl (locked : Bool) : Bool × Bool := (!locked, true)

/-- `lock_try_acquire` -/
def lockTryAcquire (cpu : Retain) (locked : Bool) : Bool × Bool × Retain :=
  let cpu := embedSyncEnter cpu
  let (result, locked) := lockTryAcquireImpl locked
  if !result then (result, locked, embedSyncLeave cpu) else (result, locked, cpu)

/-- The loop of `lock_acquire`, over the words that it finds; it still waits when they all say
that the lock is taken. -/
def lockSpin : List Bool → Except Fault Bool
  | [] => .error .depth
  | locked :: rest =>
    let (result, locked) := lockTryAcquireImpl locked
    if result then .ok locked else lockSpin rest

/-- `lock_acquire` -/
def lockAcquire (cpu : Retain) (found : List Bool) : Except Fault (Bool × Retain) := do
  let cpu := embedSyncEnter cpu
  let locked ← lockSpin found
  pure (locked, cpu)

/-- `lock_release` -/
def lockRelease (cpu : Retain) : Bool × Retain := (false, embedSyncLeave cpu)

/-- `LOCK_RETAINER` around a piece of code. -/
def lockRetainer {α : Type} (cpu : Retain) (found : List Bool)
    (body : Retain → Except Fault (α × Retain)) : Except Fault (α × Retain) := do
  let (_, cpu) ← lockAcquire cpu found
  let (value, cpu) ← body cpu
  let (_, cpu) := lockRelease cpu
  pure (value, cpu)

/-- `RwLock`, without the lock that guards it. -/
structure RwLock where
  pendings : ℤ
  readers : ℤ
  writers : ℤ
deriving DecidableEq, Repr

/-- What an attempt finds: the words of the inner lock while it waits for it, and then the rest. -/
structure Found where
  inner : List Bool
  self : RwLock
deriving DecidableEq, Repr

/-- `rwlock_try_acquire_read` -/
def rwlockTryAcquireRead (cpu : Retain) (found : Found) :
    Except Fault ((Bool × RwLock) × Retain) :=
  lockRetainer cpu found.inner fun cpu ↦
    let self := found.self
    if self.pendings ≠ 0 then .ok ((false, self), cpu)
    else if self.writers ≠ 0 then .ok ((false, self), cpu)
    else .ok ((true, { self with readers := self.readers + 1 }), embedSyncEnter cpu)

/-- `rwlock_try_acquire_write` -/
def rwlockTryAcquireWrite (cpu : Retain) (found : Found) :
    Except Fault ((Bool × RwLock) × Retain) :=
  lockRetainer cpu found.inner fun cpu ↦
    let self := found.self
    if self.readers ≠ 0 then .ok ((false, self), cpu)
    else if self.writers ≠ 0 then .ok ((false, self), cpu)
    else .ok ((true, { self with writers := self.writers + 1 }), embedSyncEnter cpu)

/-- The loop of `rwlock_acquire_read` and `rwlock_acquire_write`, over what the attempts find. -/
def rwlockSpin (attempt : Retain → Found → Except Fault ((Bool × RwLock) × Retain)) :
    List Found → Retain → Except Fault (RwLock × Retain)
  | [], _ => .error .depth
  | found :: rest, cpu => do
    let ((result, self), cpu) ← attempt cpu found
    if result then pure (self, cpu) else rwlockSpin attempt rest cpu

/-- `rwlock_acquire_read` -/
def rwlockAcquireRead (cpu : Retain) (found : List Found) : Except Fault (RwLock × Retain) :=
  rwlockSpin rwlockTryAcquireRead found (embedSyncEnter cpu)

/-- `rwlock_acquire_write`; the attempts find its own writer among the pending ones. -/
def rwlockAcquireWrite (cpu : Retain) (found : List Found) : Except Fault (RwLock × Retain) := do
  let (self, cpu) ← rwlockSpin rwlockTryAcquireWrite found (embedSyncEnter cpu)
  pure ({ self with pendings := self.pendings - 1 }, cpu)

/-- `rwlock_release_read` -/
def rwlockReleaseRead (cpu : Retain) (found : Found) : Except Fault (RwLock × Retain) :=
  lockRetainer cpu found.inner fun cpu ↦ do
    assertTruth (found.self.readers > 0)
    pure ({ found.self with readers := found.self.readers - 1 }, embedSyncLeave cpu)

/-- `rwlock_release_write` -/
def rwlockReleaseWrite (cpu : Retain) (found : Found) : Except Fault (RwLock × Retain) :=
  lockRetainer cpu found.inner fun cpu ↦ do
    assertTruth (found.self.writers > 0)
    pure ({ found.self with writers := found.self.writers - 1 }, embedSyncLeave cpu)

/-- A lock that the processor holds, and how. -/
inductive Held where
  | lock (id : ℕ)
  | read (id : ℕ)
  | write (id : ℕ)
deriving DecidableEq, Repr

inductive SyncCall where
  | lockAcquire (id : ℕ) (found : List Bool)
  | lockTryAcquire (id : ℕ) (found : Bool)
  | lockRelease (id : ℕ)
  | rwlockAcquireRead (id : ℕ) (found : List Found)
  | rwlockTryAcquireRead (id : ℕ) (found : Found)
  | rwlockReleaseRead (id : ℕ) (found : Found)
  | rwlockAcquireWrite (id : ℕ) (found : List Found)
  | rwlockTryAcquireWrite (id : ℕ) (found : Found)
  | rwlockReleaseWrite (id : ℕ) (found : Found)
deriving DecidableEq, Repr

/-- The processor with the locks that it holds. -/
structure SyncState where
  cpu : Retain
  held : List Held
deriving DecidableEq, Repr

/-- A lock that an attempt was to take. -/
def took (held : List Held) (lock : Held) (result : Bool) : List Held :=
  if result then lock :: held else held

/-- A lock is released by the processor that holds it. -/
def gaveUp (held : List Held) (lock : Held) : Except Fault (List Held) :=
  if lock ∈ held then .ok (held.erase lock) else .error .panic

def syncNext (s : SyncState) : SyncCall → Except Fault SyncState
  | .lockAcquire id found => do
    let (_, cpu) ← lockAcquire s.cpu found
    pure ⟨cpu, took s.held (.lock id) true⟩
  | .lockTryAcquire id found =>
    let (result, _, cpu) := lockTryAcquire s.cpu found
    .ok ⟨cpu, took s.held (.lock id) result⟩
  | .lockRelease id => do
    let held ← gaveUp s.held (.lock id)
    let (_, cpu) := lockRelease s.cpu
    pure ⟨cpu, held⟩
  | .rwlockAcquireRead id found => do
    let (_, cpu) ← rwlockAcquireRead s.cpu found
    pure ⟨cpu, took s.held (.read id) true⟩
  | .rwlockTryAcquireRead id found => do
    let ((result, _), cpu) ← rwlockTryAcquireRead s.cpu found
    pure ⟨cpu, took s.held (.read id) result⟩
  | .rwlockReleaseRead id found => do
    let held ← gaveUp s.held (.read id)
    let (_, cpu) ← rwlockReleaseRead s.cpu found
    pure ⟨cpu, held⟩
  | .rwlockAcquireWrite id found => do
    let (_, cpu) ← rwlockAcquireWrite s.cpu found
    pure ⟨cpu, took s.held (.write id) true⟩
  | .rwlockTryAcquireWrite id found => do
    let ((result, _), cpu) ← rwlockTryAcquireWrite s.cpu found
    pure ⟨cpu, took s.held (.write id) result⟩
  | .rwlockReleaseWrite id found => do
    let held ← gaveUp s.held (.write id)
    let (_, cpu) ← rwlockReleaseWrite s.cpu found
    pure ⟨cpu, held⟩

/-- The calls of `rwlock_acquire_read` and `rwlock_acquire_write`, which enter once themselves and
once more in the attempt that succeeds. -/
def SyncCall.entersTwice : SyncCall → Bool
  | .rwlockAcquireRead _ _ | .rwlockAcquireWrite _ _ => true
  | _ => false

/-- The processor after `k` more calls of `embed_sync_enter` than of `embed_sync_leave`. -/
def Retain.deeper (cpu : Retain) (k : ℕ) : Retain :=
  if cpu.enabled then
    { cpu with depth := cpu.depth + k, interrupts := decide (cpu.depth + k = 0) }
  else cpu

/-- Where they can be retained, interrupts are on exactly while they are not. -/
def Retain.Sound (cpu : Retain) : Prop :=
  cpu.enabled = true → 0 ≤ cpu.depth ∧ cpu.interrupts = decide (cpu.depth = 0)

section Deeper

variable {cpu : Retain}

theorem deeper_zero (h : cpu.Sound) : cpu.deeper 0 = cpu := by
  by_cases henabled : cpu.enabled = true
  · obtain ⟨_, hinterrupts⟩ := h henabled
    obtain ⟨enabled, depth, interrupts⟩ := cpu
    simp only at henabled hinterrupts
    simp [Retain.deeper, henabled, hinterrupts]
  · simp [Retain.deeper, henabled]

theorem embedSyncEnter_deeper (h : cpu.Sound) (k : ℕ) :
    embedSyncEnter (cpu.deeper k) = cpu.deeper (k + 1) := by
  by_cases henabled : cpu.enabled = true
  · obtain ⟨hdepth, _⟩ := h henabled
    have hne : ¬ cpu.depth + ((k : ℤ) + 1) = 0 := by omega
    simp only [embedSyncEnter, cpuRetainInterrupts, Retain.deeper, henabled, if_true, hne,
      decide_false, Nat.cast_add, Nat.cast_one, add_assoc]
  · simp [embedSyncEnter, cpuRetainInterrupts, Retain.deeper, henabled]

theorem embedSyncLeave_deeper (h : cpu.Sound) (k : ℕ) :
    embedSyncLeave (cpu.deeper (k + 1)) = cpu.deeper k := by
  by_cases henabled : cpu.enabled = true
  · obtain ⟨hdepth, _⟩ := h henabled
    have hne : ¬ cpu.depth + (k + 1 : ℕ) = 0 := by omega
    have hpred : cpu.depth + (k + 1 : ℕ) - 1 = cpu.depth + k := by omega
    simp only [embedSyncLeave, cpuReleaseInterrupts, Retain.deeper, henabled, if_true, hne,
      hpred, decide_false]
    split <;> simp_all
  · simp [embedSyncLeave, cpuReleaseInterrupts, Retain.deeper, henabled]

theorem lockAcquire_deeper (h : cpu.Sound) {found : List Bool} {locked : Bool}
    (hacquire : lockAcquire (cpu.deeper k) found = .ok (locked, cpu')) :
    cpu' = cpu.deeper (k + 1) := by
  simp only [lockAcquire, bind_eq_ok, pure_eq_ok, Prod.mk.injEq] at hacquire
  obtain ⟨_, _, _, rfl⟩ := hacquire
  exact embedSyncEnter_deeper h k

theorem lockTryAcquire_deeper (h : cpu.Sound) (k : ℕ) (locked : Bool) :
    (lockTryAcquire (cpu.deeper k) locked).2.2 =
      cpu.deeper (k + (lockTryAcquire (cpu.deeper k) locked).1.toNat) := by
  cases locked with
  | false => exact embedSyncEnter_deeper h k
  | true =>
    have henter := embedSyncEnter_deeper h k
    have hleave := embedSyncLeave_deeper h k
    simp only [lockTryAcquire, lockTryAcquireImpl, henter, hleave]
    rfl

/-- Code under `LOCK_RETAINER` runs one deeper. -/
theorem lockRetainer_deeper {α : Type} (h : cpu.Sound) {k j : ℕ} {found : List Bool}
    {body : Retain → Except Fault (α × Retain)} {value : α}
    (hretainer : lockRetainer (cpu.deeper k) found body = .ok (value, cpu'))
    (hbody : ∀ cpu'', body (cpu.deeper (k + 1)) = .ok (value, cpu'') → cpu'' = cpu.deeper (j + 1)) :
    cpu' = cpu.deeper j := by
  simp only [lockRetainer, bind_eq_ok, pure_eq_ok, Prod.exists, Prod.mk.injEq] at hretainer
  obtain ⟨_, cpu₁, hacquire, value', cpu₂, hrun, rfl, rfl⟩ := hretainer
  rw [lockAcquire_deeper h hacquire] at hrun
  rw [hbody cpu₂ hrun]
  exact embedSyncLeave_deeper h j

theorem rwlockTryAcquireRead_deeper (h : cpu.Sound) {result : Bool}
    (hattempt : rwlockTryAcquireRead (cpu.deeper k) found = .ok ((result, self), cpu')) :
    cpu' = cpu.deeper (k + result.toNat) := by
  apply lockRetainer_deeper h hattempt
  intro cpu'' hbody
  dsimp only at hbody
  split_ifs at hbody
  · cases hbody
    rfl
  · cases hbody
    rfl
  · cases hbody
    exact embedSyncEnter_deeper h (k + 1)

theorem rwlockTryAcquireWrite_deeper (h : cpu.Sound) {result : Bool}
    (hattempt : rwlockTryAcquireWrite (cpu.deeper k) found = .ok ((result, self), cpu')) :
    cpu' = cpu.deeper (k + result.toNat) := by
  apply lockRetainer_deeper h hattempt
  intro cpu'' hbody
  dsimp only at hbody
  split_ifs at hbody
  · cases hbody
    rfl
  · cases hbody
    rfl
  · cases hbody
    exact embedSyncEnter_deeper h (k + 1)

/-- However many attempts fail, the one that succeeds has entered once. -/
theorem rwlockSpin_deeper {attempt : Retain → Found → Except Fault ((Bool × RwLock) × Retain)}
    (hattempt : ∀ {k found result self cpu'},
      attempt (cpu.deeper k) found = .ok ((result, self), cpu') →
        cpu' = cpu.deeper (k + result.toNat))
    (hspin : rwlockSpin attempt founds (cpu.deeper k) = .ok (self, cpu')) :
    cpu' = cpu.deeper (k + 1) := by
  induction founds with
  | nil => cases hspin
  | cons found rest ih =>
    simp only [rwlockSpin, bind_eq_ok, Prod.exists] at hspin
    obtain ⟨result, self', cpu₁, hfirst, hspin⟩ := hspin
    have hone := hattempt hfirst
    cases result with
    | true =>
      cases hspin
      exact hone
    | false =>
      rw [hone] at hspin
      exact ih hspin

theorem rwlockAcquireRead_deeper (h : cpu.Sound)
    (hacquire : rwlockAcquireRead (cpu.deeper k) founds = .ok (self, cpu')) :
    cpu' = cpu.deeper (k + 2) := by
  rw [rwlockAcquireRead, embedSyncEnter_deeper h] at hacquire
  exact rwlockSpin_deeper (rwlockTryAcquireRead_deeper h) hacquire

theorem rwlockAcquireWrite_deeper (h : cpu.Sound)
    (hacquire : rwlockAcquireWrite (cpu.deeper k) founds = .ok (self, cpu')) :
    cpu' = cpu.deeper (k + 2) := by
  simp only [rwlockAcquireWrite, embedSyncEnter_deeper h, bind_eq_ok, pure_eq_ok, Prod.exists,
    Prod.mk.injEq] at hacquire
  obtain ⟨_, _, hspin, _, rfl⟩ := hacquire
  exact rwlockSpin_deeper (rwlockTryAcquireWrite_deeper h) hspin

theorem rwlockReleaseRead_deeper (h : cpu.Sound)
    (hrelease : rwlockReleaseRead (cpu.deeper (k + 1)) found = .ok (self, cpu')) :
    cpu' = cpu.deeper k := by
  apply lockRetainer_deeper h hrelease
  intro cpu'' hbody
  simp only [bind_eq_ok, pure_eq_ok, Prod.mk.injEq] at hbody
  obtain ⟨_, _, _, rfl⟩ := hbody
  exact embedSyncLeave_deeper h (k + 1)

theorem rwlockReleaseWrite_deeper (h : cpu.Sound)
    (hrelease : rwlockReleaseWrite (cpu.deeper (k + 1)) found = .ok (self, cpu')) :
    cpu' = cpu.deeper k := by
  apply lockRetainer_deeper h hrelease
  intro cpu'' hbody
  simp only [bind_eq_ok, pure_eq_ok, Prod.mk.injEq] at hbody
  obtain ⟨_, _, _, rfl⟩ := hbody
  exact embedSyncLeave_deeper h (k + 1)

end Deeper

/-- The depth that the locks that are held account for, and what the calls have added to it. -/
def Accounts (start : Retain) (calls : List SyncCall) (s : SyncState) : Prop :=
  s.cpu = start.deeper (s.held.length + calls.countP SyncCall.entersTwice)

theorem length_took (held : List Held) (lock : Held) (result : Bool) :
    (took held lock result).length = held.length + result.toNat := by
  cases result <;> rfl

theorem gaveUp_length {held held' : List Held} {lock : Held} (h : gaveUp held lock = .ok held') :
    held.length = held'.length + 1 := by
  unfold gaveUp at h
  split at h
  next hmem =>
    cases h
    have hpos := List.length_pos_of_mem hmem
    rw [List.length_erase_of_mem hmem]
    omega
  · cases h

theorem accounts_step {start : Retain} (hstart : start.Sound) {calls : List SyncCall}
    {s t : SyncState} {call : SyncCall} (hs : Accounts start calls s)
    (h : syncNext s call = .ok t) : Accounts start (calls ++ [call]) t := by
  have hcount : (calls ++ [call]).countP SyncCall.entersTwice =
      calls.countP SyncCall.entersTwice + call.entersTwice.toNat := by
    rw [List.countP_append, List.countP_singleton]
    cases call.entersTwice <;> rfl
  have hdeeper : ∀ {k}, k = t.held.length +
      (calls.countP SyncCall.entersTwice + call.entersTwice.toNat) → t.cpu = start.deeper k →
        Accounts start (calls ++ [call]) t := by
    rintro k rfl hcpu
    rw [Accounts, hcount, hcpu]
  unfold Accounts at hs
  cases call with
  | lockAcquire id found =>
    simp only [syncNext, hs, bind_eq_ok, pure_eq_ok, Prod.exists] at h
    obtain ⟨_, _, hacquire, rfl⟩ := h
    apply hdeeper _ (lockAcquire_deeper hstart hacquire)
    rw [length_took, Bool.toNat_true]
    exact Nat.add_right_comm _ _ _
  | lockTryAcquire id found =>
    cases h
    apply hdeeper _ (hs ▸ lockTryAcquire_deeper hstart _ found)
    rw [length_took]
    exact Nat.add_right_comm _ _ _
  | lockRelease id =>
    simp only [syncNext, bind_eq_ok, pure_eq_ok] at h
    obtain ⟨held, hgave, rfl⟩ := h
    rw [gaveUp_length hgave, Nat.add_right_comm] at hs
    apply hdeeper rfl
    simp only [lockRelease, hs]
    exact embedSyncLeave_deeper hstart _
  | rwlockAcquireRead id found =>
    simp only [syncNext, hs, bind_eq_ok, pure_eq_ok, Prod.exists] at h
    obtain ⟨_, _, hacquire, rfl⟩ := h
    apply hdeeper _ (rwlockAcquireRead_deeper hstart hacquire)
    rw [length_took, Bool.toNat_true]
    simp only [SyncCall.entersTwice, Bool.toNat_true]
    omega
  | rwlockTryAcquireRead id found =>
    simp only [syncNext, hs, bind_eq_ok, pure_eq_ok, Prod.exists] at h
    obtain ⟨_, _, _, hattempt, rfl⟩ := h
    apply hdeeper _ (rwlockTryAcquireRead_deeper hstart hattempt)
    rw [length_took]
    exact Nat.add_right_comm _ _ _
  | rwlockReleaseRead id found =>
    simp only [syncNext, bind_eq_ok, pure_eq_ok, Prod.exists] at h
    obtain ⟨held, hgave, _, _, hrelease, rfl⟩ := h
    rw [hs, gaveUp_length hgave, Nat.add_right_comm] at hrelease
    exact hdeeper rfl (rwlockReleaseRead_deeper hstart hrelease)
  | rwlockAcquireWrite id found =>
    simp only [syncNext, hs, bind_eq_ok, pure_eq_ok, Prod.exists] at h
    obtain ⟨_, _, hacquire, rfl⟩ := h
    apply hdeeper _ (rwlockAcquireWrite_deeper hstart hacquire)
    rw [length_took, Bool.toNat_true]
    simp only [SyncCall.entersTwice, Bool.toNat_true]
    omega
  | rwlockTryAcquireWrite id found =>
    simp only [syncNext, hs, bind_eq_ok, pure_eq_ok, Prod.exists] at h
    obtain ⟨_, _, _, hattempt, rfl⟩ := h
    apply hdeeper _ (rwlockTryAcquireWrite_deeper hstart hattempt)
    rw [length_took]
    exact Nat.add_right_comm _ _ _
  | rwlockReleaseWrite id found =>
    simp only [syncNext, bind_eq_ok, pure_eq_ok, Prod.exists] at h
    obtain ⟨held, hgave, _, _, hrelease, rfl⟩ := h
    rw [hs, gaveUp_length hgave, Nat.add_right_comm] at hrelease
    exact hdeeper rfl (rwlockReleaseWrite_deeper hstart hrelease)

/-- A sequence of calls after which no lock is held leaves interrupts retained as deeply as before
exactly when none of its calls is `rwlock_acquire_read` or `rwlock_acquire_write`, if interrupts can
be retained at all. -/
theorem retain_balanced_iff {cpu cpu' : Retain} {calls : List SyncCall} (hcpu : cpu.Sound)
    (hrun : Run (Succeeds syncNext) ⟨cpu, []⟩ calls ⟨cpu', []⟩) :
    (cpu'.depth = cpu.depth ∧ cpu'.interrupts = cpu.interrupts) ↔
      (cpu.enabled = true → ∀ call ∈ calls, call.entersTwice = false) := by
  have hnil : Accounts cpu [] ⟨cpu, []⟩ := (deeper_zero hcpu).symm
  have haccounts := hrun.history (motive := Accounts cpu) hnil
    fun _ _ _ _ hs hstep ↦ accounts_step hcpu hs hstep
  have hend : cpu' = cpu.deeper (calls.countP SyncCall.entersTwice) := by
    rw [Accounts, List.length_nil, Nat.zero_add] at haccounts
    exact haccounts
  constructor
  · rintro ⟨hdepth, _⟩ henabled
    have hzero : calls.countP SyncCall.entersTwice = 0 := by
      rw [hend, Retain.deeper, if_pos henabled] at hdepth
      simpa using hdepth
    intro call hcall
    simpa using List.countP_eq_zero.1 hzero call hcall
  · intro hnone
    by_cases henabled : cpu.enabled = true
    · have hzero : calls.countP SyncCall.entersTwice = 0 :=
        List.countP_eq_zero.2 fun call hcall ↦ by simp [hnone henabled call hcall]
      rw [hend, hzero, deeper_zero hcpu]
      exact ⟨rfl, rfl⟩
    · rw [hend, Retain.deeper, if_neg henabled]
      exact ⟨rfl, rfl⟩

/-- A lock that nobody holds, as the first attempt finds it. -/
def freeLock : Found := ⟨[false], ⟨0, 0, 0⟩⟩

/-- A lock with one reader. -/
def readLock : Found := ⟨[false], ⟨0, 1, 0⟩⟩

/-- A processor without retained interrupts tries to read, takes another lock meanwhile and
releases both. -/
theorem retain_balanced_iff_try :
    ∃ cpu', Run (Succeeds syncNext) ⟨⟨true, 0, true⟩, []⟩
        [.rwlockTryAcquireRead 0 freeLock, .lockAcquire 1 [true, false],
          .rwlockReleaseRead 0 readLock, .lockRelease 1] ⟨cpu', []⟩ ∧
      cpu'.depth = 0 ∧ cpu'.interrupts = true := by
  have hrun : Run (Succeeds syncNext) ⟨⟨true, 0, true⟩, []⟩
      [.rwlockTryAcquireRead 0 freeLock, .lockAcquire 1 [true, false],
        .rwlockReleaseRead 0 readLock, .lockRelease 1] ⟨⟨true, 0, true⟩, []⟩ :=
    .ofFold (by rfl)
  have hsound : Retain.Sound ⟨true, 0, true⟩ := fun _ ↦ ⟨le_refl 0, rfl⟩
  exact ⟨_, hrun, (retain_balanced_iff hsound hrun).2 fun _ ↦ by decide⟩

/-- Reading under `rwlock_acquire_read` leaves interrupts off for good. -/
theorem retain_balanced_fails :
    ∃ cpu', Retain.Sound ⟨true, 0, true⟩ ∧ Run (Succeeds syncNext) ⟨⟨true, 0, true⟩, []⟩
        [.rwlockAcquireRead 0 [freeLock], .rwlockReleaseRead 0 readLock] ⟨cpu', []⟩ ∧
      ¬ (cpu'.depth = 0 ∧ cpu'.interrupts = true) := by
  have hrun : Run (Succeeds syncNext) ⟨⟨true, 0, true⟩, []⟩
      [.rwlockAcquireRead 0 [freeLock], .rwlockReleaseRead 0 readLock] ⟨⟨true, 1, false⟩, []⟩ :=
    .ofFold (by rfl)
  exact ⟨_, fun _ ↦ ⟨le_refl 0, rfl⟩, hrun, by decide⟩

end Brutal.Sync
