import Brutal.Kernel.SyscallRuns
import Brutal.Lib.Removal

/-!
# What destroying a space and a task gives back

The destructors of `kernel/space.c` and `kernel/task.c` should give back every reference that the
object has taken.  The loop of `space_destroy` removes mappings from the vector that it indexes and
comes to every other one only; `channel_destroy` frees the ring of a channel and not the references
of the parcels in it.  What is lost is a question of the object at hand, so both are settled for an
arbitrary kernel around it.
-/

namespace Brutal.Kernel

open Base Ds Lib

variable {s s' : KernelState} {depth : ℕ}

/-- From one state to the next the references in the list are given back, each once, together with
those of the objects that are destroyed because of it. -/
def GivesBack (s s' : KernelState) (references : List ℕ) : Prop :=
  ∃ destroyed, Cut (payloadAt s) destroyed s s' ∧
    Conserves (payloadDrops ∘ payloadAt s) references (refCount s) (destroyed, refCount s')

attribute [local grind =] everyOther

/-- The reference counts say which references were given back. -/
theorem GivesBack.perm {first second : List ℕ} (hfirst : GivesBack s s' first)
    (hsecond : GivesBack s s' second) : first.Perm second := by
  obtain ⟨destroyed, hcut, hcount⟩ := hfirst
  obtain ⟨destroyed', hcut', hcount'⟩ := hsecond
  apply List.perm_iff_count.2
  intro o
  have hdrops : (destroyed.flatMap (payloadDrops ∘ payloadAt s)).count o =
      (destroyed'.flatMap (payloadDrops ∘ payloadAt s)).count o := by
    have htotal := hcut.total fun payload ↦ (payloadDrops payload).count o
    have htotal' := hcut'.total fun payload ↦ (payloadDrops payload).count o
    rw [List.count_flatMap, List.count_flatMap]
    exact Nat.add_left_cancel (htotal.trans htotal'.symm)
  have hbefore := hcount o
  have hbefore' := hcount' o
  dsimp only at hbefore hbefore'
  omega

/-- A fold that releases references gives them back. -/
theorem GivesBack.of_refines {references : List ℕ}
    {operation : KernelState → Except Fault KernelState} (hs : Wf s)
    (hrefines : Refines (payloadAt s) operation
      (releaseAll (fun count o ↦ release (payloadDrops ∘ payloadAt s) depth count o) references))
    (h : operation s = .ok s') : GivesBack s s' references := by
  obtain ⟨destroyed, hrelease, hcut⟩ := hrefines (agrees_payloadAt s) hs h
  exact ⟨destroyed, hcut,
    releaseAll_conserves (fun _ _ _ hstep ↦ release_conserves hstep) hrelease⟩

/-- What a test says about the state after some steps of the small machine. -/
def afterSteps (steps : List KernelStep) (test : KernelState → Bool) : Except Fault Bool := do
  let vmm ← smallMemory
  let start ← smallBoot vmm
  let s ← steps.foldlM (fun s step ↦ do
    assertTruth (decide (Enabled s step))
    kernelNext s step) start
  pure (test s)

/-- The run that `afterSteps` evaluates. -/
theorem afterSteps_run {steps : List KernelStep} {test : KernelState → Bool}
    (h : afterSteps steps test = .ok true) :
    ∃ vmm start s, smallBoot vmm = .ok start ∧ Run Steps start steps s ∧ test s = true := by
  simp only [afterSteps, bind_eq_ok, pure_eq_ok] at h
  obtain ⟨vmm, _, start, hboot, s, hfold, htest⟩ := h
  refine ⟨vmm, start, s, hboot, (Run.ofFold hfold).mono ?_, htest⟩
  intro s step t hstep
  simp only [Succeeds, bind_eq_ok, assertTruth_eq_ok, decide_eq_true_eq] at hstep
  obtain ⟨_, henabled, hnext⟩ := hstep
  exact ⟨henabled, hnext⟩

/-- The first program creates a memory object, object 16, and a space, object 17. -/
def createSpace : List KernelStep :=
  [.switch 13, createDma, .call (.create (.space 0) fun _ ↦ ⟨0, 0⟩)]

/-- The memory object is mapped into the space at an address. -/
def mapDma (vaddr : UInt64) : KernelStep := .call (.map ⟨1, 0, 0, 0x1000, vaddr, 0⟩)

/-- There is one reference to the space, which has this number of mappings and can be destroyed. -/
def destroysSpace (mmaps : ℕ) (s : KernelState) : Bool :=
  match s.objects.lookup 17 with
  | some ⟨1, .space _ self⟩ => self.mmaps.length == mmaps &&
    (spaceDestroy (derefWithin 32) { s with objects := s.objects.erase 17 } self).isOk
  | _ => false

theorem exists_of_isOk {α : Type} {result : Except Fault α} (h : result.isOk = true) :
    ∃ value, result = .ok value := by
  cases result with
  | error fault => cases h
  | ok value => exact ⟨value, rfl⟩

theorem destroysSpace_spec {mmaps : ℕ} (h : destroysSpace mmaps s = true) :
    ∃ flags self s', s.objects.lookup 17 = some ⟨1, .space flags self⟩ ∧
      self.mmaps.length = mmaps ∧
      spaceDestroy (derefWithin 32) { s with objects := s.objects.erase 17 } self = .ok s' := by
  unfold destroysSpace at h
  split at h
  next flags self hlookup =>
    rw [Bool.and_eq_true, beq_iff_eq] at h
    obtain ⟨s', hdestroy⟩ := exists_of_isOk h.2
    exact ⟨flags, self, s', hlookup, h.1, hdestroy⟩
  next => cases h

/-- The last reference to a task can be dropped while the parcels in its channel hold these
references. -/
def destroysTask (parcels : List (List ℕ)) (s : KernelState) : Bool :=
  match s.objects.lookup 18 with
  | some ⟨1, .task self⟩ =>
    (contents self.channel.msgs).map parcelObjects == parcels && (objectDeref s 18).isOk
  | _ => false

theorem destroysTask_spec {parcels : List (List ℕ)} (h : destroysTask parcels s = true) :
    ∃ self s', s.objects.lookup 18 = some ⟨1, .task self⟩ ∧
      (contents self.channel.msgs).map parcelObjects = parcels ∧
        channelObjects self.channel = parcels.flatten ∧ objectDeref s 18 = .ok s' := by
  unfold destroysTask at h
  split at h
  next self hlookup =>
    rw [Bool.and_eq_true, beq_iff_eq] at h
    obtain ⟨s', hderef⟩ := exists_of_isOk h.2
    exact ⟨self, s', hlookup, h.1, by rw [channelObjects, List.flatMap_def, h.1], hderef⟩
  next => cases h

/-- The first program creates a memory object, object 16, and a task, object 18. -/
def createTask : List KernelStep :=
  [.switch 13, createDma, .call (.create (.task ⟨brHandleSelf, 0, 0⟩) fun _ ↦ ⟨0, 0⟩)]

/-- The first program sends the new task a message with a handle of the memory object, or without
one. -/
def sendTask (flags : UInt32) : KernelStep :=
  .call (.ipc ⟨⟨18, 0⟩, { (default : BrMsg) with flags }, 0, brIpcSend⟩ (true, true))

/-- The loop of `space_destroy` goes on to the next index after every removal. -/
theorem everyOther_eq_loop {α : Type*} (items : List α) :
    (everyOther items, passedOver items) = removeLoop (fun _ ↦ true) false 0 [] items := by
  rw [removeLoop_steps, List.take_zero, List.drop_zero, List.nil_append, List.nil_append]
  induction items using everyOther.induct with
  | case1 => rfl
  | case2 first => rfl
  | case3 first second rest ih =>
    obtain ⟨hremoved, hkept⟩ := Prod.mk.inj ih
    simp [everyOther, passedOver, removedStepping, keptStepping, hremoved, hkept]

theorem length_everyOther {α : Type*} (items : List α) :
    (everyOther items).length = (items.length + 1) / 2 := by
  induction items using everyOther.induct with
  | case1 => grind
  | case2 first => grind
  | case3 first second rest ih =>
    simp only [everyOther, List.length_cons, ih]
    omega

/-- Every mapping of the space is unmapped and its memory dereferenced, once and in some order,
before the page tables are freed. -/
def ReleasesEvery (depth : ℕ) (s s' : KernelState) (self : Space ℕ) : Prop :=
  ∃ (order : List (Mmap ℕ)) (t : KernelState) (vmm : Vmm), order.Perm self.mmaps ∧
    order.foldlM (spaceMmapDestroy (derefWithin depth) self.vmm) s = .ok t ∧
    vmmSpaceDestroy t.vmm self.vmm = .ok vmm ∧ s' = { t with vmm }

theorem ReleasesEvery.givesBack {self : Space ℕ} (hs : Wf s) (h : ReleasesEvery depth s s' self) :
    GivesBack s s' (self.mmaps.map Mmap.object) := by
  obtain ⟨order, t, vmm, hperm, hfold, _, rfl⟩ := h
  obtain ⟨destroyed, hcut, hcount⟩ := GivesBack.of_refines hs
    (foldlM_refines (spaceMmapDestroy_refines (derefWithin_refines depth) self.vmm) order) hfold
  have hlast : Cut (payloadAt s) [] t { t with vmm } :=
    Cut.of_objects hcut.agrees hcut.wf rfl rfl rfl rfl
  refine ⟨destroyed, by simpa using hcut.trans hlast, fun o ↦ ?_⟩
  rw [← hcount o, (hperm.map Mmap.object).count_eq]
  rfl

/-- The destructor of a space with two mappings leaves one of them. -/
theorem ReleasesEvery.length_le {self : Space ℕ} (hs : Wf s)
    (hdestroy : spaceDestroy (derefWithin depth) s self = .ok s')
    (h : ReleasesEvery depth s s' self) : self.mmaps.length ≤ 1 := by
  have hdrops : GivesBack s s' ((everyOther self.mmaps).map Mmap.object) :=
    GivesBack.of_refines hs (spaceDestroy_refines (derefWithin_refines depth) self) hdestroy
  have hlength := ((h.givesBack hs).perm hdrops).length_eq
  rw [List.length_map, List.length_map, length_everyOther] at hlength
  omega

/-- `space_destroy` releases every mapping of a space exactly when there is at most one. -/
theorem spaceDestroy_releasesEvery_iff {depth : ℕ} {s s' : KernelState} {self : Space ℕ}
    (hs : Wf s) (h : spaceDestroy (derefWithin depth) s self = .ok s') :
    ReleasesEvery depth s s' self ↔ self.mmaps.length ≤ 1 := by
  constructor
  · exact fun hevery ↦ hevery.length_le hs h
  · intro hlength
    have hall : everyOther self.mmaps = self.mmaps := by
      match self.mmaps, hlength with
      | [], _ => rfl
      | [_], _ => rfl
    simp only [spaceDestroy, bind_eq_ok, pure_eq_ok, hall] at h
    obtain ⟨t, hfold, vmm, hvmm, rfl⟩ := h
    exact ⟨self.mmaps, t, vmm, .refl _, hfold, hvmm, rfl⟩

/-- A space with one mapping. -/
theorem spaceDestroy_releasesEvery_iff_one :
    ∃ vmm start s flags self s', smallBoot vmm = .ok start ∧
      Run Steps start (createSpace ++ [mapDma 0x400000]) s ∧
      s.objects.lookup 17 = some ⟨1, .space flags self⟩ ∧
      ReleasesEvery 32 { s with objects := s.objects.erase 17 } s' self := by
  have heval : afterSteps (createSpace ++ [mapDma 0x400000]) (destroysSpace 1) = .ok true := by
    decide +kernel
  obtain ⟨vmm, start, s, hboot, hrun, htest⟩ := afterSteps_run heval
  obtain ⟨flags, self, s', hlookup, hlength, hdestroy⟩ := destroysSpace_spec htest
  have hs := (run_wf hboot hrun).erase 17
  exact ⟨vmm, start, s, flags, self, s', hboot, hrun, hlookup,
    (spaceDestroy_releasesEvery_iff hs hdestroy).2 hlength.le⟩

/-- A space with two mappings of a memory object. -/
theorem spaceDestroy_releasesEvery_fails :
    ∃ vmm start s flags self s', smallBoot vmm = .ok start ∧
      Run Steps start (createSpace ++ [mapDma 0x400000, mapDma 0x401000]) s ∧
      s.objects.lookup 17 = some ⟨1, .space flags self⟩ ∧
      spaceDestroy (derefWithin 32) { s with objects := s.objects.erase 17 } self = .ok s' ∧
      ¬ ReleasesEvery 32 { s with objects := s.objects.erase 17 } s' self := by
  have heval : afterSteps (createSpace ++ [mapDma 0x400000, mapDma 0x401000]) (destroysSpace 2) =
      .ok true := by
    decide +kernel
  obtain ⟨vmm, start, s, hboot, hrun, htest⟩ := afterSteps_run heval
  obtain ⟨flags, self, s', hlookup, hlength, hdestroy⟩ := destroysSpace_spec htest
  have hs := (run_wf hboot hrun).erase 17
  refine ⟨vmm, start, s, flags, self, s', hboot, hrun, hlookup, hdestroy, fun hevery ↦ ?_⟩
  have hle := hevery.length_le hs hdestroy
  omega

/-- The last reference to a task runs its destructor, which gives back the references to the space
and to the domain. -/
theorem taskDestroy_givesBack {task : ℕ} {self : TaskObject} (hs : Wf s)
    (hself : s.objects.lookup task = some ⟨1, .task self⟩) (h : objectDeref s task = .ok s') :
    GivesBack { s with objects := s.objects.erase task } s' [self.space, self.domain] := by
  simp only [objectDeref, derefWithin, bind_eq_ok, getObject_eq_ok] at h
  obtain ⟨object, hobject, hdestroy⟩ := h
  rw [hself] at hobject
  cases hobject
  rw [if_pos rfl] at hdestroy
  exact GivesBack.of_refines (hs.erase task)
    (taskDestroy_refines (derefWithin_refines _) task self) hdestroy

theorem GivesBack.channelObjects_eq_nil {self : TaskObject}
    (htask : GivesBack s s' [self.space, self.domain])
    (h : GivesBack s s' (self.space :: self.domain :: channelObjects self.channel)) :
    channelObjects self.channel = [] := by
  have hlength := (h.perm htask).length_eq
  simp only [List.length_cons, List.length_nil] at hlength
  exact List.eq_nil_of_length_eq_zero (by omega)

/-- Destroying a task gives back every reference that the parcels in its channel hold exactly when
they hold none. -/
theorem taskDestroy_releasesParcels_iff {s s' : KernelState} {task : ℕ} {self : TaskObject}
    (hs : Wf s) (hself : s.objects.lookup task = some ⟨1, .task self⟩)
    (h : objectDeref s task = .ok s') :
    GivesBack { s with objects := s.objects.erase task } s'
        (self.space :: self.domain :: channelObjects self.channel) ↔
      channelObjects self.channel = [] := by
  have htask := taskDestroy_givesBack hs hself h
  constructor
  · exact htask.channelObjects_eq_nil
  · intro hempty
    rw [hempty]
    exact htask

/-- A task to which a message without handles was sent. -/
theorem taskDestroy_releasesParcels_iff_plain :
    ∃ vmm start s self s', smallBoot vmm = .ok start ∧
      Run Steps start (createTask ++ [sendTask 0]) s ∧
      s.objects.lookup 18 = some ⟨1, .task self⟩ ∧
      (contents self.channel.msgs).map parcelObjects = [[]] ∧
      GivesBack { s with objects := s.objects.erase 18 } s'
        (self.space :: self.domain :: channelObjects self.channel) := by
  have heval : afterSteps (createTask ++ [sendTask 0]) (destroysTask [[]]) = .ok true := by
    decide +kernel
  obtain ⟨vmm, start, s, hboot, hrun, htest⟩ := afterSteps_run heval
  obtain ⟨self, s', hlookup, hparcels, hobjects, hderef⟩ := destroysTask_spec htest
  exact ⟨vmm, start, s, self, s', hboot, hrun, hlookup, hparcels,
    (taskDestroy_releasesParcels_iff (run_wf hboot hrun) hlookup hderef).2 hobjects⟩

/-- A task dies with a message in its channel that carries a reference to a memory object. -/
theorem taskDestroy_releasesParcels_fails :
    ∃ vmm start s self s', smallBoot vmm = .ok start ∧
      Run Steps start (createTask ++ [sendTask (brMsgHnd 0)]) s ∧
      s.objects.lookup 18 = some ⟨1, .task self⟩ ∧ channelObjects self.channel = [16] ∧
      objectDeref s 18 = .ok s' ∧
      ¬ GivesBack { s with objects := s.objects.erase 18 } s'
        (self.space :: self.domain :: channelObjects self.channel) := by
  have heval : afterSteps (createTask ++ [sendTask (brMsgHnd 0)]) (destroysTask [[16]]) =
      .ok true := by
    decide +kernel
  obtain ⟨vmm, start, s, hboot, hrun, htest⟩ := afterSteps_run heval
  obtain ⟨self, s', hlookup, -, hobjects, hderef⟩ := destroysTask_spec htest
  refine ⟨vmm, start, s, self, s', hboot, hrun, hlookup, hobjects, hderef, fun hback ↦ ?_⟩
  have hempty := (taskDestroy_givesBack (run_wf hboot hrun) hlookup hderef).channelObjects_eq_nil
    hback
  rw [hobjects] at hempty
  cases hempty

end Brutal.Kernel
