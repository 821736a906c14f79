import Brutal.Kernel.Init
import Brutal.Kernel.References

/-!
# What a system call leaves behind

While a call runs it has taken references that it has to give back.  `Owes` lists them, and has one
rule for each way in which a call goes on: it takes references, hands them to a holder, drops them,
or does something that takes none.  A call that owes nothing at its end has not changed the
difference between the reference count and the holders of any object.
-/

namespace Brutal.Kernel

open Base Boot Ds Lib

variable {s t u v : KernelState} {pins : List ℕ} {refs : ℕ → ℤ} {id o domain space task : ℕ}
  {self : TaskObject} {handle flags size vaddr : UInt64} {found : Option ℕ} {payload : Payload}
  {range : USizeRange} {memory : ℕ → USizeRange} {result : BrResult} {args : BrIpcArgs}
  {created : Option Created} {msg : BrMsg} {acquired : Bool}

/-- How often each object is in a list. -/
def tally (objects : List ℕ) (o : ℕ) : ℤ := objects.count o

theorem tally_nil : tally [] = 0 := rfl

theorem tally_append (first second : List ℕ) :
    tally (first ++ second) = tally first + tally second := by
  funext o
  rw [Pi.add_apply, tally, tally, tally, List.count_append, Nat.cast_add]

theorem tally_cons (o : ℕ) (rest : List ℕ) :
    tally (o :: rest) = Pi.single o 1 + tally rest := by
  funext x
  rw [Pi.add_apply, tally, tally, List.count_cons]
  by_cases hx : x = o
  · rw [hx, Pi.single_eq_same, beq_self_eq_true, if_pos rfl]
    omega
  · rw [Pi.single_eq_of_ne hx, if_neg (by simpa using Ne.symm hx)]
    omega

theorem tally_singleton (o : ℕ) : tally [o] = Pi.single o 1 := by
  rw [tally_cons, tally_nil, add_zero]

theorem tally_nonneg (objects : List ℕ) : 0 ≤ tally objects := fun _ ↦ Int.natCast_nonneg _

section Holds

variable (waits : Bool)

theorem holds_memory (self : Memory) : holds (payloadRefs waits) (.memory self) = 0 := by
  cases waits <;> rfl

theorem holds_domain (self : Domain ℕ) :
    holds (payloadRefs waits) (.domain self) = tally (domainObjects self) := by
  funext o
  cases waits <;> simp [holds, payloadRefs, payloadHolders, payloadWaits, tally]

theorem holds_space (flags : UInt64) (self : Space ℕ) :
    holds (payloadRefs waits) (.space flags self) = tally (self.mmaps.map Mmap.object) := by
  funext o
  cases waits <;> simp [holds, payloadRefs, payloadHolders, payloadWaits, tally]

/-- The reference that a waiting call of the task holds, where it counts. -/
def waitRefs (waits : Bool) (wait : Option IpcWait) : List ℕ :=
  if waits then (wait.bind IpcWait.target).toList else []

theorem holds_task (self : TaskObject) :
    holds (payloadRefs waits) (.task self) = tally [self.space, self.domain] +
      tally (channelObjects self.channel) + tally (waitRefs waits self.wait) := by
  funext o
  simp only [holds, payloadRefs, payloadHolders, payloadWaits, waitRefs, tally, Pi.add_apply,
    List.count_append, List.count_cons, List.count_nil]
  omega

end Holds

variable {waits : Bool} {bound : Option BrRight}

/-- Since `s`, a call has taken the references `pins` that it still has to give back, and none of
them is the last one of its object. -/
structure Owes (waits : Bool) (bound : Option BrRight) (s t : KernelState) (pins : List ℕ) :
    Prop where
  wf : Wf t
  confined : RightsConfined bound s t
  shared : ∀ x ∈ pins, pins.count x + 1 ≤ refCount t x
  balances : ∀ o,
    balance (payloadRefs waits) t o = balance (payloadRefs waits) s o + tally pins o

/-- An operation that takes no reference for itself. -/
def Gains (waits : Bool) (bound : Option BrRight) (s t : KernelState) : Prop :=
  ∃ refs, 0 ≤ refs ∧ Change (payloadRefs waits) bound s t refs 0

theorem Owes.refl (hs : Wf s) : Owes waits bound s s [] where
  wf := hs
  confined := (Change.refl hs : Change (payloadRefs waits) bound s s 0 0).confined
  shared := nofun
  balances o := by rw [tally_nil, Pi.zero_apply, add_zero]

theorem Owes.perm {pins pins' : List ℕ} (h : Owes waits bound s t pins) (hperm : pins.Perm pins') :
    Owes waits bound s t pins' where
  wf := h.wf
  confined := h.confined
  shared x hx := by
    rw [← hperm.count_eq]
    exact h.shared x (hperm.mem_iff.2 hx)
  balances o := by rw [h.balances, tally, tally, hperm.count_eq]

theorem Owes.takeAll {pins taken : List ℕ} (h : Owes waits bound s t pins)
    (hchange : Change (payloadRefs waits) bound t u (tally taken) (tally taken))
    (halive : ∀ x ∈ taken, 1 ≤ refCount t x) : Owes waits bound s u (taken ++ pins) where
  wf := hchange.wf
  confined := h.confined.trans hchange.confined
  shared x hx := by
    have hcount : (refCount u x : ℤ) = refCount t x + (taken.count x : ℤ) := hchange.counts x
    rw [List.count_append]
    by_cases hpins : x ∈ pins
    · have hshared := h.shared x hpins
      omega
    · have htaken : x ∈ taken := (List.mem_append.1 hx).resolve_right hpins
      have hpos := halive x htaken
      have hzero := List.count_eq_zero_of_not_mem hpins
      omega
  balances o := by
    rw [hchange.balances, h.balances, tally_append, Pi.add_apply]
    omega

theorem Owes.take {x : ℕ} (h : Owes waits bound s t pins)
    (hchange : Change (payloadRefs waits) bound t u (Pi.single x 1) (Pi.single x 1))
    (halive : 1 ≤ refCount t x) : Owes waits bound s u (x :: pins) := by
  rw [← tally_singleton] at hchange
  exact h.takeAll hchange (by simpa using halive)

theorem Owes.change (h : Owes waits bound s t pins)
    (hchange : Change (payloadRefs waits) bound t u refs 0) (hrefs : ∀ x ∈ pins, 0 ≤ refs x) :
    Owes waits bound s u pins where
  wf := hchange.wf
  confined := h.confined.trans hchange.confined
  shared x hx := by
    have hshared := h.shared x hx
    have hcount := hchange.counts x
    have hnonneg := hrefs x hx
    omega
  balances o := by rw [hchange.balances, h.balances, Pi.zero_apply, add_zero]

theorem Owes.gain (h : Owes waits bound s t pins) (hgains : Gains waits bound t u) :
    Owes waits bound s u pins := by
  obtain ⟨refs, hrefs, hchange⟩ := hgains
  exact h.change hchange fun x _ ↦ hrefs x

/-- A new object, whose first reference the call has, and a handle for it. -/
theorem Owes.createWith (h : Owes waits bound s t pins) (hrefs : 0 ≤ refs)
    (hcreate : Change (payloadRefs waits) bound t u (refs + Pi.single id 1) (Pi.single id 1))
    (hnew : refCount t id = 0) (hadd : Change (payloadRefs waits) bound u v (Pi.single id 1) 0) :
    Owes waits bound s v (id :: pins) := by
  have hchange := hcreate.trans hadd
  have hid : id ∉ pins := by
    intro hmem
    have hshared := h.shared id hmem
    omega
  constructor
  · exact hchange.wf
  · exact h.confined.trans hchange.confined
  · intro x hx
    have hcount := hchange.counts x
    have hnonneg := hrefs x
    simp only [Pi.add_apply, Pi.zero_apply] at hcount hnonneg
    by_cases hxid : x = id
    · rw [hxid, List.count_cons_self, List.count_eq_zero_of_not_mem hid]
      rw [hxid, Pi.single_eq_same] at hcount
      rw [hxid] at hnonneg
      omega
    · have hshared := h.shared x ((List.mem_cons.1 hx).resolve_left hxid)
      rw [List.count_cons_of_ne (Ne.symm hxid)]
      rw [Pi.single_eq_of_ne hxid] at hcount
      omega
  · intro o
    rw [hchange.balances, h.balances, tally_cons, Pi.add_apply, Pi.add_apply, Pi.zero_apply]
    omega

theorem Owes.create (h : Owes waits bound s t pins)
    (hcreate : Change (payloadRefs waits) bound t u (Pi.single id 1) (Pi.single id 1))
    (hnew : refCount t id = 0) (hadd : Change (payloadRefs waits) bound u v (Pi.single id 1) 0) :
    Owes waits bound s v (id :: pins) :=
  h.createWith (le_refl 0) (hcreate.of_eq (zero_add _).symm rfl) hnew hadd

/-- References that a holder now has. -/
theorem Owes.give {pins given : List ℕ} (h : Owes waits bound s t (given ++ pins))
    (hchange : Change (payloadRefs waits) bound t u 0 (-tally given)) :
    Owes waits bound s u pins where
  wf := hchange.wf
  confined := h.confined.trans hchange.confined
  shared x hx := by
    have hshared := h.shared x (List.mem_append_right _ hx)
    have hcount : (refCount u x : ℤ) = refCount t x + 0 := hchange.counts x
    rw [List.count_append] at hshared
    omega
  balances o := by
    rw [hchange.balances, h.balances, tally_append, Pi.add_apply, Pi.neg_apply]
    omega

/-- The references of a call are not the last ones, so dropping one destroys nothing. -/
theorem Owes.drop {x : ℕ} (h : Owes waits bound s t (x :: pins))
    (hderef : objectDeref t x = .ok u) : Owes waits bound s u pins := by
  have hx := h.shared x List.mem_cons_self
  rw [List.count_cons_self] at hx
  have hchange : Change (payloadRefs waits) bound t u (-Pi.single x 1) (-Pi.single x 1) :=
    objectDeref_change h.wf hderef (by omega)
  constructor
  · exact hchange.wf
  · exact h.confined.trans hchange.confined
  · intro y hy
    have hshared := h.shared y (List.mem_cons_of_mem _ hy)
    have hcount := hchange.counts y
    rw [Pi.neg_apply] at hcount
    by_cases hyx : y = x
    · rw [hyx, Pi.single_eq_same] at hcount
      rw [hyx, List.count_cons_self] at hshared
      rw [hyx]
      omega
    · rw [Pi.single_eq_of_ne hyx] at hcount
      rw [List.count_cons_of_ne (Ne.symm hyx)] at hshared
      omega
  · intro o
    rw [hchange.balances, h.balances, tally_cons, Pi.add_apply, Pi.neg_apply]
    omega

theorem Owes.dropAll {dropped pins : List ℕ} (h : Owes waits bound s t (dropped ++ pins))
    (hderef : objectDerefAll t dropped = .ok u) : Owes waits bound s u pins := by
  induction dropped generalizing t with
  | nil =>
    cases hderef
    exact h
  | cons x rest ih =>
    rw [objectDerefAll, List.foldlM_cons, bind_eq_ok] at hderef
    obtain ⟨v, hx, hrest⟩ := hderef
    exact ih (h.drop hx) hrest

theorem Gains.refl (hs : Wf s) : Gains waits bound s s :=
  ⟨0, le_refl _, Change.refl hs⟩

theorem Gains.of_change (h : Change (payloadRefs waits) bound s t 0 0) : Gains waits bound s t :=
  ⟨0, le_refl _, h⟩

theorem Gains.wf (h : Gains waits bound s t) : Wf t := by
  obtain ⟨_, _, hchange⟩ := h
  exact hchange.wf

theorem Gains.trans (hfirst : Gains waits bound s t) (hsecond : Gains waits bound t u) :
    Gains waits bound s u := by
  obtain ⟨refs, hrefs, hchange⟩ := hfirst
  obtain ⟨refs', hrefs', hchange'⟩ := hsecond
  refine ⟨refs + refs', fun o ↦ ?_, (hchange.trans hchange').of_eq rfl (add_zero _)⟩
  exact Int.add_nonneg (hrefs o) (hrefs' o)

theorem objectRefAll_change {objects : List ℕ} (hs : Wf s) (h : objectRefAll s objects = .ok t) :
    Change (payloadRefs waits) bound s t (tally objects) (tally objects) ∧
      ∀ x ∈ objects, 1 ≤ refCount s x := by
  induction objects generalizing s with
  | nil =>
    cases h
    exact ⟨Change.refl hs, nofun⟩
  | cons o rest ih =>
    rw [objectRefAll, List.foldlM_cons, bind_eq_ok] at h
    obtain ⟨u, hfirst, hrest⟩ := h
    have hone : Change (payloadRefs waits) bound s u (Pi.single o 1) (Pi.single o 1) :=
      objectRef_change hs hfirst
    obtain ⟨hchange, halive⟩ := ih hone.wf hrest
    refine ⟨?_, ?_⟩
    · rw [tally_cons]
      exact hone.trans hchange
    · intro x hx
      by_cases hxo : x = o
      · rw [hxo]
        exact objectRef_alive hs hfirst
      · have hpos := halive x ((List.mem_cons.1 hx).resolve_left hxo)
        have hcount := hone.counts x
        rw [Pi.single_eq_of_ne hxo] at hcount
        omega

theorem keepsRights_domain (old : Payload) (self : Domain ℕ) :
    KeepsRights old (.domain self) := by
  intro new hnew
  cases hnew

theorem keepsRights_space (old : Payload) (flags : UInt64) (self : Space ℕ) :
    KeepsRights old (.space flags self) := by
  intro new hnew
  cases hnew

theorem keepsRights_task {self self' : TaskObject} (h : self'.rights = self.rights) :
    KeepsRights (.task self) (.task self') := by
  rintro new hnew
  cases hnew
  exact ⟨self, rfl, h ▸ .refl _⟩

/-- A slot for an object more. -/
theorem domainAdd_objects {self self' : Domain ℕ} (h : domainAdd self o = .ok (handle, self'))
    (hself : DomainWf self) :
    DomainWf self' ∧ tally (domainObjects self') = Pi.single o 1 + tally (domainObjects self) := by
  obtain ⟨hwf, before, data, after, added, hold, hnew, _⟩ := domainAdd_spec h hself
  refine ⟨hwf, ?_⟩
  have hsame : domainObjects self = (before ++ ⟨data, false⟩ :: after).filterMap fun cell ↦
      if cell.used then cell.data else none := by
    rw [← hold, List.filterMap_append, domainObjects]
    simp
  rw [← tally_cons, hsame, domainObjects, hnew]
  funext x
  simp only [tally, List.filterMap_append, List.filterMap_cons, List.count_append,
    List.count_cons, if_true, Bool.false_eq_true, if_false]
  omega

theorem domainAdd_change {s s' : KernelState} (hs : Wf s)
    (h : s.domainAdd domain o = .ok (handle, s')) :
    Change (payloadRefs waits) bound s s' (Pi.single o 1) 0 ∧ 1 ≤ refCount s o := by
  simp only [KernelState.domainAdd, bind_eq_ok, pure_eq_ok, Prod.exists, Prod.mk.injEq,
    getDomain_eq_ok] at h
  obtain ⟨t, href, self, ⟨refs, hself⟩, handle', self', hadd, u, hset, rfl, rfl⟩ := h
  have hone : Change (payloadRefs waits) bound s t (Pi.single o 1) (Pi.single o 1) :=
    objectRef_change hs href
  obtain ⟨hwf, hobjects⟩ := domainAdd_objects hadd (hone.wf.payload hself)
  have htwo : Change (payloadRefs waits) bound t u 0 _ :=
    setPayload_change hone.wf hself hset hwf (keepsRights_domain _ _)
  refine ⟨(hone.trans htwo).of_eq (add_zero _) ?_, objectRef_alive hs href⟩
  rw [holds_domain, holds_domain, hobjects]
  abel

/-- A lookup finds nothing and does nothing, or takes a reference to what it finds. -/
def Looks (waits : Bool) (bound : Option BrRight) (s : KernelState) (found : Option ℕ)
    (t : KernelState) : Prop :=
  (found = none ∧ t = s) ∨ ∃ o, found = some o ∧ 1 ≤ refCount s o ∧
    Change (payloadRefs waits) bound s t (Pi.single o 1) (Pi.single o 1)

theorem objectRef_looks (hs : Wf s) (h : objectRef s o = .ok t) : Looks waits bound s (some o) t :=
  Or.inr ⟨o, rfl, objectRef_alive hs h, objectRef_change hs h⟩

theorem domainLookup_looks {type : BrType} (hs : Wf s)
    (h : s.domainLookup domain handle type = .ok (found, t)) : Looks waits bound s found t := by
  simp only [KernelState.domainLookup, bind_eq_ok] at h
  obtain ⟨self, _, result, _, h⟩ := h
  cases result with
  | none =>
    cases h
    exact Or.inl ⟨rfl, rfl⟩
  | some o =>
    simp only [bind_eq_ok, pure_eq_ok, Prod.mk.injEq] at h
    obtain ⟨u, href, rfl, rfl⟩ := h
    exact objectRef_looks hs href

theorem globalLookup_looks {id : UInt64} {type : BrType} (hs : Wf s)
    (h : globalLookup s id type = .ok (found, t)) : Looks waits bound s found t := by
  unfold globalLookup at h
  split at h
  · cases h
    exact Or.inl ⟨rfl, rfl⟩
  · split at h
    · simp only [bind_eq_ok, pure_eq_ok, Prod.mk.injEq] at h
      obtain ⟨u, href, rfl, rfl⟩ := h
      exact objectRef_looks hs href
    · cases h
      exact Or.inl ⟨rfl, rfl⟩

theorem lookupSpace_looks (hs : Wf s) (h : lookupSpace s self handle = .ok (found, t)) :
    Looks waits bound s found t := by
  unfold lookupSpace at h
  split at h
  · simp only [bind_eq_ok, pure_eq_ok, Prod.mk.injEq] at h
    obtain ⟨u, href, rfl, rfl⟩ := h
    exact objectRef_looks hs href
  · exact domainLookup_looks hs h

theorem objectRef_self (h : objectRef s o = .ok t) : t.self = s.self := by
  simp only [objectRef, bind_eq_ok, ite_error_eq_ok, pure_eq_ok] at h
  obtain ⟨_, _, _, rfl⟩ := h
  rfl

theorem lookupTask_looks (hs : Wf s) (h : lookupTask s self handle = .ok (found, t)) :
    Looks waits bound s found t := by
  unfold lookupTask at h
  split at h
  · simp only [bind_eq_ok, pure_eq_ok, Prod.mk.injEq] at h
    obtain ⟨u, href, rfl, rfl⟩ := h
    rw [objectRef_self href]
    exact objectRef_looks hs href
  · exact domainLookup_looks hs h

theorem Owes.looks (h : Owes waits bound s t pins) (hlooks : Looks waits bound t found u) :
    Owes waits bound s u (found.toList ++ pins) := by
  rcases hlooks with ⟨rfl, rfl⟩ | ⟨o, rfl, halive, hchange⟩
  · exact h
  · exact h.take hchange halive

/-- The page tables and the allocator hold no references. -/
theorem Gains.vmm (hs : Wf s) (vmm : Vmm) : Gains waits bound s { s with vmm } :=
  .of_change (.of_objects hs rfl rfl rfl)

theorem Change.trans_vmm {vmm : Vmm} {refs taken : ℕ → ℤ} (hs : Wf s)
    (h : Change (payloadRefs waits) bound { s with vmm } t refs taken) :
    Change (payloadRefs waits) bound s t refs taken := by
  have hvmm : Change (payloadRefs waits) bound s { s with vmm } 0 0 := .of_objects hs rfl rfl rfl
  exact (hvmm.trans h).of_eq (zero_add _) (zero_add _)

/-- An object that is no task has no rights. -/
theorem noRights (h : payloadType payload ≠ .task) (self : TaskObject)
    (hself : payload = .task self) : Within self.rights bound := by
  rw [hself] at h
  exact absurd rfl h

theorem memoryCreate_change {type : MemoryType} (hs : Wf s)
    (h : s.memoryCreate type range = .ok (id, t)) :
    Change (payloadRefs waits) bound s t (Pi.single id 1) (Pi.single id 1) ∧ refCount s id = 0 := by
  have hinit : Change (payloadRefs waits) bound s t (Pi.single id 1) _ ∧ refCount s id = 0 :=
    objectInit_change hs h trivial (noRights (by simp [payloadType]))
  rwa [holds_memory, sub_zero] at hinit

theorem domainCreate_change (hs : Wf s) (h : s.domainCreate = .ok (id, t)) :
    Change (payloadRefs waits) bound s t (Pi.single id 1) (Pi.single id 1) ∧ refCount s id = 0 := by
  have hinit : Change (payloadRefs waits) bound s t (Pi.single id 1) _ ∧ refCount s id = 0 :=
    objectInit_change hs h domainWf_create (noRights (by decide))
  rwa [holds_domain, show tally (domainObjects domainCreate) = 0 from rfl, sub_zero] at hinit

theorem spaceCreate_mmaps {vmm vmm' : Vmm} {self : Space ℕ}
    (h : spaceCreate memory vmm = .ok (self, vmm')) : self.mmaps = [] := by
  simp only [spaceCreate, bind_eq_ok, pure_eq_ok, Prod.exists, Prod.mk.injEq] at h
  obtain ⟨table, vmm'', _, alloc, _, rfl, _⟩ := h
  rfl

theorem spaceCreate_change (hs : Wf s) (h : s.spaceCreate memory flags = .ok (id, t)) :
    Change (payloadRefs waits) bound s t (Pi.single id 1) (Pi.single id 1) ∧ refCount s id = 0 := by
  simp only [KernelState.spaceCreate, bind_eq_ok, Prod.exists] at h
  obtain ⟨self, vmm, hcreate, h⟩ := h
  have hvmm : Wf { s with vmm } := hs.of_objects rfl rfl
  have hinit : Change (payloadRefs waits) bound { s with vmm } t (Pi.single id 1) _ ∧
      refCount { s with vmm } id = 0 :=
    objectInit_change hvmm h trivial (noRights (by simp [payloadType]))
  rw [holds_space, spaceCreate_mmaps hcreate, List.map_nil, tally_nil, sub_zero] at hinit
  exact ⟨hinit.1.trans_vmm hs, hinit.2⟩

theorem heapTake_vmm (h : heapTake s size = .ok (range, t)) : ∃ vmm, t = { s with vmm } := by
  simp only [heapTake, bind_eq_ok, pure_eq_ok, Prod.exists, Prod.mk.injEq] at h
  obtain ⟨_, _, _, _, _, _, _, rfl⟩ := h
  exact ⟨_, rfl⟩

/-- A new task takes a reference to its space and the first one to its domain. -/
theorem taskCreate_change {rights : BrRight} (hs : Wf s)
    (h : s.taskCreate space rights flags = .ok (id, t)) (hrights : Within rights bound) :
    ∃ refs : ℕ → ℤ, 0 ≤ refs ∧ refCount s id = 0 ∧
      Change (payloadRefs waits) bound s t (refs + Pi.single id 1) (Pi.single id 1) := by
  simp only [KernelState.taskCreate, bind_eq_ok, Prod.exists] at h
  obtain ⟨t₁, href, domain, t₂, hdomain, stack, t₃, htake, hinit⟩ := h
  obtain ⟨vmm, rfl⟩ := heapTake_vmm htake
  have hone : Change (payloadRefs waits) bound s t₁ (Pi.single space 1) (Pi.single space 1) :=
    objectRef_change hs href
  have htwo : Change (payloadRefs waits) bound t₁ t₂ (Pi.single domain 1) (Pi.single domain 1) ∧
      refCount t₁ domain = 0 := domainCreate_change hone.wf hdomain
  have hvmm : Wf { t₂ with vmm } := htwo.1.wf.of_objects rfl rfl
  have hthree : Change (payloadRefs waits) bound { t₂ with vmm } t (Pi.single id 1) _ ∧
      refCount { t₂ with vmm } id = 0 :=
    objectInit_change hvmm hinit trivial fun self hself ↦ by
      cases hself
      exact hrights
  rw [holds_task] at hthree
  have hchannel : tally (channelObjects channelCreate) = 0 := by
    rw [channelObjects, channelCreate, contents_init]
    rfl
  have hwait : waitRefs waits none = [] := by cases waits <;> rfl
  simp only [hchannel, hwait, tally_nil, add_zero, tally_cons] at hthree
  refine ⟨tally [space, domain], tally_nonneg _, ?_, ?_⟩
  · have hzero : (refCount t₂ id : ℤ) = 0 := by exact_mod_cast hthree.2
    have hcount := htwo.1.counts id
    have hcount' := hone.counts id
    have hnonneg := tally_nonneg [space, domain] id
    simp only [tally_cons, tally_nil, add_zero, Pi.add_apply, Pi.zero_apply] at hnonneg
    omega
  · apply ((hone.trans htwo.1).trans (hthree.1.trans_vmm htwo.1.wf)).of_eq
    · simp only [tally_cons, tally_nil, add_zero]
    · abel

theorem spacePlace_mmaps {self self' : Space ℕ} {place : SpaceResult}
    (h : spacePlace self size vaddr = .ok (place, self')) : self'.mmaps = self.mmaps := by
  unfold spacePlace at h
  split at h
  · simp only [bind_eq_ok, Prod.exists] at h
    obtain ⟨range, alloc, _, h⟩ := h
    split at h <;> cases h <;> rfl
  · simp only [bind_eq_ok, pure_eq_ok, Prod.mk.injEq] at h
    obtain ⟨alloc, _, _, rfl⟩ := h
    rfl

/-- `space_map` adds a mapping of the object, or fails and adds none. -/
theorem spaceMap_mmaps {self self' : Space ℕ} {vmm vmm' : Vmm} {object : ℕ} {memory : Memory}
    {offset size vaddr : UInt64} {flags : BrMemoryFlags} {result : SpaceResult}
    (h : spaceMap self vmm object memory offset size vaddr flags = .ok (result, self', vmm')) :
    (self'.mmaps.map Mmap.object = self.mmaps.map Mmap.object ∧ ∃ err, result = .error err) ∨
      (self'.mmaps.map Mmap.object = self.mmaps.map Mmap.object ++ [object] ∧
        ∃ range, result = .ok range) := by
  simp only [spaceMap] at h
  split at h
  · cases h
    exact Or.inl ⟨rfl, _, rfl⟩
  · simp only [bind_eq_ok, Prod.exists] at h
    obtain ⟨place, placed, hplace, h⟩ := h
    have hmmaps := spacePlace_mmaps hplace
    cases place with
    | error err =>
      cases h
      exact Or.inl ⟨by rw [hmmaps], _, rfl⟩
    | ok range =>
      simp only [spaceMmapCreate, bind_eq_ok, pure_eq_ok, Prod.exists, Prod.mk.injEq] at h
      obtain ⟨_, _, ⟨_, _, _, rfl, rfl⟩, rfl, rfl, rfl⟩ := h
      exact Or.inr ⟨by simp [hmmaps], _, rfl⟩

theorem spaceMap_gains {space memory : ℕ} {offset size vaddr : UInt64} {flags : BrMemoryFlags}
    {result : SpaceResult} (hs : Wf s)
    (h : s.spaceMap space memory offset size vaddr flags = .ok (result, t)) :
    Gains waits bound s t := by
  simp only [KernelState.spaceMap, bind_eq_ok, Prod.exists, getSpace_eq_ok] at h
  obtain ⟨spaceFlags, self, ⟨refs, hself⟩, object, _, result', self', vmm, hmap, u, hset, h⟩ := h
  have hvmm : Wf { s with vmm } := hs.of_objects rfl rfl
  have hpayload : Change (payloadRefs waits) bound { s with vmm } u 0 _ :=
    setPayload_change hvmm hself hset trivial (keepsRights_space _ _ _)
  have hchange := hpayload.trans_vmm hs
  rw [holds_space, holds_space] at hchange
  rcases spaceMap_mmaps hmap with ⟨hmmaps, err, rfl⟩ | ⟨hmmaps, range, rfl⟩
  · cases h
    rw [hmmaps, sub_self] at hchange
    exact .of_change hchange
  · simp only [bind_eq_ok, pure_eq_ok, Prod.mk.injEq] at h
    obtain ⟨v, href, _, rfl⟩ := h
    have hone : Change (payloadRefs waits) bound u v (Pi.single memory 1) (Pi.single memory 1) :=
      objectRef_change hchange.wf href
    refine ⟨tally [memory], tally_nonneg _, (hchange.trans hone).of_eq ?_ ?_⟩
    · rw [tally_singleton, zero_add]
    · rw [hmmaps, tally_append, tally_singleton]
      abel

/-- A task that keeps its references and its rights. -/
theorem setTask_gains {o refs : ℕ} {self self' : TaskObject} (hs : Wf s)
    (hself : s.objects.lookup o = some ⟨refs, .task self⟩)
    (h : setPayload s o (.task self') = .ok t) (hrights : RightsLe self'.rights self.rights)
    (hspace : self'.space = self.space) (hdomain : self'.domain = self.domain)
    (hchannel : channelObjects self'.channel = channelObjects self.channel)
    (hwait : waitRefs waits self'.wait = waitRefs waits self.wait) : Gains waits bound s t := by
  have hkeeps : KeepsRights (.task self) (.task self') := by
    intro new hnew
    cases hnew
    exact ⟨self, rfl, hrights⟩
  have hchange : Change (payloadRefs waits) bound s t 0 _ :=
    setPayload_change hs hself h trivial hkeeps
  rw [holds_task, holds_task, hspace, hdomain, hchannel, hwait, sub_self] at hchange
  exact .of_change hchange

theorem schedEnqueue_gains (hs : Wf s) (h : s.schedEnqueue task = .ok t) :
    Gains waits bound s t := by
  simp only [KernelState.schedEnqueue, bind_eq_ok, pure_eq_ok] at h
  obtain ⟨u, href, rfl⟩ := h
  have hone : Change (payloadRefs waits) bound s u (Pi.single task 1) (Pi.single task 1) :=
    objectRef_change hs href
  refine ⟨tally [task], tally_nonneg _, hone.wf.of_objects rfl rfl, ?_, ?_, ?_⟩
  · exact hone.confined.trans (.of_payloads hone.wf rfl fun _ object h ↦ ⟨object, h, .refl _⟩)
  · rw [tally_singleton]
    exact hone.counts
  · intro o
    have hbalance := hone.balances o
    have hcount : tally [task] o = (Pi.single task 1 : ℕ → ℤ) o := by rw [tally_singleton]
    simp only [balance, refCount, heldBy, tally, List.count_append, Pi.zero_apply] at *
    omega

theorem schedStart_gains (hs : Wf s) (h : s.schedStart task = .ok t) : Gains waits bound s t := by
  simp only [KernelState.schedStart, bind_eq_ok, getTask_eq_ok, assertTruth_eq_ok] at h
  obtain ⟨self, ⟨refs, hself⟩, _, _, u, hset, henqueue⟩ := h
  have hone : Gains waits bound s u := setTask_gains hs hself hset (.refl _) rfl rfl rfl rfl
  exact hone.trans (schedEnqueue_gains hone.wf henqueue)

theorem schedStop_gains {result : UInt64} (hs : Wf s) (h : s.schedStop task result = .ok t) :
    Gains waits bound s t := by
  simp only [KernelState.schedStop, bind_eq_ok, getTask_eq_ok] at h
  obtain ⟨self, ⟨refs, hself⟩, h⟩ := h
  split at h
  · cases h
    exact Gains.refl hs
  · exact setTask_gains hs hself h (.refl _) rfl rfl rfl rfl

theorem domainAdd_gains (hs : Wf s) (h : s.domainAdd domain o = .ok (handle, t)) :
    Gains waits bound s t :=
  ⟨tally [o], tally_nonneg _, tally_singleton o ▸ (domainAdd_change hs h).1⟩

theorem sysMapInto_owes {args args' : BrMapArgs} (hs : Owes waits bound s t [space])
    (h : sysMapInto t self args space = .ok (result, args', u)) : Owes waits bound s u [] := by
  simp only [sysMapInto, bind_eq_ok, Prod.exists] at h
  obtain ⟨memory, t₁, hlookup, h⟩ := h
  have hfound := hs.looks (domainLookup_looks hs.wf hlookup)
  cases memory with
  | none =>
    simp only [bind_eq_ok, pure_eq_ok, Prod.mk.injEq] at h
    obtain ⟨t₂, hderef, _, _, rfl⟩ := h
    exact hfound.drop hderef
  | some memory =>
    simp only [bind_eq_ok, Prod.exists] at h
    obtain ⟨mapped, t₂, hmap, t₃, hspace, t₄, hmemory, h⟩ := h
    have hgrown := hfound.gain (spaceMap_gains hfound.wf hmap)
    have hdropped := (hgrown.perm (List.Perm.swap space memory [])).drop hspace
    have hdone := hdropped.drop hmemory
    cases mapped <;> cases h <;> exact hdone

theorem sysMap_owes {args args' : BrMapArgs} (hs : Wf s)
    (h : sysMap s args = .ok (result, args', t)) : Owes waits bound s t [] := by
  simp only [sysMap, bind_eq_ok] at h
  obtain ⟨self, _, h⟩ := h
  split at h
  · cases h
    exact .refl hs
  · simp only [bind_eq_ok, Prod.exists] at h
    obtain ⟨space, t₁, hlookup, h⟩ := h
    have hstart : Owes waits bound s s [] := .refl hs
    have hfound := hstart.looks (lookupSpace_looks hs hlookup)
    cases space with
    | none =>
      cases h
      exact hfound
    | some space => exact sysMapInto_owes hfound h

theorem sysDup_owes {copy : Option UInt64} (hs : Wf s)
    (h : sysDup s handle = .ok (result, copy, t)) : Owes waits bound s t [] := by
  simp only [sysDup, bind_eq_ok, Prod.exists] at h
  obtain ⟨self, _, object, t₁, hlookup, h⟩ := h
  have hstart : Owes waits bound s s [] := .refl hs
  have hfound := hstart.looks (domainLookup_looks hs hlookup)
  cases object with
  | none =>
    cases h
    exact hfound
  | some object =>
    simp only [bind_eq_ok, pure_eq_ok, Prod.exists, Prod.mk.injEq] at h
    obtain ⟨handle', t₂, hadd, t₃, hderef, _, _, rfl⟩ := h
    exact (hfound.gain (domainAdd_gains hfound.wf hadd)).drop hderef

theorem sysStart_owes (hs : Wf s) (h : sysStart s handle = .ok (result, t)) :
    Owes waits bound s t [] := by
  simp only [sysStart, bind_eq_ok, Prod.exists] at h
  obtain ⟨self, _, task, t₁, hlookup, h⟩ := h
  have hstart : Owes waits bound s s [] := .refl hs
  have hfound := hstart.looks (domainLookup_looks hs hlookup)
  cases task with
  | none =>
    cases h
    exact hfound
  | some task =>
    simp only [bind_eq_ok, pure_eq_ok, Prod.mk.injEq] at h
    obtain ⟨t₂, hstart, t₃, hderef, _, rfl⟩ := h
    exact (hfound.gain (schedStart_gains hfound.wf hstart)).drop hderef

theorem sysExit_owes {args : BrExitArgs} (hs : Wf s) (h : sysExit s args = .ok (result, t)) :
    Owes waits bound s t [] := by
  simp only [sysExit, bind_eq_ok, Prod.exists] at h
  obtain ⟨self, _, task, t₁, hlookup, h⟩ := h
  have hstart : Owes waits bound s s [] := .refl hs
  have hfound := hstart.looks (lookupTask_looks hs hlookup)
  cases task with
  | none =>
    cases h
    exact hfound
  | some task =>
    simp only [bind_eq_ok, pure_eq_ok, Prod.mk.injEq] at h
    obtain ⟨t₂, hstop, t₃, hderef, _, rfl⟩ := h
    exact (hfound.gain (schedStop_gains hfound.wf hstop)).drop hderef

theorem sysDrop_owes {args : BrDropArgs} (hs : Wf s) (h : sysDrop s args = .ok (result, t)) :
    Owes waits bound s t [] := by
  simp only [sysDrop, bind_eq_ok, Prod.exists] at h
  obtain ⟨self, _, task, t₁, hlookup, h⟩ := h
  have hstart : Owes waits bound s s [] := .refl hs
  have hfound := hstart.looks (lookupTask_looks hs hlookup)
  cases task with
  | none =>
    cases h
    exact hfound
  | some task =>
    simp only [sysDropFrom, bind_eq_ok, getTask_eq_ok] at h
    obtain ⟨object, ⟨refs, hobject⟩, h⟩ := h
    split at h
    · simp only [bind_eq_ok, pure_eq_ok, Prod.mk.injEq] at h
      obtain ⟨t₂, hderef, _, rfl⟩ := h
      exact hfound.drop hderef
    · simp only [bind_eq_ok, pure_eq_ok, Prod.mk.injEq] at h
      obtain ⟨t₂, hset, t₃, hderef, _, rfl⟩ := h
      have hgains : Gains waits bound t₁ t₂ :=
        setTask_gains hfound.wf hobject hset (.and_left _ _) rfl rfl rfl rfl
      exact (hfound.gain hgains).drop hderef

/-! ## Creating objects -/

/-- A new object with a handle has two references, of which the call drops one. -/
theorem createHandle_owes {addr : Option UInt64} (hs : Owes waits bound s t [])
    (hcreate : Change (payloadRefs waits) bound t u (Pi.single id 1) (Pi.single id 1))
    (hnew : refCount t id = 0) (h : createHandle u self id addr = .ok (result, created, v)) :
    Owes waits bound s v [] := by
  simp only [createHandle, bind_eq_ok, pure_eq_ok, Prod.exists, Prod.mk.injEq] at h
  obtain ⟨handle, w, hadd, x, hderef, _, _, rfl⟩ := h
  exact (hs.create hcreate hnew (domainAdd_change hcreate.wf hadd).1).drop hderef

theorem sysCreateSpace_owes (hs : Wf s)
    (h : sysCreateSpace s self memory flags = .ok (result, created, t)) :
    Owes waits bound s t [] := by
  simp only [sysCreateSpace, bind_eq_ok, Prod.exists] at h
  obtain ⟨id, t₁, hcreate, h⟩ := h
  obtain ⟨hchange, hnew⟩ := spaceCreate_change hs hcreate
  exact createHandle_owes (.refl hs) hchange hnew h

theorem sysCreateMemory_owes {props : BrMemoryProps} (hs : Wf s)
    (h : sysCreateMemory s self props = .ok (result, created, t)) : Owes waits bound s t [] := by
  unfold sysCreateMemory at h
  split at h
  · split at h
    · cases h
      exact .refl hs
    · simp only [bind_eq_ok, Prod.exists] at h
      obtain ⟨id, t₁, hcreate, h⟩ := h
      obtain ⟨hchange, hnew⟩ := memoryCreate_change hs hcreate
      exact createHandle_owes (.refl hs) hchange hnew h
  · split at h
    · cases h
      exact .refl hs
    · simp only [sysCreatePmm, bind_eq_ok, Prod.exists] at h
      obtain ⟨alloc, pmm, _, h⟩ := h
      have hgrown : Owes waits bound s { s with vmm := { s.vmm with pmm } } [] :=
        (Owes.refl hs).gain (.vmm hs _)
      cases alloc with
      | error err =>
        cases h
        exact hgrown
      | ok range =>
        simp only [bind_eq_ok, Prod.exists] at h
        obtain ⟨id, t₁, hcreate, h⟩ := h
        obtain ⟨hchange, hnew⟩ := memoryCreate_change hgrown.wf hcreate
        exact createHandle_owes hgrown hchange hnew h

theorem sysCreateTask_owes {props : BrTaskProps} (hs : Wf s) (hrights : Within self.rights bound)
    (h : sysCreateTask s self props = .ok (result, created, t)) : Owes waits bound s t [] := by
  simp only [sysCreateTask, bind_eq_ok, Prod.exists] at h
  obtain ⟨space, t₁, hlookup, h⟩ := h
  have hstart : Owes waits bound s s [] := .refl hs
  have hfound := hstart.looks (lookupSpace_looks hs hlookup)
  cases space with
  | none =>
    cases h
    exact hfound
  | some space =>
    simp only [bind_eq_ok, pure_eq_ok, Prod.exists, Prod.mk.injEq] at h
    obtain ⟨task, t₂, hcreate, handle, t₃, hadd, t₄, hspace, t₅, htask, _, _, rfl⟩ := h
    obtain ⟨refs, hrefs, hnew, hchange⟩ :=
      taskCreate_change hfound.wf hcreate ((RightsLe.and_right _ _).within hrights)
    have hcreated := hfound.createWith hrefs hchange hnew (domainAdd_change hchange.wf hadd).1
    exact ((hcreated.perm (List.Perm.swap space task [])).drop hspace).drop htask

/-- The rights of the task that executes are in `bound`. -/
def SelfBounded (s : KernelState) (bound : Option BrRight) : Prop :=
  ∀ self, taskSelf s = .ok self → Within self.rights bound

theorem sysCreate_owes {args : BrCreateArgs} (hs : Wf s)
    (hbound : ∀ props, args = .task props → SelfBounded s bound)
    (h : sysCreate s memory args = .ok (result, created, t)) : Owes waits bound s t [] := by
  simp only [sysCreate, bind_eq_ok] at h
  obtain ⟨self, hself, h⟩ := h
  cases args with
  | task props =>
    simp only at h
    split at h
    · cases h
      exact .refl hs
    · exact sysCreateTask_owes hs (hbound props rfl self hself) h
  | space flags => exact sysCreateSpace_owes hs h
  | memory props => exact sysCreateMemory_owes hs h
  | other type =>
    cases h
    exact .refl hs

/-- A memory object has no references of its own to give up. -/
theorem memoryDeref_change {self : Memory} (hs : Wf s) (hself : getMemory s o = .ok self)
    (h : objectDeref s o = .ok t) :
    Change (payloadRefs waits) bound s t (-Pi.single o 1) (-Pi.single o 1) := by
  obtain ⟨refs, hlookup⟩ := getMemory_eq_ok.1 hself
  have hpayload : payloadAt s o = .memory self := payloadAt_of_lookup hlookup
  obtain ⟨hcut, hconserves⟩ := objectDeref_cut hs h
  have hdoomed : ∀ d ∈ doomed s o, d = o := by
    have hdrops : (payloadDrops ∘ payloadAt s) o = [] := by rw [Function.comp_apply, hpayload]; rfl
    intro d hd
    simp only [doomed, release, hdrops, releaseAll] at hd
    split at hd
    next destroyed _ hrelease =>
      split at hrelease
      · cases hrelease
      · split at hrelease <;> cases hrelease
        · exact List.mem_singleton.1 hd
        · cases hd
    next => cases hd
  have hnone : ∀ f : Payload → List ℕ, f (.memory self) = [] →
      (doomed s o).flatMap (f ∘ payloadAt s) = [] := by
    intro f hf
    rw [List.flatMap_eq_nil_iff]
    intro d hd
    rw [hdoomed d hd, Function.comp_apply, hpayload, hf]
  have hcounts : ∀ x, (refCount t x : ℤ) = refCount s x + (-Pi.single o 1 : ℕ → ℤ) x := by
    intro x
    have hx := hconserves x
    rw [hnone payloadDrops rfl, List.count_nil] at hx
    have hone : ([o].count x : ℤ) = (Pi.single o 1 : ℕ → ℤ) x := by
      rw [← tally_singleton]
      rfl
    rw [Pi.neg_apply, ← hone]
    simp only at hx
    omega
  refine ⟨hcut.wf, hcut.confined hs fun x ↦ ?_, hcounts, fun x ↦ ?_⟩
  · have hx := hconserves x
    simp only at hx
    omega
  · have hleft : payloadLeft waits (.memory self) = [] := by cases waits <;> rfl
    rw [objectDeref_balance (splits_refs waits) hs h, lostWith, hnone _ hleft, Pi.neg_apply]
    simp only [List.count_nil]
    omega

theorem spaceUnmap_owes {result : SpaceResult} (hs : Owes waits bound s t [space])
    (h : t.spaceUnmap space range = .ok (result, u)) : Owes waits bound s u [space] := by
  simp only [KernelState.spaceUnmap, bind_eq_ok, Prod.exists, getSpace_eq_ok] at h
  obtain ⟨flags, self, ⟨refs, hself⟩, h⟩ := h
  cases hfind : findMmap range self.mmaps with
  | none =>
    rw [hfind] at h
    cases h
    exact hs
  | some found =>
    obtain ⟨before, mapping, after⟩ := found
    rw [hfind] at h
    simp only [spaceMmapDestroy, bind_eq_ok, pure_eq_ok, Prod.exists, Prod.mk.injEq] at h
    obtain ⟨t₁, ⟨_, vmm, _, memory, hmemory, hderef⟩, t₂, hset, _, rfl⟩ := h
    have hvmm : Wf { t with vmm } := hs.wf.of_objects rfl rfl
    have hdrop : Change (payloadRefs waits) bound { t with vmm } t₁ _ _ :=
      memoryDeref_change hvmm hmemory hderef
    have hfirst := hdrop.trans_vmm hs.wf
    obtain ⟨refs', hobject⟩ := getMemory_eq_ok.1 hmemory
    have hne : mapping.object ≠ space := by
      rintro rfl
      have hsame : t.objects.lookup mapping.object = some ⟨refs', .memory memory⟩ := hobject
      rw [hself] at hsame
      cases hsame
    have hstill : ∃ refs, t₁.objects.lookup space = some ⟨refs, .space flags self⟩ := by
      obtain ⟨hcut, _⟩ := objectDeref_cut hvmm hderef
      have hcount := hfirst.counts space
      rw [Pi.neg_apply, Pi.single_eq_of_ne hne.symm] at hcount
      have hpos := hs.wf.refCount_pos hself
      obtain ⟨object, hobject'⟩ := hfirst.wf.lookup_isSome.2 (show 1 ≤ refCount t₁ space by omega)
      exact ⟨object.refs, hcut.lookup hself hobject'⟩
    obtain ⟨refs'', hspace⟩ := hstill
    have hsecond : Change (payloadRefs waits) bound t₁ t₂ 0 _ :=
      setPayload_change hfirst.wf hspace hset trivial (keepsRights_space _ _ _)
    rw [holds_space, holds_space, findMmap_eq_some hfind, List.map_append, List.map_append,
      List.map_cons, tally_append, tally_append, tally_cons] at hsecond
    apply hs.change ((hfirst.trans hsecond).of_eq rfl ?_)
    · intro x hx
      rw [List.mem_singleton.1 hx, Pi.add_apply, Pi.neg_apply, Pi.single_eq_of_ne hne.symm]
      rfl
    · abel

theorem sysUnmap_owes {args : BrUnmapArgs} (hs : Wf s) (h : sysUnmap s args = .ok (result, t)) :
    Owes waits bound s t [] := by
  simp only [sysUnmap, bind_eq_ok, Prod.exists] at h
  obtain ⟨self, _, space, t₁, hlookup, h⟩ := h
  have hstart : Owes waits bound s s [] := .refl hs
  have hfound := hstart.looks (lookupSpace_looks hs hlookup)
  cases space with
  | none =>
    cases h
    exact hfound
  | some space =>
    simp only [bind_eq_ok, pure_eq_ok, Prod.exists, Prod.mk.injEq] at h
    obtain ⟨result', t₂, hunmap, t₃, hderef, _, rfl⟩ := h
    exact (spaceUnmap_owes hfound hunmap).drop hderef

theorem objectRef_payload {k o refs : ℕ} (h : objectRef s k = .ok t)
    (ho : s.objects.lookup o = some ⟨refs, payload⟩) :
    ∃ refs', t.objects.lookup o = some ⟨refs', payload⟩ := by
  simp only [objectRef, bind_eq_ok, getObject_eq_ok, ite_error_eq_ok, pure_eq_ok] at h
  obtain ⟨object, hobject, _, rfl⟩ := h
  by_cases hok : o = k
  · rw [hok] at ho ⊢
    rw [hobject] at ho
    cases ho
    exact ⟨_, AList.lookup_insert s.objects⟩
  · exact ⟨refs, by rw [AList.lookup_insert_ne hok, ho]⟩

theorem objectRefAll_payload {objects : List ℕ} {o refs : ℕ} (h : objectRefAll s objects = .ok t)
    (ho : s.objects.lookup o = some ⟨refs, payload⟩) :
    ∃ refs', t.objects.lookup o = some ⟨refs', payload⟩ := by
  induction objects generalizing s refs with
  | nil =>
    cases h
    exact ⟨refs, ho⟩
  | cons k rest ih =>
    rw [objectRefAll, List.foldlM_cons, bind_eq_ok] at h
    obtain ⟨u, hfirst, hrest⟩ := h
    obtain ⟨refs', hu⟩ := objectRef_payload hfirst ho
    exact ih hrest hu

/-- A message is sent with new references to its objects, or not at all. -/
theorem channelSendUnlock_owes {target domain : ℕ} (hs : Owes waits bound s t pins)
    (h : t.channelSendUnlock target domain msg = .ok (result, u)) : Owes waits bound s u pins := by
  simp only [KernelState.channelSendUnlock, bind_eq_ok, getTask_eq_ok] at h
  obtain ⟨task, ⟨refs, htask⟩, h⟩ := h
  split at h
  next =>
    cases h
    exact hs
  next hroom =>
    simp only [bind_eq_ok, Prod.exists] at h
    obtain ⟨self, _, packed, parcel, hpack, t₁, href, h⟩ := h
    obtain ⟨hchange, halive⟩ := objectRefAll_change hs.wf href
    have htaken := hs.takeAll hchange halive
    split at h
    · simp only [bind_eq_ok, pure_eq_ok, Prod.mk.injEq] at h
      obtain ⟨t₂, hderef, _, rfl⟩ := h
      exact htaken.dropAll hderef
    · simp only [bind_eq_ok, pure_eq_ok, Prod.mk.injEq] at h
      obtain ⟨t₂, hset, _, rfl⟩ := h
      obtain ⟨refs', htask'⟩ := objectRefAll_payload href htask
      have hpush : Change (payloadRefs waits) bound t₁ t₂ 0 _ :=
        setPayload_change htaken.wf htask' hset trivial (keepsRights_task rfl)
      have hchannel : channelObjects ⟨(ringPush task.channel.msgs parcel).2⟩ =
          channelObjects task.channel ++ parcelObjects parcel := by
        rcases ringPush_cases task.channel.msgs parcel with ⟨hfull, _⟩ | ⟨msgs, hpush, _, happend⟩
        · exact absurd (by rw [ringFull, hfull, beq_self_eq_true]) hroom
        · rw [channelObjects, hpush, happend, List.flatMap_append, channelObjects]
          simp
      simp only [holds_task, hchannel, tally_append] at hpush
      apply htaken.give (hpush.of_eq rfl ?_)
      abel

theorem finRange_filterMap {α : Type} {n : ℕ} (objs : Vector (Option α) n) :
    (List.finRange n).filterMap (fun i ↦ objs[i]) = objs.toList.reduceOption := by
  have hmap : (List.finRange n).map (fun i ↦ objs[i]) = objs.toList := by
    apply List.ext_getElem
    · simp
    · intro i _ _
      simp
  rw [← hmap]
  change _ = List.filterMap id _
  rw [List.filterMap_map]
  rfl

theorem parcelUnpackObjs_objects {objs : Vector (Option ℕ) brMsgArgCount}
    {indices : List (Fin brMsgArgCount)} {msg msg' : BrMsg} {self self' : Domain ℕ}
    (h : parcelUnpackObjs objs indices msg self = .ok (msg', self')) (hself : DomainWf self) :
    DomainWf self' ∧ tally (domainObjects self') =
      tally (indices.filterMap fun i ↦ getElem objs i i.isLt) + tally (domainObjects self) := by
  induction indices generalizing msg self with
  | nil =>
    cases h
    exact ⟨hself, (zero_add _).symm⟩
  | cons i rest ih =>
    rw [parcelUnpackObjs] at h
    split at h
    next object hobject =>
      simp only [bind_eq_ok, Prod.exists] at h
      obtain ⟨handle, added, hadd, h⟩ := h
      obtain ⟨hwf, hone⟩ := domainAdd_objects hadd hself
      obtain ⟨hwf', hrest⟩ := ih h hwf
      refine ⟨hwf', ?_⟩
      have hcons : (i :: rest).filterMap (fun i ↦ getElem objs i i.isLt) =
          object :: rest.filterMap fun i ↦ getElem objs i i.isLt := List.filterMap_cons_some hobject
      rw [hrest, hone, hcons, tally_cons]
      abel
    next hnone =>
      have hcons : (i :: rest).filterMap (fun i ↦ getElem objs i i.isLt) =
          rest.filterMap fun i ↦ getElem objs i i.isLt :=
        List.filterMap_cons_none hnone
      rw [hcons]
      exact ih h hself

theorem parcelUnpack_objects {parcel : Parcel ℕ} {self : Domain ℕ} {self' : Option (Domain ℕ)}
    (h : parcelUnpack parcel (some self) = .ok (result, msg, self')) (hself : DomainWf self) :
    DomainWf (self'.getD self) ∧ tally (domainObjects (self'.getD self)) =
      tally (parcelObjects parcel) + tally (domainObjects self) := by
  simp only [parcelUnpack, bind_eq_ok, pure_eq_ok, Prod.exists, Prod.mk.injEq] at h
  obtain ⟨msg', unpacked, hunpack, _, _, rfl⟩ := h
  rw [Option.getD_some, parcelObjects, ← finRange_filterMap]
  exact parcelUnpackObjs_objects hunpack hself

/-- A message that is received leaves its references with the slots of the domain. -/
theorem channelRecvUnlock_owes {msg msg' : BrMsg} (hs : Owes waits bound s t pins)
    (h : t.channelRecvUnlock task msg = .ok (result, msg', u)) : Owes waits bound s u pins := by
  simp only [KernelState.channelRecvUnlock, bind_eq_ok, getTask_eq_ok] at h
  obtain ⟨self, ⟨refs, hself⟩, h⟩ := h
  rcases ringPop_cases self.channel.msgs with ⟨_, hpop⟩ | ⟨parcel, msgs, hpop, _, hcons⟩
  · rw [hpop] at h
    cases h
    exact hs
  · rw [hpop] at h
    simp only [bind_eq_ok, pure_eq_ok, Prod.exists, Prod.mk.injEq, getDomain_eq_ok] at h
    obtain ⟨t₁, hset, domain, ⟨refs', hdomain⟩, result', msg'', domain', hunpack, t₂, href, t₃,
      hset', t₄, hderef, _, _, rfl⟩ := h
    have hpopped : Change (payloadRefs waits) bound t t₁ 0 _ :=
      setPayload_change hs.wf hself hset trivial (keepsRights_task rfl)
    have hchannel : channelObjects self.channel =
        parcelObjects parcel ++ channelObjects ⟨msgs⟩ := by
      rw [channelObjects, hcons, List.flatMap_cons, channelObjects]
    have hrefs : Change (payloadRefs waits) bound t₁ t₂ _ _ ∧ _ :=
      objectRefAll_change hpopped.wf href
    obtain ⟨htaken, halive⟩ := hrefs
    obtain ⟨refs'', hdomain'⟩ := objectRefAll_payload href hdomain
    obtain ⟨hwf, hobjects⟩ := parcelUnpack_objects hunpack (hpopped.wf.payload hdomain)
    have hadded : Change (payloadRefs waits) bound t₂ t₃ 0 _ :=
      setPayload_change htaken.wf hdomain' hset' hwf (keepsRights_domain _ _)
    have hchange : Change (payloadRefs waits) bound t t₃ (tally (parcelObjects parcel))
        (tally (parcelObjects parcel)) := by
      apply ((hpopped.trans htaken).trans hadded).of_eq
      · abel
      · simp only [holds_task, holds_domain, hchannel, hobjects, tally_append]
        abel
    have hpresent : ∀ x ∈ parcelObjects parcel, 1 ≤ refCount t x := by
      intro x hx
      have hpos := halive x hx
      have hcount := hpopped.counts x
      rw [Pi.zero_apply] at hcount
      omega
    exact (hs.takeAll hchange hpresent).dropAll hderef

theorem channelWait_owes {wait wait' : IpcWait} {acquired reached : Bool}
    (hs : Owes waits bound s t pins)
    (h : t.channelWait task wait acquired = .ok (reached, wait', u)) :
    Owes waits bound s u pins ∧ wait'.target = wait.target := by
  unfold KernelState.channelWait at h
  split at h
  · cases h
    exact ⟨hs, rfl⟩
  · split at h
    next target htarget =>
      simp only [bind_eq_ok, pure_eq_ok, Prod.exists, Prod.mk.injEq] at h
      obtain ⟨self, _, result, t₁, hsend, _, rfl, rfl⟩ := h
      exact ⟨channelSendUnlock_owes hs hsend, rfl⟩
    next hnone =>
      simp only [bind_eq_ok, pure_eq_ok, Prod.exists, Prod.mk.injEq] at h
      obtain ⟨result, msg, t₁, hrecv, _, rfl, rfl⟩ := h
      exact ⟨channelRecvUnlock_owes hs hrecv, rfl⟩

/-- A call that receives holds no reference while it waits; one that sends leaves the one to its
target with the record of the task. -/
theorem schedBlock_owes {wait : IpcWait} (hs : Owes waits bound s t wait.target.toList)
    (h : t.schedBlock wait = .ok u) (hwaits : waits = true ∨ wait.target = none) :
    Owes waits bound s u [] := by
  simp only [KernelState.schedBlock, taskSelf, bind_eq_ok, getTask_eq_ok, assertTruth_eq_ok,
    Option.isNone_iff_eq_none] at h
  obtain ⟨self, ⟨refs, hself⟩, _, hnone, hset⟩ := h
  have hchange : Change (payloadRefs waits) bound t u 0 _ :=
    setPayload_change hs.wf hself hset trivial (keepsRights_task rfl)
  have hbefore : waitRefs waits self.wait = [] := by
    rw [hnone]
    cases waits <;> rfl
  have hafter : waitRefs waits (some wait) = wait.target.toList := by
    rcases hwaits with hwaits | hwaits
    · rw [waitRefs, hwaits, if_pos rfl, Option.bind_some]
    · rw [waitRefs, Option.bind_some, hwaits]
      cases waits <;> rfl
  simp only [holds_task, hbefore, hafter, tally_nil] at hchange
  rw [← List.append_nil wait.target.toList] at hs
  apply hs.give (hchange.of_eq rfl ?_)
  abel

theorem ipcRecv_owes {result : IpcResult} (hs : Owes waits bound s t [])
    (h : ipcRecv t args msg acquired = .ok (result, u)) : Owes waits bound s u [] := by
  unfold ipcRecv at h
  split at h
  · simp only [bind_eq_ok, Prod.exists] at h
    obtain ⟨reached, wait, t₁, hwait, h⟩ := h
    obtain ⟨hs', htarget⟩ := channelWait_owes hs hwait
    split at h
    · cases h
      exact hs'
    · simp only [bind_eq_ok, pure_eq_ok, Prod.mk.injEq] at h
      obtain ⟨t₂, hblock, _, rfl⟩ := h
      exact schedBlock_owes (htarget ▸ hs') hblock (Or.inr htarget)
  · simp only [bind_eq_ok, pure_eq_ok, Prod.exists, Prod.mk.injEq] at h
    obtain ⟨received, msg', t₁, hrecv, _, rfl⟩ := h
    exact channelRecvUnlock_owes hs hrecv

theorem ipcSent_owes {sent : BrResult} {result : IpcResult} (hs : Owes waits bound s t [])
    (h : ipcSent t args msg sent acquired = .ok (result, u)) : Owes waits bound s u [] := by
  unfold ipcSent at h
  split at h
  · cases h
    exact hs
  · split at h
    · exact ipcRecv_owes hs h
    · cases h
      exact hs

/-- A call of `sys_ipc` that has returned owes nothing, and one that waits owes the reference to
its target, where that is not counted as held. -/
theorem ipcSend_owes {target : ℕ} {acquired : Bool × Bool} {result : IpcResult}
    (hs : Owes waits bound s t [target])
    (h : ipcSend t self args target msg acquired = .ok (result, u))
    (hwaits : waits = true ∨ result.isSome) : Owes waits bound s u [] := by
  unfold ipcSend at h
  split at h
  · simp only [bind_eq_ok, Prod.exists] at h
    obtain ⟨reached, wait, t₁, hwait, h⟩ := h
    obtain ⟨hs', htarget⟩ := channelWait_owes hs hwait
    split at h
    · simp only [bind_eq_ok] at h
      obtain ⟨t₂, hderef, h⟩ := h
      exact ipcSent_owes (hs'.drop hderef) h
    · simp only [bind_eq_ok, pure_eq_ok, Prod.mk.injEq] at h
      obtain ⟨t₂, hblock, rfl, rfl⟩ := h
      have hcounted : waits = true := hwaits.resolve_right (by rintro ⟨⟩)
      exact schedBlock_owes (htarget ▸ hs') hblock (Or.inl hcounted)
  · simp only [bind_eq_ok, Prod.exists] at h
    obtain ⟨sent, t₁, hsend, t₂, hderef, h⟩ := h
    exact ipcSent_owes ((channelSendUnlock_owes hs hsend).drop hderef) h

theorem sysIpc_owes {acquired : Bool × Bool} {result : IpcResult} (hs : Wf s)
    (h : sysIpc s args acquired = .ok (result, t)) (hwaits : waits = true ∨ result.isSome) :
    Owes waits bound s t [] := by
  simp only [sysIpc, bind_eq_ok] at h
  obtain ⟨self, _, h⟩ := h
  split at h
  · simp only [bind_eq_ok, Prod.exists] at h
    obtain ⟨target, t₁, hlookup, h⟩ := h
    have hstart : Owes waits bound s s [] := .refl hs
    have hfound := hstart.looks (globalLookup_looks hs hlookup)
    cases target with
    | none =>
      cases h
      exact hfound
    | some target => exact ipcSend_owes hfound h hwaits
  · exact ipcSent_owes (.refl hs) h

/-- From `s` to `t` the references `lost` were left behind: they are counted and nobody holds
them. -/
structure Leaves (waits : Bool) (bound : Option BrRight) (s t : KernelState) (lost : List ℕ) :
    Prop where
  wf : Wf t
  confined : RightsConfined bound s t
  balances : ∀ o,
    balance (payloadRefs waits) t o = balance (payloadRefs waits) s o + tally lost o

theorem Owes.leaves (h : Owes waits bound s t pins) : Leaves waits bound s t pins :=
  ⟨h.wf, h.confined, h.balances⟩

/-- What the destructors leave that run when a reference to the object is dropped. -/
def left (waits : Bool) (s : KernelState) (o : ℕ) : List ℕ := lostWith (payloadLeft waits) s o

theorem deref_confined (hs : Wf s) (hderef : objectDeref s o = .ok t) :
    RightsConfined bound s t := by
  obtain ⟨hcut, hconserves⟩ := objectDeref_cut hs hderef
  apply hcut.confined hs
  intro x
  have hx := hconserves x
  simp only at hx
  omega

/-- Dropping a reference and then forgetting where it was held. -/
theorem deref_leaves (hs : Wf s) (hderef : objectDeref s o = .ok t) (hwf : Wf u)
    (hconfined : RightsConfined bound t u) (hforget : ∀ x, balance (payloadRefs waits) u x =
      balance (payloadRefs waits) t x + (Pi.single o 1 : ℕ → ℤ) x) :
    Leaves waits bound s u (left waits s o) := by
  refine ⟨hwf, (deref_confined hs hderef).trans hconfined, fun x ↦ ?_⟩
  have hx := objectDeref_balance (splits_refs waits) hs hderef x
  rw [hforget, hx, tally, left]
  omega

theorem released_objects {self : Domain ℕ} (h : stored self handle = some o) :
    tally (domainObjects self) = Pi.single o 1 + tally (domainObjects (released self handle)) := by
  have hcell := stored_eq_some h
  obtain ⟨hlt, hget⟩ := List.getElem?_eq_some_iff.1 hcell
  have hsplit : self.objects.cells = self.objects.cells.take handle.toNat ++
      ⟨some o, true⟩ :: self.objects.cells.drop (handle.toNat + 1) := by
    rw [← hget, List.getElem_cons_drop, List.take_append_drop]
  have hmodify : (released self handle).objects.cells =
      self.objects.cells.take handle.toNat ++
        ⟨some o, false⟩ :: self.objects.cells.drop (handle.toNat + 1) := by
    rw [released, List.modify_eq_take_cons_drop hlt, hget]
  have hbefore : domainObjects self =
      (self.objects.cells.take handle.toNat).filterMap
          (fun cell ↦ if cell.used then cell.data else none) ++
        o :: (self.objects.cells.drop (handle.toNat + 1)).filterMap
          (fun cell ↦ if cell.used then cell.data else none) := by
    unfold domainObjects
    conv_lhs => rw [hsplit]
    simp
  rw [← tally_cons]
  funext x
  simp only [tally, hbefore]
  simp only [domainObjects, hmodify]
  simp only [List.filterMap_append, List.filterMap_cons, List.count_append, List.count_cons,
    Bool.false_eq_true, if_false]
  omega

/-- What a handle of the running task names. -/
def handleObject (s : KernelState) (handle : UInt64) : Option ℕ :=
  match taskSelf s with
  | .ok self =>
    match getDomain s self.domain with
    | .ok domain => stored domain handle
    | .error _ => none
  | .error _ => none

theorem sysClose_leaves (hs : Wf s) (h : sysClose s handle = .ok (result, t)) :
    Leaves waits bound s t ((handleObject s handle).elim [] (left waits s)) := by
  simp only [sysClose, KernelState.domainRemove, bind_eq_ok, pure_eq_ok, Prod.exists,
    Prod.mk.injEq] at h
  obtain ⟨self, hself, domain, hdomain, removed, object, domain', hremove, t₁, hderef, t₂, hset,
    _, rfl⟩ := h
  obtain ⟨refs, hlookup⟩ := getDomain_eq_ok.1 hdomain
  have hobject : handleObject s handle = stored domain handle := by
    rw [handleObject, hself]
    simp only [hdomain]
  have hwf := hs.payload hlookup
  rcases domainRemove_cases hremove hwf with ⟨hstored, _, rfl, rfl⟩ | ⟨o, hstored, _, rfl, rfl⟩
  · cases hderef
    have hchange : Change (payloadRefs waits) bound s t₂ 0 0 :=
      setPayload_change_same hs hlookup hset hwf (keepsRights_domain _ _) rfl
    have hstart : Owes waits bound s s [] := .refl hs
    rw [hobject, hstored]
    exact (hstart.change hchange (by rintro _ ⟨⟩)).leaves
  · have hcut := (objectDeref_cut hs hderef).1
    have hset' := hset
    simp only [setPayload, bind_eq_ok, getObject_eq_ok] at hset'
    obtain ⟨object', hobject', _⟩ := hset'
    have hstill := hcut.lookup hlookup hobject'
    have hchange : Change (payloadRefs waits) bound t₁ t₂ 0 _ :=
      setPayload_change hcut.wf hstill hset (released_wf hwf handle) (keepsRights_domain _ _)
    rw [hobject, hstored]
    apply deref_leaves hs hderef hchange.wf hchange.confined
    intro x
    rw [hchange.balances, holds_domain, holds_domain, released_objects hstored]
    simp only [Pi.add_apply, Pi.sub_apply]
    omega

/-- `sys_inspect` keeps the reference that `domain_lookup` took. -/
theorem sysInspect_leaves {infos : Option (ℕ × Infos)} (hs : Wf s)
    (h : sysInspect s handle = .ok (result, infos, t)) :
    Leaves waits bound s t
      (if handle = brHandleSelf then [] else (handleObject s handle).toList) := by
  simp only [sysInspect, bind_eq_ok, Prod.exists] at h
  obtain ⟨self, hself, found, t₁, hlookup, h⟩ := h
  have hend : t = t₁ := by
    cases found with
    | none =>
      cases h
      rfl
    | some id =>
      simp only [bind_eq_ok, pure_eq_ok, Prod.mk.injEq] at h
      obtain ⟨_, _, _, _, rfl⟩ := h
      rfl
  subst hend
  have hstart : Owes waits bound s s [] := .refl hs
  unfold lookupInspect at hlookup
  split at hlookup
  next hhandle =>
    cases hlookup
    rw [if_pos hhandle]
    exact hstart.leaves
  next hhandle =>
    have hfound := hstart.looks (domainLookup_looks hs hlookup)
    rw [List.append_nil] at hfound
    simp only [KernelState.domainLookup, bind_eq_ok] at hlookup
    obtain ⟨domain, hdomain, stored', hstored, hlookup⟩ := hlookup
    obtain ⟨refs, hpayload⟩ := getDomain_eq_ok.1 hdomain
    have hobject : handleObject s handle = found := by
      rw [handleObject, hself]
      simp only [hdomain]
      rw [← domainLookup_any (hs.payload hpayload) hstored]
      cases stored' with
      | none =>
        cases hlookup
        rfl
      | some o =>
        simp only [bind_eq_ok, pure_eq_ok, Prod.mk.injEq] at hlookup
        obtain ⟨_, _, rfl, _⟩ := hlookup
        rfl
    rw [if_neg hhandle, hobject]
    exact hfound.leaves

end Brutal.Kernel
