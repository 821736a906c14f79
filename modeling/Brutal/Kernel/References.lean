import Brutal.Kernel.Object
import Mathlib.Algebra.Group.Pi.Lemmas
import Mathlib.Tactic.Abel

/-!
# References

Who holds a reference to an object, and how the operations on objects change the difference
between its reference count and the number of its holders.  An operation that destroys nothing is
described by a `Change`; dropping a reference follows the cascades of `Brutal.Lib.RefCount`, and
what a destructor does not give back is lost.
-/

namespace Brutal.Kernel

open Base Ds Lib

variable {s s' t u : KernelState} {o k : ℕ} {object old : Object} {payload : Payload}

/-- The objects that the parcels in a channel point to. -/
def channelObjects (self : Channel ℕ) : List ℕ := (contents self.msgs).flatMap parcelObjects

/-- The objects that an object points to: the slots of a domain, the mappings of a space, the
fields of a task and the parcels queued in its channel. -/
def payloadHolders : Payload → List ℕ
  | .memory _ => []
  | .domain self => domainObjects self
  | .space _ self => self.mmaps.map Mmap.object
  | .task self => self.space :: self.domain :: channelObjects self.channel

/-- The object that a call of `sys_ipc` keeps referenced while it waits. -/
def payloadWaits : Payload → List ℕ
  | .task self => (self.wait.bind IpcWait.target).toList
  | _ => []

/-- The references that the destructor drops, in order. -/
def payloadDrops : Payload → List ℕ
  | .memory _ => []
  | .domain self => domainObjects self
  | .space _ self => (everyOther self.mmaps).map Mmap.object
  | .task self => [self.space, self.domain]

/-- The references that the destructor does not drop. -/
def payloadLost : Payload → List ℕ
  | .memory _ => []
  | .domain _ => []
  | .space _ self => (passedOver self.mmaps).map Mmap.object
  | .task self => channelObjects self.channel

/-- The reference count of an object, 0 when it was freed. -/
def refCount (s : KernelState) (o : ℕ) : ℕ :=
  match s.objects.lookup o with
  | some object => object.refs
  | none => 0

/-- How often the objects point to `o`, by the references `hold` of each of them. -/
def heldBy (hold : Payload → List ℕ) (s : KernelState) (o : ℕ) : ℕ :=
  total (fun object ↦ (hold object.payload).count o) s.objects

/-- The holders of an object: the objects that point to it and the queue of the scheduler. -/
def holders (s : KernelState) (o : ℕ) : ℕ := heldBy payloadHolders s o + s.queue.count o

/-- The references to an object that waiting calls of `sys_ipc` have taken. -/
def inFlight (s : KernelState) (o : ℕ) : ℕ := heldBy payloadWaits s o

/-- The reference count less the references `hold` and those of the queue. -/
def balance (hold : Payload → List ℕ) (s : KernelState) (o : ℕ) : ℤ :=
  refCount s o - heldBy hold s o - s.queue.count o

/-- The reference count less the holders. -/
def imbalance (s : KernelState) (o : ℕ) : ℤ := refCount s o - holders s o

/-- The references of an object, with or without those of its waiting call. -/
def payloadRefs (waits : Bool) (self : Payload) : List ℕ :=
  payloadHolders self ++ if waits then payloadWaits self else []

theorem balance_holders (s : KernelState) (o : ℕ) :
    balance (payloadRefs false) s o = imbalance s o := by
  simp only [imbalance, balance, holders, heldBy, payloadRefs, Bool.false_eq_true, if_false,
    List.append_nil]
  omega

/-- With the waiting calls, no reference is left out. -/
theorem balance_waits (s : KernelState) (o : ℕ) :
    balance (payloadRefs true) s o = imbalance s o - inFlight s o := by
  have hsum : heldBy (payloadRefs true) s o = heldBy payloadHolders s o + inFlight s o := by
    simp only [heldBy, inFlight, total, payloadRefs, if_true, List.count_append]
    rw [List.sum_map_add]
  rw [balance, imbalance, holders, hsum]
  omega

theorem getObject_eq_ok : getObject s o = .ok object ↔ s.objects.lookup o = some object := by
  unfold getObject
  cases s.objects.lookup o <;> simp

theorem getMemory_eq_ok {self : Memory} :
    getMemory s o = .ok self ↔ ∃ refs, s.objects.lookup o = some ⟨refs, .memory self⟩ := by
  simp only [getMemory, bind_eq_ok, getObject_eq_ok]
  constructor
  · rintro ⟨⟨refs, payload⟩, hlookup, h⟩
    cases payload <;> cases h
    exact ⟨refs, hlookup⟩
  · rintro ⟨refs, hlookup⟩
    exact ⟨_, hlookup, rfl⟩

theorem getDomain_eq_ok {self : Domain ℕ} :
    getDomain s o = .ok self ↔ ∃ refs, s.objects.lookup o = some ⟨refs, .domain self⟩ := by
  simp only [getDomain, bind_eq_ok, getObject_eq_ok]
  constructor
  · rintro ⟨⟨refs, payload⟩, hlookup, h⟩
    cases payload <;> cases h
    exact ⟨refs, hlookup⟩
  · rintro ⟨refs, hlookup⟩
    exact ⟨_, hlookup, rfl⟩

theorem getSpace_eq_ok {flags : UInt64} {self : Space ℕ} :
    getSpace s o = .ok (flags, self) ↔
      ∃ refs, s.objects.lookup o = some ⟨refs, .space flags self⟩ := by
  simp only [getSpace, bind_eq_ok, getObject_eq_ok]
  constructor
  · rintro ⟨⟨refs, payload⟩, hlookup, h⟩
    cases payload <;> cases h
    exact ⟨refs, hlookup⟩
  · rintro ⟨refs, hlookup⟩
    exact ⟨_, hlookup, rfl⟩

theorem getTask_eq_ok {self : TaskObject} :
    getTask s o = .ok self ↔ ∃ refs, s.objects.lookup o = some ⟨refs, .task self⟩ := by
  simp only [getTask, bind_eq_ok, getObject_eq_ok]
  constructor
  · rintro ⟨⟨refs, payload⟩, hlookup, h⟩
    cases payload <;> cases h
    exact ⟨refs, hlookup⟩
  · rintro ⟨refs, hlookup⟩
    exact ⟨_, hlookup, rfl⟩

theorem refCount_of_lookup (h : s.objects.lookup o = some object) : refCount s o = object.refs := by
  rw [refCount, h]

/-- What the payload of an object has to satisfy. -/
def PayloadWf : Payload → Prop
  | .domain self => DomainWf self
  | _ => True

/-- Every object is referenced, has a number that was given out, and is well formed. -/
structure Wf (s : KernelState) : Prop where
  refs_pos : ∀ {o object}, s.objects.lookup o = some object → 1 ≤ object.refs
  fresh : ∀ {o object}, s.objects.lookup o = some object → o < s.nextId
  payload : ∀ {o object}, s.objects.lookup o = some object → PayloadWf object.payload

theorem Wf.refCount_pos (hs : Wf s) (h : s.objects.lookup o = some object) : 1 ≤ refCount s o := by
  rw [refCount_of_lookup h]
  exact hs.refs_pos h

theorem Wf.lookup_nextId (hs : Wf s) : s.objects.lookup s.nextId = none := by
  cases h : s.objects.lookup s.nextId with
  | none => rfl
  | some object => exact absurd (hs.fresh h) (Nat.lt_irrefl _)

theorem Wf.lookup_isSome (hs : Wf s) :
    (∃ object, s.objects.lookup o = some object) ↔ 1 ≤ refCount s o := by
  constructor
  · rintro ⟨object, h⟩
    exact hs.refCount_pos h
  · intro hpos
    cases h : s.objects.lookup o with
    | none =>
      have hzero : refCount s o = 0 := by rw [refCount, h]
      omega
    | some object => exact ⟨object, rfl⟩

/-- A new or a replaced object. -/
theorem Wf.insert (hs : Wf s) {k nextId : ℕ} (new : Object) (hpos : 1 ≤ new.refs)
    (hwf : PayloadWf new.payload) (hk : k < nextId) (hnext : s.nextId ≤ nextId) :
    Wf { s with objects := s.objects.insert k new, nextId := nextId } := by
  constructor
  · intro o object h
    rcases lookup_insert_cases h with ⟨_, rfl⟩ | h
    · exact hpos
    · exact hs.refs_pos h
  · intro o object h
    rcases lookup_insert_cases h with ⟨rfl, _⟩ | h
    · exact hk
    · exact Nat.lt_of_lt_of_le (hs.fresh h) hnext
  · intro o object h
    rcases lookup_insert_cases h with ⟨_, rfl⟩ | h
    · exact hwf
    · exact hs.payload h

theorem Wf.of_objects (hs : Wf s) (hobjects : s'.objects = s.objects)
    (hnext : s'.nextId = s.nextId) : Wf s' where
  refs_pos h := hs.refs_pos (hobjects ▸ h)
  fresh h := hnext ▸ hs.fresh (hobjects ▸ h)
  payload h := hs.payload (hobjects ▸ h)

theorem Wf.erase (hs : Wf s) (k : ℕ) : Wf { s with objects := s.objects.erase k } where
  refs_pos h := hs.refs_pos (lookup_of_erase h)
  fresh h := hs.fresh (lookup_of_erase h)
  payload h := hs.payload (lookup_of_erase h)

/-- The rights in `a` are rights in `b`. -/
def RightsLe (a b : BrRight) : Prop := a &&& b = a

theorem RightsLe.refl (a : BrRight) : RightsLe a a := UInt32.and_self

theorem RightsLe.trans {a b c : BrRight} (hab : RightsLe a b) (hbc : RightsLe b c) :
    RightsLe a c := by
  have ha : a &&& b = a := hab
  have hb : b &&& c = b := hbc
  calc a &&& c = a &&& b &&& c := by rw [ha]
    _ = a &&& (b &&& c) := UInt32.and_assoc ..
    _ = a := by rw [hb, ha]

theorem RightsLe.and_left (a b : BrRight) : RightsLe (a &&& b) a := by
  rw [RightsLe, UInt32.and_comm a b, UInt32.and_assoc, UInt32.and_self]

theorem RightsLe.and_right (a b : BrRight) : RightsLe (a &&& b) b := by
  rw [RightsLe, UInt32.and_assoc, UInt32.and_self]

/-- A task has the rights `rights`. -/
def HasRights (s : KernelState) (o : ℕ) (rights : BrRight) : Prop :=
  ∃ self, getTask s o = .ok self ∧ self.rights = rights

/-- The rights are among those of the bound; without a bound there is no right to have. -/
def Within (rights : BrRight) (bound : Option BrRight) : Prop :=
  ∃ most ∈ bound, RightsLe rights most

theorem RightsLe.within {rights rights' : BrRight} {bound : Option BrRight}
    (h : RightsLe rights rights') (hwithin : Within rights' bound) : Within rights bound := by
  obtain ⟨most, hmost, hle⟩ := hwithin
  exact ⟨most, hmost, h.trans hle⟩

/-- A task that was there has not gained a right, and a new one has rights in `bound` only;
without a bound there is no new task. -/
structure RightsConfined (bound : Option BrRight) (s s' : KernelState) : Prop where
  nextId : s.nextId ≤ s'.nextId
  task : ∀ o rights, HasRights s' o rights →
    (o < s.nextId ∧ ∃ before, HasRights s o before ∧ RightsLe rights before) ∨
      (s.nextId ≤ o ∧ Within rights bound)

theorem RightsConfined.trans {bound : Option BrRight} (hfirst : RightsConfined bound s t)
    (hsecond : RightsConfined bound t u) : RightsConfined bound s u where
  nextId := Nat.le_trans hfirst.nextId hsecond.nextId
  task o rights h := by
    rcases hsecond.task o rights h with ⟨_, between, hbetween, hle⟩ | ⟨hnew, hle⟩
    · rcases hfirst.task o between hbetween with ⟨hold, before, hbefore, hle'⟩ | ⟨hnew, hle'⟩
      · exact Or.inl ⟨hold, before, hbefore, hle.trans hle'⟩
      · exact Or.inr ⟨hnew, hle.within hle'⟩
    · exact Or.inr ⟨Nat.le_trans hfirst.nextId hnew, hle⟩

/-- The new payload is that of a task only where the old one is, with rights no smaller. -/
def KeepsRights (old new : Payload) : Prop :=
  ∀ self, new = .task self → ∃ before, old = .task before ∧ RightsLe self.rights before.rights

theorem KeepsRights.refl (payload : Payload) : KeepsRights payload payload :=
  fun self h ↦ ⟨self, h, .refl _⟩

/-- The objects that are there were there, with payloads that keep the rights. -/
theorem RightsConfined.of_payloads {bound : Option BrRight} (hs : Wf s)
    (hnext : s.nextId = s'.nextId) (h : ∀ o object', s'.objects.lookup o = some object' →
      ∃ object, s.objects.lookup o = some object ∧ KeepsRights object.payload object'.payload) :
    RightsConfined bound s s' where
  nextId := Nat.le_of_eq hnext
  task o rights hrights := by
    obtain ⟨self, hself, rfl⟩ := hrights
    obtain ⟨refs, hlookup⟩ := getTask_eq_ok.1 hself
    obtain ⟨object, hobject, hkeeps⟩ := h o _ hlookup
    obtain ⟨before, hbefore, hle⟩ := hkeeps self rfl
    obtain ⟨refs', payload⟩ := object
    subst hbefore
    exact Or.inl ⟨hs.fresh hobject, before.rights,
      ⟨before, getTask_eq_ok.2 ⟨refs', hobject⟩, rfl⟩, hle⟩

section Change

variable {hold : Payload → List ℕ} {bound : Option BrRight}

/-- The references `hold` of an object to `o`. -/
def holds (hold : Payload → List ℕ) (payload : Payload) (o : ℕ) : ℤ := (hold payload).count o

/-- An operation that destroys nothing changes the reference counts by `refs` and the balances by
`taken`, the references that it took and that nobody holds. -/
structure Change (hold : Payload → List ℕ) (bound : Option BrRight) (s s' : KernelState)
    (refs taken : ℕ → ℤ) : Prop where
  wf : Wf s'
  confined : RightsConfined bound s s'
  counts : ∀ o, (refCount s' o : ℤ) = refCount s o + refs o
  balances : ∀ o, balance hold s' o = balance hold s o + taken o

theorem Change.refl (hs : Wf s) : Change hold bound s s 0 0 where
  wf := hs
  confined := .of_payloads hs rfl fun _ object h ↦ ⟨object, h, .refl _⟩
  counts o := by simp
  balances o := by simp

theorem Change.trans {refs taken refs' taken' : ℕ → ℤ} (hfirst : Change hold bound s t refs taken)
    (hsecond : Change hold bound t u refs' taken') :
    Change hold bound s u (refs + refs') (taken + taken') where
  wf := hsecond.wf
  confined := hfirst.confined.trans hsecond.confined
  counts o := by
    rw [hsecond.counts, hfirst.counts, Pi.add_apply]
    omega
  balances o := by
    rw [hsecond.balances, hfirst.balances, Pi.add_apply]
    omega

theorem Change.of_eq {refs taken refs' taken' : ℕ → ℤ} (h : Change hold bound s s' refs taken)
    (hrefs : refs = refs') (htaken : taken = taken') : Change hold bound s s' refs' taken' := by
  rw [← hrefs, ← htaken]
  exact h

/-- Parts of the state that hold no references do not matter. -/
theorem Change.of_objects (hs : Wf s) (hobjects : s'.objects = s.objects)
    (hnext : s'.nextId = s.nextId) (hqueue : s'.queue = s.queue) : Change hold bound s s' 0 0 where
  wf := hs.of_objects hobjects hnext
  confined := .of_payloads hs hnext.symm fun _ object h ↦ ⟨object, hobjects ▸ h, .refl _⟩
  counts o := by simp [refCount, hobjects]
  balances o := by simp [balance, refCount, heldBy, hobjects, hqueue]

/-- An object is replaced by one with another count and other references. -/
theorem Change.replace (hs : Wf s) (new : Object) (hold' : s.objects.lookup k = some old)
    (hpos : 1 ≤ new.refs) (hwf : PayloadWf new.payload)
    (hrights : KeepsRights old.payload new.payload) :
    Change hold bound s { s with objects := s.objects.insert k new }
      (Pi.single k ((new.refs : ℤ) - old.refs))
      (Pi.single k ((new.refs : ℤ) - old.refs) + holds hold old.payload -
        holds hold new.payload) := by
  have hcount : ∀ o, (refCount { s with objects := s.objects.insert k new } o : ℤ) =
      refCount s o + (Pi.single k ((new.refs : ℤ) - old.refs) : ℕ → ℤ) o := by
    intro o
    by_cases ho : o = k
    · rw [ho, Pi.single_eq_same, refCount_of_lookup hold',
        refCount_of_lookup (AList.lookup_insert s.objects)]
      omega
    · simp [refCount, AList.lookup_insert_ne ho, Pi.single_eq_of_ne ho]
  constructor
  · exact hs.insert new hpos hwf (hs.fresh hold') (Nat.le_refl _)
  · have hpayloads : ∀ o object', (s.objects.insert k new).lookup o = some object' →
        ∃ object, s.objects.lookup o = some object ∧
          KeepsRights object.payload object'.payload := by
      intro o object' h
      rcases lookup_insert_cases h with ⟨rfl, rfl⟩ | h
      · exact ⟨old, hold', hrights⟩
      · exact ⟨object', h, .refl _⟩
    exact .of_payloads hs rfl hpayloads
  · exact hcount
  · intro o
    have htotal := total_replace (fun object ↦ (hold object.payload).count o) new hold'
    simp only [balance, hcount, heldBy, Pi.add_apply, Pi.sub_apply, holds]
    omega

theorem setPayload_change (hs : Wf s) (hold' : s.objects.lookup k = some old)
    (h : setPayload s k payload = .ok s') (hwf : PayloadWf payload)
    (hrights : KeepsRights old.payload payload) :
    Change hold bound s s' 0 (holds hold old.payload - holds hold payload) := by
  simp only [setPayload, bind_eq_ok, getObject_eq_ok, pure_eq_ok] at h
  obtain ⟨object, hobject, rfl⟩ := h
  rw [hold'] at hobject
  cases hobject
  have hpos := hs.refs_pos hold'
  apply (Change.replace hs ⟨old.refs, payload⟩ hold' hpos hwf hrights).of_eq
  · simp
  · simp

/-- A payload that holds what the old one held. -/
theorem setPayload_change_same (hs : Wf s) (hold' : s.objects.lookup k = some old)
    (h : setPayload s k payload = .ok s') (hwf : PayloadWf payload)
    (hrights : KeepsRights old.payload payload) (hsame : hold payload = hold old.payload) :
    Change hold bound s s' 0 0 := by
  apply (setPayload_change hs hold' h hwf hrights).of_eq rfl
  rw [sub_eq_zero]
  funext o
  rw [holds, holds, hsame]

theorem objectRef_alive (hs : Wf s) (h : objectRef s k = .ok s') : 1 ≤ refCount s k := by
  simp only [objectRef, bind_eq_ok, getObject_eq_ok] at h
  obtain ⟨object, hobject, _⟩ := h
  exact hs.refCount_pos hobject

theorem objectRef_change (hs : Wf s) (h : objectRef s k = .ok s') :
    Change hold bound s s' (Pi.single k 1) (Pi.single k 1) := by
  simp only [objectRef, bind_eq_ok, getObject_eq_ok, ite_error_eq_ok, pure_eq_ok] at h
  obtain ⟨object, hobject, _, rfl⟩ := h
  have hone : ((object.refs + 1 : ℕ) : ℤ) - object.refs = 1 := by omega
  have hwf := hs.payload hobject
  apply (Change.replace hs ⟨object.refs + 1, object.payload⟩ hobject (Nat.le_add_left 1 _)
    hwf (.refl _)).of_eq
  · rw [hone]
  · rw [hone]
    abel

theorem objectInit_change (hs : Wf s) {id : ℕ} (h : objectInit s payload = .ok (id, s'))
    (hwf : PayloadWf payload) (hrights : ∀ self, payload = .task self → Within self.rights bound) :
    Change hold bound s s' (Pi.single id 1) (Pi.single id 1 - holds hold payload) ∧
      refCount s id = 0 := by
  simp only [objectInit, ite_error_eq_ok, Except.ok.injEq, Prod.mk.injEq] at h
  obtain ⟨_, rfl, rfl⟩ := h
  have hnone := hs.lookup_nextId
  have hzero : refCount s s.nextId = 0 := by rw [refCount, hnone]
  have hcount : ∀ o, (refCount { s with
        objects := s.objects.insert s.nextId ⟨1, payload⟩, nextId := s.nextId + 1 } o : ℤ) =
      refCount s o + (Pi.single s.nextId 1 : ℕ → ℤ) o := by
    intro o
    by_cases ho : o = s.nextId
    · rw [ho, Pi.single_eq_same, hzero, refCount_of_lookup (AList.lookup_insert s.objects)]
      rfl
    · simp [refCount, AList.lookup_insert_ne ho, Pi.single_eq_of_ne ho]
  have hwf' := hs.insert ⟨1, payload⟩ (Nat.le_refl 1) hwf (Nat.lt_succ_self s.nextId)
    (Nat.le_succ s.nextId)
  refine ⟨⟨hwf', ⟨Nat.le_succ _, ?_⟩, hcount, ?_⟩, hzero⟩
  · rintro o _ ⟨self, hself, rfl⟩
    obtain ⟨refs, hlookup⟩ := getTask_eq_ok.1 hself
    rcases lookup_insert_cases hlookup with ⟨rfl, hnew⟩ | hlookup
    · obtain ⟨_, hpayload⟩ := Object.mk.inj hnew
      exact Or.inr ⟨Nat.le_refl _, hrights self hpayload.symm⟩
    · exact Or.inl ⟨hs.fresh hlookup, self.rights,
        ⟨self, getTask_eq_ok.2 ⟨refs, hlookup⟩, rfl⟩, .refl _⟩
  · intro o
    have htotal := total_add (fun object ↦ (hold object.payload).count o)
      (⟨1, payload⟩ : Object) hnone
    simp only [balance, hcount, heldBy, Pi.sub_apply, holds] at htotal ⊢
    omega

end Change

/-! ## Dropping references -/

section Release

variable {p : ℕ → Payload}

/-- The objects that are there have the payloads `p`. -/
def Agrees (p : ℕ → Payload) (s : KernelState) : Prop :=
  ∀ {o object}, s.objects.lookup o = some object → object.payload = p o

/-- Objects were destroyed, and the others keep their payloads. -/
structure Cut (p : ℕ → Payload) (destroyed : List ℕ) (s s' : KernelState) : Prop where
  agrees : Agrees p s'
  wf : Wf s'
  nextId : s'.nextId = s.nextId
  queue : s'.queue = s.queue
  self : s'.self = s.self
  total : ∀ weight : Payload → ℕ,
    total (fun object ↦ weight object.payload) s'.objects +
      (destroyed.map fun o ↦ weight (p o)).sum =
        total (fun object ↦ weight object.payload) s.objects

theorem Cut.of_objects (hp : Agrees p s) (hs : Wf s) (hobjects : s'.objects = s.objects)
    (hnext : s'.nextId = s.nextId) (hqueue : s'.queue = s.queue) (hself : s'.self = s.self) :
    Cut p [] s s' where
  agrees h := hp (hobjects ▸ h)
  wf := hs.of_objects hobjects hnext
  nextId := hnext
  queue := hqueue
  self := hself
  total weight := by simp [hobjects]

theorem Cut.trans {first second : List ℕ} (hfirst : Cut p first s t) (hsecond : Cut p second t u) :
    Cut p (first ++ second) s u where
  agrees := hsecond.agrees
  wf := hsecond.wf
  nextId := hsecond.nextId.trans hfirst.nextId
  queue := hsecond.queue.trans hfirst.queue
  self := hsecond.self.trans hfirst.self
  total weight := by
    have hone := hfirst.total weight
    have htwo := hsecond.total weight
    rw [List.map_append, List.sum_append]
    omega

/-- An operation on the kernel does to the reference counts what `step` says. -/
def Refines (p : ℕ → Payload) (operation : KernelState → Except Fault KernelState)
    (step : (ℕ → ℕ) → Option Cascade) : Prop :=
  ∀ ⦃s s'⦄, Agrees p s → Wf s → operation s = .ok s' →
    ∃ destroyed, step (refCount s) = some (destroyed, refCount s') ∧ Cut p destroyed s s'

theorem foldlM_refines {α : Type} {operation : KernelState → α → Except Fault KernelState}
    {step : (ℕ → ℕ) → ℕ → Option Cascade} {key : α → ℕ}
    (h : ∀ a, Refines p (fun s ↦ operation s a) fun count ↦ step count (key a)) (items : List α) :
    Refines p (fun s ↦ items.foldlM operation s) (releaseAll step (items.map key)) := by
  induction items with
  | nil =>
    intro s s' hp hs hrun
    cases hrun
    exact ⟨[], rfl, Cut.of_objects hp hs rfl rfl rfl rfl⟩
  | cons a rest ih =>
    intro s s' hp hs hrun
    simp only [List.foldlM_cons, bind_eq_ok] at hrun
    obtain ⟨t, ha, hrest⟩ := hrun
    obtain ⟨first, hfirst, hcut⟩ := h a hp hs ha
    obtain ⟨second, hsecond, hcut'⟩ := ih hcut.agrees hcut.wf hrest
    refine ⟨first ++ second, ?_, hcut.trans hcut'⟩
    simp [List.map_cons, releaseAll, hfirst, hsecond]

theorem freeHeap_cut {range : USizeRange} (hp : Agrees p s) (hs : Wf s)
    (h : freeHeap s range = .ok s') : Cut p [] s s' ∧ refCount s' = refCount s := by
  simp only [freeHeap, bind_eq_ok, pure_eq_ok, Prod.exists] at h
  obtain ⟨_, _, _, rfl⟩ := h
  exact ⟨Cut.of_objects hp hs rfl rfl rfl rfl, rfl⟩

section Destroy

variable {deref : KernelState → ℕ → Except Fault KernelState}
  {step : (ℕ → ℕ) → ℕ → Option Cascade}
  (hderef : ∀ o, Refines p (fun s ↦ deref s o) fun count ↦ step count o)

theorem memoryDestroy_refines (self : Memory) :
    Refines p (fun s ↦ memoryDestroy s self) (releaseAll step []) := by
  intro s s' hp hs h
  simp only [memoryDestroy] at h
  split at h
  · obtain ⟨hcut, hcount⟩ := freeHeap_cut hp hs h
    exact ⟨[], by rw [releaseAll, hcount], hcut⟩
  · simp only [bind_eq_ok, pure_eq_ok, Prod.exists] at h
    obtain ⟨_, _, _, rfl⟩ := h
    exact ⟨[], rfl, Cut.of_objects hp hs rfl rfl rfl rfl⟩
  · cases h
    exact ⟨[], rfl, Cut.of_objects hp hs rfl rfl rfl rfl⟩

include hderef

theorem spaceMmapDestroy_refines (table : UInt64) (mapping : Mmap ℕ) :
    Refines p (fun s ↦ spaceMmapDestroy deref table s mapping)
      fun count ↦ step count mapping.object := by
  intro s s' hp hs h
  simp only [spaceMmapDestroy, bind_eq_ok, Prod.exists] at h
  obtain ⟨_, vmm, _, _, _, h⟩ := h
  have hcut : Cut p [] s { s with vmm } := Cut.of_objects hp hs rfl rfl rfl rfl
  obtain ⟨destroyed, hstep, hcut'⟩ := hderef mapping.object hcut.agrees hcut.wf h
  exact ⟨destroyed, hstep, hcut.trans hcut'⟩

theorem spaceDestroy_refines (self : Space ℕ) :
    Refines p (fun s ↦ spaceDestroy deref s self)
      (releaseAll step ((everyOther self.mmaps).map Mmap.object)) := by
  intro s s' hp hs h
  simp only [spaceDestroy, bind_eq_ok, pure_eq_ok] at h
  obtain ⟨t, hfold, vmm, _, rfl⟩ := h
  obtain ⟨destroyed, hstep, hcut⟩ :=
    foldlM_refines (spaceMmapDestroy_refines hderef self.vmm) _ hp hs hfold
  have hlast : Cut p [] t { t with vmm } := Cut.of_objects hcut.agrees hcut.wf rfl rfl rfl rfl
  refine ⟨destroyed, hstep, ?_⟩
  simpa using hcut.trans hlast

theorem taskDestroy_refines (o : ℕ) (self : TaskObject) :
    Refines p (fun s ↦ taskDestroy deref o s self)
      (releaseAll step [self.space, self.domain]) := by
  intro s s' hp hs h
  simp only [taskDestroy, bind_eq_ok] at h
  obtain ⟨t, hspace, u, hdomain, hfree⟩ := h
  have hbindings : Cut p [] s { s with bindings := eventUnbindAllFrom o s.bindings } :=
    Cut.of_objects hp hs rfl rfl rfl rfl
  obtain ⟨first, hfirst, hcut⟩ := hderef self.space hbindings.agrees hbindings.wf hspace
  obtain ⟨second, hsecond, hcut'⟩ := hderef self.domain hcut.agrees hcut.wf hdomain
  obtain ⟨hlast, hcount⟩ := freeHeap_cut hcut'.agrees hcut'.wf hfree
  have hstart : refCount { s with bindings := eventUnbindAllFrom o s.bindings } = refCount s := rfl
  rw [hstart] at hfirst
  refine ⟨first ++ second, ?_, ?_⟩
  · simp [releaseAll, hfirst, hsecond, hcount]
  · simpa using ((hbindings.trans hcut).trans hcut').trans hlast

/-- A destructor gives up the references that `payloadDrops` lists. -/
theorem payloadDestroy_refines (o : ℕ) (payload : Payload) :
    Refines p (fun s ↦ payloadDestroy deref o s payload)
      (releaseAll step (payloadDrops payload)) := by
  cases payload with
  | memory self => exact memoryDestroy_refines self
  | domain self =>
    have h : Refines p (fun s ↦ (domainObjects self).foldlM deref s)
        (releaseAll step ((domainObjects self).map id)) := foldlM_refines hderef _
    rwa [List.map_id] at h
  | space flags self => exact spaceDestroy_refines hderef self
  | task self => exact taskDestroy_refines hderef o self

end Destroy

theorem refCount_erase (s : KernelState) (o : ℕ) :
    refCount { s with objects := s.objects.erase o } = Function.update (refCount s) o 0 := by
  funext x
  by_cases hx : x = o
  · rw [hx, Function.update_self, refCount, AList.lookup_erase]
  · rw [Function.update_of_ne hx, refCount, refCount, AList.lookup_erase_ne hx]

theorem refCount_insert (s : KernelState) (o : ℕ) (new : Object) :
    refCount { s with objects := s.objects.insert o new } =
      Function.update (refCount s) o new.refs := by
  funext x
  by_cases hx : x = o
  · rw [hx, Function.update_self, refCount, AList.lookup_insert]
  · rw [Function.update_of_ne hx, refCount, refCount, AList.lookup_insert_ne hx]

/-- `object_deref` releases a reference, where an object gives up what its destructor drops. -/
theorem derefWithin_refines (depth o : ℕ) :
    Refines p (fun s ↦ derefWithin depth s o)
      fun count ↦ release (payloadDrops ∘ p) depth count o := by
  induction depth generalizing o with
  | zero =>
    intro s s' _ _ h
    cases h
  | succ depth ih =>
    intro s s' hp hs h
    simp only [derefWithin, bind_eq_ok, getObject_eq_ok] at h
    obtain ⟨object, hobject, h⟩ := h
    have hcount := refCount_of_lookup hobject
    have hpos := hs.refs_pos hobject
    have hpayload := hp hobject
    simp only [release]
    rw [if_neg (by omega), hcount]
    split at h
    next hlast =>
      have herase : Agrees p { s with objects := s.objects.erase o } :=
        fun hlookup ↦ hp (lookup_of_erase hlookup)
      obtain ⟨destroyed, hstep, hcut⟩ :=
        payloadDestroy_refines ih o object.payload herase (hs.erase o) h
      rw [refCount_erase, hpayload] at hstep
      rw [if_pos hlast]
      refine ⟨o :: destroyed, by simp [hstep], hcut.agrees, hcut.wf, hcut.nextId, hcut.queue,
        hcut.self, ?_⟩
      intro weight
      have htotal := hcut.total weight
      have hself := total_erase (fun object : Object ↦ weight object.payload) hobject
      simp only [hpayload, List.map_cons, List.sum_cons] at htotal hself ⊢
      omega
    next hmany =>
      cases h
      rw [if_neg hmany, refCount_insert]
      refine ⟨[], rfl, ?_, ?_, rfl, rfl, rfl, ?_⟩
      · intro x new hnew
        rcases lookup_insert_cases hnew with ⟨rfl, rfl⟩ | hnew
        · exact hpayload
        · exact hp hnew
      · have hone : 1 ≤ object.refs - 1 := by omega
        have hwf := hs.payload hobject
        exact hs.insert ⟨object.refs - 1, object.payload⟩ hone hwf (hs.fresh hobject)
          (Nat.le_refl _)
      · intro weight
        have htotal := total_replace (fun object : Object ↦ weight object.payload)
          ⟨object.refs - 1, object.payload⟩ hobject
        simp only [List.map_nil, List.sum_nil] at htotal ⊢
        omega

end Release

/-- The payload of an object that is there. -/
def payloadAt (s : KernelState) (o : ℕ) : Payload :=
  match s.objects.lookup o with
  | some object => object.payload
  | none => .memory ⟨.dma, ⟨0, 0⟩⟩

theorem payloadAt_of_lookup (h : s.objects.lookup o = some object) :
    payloadAt s o = object.payload := by
  rw [payloadAt, h]

theorem agrees_payloadAt (s : KernelState) : Agrees (payloadAt s) s := by
  intro o object h
  rw [payloadAt, h]

/-- The objects that are destroyed when a reference to `o` is dropped. -/
def doomed (s : KernelState) (o : ℕ) : List ℕ :=
  match release (payloadDrops ∘ payloadAt s) (s.objects.entries.length + 1) (refCount s) o with
  | some (destroyed, _) => destroyed
  | none => []

theorem objectDeref_cut (hs : Wf s) (h : objectDeref s o = .ok s') :
    Cut (payloadAt s) (doomed s o) s s' ∧
      Conserves (payloadDrops ∘ payloadAt s) [o] (refCount s) (doomed s o, refCount s') := by
  obtain ⟨destroyed, hrelease, hcut⟩ := derefWithin_refines _ o (agrees_payloadAt s) hs h
  have hdoomed : doomed s o = destroyed := by
    rw [doomed]
    simp only [hrelease]
  rw [hdoomed]
  exact ⟨hcut, release_conserves hrelease⟩

/-- The references `hold` of an object are those that its destructor drops and those `lost`. -/
def Splits (hold lost : Payload → List ℕ) : Prop :=
  ∀ payload o, (hold payload).count o = (payloadDrops payload).count o + (lost payload).count o

/-- The references that nobody drops when `o` is dereferenced. -/
def lostWith (lost : Payload → List ℕ) (s : KernelState) (o : ℕ) : List ℕ :=
  (doomed s o).flatMap (lost ∘ payloadAt s)

/-- Dropping a reference leaves behind what the destructors that run then do not drop. -/
theorem objectDeref_balance {hold lost : Payload → List ℕ} (hsplit : Splits hold lost) (hs : Wf s)
    (h : objectDeref s o = .ok s') (x : ℕ) :
    balance hold s' x =
      balance hold s x - (Pi.single o 1 : ℕ → ℤ) x + ((lostWith lost s o).count x : ℤ) := by
  obtain ⟨hcut, hconserves⟩ := objectDeref_cut hs h
  have hcount := hconserves x
  have htotal := hcut.total fun payload ↦ (hold payload).count x
  have hone : ([o].count x : ℤ) = (Pi.single o 1 : ℕ → ℤ) x := by
    by_cases hx : x = o
    · rw [hx, Pi.single_eq_same, List.count_singleton_self]
      rfl
    · rw [Pi.single_eq_of_ne hx, List.count_eq_zero_of_not_mem (by simpa using hx)]
      rfl
  have hsum : ((doomed s o).map fun o ↦ (hold (payloadAt s o)).count x).sum =
      ((doomed s o).flatMap (payloadDrops ∘ payloadAt s)).count x +
        (lostWith lost s o).count x := by
    rw [lostWith, List.count_flatMap, List.count_flatMap, ← List.sum_map_add]
    congr 1
    apply List.map_congr_left
    intro y _
    exact hsplit (payloadAt s y) x
  simp only at hcount
  rw [← hone]
  simp only [balance, heldBy, hcut.queue]
  omega

/-- An object that is left has the payload that it had. -/
theorem Cut.lookup {destroyed : List ℕ} (hcut : Cut (payloadAt s) destroyed s s') {o refs : ℕ}
    (h : s.objects.lookup o = some ⟨refs, payload⟩) (h' : s'.objects.lookup o = some object) :
    s'.objects.lookup o = some ⟨object.refs, payload⟩ := by
  have hpayload : object.payload = payload := (hcut.agrees h').trans (payloadAt_of_lookup h)
  rw [h', ← hpayload]

theorem Cut.confined {destroyed : List ℕ} {bound : Option BrRight} (hs : Wf s)
    (hcut : Cut (payloadAt s) destroyed s s') (hcount : ∀ o, refCount s' o ≤ refCount s o) :
    RightsConfined bound s s' := by
  apply RightsConfined.of_payloads hs hcut.nextId.symm
  intro o object' h
  have hpos := Nat.le_trans (hcut.wf.refCount_pos h) (hcount o)
  obtain ⟨object, hobject⟩ := hs.lookup_isSome.2 hpos
  have hpayload : object'.payload = object.payload := by
    rw [hcut.agrees h, payloadAt, hobject]
  exact ⟨object, hobject, hpayload ▸ .refl _⟩

/-- A reference that is not the last one. -/
theorem objectDeref_change {hold : Payload → List ℕ} {bound : Option BrRight} (hs : Wf s)
    (h : objectDeref s o = .ok s') (hshared : 2 ≤ refCount s o) :
    Change hold bound s s' (-Pi.single o 1) (-Pi.single o 1) := by
  simp only [objectDeref, derefWithin, bind_eq_ok, getObject_eq_ok] at h
  obtain ⟨object, hobject, h⟩ := h
  rw [refCount_of_lookup hobject] at hshared
  rw [if_neg (by omega)] at h
  cases h
  have hone : ((object.refs - 1 : ℕ) : ℤ) - object.refs = -1 := by omega
  have hwf := hs.payload hobject
  have hpos : 1 ≤ object.refs - 1 := by omega
  apply (Change.replace hs ⟨object.refs - 1, object.payload⟩ hobject hpos hwf (.refl _)).of_eq
  · rw [hone, Pi.single_neg]
  · rw [hone, Pi.single_neg]
    abel

theorem count_everyOther (mmaps : List (Mmap ℕ)) (o : ℕ) :
    (mmaps.map Mmap.object).count o = ((everyOther mmaps).map Mmap.object).count o +
      ((passedOver mmaps).map Mmap.object).count o := by
  induction mmaps using everyOther.induct with
  | case1 => rfl
  | case2 first => simp [everyOther, passedOver]
  | case3 first second rest ih =>
    simp only [everyOther, passedOver, List.map_cons, List.count_cons, ih]
    omega

/-- What the destructor leaves of the references, with or without those of a waiting call. -/
def payloadLeft (waits : Bool) (self : Payload) : List ℕ :=
  payloadLost self ++ if waits then payloadWaits self else []

theorem splits_refs (waits : Bool) : Splits (payloadRefs waits) (payloadLeft waits) := by
  intro payload o
  have hholders : (payloadHolders payload).count o =
      (payloadDrops payload).count o + (payloadLost payload).count o := by
    cases payload with
    | memory self => rfl
    | domain self => rfl
    | space flags self => exact count_everyOther self.mmaps o
    | task self =>
      simp only [payloadHolders, payloadDrops, payloadLost, List.count_cons, List.count_nil]
      omega
  rw [payloadRefs, payloadLeft, List.count_append, List.count_append]
  omega

section Depth

variable {first second : KernelState → ℕ → Except Fault KernelState}

theorem payloadDestroy_congr (inv : KernelState → Prop)
    (heq : ∀ s o, inv s → first s o = second s o)
    (hkeep : ∀ s o t, inv s → first s o = .ok t → inv t)
    (hframe : ∀ s t, inv s → t.objects = s.objects → t.nextId = s.nextId → inv t) (hs : inv s)
    (o : ℕ) (payload : Payload) :
    payloadDestroy first o s payload = payloadDestroy second o s payload := by
  cases payload with
  | memory self => rfl
  | domain self => exact foldlM_congr heq hkeep hs _
  | space flags self =>
    have hmmap : ∀ s mapping, inv s →
        spaceMmapDestroy first self.vmm s mapping = spaceMmapDestroy second self.vmm s mapping := by
      intro s mapping hs
      unfold spaceMmapDestroy
      apply congrArg (vmmUnmap s.vmm self.vmm mapping.range >>= ·)
      funext ⟨_, vmm⟩
      apply congrArg (getMemory { s with vmm } mapping.object >>= ·)
      funext _
      exact heq _ _ (hframe s { s with vmm } hs rfl rfl)
    have hmmap' : ∀ s mapping t, inv s → spaceMmapDestroy first self.vmm s mapping = .ok t →
        inv t := by
      intro s mapping t hs h
      simp only [spaceMmapDestroy, bind_eq_ok, Prod.exists] at h
      obtain ⟨_, vmm, _, _, _, h⟩ := h
      exact hkeep _ _ _ (hframe s { s with vmm } hs rfl rfl) h
    simp only [payloadDestroy, spaceDestroy]
    rw [foldlM_congr hmmap hmmap' hs]
  | task self =>
    have hs' := hframe s { s with bindings := eventUnbindAllFrom o s.bindings } hs rfl rfl
    simp only [payloadDestroy, taskDestroy]
    rw [← heq _ _ hs']
    cases hspace : first { s with bindings := eventUnbindAllFrom o s.bindings } self.space with
    | error fault => rfl
    | ok t =>
      have ht := hkeep _ _ _ hs' hspace
      exact congrArg (· >>= fun s ↦ freeHeap s self.stack) (heq t self.domain ht)

/-- More depth than there are objects makes no difference. -/
theorem derefWithin_depth (hs : Wf s) {o depth depth' : ℕ}
    (hdepth : s.objects.entries.length < depth) (hdepth' : s.objects.entries.length < depth') :
    derefWithin depth s o = derefWithin depth' s o := by
  induction depth generalizing s o depth' with
  | zero => omega
  | succ depth ih =>
    cases depth' with
    | zero => omega
    | succ depth' =>
      simp only [derefWithin]
      cases hobject : getObject s o with
      | error fault => rfl
      | ok object =>
        have hlength := (entries_perm_erase (getObject_eq_ok.1 hobject)).length_eq
        rw [List.length_cons] at hlength
        have hdestroy : payloadDestroy (derefWithin depth) o
            { s with objects := s.objects.erase o } object.payload =
            payloadDestroy (derefWithin depth') o
            { s with objects := s.objects.erase o } object.payload := by
          apply payloadDestroy_congr fun t ↦ Wf t ∧
            t.objects.entries.length ≤ (s.objects.erase o).entries.length
          · intro t x ht
            exact ih ht.1 (by omega) (by omega)
          · intro t x u ht hderef
            obtain ⟨destroyed, _, hcut⟩ := derefWithin_refines _ x (agrees_payloadAt t) ht.1 hderef
            have htotal := hcut.total fun _ ↦ 1
            rw [total_one, total_one] at htotal
            exact ⟨hcut.wf, by omega⟩
          · intro t u ht hobjects hnext
            exact ⟨ht.1.of_objects hobjects hnext, hobjects ▸ ht.2⟩
          · exact ⟨hs.erase o, Nat.le_refl _⟩
        exact congrArg (fun result ↦ if object.refs = 1 then result else _) hdestroy

end Depth

end Brutal.Kernel
