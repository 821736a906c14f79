import Brutal.Kernel.Domain

/-!
# A domain is a finite map

What a domain is for is a map from handles to objects: adding an object binds a handle that was not
live, removing a live handle unbinds it, and every other handle keeps what it stands for.  The table
of slots behind it reuses slots and grows by copying; the calls on it answer as the calls on the map
do, as long as the handles that they are given fit in the `int` that the table checks.
-/

namespace Brutal.Kernel

open Base Ds Lib

variable {α : Type*}

/-- A call on a domain with its answer. -/
inductive DomainEvent (α : Type*) where
  | add (object : α) (handle : UInt64)
  | remove (handle : UInt64) (result : BrResult)
  | lookup (handle : UInt64) (type : BrType) (found : Option α)

/-- The handles that a call is given fit in 31 bits. -/
def DomainEvent.Fits : DomainEvent α → Prop
  | .add _ _ => True
  | .remove handle _ => handle.toNat < 2 ^ 31
  | .lookup handle _ _ => handle.toNat < 2 ^ 31

/-- The call on the domain gives this answer. -/
def domainAnswers (typeOf : α → BrType) (self : Domain α) (event : DomainEvent α)
    (self' : Domain α) : Prop :=
  match event with
  | .add object handle => domainAdd self object = .ok (handle, self')
  | .remove handle result => ∃ dropped, domainRemove self handle = .ok (result, dropped, self')
  | .lookup handle type found => domainLookup typeOf self handle type = .ok found ∧ self' = self

/-- What a domain is meant to be: the objects by their handles. -/
abbrev HandleMap (α : Type*) := UInt64 → Option α

/-- The call on the map gives this answer. -/
def mapAnswers (typeOf : α → BrType) (map : HandleMap α) (event : DomainEvent α)
    (map' : HandleMap α) : Prop :=
  match event with
  | .add object handle => map handle = none ∧ map' = Function.update map handle (some object)
  | .remove handle result =>
    (map handle = none ∧ result = .badHandle ∧ map' = map) ∨
      ((map handle).isSome = true ∧ result = .success ∧ map' = Function.update map handle none)
  | .lookup handle type found =>
    found = (map handle).filter (fun object ↦ typeOf object = type || type = .any) ∧ map' = map

/-- The handle that is removed is the only one that changes. -/
theorem stored_released {self : Domain α} {handle : UInt64} {object : α}
    (h : stored self handle = some object) :
    stored (released self handle) = Function.update (stored self) handle none := by
  funext other
  rw [Function.update_apply]
  split
  next heq =>
    rw [heq, stored, released, List.getElem?_modify, stored_eq_some h]
    simp
  next hne =>
    have hindex : handle.toNat ≠ other.toNat := fun heq ↦ hne (UInt64.toNat_inj.1 heq).symm
    rw [stored, released, List.getElem?_modify, stored]
    simp [hindex]

/-- What a call on the domain answers and leaves, the call on the map does. -/
theorem mapAnswers_of_domainAnswers {typeOf : α → BrType} {self self' : Domain α}
    {event : DomainEvent α} (hself : DomainWf self) (hfits : event.Fits)
    (h : domainAnswers typeOf self event self') :
    mapAnswers typeOf (stored self) event (stored self') := by
  cases event with
  | add object handle =>
    obtain ⟨hfree, hbound, hothers⟩ := domainAdd_stored hself h
    refine ⟨hfree, ?_⟩
    funext other
    rw [Function.update_apply]
    split
    next heq => rw [heq, hbound]
    next hne => exact hothers other hne
  | remove handle result =>
    obtain ⟨dropped, hremove⟩ := h
    rcases domainRemove_cases hremove hself with ⟨hnone, rfl, _, rfl⟩ | ⟨o, ho, rfl, _, rfl⟩
    · exact Or.inl ⟨hnone, rfl, rfl⟩
    · exact Or.inr ⟨by rw [ho]; rfl, rfl, stored_released ho⟩
  | lookup handle type found =>
    obtain ⟨hlookup, rfl⟩ := h
    have hunaliased : Unaliased self' handle :=
      Or.inl (lt_trans (show handle.toNat < 2 ^ 31 from hfits) (by decide))
    rw [((faithful_iff hself handle).2 hunaliased).lookup type] at hlookup
    exact ⟨(Except.ok.inj hlookup).symm, rfl⟩

theorem domainAnswers_wf {typeOf : α → BrType} {self self' : Domain α} {event : DomainEvent α}
    (hself : DomainWf self) (h : domainAnswers typeOf self event self') : DomainWf self' := by
  cases event with
  | add object handle => exact (domainAdd_spec h hself).1
  | remove handle result =>
    obtain ⟨dropped, hremove⟩ := h
    exact domainRemove_wf hremove hself
  | lookup handle type found => exact h.2 ▸ hself

/-- Adding an object returns exactly when there is a free slot or the table can grow. -/
theorem domainAdd_returns_iff {self : Domain α} (hself : DomainWf self) (object : α) :
    (∃ handle self', domainAdd self object = .ok (handle, self') ∧ handle.toNat < 2 ^ 31) ↔
      SlotRoom self.objects := by
  rw [← slotAlloc_returns_iff]
  constructor
  · rintro ⟨handle, self', hadd, -⟩
    obtain ⟨allocated, halloc, -⟩ := bind_eq_ok.mp hadd
    exact ⟨allocated, halloc⟩
  · rintro ⟨⟨index, objects⟩, halloc⟩
    obtain ⟨⟨before, data, after, added, _, hnew, rfl⟩, hcapacity⟩ := slotAlloc_spec halloc
    have hlength := hcapacity hself.capacity_le
    rw [hnew, List.length_append, List.length_cons] at hlength
    unfold slotIndexMax at hlength
    have hindex : (UInt64.ofNat before.length).toNat = before.length := by
      rw [UInt64.toNat_ofNat']
      omega
    have hcell : objects.cells[before.length]? = some ⟨data, true⟩ := by
      rw [hnew, List.getElem?_append_right (Nat.le_refl _), Nat.sub_self]
      rfl
    have hset : slotSet objects before.length object =
        .ok ⟨objects.cells.set before.length ⟨some object, true⟩⟩ := by
      unfold slotSet
      rw [hcell]
    refine ⟨UInt64.ofNat before.length, ⟨⟨objects.cells.set before.length ⟨some object, true⟩⟩⟩,
      ?_, by omega⟩
    rw [domainAdd, halloc, ok_bind]
    dsimp only
    rw [hindex, hset]
    rfl

/-- Removing and looking up a handle that fits return. -/
theorem domain_returns (typeOf : α → BrType) {self : Domain α} (hself : DomainWf self)
    {handle : UInt64} (hfits : handle.toNat < 2 ^ 31) :
    (∃ result self', domainAnswers typeOf self (.remove handle result) self') ∧
      ∀ type, ∃ found, domainAnswers typeOf self (.lookup handle type found) self := by
  have hfaithful : Faithful typeOf self handle :=
    (faithful_iff hself handle).2 (Or.inl (lt_trans hfits (by decide)))
  constructor
  · have hremove := hfaithful.remove
    cases hstored : stored self handle with
    | none => exact ⟨_, _, none, by rw [hremove, hstored]⟩
    | some object => exact ⟨_, _, some object, by rw [hremove, hstored]⟩
  · exact fun type ↦ ⟨_, hfaithful.lookup type, rfl⟩

/-- What a sequence of calls on a new domain answers, the same calls on the empty map answer, and
the domain then stores what the map binds.  Calls on handles that fit return, and adding an object
returns exactly when there is a free slot or the table can grow. -/
theorem domain_refinesMap {typeOf : α → BrType} {events : List (DomainEvent α)} {self : Domain α}
    (hrun : Run (Guarded (domainAnswers typeOf) fun _ event ↦ event.Fits) domainCreate events
      self) :
    Run (mapAnswers typeOf) (fun _ ↦ none) events (stored self) ∧
      (∀ handle, handle.toNat < 2 ^ 31 →
        (∃ result self', domainAnswers typeOf self (.remove handle result) self') ∧
          ∀ type, ∃ found, domainAnswers typeOf self (.lookup handle type found) self) ∧
      ∀ object, (∃ handle self', domainAnswers typeOf self (.add object handle) self' ∧
          handle.toNat < 2 ^ 31) ↔ SlotRoom self.objects := by
  have hhistory : DomainWf self ∧ Run (mapAnswers typeOf) (fun _ ↦ none) events (stored self) := by
    have hnew : stored (domainCreate : Domain α) = fun _ ↦ none := rfl
    apply hrun.history (motive := fun events self ↦ DomainWf self ∧
      Run (mapAnswers typeOf) (fun _ ↦ none) events (stored self))
    · exact ⟨domainWf_create, hnew ▸ .nil _⟩
    · rintro events self event self' ⟨hself, hmap⟩ ⟨hfits, hstep⟩
      exact ⟨domainAnswers_wf hself hstep,
        hmap.append (.cons (mapAnswers_of_domainAnswers hself hfits hstep) (.nil _))⟩
  exact ⟨hhistory.2, fun _ hfits ↦ domain_returns typeOf hhistory.1 hfits,
    domainAdd_returns_iff hhistory.1⟩

/-- A handle that was removed is given out again, for another object. -/
theorem domain_refinesMap_reuse :
    ∃ self : Domain BrType, Run (mapAnswers id) (fun _ ↦ none)
      [.add .task 0, .add .space 1, .remove 0 .success, .add .memory 0, .lookup 0 .memory
        (some .memory), .lookup 1 .any (some .space), .remove 2 .badHandle] (stored self) := by
  have hzero : (0 : UInt64).toNat < 2 ^ 31 := by decide
  have hone : (1 : UInt64).toNat < 2 ^ 31 := by decide
  have htwo : (2 : UInt64).toNat < 2 ^ 31 := by decide
  have hrun : ∃ self : Domain BrType,
      Run (Guarded (domainAnswers id) fun _ event ↦ event.Fits) domainCreate
        [.add .task 0, .add .space 1, .remove 0 .success, .add .memory 0, .lookup 0 .memory
          (some .memory), .lookup 1 .any (some .space), .remove 2 .badHandle] self :=
    ⟨_, .cons ⟨trivial, rfl⟩ (.cons ⟨trivial, rfl⟩ (.cons ⟨hzero, _, rfl⟩ (.cons ⟨trivial, rfl⟩
      (.cons ⟨hzero, rfl, rfl⟩ (.cons ⟨hone, rfl, rfl⟩ (.cons ⟨htwo, _, rfl⟩ (.nil _)))))))⟩
  obtain ⟨self, hrun⟩ := hrun
  exact ⟨self, (domain_refinesMap hrun).1⟩

/-- A domain whose first handles stand for the same object, and whose other slots are new. -/
def filled (object : α) (count capacity : ℕ) : Domain α :=
  ⟨⟨List.replicate count ⟨some object, true⟩ ++
    List.replicate (capacity - count) ⟨none, false⟩⟩⟩

/-- The additions of one object that are given the first handles. -/
def additions (object : α) (count : ℕ) : List (DomainEvent α) :=
  (List.range count).map fun index ↦ .add object (UInt64.ofNat index)

/-- The object was added so often, and the table has so many slots. -/
def Fills (typeOf : α → BrType) (object : α) (count capacity : ℕ) : Prop :=
  Run (Guarded (domainAnswers typeOf) fun _ event ↦ event.Fits) domainCreate
    (additions object count) (filled object count capacity)

variable {typeOf : α → BrType} {object : α} {count capacity : ℕ}

theorem slotFind_filled (count left : ℕ) :
    slotFind (List.replicate count ⟨some object, true⟩ ++
        List.replicate (left + 1) ⟨none, false⟩) =
      some (count, List.replicate count ⟨some object, true⟩ ++
        ⟨none, true⟩ :: List.replicate left ⟨none, false⟩) := by
  induction count with
  | zero => rfl
  | succ count ih =>
    rw [List.replicate_succ, List.cons_append, slotFind, ih]
    rfl

/-- The slot that is found gets the next handle. -/
theorem Fills.add {left : ℕ} (h : Fills typeOf object count capacity)
    (hcount : count ≤ slotIndexMax)
    (halloc : slotAlloc (filled object count capacity).objects =
      .ok (count, ⟨List.replicate count ⟨some object, true⟩ ++
        ⟨none, true⟩ :: List.replicate left ⟨none, false⟩⟩)) :
    Fills typeOf object (count + 1) (count + 1 + left) := by
  unfold slotIndexMax at hcount
  have hindex : (UInt64.ofNat count).toNat = count := by
    rw [UInt64.toNat_ofNat']
    omega
  have hset : slotSet ⟨List.replicate count ⟨some object, true⟩ ++
      ⟨none, true⟩ :: List.replicate left ⟨none, false⟩⟩ count object =
        .ok (filled object (count + 1) (count + 1 + left)).objects := by
    have hlength : (List.replicate count (⟨some object, true⟩ : SlotCell α)).length = count :=
      List.length_replicate
    rw [slotSet, List.getElem?_append_right (Nat.le_of_eq hlength), hlength, Nat.sub_self,
      List.getElem?_cons_zero]
    dsimp only
    rw [List.set_append_right _ _ (Nat.le_of_eq hlength), hlength, Nat.sub_self,
      List.set_cons_zero, filled, List.replicate_succ', Nat.add_sub_cancel_left, List.append_assoc]
    rfl
  have hadd : domainAdd (filled object count capacity) object =
      .ok (UInt64.ofNat count, filled object (count + 1) (count + 1 + left)) := by
    rw [domainAdd, halloc, ok_bind]
    dsimp only
    rw [hindex, hset]
    rfl
  have hmore : additions object (count + 1) =
      additions object count ++ [.add object (UInt64.ofNat count)] := by
    rw [additions, List.range_succ, List.map_append]
    rfl
  rw [Fills, hmore]
  exact Run.append h (.cons ⟨trivial, hadd⟩ (.nil _))

theorem length_filled (h : count ≤ capacity) :
    (filled object count capacity).objects.cells.length = capacity := by
  simp only [filled, List.length_append, List.length_replicate]
  omega

/-- Without a growth, the next new slot is found. -/
theorem Fills.next (h : Fills typeOf object count capacity) (hcapacity : 16 ≤ capacity)
    (hle : capacity ≤ slotIndexMax) (hcount : count < capacity) :
    Fills typeOf object (count + 1) capacity := by
  obtain ⟨left, rfl⟩ := Nat.exists_eq_add_of_lt hcount
  have hadd := @Fills.add _ typeOf object count _ left h (by omega) (by
    have hsame : slotCapacity (filled object count (count + left + 1)).objects 16 =
        .ok (filled object count (count + left + 1)).objects :=
      if_pos (by rw [length_filled (by omega)]; exact hcapacity)
    rw [slotAlloc, hsame, ok_bind, filled]
    dsimp only
    rw [Nat.add_assoc, Nat.add_sub_cancel_left, slotFind_filled])
  rwa [Nat.add_right_comm] at hadd

theorem Fills.upTo (h : Fills typeOf object count capacity) (hcapacity : 16 ≤ capacity)
    (hle : capacity ≤ slotIndexMax) (more : ℕ) (hmore : count + more ≤ capacity) :
    Fills typeOf object (count + more) capacity := by
  induction more with
  | zero => exact h
  | succ more ih => exact (ih (by omega)).next hcapacity hle (by omega)

/-- A full table grows, and is filled again. -/
theorem Fills.grow (h : Fills typeOf object capacity capacity) (hcapacity : 16 ≤ capacity)
    (hbytes : slotDataSize * capacity ≤ slotIndexMax) :
    Fills typeOf object (capacity + capacity / 4) (capacity + capacity / 4) := by
  have hbound : slotDataSize * capacity = 8 * capacity := rfl
  have hmax : slotIndexMax = 2 ^ 31 - 1 := rfl
  obtain ⟨left, hleft⟩ : ∃ left, capacity / 4 = left + 1 := ⟨capacity / 4 - 1, by omega⟩
  have hlength : (filled object capacity capacity).objects.cells.length = capacity :=
    length_filled (Nat.le_refl _)
  have hsame : slotCapacity (filled object capacity capacity).objects 16 =
      .ok (filled object capacity capacity).objects := if_pos (by rw [hlength]; exact hcapacity)
  have hfull : (filled object capacity capacity).objects.cells =
      List.replicate capacity ⟨some object, true⟩ := by
    rw [filled, Nat.sub_self]
    exact List.append_nil _
  have hnone : slotFind (filled object capacity capacity).objects.cells = none := by
    rw [hfull]
    exact slotFind_eq_none fun cell hcell ↦ (List.mem_replicate.mp hcell).2 ▸ rfl
  have hgrown : slotCapacity (filled object capacity capacity).objects (capacity + (left + 1)) =
      .ok ⟨List.replicate capacity ⟨some object, true⟩ ++
        List.replicate (left + 1) ⟨none, false⟩⟩ := by
    rw [slotCapacity, hlength, if_neg (by omega), if_neg (by omega), hfull,
      Nat.add_sub_cancel_left]
  have hadd := @Fills.add _ typeOf object capacity _ left h (by omega) (by
    rw [slotAlloc, hsame, ok_bind, hnone]
    dsimp only
    rw [hlength, hleft, if_neg (by omega), hgrown, ok_bind]
    dsimp only
    rw [slotFind_filled])
  have hall := hadd.upTo (by omega) (by omega) left (by omega)
  rwa [hleft, ← Nat.add_assoc, Nat.add_right_comm]

theorem fills_first (typeOf : α → BrType) (object : α) : Fills typeOf object 16 16 := by
  have hone := @Fills.add _ typeOf object 0 0 15 (.nil _) (Nat.zero_le _) rfl
  exact hone.upTo (Nat.le_refl _) (by decide) 15 (Nat.le_refl _)

/-- The capacity of a table after so many growths. -/
def capacityAfter (growths : ℕ) : ℕ :=
  Nat.repeat (fun capacity ↦ capacity + capacity / 4) growths 16

theorem fills_capacityAfter (typeOf : α → BrType) (object : α) {growths : ℕ}
    (hbytes : ∀ before < growths, slotDataSize * capacityAfter before ≤ slotIndexMax) :
    16 ≤ capacityAfter growths ∧
      Fills typeOf object (capacityAfter growths) (capacityAfter growths) := by
  induction growths with
  | zero => exact ⟨Nat.le_refl _, fills_first typeOf object⟩
  | succ growths ih =>
    obtain ⟨hcapacity, hfills⟩ := ih fun before hlt ↦ hbytes before (Nat.lt_succ_of_lt hlt)
    have hgrow := hfills.grow hcapacity (hbytes growths (Nat.lt_succ_self _))
    exact ⟨Nat.le_trans hcapacity (Nat.le_add_right _ _), hgrow⟩

/-- When 276252081 objects were added, the table does not grow for another one. -/
theorem domain_refinesMap_fails :
    ∃ self : Domain BrType,
      Run (Guarded (domainAnswers id) fun _ event ↦ event.Fits) domainCreate
        (additions .task 276252081) self ∧
      ¬ ∃ handle self', domainAnswers id self (.add .memory handle) self' := by
  have hcapacity : capacityAfter 75 = 276252081 := by decide +kernel
  have hfills := (@fills_capacityAfter _ id BrType.task 75 (by decide +kernel)).2
  rw [hcapacity] at hfills
  refine ⟨_, hfills, ?_⟩
  rintro ⟨handle, self', hadd⟩
  obtain ⟨allocated, halloc, -⟩ := bind_eq_ok.mp hadd
  rcases (slotAlloc_returns_iff _).mp ⟨allocated, halloc⟩ with ⟨cell, hcell, hfree⟩ | hbytes
  · rw [filled, Nat.sub_self] at hcell
    have hmem := (List.append_nil _ ▸ hcell : cell ∈ List.replicate 276252081 _)
    rw [(List.mem_replicate.mp hmem).2] at hfree
    cases hfree
  · rw [length_filled (Nat.le_refl _)] at hbytes
    exact absurd hbytes (by decide)

end Brutal.Kernel
