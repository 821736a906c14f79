import Brutal.Base.Abi
import Brutal.Ds.Slot
import Brutal.Lib.Run

/-!
# Domains

`kernel/domain.c`: the table of the objects that the tasks of a domain can name by a handle.  A
domain does not look into its objects, so their type is a parameter here and `typeOf` gives the
`BrType` of an object.

The table checks a handle as an `int` but is accessed with all of its 64 bits.  The two agree
exactly on the handles that `Unaliased` describes.
-/

namespace Brutal.Kernel

open Base Ds Lib

variable {α : Type*}

/-- `Domain`, without the object header and the lock. -/
structure Domain (α : Type*) where
  objects : Slot α
deriving DecidableEq, Repr

/-- `domain_create` -/
def domainCreate : Domain α := ⟨slotInit⟩

/-- `domain_add`, which takes a reference to the object. -/
def domainAdd (self : Domain α) (object : α) : Except Fault (UInt64 × Domain α) := do
  let (index, objects) ← slotAlloc self.objects
  let handle := UInt64.ofNat index
  let objects ← slotSet objects handle.toNat object
  pure (handle, ⟨objects⟩)

/-- `domain_remove`, with the object whose reference it drops. -/
def domainRemove (self : Domain α) (handle : UInt64) :
    Except Fault (BrResult × Option α × Domain α) :=
  if !slotValid self.objects (toSlotIndex handle) then .ok (.badHandle, none, self)
  else do
    let object ← slotAt self.objects handle.toNat
    let objects ← slotRelease self.objects (toSlotIndex handle)
    pure (.success, object, ⟨objects⟩)

/-- `domain_lookup`, which takes a reference to the object that it returns. -/
def domainLookup (typeOf : α → BrType) (self : Domain α) (handle : UInt64) (type : BrType) :
    Except Fault (Option α) :=
  if !slotValid self.objects (toSlotIndex handle) then .ok none
  else do
    match ← slotAt self.objects handle.toNat with
    | some object =>
      if typeOf object ≠ type && type ≠ .any then pure none else pure (some object)
    | none => .error .outOfBounds

/-- The object in the slot with the number of the handle, when that slot is in use. -/
def stored (self : Domain α) (handle : UInt64) : Option α :=
  match self.objects.cells[handle.toNat]? with
  | some ⟨data, true⟩ => data
  | _ => none

/-- The domain with the slot of the handle no longer in use. -/
def released (self : Domain α) (handle : UInt64) : Domain α :=
  ⟨⟨self.objects.cells.modify handle.toNat fun cell ↦ { cell with used := false }⟩⟩

/-- Looking up and removing act on the slot with the number of the handle and on nothing else. -/
structure Faithful (typeOf : α → BrType) (domain : Domain α) (handle : UInt64) : Prop where
  lookup : ∀ type, domainLookup typeOf domain handle type =
    .ok ((stored domain handle).filter fun object ↦ typeOf object = type || type = .any)
  remove : domainRemove domain handle = .ok
    (match stored domain handle with
    | some object => (.success, some object, released domain handle)
    | none => (.badHandle, none, domain))

/-- The handle fits in 32 bits, or its lower half does not name a slot in use. -/
def Unaliased (self : Domain α) (handle : UInt64) : Prop :=
  handle.toNat < 2 ^ 32 ∨
    ∀ cell, self.objects.cells[handle.toNat % 2 ^ 32]? = some cell → cell.used = false

/-- The capacity is an `int`, and a slot in use holds an object. -/
structure DomainWf (domain : Domain α) : Prop where
  capacity_le : domain.objects.cells.length ≤ slotIndexMax
  used_data : ∀ cell ∈ domain.objects.cells, cell.used = true → cell.data.isSome = true

theorem domainWf_create : DomainWf (domainCreate : Domain α) := by
  constructor
  · exact Nat.zero_le _
  · intro cell hcell
    cases hcell

theorem used_data_append {before after : List (SlotCell α)} {cell : SlotCell α}
    (h : ∀ c ∈ before ++ after, c.used = true → c.data.isSome = true)
    (hcell : cell.used = true → cell.data.isSome = true) :
    ∀ c ∈ before ++ cell :: after, c.used = true → c.data.isSome = true := by
  intro c hc
  rcases List.mem_append.1 hc with hc | hc
  · exact h c (List.mem_append_left _ hc)
  · rcases List.mem_cons.1 hc with rfl | hc
    · exact hcell
    · exact h c (List.mem_append_right _ hc)

/-- Adding an object fills one free slot, possibly a new one. -/
theorem domainAdd_spec {self self' : Domain α} {object : α} {handle : UInt64}
    (h : domainAdd self object = .ok (handle, self')) (hself : DomainWf self) :
    DomainWf self' ∧ ∃ before data after added,
      self.objects.cells ++ List.replicate added ⟨none, false⟩ =
        before ++ ⟨data, false⟩ :: after ∧
      self'.objects.cells = before ++ ⟨some object, true⟩ :: after ∧
      handle.toNat = before.length := by
  simp only [domainAdd, bind_eq_ok, pure_eq_ok, Prod.exists, Prod.mk.injEq] at h
  obtain ⟨index, objects, halloc, objects', hset, rfl, rfl⟩ := h
  obtain ⟨⟨before, data, after, added, hold, hnew, rfl⟩, hcapacity⟩ := slotAlloc_spec halloc
  have hlength := hcapacity hself.capacity_le
  have hindex : (UInt64.ofNat before.length).toNat = before.length := by
    rw [hnew] at hlength
    simp only [List.length_append, List.length_cons] at hlength
    rw [UInt64.toNat_ofNat']
    unfold slotIndexMax at hlength
    omega
  have hcells : objects'.cells = before ++ ⟨some object, true⟩ :: after := by
    unfold slotSet at hset
    rw [hindex, hnew] at hset
    simp at hset
    rw [← hset]
  refine ⟨⟨?_, ?_⟩, before, data, after, added, hold, hcells, hindex⟩
  · rw [hnew] at hlength
    simpa [hcells] using hlength
  · simp only [hcells]
    apply used_data_append _ (fun _ ↦ rfl)
    intro c hc
    have hmem : c ∈ self.objects.cells ++ List.replicate added ⟨none, false⟩ := by
      rw [hold]
      rcases List.mem_append.1 hc with hc | hc <;> simp [hc]
    rcases List.mem_append.1 hmem with hmem | hmem
    · exact hself.used_data c hmem
    · rw [(List.mem_replicate.1 hmem).2]
      simp

/-- The check looks at the slot that the lower half of the handle names. -/
theorem slotValid_eq {self : Domain α} (hself : DomainWf self) (handle : UInt64) :
    slotValid self.objects (toSlotIndex handle) =
      (self.objects.cells[handle.toNat % 2 ^ 32]?.map SlotCell.used).getD false := by
  have hcapacity := hself.capacity_le
  unfold slotIndexMax at hcapacity
  by_cases hlow : handle.toNat % 2 ^ 32 < 2 ^ 31
  · have hindex : toSlotIndex handle = Int.ofNat (handle.toNat % 2 ^ 32) := if_pos hlow
    rw [hindex]
    rfl
  · -- A negative index, and a slot number past every capacity.
    have hindex : toSlotIndex handle = (handle.toNat % 2 ^ 32 : ℕ) - 2 ^ 32 := if_neg hlow
    have hlt := Nat.mod_lt handle.toNat (show 0 < 2 ^ 32 by decide)
    have hnone : self.objects.cells[handle.toNat % 2 ^ 32]? = none :=
      List.getElem?_eq_none (by omega)
    obtain ⟨n, hn⟩ := Int.eq_negSucc_of_lt_zero (show toSlotIndex handle < 0 by omega)
    rw [hn, hnone]
    rfl

/-- A slot in use at the number of the handle, seen through the check. -/
theorem slotValid_of_lt {self : Domain α} (hself : DomainWf self) {handle : UInt64}
    (hlt : handle.toNat < 2 ^ 32) :
    slotValid self.objects (toSlotIndex handle) = (stored self handle).isSome := by
  rw [slotValid_eq hself, Nat.mod_eq_of_lt hlt, stored]
  cases hcell : self.objects.cells[handle.toNat]? with
  | none => rfl
  | some cell =>
    obtain ⟨data, used⟩ := cell
    have hdata := hself.used_data _ (List.mem_of_getElem? hcell)
    cases used with
    | false => rfl
    | true => exact (hdata rfl).symm

/-- The slot of a handle that is in use. -/
theorem stored_eq_some {self : Domain α} {handle : UInt64} {object : α}
    (h : stored self handle = some object) :
    self.objects.cells[handle.toNat]? = some ⟨some object, true⟩ := by
  unfold stored at h
  split at h
  next data hcell =>
    rw [hcell, h]
  next => cases h

theorem domainLookup_of_stored {typeOf : α → BrType} {self : Domain α} {handle : UInt64}
    {object : α} (hvalid : slotValid self.objects (toSlotIndex handle) = true)
    (hstored : stored self handle = some object) (type : BrType) :
    domainLookup typeOf self handle type =
      .ok ((some object).filter fun object ↦ typeOf object = type || type = .any) := by
  have hat : slotAt self.objects handle.toNat = .ok (some object) := by
    rw [slotAt, stored_eq_some hstored]
  rw [domainLookup, hvalid, hat, Option.filter_some]
  by_cases htype : typeOf object = type
  · simp [htype, bind, Except.bind, pure, Except.pure]
  · by_cases hany : type = .any <;>
      simp [htype, hany, bind, Except.bind, pure, Except.pure]

theorem domainRemove_of_stored {self : Domain α} {handle : UInt64} {object : α}
    (hself : DomainWf self) (hstored : stored self handle = some object)
    (hlt : handle.toNat < 2 ^ 32) :
    domainRemove self handle = .ok (.success, some object, released self handle) := by
  have hcell := stored_eq_some hstored
  have hvalid : slotValid self.objects (toSlotIndex handle) = true := by
    rw [slotValid_of_lt hself hlt, hstored]
    rfl
  have hindex : toSlotIndex handle = Int.ofNat handle.toNat := by
    have hcapacity := hself.capacity_le
    have hlength := (List.getElem?_eq_some_iff.1 hcell).1
    unfold slotIndexMax at hcapacity
    rw [toSlotIndex, Nat.mod_eq_of_lt hlt]
    exact if_pos (by omega)
  have hat : slotAt self.objects handle.toNat = .ok (some object) := by
    rw [slotAt, hcell]
  have hrelease : slotRelease self.objects (toSlotIndex handle) =
      .ok ⟨self.objects.cells.set handle.toNat ⟨some object, false⟩⟩ := by
    rw [hindex, slotRelease, hcell]
    rfl
  have hset : self.objects.cells.set handle.toNat ⟨some object, false⟩ =
      self.objects.cells.modify handle.toNat fun cell ↦ { cell with used := false } := by
    rw [List.modify_eq_set_getElem?, hcell]
    rfl
  rw [domainRemove, hvalid, hat, hrelease, released, hset]
  rfl

/-- A handle that the check rejects leads nowhere. -/
theorem rejected (typeOf : α → BrType) {self : Domain α} {handle : UInt64}
    (hvalid : slotValid self.objects (toSlotIndex handle) = false) :
    (∀ type, domainLookup typeOf self handle type = .ok none) ∧
      domainRemove self handle = .ok (.badHandle, none, self) := by
  constructor
  · intro type
    rw [domainLookup, hvalid]
    rfl
  · rw [domainRemove, hvalid]
    rfl

theorem Faithful.of_rejected {typeOf : α → BrType} {self : Domain α} {handle : UInt64}
    (hvalid : slotValid self.objects (toSlotIndex handle) = false)
    (hstored : stored self handle = none) : Faithful typeOf self handle := by
  obtain ⟨hlookup, hremove⟩ := rejected typeOf hvalid
  constructor
  · intro type
    rw [hlookup, hstored]
    rfl
  · rw [hremove, hstored]

theorem stored_of_capacity_le {self : Domain α} {handle : UInt64}
    (h : self.objects.cells.length ≤ handle.toNat) : stored self handle = none := by
  rw [stored, List.getElem?_eq_none h]

/-- A slot in use passes the check. -/
theorem stored_of_invalid {self : Domain α} (hself : DomainWf self) {handle : UInt64}
    (hvalid : slotValid self.objects (toSlotIndex handle) = false) :
    stored self handle = none := by
  by_cases hlt : handle.toNat < 2 ^ 32
  · rw [slotValid_of_lt hself hlt] at hvalid
    exact Option.isNone_iff_eq_none.1 (by simpa using hvalid)
  · have hcapacity := hself.capacity_le
    unfold slotIndexMax at hcapacity
    exact stored_of_capacity_le (by omega)

/-- Looking up and removing are faithful exactly for unaliased handles. -/
theorem faithful_iff {typeOf : α → BrType} {self : Domain α} (hself : DomainWf self)
    (handle : UInt64) : Faithful typeOf self handle ↔ Unaliased self handle := by
  have hcapacity := hself.capacity_le
  unfold slotIndexMax at hcapacity
  constructor
  · intro hfaithful
    by_contra haliased
    simp only [Unaliased, not_or, not_forall, not_lt, Bool.not_eq_false] at haliased
    obtain ⟨hlarge, cell, hcell, hused⟩ := haliased
    have hvalid : slotValid self.objects (toSlotIndex handle) = true := by
      rw [slotValid_eq hself, hcell]
      exact hused
    have hat : slotAt self.objects handle.toNat = .error .outOfBounds := by
      rw [slotAt, List.getElem?_eq_none (by omega)]
    have hremove := hfaithful.remove
    rw [domainRemove, hvalid, hat] at hremove
    cases hremove
  · intro hunaliased
    by_cases hlt : handle.toNat < 2 ^ 32
    · have hvalid := slotValid_of_lt hself hlt
      cases hstored : stored self handle with
      | none => exact Faithful.of_rejected (by rw [hvalid, hstored]; rfl) hstored
      | some object =>
        rw [hstored] at hvalid
        constructor
        · intro type
          rw [domainLookup_of_stored hvalid hstored, hstored]
        · rw [domainRemove_of_stored hself hstored hlt, hstored]
    · have hfree := hunaliased.resolve_left hlt
      apply Faithful.of_rejected
      · rw [slotValid_eq hself]
        cases hcell : self.objects.cells[handle.toNat % 2 ^ 32]? with
        | none => rfl
        | some cell => exact hfree cell hcell
      · exact stored_of_capacity_le (by omega)

/-- A handle that passes the check and whose slot is there. -/
theorem lt_of_slotAt {self : Domain α} (hself : DomainWf self) {handle : UInt64}
    {object : Option α} (hat : slotAt self.objects handle.toNat = .ok object) :
    handle.toNat < 2 ^ 32 := by
  by_contra hlarge
  have hcapacity := hself.capacity_le
  unfold slotIndexMax at hcapacity
  rw [slotAt, List.getElem?_eq_none (by omega)] at hat
  cases hat

/-- Without a type, `domain_lookup` returns what the slot of the handle holds. -/
theorem domainLookup_any {typeOf : α → BrType} {self : Domain α} (hself : DomainWf self)
    {handle : UInt64} {found : Option α}
    (h : domainLookup typeOf self handle .any = .ok found) : found = stored self handle := by
  cases hvalid : slotValid self.objects (toSlotIndex handle) with
  | false =>
    rw [(rejected typeOf hvalid).1] at h
    cases h
    exact (stored_of_invalid hself hvalid).symm
  | true =>
    have hlt : handle.toNat < 2 ^ 32 := by
      rw [domainLookup, hvalid] at h
      simp only [Bool.not_true, Bool.false_eq_true, if_false, bind_eq_ok] at h
      obtain ⟨object, hat, _⟩ := h
      exact lt_of_slotAt hself hat
    have hstored := slotValid_of_lt hself hlt
    rw [hvalid] at hstored
    obtain ⟨o, ho⟩ := Option.isSome_iff_exists.1 hstored.symm
    rw [domainLookup_of_stored hvalid ho, Option.filter_some, if_pos (by simp)] at h
    cases h
    exact ho.symm

/-- Adding an object takes a handle that was not in use and leaves the others as they were. -/
theorem domainAdd_stored {self self' : Domain α} {object : α} {handle : UInt64}
    (hself : DomainWf self) (h : domainAdd self object = .ok (handle, self')) :
    stored self handle = none ∧ stored self' handle = some object ∧
      ∀ other, other ≠ handle → stored self' other = stored self other := by
  obtain ⟨_, before, data, after, added, hold, hnew, hhandle⟩ := domainAdd_spec h hself
  have hpad : ∀ other : UInt64,
      stored ⟨⟨self.objects.cells ++ List.replicate added ⟨none, false⟩⟩⟩ other =
        stored self other := by
    intro other
    by_cases hlt : other.toNat < self.objects.cells.length
    · rw [stored, stored, List.getElem?_append_left hlt]
    · have hge : self.objects.cells.length ≤ other.toNat := by omega
      rw [stored_of_capacity_le hge, stored, List.getElem?_append_right hge,
        List.getElem?_replicate]
      split_ifs <;> rfl
  refine ⟨?_, ?_, fun other hother ↦ ?_⟩
  · rw [← hpad, hold, stored, hhandle, List.getElem?_append_right (Nat.le_refl _), Nat.sub_self]
    rfl
  · rw [stored, hnew, hhandle, List.getElem?_append_right (Nat.le_refl _), Nat.sub_self]
    rfl
  · have hne : other.toNat ≠ before.length := by
      intro heq
      exact hother (UInt64.toNat_inj.1 (heq.trans hhandle.symm))
    have hsame : self'.objects.cells[other.toNat]? =
        (self.objects.cells ++ List.replicate added ⟨none, false⟩)[other.toNat]? := by
      rw [hold, hnew]
      rcases Nat.lt_or_gt_of_ne hne with hlt | hgt
      · rw [List.getElem?_append_left hlt, List.getElem?_append_left hlt]
      · obtain ⟨k, hk⟩ : ∃ k, other.toNat - before.length = k + 1 :=
          ⟨other.toNat - before.length - 1, by omega⟩
        rw [List.getElem?_append_right (by omega), List.getElem?_append_right (by omega), hk,
          List.getElem?_cons_succ, List.getElem?_cons_succ]
    rw [← hpad, stored, stored, hsame]

/-- `domain_lookup` finds what is stored. -/
theorem domainLookup_any_iff {typeOf : α → BrType} {self : Domain α} (hself : DomainWf self)
    {handle : UInt64} {object : α} :
    domainLookup typeOf self handle .any = .ok (some object) ↔
      stored self handle = some object := by
  constructor
  · intro h
    exact (domainLookup_any hself h).symm
  · intro h
    have hlength := (List.getElem?_eq_some_iff.1 (stored_eq_some h)).1
    have hcapacity := hself.capacity_le
    unfold slotIndexMax at hcapacity
    have hvalid : slotValid self.objects (toSlotIndex handle) = true := by
      rw [slotValid_of_lt hself (by omega), h]
      rfl
    rw [domainLookup_of_stored hvalid h, Option.filter_some, if_pos (by simp)]

/-- The calls that change a domain. -/
inductive DomainCall (α : Type*) where
  | add (object : α)
  | remove (handle : UInt64)

def domainNext (self : Domain α) : DomainCall α → Except Fault (Domain α)
  | .add object => do
    let (_, self) ← domainAdd self object
    pure self
  | .remove handle => do
    let (_, _, self) ← domainRemove self handle
    pure self

theorem released_wf {self : Domain α} (hself : DomainWf self) (handle : UInt64) :
    DomainWf (released self handle) := by
  constructor
  · rw [released, List.length_modify]
    exact hself.capacity_le
  · intro cell hcell hused
    obtain ⟨i, hi⟩ := List.mem_iff_getElem?.1 hcell
    rw [released, List.getElem?_modify] at hi
    obtain ⟨old, hold, rfl⟩ := Option.map_eq_some_iff.1 hi
    have hdata := hself.used_data old (List.mem_of_getElem? hold)
    split at hused
    next => cases hused
    next hne =>
      rw [if_neg hne]
      exact hdata hused

/-- The two ways in which `domain_remove` returns. -/
theorem domainRemove_cases {self self' : Domain α} {handle : UInt64} {result : BrResult}
    {object : Option α} (h : domainRemove self handle = .ok (result, object, self'))
    (hself : DomainWf self) :
    (stored self handle = none ∧ result = .badHandle ∧ object = none ∧ self' = self) ∨
      ∃ o, stored self handle = some o ∧ result = .success ∧ object = some o ∧
        self' = released self handle := by
  cases hvalid : slotValid self.objects (toSlotIndex handle) with
  | false =>
    rw [(rejected (fun _ ↦ .any) hvalid).2] at h
    cases h
    exact Or.inl ⟨stored_of_invalid hself hvalid, rfl, rfl, rfl⟩
  | true =>
    have hlt : handle.toNat < 2 ^ 32 := by
      rw [domainRemove, hvalid] at h
      simp only [Bool.not_true, Bool.false_eq_true, if_false, bind_eq_ok] at h
      obtain ⟨object, hat, _⟩ := h
      exact lt_of_slotAt hself hat
    rw [slotValid_of_lt hself hlt] at hvalid
    obtain ⟨o, hstored⟩ := Option.isSome_iff_exists.1 hvalid
    rw [domainRemove_of_stored hself hstored hlt] at h
    cases h
    exact Or.inr ⟨o, hstored, rfl, rfl, rfl⟩

theorem domainRemove_wf {self self' : Domain α} {handle : UInt64} {result : BrResult}
    {object : Option α} (h : domainRemove self handle = .ok (result, object, self'))
    (hself : DomainWf self) : DomainWf self' := by
  rcases domainRemove_cases h hself with ⟨_, _, _, rfl⟩ | ⟨o, _, _, _, rfl⟩
  · exact hself
  · exact released_wf hself handle

theorem domainNext_wf {self self' : Domain α} {call : DomainCall α}
    (h : domainNext self call = .ok self') (hself : DomainWf self) : DomainWf self' := by
  cases call with
  | add object =>
    simp only [domainNext, bind_eq_ok, pure_eq_ok, Prod.exists] at h
    obtain ⟨handle, added, hadd, rfl⟩ := h
    exact (domainAdd_spec hadd hself).1
  | remove handle =>
    simp only [domainNext, bind_eq_ok, pure_eq_ok, Prod.exists] at h
    obtain ⟨result, object, removed, hremove, rfl⟩ := h
    exact domainRemove_wf hremove hself

/-- In every reachable domain, `domain_lookup` and `domain_remove` decide a handle on all of its
64 bits exactly when it is unaliased. -/
theorem domain_faithful_iff {typeOf : α → BrType} {calls : List (DomainCall α)} {self : Domain α}
    (hrun : Run (Succeeds domainNext) domainCreate calls self) (handle : UInt64) :
    Faithful typeOf self handle ↔ Unaliased self handle :=
  faithful_iff (hrun.invariant (fun _ _ _ hs hstep ↦ domainNext_wf hstep hs) domainWf_create)
    handle

/-- The domain after one task was added to it. -/
theorem domain_faithful_iff_task :
    ∃ self : Domain BrType, Run (Succeeds domainNext) domainCreate [.add .task] self ∧
      Faithful id self 0 := by
  obtain ⟨self, hself⟩ : ∃ self : Domain BrType,
      domainNext domainCreate (.add .task) = .ok self := ⟨_, rfl⟩
  have hrun : Run (Succeeds domainNext) domainCreate [.add .task] self := .cons hself (.nil self)
  exact ⟨self, hrun, (domain_faithful_iff hrun 0).mpr (Or.inl (by decide))⟩

/-- The handle `2 ^ 32` passes the check as the handle `0` and is then used as an index. -/
theorem domain_faithful_fails :
    ∃ self : Domain BrType, Run (Succeeds domainNext) domainCreate [.add .task] self ∧
      domainLookup id self 0x100000000 .task = .error .outOfBounds ∧
      ¬ Faithful id self 0x100000000 := by
  obtain ⟨self, hself⟩ : ∃ self : Domain BrType,
      domainNext domainCreate (.add .task) = .ok self := ⟨_, rfl⟩
  have hlookup : domainLookup id self 0x100000000 .task = .error .outOfBounds := by
    cases hself
    rfl
  refine ⟨self, .cons hself (.nil self), hlookup, fun hfaithful ↦ ?_⟩
  have hspec := hfaithful.lookup .task
  rw [hlookup] at hspec
  cases hspec

end Brutal.Kernel
