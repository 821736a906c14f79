import Brutal.Kernel.SpaceTables

/-!
# Looking up physical addresses

`vmm_virt2phys` walks down the tables itself.  It looks at the present bits of the upper tables but
not at that of the last entry, and it leaves out the offset in the page.  It therefore agrees with
the translation only at the first address of a mapped page and where there is no last table, and a
last table is never removed once a page of its region has been mapped.
-/

namespace Brutal.Kernel

open Base Boot Ds Lib

section Lookup

variable {place : UInt64 → Option (ℕ × ℕ)} {vmm vmm' : Vmm} {root addr size : UInt64}

attribute [local grind =] vmmVirt2phys

theorem vmmVirt2phys_of_leads {table : UInt64} (hleads : Leads vmm root (pageNumber addr) 0 table) :
    vmmVirt2phys vmm root ⟨addr, size⟩ =
      .ok ⟨pmlGetAddr (vmm.tables table (slotOf (pageNumber addr) 0)), size⟩ := by
  obtain ⟨pml3, pml2, hpml3, hpml2, hpml1⟩ := hleads.vmmGetPml_eq
  simp only [vmmVirt2phys, pml4GetIndex_slotOf, pml3GetIndex_slotOf, pml2GetIndex_slotOf,
    pml1GetIndex_slotOf, hpml3, hpml2, hpml1, ok_bind, pure_eq_ok]

theorem vmmVirt2phys_of_noTable (hnone : ¬ HasTable vmm root (pageNumber addr)) :
    vmmVirt2phys vmm root ⟨addr, size⟩ = .error .badAddress := by
  simp only [vmmVirt2phys, pml4GetIndex_slotOf, pml3GetIndex_slotOf, pml2GetIndex_slotOf,
    pml1GetIndex_slotOf]
  rcases vmmGetPml_of_noTable hnone with hpml3 | ⟨pml3, hpml3, hpml2 | ⟨pml2, hpml2, hpml1⟩⟩
  · rw [hpml3]
    rfl
  · rw [hpml3, ok_bind, hpml2]
    rfl
  · rw [hpml3, ok_bind, hpml2, ok_bind, hpml1]
    rfl

/-- The lookup gives the address that the processor would use, and fails where there is none. -/
def LookupAgrees (vmm : Vmm) (space addr size : UInt64) : Prop :=
  (vmmVirt2phys vmm space ⟨addr, size⟩).toOption =
    (translate vmm space addr).map fun frame ↦ ⟨frame.physical, size⟩

instance (vmm : Vmm) (space addr size : UInt64) : Decidable (LookupAgrees vmm space addr size) :=
  inferInstanceAs (Decidable (_ = _))

theorem offset_eq_zero_iff : addr % memPageSize = 0 ↔ addr.toNat % 4096 = 0 := by
  rw [← UInt64.toNat_inj, UInt64.toNat_mod]
  rfl

theorem lookupAgrees_iff (h : Placed place vmm) (hroot : TopTable place root) :
    LookupAgrees vmm root addr size ↔
      (translate vmm root addr ≠ none → addr.toNat % 4096 = 0) ∧
        (translate vmm root addr = none → ¬ HasTable vmm root (pageNumber addr)) := by
  have hk := pageNumber_lt addr
  by_cases hhas : HasTable vmm root (pageNumber addr)
  · obtain ⟨table, hleads⟩ := id hhas
    rw [LookupAgrees, vmmVirt2phys_of_leads hleads]
    cases htranslate : translate vmm root addr with
    | none => simp [Except.toOption, hhas]
    | some frame =>
      have hcanonical : Canonical addr := by
        by_contra hnot
        rw [translate_of_not_canonical hnot] at htranslate
        cases htranslate
      rw [translate_of_canonical hcanonical, hleads.walk_eq h hroot hk, walk] at htranslate
      split at htranslate
      next =>
        simp only [Option.map_some, Option.some.injEq] at htranslate
        simp [Except.toOption, ← htranslate, offset_eq_zero_iff]
      next => cases htranslate
  · have hwalk : walk vmm 3 root (pageNumber addr) = none := by
      by_contra hwalk
      exact hhas ((Leads.root).hasTable_of_walk hwalk)
    have hnone : translate vmm root addr = none := by
      unfold translate
      rw [hwalk]
      exact ite_self none
    grind [LookupAgrees, vmmVirt2phys_of_noTable, Except.toOption]

end Lookup

/-- The calls on one space. -/
inductive MapCall where
  | map (virtualRange physicalRange : USizeRange) (flags : BrMemoryFlags)
  | unmap (virtualRange : USizeRange)

/-- One call that returns. -/
def MapStep (space : UInt64) (vmm : Vmm) (call : MapCall) (vmm' : Vmm) : Prop :=
  match call with
  | .map virtualRange physicalRange flags => ∃ result,
      vmmMap vmm space virtualRange physicalRange flags = .ok (result, vmm')
  | .unmap virtualRange => ∃ result, vmmUnmap vmm space virtualRange = .ok (result, vmm')

/-- The call maps a page of the same 2 MiB as this page. -/
def MapCall.Near (page : ℕ) : MapCall → Prop
  | .map virtualRange _ _ => ∃ i < (virtualRange.size / memPageSize).toNat,
      page / 512 = pageAt virtualRange.base i / 512
  | .unmap _ => False

section Runs

variable {place : UInt64 → Option (ℕ × ℕ)} {vmm vmm' : Vmm} {space : UInt64}

/-- A call adds the last tables of the pages that it maps and removes none. -/
theorem MapStep.hasTable_iff {call : MapCall} (h : Placed place vmm) (hspace : TopTable place space)
    (hstep : MapStep space vmm call vmm') :
    ∃ place', Extends place vmm place' vmm' ∧ ∀ page < 2 ^ 36,
      (HasTable vmm' space page ↔ HasTable vmm space page ∨ call.Near page) := by
  cases call with
  | map virtualRange physicalRange flags =>
    obtain ⟨result, hcall⟩ := hstep
    obtain ⟨_, place', hextends, hmaps⟩ := vmmMap_maps h hspace hcall
    refine ⟨place', hextends, fun page hpage ↦ ?_⟩
    rw [hmaps.hasTable_iff page hpage, MapCall.Near]
    simp only [Nat.zero_le, zero_add, true_and]
  | unmap virtualRange =>
    obtain ⟨result, hcall⟩ := hstep
    obtain ⟨_, hextends, hunmaps⟩ := vmmUnmap_unmaps h hspace hcall
    refine ⟨place, hextends, fun page hpage ↦ ?_⟩
    rw [hunmaps.hasTable_iff page hpage, MapCall.Near, or_false]

theorem mapRun_hasTable_iff {calls : List MapCall} (hrun : Run (MapStep space) vmm calls vmm')
    (h : Placed place vmm) (hspace : TopTable place space) :
    ∃ place', Extends place vmm place' vmm' ∧ ∀ page < 2 ^ 36,
      (HasTable vmm' space page ↔ HasTable vmm space page ∨ ∃ call ∈ calls, call.Near page) := by
  induction hrun generalizing place with
  | nil vmm => exact ⟨place, Extends.refl h, by simp⟩
  | cons head _ ih =>
    obtain ⟨place₁, hextends, hhead⟩ := MapStep.hasTable_iff h hspace head
    obtain ⟨place₂, hextends', htail⟩ := ih hextends.placed (hextends.extend _ _ hspace)
    refine ⟨place₂, hextends.trans hextends', fun page hpage ↦ ?_⟩
    rw [htail page hpage, hhead page hpage, or_assoc]
    simp only [List.mem_cons, exists_eq_or_imp]

end Runs

/-- After any calls on a space, the lookup of an address agrees with the translation if and only if
the address is the first of its page when this is mapped, and when it is not, neither was there a
last table for it before nor has a page of its 2 MiB been mapped since. -/
theorem vmmVirt2phys_agrees_iff {start vmm : Vmm} {s : AddressSpaces} {calls : List TableCall}
    {maps : List MapCall} {space : UInt64} (hstart : Ordered start)
    (hrun : Run TableStep ⟨start, []⟩ calls s) (hspace : space ∈ s.roots)
    (hmaps : Run (MapStep space) s.vmm maps vmm) (addr size : UInt64) :
    LookupAgrees vmm space addr size ↔
      (translate vmm space addr ≠ none → addr.toNat % 4096 = 0) ∧
        (translate vmm space addr = none → ¬ HasTable s.vmm space (pageNumber addr) ∧
          ∀ call ∈ maps, ¬ call.Near (pageNumber addr)) := by
  obtain ⟨place, h⟩ := hstart.run hrun
  obtain ⟨place', hextends, htables⟩ := mapRun_hasTable_iff hmaps h.placed (h.top space hspace)
  rw [lookupAgrees_iff hextends.placed (hextends.extend _ _ (h.top space hspace)),
    htables _ (pageNumber_lt addr)]
  simp only [not_or, not_exists, not_and]

/-- A page is mapped at `0x400000` in a new space: the lookup of an address in it leaves out the
offset, and that of the next page, which is not mapped, succeeds. -/
theorem vmmVirt2phys_agrees_fails :
    ∃ start space vmm vmm', Ordered start ∧
      Run TableStep ⟨start, []⟩ [.create space] ⟨vmm, [space]⟩ ∧
      Run (MapStep space) vmm [.map ⟨0x400000, 0x1000⟩ ⟨0x100000, 0x1000⟩ brMemWritable] vmm' ∧
      translate vmm' space 0x400123 = some ⟨0x100123, false, true⟩ ∧
      vmmVirt2phys vmm' space ⟨0x400123, 1⟩ = .ok ⟨0x100000, 1⟩ ∧
      ¬ LookupAgrees vmm' space 0x400123 1 ∧
      translate vmm' space 0x401000 = none ∧
      vmmVirt2phys vmm' space ⟨0x401000, 1⟩ = .ok ⟨0, 1⟩ ∧
      ¬ LookupAgrees vmm' space 0x401000 1 := by
  have hcalls : ∃ start, bareMachine = .ok start ∧ ∃ created,
      vmmSpaceCreate start.vmm = .ok created ∧ ∃ mapped,
        vmmMap created.2 created.1 ⟨0x400000, 0x1000⟩ ⟨0x100000, 0x1000⟩ brMemWritable =
          .ok mapped ∧
        translate mapped.2 created.1 0x400123 = some ⟨0x100123, false, true⟩ ∧
        vmmVirt2phys mapped.2 created.1 ⟨0x400123, 1⟩ = .ok ⟨0x100000, 1⟩ ∧
        ¬ LookupAgrees mapped.2 created.1 0x400123 1 ∧
        translate mapped.2 created.1 0x401000 = none ∧
        vmmVirt2phys mapped.2 created.1 ⟨0x401000, 1⟩ = .ok ⟨0, 1⟩ ∧
        ¬ LookupAgrees mapped.2 created.1 0x401000 1 := by decide +kernel
  obtain ⟨start, hbare, ⟨space, vmm⟩, hcreate, ⟨result, vmm'⟩, hmap, hlookups⟩ := hcalls
  exact ⟨start.vmm, space, vmm, vmm', bareMachine_ordered hbare, .cons ⟨vmm, hcreate, rfl⟩ (.nil _),
    .cons ⟨result, hmap⟩ (.nil _), hlookups⟩

/-- The lookup of the first address of the page agrees. -/
theorem vmmVirt2phys_agrees_first :
    ∃ start space vmm vmm', Ordered start ∧
      Run TableStep ⟨start, []⟩ [.create space] ⟨vmm, [space]⟩ ∧
      Run (MapStep space) vmm [.map ⟨0x400000, 0x1000⟩ ⟨0x100000, 0x1000⟩ brMemWritable] vmm' ∧
      LookupAgrees vmm' space 0x400000 1 := by
  have hcalls : ∃ start, bareMachine = .ok start ∧ ∃ created,
      vmmSpaceCreate start.vmm = .ok created ∧ ∃ mapped,
        vmmMap created.2 created.1 ⟨0x400000, 0x1000⟩ ⟨0x100000, 0x1000⟩ brMemWritable =
          .ok mapped ∧ translate mapped.2 created.1 0x400000 ≠ none := by decide +kernel
  obtain ⟨start, hbare, ⟨space, vmm⟩, hcreate, ⟨result, vmm'⟩, hmap, htranslate⟩ := hcalls
  have hrun : Run TableStep ⟨start.vmm, []⟩ [.create space] ⟨vmm, [space]⟩ :=
    .cons ⟨vmm, hcreate, rfl⟩ (.nil _)
  have hmaps : Run (MapStep space) vmm
      [.map ⟨0x400000, 0x1000⟩ ⟨0x100000, 0x1000⟩ brMemWritable] vmm' :=
    .cons ⟨result, hmap⟩ (.nil _)
  have hmem : space ∈ (⟨vmm, [space]⟩ : AddressSpaces).roots := by simp [AddressSpaces.roots]
  refine ⟨start.vmm, space, vmm, vmm', bareMachine_ordered hbare, hrun, hmaps, ?_⟩
  rw [vmmVirt2phys_agrees_iff (bareMachine_ordered hbare) hrun hmem hmaps]
  exact ⟨fun _ ↦ by decide, fun hnone ↦ absurd hnone htranslate⟩

end Brutal.Kernel
