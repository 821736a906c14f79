import Brutal.Ds.FreeRanges
import Brutal.Kernel.SpaceTables

/-!
# The books of a space

A space records its mappings in a vector and the addresses that are free in a range allocator, and
nothing compares the two.  That mappings do not overlap follows from the page tables, in which a
page cannot be mapped twice; that what is mapped is not free follows from the free ranges, as long
as every chosen range can be cut out of them.
-/

namespace Brutal.Kernel

open Base Boot Ds Lib

variable {result : SpaceResult} {vmm : Vmm} {space : Space Memory}

/-- A space and the page tables. -/
structure SpaceInUse where
  space : Space Memory
  vmm : Vmm

/-- The space among those that the kernel has. -/
def SpaceInUse.addressSpaces (s : SpaceInUse) : AddressSpaces := ⟨s.vmm, [s.space.vmm]⟩

/-- The calls on the space with their results, and what the rest of the kernel does. -/
inductive SpaceUse where
  | map (memory : Memory) (offset size vaddr : UInt64) (flags : BrMemoryFlags)
      (result : SpaceResult)
  | unmap (range : USizeRange) (result : SpaceResult)
  | other (calls : List PmmCall) (tables : UInt64 → ℕ → PmlEntry)

/-- One call that returns. -/
def UseStep (s : SpaceInUse) (call : SpaceUse) (s' : SpaceInUse) : Prop :=
  match call with
  | .map memory offset size vaddr flags result =>
    spaceMap s.space s.vmm memory memory offset size vaddr flags = .ok (result, s'.space, s'.vmm)
  | .unmap range result => ∃ object,
    spaceUnmap s.space s.vmm range = .ok (result, object, s'.space, s'.vmm)
  | .other calls tables => s'.space = s.space ∧
    TableStep s.addressSpaces (.other calls tables) s'.addressSpaces

/-- A space that was just made. -/
def SpaceInUse.Created (s : SpaceInUse) : Prop :=
  ∃ memory vmm, Ordered vmm ∧ spaceCreate memory vmm = .ok (s.space, s.vmm)

/-- A request is not empty and ends in the lower half. -/
def SpaceInUse.Fits (s : SpaceInUse) (size vaddr : UInt64) : Prop :=
  size ≠ 0 ∧ ∀ base, mapBase s.space size vaddr = some base →
    base.toNat + size.toNat ≤ 2 ^ 47

def Requested (s : SpaceInUse) : SpaceUse → Prop
  | .map memory _ size vaddr _ _ => s.Fits (mapSize memory size) vaddr
  | _ => True

/-- A chosen range can be cut out of the free ranges. -/
def CleanRequest (s : SpaceInUse) : SpaceUse → Prop
  | .map memory _ size vaddr _ _ => vaddr ≠ 0 → CleanCut s.space.alloc ⟨vaddr, mapSize memory size⟩
  | _ => True

variable {place : UInt64 → Option (ℕ × ℕ)} {s s' : SpaceInUse}

/-- Everything in the vector is mapped, and nothing twice. -/
structure Backed (place : UInt64 → Option (ℕ × ℕ)) (s : SpaceInUse) : Prop where
  spaces : PlacedSpaces place s.addressSpaces
  lower : ∀ mapping ∈ s.space.mmaps, LowerHalf mapping.range
  nonempty : ∀ mapping ∈ s.space.mmaps, mapping.range.size ≠ 0
  mapped : ∀ mapping ∈ s.space.mmaps, ∀ addr ∈ mapping.range,
    translate s.vmm s.space.vmm addr ≠ none
  apart : s.space.mmaps.Pairwise fun mapping other ↦ Ds.Apart mapping.range other.range

theorem Backed.placed (h : Backed place s) : Placed place s.vmm := h.spaces.placed

theorem Backed.top (h : Backed place s) : TopTable place s.space.vmm :=
  h.spaces.top _ (by simp [SpaceInUse.addressSpaces, AddressSpaces.roots])

theorem SpaceInUse.Created.backed (h : s.Created) :
    s.space.mmaps = [] ∧ ∃ place, Backed place s := by
  obtain ⟨memory, vmm, ⟨place, hplaced, hkpml⟩, hcall⟩ := h
  simp only [spaceCreate, bind_eq_ok, pure_eq_ok, Prod.exists, Prod.mk.injEq] at hcall
  obtain ⟨table, vmm', hcreate, alloc, _, hspace, hvmm⟩ := hcall
  obtain ⟨place', hextends, htop⟩ := vmmSpaceCreate_extends hplaced hkpml hcreate
  have hmmaps : s.space.mmaps = [] := by rw [← hspace]
  refine ⟨hmmaps, place', ⟨?_, ?_⟩, ?_, ?_, ?_, ?_⟩
  · show Placed place' s.vmm
    rw [← hvmm]
    exact hextends.placed
  · intro root hroot
    rcases List.mem_cons.1 hroot with rfl | hroot
    · show TopTable place' s.vmm.kpml
      rw [← hvmm, hextends.kpml_eq]
      exact hextends.extend _ _ hkpml
    · rw [List.mem_singleton.1 hroot, ← hspace]
      exact htop
  all_goals simp [hmmaps]

/-- A range that was mapped just now. -/
theorem Backed.map {memory : Memory} {offset size vaddr : UInt64} {flags : BrMemoryFlags}
    {range : USizeRange} (h : Backed place s) (hfits : s.Fits (mapSize memory size) vaddr)
    (hstep : UseStep s (.map memory offset size vaddr flags (.ok range)) s') :
    (∃ place', Backed place' s') ∧ LowerHalf range ∧
      (∀ addr ∈ range, translate s.vmm s.space.vmm addr = none) ∧
      ∃ physicalRange : USizeRange, translate s'.vmm s.space.vmm =
        Translation.map (translate s.vmm s.space.vmm) range physicalRange
          (brMemUser ||| flags) := by
  obtain ⟨_, hsize, hbase, ⟨alloc, hspace⟩, result, hmap⟩ := spaceMap_spec hstep
  obtain ⟨hne, hbound⟩ := hfits
  obtain ⟨haligned, hphysical⟩ := vmmMap_aligned hmap
  have hlower : LowerHalf range := ⟨haligned, by rw [hsize]; exact hbound _ hbase⟩
  obtain ⟨_, place', hextends, hmaps⟩ := vmmMap_maps h.placed h.top hmap
  have htranslate := hmaps.translate_eq hlower (memIsRangePageAligned_iff.1 hphysical).1
  have hfree : ∀ addr ∈ range, translate s.vmm s.space.vmm addr = none := fun addr hmem ↦
    hmaps.free hlower hmem
  have hmmaps : s'.space.mmaps = s.space.mmaps ++ [⟨range, memory, offset⟩] := by rw [hspace]
  have htable : s'.space.vmm = s.space.vmm := by rw [hspace]
  refine ⟨⟨place', ?_, ?_, ?_, ?_, ?_⟩, hlower, hfree, _, htranslate⟩
  · have hspaces := h.spaces.extends hextends
    rwa [SpaceInUse.addressSpaces, htable]
  · intro mapping hmem
    rw [hmmaps, List.mem_append, List.mem_singleton] at hmem
    rcases hmem with hold | rfl
    · exact h.lower mapping hold
    · exact hlower
  · intro mapping hmem
    rw [hmmaps, List.mem_append, List.mem_singleton] at hmem
    rcases hmem with hold | rfl
    · exact h.nonempty mapping hold
    · show range.size ≠ 0
      rwa [hsize]
  · intro mapping hmem addr haddr
    rw [htable, htranslate, Translation.map]
    split
    next => exact Option.some_ne_none _
    next hout =>
      rw [hmmaps, List.mem_append, List.mem_singleton] at hmem
      rcases hmem with hold | rfl
      · exact h.mapped mapping hold addr haddr
      · exact absurd haddr hout
  · rw [hmmaps, List.pairwise_append]
    refine ⟨h.apart, List.pairwise_singleton _ _, ?_⟩
    intro mapping hmem other hother addr haddr haddr'
    rw [List.mem_singleton] at hother
    subst hother
    exact h.mapped mapping hmem addr haddr (hfree addr haddr')

/-- A request that is refused leaves everything but the free ranges alone. -/
theorem Backed.refused {memory : Memory} {offset size vaddr : UInt64} {flags : BrMemoryFlags}
    {err : BrResult} (h : Backed place s)
    (hstep : UseStep s (.map memory offset size vaddr flags (.error err)) s') :
    Backed place s' := by
  obtain ⟨⟨alloc, hspace⟩, hvmm⟩ := spaceMap_error hstep
  have hmmaps : s'.space.mmaps = s.space.mmaps := by rw [hspace]
  have htable : s'.space.vmm = s.space.vmm := by rw [hspace]
  constructor
  · rw [SpaceInUse.addressSpaces, hvmm, htable]
    exact h.spaces
  · rw [hmmaps]
    exact h.lower
  · rw [hmmaps]
    exact h.nonempty
  · rw [hmmaps, hvmm, htable]
    exact h.mapped
  · rw [hmmaps]
    exact h.apart

theorem Backed.unmap {range : USizeRange} (h : Backed place s)
    (hstep : UseStep s (.unmap range result) s') : Backed place s' := by
  obtain ⟨object, hcall⟩ := hstep
  rcases spaceUnmap_spec hcall with ⟨_, hspace, hvmm⟩ |
    ⟨before, mapping, after, hmmaps, _, hspace, outcome, hunmap⟩
  · constructor
    · rw [SpaceInUse.addressSpaces, hvmm, hspace]
      exact h.spaces
    · rw [hspace]
      exact h.lower
    · rw [hspace]
      exact h.nonempty
    · rw [hvmm, hspace]
      exact h.mapped
    · rw [hspace]
      exact h.apart
  · have hmapping : mapping ∈ s.space.mmaps := by simp [hmmaps]
    obtain ⟨_, hextends, hunmaps⟩ := vmmUnmap_unmaps h.placed h.top hunmap
    have htranslate := hunmaps.translate_eq (h.lower mapping hmapping)
    have hmmaps' : s'.space.mmaps = before ++ after := by rw [hspace]
    have htable : s'.space.vmm = s.space.vmm := by rw [hspace]
    have hsub : ∀ other ∈ s'.space.mmaps, other ∈ s.space.mmaps := by
      intro other hother
      rw [hmmaps', List.mem_append] at hother
      rw [hmmaps]
      exact List.mem_append.2 (hother.imp_right (List.mem_cons_of_mem _))
    have hapart := h.apart
    rw [hmmaps, List.pairwise_append, List.pairwise_cons] at hapart
    obtain ⟨hbefore, ⟨hfront, hafter⟩, hacross⟩ := hapart
    constructor
    · have hspaces := h.spaces.extends hextends
      rwa [SpaceInUse.addressSpaces, htable]
    · exact fun other hother ↦ h.lower other (hsub other hother)
    · exact fun other hother ↦ h.nonempty other (hsub other hother)
    · intro other hother addr haddr
      have hout : addr ∉ mapping.range := by
        rw [hmmaps', List.mem_append] at hother
        rcases hother with hother | hother
        · exact hacross other hother mapping (List.mem_cons_self ..) addr haddr
        · exact (hfront other hother).symm addr haddr
      rw [htable, htranslate, Translation.unmap, if_neg hout]
      exact h.mapped other (hsub other hother) addr haddr
    · rw [hmmaps', List.pairwise_append]
      exact ⟨hbefore, hafter, fun mapping hmem other hother ↦
        hacross mapping hmem other (List.mem_cons_of_mem _ hother)⟩

theorem Backed.other {calls : List PmmCall} {tables : UInt64 → ℕ → PmlEntry} (h : Backed place s)
    (hstep : UseStep s (.other calls tables) s') : ∃ place', Backed place' s' := by
  obtain ⟨hspace, pmm, hrun, hkeep, hsame, hspaces⟩ := hstep
  obtain ⟨place', hplaced⟩ := h.spaces.other hrun hkeep hsame
  have hvmm : s'.vmm = { s.vmm with pmm, tables } := congrArg AddressSpaces.vmm hspaces
  have htranslate : translate s'.vmm s.space.vmm = translate s.vmm s.space.vmm := by
    rw [hvmm]
    apply translate_eq_of_sameTables
    intro l table htable
    exact hsame table ⟨s.space.vmm, by simp [SpaceInUse.addressSpaces, AddressSpaces.roots], l,
      htable⟩
  refine ⟨place', ?_, ?_, ?_, ?_, ?_⟩
  · rw [hspaces]
    exact hplaced
  · rw [hspace]
    exact h.lower
  · rw [hspace]
    exact h.nonempty
  · rw [hspace, htranslate]
    exact h.mapped
  · rw [hspace]
    exact h.apart

theorem Backed.step {call : SpaceUse} (h : Backed place s) (hrequest : Requested s call)
    (hstep : UseStep s call s') : ∃ place', Backed place' s' := by
  cases call with
  | map memory offset size vaddr flags result =>
    cases result with
    | error err => exact ⟨place, h.refused hstep⟩
    | ok range => exact (h.map hrequest hstep).1
  | unmap range result => exact ⟨place, h.unmap hstep⟩
  | other calls tables => exact h.other hstep

theorem SpaceInUse.Created.run {start : SpaceInUse} {calls : List SpaceUse}
    (hcreated : start.Created) (hrun : Run (Guarded UseStep Requested) start calls s) :
    ∃ place, Backed place s := by
  have hkeep : ∀ s call s', (∃ place, Backed place s) → Guarded UseStep Requested s call s' →
      ∃ place, Backed place s' := fun _ _ _ ⟨_, h⟩ ⟨hrequest, hstep⟩ ↦ h.step hrequest hstep
  exact hrun.invariant hkeep hcreated.backed.2

/-! ## The free ranges -/

/-- The free ranges are in order, and none of them is mapped. -/
structure Tidy (space : Space Memory) : Prop where
  gapped : Gapped space.alloc
  free : ∀ mapping ∈ space.mmaps, ∀ i < space.alloc.len, Ds.Apart mapping.range (space.alloc.data i)

theorem SpaceInUse.Created.tidy (h : s.Created) : Tidy s.space := by
  obtain ⟨hmmaps, _⟩ := h.backed
  obtain ⟨memory, vmm, _, hcall⟩ := h
  simp only [spaceCreate, bind_eq_ok, pure_eq_ok, Prod.exists, Prod.mk.injEq] at hcall
  obtain ⟨table, vmm', _, alloc, hunused, hspace, _⟩ := hcall
  cases hunused
  have hone : s.space.alloc.len = 1 := by rw [← hspace]; rfl
  have hdata : s.space.alloc.data 0 = ⟨0x400000, 0x800000000000⟩ := by
    rw [← hspace]
    simp [vecPush, rangeAllocInit, vecInit]
  have hzero : ∀ i < s.space.alloc.len, i = 0 := by omega
  refine ⟨⟨fun i hi ↦ ?_, fun i hi ↦ ?_, fun i j hij hj ↦ ?_⟩, by simp [hmmaps]⟩
  · rw [hzero i hi, hdata]
    decide
  · rw [hzero i hi, hdata]
    decide
  · have hj' := hzero j hj
    omega

/-- Where a request gets its range from. -/
theorem spaceMap_place {self self' : Space Memory} {vmm vmm' : Vmm} {memory : Memory}
    {offset size vaddr : UInt64} {flags : BrMemoryFlags}
    (h : spaceMap self vmm memory memory offset size vaddr flags = .ok (result, self', vmm')) :
    (memorySize memory < offset + mapSize memory size ∧ result = .error .badArguments ∧
        self' = self ∧ vmm' = vmm) ∨
      ¬ memorySize memory < offset + mapSize memory size ∧ ∃ placed,
        spacePlace self (mapSize memory size) vaddr = .ok (result, placed) ∧
        self'.alloc = placed.alloc := by
  unfold spaceMap at h
  dsimp only at h
  split at h
  next hlarge =>
    cases h
    exact Or.inl ⟨hlarge, rfl, rfl, rfl⟩
  next hfits =>
    refine Or.inr ⟨hfits, ?_⟩
    simp only [bind_eq_ok, Prod.exists] at h
    obtain ⟨place, placed, hplace, h⟩ := h
    cases place with
    | error err =>
      cases h
      exact ⟨_, hplace, rfl⟩
    | ok range =>
      simp only [bind_eq_ok, Prod.exists, pure_eq_ok, Prod.mk.injEq, spaceMmapCreate] at h
      obtain ⟨_, _, ⟨_, _, _, rfl, rfl⟩, rfl, rfl, rfl⟩ := h
      exact ⟨placed, hplace, rfl⟩

/-- Finding a range keeps the free ranges in order, and the range is not free any more. -/
theorem Tidy.found {space placed : Space Memory} {size vaddr : UInt64} (h : Tidy space)
    (hsize : size ≠ 0) (hbound : vaddr ≠ 0 → vaddr.toNat + size.toNat ≤ 2 ^ 47)
    (hclean : vaddr ≠ 0 → CleanCut space.alloc ⟨vaddr, size⟩)
    (hcall : spacePlace space size vaddr = .ok (result, placed)) :
    Shrinks space.alloc placed.alloc ∧ ∀ range, result = .ok range →
      ∀ i < placed.alloc.len, Ds.Apart range (placed.alloc.data i) := by
  unfold spacePlace at hcall
  split at hcall
  next =>
    simp only [bind_eq_ok, Prod.exists] at hcall
    obtain ⟨found, alloc, halloc, hcall⟩ := hcall
    obtain ⟨hshrinks, hfound⟩ := rangeAllocAlloc_gapped h.gapped hsize halloc
    split at hcall
    next =>
      cases hcall
      exact ⟨hshrinks, fun range hrange ↦ by cases hrange⟩
    next hne =>
      cases hcall
      refine ⟨hshrinks, fun range hrange i hi ↦ ?_⟩
      cases hrange
      exact ((hfound (by simpa using hne)).2.2 i hi).symm
  next hne =>
    have hchosen : vaddr ≠ 0 := by simpa using hne
    simp only [bind_eq_ok, pure_eq_ok, Prod.mk.injEq] at hcall
    obtain ⟨alloc, hused, rfl, rfl⟩ := hcall
    have hbounded : USizeRange.Bounded ⟨vaddr, size⟩ := lt_of_le_of_lt (hbound hchosen) (by decide)
    have hnonempty : vaddr.toNat < USizeRange.finish ⟨vaddr, size⟩ :=
      Nat.lt_add_of_pos_right (Nat.pos_of_ne_zero fun hzero ↦ hsize (UInt64.toNat_inj.1 hzero))
    obtain ⟨hshrinks, hapart⟩ :=
      rangeAllocUsed_clean h.gapped hbounded hnonempty (hclean hchosen) hused
    refine ⟨hshrinks, fun range hrange i hi ↦ ?_⟩
    cases hrange
    exact (hapart i hi).symm

theorem Tidy.step {call : SpaceUse} (h : Tidy s.space) (hrequest : Requested s call)
    (hclean : CleanRequest s call) (hstep : UseStep s call s') : Tidy s'.space := by
  cases call with
  | map memory offset size vaddr flags result =>
    obtain ⟨hsize, hbound⟩ := hrequest
    have hchosen : vaddr ≠ 0 → vaddr.toNat + (mapSize memory size).toNat ≤ 2 ^ 47 := fun hne ↦
      hbound vaddr (if_neg (by simpa using hne))
    rcases spaceMap_place hstep with ⟨_, _, hspace, _⟩ | ⟨_, placed, hplace, halloc⟩
    · rw [hspace]
      exact h
    · obtain ⟨hshrinks, hapart⟩ := h.found hsize hchosen hclean hplace
      rw [← halloc] at hshrinks hapart
      refine ⟨hshrinks.gapped, fun mapping hmem i hi ↦ ?_⟩
      have hold : mapping ∈ s.space.mmaps → Ds.Apart mapping.range (s'.space.alloc.data i) := by
        intro hmem
        obtain ⟨k, hk, hwithin⟩ := hshrinks.within i hi
        exact (h.free mapping hmem k hk).within hwithin
      cases result with
      | error err =>
        obtain ⟨⟨alloc, hspace⟩, _⟩ := spaceMap_error hstep
        rw [hspace] at hmem
        exact hold hmem
      | ok range =>
        obtain ⟨_, _, _, ⟨alloc, hspace⟩, _⟩ := spaceMap_spec hstep
        rw [hspace, List.mem_append, List.mem_singleton] at hmem
        rcases hmem with hmem | rfl
        · exact hold hmem
        · exact hapart range rfl i hi
  | unmap range result =>
    obtain ⟨object, hcall⟩ := hstep
    rcases spaceUnmap_spec hcall with ⟨_, hspace, _⟩ |
      ⟨before, mapping, after, hmmaps, _, hspace, _⟩
    · rw [hspace]
      exact h
    · rw [hspace]
      refine ⟨h.gapped, fun other hother ↦ h.free other ?_⟩
      rw [hmmaps]
      exact List.mem_append.2 ((List.mem_append.1 hother).imp_right (List.mem_cons_of_mem _))
  | other calls tables =>
    rw [hstep.1]
    exact h

/-- The request is answered with an error and changes nothing. -/
def Refused (s : SpaceInUse) (memory : Memory) (offset size vaddr : UInt64)
    (flags : BrMemoryFlags) : Prop :=
  ∃ err, spaceMap s.space s.vmm memory memory offset size vaddr flags =
    .ok (.error err, s.space, s.vmm)

section Requests

variable {memory : Memory} {offset size vaddr : UInt64} {flags : BrMemoryFlags}

/-- A chosen range is always taken. -/
theorem spacePlace_chosen {space placed : Space Memory} {err : BrResult} (hchosen : vaddr ≠ 0) :
    spacePlace space size vaddr ≠ .ok (.error err, placed) := by
  intro hcall
  rw [spacePlace, if_neg (by simpa using hchosen)] at hcall
  obtain ⟨alloc, _, hcall⟩ := bind_eq_ok.1 hcall
  cases hcall

/-- With a chosen address only a request that exceeds the memory object is refused. -/
theorem refused_iff (hchosen : vaddr ≠ 0) : Refused s memory offset size vaddr flags ↔
    memorySize memory < offset + mapSize memory size := by
  constructor
  · rintro ⟨err, hcall⟩
    rcases spaceMap_place hcall with ⟨hlarge, _⟩ | ⟨_, placed, hplace, _⟩
    · exact hlarge
    · exact absurd hplace (spacePlace_chosen hchosen)
  · intro hlarge
    exact ⟨.badArguments, if_pos hlarge⟩

/-- A request for a range that overlaps a mapping never returns otherwise. -/
theorem Backed.overlap_stops {mapping : Mmap Memory} (h : Backed place s) (hchosen : vaddr ≠ 0)
    (hfits : s.Fits (mapSize memory size) vaddr) (hmem : mapping ∈ s.space.mmaps)
    (hoverlap : ¬ Ds.Apart mapping.range ⟨vaddr, mapSize memory size⟩)
    (hlarge : ¬ memorySize memory < offset + mapSize memory size)
    (outcome : SpaceResult × Space Memory × Vmm) :
    spaceMap s.space s.vmm memory memory offset size vaddr flags ≠ .ok outcome := by
  intro hcall
  obtain ⟨result, space', vmm'⟩ := outcome
  cases result with
  | error err =>
    rcases spaceMap_place hcall with ⟨hlarge', _⟩ | ⟨_, placed, hplace, _⟩
    · exact hlarge hlarge'
    · exact absurd hplace (spacePlace_chosen hchosen)
  | ok range =>
    have hstep : UseStep s (.map memory offset size vaddr flags (.ok range)) ⟨space', vmm'⟩ := hcall
    obtain ⟨_, _, hfree, _⟩ := h.map hfits hstep
    obtain ⟨_, hsize, hbase, _⟩ := spaceMap_spec hcall
    rw [mapBase, if_neg (by simpa using hchosen)] at hbase
    have hrange : range = ⟨vaddr, mapSize memory size⟩ := by
      rw [← hsize, Option.some.inj hbase]
    rw [← hrange] at hoverlap
    exact hoverlap fun addr haddr haddr' ↦ h.mapped mapping hmem addr haddr (hfree addr haddr')

end Requests

/-- A memory object of two pages. -/
def twoPages : Memory := ⟨.dma, ⟨0x100000, 0x2000⟩⟩

theorem bareMachine_created {start : Machine} {memory : ℕ → USizeRange}
    (hbare : bareMachine = .ok start) (hcreate : spaceCreate memory start.vmm = .ok (space, vmm)) :
    SpaceInUse.Created ⟨space, vmm⟩ :=
  ⟨memory, start.vmm, bareMachine_ordered hbare, hcreate⟩

theorem fits_chosen {size vaddr : UInt64} (hsize : size ≠ 0) (hchosen : vaddr ≠ 0)
    (hbound : vaddr.toNat + size.toNat ≤ 2 ^ 47) : SpaceInUse.Fits ⟨space, vmm⟩ size vaddr := by
  refine ⟨hsize, fun base hbase ↦ ?_⟩
  rw [mapBase, if_neg (by simpa using hchosen)] at hbase
  rw [← Option.some.inj hbase]
  exact hbound

/-- As long as every chosen range can be cut out of the free ranges, mappings do not overlap each
other nor what is free; and a request that overlaps a mapping is refused if and only if it exceeds
its memory object, and does not return otherwise. -/
theorem spaceCalls_bookkeeping {start : SpaceInUse} {calls : List SpaceUse}
    (hcreated : start.Created)
    (hrun : Run (Guarded UseStep fun s call ↦ Requested s call ∧ CleanRequest s call) start calls
      s) :
    (s.space.mmaps.Pairwise fun mapping other ↦ Ds.Apart mapping.range other.range) ∧
      (∀ mapping ∈ s.space.mmaps, ∀ i < s.space.alloc.len,
        Ds.Apart mapping.range (s.space.alloc.data i)) ∧
      ∀ memory offset size vaddr flags, vaddr ≠ 0 → s.Fits (mapSize memory size) vaddr →
        ∀ mapping ∈ s.space.mmaps, ¬ Ds.Apart mapping.range ⟨vaddr, mapSize memory size⟩ →
          (Refused s memory offset size vaddr flags ↔
              memorySize memory < offset + mapSize memory size) ∧
            (¬ memorySize memory < offset + mapSize memory size → ∀ outcome,
              spaceMap s.space s.vmm memory memory offset size vaddr flags ≠ .ok outcome) := by
  have htidy : Tidy s.space := by
    have hkeep : ∀ s call s', Tidy s.space →
        Guarded UseStep (fun s call ↦ Requested s call ∧ CleanRequest s call) s call s' →
        Tidy s'.space := fun _ _ _ h ⟨hrequest, hstep⟩ ↦ h.step hrequest.1 hrequest.2 hstep
    exact hrun.invariant hkeep hcreated.tidy
  obtain ⟨place, hbacked⟩ := hcreated.run
    (hrun.mono fun _ _ _ ⟨hrequest, hstep⟩ ↦ ⟨hrequest.1, hstep⟩)
  refine ⟨hbacked.apart, htidy.free, ?_⟩
  intro memory offset size vaddr flags hchosen hfits mapping hmem hoverlap
  exact ⟨refused_iff hchosen, fun hlarge outcome ↦
    hbacked.overlap_stops hchosen hfits hmem hoverlap hlarge outcome⟩

/-- A page is mapped at a chosen address in a new space. -/
theorem spaceCalls_bookkeeping_onePage :
    ∃ start s, start.Created ∧
      Run (Guarded UseStep fun s call ↦ Requested s call ∧ CleanRequest s call) start
        [.map onePage 0 0 0x401000 brMemWritable (.ok ⟨0x401000, 0x1000⟩)] s ∧
      ∀ mapping ∈ s.space.mmaps, ∀ i < s.space.alloc.len,
        Ds.Apart mapping.range (s.space.alloc.data i) := by
  have hcalls : ∃ start, bareMachine = .ok start ∧ ∃ created,
      spaceCreate (fun _ ↦ ⟨0, 0⟩) start.vmm = .ok created ∧
        CleanCut created.1.alloc ⟨0x401000, 0x1000⟩ ∧ ∃ mapped,
          spaceMap created.1 created.2 onePage onePage 0 0 0x401000 brMemWritable = .ok mapped ∧
            mapped.1 = .ok ⟨0x401000, 0x1000⟩ := by decide +kernel
  obtain ⟨start, hbare, ⟨space, vmm⟩, hcreate, hclean, ⟨result, space', vmm'⟩, hmap, hresult⟩ :=
    hcalls
  have hcreated := bareMachine_created hbare hcreate
  have hstep : UseStep ⟨space, vmm⟩ (.map onePage 0 0 0x401000 brMemWritable result)
      ⟨space', vmm'⟩ := hmap
  dsimp only at hresult
  rw [hresult] at hstep
  have hfits : SpaceInUse.Fits ⟨space, vmm⟩ (mapSize onePage 0) 0x401000 :=
    fits_chosen (by decide) (by decide) (by decide)
  have hrun : Run (Guarded UseStep fun s call ↦ Requested s call ∧ CleanRequest s call)
      ⟨space, vmm⟩ [.map onePage 0 0 0x401000 brMemWritable (.ok ⟨0x401000, 0x1000⟩)]
      ⟨space', vmm'⟩ := .cons ⟨⟨hfits, fun _ ↦ hclean⟩, hstep⟩ (.nil _)
  exact ⟨_, _, hcreated, hrun, (spaceCalls_bookkeeping hcreated hrun).2.1⟩

/-- An address is mapped, according to the vector, and free. -/
def MappedAndFree (space : Space Memory) (addr : UInt64) : Prop :=
  ∃ mapping ∈ space.mmaps, ∃ i < space.alloc.len,
    addr ∈ mapping.range ∧ addr ∈ space.alloc.data i

instance (space : Space Memory) (addr : UInt64) : Decidable (MappedAndFree space addr) :=
  inferInstanceAs (Decidable (∃ mapping ∈ space.mmaps, ∃ i < space.alloc.len,
    addr ∈ mapping.range ∧ addr ∈ space.alloc.data i))

/-- Two pages are mapped around a free page: this stays free.  Mapping over a mapping stops the
kernel. -/
theorem spaceCalls_bookkeeping_fails :
    ∃ start s, start.Created ∧
      Run (Guarded UseStep Requested) start
        [.map onePage 0 0 0x401000 brMemWritable (.ok ⟨0x401000, 0x1000⟩),
          .map twoPages 0 0 0x3ff000 brMemWritable (.ok ⟨0x3ff000, 0x2000⟩)] s ∧
      (¬ ∀ mapping ∈ s.space.mmaps, ∀ i < s.space.alloc.len,
        Ds.Apart mapping.range (s.space.alloc.data i)) ∧
      spaceMap s.space s.vmm onePage onePage 0 0 0x401000 brMemWritable = .error .panic := by
  have hcalls : ∃ start, bareMachine = .ok start ∧ ∃ created,
      spaceCreate (fun _ ↦ ⟨0, 0⟩) start.vmm = .ok created ∧ ∃ first,
        spaceMap created.1 created.2 onePage onePage 0 0 0x401000 brMemWritable = .ok first ∧
        first.1 = .ok ⟨0x401000, 0x1000⟩ ∧ ∃ second,
          spaceMap first.2.1 first.2.2 twoPages twoPages 0 0 0x3ff000 brMemWritable =
            .ok second ∧
          second.1 = .ok ⟨0x3ff000, 0x2000⟩ ∧ MappedAndFree second.2.1 0x400000 ∧
          (spaceMap second.2.1 second.2.2 onePage onePage 0 0 0x401000 brMemWritable).map
            (fun _ ↦ ()) = .error .panic := by decide +kernel
  obtain ⟨start, hbare, ⟨space, vmm⟩, hcreate, ⟨result₁, space₁, vmm₁⟩, hmap₁, hresult₁,
    ⟨result₂, space₂, vmm₂⟩, hmap₂, hresult₂, ⟨mapping, hmem, i, hi, haddr, haddr'⟩, hstops⟩ :=
    hcalls
  have hstep₁ : UseStep ⟨space, vmm⟩ (.map onePage 0 0 0x401000 brMemWritable result₁)
      ⟨space₁, vmm₁⟩ := hmap₁
  have hstep₂ : UseStep ⟨space₁, vmm₁⟩ (.map twoPages 0 0 0x3ff000 brMemWritable result₂)
      ⟨space₂, vmm₂⟩ := hmap₂
  dsimp only at hresult₁ hresult₂ hstops
  rw [hresult₁] at hstep₁
  rw [hresult₂] at hstep₂
  refine ⟨⟨space, vmm⟩, ⟨space₂, vmm₂⟩, bareMachine_created hbare hcreate,
    .cons ⟨fits_chosen (by decide) (by decide) (by decide), hstep₁⟩
      (.cons ⟨fits_chosen (by decide) (by decide) (by decide), hstep₂⟩ (.nil _)), ?_, ?_⟩
  · intro hall
    exact hall mapping hmem i hi 0x400000 haddr haddr'
  · cases hcall : spaceMap space₂ vmm₂ onePage onePage 0 0 0x401000 brMemWritable with
    | error fault =>
      rw [hcall] at hstops
      simpa [Except.map] using hstops
    | ok outcome =>
      rw [hcall] at hstops
      cases hstops

end Brutal.Kernel
