import Brutal.Kernel.MapPage

/-!
# Ranges of pages

What `vmm_map` and `vmm_unmap` do to the map from addresses to frames: all addresses of a range are
mapped, one after the other, to those of the physical range, or none of them is mapped any more.
-/

namespace Brutal.Kernel

open Base Boot Ds Lib

variable {i left : ℕ} {range : USizeRange} {addr : UInt64} {result : VmmResult}

/-- Which frame each address is mapped to, if any. -/
abbrev Translation := UInt64 → Option Frame

/-- A range is mapped to a physical range. -/
def Translation.map (translation : Translation) (virtualRange physicalRange : USizeRange)
    (flags : BrMemoryFlags) : Translation := fun addr ↦
  if addr ∈ virtualRange then
    some ⟨physicalRange.base + (addr - virtualRange.base), flags &&& brMemUser != 0,
      flags &&& brMemWritable != 0⟩
  else translation addr

/-- Nothing of a range is mapped. -/
def Translation.unmap (translation : Translation) (virtualRange : USizeRange) : Translation :=
  fun addr ↦ if addr ∈ virtualRange then none else translation addr

/-- Unmapping takes back the mapping of a range that was not mapped. -/
theorem Translation.unmap_map {translation : Translation}
    {virtualRange physicalRange : USizeRange} (flags : BrMemoryFlags)
    (hfree : ∀ addr ∈ virtualRange, translation addr = none) :
    (translation.map virtualRange physicalRange flags).unmap virtualRange = translation := by
  funext addr
  by_cases hmem : addr ∈ virtualRange
  · rw [Translation.unmap, if_pos hmem, hfree addr hmem]
  · rw [Translation.unmap, if_neg hmem, Translation.map, if_neg hmem]

/-- The number of the page at this index of a range. -/
def pageAt (base : UInt64) (i : ℕ) : ℕ := pageNumber (UInt64.ofNat i * memPageSize + base)

theorem pageAt_lt (base : UInt64) (i : ℕ) : pageAt base i < 2 ^ 36 := pageNumber_lt _

variable {place place' : UInt64 → Option (ℕ × ℕ)} {vmm vmm' : Vmm} {root flags : UInt64}
  {virtualRange physicalRange : USizeRange}

/-- The pages from an index on were mapped, and no other page was touched. -/
structure MapsPages (vmm : Vmm) (root : UInt64) (virtualRange physicalRange : USizeRange)
    (flags : BrMemoryFlags) (i left : ℕ) (vmm' : Vmm) : Prop where
  before : ∀ j, i ≤ j → j < i + left → walk vmm 3 root (pageAt virtualRange.base j) = none
  self : ∀ j, i ≤ j → j < i + left → walk vmm' 3 root (pageAt virtualRange.base j) =
    some (entryFrame (pmlMakeEntry (UInt64.ofNat j * memPageSize + physicalRange.base) flags))
  other : ∀ p < 2 ^ 36, (∀ j, i ≤ j → j < i + left → p ≠ pageAt virtualRange.base j) →
    walk vmm' 3 root p = walk vmm 3 root p
  hasTable_iff : ∀ p < 2 ^ 36, HasTable vmm' root p ↔ HasTable vmm root p ∨
    ∃ j, i ≤ j ∧ j < i + left ∧ p / 512 = pageAt virtualRange.base j / 512

/-- One more page in front. -/
theorem MapsPage.cons {vmm₁ : Vmm} (hhead : MapsPage vmm root (pageAt virtualRange.base i)
      (pmlMakeEntry (UInt64.ofNat i * memPageSize + physicalRange.base) flags) vmm₁)
    (htail : MapsPages vmm₁ root virtualRange physicalRange flags (i + 1) left vmm') :
    MapsPages vmm root virtualRange physicalRange flags i (left + 1) vmm' := by
  have hne : ∀ j, i + 1 ≤ j → j < i + 1 + left →
      pageAt virtualRange.base j ≠ pageAt virtualRange.base i := by
    intro j hlow hhigh heq
    have hnone := htail.before j hlow hhigh
    rw [heq, hhead.self] at hnone
    cases hnone
  constructor
  · intro j hlow hhigh
    rcases Nat.eq_or_lt_of_le hlow with rfl | hlt
    · exact hhead.before
    · rw [← hhead.other _ (pageAt_lt _ _) (hne j hlt (by omega))]
      exact htail.before j hlt (by omega)
  · intro j hlow hhigh
    rcases Nat.eq_or_lt_of_le hlow with rfl | hlt
    · rw [htail.other _ (pageAt_lt _ _) fun j' hlow' hhigh' ↦ (hne j' hlow' hhigh').symm]
      exact hhead.self
    · exact htail.self j hlt (by omega)
  · intro p hp hall
    rw [htail.other p hp fun j hlow hhigh ↦ hall j (by omega) (by omega)]
    exact hhead.other p hp (hall i le_rfl (by omega))
  · intro p hp
    rw [htail.hasTable_iff p hp, hhead.hasTable_iff p hp, or_assoc]
    apply or_congr_right
    constructor
    · rintro (heq | ⟨j, hlow, hhigh, heq⟩)
      · exact ⟨i, le_rfl, by omega, heq⟩
      · exact ⟨j, by omega, by omega, heq⟩
    · rintro ⟨j, hlow, hhigh, heq⟩
      rcases Nat.eq_or_lt_of_le hlow with rfl | hlt
      · exact Or.inl heq
      · exact Or.inr ⟨j, hlt, by omega, heq⟩

theorem mapPages_maps (h : Placed place vmm) (hroot : TopTable place root)
    (hcall : mapPages root virtualRange physicalRange flags left i vmm = .ok vmm') :
    ∃ place', Extends place vmm place' vmm' ∧
      MapsPages vmm root virtualRange physicalRange flags i left vmm' := by
  induction left generalizing i vmm place with
  | zero =>
    cases hcall
    refine ⟨place, Extends.refl h, by omega, by omega, fun _ _ _ ↦ rfl, fun p _ ↦ ?_⟩
    exact ⟨Or.inl, fun hhas ↦ hhas.elim id fun ⟨j, _, _, _⟩ ↦ by omega⟩
  | succ left ih =>
    simp only [mapPages, bind_eq_ok, Prod.exists] at hcall
    obtain ⟨result, vmm₁, hpage, hcall⟩ := hcall
    obtain ⟨place₁, hextends, hhead⟩ := vmmMapPage_maps h hroot hpage
    obtain ⟨place₂, hextends', htail⟩ := ih hextends.placed (hextends.extend _ _ hroot) hcall
    exact ⟨place₂, hextends.trans hextends', hhead.cons htail⟩

/-- Pages that are not mapped and differ from each other can be mapped. -/
theorem mapPages_returns (h : Placed place vmm) (hroot : TopTable place root)
    (hfree : ∀ j, i ≤ j → j < i + left → walk vmm 3 root (pageAt virtualRange.base j) = none)
    (hinj : ∀ j j', i ≤ j → j < j' → j' < i + left →
      pageAt virtualRange.base j' ≠ pageAt virtualRange.base j)
    (hheap : HeapReturns (3 * left) vmm.pmm) :
    ∃ vmm', mapPages root virtualRange physicalRange flags left i vmm = .ok vmm' := by
  induction left generalizing i vmm place with
  | zero => exact ⟨vmm, rfl⟩
  | succ left ih =>
    have hreturns : ∃ result vmm₁, vmmMapPage vmm root
        (UInt64.ofNat i * memPageSize + virtualRange.base)
        (UInt64.ofNat i * memPageSize + physicalRange.base) flags = .ok (result, vmm₁) ∧
        HeapReturns (3 * left) vmm₁.pmm :=
      vmmMapPage_returns h hroot (hfree i le_rfl (by omega)) hheap
    obtain ⟨result, vmm₁, hpage, hrest⟩ := hreturns
    obtain ⟨place₁, hextends, hhead⟩ := vmmMapPage_maps h hroot hpage
    have hfree' : ∀ j, i + 1 ≤ j → j < i + 1 + left →
        walk vmm₁ 3 root (pageAt virtualRange.base j) = none := by
      intro j hlow hhigh
      rw [hhead.other _ (pageAt_lt _ _) (hinj i j le_rfl hlow (by omega))]
      exact hfree j (by omega) (by omega)
    obtain ⟨vmm₂, htail⟩ := ih hextends.placed (hextends.extend _ _ hroot) hfree'
      (fun j j' hlow hlt hhigh ↦ hinj j j' (by omega) hlt (by omega)) hrest
    refine ⟨vmm₂, ?_⟩
    simp only [mapPages, hpage, ok_bind]
    exact htail

/-- The pages from an index on were unmapped, and no other page was touched. -/
structure UnmapsPages (vmm : Vmm) (root base : UInt64) (i left : ℕ) (vmm' : Vmm) : Prop where
  self : ∀ j, i ≤ j → j < i + left → walk vmm' 3 root (pageAt base j) = none
  other : ∀ p < 2 ^ 36, (∀ j, i ≤ j → j < i + left → p ≠ pageAt base j) →
    walk vmm' 3 root p = walk vmm 3 root p
  hasTable_iff : ∀ p < 2 ^ 36, HasTable vmm' root p ↔ HasTable vmm root p

theorem UnmapsPage.cons {base : UInt64} {vmm₁ : Vmm}
    (hhead : UnmapsPage vmm root (pageAt base i) vmm₁)
    (htail : UnmapsPages vmm₁ root base (i + 1) left vmm') :
    UnmapsPages vmm root base i (left + 1) vmm' := by
  constructor
  · intro j hlow hhigh
    by_cases hlater : ∃ j', i + 1 ≤ j' ∧ j' < i + 1 + left ∧ pageAt base j = pageAt base j'
    · obtain ⟨j', hlow', hhigh', heq⟩ := hlater
      rw [heq]
      exact htail.self j' hlow' hhigh'
    · push Not at hlater
      have hi : j = i := by
        by_contra hne
        exact hlater j (by omega) (by omega) rfl
      rw [htail.other _ (pageAt_lt _ _) hlater, hi]
      exact hhead.self
  · intro p hp hall
    rw [htail.other p hp fun j hlow hhigh ↦ hall j (by omega) (by omega)]
    exact hhead.other p hp (hall i le_rfl (by omega))
  · intro p hp
    rw [htail.hasTable_iff p hp, hhead.hasTable_iff p hp]

theorem unmapPages_unmaps (h : Placed place vmm) (hroot : TopTable place root)
    (haligned : virtualRange.base.toNat % 4096 = 0)
    (hcall : unmapPages root virtualRange left i vmm = .ok vmm') :
    Extends place vmm place vmm' ∧ UnmapsPages vmm root virtualRange.base i left vmm' := by
  induction left generalizing i vmm with
  | zero =>
    cases hcall
    exact ⟨Extends.refl h, by omega, fun _ _ _ ↦ rfl, fun _ _ ↦ Iff.rfl⟩
  | succ left ih =>
    simp only [unmapPages, bind_eq_ok, Prod.exists, alignDown_page haligned] at hcall
    obtain ⟨result, vmm₁, hpage, hcall⟩ := hcall
    obtain ⟨hextends, hhead⟩ := vmmUnmapPage_unmaps h hroot hpage
    obtain ⟨hextends', htail⟩ := ih hextends.placed hcall
    exact ⟨hextends.trans hextends', UnmapsPage.cons hhead htail⟩

/-- Pages that are mapped and differ from each other can be unmapped. -/
theorem unmapPages_returns (h : Placed place vmm) (hroot : TopTable place root)
    (haligned : virtualRange.base.toNat % 4096 = 0)
    (hmapped : ∀ j, i ≤ j → j < i + left → walk vmm 3 root (pageAt virtualRange.base j) ≠ none)
    (hinj : ∀ j j', i ≤ j → j < j' → j' < i + left →
      pageAt virtualRange.base j' ≠ pageAt virtualRange.base j) :
    ∃ vmm', unmapPages root virtualRange left i vmm = .ok vmm' := by
  induction left generalizing i vmm with
  | zero => exact ⟨vmm, rfl⟩
  | succ left ih =>
    obtain ⟨⟨result, vmm₁⟩, hpage⟩ := vmmUnmapPage_returns h hroot (hmapped i le_rfl (by omega))
    obtain ⟨hextends, hhead⟩ := vmmUnmapPage_unmaps h hroot hpage
    have hmapped' : ∀ j, i + 1 ≤ j → j < i + 1 + left →
        walk vmm₁ 3 root (pageAt virtualRange.base j) ≠ none := by
      intro j hlow hhigh
      have hsame : walk vmm₁ 3 root (pageAt virtualRange.base j) =
          walk vmm 3 root (pageAt virtualRange.base j) :=
        hhead.other _ (pageAt_lt _ _) (hinj i j le_rfl hlow (by omega))
      rw [hsame]
      exact hmapped j (by omega) (by omega)
    obtain ⟨vmm₂, htail⟩ := ih hextends.placed hmapped'
      (fun j j' hlow hlt hhigh ↦ hinj j j' (by omega) hlt (by omega))
    refine ⟨vmm₂, ?_⟩
    simp only [unmapPages, alignDown_page haligned, hpage, ok_bind]
    exact htail

/-- A range of whole pages below the addresses that are not canonical. -/
structure LowerHalf (range : USizeRange) : Prop where
  aligned : memIsRangePageAligned range = true
  bound : range.base.toNat + range.size.toNat ≤ 2 ^ 47

/-- The pages of a range are consecutive. -/
theorem LowerHalf.pageAt_eq (h : LowerHalf range) (hi : i < (range.size / memPageSize).toNat) :
    pageAt range.base i = range.base.toNat / 4096 + i := by
  have hpage : memPageSize.toNat = 4096 := rfl
  have hbound := h.bound
  have hsize := range.size.toNat_lt
  rw [UInt64.toNat_div, hpage] at hi
  rw [pageAt, pageNumber, UInt64.toNat_add, UInt64.toNat_mul, UInt64.toNat_ofNat', hpage]
  omega

/-- An address of a range is on one of its pages. -/
theorem LowerHalf.page_of_mem (h : LowerHalf range) (hmem : addr ∈ range) :
    Canonical addr ∧ ∃ i < (range.size / memPageSize).toNat,
      pageNumber addr = pageAt range.base i ∧ range.base.toNat ≤ addr.toNat ∧
        addr.toNat / 4096 = range.base.toNat / 4096 + i := by
  have hpage : memPageSize.toNat = 4096 := rfl
  obtain ⟨hbase, hsize⟩ := memIsRangePageAligned_iff.1 h.aligned
  have hbound := h.bound
  have hlt := addr.toNat_lt
  rw [mem_def, UInt64.lt_iff_toNat_lt, UInt64.toNat_sub] at hmem
  have hi : addr.toNat / 4096 - range.base.toNat / 4096 < (range.size / memPageSize).toNat := by
    rw [UInt64.toNat_div, hpage]
    omega
  refine ⟨Or.inl (by omega), _, hi, ?_, by omega, by omega⟩
  rw [h.pageAt_eq hi, pageNumber]
  omega

/-- An address outside of a range is on none of its pages. -/
theorem LowerHalf.page_ne (h : LowerHalf range) (haddr : Canonical addr) (hmem : addr ∉ range)
    (hi : i < (range.size / memPageSize).toNat) : pageNumber addr ≠ pageAt range.base i := by
  have hpage : memPageSize.toNat = 4096 := rfl
  obtain ⟨hbase, hsize⟩ := memIsRangePageAligned_iff.1 h.aligned
  have hbound := h.bound
  have hlt := addr.toNat_lt
  rw [mem_def, UInt64.lt_iff_toNat_lt, UInt64.toNat_sub] at hmem
  rw [h.pageAt_eq hi, pageNumber]
  rw [UInt64.toNat_div, hpage] at hi
  rcases haddr with hlow | hhigh <;> omega

theorem translate_of_not_canonical (haddr : ¬ Canonical addr) :
    translate vmm root addr = none := if_neg haddr

theorem translate_of_canonical (haddr : Canonical addr) :
    translate vmm root addr = (walk vmm 3 root (pageNumber addr)).map fun frame ↦
      { frame with physical := frame.physical + addr % memPageSize } := if_pos haddr

/-- The first address of a page of a range. -/
theorem LowerHalf.first_mem (h : LowerHalf virtualRange)
    (hi : i < (virtualRange.size / memPageSize).toNat) :
    UInt64.ofNat i * memPageSize + virtualRange.base ∈ virtualRange := by
  have hpage : memPageSize.toNat = 4096 := rfl
  have hoffset : UInt64.ofNat i * memPageSize + virtualRange.base - virtualRange.base =
      UInt64.ofNat i * memPageSize := by grind
  have hbound := h.bound
  rw [UInt64.toNat_div, hpage] at hi
  rw [mem_def, hoffset, UInt64.lt_iff_toNat_lt, UInt64.toNat_mul, UInt64.toNat_ofNat', hpage]
  omega

/-- It is mapped if and only if the page is. -/
theorem LowerHalf.walk_eq_none_iff (h : LowerHalf virtualRange)
    (hi : i < (virtualRange.size / memPageSize).toNat) :
    walk vmm 3 root (pageAt virtualRange.base i) = none ↔
      translate vmm root (UInt64.ofNat i * memPageSize + virtualRange.base) = none := by
  rw [translate_of_canonical (h.page_of_mem (h.first_mem hi)).1, Option.map_eq_none_iff]
  exact Iff.rfl

/-- The frame of a page of the physical range, and the address in it. -/
theorem entryFrame_offset (flags : BrMemoryFlags) {base physical addr : UInt64}
    (hbase : base.toNat % 4096 = 0) (hphysical : physical.toNat % 4096 = 0)
    (haddr : base.toNat ≤ addr.toNat) (hindex : addr.toNat / 4096 = base.toNat / 4096 + i) :
    (entryFrame (pmlMakeEntry (UInt64.ofNat i * memPageSize + physical) flags)).physical +
      addr % memPageSize = physical + (addr - base) := by
  have hpage : memPageSize.toNat = 4096 := rfl
  have hlt := addr.toNat_lt
  have halign : (UInt64.ofNat i * memPageSize + physical).toNat % 4096 = 0 := by
    rw [UInt64.toNat_add, UInt64.toNat_mul, UInt64.toNat_ofNat', hpage]
    omega
  have hframe : (entryFrame (pmlMakeEntry (UInt64.ofNat i * memPageSize + physical)
      flags)).physical = UInt64.ofNat i * memPageSize + physical :=
    shift_roundtrip rfl (by decide) halign
  have hoffset : UInt64.ofNat i * memPageSize + addr % memPageSize = addr - base := by
    apply UInt64.toNat_inj.1
    rw [UInt64.toNat_add, UInt64.toNat_mul, UInt64.toNat_ofNat', UInt64.toNat_mod, hpage,
      UInt64.toNat_sub]
    omega
  calc (entryFrame (pmlMakeEntry (UInt64.ofNat i * memPageSize + physical) flags)).physical +
        addr % memPageSize
      = UInt64.ofNat i * memPageSize + physical + addr % memPageSize := by rw [hframe]
    _ = physical + (UInt64.ofNat i * memPageSize + addr % memPageSize) := by
      rw [UInt64.add_comm (UInt64.ofNat i * memPageSize), UInt64.add_assoc]
    _ = physical + (addr - base) := by rw [hoffset]

theorem MapsPages.translate_eq (h : LowerHalf virtualRange)
    (hphysical : physicalRange.base.toNat % 4096 = 0)
    (hmaps : MapsPages vmm root virtualRange physicalRange flags 0
      (virtualRange.size / memPageSize).toNat vmm') :
    translate vmm' root =
      Translation.map (translate vmm root) virtualRange physicalRange flags := by
  obtain ⟨hbase, _⟩ := memIsRangePageAligned_iff.1 h.aligned
  funext addr
  by_cases hmem : addr ∈ virtualRange
  · obtain ⟨haddr, i, hi, hpage, hlow, hindex⟩ := h.page_of_mem hmem
    have hself := hmaps.self i (Nat.zero_le i) (by omega)
    rw [← hpage] at hself
    rw [Translation.map, if_pos hmem, translate_of_canonical haddr, hself, Option.map_some,
      entryFrame_offset flags hbase hphysical hlow hindex]
    rfl
  · rw [Translation.map, if_neg hmem]
    by_cases haddr : Canonical addr
    · rw [translate_of_canonical haddr, translate_of_canonical haddr,
        hmaps.other _ (pageNumber_lt _) fun i _ hi ↦ h.page_ne haddr hmem (by omega)]
    · rw [translate_of_not_canonical haddr, translate_of_not_canonical haddr]

/-- Nothing of the range was mapped before. -/
theorem MapsPages.free (h : LowerHalf virtualRange)
    (hmaps : MapsPages vmm root virtualRange physicalRange flags 0
      (virtualRange.size / memPageSize).toNat vmm') (hmem : addr ∈ virtualRange) :
    translate vmm root addr = none := by
  obtain ⟨haddr, i, hi, hpage, _⟩ := h.page_of_mem hmem
  rw [translate_of_canonical haddr, hpage, hmaps.before i (Nat.zero_le i) (by omega),
    Option.map_none]

theorem UnmapsPages.translate_eq (h : LowerHalf virtualRange)
    (hunmaps : UnmapsPages vmm root virtualRange.base 0
      (virtualRange.size / memPageSize).toNat vmm') :
    translate vmm' root = Translation.unmap (translate vmm root) virtualRange := by
  funext addr
  by_cases hmem : addr ∈ virtualRange
  · obtain ⟨haddr, i, hi, hpage, _⟩ := h.page_of_mem hmem
    have hself := hunmaps.self i (Nat.zero_le i) (by omega)
    rw [Translation.unmap, if_pos hmem, translate_of_canonical haddr, hpage, hself, Option.map_none]
  · rw [Translation.unmap, if_neg hmem]
    by_cases haddr : Canonical addr
    · rw [translate_of_canonical haddr, translate_of_canonical haddr,
        hunmaps.other _ (pageNumber_lt _) fun i _ hi ↦ h.page_ne haddr hmem (by omega)]
    · rw [translate_of_not_canonical haddr, translate_of_not_canonical haddr]

theorem vmmMap_aligned
    (hcall : vmmMap vmm root virtualRange physicalRange flags = .ok (result, vmm')) :
    memIsRangePageAligned virtualRange = true ∧ memIsRangePageAligned physicalRange = true := by
  simp only [vmmMap, bind_eq_ok, assertTruth_eq_ok] at hcall
  obtain ⟨_, hvirtual, _, hphysical, _⟩ := hcall
  exact ⟨hvirtual, hphysical⟩

section Calls

variable (h : Placed place vmm) (hroot : TopTable place root)

include h hroot

theorem vmmMap_maps
    (hcall : vmmMap vmm root virtualRange physicalRange flags = .ok (result, vmm')) :
    result = .ok virtualRange ∧ ∃ place', Extends place vmm place' vmm' ∧
      MapsPages vmm root virtualRange physicalRange flags 0
        (virtualRange.size / memPageSize).toNat vmm' := by
  simp only [vmmMap, bind_eq_ok, assertTruth_eq_ok] at hcall
  obtain ⟨_, _, _, _, hcall⟩ := hcall
  rw [ite_error_eq_ok] at hcall
  obtain ⟨_, hcall⟩ := hcall
  simp only [bind_eq_ok, pure_eq_ok, Prod.mk.injEq] at hcall
  obtain ⟨mapped, hpages, rfl, rfl⟩ := hcall
  exact ⟨rfl, mapPages_maps h hroot hpages⟩

theorem vmmUnmap_unmaps (hcall : vmmUnmap vmm root virtualRange = .ok (result, vmm')) :
    result = .ok virtualRange ∧ Extends place vmm place vmm' ∧
      UnmapsPages vmm root virtualRange.base 0 (virtualRange.size / memPageSize).toNat vmm' := by
  simp only [vmmUnmap, bind_eq_ok, assertTruth_eq_ok, pure_eq_ok, Prod.mk.injEq] at hcall
  obtain ⟨_, haligned, unmapped, hpages, rfl, rfl⟩ := hcall
  exact ⟨rfl, unmapPages_unmaps h hroot (memIsRangePageAligned_iff.1 haligned).1 hpages⟩

/-- A range of which nothing is mapped can be mapped. -/
theorem vmmMap_returns (hlower : LowerHalf virtualRange)
    (hphysical : memIsRangePageAligned physicalRange = true)
    (hsize : virtualRange.size = physicalRange.size)
    (hfree : ∀ addr ∈ virtualRange, translate vmm root addr = none)
    (hheap : HeapReturns (3 * (virtualRange.size / memPageSize).toNat) vmm.pmm) :
    ∃ vmm', vmmMap vmm root virtualRange physicalRange flags = .ok (.ok virtualRange, vmm') := by
  have hreturns : ∃ vmm', mapPages root virtualRange physicalRange flags
      (virtualRange.size / memPageSize).toNat 0 vmm = .ok vmm' := by
    apply mapPages_returns h hroot _ _ hheap
    · intro i _ hi
      rw [zero_add] at hi
      exact (hlower.walk_eq_none_iff hi).2 (hfree _ (hlower.first_mem hi))
    · intro i j _ hlt hj
      rw [hlower.pageAt_eq (by omega), hlower.pageAt_eq (by omega)]
      omega
  obtain ⟨vmm', hpages⟩ := hreturns
  refine ⟨vmm', ?_⟩
  have hequal : (virtualRange.size != physicalRange.size) = false := by simp [hsize]
  simp only [vmmMap, assertTruth, hlower.aligned, hphysical, if_true, ok_bind, hequal,
    Bool.false_eq_true, if_false, hpages, pure_eq_ok]

/-- A range of which everything is mapped can be unmapped. -/
theorem vmmUnmap_returns (hlower : LowerHalf virtualRange)
    (hmapped : ∀ addr ∈ virtualRange, translate vmm root addr ≠ none) :
    ∃ vmm', vmmUnmap vmm root virtualRange = .ok (.ok virtualRange, vmm') := by
  obtain ⟨hbase, _⟩ := memIsRangePageAligned_iff.1 hlower.aligned
  have hreturns : ∃ vmm', unmapPages root virtualRange (virtualRange.size / memPageSize).toNat 0
      vmm = .ok vmm' := by
    apply unmapPages_returns h hroot hbase
    · intro i _ hi hnone
      rw [zero_add] at hi
      exact hmapped _ (hlower.first_mem hi) ((hlower.walk_eq_none_iff hi).1 hnone)
    · intro i j _ hlt hj
      rw [hlower.pageAt_eq (by omega), hlower.pageAt_eq (by omega)]
      omega
  obtain ⟨vmm', hpages⟩ := hreturns
  refine ⟨vmm', ?_⟩
  simp only [vmmUnmap, assertTruth, hlower.aligned, if_true, ok_bind, hpages, pure_eq_ok]

end Calls

end Brutal.Kernel
