import Brutal.Kernel.SpaceRuns

/-!
# Giving a range back

Mapping a range and unmapping it again leaves the mappings and the translation of a space as they
were.  The free ranges are another matter: `space_unmap` never calls `range_alloc_unused`, so that
an address is lost each time unless taking the range had not taken anything from the free ranges.
-/

namespace Brutal.Kernel

open Base Boot Ds Lib

variable {place : UInt64 → Option (ℕ × ℕ)} {s mapped after : SpaceInUse} {memory : Memory}
  {offset size vaddr : UInt64} {flags : BrMemoryFlags} {range : USizeRange} {result : SpaceResult}

/-- How the range of a request is taken. -/
theorem spacePlace_ok {space placed : Space Memory}
    (hcall : spacePlace space size vaddr = .ok (.ok range, placed)) :
    (vaddr = 0 ∧ rangeAllocAlloc space.alloc size = .ok (range, placed.alloc) ∧ range.size ≠ 0) ∨
      (vaddr ≠ 0 ∧ range = ⟨vaddr, size⟩ ∧
        rangeAllocUsed space.alloc range = .ok placed.alloc) := by
  unfold spacePlace at hcall
  split at hcall
  next hzero =>
    simp only [bind_eq_ok, Prod.exists] at hcall
    obtain ⟨found, alloc, halloc, hcall⟩ := hcall
    split at hcall
    next => cases hcall
    next hne =>
      cases hcall
      exact Or.inl ⟨beq_iff_eq.1 hzero, halloc, by simpa using hne⟩
  next hne =>
    simp only [bind_eq_ok, pure_eq_ok, Prod.mk.injEq, Except.ok.injEq] at hcall
    obtain ⟨alloc, hused, rfl, rfl⟩ := hcall
    exact Or.inr ⟨by simpa using hne, rfl, hused⟩

/-- The last mapping is found if no other one has its range. -/
theorem findMmap_last {mmaps : List (Mmap Memory)} {last : Mmap Memory}
    (h : ∀ mapping ∈ mmaps, mapping.range ≠ last.range) :
    findMmap last.range (mmaps ++ [last]) = some (mmaps, last, []) := by
  induction mmaps with
  | nil =>
    have hequal : rangeEq last.range last.range = true := rangeEq_iff.2 rfl
    exact if_pos hequal
  | cons first rest ih =>
    have hne : ¬ rangeEq first.range last.range = true := fun hequal ↦
      h first (List.mem_cons_self ..) (rangeEq_iff.1 hequal)
    rw [List.cons_append, findMmap, if_neg hne,
      ih fun mapping hmem ↦ h mapping (List.mem_cons_of_mem _ hmem)]
    rfl

/-- The mappings and the translation are restored, and the free ranges stay as `space_map` left
them. -/
theorem Backed.unmap_map (h : Backed place s) (hfits : s.Fits (mapSize memory size) vaddr)
    (hmap : UseStep s (.map memory offset size vaddr flags (.ok range)) mapped)
    (hunmap : UseStep mapped (.unmap range result) after) :
    after.space.mmaps = s.space.mmaps ∧
      translate after.vmm s.space.vmm = translate s.vmm s.space.vmm ∧
      after.space.alloc = mapped.space.alloc := by
  obtain ⟨⟨place', hmapped⟩, hlower, hfree, physicalRange, htranslate⟩ := h.map hfits hmap
  obtain ⟨_, hsize, _, ⟨alloc, hspace⟩, _⟩ := spaceMap_spec hmap
  have hother : ∀ mapping ∈ s.space.mmaps, mapping.range ≠ range := by
    rintro mapping hmem rfl
    have hbase : mapping.range.base ∈ mapping.range := by
      rw [mem_def, UInt64.sub_self]
      exact UInt64.pos_iff_ne_zero.2 (h.nonempty mapping hmem)
    exact h.mapped mapping hmem _ hbase (hfree _ hbase)
  have hmmaps : mapped.space.mmaps = s.space.mmaps ++ [⟨range, memory, offset⟩] := by rw [hspace]
  have htable : mapped.space.vmm = s.space.vmm := by rw [hspace]
  obtain ⟨object, hcall⟩ := hunmap
  have hfind : findMmap (⟨range, memory, offset⟩ : Mmap Memory).range
      (s.space.mmaps ++ [⟨range, memory, offset⟩]) =
        some (s.space.mmaps, ⟨range, memory, offset⟩, []) := findMmap_last hother
  unfold spaceUnmap at hcall
  rw [hmmaps, hfind] at hcall
  simp only [bind_eq_ok, pure_eq_ok, Prod.exists, Prod.mk.injEq, List.append_nil] at hcall
  obtain ⟨outcome, unmapped, hcall, _, _, hspace', rfl⟩ := hcall
  obtain ⟨_, _, hunmaps⟩ := vmmUnmap_unmaps hmapped.placed hmapped.top hcall
  have htranslate' := hunmaps.translate_eq hlower
  rw [htable] at htranslate'
  refine ⟨by rw [← hspace'], ?_, by rw [← hspace']⟩
  rw [htranslate', htranslate, Translation.unmap_map _ hfree]

/-- Nothing is taken from the free ranges: the range that was handed out was free twice, or the
chosen range cut nothing out of them. -/
def Untaken (alloc : RangeAlloc) (vaddr : UInt64) (range : USizeRange) : Prop :=
  (vaddr = 0 ∧ FreeTwice alloc range) ∨ (vaddr ≠ 0 ∧ NothingCut alloc range)

/-- Everything is as it was. -/
def Restored (s after : SpaceInUse) : Prop :=
  after.space.mmaps = s.space.mmaps ∧
    translate after.vmm s.space.vmm = translate s.vmm s.space.vmm ∧
    ∀ addr, IsFree after.space.alloc addr ↔ IsFree s.space.alloc addr

/-- A page is mapped at an address that the allocator chooses in a new space, and unmapped. -/
theorem mapUnmap_bare :
    ∃ start, bareMachine = .ok start ∧ ∃ created,
      spaceCreate (fun _ ↦ ⟨0, 0⟩) start.vmm = .ok created ∧
        IsFree created.1.alloc 0x400000 ∧ firstFit created.1.alloc 0x1000 =
          some ⟨0x400000, 0x800000000000⟩ ∧ ∃ mapped,
        spaceMap created.1 created.2 onePage onePage 0 0 0 brMemWritable = .ok mapped ∧
        mapped.1 = .ok ⟨0x400000, 0x1000⟩ ∧ ∃ unmapped,
          spaceUnmap mapped.2.1 mapped.2.2 ⟨0x400000, 0x1000⟩ = .ok unmapped ∧
          unmapped.1 = .ok ⟨0x400000, 0x1000⟩ ∧ ¬ IsFree unmapped.2.2.1.alloc 0x400000 := by
  decide +kernel

/-- The same as calls on the space. -/
theorem mapUnmap_steps :
    ∃ s mapped after, s.Created ∧ s.Fits (mapSize onePage 0) 0 ∧
      UseStep s (.map onePage 0 0 0 brMemWritable (.ok ⟨0x400000, 0x1000⟩)) mapped ∧
      UseStep mapped (.unmap ⟨0x400000, 0x1000⟩ (.ok ⟨0x400000, 0x1000⟩)) after ∧
      IsFree s.space.alloc 0x400000 ∧ ¬ IsFree after.space.alloc 0x400000 := by
  obtain ⟨start, hbare, ⟨space, vmm⟩, hcreate, hfree, hfit, ⟨result, space', vmm'⟩, hmap, hresult,
    ⟨result', object, space'', vmm''⟩, hunmap, hresult', hlost⟩ := mapUnmap_bare
  dsimp only at hresult hresult' hmap hunmap hfit hfree hlost
  rw [hresult] at hmap
  rw [hresult'] at hunmap
  refine ⟨⟨space, vmm⟩, ⟨space', vmm'⟩, ⟨space'', vmm''⟩, bareMachine_created hbare hcreate,
    ⟨by decide, fun base hbase ↦ ?_⟩, hmap, ⟨object, hunmap⟩, hfree, hlost⟩
  have hsize : mapSize onePage 0 = 0x1000 := by decide
  rw [mapBase, if_pos (by decide), hsize, hfit] at hbase
  cases hbase
  decide

/-- Unmapping what was mapped just before restores the space if nothing was taken from the free
ranges, and only then; for a chosen range the latter is said of a free range that can be cut out of
free ranges in order. -/
theorem spaceUnmap_restores {start : SpaceInUse} {calls : List SpaceUse}
    (hcreated : start.Created) (hrun : Run (Guarded UseStep Requested) start calls s)
    (hfits : s.Fits (mapSize memory size) vaddr)
    (hmap : UseStep s (.map memory offset size vaddr flags (.ok range)) mapped)
    (hunmap : UseStep mapped (.unmap range result) after) :
    (Untaken s.space.alloc vaddr range → Restored s after) ∧
      ((vaddr ≠ 0 → Gapped s.space.alloc ∧ CleanCut s.space.alloc range ∧
          ∀ addr ∈ range, IsFree s.space.alloc addr) →
        Restored s after → Untaken s.space.alloc vaddr range) := by
  obtain ⟨place, hbacked⟩ := hcreated.run hrun
  obtain ⟨hmmaps, htranslate, halloc⟩ := hbacked.unmap_map hfits hmap hunmap
  have hplace : ∃ placed, spacePlace s.space (mapSize memory size) vaddr = .ok (.ok range, placed) ∧
      mapped.space.alloc = placed.alloc := by
    rcases spaceMap_place hmap with ⟨_, hresult, _⟩ | ⟨_, hplace⟩
    · cases hresult
    · exact hplace
  obtain ⟨placed, hplace, hsame⟩ := hplace
  rw [hsame] at halloc
  simp only [Restored, hmmaps, htranslate, true_and, halloc]
  rcases spacePlace_ok hplace with ⟨hzero, hcall, hne⟩ | ⟨hchosen, hrange, hcall⟩
  · rw [rangeAllocAlloc_same_iff hcall hne]
    constructor
    · rintro (⟨_, htwice⟩ | ⟨hne, _⟩)
      · exact htwice
      · exact absurd hzero hne
    · exact fun _ htwice ↦ Or.inl ⟨hzero, htwice⟩
  · constructor
    · rintro (⟨hzero, _⟩ | ⟨_, hnothing⟩)
      · exact absurd hzero hchosen
      · rw [rangeAllocUsed_nothingCut hnothing hcall]
        exact fun _ ↦ Iff.rfl
    · intro horder hrestored
      obtain ⟨hgapped, hclean, hfree⟩ := horder hchosen
      obtain ⟨hsize, hbound⟩ := hfits
      have hend : vaddr.toNat + (mapSize memory size).toNat ≤ 2 ^ 47 :=
        hbound vaddr (if_neg (by simpa using hchosen))
      have hpos : 0 < (mapSize memory size).toNat :=
        Nat.pos_of_ne_zero fun hzero ↦ hsize (UInt64.toNat_inj.1 hzero)
      have hbounded : range.Bounded := by
        rw [hrange]
        exact lt_of_le_of_lt hend (by decide)
      have hnonempty : range.base.toNat < range.finish := by
        rw [hrange]
        exact Nat.lt_add_of_pos_right hpos
      have hmem : range.base ∈ range := hbounded.mem_iff.2 ⟨le_rfl, hnonempty⟩
      obtain ⟨_, hapart⟩ := rangeAllocUsed_clean hgapped hbounded hnonempty hclean hcall
      obtain ⟨i, hi, hmem'⟩ := (hrestored range.base).2 (hfree _ hmem)
      exact absurd hmem (hapart i hi _ hmem')

/-- The page that is mapped in a new space is taken from its free ranges. -/
theorem spaceUnmap_restores_bare :
    ∃ s mapped after, s.Created ∧
      UseStep s (.map onePage 0 0 0 brMemWritable (.ok ⟨0x400000, 0x1000⟩)) mapped ∧
      UseStep mapped (.unmap ⟨0x400000, 0x1000⟩ (.ok ⟨0x400000, 0x1000⟩)) after ∧
      ¬ Untaken s.space.alloc 0 ⟨0x400000, 0x1000⟩ := by
  obtain ⟨s, mapped, after, hcreated, hfits, hmap, hunmap, hfree, hlost⟩ := mapUnmap_steps
  obtain ⟨hrestores, -⟩ := spaceUnmap_restores hcreated (.nil s) hfits hmap hunmap
  exact ⟨s, mapped, after, hcreated, hmap, hunmap,
    fun huntaken ↦ hlost (((hrestores huntaken).2.2 0x400000).2 hfree)⟩

/-- The page that was mapped and unmapped is not free any more. -/
theorem spaceUnmap_restores_fails :
    ∃ s mapped after, s.Created ∧
      UseStep s (.map onePage 0 0 0 brMemWritable (.ok ⟨0x400000, 0x1000⟩)) mapped ∧
      UseStep mapped (.unmap ⟨0x400000, 0x1000⟩ (.ok ⟨0x400000, 0x1000⟩)) after ∧
      ¬ Restored s after := by
  obtain ⟨s, mapped, after, hcreated, _, hmap, hunmap, hfree, hlost⟩ := mapUnmap_steps
  exact ⟨s, mapped, after, hcreated, hmap, hunmap,
    fun hrestored ↦ hlost ((hrestored.2.2 0x400000).2 hfree)⟩

end Brutal.Kernel
