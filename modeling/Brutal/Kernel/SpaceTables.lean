import Brutal.Kernel.MapRange
import Brutal.Kernel.SpaceIsolation

/-!
# Translation in every space

The kernel sets up its own tables, makes spaces and maps and unmaps ranges in them, and the rest of
the kernel allocates and frees pages in between.  In every state that is reached this way each
table has its place, so that in any space `vmm_map` and `vmm_unmap` act on the map from addresses
to frames as they should.
-/

namespace Brutal.Kernel

open Base Boot Ds Lib

variable {place place' : UInt64 → Option (ℕ × ℕ)} {vmm vmm' : Vmm}

/-- A new top table, whose entries lead to the tables of another one. -/
theorem Placed.addTop {page : UInt64} {pmm : Pmm} (h : Placed place vmm)
    (entries : ℕ → PmlEntry) (hpage : FreshPage vmm.pmm page pmm)
    (hchild : ∀ idx < 512, (entries idx).present = true →
      place (childOf (entries idx)) = some (2, 0 * 512 + idx))
    (hallows : ∀ idx < 512, (entries idx).present = true →
      (entries idx).user = true ∧ (entries idx).readWrite = true) :
    Extends place vmm (Function.update place page (some (3, 0)))
      { vmm with pmm, tables := Function.update vmm.tables page entries } := by
  have hextend : ∀ other spot, place other = some spot →
      Function.update place page (some (3, 0)) other = some spot := by
    intro other spot hother
    rwa [Function.update_of_ne (h.ne_fresh hpage hother)]
  refine ⟨⟨hpage.layout, ?_, ?_, ?_⟩, hextend, rfl⟩
  · intro other hother
    by_cases hnew : other = page
    · rw [hnew]
      exact hpage.used
    · rw [Function.update_of_ne hnew] at hother
      exact hpage.keeps _ (h.used other hother)
  · intro other l r i hother hi hpresent
    by_cases hnew : other = page
    · subst hnew
      rw [Function.update_self] at hother
      cases hother
      simp only [Function.update_self] at hpresent ⊢
      exact hextend _ _ (hchild i hi hpresent)
    · rw [Function.update_of_ne hnew] at hother
      simp only [Function.update_of_ne hnew] at hpresent ⊢
      exact hextend _ _ (h.child hother hi hpresent)
  · intro other l r i hother hi hpresent
    by_cases hnew : other = page
    · subst hnew
      simp only [Function.update_self] at hpresent ⊢
      exact hallows i hi hpresent
    · rw [Function.update_of_ne hnew] at hother
      simp only [Function.update_of_ne hnew] at hpresent ⊢
      exact h.allows hother hi hpresent

/-- A new space shares the tables of the kernel. -/
theorem vmmSpaceCreate_extends {space : UInt64} (h : Placed place vmm)
    (hkpml : TopTable place vmm.kpml) (hcall : vmmSpaceCreate vmm = .ok (space, vmm')) :
    ∃ place', Extends place vmm place' vmm' ∧ TopTable place' space := by
  simp only [vmmSpaceCreate, bind_eq_ok, pure_eq_ok, Prod.exists, Prod.mk.injEq] at hcall
  obtain ⟨outcome, pmm, halloc, heapResult, pmm', hunwrap, rfl, rfl⟩ := hcall
  obtain ⟨range, rfl, hpage⟩ := heapAllocImpl_spec h.layout halloc
  simp only [unwrap, Except.ok.injEq, Prod.mk.injEq] at hunwrap
  obtain ⟨rfl, rfl⟩ := hunwrap
  have hne := h.ne_fresh hpage hkpml
  have hentry : ∀ idx < 512,
      (spaceTable (clearTable { vmm with pmm } range.base) idx).present = true →
      spaceTable (clearTable { vmm with pmm } range.base) idx = vmm.tables vmm.kpml idx := by
    intro idx hidx hpresent
    unfold spaceTable at hpresent ⊢
    split at hpresent
    next => cases hpresent
    next hlow =>
      rw [if_neg hlow, if_pos hidx]
      exact clearTable_tables_of_ne hne idx
  have hextends := h.addTop (spaceTable (clearTable { vmm with pmm } range.base)) hpage
    (fun idx hidx hpresent ↦ by
      have hsame := hentry idx hidx hpresent
      rw [hsame] at hpresent ⊢
      exact h.child hkpml hidx hpresent)
    (fun idx hidx hpresent ↦ by
      have hsame := hentry idx hidx hpresent
      rw [hsame] at hpresent ⊢
      exact h.allows hkpml hidx hpresent)
  have htables : Function.update (clearTable { vmm with pmm } range.base).tables range.base
      (spaceTable (clearTable { vmm with pmm } range.base)) =
      Function.update vmm.tables range.base
        (spaceTable (clearTable { vmm with pmm } range.base)) := by
    simp only [clearTable, Function.update_idem]
  refine ⟨Function.update place range.base (some (3, 0)), ?_, Function.update_self ..⟩
  rw [htables]
  exact hextends

/-- Every table of the kernel has its place. -/
def Ordered (vmm : Vmm) : Prop := ∃ place, Placed place vmm ∧ TopTable place vmm.kpml

/-- There is one empty table at first. -/
theorem emptyTop_ordered {pmm pmm' : Pmm} {higher : Bool} {range : USizeRange}
    (tables : UInt64 → ℕ → PmlEntry) (hpmm : PmmLayout pmm)
    (halloc : heapAllocImpl pmm memPageSize higher = .ok (.ok range, pmm')) :
    Ordered (clearTable ⟨tables, range.base, pmm'⟩ range.base) := by
  obtain ⟨_, hresult, hpage⟩ := heapAllocImpl_spec hpmm halloc
  cases hresult
  have hempty : Placed (fun _ ↦ none) ⟨tables, range.base, pmm⟩ :=
    ⟨hpmm, by simp, by simp, by simp⟩
  exact ⟨_, (hempty.addTop (fun _ ↦ pmlCleanEntry) hpage (by simp) (by simp)).placed,
    Function.update_self ..⟩

theorem Ordered.vmmMap {virtualRange physicalRange : USizeRange} {flags : BrMemoryFlags}
    {result : VmmResult} (h : Ordered vmm)
    (hcall : vmmMap vmm vmm.kpml virtualRange physicalRange flags = .ok (result, vmm')) :
    Ordered vmm' ∧ vmm'.kpml = vmm.kpml := by
  obtain ⟨place, hplaced, hkpml⟩ := h
  obtain ⟨_, place', hextends, _⟩ := vmmMap_maps hplaced hkpml hcall
  refine ⟨⟨place', hextends.placed, ?_⟩, hextends.kpml_eq⟩
  rw [hextends.kpml_eq]
  exact hextends.extend _ _ hkpml

theorem Ordered.mapWhen {condition : Bool} {virtualRange physicalRange : USizeRange}
    (h : Ordered vmm)
    (hcall : mapWhen condition vmm vmm.kpml virtualRange physicalRange = .ok vmm') :
    Ordered vmm' ∧ vmm'.kpml = vmm.kpml := by
  unfold Kernel.mapWhen at hcall
  split at hcall
  next =>
    simp only [bind_eq_ok, pure_eq_ok, Prod.exists] at hcall
    obtain ⟨result, mapped, hmap, rfl⟩ := hcall
    exact h.vmmMap hmap
  next =>
    cases hcall
    exact ⟨h, rfl⟩

/-- The tables of the kernel are in order after booting, whatever the memory map. -/
theorem vmmInitialize_ordered {memory : UInt64 → ℕ → Bool} {memoryMap : HandoverMmap} {pmm : Pmm}
    {tables : UInt64 → ℕ → PmlEntry} (hpmm : pmmInitialize memory memoryMap = .ok pmm)
    (h : vmmInitialize tables pmm memoryMap = .ok vmm) : Ordered vmm := by
  simp only [vmmInitialize, bind_eq_ok, Prod.exists] at h
  obtain ⟨outcome, pmm₁, halloc, heapResult, pmm₂, hunwrap, result, vmm₁, hmap, hload⟩ := h
  obtain ⟨range, rfl, hpage⟩ := heapAllocImpl_spec (pmmInitialize_spec hpmm).1 halloc
  simp only [unwrap, Except.ok.injEq, Prod.mk.injEq] at hunwrap
  obtain ⟨rfl, rfl⟩ := hunwrap
  obtain ⟨hordered₁, _⟩ :=
    (emptyTop_ordered tables (pmmInitialize_spec hpmm).1 halloc).vmmMap hmap
  have hentry : ∀ s entry t, (Ordered s ∧ s.kpml = vmm₁.kpml) →
      Succeeds (mapEntry vmm₁.kpml) s entry t → Ordered t ∧ t.kpml = vmm₁.kpml := by
    rintro s entry t ⟨hordered, hsame⟩ hstep
    have hcall : mapEntry vmm₁.kpml s entry = .ok t := hstep
    rw [← hsame] at hcall
    simp only [mapEntry, bind_eq_ok] at hcall
    obtain ⟨vmm₂, hkernel, hio⟩ := hcall
    obtain ⟨hordered₂, hsame₂⟩ := hordered.mapWhen hkernel
    rw [← hsame₂] at hio
    obtain ⟨hordered₃, hsame₃⟩ := hordered₂.mapWhen hio
    exact ⟨hordered₃, hsame₃.trans (hsame₂.trans hsame)⟩
  exact ((Run.ofFold hload).invariant hentry ⟨hordered₁, rfl⟩).1

/-- The tables and the spaces that are in use besides the kernel's own. -/
structure AddressSpaces where
  vmm : Vmm
  spaces : List UInt64

/-- Every space, that of the kernel among them. -/
def AddressSpaces.roots (s : AddressSpaces) : List UInt64 := s.vmm.kpml :: s.spaces

/-- A table of some space. -/
def AddressSpaces.Reached (s : AddressSpaces) (table : UInt64) : Prop :=
  ∃ root ∈ s.roots, ∃ l, TableAt s.vmm root l table

/-- The calls on spaces, and what the rest of the kernel does in between: a space is given up, and
physical pages are allocated, freed and written. -/
inductive TableCall where
  | create (space : UInt64)
  | map (space : UInt64) (virtualRange physicalRange : USizeRange) (flags : BrMemoryFlags)
      (result : VmmResult)
  | unmap (space : UInt64) (virtualRange : USizeRange) (result : VmmResult)
  | retire (space : UInt64)
  | other (calls : List PmmCall) (tables : UInt64 → ℕ → PmlEntry)

/-- One call.  The pages of the tables of a space are neither freed nor written by others. -/
def TableStep (s : AddressSpaces) (call : TableCall) (s' : AddressSpaces) : Prop :=
  match call with
  | .create space => ∃ vmm, vmmSpaceCreate s.vmm = .ok (space, vmm) ∧
      s' = ⟨vmm, s.spaces ++ [space]⟩
  | .map space virtualRange physicalRange flags result => space ∈ s.roots ∧ ∃ vmm,
      vmmMap s.vmm space virtualRange physicalRange flags = .ok (result, vmm) ∧
      s' = { s with vmm }
  | .unmap space virtualRange result => space ∈ s.roots ∧ ∃ vmm,
      vmmUnmap s.vmm space virtualRange = .ok (result, vmm) ∧ s' = { s with vmm }
  | .retire space => s' = { s with spaces := s.spaces.filter (· ≠ space) }
  | .other calls tables => ∃ pmm, Run PmmStep s.vmm.pmm calls pmm ∧
      (∀ range, .unused range ∈ calls → ∀ table, s.Reached table → mmapIoToPhys table ∉ range) ∧
      (∀ table, s.Reached table → tables table = s.vmm.tables table) ∧
      s' = { s with vmm := { s.vmm with pmm, tables } }

/-- The tables of every space are in their places. -/
structure PlacedSpaces (place : UInt64 → Option (ℕ × ℕ)) (s : AddressSpaces) : Prop where
  placed : Placed place s.vmm
  top : ∀ root ∈ s.roots, TopTable place root

variable {s s' : AddressSpaces}

theorem PlacedSpaces.extends (h : PlacedSpaces place s) {vmm' : Vmm}
    (hextends : Extends place s.vmm place' vmm') : PlacedSpaces place' { s with vmm := vmm' } where
  placed := hextends.placed
  top root hroot := by
    rw [AddressSpaces.roots, hextends.kpml_eq] at hroot
    exact hextends.extend _ _ (h.top root hroot)

/-- The tables of a space have a place. -/
theorem TableAt.place_eq {root table : UInt64} {l : ℕ} (h : Placed place vmm)
    (hroot : TopTable place root) (htable : TableAt vmm root l table) :
    ∃ level region, l = level + 1 ∧ place table = some (level, region) := by
  induction htable with
  | root => exact ⟨3, 0, rfl, hroot⟩
  | @next l idx table htable hidx hpresent ih =>
    obtain ⟨level, region, hl, hplace⟩ := ih
    obtain rfl : level = l + 1 := by omega
    exact ⟨l, _, rfl, h.child hplace hidx hpresent⟩

/-- What a space maps depends on its tables only. -/
theorem translate_eq_of_sameTables {root : UInt64}
    (hsame : ∀ l table, TableAt vmm root l table → vmm'.tables table = vmm.tables table) :
    translate vmm' root = translate vmm root := by
  have hwalk : ∀ level table page, TableAt vmm root (level + 1) table →
      walk vmm' level table page = walk vmm level table page := by
    intro level
    induction level with
    | zero =>
      intro table page htable
      simp only [walk, hsame _ table htable]
    | succ level ih =>
      intro table page htable
      simp only [walk, hsame _ table htable]
      split
      next hpresent => rw [ih _ page (.next htable (slotOf_lt _ _) hpresent)]
      next => rfl
  funext addr
  simp only [translate, hwalk 3 root _ .root]

open Classical in
/-- What is not a table of a space may be freed and written, so only the places of these tables are
kept. -/
theorem PlacedSpaces.other {calls : List PmmCall} {pmm : Pmm} {tables : UInt64 → ℕ → PmlEntry}
    (h : PlacedSpaces place s) (hrun : Run PmmStep s.vmm.pmm calls pmm)
    (hkeep : ∀ range, .unused range ∈ calls → ∀ table, s.Reached table →
      mmapIoToPhys table ∉ range)
    (hsame : ∀ table, s.Reached table → tables table = s.vmm.tables table) :
    ∃ place', PlacedSpaces place' { s with vmm := { s.vmm with pmm, tables } } := by
  let place' : UInt64 → Option (ℕ × ℕ) := fun table ↦ if s.Reached table then place table else none
  have hplace : ∀ table spot, place' table = some spot ↔
      s.Reached table ∧ place table = some spot := by
    intro table spot
    by_cases hreached : s.Reached table <;> simp [place', hreached]
  have hclosed : ∀ {table level region idx}, s.Reached table →
      place table = some (level + 1, region) → idx < 512 →
      (s.vmm.tables table idx).present = true → s.Reached (childOf (s.vmm.tables table idx)) := by
    rintro table level region idx ⟨root, hmem, l, htable⟩ hspot hidx hpresent
    obtain ⟨level', region', rfl, hspot'⟩ := htable.place_eq h.placed (h.top root hmem)
    rw [hspot] at hspot'
    cases hspot'
    exact ⟨root, hmem, level + 1, .next htable hidx hpresent⟩
  refine ⟨place', ⟨⟨?_, ?_, ?_, ?_⟩, ?_⟩⟩
  · exact (run_layout hrun).pmmLayout h.placed.layout
  · intro table hne
    obtain ⟨spot, hspot⟩ := Option.ne_none_iff_exists'.1 hne
    obtain ⟨hreached, hspot⟩ := (hplace table spot).1 hspot
    exact run_pageUsed hrun h.placed.layout (h.placed.used table (by rw [hspot]; simp))
      fun range hmem ↦ hkeep range hmem table hreached
  · intro table level region idx hspot hidx hpresent
    obtain ⟨hreached, hspot⟩ := (hplace _ _).1 hspot
    simp only [hsame table hreached] at hpresent ⊢
    exact (hplace _ _).2 ⟨hclosed hreached hspot hidx hpresent,
      h.placed.child hspot hidx hpresent⟩
  · intro table level region idx hspot hidx hpresent
    obtain ⟨hreached, hspot⟩ := (hplace _ _).1 hspot
    simp only [hsame table hreached] at hpresent ⊢
    exact h.placed.allows hspot hidx hpresent
  · intro root hroot
    exact (hplace _ _).2 ⟨⟨root, hroot, 4, .root⟩, h.top root hroot⟩

/-- Every call keeps the tables of the spaces in their places. -/
theorem PlacedSpaces.step {call : TableCall} (h : PlacedSpaces place s)
    (hstep : TableStep s call s') : ∃ place', PlacedSpaces place' s' := by
  have hkpml := h.top s.vmm.kpml (List.mem_cons_self ..)
  cases call with
  | create space =>
    obtain ⟨vmm', hcall, rfl⟩ := hstep
    obtain ⟨place', hextends, hspace⟩ := vmmSpaceCreate_extends h.placed hkpml hcall
    refine ⟨place', hextends.placed, ?_⟩
    intro root hroot
    rcases List.mem_cons.1 hroot with rfl | hroot
    · rw [hextends.kpml_eq]
      exact hextends.extend _ _ hkpml
    · rcases List.mem_append.1 hroot with hold | hnew
      · exact hextends.extend _ _ (h.top root (List.mem_cons_of_mem _ hold))
      · rw [List.mem_singleton.1 hnew]
        exact hspace
  | map space virtualRange physicalRange flags result =>
    obtain ⟨hspace, vmm', hcall, rfl⟩ := hstep
    obtain ⟨_, place', hextends, _⟩ := vmmMap_maps h.placed (h.top space hspace) hcall
    exact ⟨place', h.extends hextends⟩
  | unmap space virtualRange result =>
    obtain ⟨hspace, vmm', hcall, rfl⟩ := hstep
    obtain ⟨_, hextends, _⟩ := vmmUnmap_unmaps h.placed (h.top space hspace) hcall
    exact ⟨place, h.extends hextends⟩
  | retire space =>
    obtain rfl := hstep
    refine ⟨place, h.placed, fun root hroot ↦ h.top root ?_⟩
    rcases List.mem_cons.1 hroot with rfl | hroot
    · exact List.mem_cons_self ..
    · exact List.mem_cons_of_mem _ (List.mem_of_mem_filter hroot)
  | other calls tables =>
    obtain ⟨pmm, hrun, hkeep, hsame, rfl⟩ := hstep
    exact h.other hrun hkeep hsame

theorem Ordered.run {start : Vmm} {calls : List TableCall} (h : Ordered start)
    (hrun : Run TableStep ⟨start, []⟩ calls s) : ∃ place, PlacedSpaces place s := by
  obtain ⟨place, hplaced, hkpml⟩ := h
  have hstart : PlacedSpaces place ⟨start, []⟩ := by
    refine ⟨hplaced, fun root hroot ↦ ?_⟩
    rw [List.mem_singleton.1 hroot]
    exact hkpml
  have hkeep : ∀ s call s', (∃ place, PlacedSpaces place s) → TableStep s call s' →
      ∃ place, PlacedSpaces place s' := fun _ _ _ ⟨_, hspaces⟩ hstep ↦ hspaces.step hstep
  exact hrun.invariant hkeep ⟨place, hstart⟩

/-- In every space, mapping a range of which nothing is mapped maps it and nothing else, and
unmapping it afterwards unmaps it and nothing else. -/
theorem vmmMap_vmmUnmap_translate {start : Vmm} {calls : List TableCall} {space : UInt64}
    {virtualRange physicalRange : USizeRange} {flags : BrMemoryFlags} (hstart : Ordered start)
    (hrun : Run TableStep ⟨start, []⟩ calls s) (hspace : space ∈ s.roots)
    (hlower : LowerHalf virtualRange) (hphysical : memIsRangePageAligned physicalRange = true)
    (hsize : virtualRange.size = physicalRange.size)
    (hfree : ∀ addr ∈ virtualRange, translate s.vmm space addr = none)
    (hheap : HeapReturns (3 * (virtualRange.size / memPageSize).toNat) s.vmm.pmm) :
    ∃ mapped unmapped,
      vmmMap s.vmm space virtualRange physicalRange flags = .ok (.ok virtualRange, mapped) ∧
      translate mapped space =
        Translation.map (translate s.vmm space) virtualRange physicalRange flags ∧
      vmmUnmap mapped space virtualRange = .ok (.ok virtualRange, unmapped) ∧
      translate unmapped space = Translation.unmap (translate mapped space) virtualRange ∧
      translate unmapped space = translate s.vmm space := by
  obtain ⟨place, h⟩ := hstart.run hrun
  have htop := h.top space hspace
  obtain ⟨hbase, _⟩ := memIsRangePageAligned_iff.1 hphysical
  have hreturns : ∃ mapped, vmmMap s.vmm space virtualRange physicalRange flags =
      .ok (.ok virtualRange, mapped) :=
    vmmMap_returns h.placed htop hlower hphysical hsize hfree hheap
  obtain ⟨mapped, hmap⟩ := hreturns
  obtain ⟨_, place', hextends, hmaps⟩ := vmmMap_maps h.placed htop hmap
  have hmapped := hmaps.translate_eq hlower hbase
  have hall : ∀ addr ∈ virtualRange, translate mapped space addr ≠ none := by
    intro addr hmem
    rw [hmapped, Translation.map, if_pos hmem]
    exact Option.some_ne_none _
  have htop' := hextends.extend _ _ htop
  obtain ⟨unmapped, hunmap⟩ := vmmUnmap_returns hextends.placed htop' hlower hall
  obtain ⟨_, _, hunmaps⟩ := vmmUnmap_unmaps hextends.placed htop' hunmap
  have hunmapped := hunmaps.translate_eq hlower
  refine ⟨mapped, unmapped, hmap, hmapped, hunmap, hunmapped, ?_⟩
  rw [hunmapped, hmapped, Translation.unmap_map flags hfree]

theorem bareMachine_ordered {start : Machine} (h : bareMachine = .ok start) :
    Ordered start.vmm := by
  simp only [bareMachine, bind_eq_ok, pure_eq_ok, Prod.exists] at h
  obtain ⟨pmm, hpmm, outcome, pmm₁, halloc, heapResult, pmm₂, hunwrap, rfl⟩ := h
  have hlayout := (pmmInitialize_spec hpmm).1
  obtain ⟨range, rfl, _⟩ := heapAllocImpl_spec hlayout halloc
  simp only [unwrap, Except.ok.injEq, Prod.mk.injEq] at hunwrap
  obtain ⟨rfl, rfl⟩ := hunwrap
  exact emptyTop_ordered _ hlayout halloc

/-- A new space on this machine maps nothing at `0x400000`, and there are pages left. -/
theorem bareMachine_create : ∃ start, bareMachine = .ok start ∧ ∃ outcome,
    vmmSpaceCreate start.vmm = .ok outcome ∧ HeapReturns 3 outcome.2.pmm ∧
      walk outcome.2 3 outcome.1 0x400 = none := by
  decide +kernel

/-- A page is mapped at `0x400000` and unmapped again in a new space. -/
theorem vmmMap_vmmUnmap_translate_bare :
    ∃ start space vmm, Ordered start ∧
      Run TableStep ⟨start, []⟩ [.create space] ⟨vmm, [space]⟩ ∧
      ∃ mapped unmapped,
        vmmMap vmm space ⟨0x400000, 0x1000⟩ ⟨0x100000, 0x1000⟩ brMemWritable =
          .ok (.ok ⟨0x400000, 0x1000⟩, mapped) ∧
        vmmUnmap mapped space ⟨0x400000, 0x1000⟩ = .ok (.ok ⟨0x400000, 0x1000⟩, unmapped) ∧
        translate unmapped space = translate vmm space := by
  obtain ⟨start, hbare, ⟨space, vmm⟩, hspace, hheap, hwalk⟩ := bareMachine_create
  have hlower : LowerHalf ⟨0x400000, 0x1000⟩ := ⟨by decide, by decide⟩
  have hone : ((⟨0x400000, 0x1000⟩ : USizeRange).size / memPageSize).toNat = 1 := by decide
  have hbase : (⟨0x400000, 0x1000⟩ : USizeRange).base.toNat / 4096 = 0x400 := by decide
  have hfree : ∀ addr ∈ (⟨0x400000, 0x1000⟩ : USizeRange), translate vmm space addr = none := by
    intro addr hmem
    obtain ⟨haddr, i, hi, hpage, _⟩ := hlower.page_of_mem hmem
    have hzero : i = 0 := by omega
    rw [translate_of_canonical haddr, hpage, hlower.pageAt_eq hi, hbase, hzero,
      Option.map_eq_none_iff]
    exact hwalk
  have hrun : Run TableStep ⟨start.vmm, []⟩ [.create space] ⟨vmm, [space]⟩ :=
    .cons ⟨vmm, hspace, rfl⟩ (.nil _)
  have hmem : space ∈ (⟨vmm, [space]⟩ : AddressSpaces).roots := by simp [AddressSpaces.roots]
  rw [← Nat.mul_one 3, ← hone] at hheap
  have hphysical : memIsRangePageAligned ⟨0x100000, 0x1000⟩ = true := by decide
  obtain ⟨mapped, unmapped, hmap, _, hunmap, _, hsame⟩ := vmmMap_vmmUnmap_translate
    (bareMachine_ordered hbare) hrun hmem hlower hphysical rfl hfree hheap
  exact ⟨start.vmm, space, vmm, bareMachine_ordered hbare, hrun, mapped, unmapped, hmap, hunmap,
    hsame⟩

end Brutal.Kernel
