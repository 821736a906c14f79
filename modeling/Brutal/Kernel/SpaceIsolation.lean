import Brutal.Kernel.PageTables
import Brutal.Kernel.Space

/-!
# Isolation of the kernel half

Runs of `space_create`, `space_map` and `space_unmap` on any number of spaces.  A mapping whose
range stays below slot 255 of the top table never touches the tables of the kernel; nothing in
`space_map` makes sure of this for an address chosen by the caller or handed out by the range
allocator, so it is a condition on the state and the arguments here.
-/

namespace Brutal.Kernel

open Base Boot Ds Lib

/-- The page tables and the spaces made so far. -/
structure Machine where
  vmm : Vmm
  spaces : List (Space Memory)

/-- A page of a table that a space or the kernel uses. -/
def TablePage (s : Machine) (table : UInt64) : Prop :=
  ∃ root ∈ s.vmm.kpml :: s.spaces.map Space.vmm, ∃ l, TableAt s.vmm root l table

/-- The calls on spaces, with the result of `space_map`, and what the rest of the kernel does with
physical pages in between.  Freeing the pages of a memory object when its last reference is
dropped, in `space_unmap` or elsewhere, is one of the latter. -/
inductive SpaceCall where
  | create (memory : ℕ → USizeRange)
  | map (space : ℕ) (memory : Memory) (offset size vaddr : UInt64) (flags : BrMemoryFlags)
      (result : SpaceResult)
  | unmap (space : ℕ) (range : USizeRange)
  | other (calls : List PmmCall)

/-- One call.  The rest of the kernel does not free the pages of page tables. -/
def SpaceStep (s : Machine) (call : SpaceCall) (s' : Machine) : Prop :=
  match call with
  | .create memory => ∃ space vmm, spaceCreate memory s.vmm = .ok (space, vmm) ∧
      s' = ⟨vmm, s.spaces ++ [space]⟩
  | .map i memory offset size vaddr flags result => ∃ space space' vmm,
      s.spaces[i]? = some space ∧
      spaceMap space s.vmm memory memory offset size vaddr flags = .ok (result, space', vmm) ∧
      s' = ⟨vmm, s.spaces.set i space'⟩
  | .unmap i range => ∃ space result object space' vmm, s.spaces[i]? = some space ∧
      spaceUnmap space s.vmm range = .ok (result, object, space', vmm) ∧
      s' = ⟨vmm, s.spaces.set i space'⟩
  | .other calls => ∃ pmm, Run PmmStep s.vmm.pmm calls pmm ∧
      (∀ range, .unused range ∈ calls → ∀ table, TablePage s table →
        mmapIoToPhys table ∉ range) ∧
      s' = { s with vmm := { s.vmm with pmm } }

/-- The range that `space_map` is about to use ends below slot 255. -/
def LowTarget (s : Machine) (call : SpaceCall) : Prop :=
  match call with
  | .map i memory _ size vaddr _ _ => ∀ space, s.spaces[i]? = some space →
      ∀ base, mapBase space (mapSize memory size) vaddr = some base →
        base.toNat % 2 ^ 48 + (mapSize memory size).toNat ≤ 255 * 2 ^ 39
  | _ => True

theorem pml4GetIndex_of_low {range : USizeRange}
    (hlow : range.base.toNat % 2 ^ 48 + range.size.toNat ≤ 255 * 2 ^ 39) {addr : UInt64}
    (haddr : addr ∈ range) : (pml4GetIndex addr).toNat < 255 := by
  rw [mem_def, UInt64.lt_iff_toNat_lt, UInt64.toNat_sub] at haddr
  have hthree : (3 : UInt64).toNat = 3 := rfl
  rw [pml4GetIndex, pmlxGetIndex_toNat addr (by decide), hthree]
  have hbase := range.base.toNat_lt
  have hlt := addr.toNat_lt
  omega

theorem through_of_low {range : USizeRange}
    (hlow : range.base.toNat % 2 ^ 48 + range.size.toNat ≤ 255 * 2 ^ 39) : Through 255 range := by
  intro i hi
  apply pml4GetIndex_of_low hlow
  have hpage : memPageSize.toNat = 4096 := rfl
  have hsize := range.size.toNat_lt
  rw [UInt64.toNat_div, hpage] at hi
  have hoffset : UInt64.ofNat i * memPageSize + range.base - range.base =
      UInt64.ofNat i * memPageSize := by grind
  rw [mem_def, hoffset, UInt64.lt_iff_toNat_lt, UInt64.toNat_mul, UInt64.toNat_ofNat', hpage]
  omega

variable {start : Vmm} {s s' : Machine} {level : UInt64 → Option ℕ}

/-- The tables that belonged to the kernel at the start. -/
def KernelTable (start : Vmm) (table : UInt64) : Prop := ∃ l, TableAt start start.kpml l table

/-- What holds of a space: its top table is its own but for the upper slots, and its mappings are
low. -/
structure LowSpace (start : Vmm) (level : UInt64 → Option ℕ) (vmm : Vmm) (space : Space Memory) :
    Prop where
  table : UserTable level (KernelTable start) 4 space.vmm
  upper : ∀ idx, 255 ≤ idx → idx < 512 → vmm.tables space.vmm idx = start.tables start.kpml idx
  mmaps : ∀ mapping ∈ space.mmaps, Through 255 mapping.range

structure Isolated (start : Vmm) (level : UInt64 → Option ℕ) (s : Machine) : Prop where
  forest : Forest level (KernelTable start) 255 s.vmm
  kpml_eq : s.vmm.kpml = start.kpml
  kpml_level : level start.kpml = some 4
  kernel_eq : ∀ table idx, KernelTable start table →
    s.vmm.tables table idx = start.tables table idx
  spaces : ∀ space ∈ s.spaces, LowSpace start level s.vmm space

theorem LowSpace.grows {vmm vmm' : Vmm} {level' : UInt64 → Option ℕ} {space : Space Memory}
    (h : LowSpace start level vmm space)
    (hgrows : Grows level (KernelTable start) 255 vmm level' vmm') :
    LowSpace start level' vmm' space where
  table := h.table.extend hgrows
  upper idx hlow hhigh := by
    rw [hgrows.top_eq _ idx h.table.level_eq hlow]
    exact h.upper idx hlow hhigh
  mmaps := h.mmaps

/-- What happened to the tables, and a space that is new or has changed. -/
theorem Isolated.grows {level' : UInt64 → Option ℕ} {vmm' : Vmm}
    {spaces' : List (Space Memory)} (h : Isolated start level s)
    (hgrows : Grows level (KernelTable start) 255 s.vmm level' vmm')
    (hspaces : ∀ space ∈ spaces', space ∈ s.spaces ∨ LowSpace start level' vmm' space) :
    Isolated start level' ⟨vmm', spaces'⟩ where
  forest := hgrows.forest
  kpml_eq := hgrows.kpml_eq.trans h.kpml_eq
  kpml_level := hgrows.extend _ _ h.kpml_level
  kernel_eq table idx hk := (hgrows.kernel_eq table idx hk).trans (h.kernel_eq table idx hk)
  spaces space hspace := by
    rcases hspaces space hspace with hold | hnew
    · exact (h.spaces space hold).grows hgrows
    · exact hnew

theorem Isolated.create {memory : ℕ → USizeRange} {space : Space Memory} {vmm : Vmm}
    (h : Isolated start level s) (hcall : spaceCreate memory s.vmm = .ok (space, vmm)) :
    ∃ level', Isolated start level' ⟨vmm, s.spaces ++ [space]⟩ := by
  simp only [spaceCreate, bind_eq_ok, pure_eq_ok, Prod.exists, Prod.mk.injEq] at hcall
  obtain ⟨table, vmm₁, htable, alloc, _, rfl, rfl⟩ := hcall
  have hkpml : level s.vmm.kpml = some 4 := by
    rw [h.kpml_eq]
    exact h.kpml_level
  obtain ⟨level', hgrows, huser, hupper⟩ := vmmSpaceCreate_spec h.forest hkpml htable
  refine ⟨level', h.grows hgrows ?_⟩
  intro space hspace
  rcases List.mem_append.1 hspace with hold | hnew
  · exact Or.inl hold
  · rw [List.mem_singleton] at hnew
    subst hnew
    refine Or.inr ⟨huser, ?_, by simp⟩
    intro idx hlow hhigh
    rw [hupper idx hlow hhigh, h.kpml_eq]
    exact h.kernel_eq _ _ ⟨4, .root⟩

theorem Isolated.map {i : ℕ} {memory : Memory} {offset size vaddr flags : UInt64}
    {result : SpaceResult} {space space' : Space Memory} {vmm : Vmm}
    (h : Isolated start level s) (hspace : s.spaces[i]? = some space)
    (hlow : ∀ base, mapBase space (mapSize memory size) vaddr = some base →
      base.toNat % 2 ^ 48 + (mapSize memory size).toNat ≤ 255 * 2 ^ 39)
    (hcall : spaceMap space s.vmm memory memory offset size vaddr flags =
      .ok (result, space', vmm)) :
    (∃ level', Isolated start level' ⟨vmm, s.spaces.set i space'⟩) ∧
      ∀ range, result = .ok range → ∀ addr ∈ range, (pml4GetIndex addr).toNat < 255 := by
  have hmem := List.mem_of_getElem? hspace
  have hold := h.spaces space hmem
  cases result with
  | error err =>
    refine ⟨⟨level, ?_⟩, fun range hrange ↦ by cases hrange⟩
    obtain ⟨hspace', hvmm⟩ := spaceMap_error hcall
    rw [hvmm]
    apply h.grows (Grows.refl h.forest)
    intro other hother
    rcases List.mem_or_eq_of_mem_set hother with hother | rfl
    · exact Or.inl hother
    · obtain ⟨alloc, rfl⟩ := hspace'
      exact Or.inr ⟨hold.table, hold.upper, hold.mmaps⟩
  | ok range =>
    obtain ⟨_, hsize, hbase, ⟨alloc, rfl⟩, outcome, hmap⟩ := spaceMap_spec hcall
    have hrange := hlow range.base hbase
    rw [← hsize] at hrange
    have hthrough := through_of_low hrange
    obtain ⟨level', hgrows⟩ := vmmMap_spec h.forest hold.table hthrough hmap
    refine ⟨⟨level', h.grows hgrows ?_⟩, ?_⟩
    · intro other hother
      rcases List.mem_or_eq_of_mem_set hother with hother | rfl
      · exact Or.inl hother
      · have hgrown := hold.grows hgrows
        refine Or.inr ⟨hgrown.table, hgrown.upper, ?_⟩
        intro mapping hmapping
        rcases List.mem_append.1 hmapping with hmapping | hmapping
        · exact hold.mmaps mapping hmapping
        · rw [List.mem_singleton.1 hmapping]
          exact hthrough
    · intro range' hrange' addr haddr
      cases hrange'
      exact pml4GetIndex_of_low hrange haddr

theorem Isolated.unmap {i : ℕ} {range : USizeRange} {result : SpaceResult}
    {object : Option Memory} {space space' : Space Memory} {vmm : Vmm}
    (h : Isolated start level s) (hspace : s.spaces[i]? = some space)
    (hcall : spaceUnmap space s.vmm range = .ok (result, object, space', vmm)) :
    Isolated start level ⟨vmm, s.spaces.set i space'⟩ := by
  have hold := h.spaces space (List.mem_of_getElem? hspace)
  rcases spaceUnmap_spec hcall with ⟨_, rfl, rfl⟩ |
    ⟨before, mapping, after, hmmaps, _, rfl, outcome, hunmap⟩
  · apply h.grows (Grows.refl h.forest)
    intro other hother
    rcases List.mem_or_eq_of_mem_set hother with hother | rfl
    · exact Or.inl hother
    · exact Or.inr hold
  · have hmapping := hold.mmaps mapping (by simp [hmmaps])
    have hgrows := vmmUnmap_spec h.forest hold.table hmapping hunmap
    apply h.grows hgrows
    intro other hother
    rcases List.mem_or_eq_of_mem_set hother with hother | rfl
    · exact Or.inl hother
    · have hgrown := hold.grows hgrows
      refine Or.inr ⟨hgrown.table, hgrown.upper, fun m hm ↦ hold.mmaps m ?_⟩
      rw [hmmaps]
      rcases List.mem_append.1 hm with hm | hm <;> simp [hm]

/-- The tables of the kernel at the start are still its tables. -/
theorem Isolated.tableAt (h : Isolated start level s) {l : ℕ} {table : UInt64}
    (htable : TableAt start start.kpml l table) : TableAt s.vmm s.vmm.kpml l table := by
  induction htable with
  | root =>
    rw [← h.kpml_eq]
    exact .root
  | @next l idx table htable hidx hpresent ih =>
    have hsame := h.kernel_eq table idx ⟨_, htable⟩
    rw [← hsame] at hpresent ⊢
    exact .next ih hidx hpresent

open Classical in
/-- The rest of the kernel may free everything but the tables that can be reached, so the levels
are restricted to these. -/
theorem Isolated.other {calls : List PmmCall} {pmm : Pmm} (h : Isolated start level s)
    (hrun : Run PmmStep s.vmm.pmm calls pmm)
    (hkeep : ∀ range, .unused range ∈ calls → ∀ table, TablePage s table →
      mmapIoToPhys table ∉ range) :
    ∃ level', Isolated start level' { s with vmm := { s.vmm with pmm } } := by
  have hkernel : ∀ table, KernelTable start table → TablePage s table := fun table ⟨l, hl⟩ ↦
    ⟨s.vmm.kpml, List.mem_cons_self .., l, h.tableAt hl⟩
  have hroot : ∀ space ∈ s.spaces, TablePage s space.vmm := fun space hspace ↦
    ⟨space.vmm, List.mem_cons_of_mem _ (List.mem_map_of_mem hspace), 4, .root⟩
  have hclosed : ∀ table l idx, TablePage s table → level table = some (l + 2) → idx < 512 →
      (s.vmm.tables table idx).present = true → TablePage s (childOf (s.vmm.tables table idx)) := by
    rintro table l idx ⟨root, hmem, k, htable⟩ hl hidx hpresent
    have hrootLevel : level root = some 4 := by
      rcases List.mem_cons.1 hmem with rfl | hmem
      · rw [h.kpml_eq]
        exact h.kpml_level
      · obtain ⟨space, hspace, rfl⟩ := List.mem_map.1 hmem
        exact (h.spaces space hspace).table.level_eq
    have hk := htable.level_eq h.forest hrootLevel
    rw [hl] at hk
    obtain rfl := Option.some.inj hk
    exact ⟨root, hmem, l + 1, .next htable hidx hpresent⟩
  let level' : UInt64 → Option ℕ := fun table ↦ if TablePage s table then level table else none
  have hlevel : ∀ table l, level' table = some l ↔ TablePage s table ∧ level table = some l := by
    intro table l
    by_cases hpage : TablePage s table <;> simp [level', hpage]
  have hkpml : TablePage s start.kpml := hkernel _ ⟨4, .root⟩
  refine ⟨level', ?_, h.kpml_eq, (hlevel _ _).2 ⟨hkpml, h.kpml_level⟩, h.kernel_eq, ?_⟩
  · constructor
    · exact (run_layout hrun).pmmLayout h.forest.layout
    · intro table l hl
      obtain ⟨hpage, hl⟩ := (hlevel table l).1 hl
      exact run_pageUsed hrun h.forest.layout (h.forest.used table l hl)
        fun range hmem ↦ hkeep range hmem table hpage
    · intro table hk
      obtain ⟨l, hl⟩ := Option.ne_none_iff_exists'.1 (h.forest.kernel_table table hk)
      rw [(hlevel table l).2 ⟨hkernel table hk, hl⟩]
      exact Option.some_ne_none l
    · intro table l idx hl hidx hpresent
      obtain ⟨hpage, hl⟩ := (hlevel table _).1 hl
      exact (hlevel _ _).2 ⟨hclosed table l idx hpage hl hidx hpresent,
        h.forest.child table l idx hl hidx hpresent⟩
    · intro table l idx hl
      exact h.forest.apart table l idx ((hlevel table _).1 hl).2
  · intro space hspace
    have hold := h.spaces space hspace
    exact ⟨⟨(hlevel _ _).2 ⟨hroot space hspace, hold.table.level_eq⟩, hold.table.not_kernel⟩,
      hold.upper, hold.mmaps⟩

/-- One call keeps the invariant, and what it maps is below slot 255. -/
theorem Isolated.step {call : SpaceCall} (h : Isolated start level s)
    (hstep : Guarded SpaceStep LowTarget s call s') :
    (∃ level', Isolated start level' s') ∧
      ∀ i memory offset size vaddr flags range,
        call = .map i memory offset size vaddr flags (.ok range) →
        ∀ addr ∈ range, (pml4GetIndex addr).toNat < 255 := by
  obtain ⟨hlow, hstep⟩ := hstep
  cases call with
  | create memory =>
    obtain ⟨space, vmm, hcall, rfl⟩ := hstep
    exact ⟨h.create hcall, by simp⟩
  | map i memory offset size vaddr flags result =>
    obtain ⟨space, space', vmm, hspace, hcall, rfl⟩ := hstep
    obtain ⟨hisolated, hmapped⟩ := h.map hspace (hlow space hspace) hcall
    refine ⟨hisolated, ?_⟩
    intro i' memory' offset' size' vaddr' flags' range hcall
    cases hcall
    exact hmapped range rfl
  | unmap i range =>
    obtain ⟨space, result, object, space', vmm, hspace, hcall, rfl⟩ := hstep
    exact ⟨⟨level, h.unmap hspace hcall⟩, by simp⟩
  | other calls =>
    obtain ⟨pmm, hrun, hkeep, rfl⟩ := hstep
    exact ⟨h.other hrun hkeep, by simp⟩

theorem Isolated.run {calls : List SpaceCall} (hrun : Run (Guarded SpaceStep LowTarget) s calls s')
    (h : Isolated start level s) :
    (∃ level', Isolated start level' s') ∧
      ∀ i memory offset size vaddr flags range,
        .map i memory offset size vaddr flags (.ok range) ∈ calls →
        ∀ addr ∈ range, (pml4GetIndex addr).toNat < 255 := by
  induction hrun generalizing level with
  | nil s => exact ⟨⟨level, h⟩, by simp⟩
  | cons head _ ih =>
    obtain ⟨⟨level₁, hnext⟩, hmapped⟩ := h.step head
    obtain ⟨hlast, hrest⟩ := ih hnext
    refine ⟨hlast, ?_⟩
    intro i memory offset size vaddr flags range hmem
    rcases List.mem_cons.1 hmem with hcall | hmem
    · exact hmapped i memory offset size vaddr flags range hcall.symm
    · exact hrest i memory offset size vaddr flags range hmem

/-- In every run in which the ranges to be mapped end below slot 255, everything mapped is below
slot 255, and neither the tables of the kernel nor the upper slots of any space ever change. -/
theorem kernelHalf_isolated {start : Machine} {calls : List SpaceCall} (hready : Ready start.vmm)
    (hspaces : start.spaces = []) (hrun : Run (Guarded SpaceStep LowTarget) start calls s) :
    (∀ i memory offset size vaddr flags range,
        .map i memory offset size vaddr flags (.ok range) ∈ calls →
        ∀ addr ∈ range, (pml4GetIndex addr).toNat < 255) ∧
      (∀ l table, TableAt start.vmm start.vmm.kpml l table →
        ∀ idx, s.vmm.tables table idx = start.vmm.tables table idx) ∧
      ∀ space ∈ s.spaces, ∀ idx, 255 ≤ idx → idx < 512 →
        s.vmm.tables space.vmm idx = start.vmm.tables start.vmm.kpml idx := by
  have hstart : Isolated start.vmm (kernelLevel start.vmm) start :=
    ⟨hready.forest 255, rfl, hready.kernelLevel_eq_some.2 .root, fun _ _ _ ↦ rfl, by simp [hspaces]⟩
  obtain ⟨⟨level, hlast⟩, hmapped⟩ := Isolated.run hrun hstart
  refine ⟨hmapped, ?_, ?_⟩
  · intro l table htable idx
    exact hlast.kernel_eq table idx ⟨l, htable⟩
  · intro space hspace
    exact (hlast.spaces space hspace).upper

/-- A machine of sixteen pages whose kernel has an empty top table. -/
def bareMachine : Except Fault Machine := do
  let pmm ← pmmInitialize (fun _ _ ↦ false) sixteenPages
  let result ← heapAllocLower pmm memPageSize
  let (heapResult, pmm) ← unwrap result
  pure ⟨clearTable ⟨fun _ _ ↦ pmlCleanEntry, heapResult.base, pmm⟩ heapResult.base, []⟩

/-- Create a space there and map `onePage` into it at an address. -/
def createAndMap (vaddr : UInt64) : Except Fault (SpaceResult × Space Memory × Vmm) := do
  let start ← bareMachine
  let (space, vmm) ← spaceCreate (fun _ ↦ ⟨0, 0⟩) start.vmm
  spaceMap space vmm onePage onePage 0 0 vaddr brMemWritable

theorem bareMachine_ready {start : Machine} (h : bareMachine = .ok start) :
    Ready start.vmm ∧ start.spaces = [] := by
  simp only [bareMachine, bind_eq_ok, pure_eq_ok, Prod.exists] at h
  obtain ⟨pmm, hpmm, outcome, pmm₁, halloc, heapResult, pmm₂, hunwrap, rfl⟩ := h
  have hlayout := (pmmInitialize_spec hpmm).1
  obtain ⟨range, rfl, _⟩ := heapAllocImpl_spec hlayout halloc
  simp only [unwrap, Except.ok.injEq, Prod.mk.injEq] at hunwrap
  obtain ⟨rfl, rfl⟩ := hunwrap
  exact ⟨(emptyTop_forest _ hlayout halloc).ready (Function.update_self ..), rfl⟩

/-- The calls of `createAndMap` as a run. -/
theorem createAndMap_run (vaddr : UInt64) (range : USizeRange)
    (h : (createAndMap vaddr).map Prod.fst = .ok (.ok range)) :
    ∃ start created s, Ready start.vmm ∧ start.spaces = [] ∧
      SpaceStep start (.create fun _ ↦ ⟨0, 0⟩) created ∧
      SpaceStep created (.map 0 onePage 0 0 vaddr brMemWritable (.ok range)) s := by
  cases hmap : createAndMap vaddr with
  | error fault =>
    rw [hmap] at h
    cases h
  | ok mapped =>
    obtain ⟨result, space', vmm'⟩ := mapped
    rw [hmap] at h
    cases h
    simp only [createAndMap, bind_eq_ok, Prod.exists] at hmap
    obtain ⟨start, hstart, space, vmm, hcreate, hmap⟩ := hmap
    obtain ⟨hready, hspaces⟩ := bareMachine_ready hstart
    refine ⟨start, ⟨vmm, start.spaces ++ [space]⟩, ⟨vmm', (start.spaces ++ [space]).set 0 space'⟩,
      hready, hspaces, ⟨space, vmm, hcreate, rfl⟩, space, space', vmm', ?_, hmap, rfl⟩
    rw [hspaces]
    rfl

/-- A page is mapped at `0x400000`. -/
theorem kernelHalf_isolated_low :
    ∃ start s, Ready start.vmm ∧ start.spaces = [] ∧
      Run (Guarded SpaceStep LowTarget) start [.create fun _ ↦ ⟨0, 0⟩,
        .map 0 onePage 0 0 0x400000 brMemWritable (.ok ⟨0x400000, 0x1000⟩)] s ∧
      ∀ addr ∈ (⟨0x400000, 0x1000⟩ : USizeRange), (pml4GetIndex addr).toNat < 255 := by
  obtain ⟨start, created, s, hready, hspaces, hcreate, hmap⟩ :=
    createAndMap_run 0x400000 ⟨0x400000, 0x1000⟩ (by decide +kernel)
  have hlow : LowTarget created
      (.map 0 onePage 0 0 0x400000 brMemWritable (.ok ⟨0x400000, 0x1000⟩)) := by
    intro space _ base hbase
    cases hbase
    decide
  have hrun : Run (Guarded SpaceStep LowTarget) start [.create fun _ ↦ ⟨0, 0⟩,
      .map 0 onePage 0 0 0x400000 brMemWritable (.ok ⟨0x400000, 0x1000⟩)] s :=
    .cons ⟨trivial, hcreate⟩ (.cons ⟨hlow, hmap⟩ (.nil s))
  exact ⟨start, s, hready, hspaces, hrun,
    (kernelHalf_isolated hready hspaces hrun).1 0 onePage 0 0 0x400000 brMemWritable _ (by simp)⟩

/-- A caller maps a page at `0xffffff0000000000`, through slot 510. -/
theorem kernelHalf_isolated_fails :
    ∃ start s, Ready start.vmm ∧ start.spaces = [] ∧
      Run SpaceStep start [.create fun _ ↦ ⟨0, 0⟩, .map 0 onePage 0 0 0xffffff0000000000
        brMemWritable (.ok ⟨0xffffff0000000000, 0x1000⟩)] s ∧
      ¬ ∀ addr ∈ (⟨0xffffff0000000000, 0x1000⟩ : USizeRange),
        (pml4GetIndex addr).toNat < 255 := by
  obtain ⟨start, created, s, hready, hspaces, hcreate, hmap⟩ :=
    createAndMap_run 0xffffff0000000000 ⟨0xffffff0000000000, 0x1000⟩
      (by decide +kernel)
  refine ⟨start, s, hready, hspaces, .cons hcreate (.cons hmap (.nil s)), fun hlow ↦ ?_⟩
  exact absurd (hlow 0xffffff0000000000 (by decide)) (by decide)

end Brutal.Kernel
