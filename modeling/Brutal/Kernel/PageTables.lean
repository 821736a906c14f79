import Brutal.Kernel.Vmm

/-!
# Who owns a page table

The tables of all spaces form a forest: each table has a level, the entries of a table of level two
or more lead to tables one level below, and every table lives on a page of its own that is in use.
The tables of the kernel can be reached from a table of a user space only through the upper slots
of its top table.  `Forest` says this, and mapping or unmapping pages through lower slots keeps it
and leaves the tables of the kernel and the upper slots alone.
-/

namespace Brutal.Kernel

open Base Boot Ds Lib

variable {target flags table other space : UInt64} {idx i l : ℕ} {result : VmmResult}
  {virtualRange physicalRange : USizeRange}

/-- The index into a table of a level is nine bits of the address. -/
theorem pmlxGetIndex_toNat {level : UInt64} (addr : UInt64) (hlevel : level.toNat ≤ 3) :
    (pmlxGetIndex addr level).toNat = addr.toNat / 2 ^ (12 + level.toNat * 9) % 512 := by
  have htwelve : (12 : UInt64).toNat = 12 := rfl
  have hnine : (9 : UInt64).toNat = 9 := rfl
  have hshift : (12 + level * 9).toNat = 12 + level.toNat * 9 := by
    rw [UInt64.toNat_add, UInt64.toNat_mul, htwelve, hnine]
    omega
  have hmask : (0x1FF : UInt64).toNat = 2 ^ 9 - 1 := rfl
  exact toNat_and_shift_field hshift hmask (by omega) (by decide)

theorem pmlxGetIndex_lt {level : UInt64} (addr : UInt64) (hlevel : level.toNat ≤ 3) :
    (pmlxGetIndex addr level).toNat < 512 := by
  rw [pmlxGetIndex_toNat addr hlevel]
  exact Nat.mod_lt _ (by decide)

/-- The table that an entry leads to. -/
def childOf (entry : PmlEntry) : UInt64 := mmapPhysToIo (pmlGetAddr entry)

theorem childOf_pmlMakeEntry (haligned : (mmapIoToPhys target).toNat % 4096 = 0) :
    childOf (pmlMakeEntry (mmapIoToPhys target) flags) = target := by
  have hshift : ((mmapIoToPhys target) >>> (12 : UInt64)) <<< (12 : UInt64) =
      mmapIoToPhys target := shift_roundtrip rfl (by decide) haligned
  rw [childOf, pmlGetAddr, pmlMakeEntry, hshift, mmapPhysToIo, mmapIoToPhys,
    UInt64.sub_add_cancel]

@[simp]
theorem present_pmlCleanEntry : pmlCleanEntry.present = false := rfl

@[simp]
theorem present_pmlMakeEntry (physical : UInt64) (flags : BrMemoryFlags) :
    (pmlMakeEntry physical flags).present = true := rfl

@[simp]
theorem setEntry_pmm (vmm : Vmm) (table : UInt64) (idx : ℕ) (entry : PmlEntry) :
    (setEntry vmm table idx entry).pmm = vmm.pmm := rfl

@[simp]
theorem setEntry_kpml (vmm : Vmm) (table : UInt64) (idx : ℕ) (entry : PmlEntry) :
    (setEntry vmm table idx entry).kpml = vmm.kpml := rfl

theorem setEntry_tables_self (vmm : Vmm) (table : UInt64) (idx : ℕ) (entry : PmlEntry) :
    (setEntry vmm table idx entry).tables table idx = entry := by
  simp [setEntry]

theorem setEntry_tables_of_ne {vmm : Vmm} {entry : PmlEntry} (h : other ≠ table ∨ i ≠ idx) :
    (setEntry vmm table idx entry).tables other i = vmm.tables other i := by
  by_cases htable : other = table
  · subst htable
    have hi := h.resolve_left (fun hne ↦ hne rfl)
    simp [setEntry, hi]
  · simp [setEntry, htable]

theorem clearTable_tables_self (vmm : Vmm) (table : UInt64) (i : ℕ) :
    (clearTable vmm table).tables table i = pmlCleanEntry := by
  simp [clearTable]

theorem clearTable_tables_of_ne {vmm : Vmm} (h : other ≠ table) (i : ℕ) :
    (clearTable vmm table).tables other i = vmm.tables other i := by
  simp [clearTable, h]

/-- What allocating a page for a table does to the physical memory manager. -/
structure FreshPage (pmm : Pmm) (page : UInt64) (pmm' : Pmm) : Prop where
  layout : PmmLayout pmm'
  aligned : (mmapIoToPhys page).toNat % 4096 = 0
  free : PageFree pmm (mmapIoToPhys page)
  used : PageUsed pmm' (mmapIoToPhys page)
  keeps : ∀ addr, PageUsed pmm addr → PageUsed pmm' addr

theorem heapAllocImpl_spec {pmm pmm' : Pmm} {higher : Bool} (hpmm : PmmLayout pmm)
    (h : heapAllocImpl pmm memPageSize higher = .ok (result, pmm')) :
    ∃ range, result = .ok range ∧ FreshPage pmm range.base pmm' := by
  have hsize : alignUp memPageSize memPageSize = memPageSize := rfl
  rw [heapAllocImpl, hsize, tryBind_eq_ok] at h
  rcases h with ⟨err, halloc, _⟩ | ⟨range, pmm₁, halloc, h⟩
  · obtain ⟨_, _, _, hresult, _⟩ := pmmAlloc_spec halloc
    cases hresult
  · cases h
    refine ⟨_, rfl, ?_⟩
    have hstep : PmmStep pmm (.alloc memPageSize higher range) pmm' := halloc
    obtain ⟨haligned, hrange, hpages⟩ := pmmAlloc_pages hpmm halloc
    have hphys : mmapIoToPhys (mmapPhysToIo range.base) = range.base := by
      rw [mmapIoToPhys, mmapPhysToIo, UInt64.add_sub_cancel]
    have hmem : range.base ∈ range := by
      rw [mem_def, hrange, UInt64.sub_self]
      decide
    obtain ⟨hfree, hused⟩ := hpages range.base hmem
    constructor
    · exact hstep.accounted_eq.1.pmmLayout hpmm
    · rw [hphys]
      exact (memIsRangePageAligned_iff.1 haligned).1
    · rw [hphys]
      exact hfree
    · rw [hphys]
      exact hused
    · intro addr haddr
      exact hstep.pageUsed hpmm haddr (by simp)

variable {level level' : UInt64 → Option ℕ} {kernel : UInt64 → Prop} {bound : ℕ}
  {vmm vmm' : Vmm}

/-- The tables by level, those of the kernel among them, and the number of slots of a top table
that do not belong to the kernel. -/
structure Forest (level : UInt64 → Option ℕ) (kernel : UInt64 → Prop) (bound : ℕ) (vmm : Vmm) :
    Prop where
  layout : PmmLayout vmm.pmm
  used : ∀ table l, level table = some l → PageUsed vmm.pmm (mmapIoToPhys table)
  kernel_table : ∀ table, kernel table → level table ≠ none
  child : ∀ table l idx, level table = some (l + 2) → idx < 512 →
    (vmm.tables table idx).present = true → level (childOf (vmm.tables table idx)) = some (l + 1)
  apart : ∀ table l idx, level table = some (l + 2) → ¬ kernel table → idx < 512 →
    (l + 2 = 4 → idx < bound) → (vmm.tables table idx).present = true →
    ¬ kernel (childOf (vmm.tables table idx))

/-- The forest may grow, but nothing of the kernel changes and no table is cut off. -/
structure Grows (level : UInt64 → Option ℕ) (kernel : UInt64 → Prop) (bound : ℕ) (vmm : Vmm)
    (level' : UInt64 → Option ℕ) (vmm' : Vmm) : Prop where
  forest : Forest level' kernel bound vmm'
  extend : ∀ table l, level table = some l → level' table = some l
  kpml_eq : vmm'.kpml = vmm.kpml
  kernel_eq : ∀ table idx, kernel table → vmm'.tables table idx = vmm.tables table idx
  top_eq : ∀ table idx, level table = some 4 → bound ≤ idx →
    vmm'.tables table idx = vmm.tables table idx
  keeps : ∀ table l idx, level table = some (l + 2) → (vmm.tables table idx).present = true →
    vmm'.tables table idx = vmm.tables table idx

namespace Grows

theorem refl (h : Forest level kernel bound vmm) : Grows level kernel bound vmm level vmm where
  forest := h
  extend _ _ h := h
  kpml_eq := rfl
  kernel_eq _ _ _ := rfl
  top_eq _ _ _ _ := rfl
  keeps _ _ _ _ _ := rfl

theorem trans {level'' : UInt64 → Option ℕ} {vmm'' : Vmm}
    (h : Grows level kernel bound vmm level' vmm')
    (h' : Grows level' kernel bound vmm' level'' vmm'') :
    Grows level kernel bound vmm level'' vmm'' where
  forest := h'.forest
  extend table l hl := h'.extend table l (h.extend table l hl)
  kpml_eq := h'.kpml_eq.trans h.kpml_eq
  kernel_eq table idx hk := (h'.kernel_eq table idx hk).trans (h.kernel_eq table idx hk)
  top_eq table idx hl hb :=
    (h'.top_eq table idx (h.extend table 4 hl) hb).trans (h.top_eq table idx hl hb)
  keeps table l idx hl hpresent := by
    have hfirst := h.keeps table l idx hl hpresent
    have hsecond := h'.keeps table l idx (h.extend table _ hl) (by rw [hfirst]; exact hpresent)
    exact hsecond.trans hfirst

end Grows

/-- A page that was free holds no table. -/
theorem Forest.fresh {page : UInt64} {pmm : Pmm} (h : Forest level kernel bound vmm)
    (hpage : FreshPage vmm.pmm page pmm) : level page = none := by
  by_contra hne
  obtain ⟨l, hl⟩ := Option.ne_none_iff_exists'.1 hne
  exact Bool.false_ne_true (hpage.free.2.symm.trans (h.used page l hl).2)

/-- Writing the entries of a table of the lowest level. -/
theorem Forest.setLeaf (h : Forest level kernel bound vmm) (idx : ℕ) (entry : PmlEntry)
    (htable : level table = some 1) (hkernel : ¬ kernel table) :
    Grows level kernel bound vmm level (setEntry vmm table idx entry) := by
  have hother : ∀ other l i, level other = some (l + 2) →
      (setEntry vmm table idx entry).tables other i = vmm.tables other i := by
    intro other l i hl
    apply setEntry_tables_of_ne
    left
    rintro rfl
    rw [htable] at hl
    cases hl
  constructor
  · constructor
    · exact h.layout
    · exact h.used
    · exact h.kernel_table
    · intro other l i hl hi hpresent
      rw [hother other l i hl] at hpresent ⊢
      exact h.child other l i hl hi hpresent
    · intro other l i hl hnot hi hbound hpresent
      rw [hother other l i hl] at hpresent ⊢
      exact h.apart other l i hl hnot hi hbound hpresent
  · exact fun _ _ hl ↦ hl
  · rfl
  · intro other i hk
    apply setEntry_tables_of_ne
    left
    rintro rfl
    exact hkernel hk
  · intro other i hl _
    exact hother other 2 i hl
  · intro other l i hl _
    exact hother other l i hl

section NewPage

variable {page : UInt64} {pmm : Pmm}

/-- A page that was free is none of the tables. -/
theorem Forest.ne_page (h : Forest level kernel bound vmm) (hpage : FreshPage vmm.pmm page pmm)
    (hother : level other ≠ none) : other ≠ page := by
  rintro rfl
  exact hother (h.fresh hpage)

/-- The tables keep their levels when the page becomes one. -/
theorem Forest.level_update (h : Forest level kernel bound vmm) (hpage : FreshPage vmm.pmm page pmm)
    (l : ℕ) {k : ℕ} (hk : level other = some k) :
    Function.update level page (some l) other = some k := by
  have hne := h.ne_page hpage (by rw [hk]; exact Option.some_ne_none k)
  rwa [Function.update_of_ne hne]

theorem Forest.used_update (h : Forest level kernel bound vmm)
    (hpage : FreshPage vmm.pmm page pmm) (l : ℕ) (other : UInt64) (k : ℕ)
    (hk : Function.update level page (some l) other = some k) :
    PageUsed pmm (mmapIoToPhys other) := by
  by_cases heq : other = page
  · rw [heq]
    exact hpage.used
  · rw [Function.update_of_ne heq] at hk
    exact hpage.keeps _ (h.used other k hk)

theorem Forest.kernel_update (h : Forest level kernel bound vmm)
    (hpage : FreshPage vmm.pmm page pmm) (l : ℕ) (other : UInt64) (hk : kernel other) :
    Function.update level page (some l) other ≠ none := by
  have hsome := h.kernel_table other hk
  rwa [Function.update_of_ne (h.ne_page hpage hsome)]

end NewPage

/-- A new table below a table that is not one of the kernel. -/
theorem Forest.addTable {table page : UInt64} {pmm : Pmm} (h : Forest level kernel bound vmm)
    (flags : UInt64) (hpage : FreshPage vmm.pmm page pmm) (htable : level table = some (l + 2))
    (hkernel : ¬ kernel table) (hbound : l + 2 = 4 → idx < bound)
    (habsent : (vmm.tables table idx).present = false) :
    Grows level kernel bound vmm (Function.update level page (some (l + 1)))
      (setEntry (clearTable { vmm with pmm } page) table idx
        (pmlMakeEntry (mmapIoToPhys page) flags)) := by
  have hne : ∀ other k, level other = some k → other ≠ page := fun other k hk ↦
    h.ne_page hpage (by rw [hk]; exact Option.some_ne_none k)
  have htableNe : table ≠ page := hne table (l + 2) htable
  have hkernelPage : ¬ kernel page := fun hk ↦ h.kernel_table page hk (h.fresh hpage)
  have hother : ∀ other i, other ≠ page → other ≠ table ∨ i ≠ idx →
      (setEntry (clearTable { vmm with pmm } page) table idx
        (pmlMakeEntry (mmapIoToPhys page) flags)).tables other i = vmm.tables other i := by
    intro other i hpage' hslot
    rw [setEntry_tables_of_ne hslot, clearTable_tables_of_ne hpage']
  have hnew : ∀ i, (setEntry (clearTable { vmm with pmm } page) table idx
      (pmlMakeEntry (mmapIoToPhys page) flags)).tables page i = pmlCleanEntry := by
    intro i
    rw [setEntry_tables_of_ne (Or.inl (Ne.symm htableNe)), clearTable_tables_self]
  constructor
  · constructor
    · exact hpage.layout
    · exact h.used_update hpage (l + 1)
    · exact h.kernel_update hpage (l + 1)
    · intro other k i hk hi hpresent
      by_cases hpage' : other = page
      · subst hpage'
        rw [hnew i] at hpresent
        cases hpresent
      · rw [Function.update_of_ne hpage'] at hk
        by_cases hslot : other = table ∧ i = idx
        · obtain ⟨rfl, rfl⟩ := hslot
          rw [htable] at hk
          cases hk
          rw [setEntry_tables_self, childOf_pmlMakeEntry hpage.aligned, Function.update_self]
        · rw [hother other i hpage' (by tauto)] at hpresent ⊢
          exact h.level_update hpage (l + 1) (h.child other k i hk hi hpresent)
    · intro other k i hk hnot hi hb hpresent
      by_cases hpage' : other = page
      · subst hpage'
        rw [hnew i] at hpresent
        cases hpresent
      · rw [Function.update_of_ne hpage'] at hk
        by_cases hslot : other = table ∧ i = idx
        · obtain ⟨rfl, rfl⟩ := hslot
          rw [setEntry_tables_self, childOf_pmlMakeEntry hpage.aligned]
          exact hkernelPage
        · rw [hother other i hpage' (by tauto)] at hpresent ⊢
          exact h.apart other k i hk hnot hi hb hpresent
  · intro other k hk
    exact h.level_update hpage (l + 1) hk
  · rfl
  · intro other i hk
    apply hother other i
    · rintro rfl
      exact hkernelPage hk
    · left
      rintro rfl
      exact hkernel hk
  · intro other i hl hi
    apply hother other i (hne other 4 hl)
    by_contra hslot
    simp only [not_or, not_not] at hslot
    obtain ⟨rfl, rfl⟩ := hslot
    rw [htable] at hl
    have htop : l + 2 = 4 := Option.some.inj hl
    exact absurd (hbound htop) (not_lt.2 hi)
  · intro other k i hk hpresent
    apply hother other i (hne other (k + 2) hk)
    by_contra hslot
    simp only [not_or, not_not] at hslot
    obtain ⟨rfl, rfl⟩ := hslot
    rw [habsent] at hpresent
    cases hpresent

/-! ## Walking down the tables -/

/-- A table of this level that does not belong to the kernel. -/
structure UserTable (level : UInt64 → Option ℕ) (kernel : UInt64 → Prop) (l : ℕ) (table : UInt64) :
    Prop where
  level_eq : level table = some l
  not_kernel : ¬ kernel table

theorem UserTable.extend (h : UserTable level kernel l table)
    (hgrows : Grows level kernel bound vmm level' vmm') : UserTable level' kernel l table :=
  ⟨hgrows.extend table l h.level_eq, h.not_kernel⟩

theorem Forest.userChild (h : Forest level kernel bound vmm)
    (htable : UserTable level kernel (l + 2) table) (hidx : idx < 512)
    (hbound : l + 2 = 4 → idx < bound) (hpresent : (vmm.tables table idx).present = true) :
    UserTable level kernel (l + 1) (childOf (vmm.tables table idx)) :=
  ⟨h.child table l idx htable.level_eq hidx hpresent,
    h.apart table l idx htable.level_eq htable.not_kernel hidx hbound hpresent⟩

theorem vmmGetPmlOrAlloc_spec (h : Forest level kernel bound vmm)
    (htable : UserTable level kernel (l + 2) table) (hidx : idx < 512)
    (hbound : l + 2 = 4 → idx < bound)
    (hcall : vmmGetPmlOrAlloc vmm table idx flags = .ok (result, vmm')) :
    ∃ level' range, result = .ok range ∧ Grows level kernel bound vmm level' vmm' ∧
      UserTable level' kernel (l + 1) range.base := by
  unfold vmmGetPmlOrAlloc at hcall
  dsimp only at hcall
  split at hcall
  next hpresent =>
    cases hcall
    exact ⟨level, _, rfl, Grows.refl h, h.userChild htable hidx hbound hpresent⟩
  next habsent =>
    simp only [bind_eq_ok, Prod.exists] at hcall
    obtain ⟨outcome, pmm, halloc, hcall⟩ := hcall
    obtain ⟨range, rfl, hpage⟩ := heapAllocImpl_spec h.layout halloc
    cases hcall
    have hgrows := h.addTable flags hpage htable.level_eq htable.not_kernel hbound
      (Bool.eq_false_iff.2 habsent)
    refine ⟨_, _, rfl, hgrows, ⟨Function.update_self .., fun hk ↦ ?_⟩⟩
    exact h.kernel_table _ hk (h.fresh hpage)

theorem vmmGetPml_spec {range : USizeRange} (h : Forest level kernel bound vmm)
    (htable : UserTable level kernel (l + 2) table) (hidx : idx < 512)
    (hbound : l + 2 = 4 → idx < bound) (hcall : vmmGetPml vmm table idx = .ok range) :
    UserTable level kernel (l + 1) range.base := by
  unfold vmmGetPml at hcall
  dsimp only at hcall
  split at hcall
  next => cases hcall
  next hpresent =>
    have hrange := Except.ok.inj hcall
    rw [← hrange]
    exact h.userChild htable hidx hbound (by simpa using hpresent)

/-- Mapping a page through a slot that does not belong to the kernel. -/
theorem vmmMapPage_spec {pml4 virtualPage physicalPage flags : UInt64}
    (h : Forest level kernel bound vmm) (htable : UserTable level kernel 4 pml4)
    (hbound : (pml4GetIndex virtualPage).toNat < bound)
    (hcall : vmmMapPage vmm pml4 virtualPage physicalPage flags = .ok (result, vmm')) :
    ∃ level', Grows level kernel bound vmm level' vmm' := by
  simp only [vmmMapPage, tryBind_eq_ok] at hcall
  have hthree : (3 : UInt64).toNat ≤ 3 := by decide
  have htwo : (2 : UInt64).toNat ≤ 3 := by decide
  have hone : (1 : UInt64).toNat ≤ 3 := by decide
  rcases hcall with ⟨err, hpml3, _⟩ | ⟨pml3, vmm₃, hpml3, hcall⟩
  · obtain ⟨_, _, hresult, _⟩ := vmmGetPmlOrAlloc_spec (l := 2) h htable
      (pmlxGetIndex_lt _ hthree) (fun _ ↦ hbound) hpml3
    cases hresult
  obtain ⟨level₃, _, hresult, hgrows₃, htable₃⟩ := vmmGetPmlOrAlloc_spec (l := 2) h htable
    (pmlxGetIndex_lt _ hthree) (fun _ ↦ hbound) hpml3
  cases hresult
  rcases hcall with ⟨err, hpml2, _⟩ | ⟨pml2, vmm₂, hpml2, hcall⟩
  · obtain ⟨_, _, hresult, _⟩ := vmmGetPmlOrAlloc_spec (l := 1) hgrows₃.forest htable₃
      (pmlxGetIndex_lt _ htwo) (fun hl ↦ by cases hl) hpml2
    cases hresult
  obtain ⟨level₂, _, hresult, hgrows₂, htable₂⟩ := vmmGetPmlOrAlloc_spec (l := 1) hgrows₃.forest
    htable₃ (pmlxGetIndex_lt _ htwo) (fun hl ↦ by cases hl) hpml2
  cases hresult
  rcases hcall with ⟨err, hpml1, _⟩ | ⟨pml1, vmm₁, hpml1, hcall⟩
  · obtain ⟨_, _, hresult, _⟩ := vmmGetPmlOrAlloc_spec (l := 0) hgrows₂.forest htable₂
      (pmlxGetIndex_lt _ hone) (fun hl ↦ by cases hl) hpml1
    cases hresult
  obtain ⟨level₁, _, hresult, hgrows₁, htable₁⟩ := vmmGetPmlOrAlloc_spec (l := 0) hgrows₂.forest
    htable₂ (pmlxGetIndex_lt _ hone) (fun hl ↦ by cases hl) hpml1
  cases hresult
  rw [ite_error_eq_ok] at hcall
  obtain ⟨_, hcall⟩ := hcall
  cases hcall
  have hleaf := hgrows₁.forest.setLeaf (pml1GetIndex virtualPage).toNat
    (pmlMakeEntry physicalPage flags) htable₁.level_eq htable₁.not_kernel
  exact ⟨level₁, ((hgrows₃.trans hgrows₂).trans hgrows₁).trans hleaf⟩

theorem vmmUnmapPage_spec {pml4 virtualPage : UInt64} (h : Forest level kernel bound vmm)
    (htable : UserTable level kernel 4 pml4) (hbound : (pml4GetIndex virtualPage).toNat < bound)
    (hcall : vmmUnmapPage vmm pml4 virtualPage = .ok (result, vmm')) :
    Grows level kernel bound vmm level vmm' := by
  simp only [vmmUnmapPage, tryBind_eq_ok, Except.ok.injEq, Prod.mk.injEq] at hcall
  have hthree : (3 : UInt64).toNat ≤ 3 := by decide
  have htwo : (2 : UInt64).toNat ≤ 3 := by decide
  have hone : (1 : UInt64).toNat ≤ 3 := by decide
  rcases hcall with ⟨_, ⟨_, rfl⟩, _⟩ | ⟨pml3, _, ⟨hpml3, rfl⟩, hcall⟩
  · exact Grows.refl h
  have htable₃ := vmmGetPml_spec (l := 2) h htable (pmlxGetIndex_lt _ hthree) (fun _ ↦ hbound)
    hpml3
  rcases hcall with ⟨_, ⟨_, rfl⟩, _⟩ | ⟨pml2, _, ⟨hpml2, rfl⟩, hcall⟩
  · exact Grows.refl h
  have htable₂ := vmmGetPml_spec (l := 1) h htable₃ (pmlxGetIndex_lt _ htwo)
    (fun hl ↦ by cases hl) hpml2
  rcases hcall with ⟨_, ⟨_, rfl⟩, _⟩ | ⟨pml1, _, ⟨hpml1, rfl⟩, hcall⟩
  · exact Grows.refl h
  have htable₁ := vmmGetPml_spec (l := 0) h htable₂ (pmlxGetIndex_lt _ hone)
    (fun hl ↦ by cases hl) hpml1
  split at hcall
  next =>
    cases hcall
    exact h.setLeaf _ _ htable₁.level_eq htable₁.not_kernel
  next => cases hcall

/-- Every page of the range goes through a slot below the bound. -/
def Through (bound : ℕ) (range : USizeRange) : Prop :=
  ∀ i < (range.size / memPageSize).toNat,
    (pml4GetIndex (UInt64.ofNat i * memPageSize + range.base)).toNat < bound

theorem mapPages_spec {left i : ℕ} (h : Forest level kernel bound vmm)
    (htable : UserTable level kernel 4 space) (hbound : ∀ j, i ≤ j → j < i + left →
      (pml4GetIndex (UInt64.ofNat j * memPageSize + virtualRange.base)).toNat < bound)
    (hcall : mapPages space virtualRange physicalRange flags left i vmm = .ok vmm') :
    ∃ level', Grows level kernel bound vmm level' vmm' := by
  induction left generalizing i vmm level with
  | zero =>
    cases hcall
    exact ⟨level, Grows.refl h⟩
  | succ left ih =>
    simp only [mapPages, bind_eq_ok, Prod.exists] at hcall
    obtain ⟨result, vmm₁, hpage, hcall⟩ := hcall
    obtain ⟨level₁, hgrows⟩ := vmmMapPage_spec h htable (hbound i le_rfl (by omega)) hpage
    obtain ⟨level₂, hgrows'⟩ := ih hgrows.forest (htable.extend hgrows)
      (fun j hlow hhigh ↦ hbound j (by omega) (by omega)) hcall
    exact ⟨level₂, hgrows.trans hgrows'⟩

theorem vmmMap_spec (h : Forest level kernel bound vmm) (htable : UserTable level kernel 4 space)
    (hbound : Through bound virtualRange)
    (hcall : vmmMap vmm space virtualRange physicalRange flags = .ok (result, vmm')) :
    ∃ level', Grows level kernel bound vmm level' vmm' := by
  simp only [vmmMap, bind_eq_ok, assertTruth_eq_ok] at hcall
  obtain ⟨_, _, _, _, hcall⟩ := hcall
  rw [ite_error_eq_ok] at hcall
  obtain ⟨_, hcall⟩ := hcall
  simp only [bind_eq_ok, pure_eq_ok, Prod.mk.injEq] at hcall
  obtain ⟨mapped, hpages, rfl, rfl⟩ := hcall
  exact mapPages_spec h htable (fun j _ hhigh ↦ hbound j (by omega)) hpages

theorem unmapPages_spec {left i : ℕ} (h : Forest level kernel bound vmm)
    (htable : UserTable level kernel 4 space) (hbound : ∀ j, i ≤ j → j < i + left → (pml4GetIndex
      (UInt64.ofNat j * memPageSize + alignDown virtualRange.base memPageSize)).toNat < bound)
    (hcall : unmapPages space virtualRange left i vmm = .ok vmm') :
    Grows level kernel bound vmm level vmm' := by
  induction left generalizing i vmm with
  | zero =>
    cases hcall
    exact Grows.refl h
  | succ left ih =>
    simp only [unmapPages, bind_eq_ok, Prod.exists] at hcall
    obtain ⟨result, vmm₁, hpage, hcall⟩ := hcall
    have hgrows := vmmUnmapPage_spec h htable (hbound i le_rfl (by omega)) hpage
    exact hgrows.trans (ih hgrows.forest
      (fun j hlow hhigh ↦ hbound j (by omega) (by omega)) hcall)

theorem vmmUnmap_spec (h : Forest level kernel bound vmm) (htable : UserTable level kernel 4 space)
    (hbound : Through bound virtualRange)
    (hcall : vmmUnmap vmm space virtualRange = .ok (result, vmm')) :
    Grows level kernel bound vmm level vmm' := by
  simp only [vmmUnmap, bind_eq_ok, assertTruth_eq_ok, pure_eq_ok, Prod.mk.injEq] at hcall
  obtain ⟨_, haligned, unmapped, hpages, rfl, rfl⟩ := hcall
  apply unmapPages_spec h htable _ hpages
  intro j _ hhigh
  rw [alignDown_page (memIsRangePageAligned_iff.1 haligned).1]
  exact hbound j (by omega)

/-- A new top table whose lower slots are empty. -/
theorem Forest.addRoot {page : UInt64} {pmm : Pmm} (h : Forest level kernel bound vmm)
    (entries : ℕ → PmlEntry) (hpage : FreshPage vmm.pmm page pmm)
    (hlower : ∀ idx < bound, (entries idx).present = false)
    (hupper : ∀ idx < 512, (entries idx).present = true →
      level (childOf (entries idx)) = some 3) :
    Grows level kernel bound vmm (Function.update level page (some 4))
      { vmm with pmm, tables := Function.update vmm.tables page entries } := by
  have hne : ∀ other k, level other = some k → other ≠ page := fun other k hk ↦
    h.ne_page hpage (by rw [hk]; exact Option.some_ne_none k)
  have hother : ∀ other i, other ≠ page →
      Function.update vmm.tables page entries other i = vmm.tables other i := by
    intro other i hother
    rw [Function.update_of_ne hother]
  constructor
  · constructor
    · exact hpage.layout
    · exact h.used_update hpage 4
    · exact h.kernel_update hpage 4
    · intro other k i hk hi hpresent
      by_cases hpage' : other = page
      · subst hpage'
        rw [Function.update_self] at hk
        cases hk
        simp only [Function.update_self] at hpresent ⊢
        exact h.level_update hpage 4 (hupper i hi hpresent)
      · rw [Function.update_of_ne hpage'] at hk
        simp only [hother other i hpage'] at hpresent ⊢
        exact h.level_update hpage 4 (h.child other k i hk hi hpresent)
    · intro other k i hk hnot hi hb hpresent
      by_cases hpage' : other = page
      · subst hpage'
        rw [Function.update_self] at hk
        cases hk
        simp only [Function.update_self, hlower i (hb rfl)] at hpresent
        cases hpresent
      · rw [Function.update_of_ne hpage'] at hk
        simp only [hother other i hpage'] at hpresent ⊢
        exact h.apart other k i hk hnot hi hb hpresent
  · intro other k hk
    exact h.level_update hpage 4 hk
  · rfl
  · intro other i hk
    exact hother other i (h.ne_page hpage (h.kernel_table other hk))
  · intro other i hl _
    exact hother other i (hne other 4 hl)
  · intro other k i hk _
    exact hother other i (hne other _ hk)

/-- A new top table shares the upper slots of the kernel's. -/
theorem vmmSpaceCreate_spec (h : Forest level kernel 255 vmm) (hkpml : level vmm.kpml = some 4)
    (hcall : vmmSpaceCreate vmm = .ok (table, vmm')) :
    ∃ level', Grows level kernel 255 vmm level' vmm' ∧ UserTable level' kernel 4 table ∧
      ∀ idx, 255 ≤ idx → idx < 512 → vmm'.tables table idx = vmm.tables vmm.kpml idx := by
  simp only [vmmSpaceCreate, bind_eq_ok, pure_eq_ok, Prod.exists, Prod.mk.injEq] at hcall
  obtain ⟨outcome, pmm, halloc, heapResult, pmm', hunwrap, rfl, rfl⟩ := hcall
  obtain ⟨range, rfl, hpage⟩ := heapAllocImpl_spec h.layout halloc
  simp only [unwrap, Except.ok.injEq, Prod.mk.injEq] at hunwrap
  obtain ⟨rfl, rfl⟩ := hunwrap
  have hnone := h.fresh hpage
  have hkpmlNe : vmm.kpml ≠ range.base := by
    intro heq
    rw [heq, hnone] at hkpml
    cases hkpml
  have htable : spaceTable (clearTable { vmm with pmm } range.base) = spaceTable vmm := by
    funext idx
    simp only [spaceTable]
    rw [clearTable_tables_of_ne]
    · rfl
    · exact hkpmlNe
  have htables : Function.update (clearTable { vmm with pmm } range.base).tables range.base
      (spaceTable (clearTable { vmm with pmm } range.base)) =
      Function.update vmm.tables range.base (spaceTable vmm) := by
    rw [htable]
    simp only [clearTable, Function.update_idem]
  have hgrows : Grows level kernel 255 vmm (Function.update level range.base (some 4))
      { vmm with pmm, tables := Function.update vmm.tables range.base (spaceTable vmm) } := by
    apply h.addRoot _ hpage
    · intro idx hidx
      rw [spaceTable, if_pos hidx]
      rfl
    · intro idx hidx hpresent
      by_cases hlow : idx < 255
      · rw [spaceTable, if_pos hlow] at hpresent
        cases hpresent
      · rw [spaceTable, if_neg hlow, if_pos hidx] at hpresent ⊢
        exact h.child vmm.kpml 2 idx hkpml hidx hpresent
  refine ⟨Function.update level range.base (some 4), ?_,
    ⟨Function.update_self .., fun hk ↦ h.kernel_table _ hk hnone⟩, ?_⟩
  · rw [htables]
    exact hgrows
  · intro idx hlow hhigh
    simp only [htables]
    rw [Function.update_self, spaceTable, if_neg (not_lt.2 hlow), if_pos hhigh]

/-- The tables that can be reached from a top table. -/
inductive TableAt (vmm : Vmm) (root : UInt64) : ℕ → UInt64 → Prop where
  | root : TableAt vmm root 4 root
  | next {l idx : ℕ} {table : UInt64} (htable : TableAt vmm root (l + 2) table)
      (hidx : idx < 512) (hpresent : (vmm.tables table idx).present = true) :
      TableAt vmm root (l + 1) (childOf (vmm.tables table idx))

/-- The kernel has set up its tables: each is on a page in use and is a table of one level. -/
structure Ready (vmm : Vmm) : Prop where
  layout : PmmLayout vmm.pmm
  used : ∀ l table, TableAt vmm vmm.kpml l table → PageUsed vmm.pmm (mmapIoToPhys table)
  level_unique : ∀ l l' table, TableAt vmm vmm.kpml l table → TableAt vmm vmm.kpml l' table →
    l = l'

theorem TableAt.level_eq {root : UInt64} (h : Forest level kernel bound vmm)
    (hroot : level root = some 4) (htable : TableAt vmm root l table) : level table = some l := by
  induction htable with
  | root => exact hroot
  | next _ hidx hpresent ih => exact h.child _ _ _ ih hidx hpresent

/-- Tables stay where they are while the forest grows. -/
theorem TableAt.grows {root : UInt64} (hgrows : Grows level kernel bound vmm level' vmm')
    (h : Forest level kernel bound vmm) (hroot : level root = some 4)
    (htable : TableAt vmm root l table) : TableAt vmm' root l table := by
  induction htable with
  | root => exact .root
  | next htable hidx hpresent ih =>
    have hkeeps := hgrows.keeps _ _ _ (htable.level_eq h hroot) hpresent
    rw [← hkeeps] at hpresent ⊢
    exact .next ih hidx hpresent

open Classical in
/-- The forest that the kernel's tables are. -/
noncomputable def kernelLevel (vmm : Vmm) (table : UInt64) : Option ℕ :=
  if h : ∃ l, TableAt vmm vmm.kpml l table then some h.choose else none

theorem Ready.kernelLevel_eq_some (h : Ready vmm) :
    kernelLevel vmm table = some l ↔ TableAt vmm vmm.kpml l table := by
  unfold kernelLevel
  constructor
  · intro hl
    split at hl
    next hex =>
      cases hl
      exact hex.choose_spec
    next => cases hl
  · intro htable
    have hex : ∃ l, TableAt vmm vmm.kpml l table := ⟨l, htable⟩
    rw [dif_pos hex, h.level_unique _ _ _ hex.choose_spec htable]

theorem Ready.forest (h : Ready vmm) (bound : ℕ) :
    Forest (kernelLevel vmm) (fun table ↦ ∃ l, TableAt vmm vmm.kpml l table) bound vmm where
  layout := h.layout
  used table l hl := h.used l table (h.kernelLevel_eq_some.1 hl)
  kernel_table table hk := by
    obtain ⟨l, hl⟩ := hk
    rw [h.kernelLevel_eq_some.2 hl]
    exact Option.some_ne_none l
  child table l idx hl hidx hpresent :=
    h.kernelLevel_eq_some.2 (.next (h.kernelLevel_eq_some.1 hl) hidx hpresent)
  apart table l idx hl hnot _ _ _ := absurd ⟨_, h.kernelLevel_eq_some.1 hl⟩ hnot

/-- At boot there is no table that must be left alone. -/
def noTable : UInt64 → Prop := fun _ ↦ False

theorem through_all (range : USizeRange) : Through 512 range := fun i _ ↦
  pmlxGetIndex_lt _ (by decide : (3 : UInt64).toNat ≤ 3)

theorem vmmMap_boot (h : Forest level noTable 512 vmm) (htarget : level target = some 4)
    (hcall : vmmMap vmm target virtualRange physicalRange flags = .ok (result, vmm')) :
    ∃ level', Grows level noTable 512 vmm level' vmm' :=
  vmmMap_spec h ⟨htarget, id⟩ (through_all virtualRange) hcall

theorem mapWhen_spec {condition : Bool} (h : Forest level noTable 512 vmm)
    (htarget : level target = some 4)
    (hcall : mapWhen condition vmm target virtualRange physicalRange = .ok vmm') :
    ∃ level', Grows level noTable 512 vmm level' vmm' := by
  unfold mapWhen at hcall
  split at hcall
  next =>
    simp only [bind_eq_ok, pure_eq_ok, Prod.exists] at hcall
    obtain ⟨result, mapped, hmap, rfl⟩ := hcall
    exact vmmMap_boot h htarget hmap
  next =>
    cases hcall
    exact ⟨level, Grows.refl h⟩

theorem mapEntry_spec {entry : HandoverMmapEntry} (h : Forest level noTable 512 vmm)
    (htarget : level target = some 4) (hcall : mapEntry target vmm entry = .ok vmm') :
    ∃ level', Grows level noTable 512 vmm level' vmm' := by
  simp only [mapEntry, bind_eq_ok] at hcall
  obtain ⟨vmm₁, hkernel, hio⟩ := hcall
  obtain ⟨level₁, hgrows⟩ := mapWhen_spec h htarget hkernel
  obtain ⟨level₂, hgrows'⟩ := mapWhen_spec hgrows.forest (hgrows.extend _ _ htarget) hio
  exact ⟨level₂, hgrows.trans hgrows'⟩

/-- A forest whose root is the kernel's top table makes the kernel ready. -/
theorem Forest.ready (h : Forest level kernel bound vmm) (hkpml : level vmm.kpml = some 4) :
    Ready vmm where
  layout := h.layout
  used l table htable := h.used table l (htable.level_eq h hkpml)
  level_unique l l' table htable htable' := by
    have hl := htable.level_eq h hkpml
    rw [htable'.level_eq h hkpml] at hl
    exact (Option.some.inj hl).symm

/-- The forest starts with an empty top table. -/
theorem emptyTop_forest {pmm pmm' : Pmm} {higher : Bool} {range : USizeRange}
    (tables : UInt64 → ℕ → PmlEntry) (hpmm : PmmLayout pmm)
    (halloc : heapAllocImpl pmm memPageSize higher = .ok (.ok range, pmm')) :
    Forest (Function.update (fun _ ↦ none) range.base (some 4)) noTable 512
      (clearTable ⟨tables, range.base, pmm'⟩ range.base) := by
  obtain ⟨_, hresult, hpage⟩ := heapAllocImpl_spec hpmm halloc
  cases hresult
  have hempty : Forest (fun _ ↦ none) noTable 512 ⟨tables, range.base, pmm⟩ :=
    ⟨hpmm, by simp, fun _ hk ↦ hk.elim, by simp, by simp⟩
  exact (hempty.addRoot (fun _ ↦ pmlCleanEntry) hpage (by simp) (by simp)).forest

/-- The kernel is ready after `pmm_initialize` and `vmm_initialize`, whatever the memory map. -/
theorem vmmInitialize_ready {memory : UInt64 → ℕ → Bool} {memoryMap : HandoverMmap} {pmm : Pmm}
    {tables : UInt64 → ℕ → PmlEntry} (hpmm : pmmInitialize memory memoryMap = .ok pmm)
    (h : vmmInitialize tables pmm memoryMap = .ok vmm) : Ready vmm := by
  simp only [vmmInitialize, bind_eq_ok, Prod.exists] at h
  obtain ⟨outcome, pmm₁, halloc, heapResult, pmm₂, hunwrap, result, vmm₁, hmap, hload⟩ := h
  obtain ⟨range, rfl, hpage⟩ := heapAllocImpl_spec (pmmInitialize_spec hpmm).1 halloc
  simp only [unwrap, Except.ok.injEq, Prod.mk.injEq] at hunwrap
  obtain ⟨rfl, rfl⟩ := hunwrap
  have hroot := emptyTop_forest tables (pmmInitialize_spec hpmm).1 halloc
  obtain ⟨level₁, hgrows⟩ := vmmMap_boot hroot (Function.update_self ..) hmap
  have hkpml₁ : level₁ vmm₁.kpml = some 4 := by
    rw [hgrows.kpml_eq]
    exact hgrows.extend _ _ (Function.update_self ..)
  have hinvariant : ∃ level, Forest level noTable 512 vmm ∧ level vmm.kpml = some 4 ∧
      vmm.kpml = vmm₁.kpml := by
    have hentry : ∀ s entry t, (∃ level, Forest level noTable 512 s ∧ level s.kpml = some 4 ∧
        s.kpml = vmm₁.kpml) → Succeeds (mapEntry vmm₁.kpml) s entry t →
        ∃ level, Forest level noTable 512 t ∧ level t.kpml = some 4 ∧ t.kpml = vmm₁.kpml := by
      rintro s entry t ⟨level, hforest, hlevel, hsame⟩ hstep
      obtain ⟨level', hgrows'⟩ := mapEntry_spec hforest (by rw [← hsame]; exact hlevel) hstep
      refine ⟨level', hgrows'.forest, ?_, hgrows'.kpml_eq.trans hsame⟩
      rw [hgrows'.kpml_eq]
      exact hgrows'.extend _ _ hlevel
    exact (Run.ofFold hload).invariant hentry ⟨level₁, hgrows.forest, hkpml₁, rfl⟩
  obtain ⟨level, hforest, hlevel, _⟩ := hinvariant
  exact hforest.ready hlevel

end Brutal.Kernel
