import Brutal.Kernel.Translate

/-!
# One page at a time

What `vmm_map_page` and `vmm_unmap_page` do to the pages that the tables of a space map: a page is
mapped or unmapped, no other page is, and the last table on the way to a mapped page stays when the
page is unmapped.
-/

namespace Brutal.Kernel

open Base Boot Ds Lib

variable {place place' : UInt64 → Option (ℕ × ℕ)} {vmm vmm' : Vmm}

section SetLeaf

variable {root table : UInt64} {k : ℕ} {entry : PmlEntry} (h : Placed place vmm)
  (hroot : TopTable place root) (hk : k < 2 ^ 36) (hleads : Leads vmm root k 0 table)

include h hroot hk hleads

theorem setLeaf_placed (idx : ℕ) : Extends place vmm place (setEntry vmm table idx entry) := by
  have hother : ∀ other l r i, place other = some (l + 1, r) →
      (setEntry vmm table idx entry).tables other i = vmm.tables other i := by
    intro other l r i hother
    apply setEntry_tables_of_ne
    left
    rintro rfl
    rw [hleads.place_eq h hroot hk] at hother
    cases hother
  refine ⟨⟨h.layout, h.used, ?_, ?_⟩, fun _ _ hplace ↦ hplace, rfl⟩
  · intro other l r i hplace hi hpresent
    rw [hother other l r i hplace] at hpresent ⊢
    exact h.child hplace hi hpresent
  · intro other l r i hplace hi hpresent
    rw [hother other l r i hplace] at hpresent ⊢
    exact h.allows hplace hi hpresent

/-- Only the walk of the page itself reads the entry. -/
theorem setLeaf_sameEntries {p upper : ℕ} (hother : upper ≠ 0 ∨ p ≠ k) :
    SameEntries place vmm (setEntry vmm table (slotOf k 0) entry) p upper := by
  intro other hplace
  apply setEntry_tables_of_ne
  by_contra hslot
  simp only [not_or, not_not] at hslot
  obtain ⟨rfl, hslot⟩ := hslot
  rw [hleads.place_eq h hroot hk] at hplace
  obtain ⟨rfl, hregion⟩ := Prod.mk.inj (Option.some.inj hplace)
  have hpage : p = k := by
    simp only [slotOf, zero_add, pow_one, pow_zero, Nat.div_one] at hslot hregion
    omega
  exact hother.elim (fun hne ↦ hne rfl) fun hne ↦ hne hpage

theorem setLeaf_leads {p level : ℕ} {other : UInt64} (hp : p < 2 ^ 36) :
    Leads (setEntry vmm table (slotOf k 0) entry) root p level other ↔
      Leads vmm root p level other :=
  leads_iff_of_sameEntries h hroot hp fun _ hupper ↦
    setLeaf_sameEntries h hroot hk hleads (Or.inl (Nat.ne_of_gt (Nat.zero_lt_of_lt hupper)))

theorem setLeaf_walk_of_ne {p : ℕ} (hp : p < 2 ^ 36) (hne : p ≠ k) :
    walk (setEntry vmm table (slotOf k 0) entry) 3 root p = walk vmm 3 root p :=
  walk_root_eq h hroot hp fun _ ↦ setLeaf_sameEntries h hroot hk hleads (Or.inr hne)

theorem setLeaf_walk_self : walk (setEntry vmm table (slotOf k 0) entry) 3 root k =
    if entry.present then some ⟨pmlGetAddr entry, entry.user, entry.readWrite⟩ else none := by
  have hextends : Extends place vmm place (setEntry vmm table (slotOf k 0) entry) :=
    setLeaf_placed h hroot hk hleads _
  have hafter : Leads (setEntry vmm table (slotOf k 0) entry) root k 0 table :=
    (setLeaf_leads h hroot hk hleads hk).2 hleads
  rw [hafter.walk_eq hextends.placed hroot hk, walk, setEntry_tables_self]

end SetLeaf

theorem allowsAll_tableFlags (flags : BrMemoryFlags) :
    AllowsAll (flags ||| brMemWritable ||| brMemUser) := by
  constructor
  · intro hzero
    have hbit := congrArg (fun x : UInt64 ↦ x.toBitVec.getLsbD 3) hzero
    simp [brMemUser, brMemWritable] at hbit
  · intro hzero
    have hbit := congrArg (fun x : UInt64 ↦ x.toBitVec.getLsbD 1) hzero
    simp [brMemUser, brMemWritable] at hbit

theorem allowsAll_topFlags (flags : BrMemoryFlags) :
    AllowsAll ((flags ||| brMemWritable ||| brMemUser) &&& ~~~brMemGlobal) := by
  constructor
  · intro hzero
    have hbit := congrArg (fun x : UInt64 ↦ x.toBitVec.getLsbD 3) hzero
    simp [brMemUser, brMemWritable, brMemGlobal] at hbit
  · intro hzero
    have hbit := congrArg (fun x : UInt64 ↦ x.toBitVec.getLsbD 1) hzero
    simp [brMemUser, brMemWritable, brMemGlobal] at hbit

/-- The next this many calls of `heap_alloc` for a table return. -/
def HeapReturns : ℕ → Pmm → Prop
  | 0, _ => True
  | left + 1, pmm => ∃ outcome, heapAlloc pmm memPageSize = .ok outcome ∧
      HeapReturns left outcome.2

instance : ∀ (left : ℕ) (pmm : Pmm), Decidable (HeapReturns left pmm)
  | 0, _ => isTrue trivial
  | left + 1, pmm =>
    have (outcome : VmmResult × Pmm) : Decidable (HeapReturns left outcome.2) :=
      instDecidableHeapReturns left outcome.2
    inferInstanceAs (Decidable (∃ outcome, heapAlloc pmm memPageSize = .ok outcome ∧ _))

theorem HeapReturns.mono {pmm : Pmm} {fewer more : ℕ} (hle : fewer ≤ more)
    (h : HeapReturns more pmm) : HeapReturns fewer pmm := by
  induction fewer generalizing more pmm with
  | zero => trivial
  | succ fewer ih =>
    cases more with
    | zero => omega
    | succ more =>
      obtain ⟨outcome, halloc, hrest⟩ := h
      exact ⟨outcome, halloc, ih (by omega) hrest⟩

/-- The way down to a table was opened: this maps no page, and one more region of last tables may
be there. -/
structure Opened (vmm : Vmm) (root : UInt64) (k level : ℕ) (vmm' : Vmm) (table : UInt64) :
    Prop where
  leads : Leads vmm' root k level table
  walk_eq : ∀ p < 2 ^ 36, walk vmm' 3 root p = walk vmm 3 root p
  hasTable_iff : ∀ p < 2 ^ 36,
    HasTable vmm' root p ↔ HasTable vmm root p ∨ (level = 0 ∧ p / 512 = k / 512)

theorem Opened.trans {root table next : UInt64} {k level : ℕ} {vmm'' : Vmm}
    (h : Opened vmm root k (level + 1) vmm' table) (h' : Opened vmm' root k level vmm'' next) :
    Opened vmm root k level vmm'' next where
  leads := h'.leads
  walk_eq p hp := (h'.walk_eq p hp).trans (h.walk_eq p hp)
  hasTable_iff p hp := by
    rw [h'.hasTable_iff p hp, h.hasTable_iff p hp, or_iff_left (by omega : ¬ (level + 1 = 0 ∧ _))]

section Opens

variable {root table flags : UInt64} {k level : ℕ} (h : Placed place vmm)
  (hroot : TopTable place root) (hk : k < 2 ^ 36) (hleads : Leads vmm root k (level + 1) table)
  (hflags : AllowsAll flags)

include h hroot hk hleads hflags

theorem vmmGetPmlOrAlloc_opens {result : VmmResult}
    (hcall : vmmGetPmlOrAlloc vmm table (slotOf k (level + 1)) flags = .ok (result, vmm')) :
    ∃ place' range, result = .ok range ∧ Extends place vmm place' vmm' ∧
      Opened vmm root k level vmm' range.base := by
  unfold vmmGetPmlOrAlloc at hcall
  dsimp only at hcall
  split at hcall
  next hpresent =>
    cases hcall
    have hnext := hleads.next hpresent
    refine ⟨place, _, rfl, Extends.refl h, hnext, fun _ _ ↦ rfl, fun p hp ↦ ?_⟩
    refine ⟨Or.inl, fun hhas ↦ hhas.elim id ?_⟩
    rintro ⟨rfl, hregion⟩
    exact ⟨_, hnext.congr (by simpa using hregion)⟩
  next habsent =>
    simp only [bind_eq_ok, Prod.exists] at hcall
    obtain ⟨outcome, pmm, halloc, hcall⟩ := hcall
    obtain ⟨range, rfl, hpage⟩ := heapAllocImpl_spec h.layout halloc
    cases hcall
    have hfalse := Bool.eq_false_iff.2 habsent
    exact ⟨_, _, rfl, h.withTable hpage (hleads.place_eq h hroot hk) hflags,
      withTable_leads h hroot hk hleads hpage,
      fun p hp ↦ withTable_walk h hroot hk hleads hfalse hpage hflags hp,
      fun p hp ↦ withTable_hasTable h hroot hk hleads hfalse hpage hp⟩

variable {next : USizeRange → Vmm → Except Fault (VmmResult × Vmm)}

/-- A step of the way down never fails, it only stops the kernel. -/
theorem tryBind_opens {result : VmmResult}
    (hcall : tryBind (vmmGetPmlOrAlloc vmm table (slotOf k (level + 1)) flags) next =
      .ok (result, vmm')) :
    ∃ place' range vmm₁, Extends place vmm place' vmm₁ ∧ Opened vmm root k level vmm₁ range.base ∧
      next range vmm₁ = .ok (result, vmm') := by
  rcases tryBind_eq_ok.1 hcall with ⟨err, hfirst, _⟩ | ⟨range, vmm₁, hfirst, hnext⟩
  · obtain ⟨_, _, hresult, _⟩ := vmmGetPmlOrAlloc_opens h hroot hk hleads hflags hfirst
    cases hresult
  · obtain ⟨place', _, hresult, hextends, hopened⟩ :=
      vmmGetPmlOrAlloc_opens h hroot hk hleads hflags hfirst
    cases hresult
    exact ⟨place', range, vmm₁, hextends, hopened, hnext⟩

/-- It goes on as long as `heap_alloc` returns. -/
theorem tryBind_returns {left : ℕ} (hheap : HeapReturns (left + 1) vmm.pmm) :
    ∃ place' range vmm₁, Extends place vmm place' vmm₁ ∧ Opened vmm root k level vmm₁ range.base ∧
      HeapReturns left vmm₁.pmm ∧
      tryBind (vmmGetPmlOrAlloc vmm table (slotOf k (level + 1)) flags) next =
        next range vmm₁ := by
  have hreturns : ∃ result vmm₁, vmmGetPmlOrAlloc vmm table (slotOf k (level + 1)) flags =
      .ok (result, vmm₁) ∧ HeapReturns left vmm₁.pmm := by
    unfold vmmGetPmlOrAlloc
    dsimp only
    split
    · exact ⟨_, _, rfl, hheap.mono (Nat.le_succ left)⟩
    · obtain ⟨⟨outcome, pmm⟩, halloc, hrest⟩ := hheap
      rw [halloc]
      cases outcome with
      | error err => exact ⟨_, _, rfl, hrest⟩
      | ok range => exact ⟨_, _, rfl, hrest⟩
  obtain ⟨result, vmm₁, hfirst, hrest⟩ := hreturns
  obtain ⟨place', range, rfl, hextends, hopened⟩ :=
    vmmGetPmlOrAlloc_opens h hroot hk hleads hflags hfirst
  refine ⟨place', range, vmm₁, hextends, hopened, hrest, ?_⟩
  rw [hfirst]
  rfl

end Opens

theorem pml4GetIndex_slotOf (addr : UInt64) :
    (pml4GetIndex addr).toNat = slotOf (pageNumber addr) 3 :=
  pmlxGetIndex_eq_slotOf addr (by decide : (3 : UInt64).toNat ≤ 3)

theorem pml3GetIndex_slotOf (addr : UInt64) :
    (pml3GetIndex addr).toNat = slotOf (pageNumber addr) 2 :=
  pmlxGetIndex_eq_slotOf addr (by decide : (2 : UInt64).toNat ≤ 3)

theorem pml2GetIndex_slotOf (addr : UInt64) :
    (pml2GetIndex addr).toNat = slotOf (pageNumber addr) 1 :=
  pmlxGetIndex_eq_slotOf addr (by decide : (1 : UInt64).toNat ≤ 3)

theorem pml1GetIndex_slotOf (addr : UInt64) :
    (pml1GetIndex addr).toNat = slotOf (pageNumber addr) 0 :=
  pmlxGetIndex_eq_slotOf addr (by decide : (0 : UInt64).toNat ≤ 3)

/-- What an entry of a last table maps a page to. -/
def entryFrame (entry : PmlEntry) : Frame := ⟨pmlGetAddr entry, entry.user, entry.readWrite⟩

/-- A page was mapped to the frame of an entry, and no other page was touched. -/
structure MapsPage (vmm : Vmm) (root : UInt64) (k : ℕ) (entry : PmlEntry) (vmm' : Vmm) : Prop where
  before : walk vmm 3 root k = none
  self : walk vmm' 3 root k = some (entryFrame entry)
  other : ∀ p < 2 ^ 36, p ≠ k → walk vmm' 3 root p = walk vmm 3 root p
  hasTable_iff : ∀ p < 2 ^ 36, HasTable vmm' root p ↔ HasTable vmm root p ∨ p / 512 = k / 512

theorem Opened.mapsPage {root table : UInt64} {k : ℕ} {vmm₁ : Vmm} {physical flags : UInt64}
    (hopened : Opened vmm root k 0 vmm₁ table) (h : Placed place vmm₁)
    (hroot : TopTable place root) (hk : k < 2 ^ 36)
    (habsent : (vmm₁.tables table (slotOf k 0)).present = false) :
    MapsPage vmm root k (pmlMakeEntry physical flags)
      (setEntry vmm₁ table (slotOf k 0) (pmlMakeEntry physical flags)) where
  before := by
    rw [← hopened.walk_eq k hk, hopened.leads.walk_eq h hroot hk, walk]
    exact if_neg (by rw [habsent]; exact Bool.false_ne_true)
  self := setLeaf_walk_self h hroot hk hopened.leads
  other p hp hne :=
    (setLeaf_walk_of_ne h hroot hk hopened.leads hp hne).trans (hopened.walk_eq p hp)
  hasTable_iff p hp := by
    have hsame : HasTable (setEntry vmm₁ table (slotOf k 0) (pmlMakeEntry physical flags)) root p ↔
        HasTable vmm₁ root p := exists_congr fun _ ↦ setLeaf_leads h hroot hk hopened.leads hp
    rw [hsame, hopened.hasTable_iff p hp, and_iff_right rfl]

section VmmMapPage

variable {root virtualPage physicalPage flags : UInt64} {result : VmmResult}
  (h : Placed place vmm) (hroot : TopTable place root)

include h hroot

theorem vmmMapPage_maps
    (hcall : vmmMapPage vmm root virtualPage physicalPage flags = .ok (result, vmm')) :
    ∃ place', Extends place vmm place' vmm' ∧
      MapsPage vmm root (pageNumber virtualPage) (pmlMakeEntry physicalPage flags) vmm' := by
  have hk := pageNumber_lt virtualPage
  simp only [vmmMapPage, pml4GetIndex_slotOf, pml3GetIndex_slotOf, pml2GetIndex_slotOf,
    pml1GetIndex_slotOf] at hcall
  obtain ⟨place₃, pml3, vmm₃, hextends₃, hopened₃, hcall⟩ :=
    tryBind_opens h hroot hk .root (allowsAll_topFlags flags) hcall
  have hroot₃ := hextends₃.extend _ _ hroot
  obtain ⟨place₂, pml2, vmm₂, hextends₂, hopened₂, hcall⟩ :=
    tryBind_opens hextends₃.placed hroot₃ hk hopened₃.leads (allowsAll_tableFlags flags) hcall
  have hroot₂ := hextends₂.extend _ _ hroot₃
  obtain ⟨place₁, pml1, vmm₁, hextends₁, hopened₁, hcall⟩ :=
    tryBind_opens hextends₂.placed hroot₂ hk hopened₂.leads (allowsAll_tableFlags flags) hcall
  have hroot₁ := hextends₁.extend _ _ hroot₂
  rw [ite_error_eq_ok] at hcall
  obtain ⟨habsent, hcall⟩ := hcall
  cases hcall
  have hopened := (hopened₃.trans hopened₂).trans hopened₁
  exact ⟨place₁, ((hextends₃.trans hextends₂).trans hextends₁).trans
    (setLeaf_placed hextends₁.placed hroot₁ hk hopened.leads _),
    hopened.mapsPage hextends₁.placed hroot₁ hk (Bool.eq_false_iff.2 habsent)⟩

/-- A page that is not mapped can be mapped. -/
theorem vmmMapPage_returns {left : ℕ} (hfree : walk vmm 3 root (pageNumber virtualPage) = none)
    (hheap : HeapReturns (left + 3) vmm.pmm) :
    ∃ result vmm', vmmMapPage vmm root virtualPage physicalPage flags = .ok (result, vmm') ∧
      HeapReturns left vmm'.pmm := by
  have hk := pageNumber_lt virtualPage
  simp only [vmmMapPage, pml4GetIndex_slotOf, pml3GetIndex_slotOf, pml2GetIndex_slotOf,
    pml1GetIndex_slotOf]
  obtain ⟨place₃, pml3, vmm₃, hextends₃, hopened₃, hheap₃, heq₃⟩ :=
    tryBind_returns h hroot hk .root (allowsAll_topFlags flags) hheap
  have hroot₃ := hextends₃.extend _ _ hroot
  obtain ⟨place₂, pml2, vmm₂, hextends₂, hopened₂, hheap₂, heq₂⟩ :=
    tryBind_returns hextends₃.placed hroot₃ hk hopened₃.leads (allowsAll_tableFlags flags) hheap₃
  have hroot₂ := hextends₂.extend _ _ hroot₃
  obtain ⟨place₁, pml1, vmm₁, hextends₁, hopened₁, hheap₁, heq₁⟩ :=
    tryBind_returns hextends₂.placed hroot₂ hk hopened₂.leads (allowsAll_tableFlags flags) hheap₂
  have hroot₁ := hextends₁.extend _ _ hroot₂
  have hopened := (hopened₃.trans hopened₂).trans hopened₁
  rw [← hopened.walk_eq _ hk, hopened.leads.walk_eq hextends₁.placed hroot₁ hk] at hfree
  have habsent : ¬ (vmm₁.tables pml1.base (slotOf (pageNumber virtualPage) 0)).present = true := by
    intro hpresent
    simp [walk, hpresent] at hfree
  rw [heq₃, heq₂, heq₁, if_neg habsent]
  exact ⟨_, _, rfl, hheap₁⟩

end VmmMapPage

theorem vmmGetPml_of_present {table : UInt64} {idx : ℕ}
    (hpresent : (vmm.tables table idx).present = true) :
    vmmGetPml vmm table idx = .ok ⟨childOf (vmm.tables table idx), memPageSize⟩ := by
  simp [vmmGetPml, hpresent, childOf]

theorem vmmGetPml_of_absent {table : UInt64} {idx : ℕ}
    (habsent : ¬ (vmm.tables table idx).present = true) :
    vmmGetPml vmm table idx = .error .badAddress := by
  simp [vmmGetPml, habsent]

/-- The way down is made of the entries of the tables above. -/
theorem leads_iff {root table : UInt64} {page level : ℕ} (hlevel : level < 3) :
    Leads vmm root page level table ↔ ∃ above, Leads vmm root page (level + 1) above ∧
      (vmm.tables above (slotOf page (level + 1))).present = true ∧
      table = childOf (vmm.tables above (slotOf page (level + 1))) := by
  constructor
  · intro hleads
    cases hleads with
    | root => omega
    | next htable hpresent => exact ⟨_, htable, hpresent, rfl⟩
  · rintro ⟨above, htable, hpresent, rfl⟩
    exact htable.next hpresent

theorem leads_top_iff {root table : UInt64} {page : ℕ} :
    Leads vmm root page 3 table ↔ table = root := by
  constructor
  · intro hleads
    exact hleads.unique .root
  · rintro rfl
    exact .root

/-- A page is mapped through its last table. -/
theorem Leads.hasTable_of_walk {root table : UInt64} {page level : ℕ}
    (hleads : Leads vmm root page level table) (hwalk : walk vmm level table page ≠ none) :
    HasTable vmm root page := by
  induction level generalizing table with
  | zero => exact ⟨table, hleads⟩
  | succ level ih =>
    by_cases hpresent : (vmm.tables table (slotOf page (level + 1))).present = true
    · apply ih (hleads.next hpresent)
      intro hnone
      simp [walk, hnone] at hwalk
    · simp [walk, hpresent] at hwalk

/-- The lookups of a page that has a last table. -/
theorem Leads.vmmGetPml_eq {root table : UInt64} {page : ℕ} (hleads : Leads vmm root page 0 table) :
    ∃ pml3 pml2 : USizeRange, vmmGetPml vmm root (slotOf page 3) = .ok pml3 ∧
      vmmGetPml vmm pml3.base (slotOf page 2) = .ok pml2 ∧
      vmmGetPml vmm pml2.base (slotOf page 1) = .ok ⟨table, memPageSize⟩ := by
  obtain ⟨pml2, hpml2, hpresent₁, rfl⟩ := (leads_iff (by decide)).1 hleads
  obtain ⟨pml3, hpml3, hpresent₂, rfl⟩ := (leads_iff (by decide)).1 hpml2
  obtain ⟨pml4, hpml4, hpresent₃, rfl⟩ := (leads_iff (by decide)).1 hpml3
  obtain rfl := leads_top_iff.1 hpml4
  exact ⟨_, _, vmmGetPml_of_present hpresent₃, vmmGetPml_of_present hpresent₂,
    vmmGetPml_of_present hpresent₁⟩

/-- The lookups of a page that has none: one of them fails. -/
theorem vmmGetPml_of_noTable {root : UInt64} {page : ℕ} (hnone : ¬ HasTable vmm root page) :
    vmmGetPml vmm root (slotOf page 3) = .error .badAddress ∨
      ∃ pml3 : USizeRange, vmmGetPml vmm root (slotOf page 3) = .ok pml3 ∧
        (vmmGetPml vmm pml3.base (slotOf page 2) = .error .badAddress ∨
          ∃ pml2 : USizeRange, vmmGetPml vmm pml3.base (slotOf page 2) = .ok pml2 ∧
            vmmGetPml vmm pml2.base (slotOf page 1) = .error .badAddress) := by
  have hroot : Leads vmm root page 3 root := .root
  by_cases hpresent₃ : (vmm.tables root (slotOf page 3)).present = true
  · have hpml3 := hroot.next hpresent₃
    refine Or.inr ⟨_, vmmGetPml_of_present hpresent₃, ?_⟩
    by_cases hpresent₂ : (vmm.tables (childOf (vmm.tables root (slotOf page 3)))
        (slotOf page 2)).present = true
    · have hpml2 := hpml3.next hpresent₂
      refine Or.inr ⟨_, vmmGetPml_of_present hpresent₂, ?_⟩
      exact vmmGetPml_of_absent fun hpresent₁ ↦ hnone ⟨_, hpml2.next hpresent₁⟩
    · exact Or.inl (vmmGetPml_of_absent hpresent₂)
  · exact Or.inl (vmmGetPml_of_absent hpresent₃)

section VmmUnmapPage

variable {root virtualPage : UInt64}

/-- Unmapping clears the entry of the page in its last table, which must map it. -/
theorem vmmUnmapPage_of_leads {table : UInt64}
    (hleads : Leads vmm root (pageNumber virtualPage) 0 table) :
    vmmUnmapPage vmm root virtualPage =
      if (vmm.tables table (slotOf (pageNumber virtualPage) 0)).present then
        .ok (.ok ⟨virtualPage, memPageSize⟩,
          setEntry vmm table (slotOf (pageNumber virtualPage) 0) pmlCleanEntry)
      else .error .panic := by
  obtain ⟨pml3, pml2, hpml3, hpml2, hpml1⟩ := hleads.vmmGetPml_eq
  simp only [vmmUnmapPage, pml4GetIndex_slotOf, pml3GetIndex_slotOf, pml2GetIndex_slotOf,
    pml1GetIndex_slotOf, tryBind, ok_bind, hpml3, hpml2, hpml1]

theorem vmmUnmapPage_of_noTable (hnone : ¬ HasTable vmm root (pageNumber virtualPage)) :
    vmmUnmapPage vmm root virtualPage = .ok (.error .badAddress, vmm) := by
  simp only [vmmUnmapPage, pml4GetIndex_slotOf, pml3GetIndex_slotOf, pml2GetIndex_slotOf,
    pml1GetIndex_slotOf, tryBind, ok_bind]
  rcases vmmGetPml_of_noTable hnone with hpml3 | ⟨pml3, hpml3, hpml2 | ⟨pml2, hpml2, hpml1⟩⟩
  · simp only [hpml3, pure_eq_ok]
  · simp only [hpml3, hpml2, pure_eq_ok]
  · simp only [hpml3, hpml2, hpml1, pure_eq_ok]

/-- A page was unmapped, and no other page was touched. -/
structure UnmapsPage (vmm : Vmm) (root : UInt64) (k : ℕ) (vmm' : Vmm) : Prop where
  self : walk vmm' 3 root k = none
  other : ∀ p < 2 ^ 36, p ≠ k → walk vmm' 3 root p = walk vmm 3 root p
  hasTable_iff : ∀ p < 2 ^ 36, HasTable vmm' root p ↔ HasTable vmm root p

variable {result : VmmResult} (h : Placed place vmm) (hroot : TopTable place root)

include h hroot

theorem vmmUnmapPage_unmaps (hcall : vmmUnmapPage vmm root virtualPage = .ok (result, vmm')) :
    Extends place vmm place vmm' ∧ UnmapsPage vmm root (pageNumber virtualPage) vmm' := by
  have hk := pageNumber_lt virtualPage
  by_cases hhas : HasTable vmm root (pageNumber virtualPage)
  · obtain ⟨table, hleads⟩ := hhas
    rw [vmmUnmapPage_of_leads hleads] at hcall
    split at hcall
    next =>
      cases hcall
      refine ⟨setLeaf_placed h hroot hk hleads _, setLeaf_walk_self h hroot hk hleads,
        fun p hp hne ↦ setLeaf_walk_of_ne h hroot hk hleads hp hne, fun p hp ↦ ?_⟩
      exact exists_congr fun _ ↦ setLeaf_leads h hroot hk hleads hp
    next => cases hcall
  · rw [vmmUnmapPage_of_noTable hhas] at hcall
    cases hcall
    refine ⟨Extends.refl h, ?_, fun _ _ _ ↦ rfl, fun _ _ ↦ Iff.rfl⟩
    by_contra hwalk
    exact hhas ((Leads.root).hasTable_of_walk hwalk)

/-- A mapped page can be unmapped. -/
theorem vmmUnmapPage_returns (hmapped : walk vmm 3 root (pageNumber virtualPage) ≠ none) :
    ∃ outcome, vmmUnmapPage vmm root virtualPage = .ok outcome := by
  obtain ⟨table, hleads⟩ := (Leads.root).hasTable_of_walk hmapped
  rw [hleads.walk_eq h hroot (pageNumber_lt virtualPage)] at hmapped
  have hpresent : (vmm.tables table (slotOf (pageNumber virtualPage) 0)).present = true := by
    by_contra habsent
    simp [walk, habsent] at hmapped
  rw [vmmUnmapPage_of_leads hleads, if_pos hpresent]
  exact ⟨_, rfl⟩

end VmmUnmapPage

end Brutal.Kernel
