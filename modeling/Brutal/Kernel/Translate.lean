import Brutal.Kernel.PageTables
import Mathlib.Tactic.NormNum

/-!
# What the page tables mean

The processor resolves an address by walking down four tables.  Here a page is the number that the
36 bits of its four indices make up, and what the tables of a space mean is a map from pages to
frames.  The walk of one page leaves that of every other alone because each table is in one place
only: it serves the pages of one region of one level, which `Placed` says of all tables at once.
With this, the functions of `kernel/x86_64/vmm.c` that fill in one page act on the map as an update
at that page.
-/

namespace Brutal.Kernel

open Base Boot Ds Lib

/-- The number of the page of an address, in the 36 bits that the tables resolve. -/
def pageNumber (addr : UInt64) : ℕ := addr.toNat / 4096 % 2 ^ 36

/-- The slot of a page in a table of this level, the lowest one being 0. -/
def slotOf (page level : ℕ) : ℕ := page / 512 ^ level % 512

theorem slotOf_lt (page level : ℕ) : slotOf page level < 512 := Nat.mod_lt _ (by decide)

theorem pageNumber_lt (addr : UInt64) : pageNumber addr < 2 ^ 36 := Nat.mod_lt _ (by decide)

/-- The region of a page one level down. -/
theorem region_slotOf (page level : ℕ) :
    page / 512 ^ (level + 1) * 512 + slotOf page level = page / 512 ^ level := by
  rw [slotOf, pow_succ, ← Nat.div_div_eq_div_mul]
  omega

/-- Pages of one region are in one region of every higher level. -/
theorem region_above {page other level : ℕ} (h : other / 512 ^ level = page / 512 ^ level) :
    other / 512 ^ (level + 1) = page / 512 ^ (level + 1) := by
  rw [pow_succ, ← Nat.div_div_eq_div_mul, ← Nat.div_div_eq_div_mul, h]

theorem slotOf_congr {page other level : ℕ} (h : other / 512 ^ level = page / 512 ^ level) :
    slotOf other level = slotOf page level := by
  rw [slotOf, slotOf, h]

/-- The index of the source is the slot of the page. -/
theorem pmlxGetIndex_eq_slotOf {level : UInt64} (addr : UInt64) (hlevel : level.toNat ≤ 3) :
    (pmlxGetIndex addr level).toNat = slotOf (pageNumber addr) level.toNat := by
  rw [pmlxGetIndex_toNat addr hlevel, slotOf, pageNumber]
  have hcases : level.toNat = 0 ∨ level.toNat = 1 ∨ level.toNat = 2 ∨ level.toNat = 3 := by omega
  rcases hcases with h | h | h | h <;> rw [h] <;> norm_num <;> omega

/-- What a page is mapped to: the address of the frame, and who may do what with it. -/
structure Frame where
  physical : UInt64
  user : Bool
  writable : Bool
deriving DecidableEq, Repr

/-- An entry on the way to the frame takes away what it does not allow. -/
def Frame.under (entry : PmlEntry) (frame : Frame) : Frame :=
  { frame with user := entry.user && frame.user, writable := entry.readWrite && frame.writable }

/-- The walk of a page from a table of a level on. -/
def walk (vmm : Vmm) : ℕ → UInt64 → ℕ → Option Frame
  | 0, table, page =>
    let entry := vmm.tables table (slotOf page 0)
    if entry.present then some ⟨pmlGetAddr entry, entry.user, entry.readWrite⟩ else none
  | level + 1, table, page =>
    let entry := vmm.tables table (slotOf page (level + 1))
    if entry.present then (walk vmm level (childOf entry) page).map (Frame.under entry) else none

/-- The upper bits of an address repeat bit 47; the processor refuses any other address. -/
def Canonical (addr : UInt64) : Prop :=
  addr.toNat < 2 ^ 47 ∨ 2 ^ 64 - 2 ^ 47 ≤ addr.toNat

instance (addr : UInt64) : Decidable (Canonical addr) := inferInstanceAs (Decidable (_ ∨ _))

/-- The translation of an address by the tables of a space. -/
def translate (vmm : Vmm) (space addr : UInt64) : Option Frame :=
  if Canonical addr then
    (walk vmm 3 space (pageNumber addr)).map fun frame ↦
      { frame with physical := frame.physical + addr % memPageSize }
  else none

variable {place place' : UInt64 → Option (ℕ × ℕ)} {vmm vmm' : Vmm}

/-- Every table has a level and serves one region of pages of it, and lies on a page in use.  The
entries above the lowest level allow everything. -/
structure Placed (place : UInt64 → Option (ℕ × ℕ)) (vmm : Vmm) : Prop where
  layout : PmmLayout vmm.pmm
  used : ∀ table, place table ≠ none → PageUsed vmm.pmm (mmapIoToPhys table)
  child : ∀ {table level region idx}, place table = some (level + 1, region) → idx < 512 →
    (vmm.tables table idx).present = true →
    place (childOf (vmm.tables table idx)) = some (level, region * 512 + idx)
  allows : ∀ {table level region idx}, place table = some (level + 1, region) → idx < 512 →
    (vmm.tables table idx).present = true →
    (vmm.tables table idx).user = true ∧ (vmm.tables table idx).readWrite = true

/-- A page that was free holds no table. -/
theorem Placed.fresh {page : UInt64} {pmm : Pmm} (h : Placed place vmm)
    (hpage : FreshPage vmm.pmm page pmm) : place page = none := by
  by_contra hne
  exact Bool.false_ne_true (hpage.free.2.symm.trans (h.used page hne).2)

theorem Placed.ne_fresh {page table : UInt64} {pmm : Pmm} {spot : ℕ × ℕ} (h : Placed place vmm)
    (hpage : FreshPage vmm.pmm page pmm) (htable : place table = some spot) : table ≠ page := by
  rintro rfl
  rw [h.fresh hpage] at htable
  cases htable

/-- The walk of a page leads from the top table to this table of a level. -/
inductive Leads (vmm : Vmm) (root : UInt64) (page : ℕ) : ℕ → UInt64 → Prop where
  | root : Leads vmm root page 3 root
  | next {level : ℕ} {table : UInt64} (htable : Leads vmm root page (level + 1) table)
      (hpresent : (vmm.tables table (slotOf page (level + 1))).present = true) :
      Leads vmm root page level (childOf (vmm.tables table (slotOf page (level + 1))))

/-- A top table serves all pages. -/
def TopTable (place : UInt64 → Option (ℕ × ℕ)) (root : UInt64) : Prop := place root = some (3, 0)

theorem Leads.level_le {root table : UInt64} {page level : ℕ}
    (h : Leads vmm root page level table) : level ≤ 3 := by
  induction h with
  | root => exact le_rfl
  | next _ _ ih => omega

/-- A table on the way of a page serves the region of the page. -/
theorem Leads.place_eq {root table : UInt64} {page level : ℕ} (h : Placed place vmm)
    (hroot : TopTable place root) (hpage : page < 2 ^ 36)
    (hleads : Leads vmm root page level table) :
    place table = some (level, page / 512 ^ (level + 1)) := by
  induction hleads with
  | root =>
    have hzero : page / 512 ^ (3 + 1) = 0 := Nat.div_eq_of_lt (lt_of_lt_of_eq hpage (by norm_num))
    rw [hzero]
    exact hroot
  | next htable hpresent ih =>
    rw [h.child ih (slotOf_lt _ _) hpresent, region_slotOf]

theorem Leads.unique {root table other : UInt64} {page level : ℕ}
    (h : Leads vmm root page level table) (h' : Leads vmm root page level other) :
    table = other := by
  induction h generalizing other with
  | root =>
    cases h' with
    | root => rfl
    | next htable _ => exact absurd htable.level_le (by omega)
  | next htable _ ih =>
    cases h' with
    | root => exact absurd htable.level_le (by omega)
    | next htable' _ => rw [ih htable']

/-- The walk from the top is that from any table on the way. -/
theorem Leads.walk_eq {root table : UInt64} {page level : ℕ} (h : Placed place vmm)
    (hroot : TopTable place root) (hpage : page < 2 ^ 36)
    (hleads : Leads vmm root page level table) :
    walk vmm 3 root page = walk vmm level table page := by
  induction hleads with
  | root => rfl
  | @next level table htable hpresent ih =>
    obtain ⟨huser, hwrite⟩ := h.allows (htable.place_eq h hroot hpage) (slotOf_lt _ _) hpresent
    have hunder : Frame.under (vmm.tables table (slotOf page (level + 1))) = id := by
      funext frame
      simp [Frame.under, huser, hwrite]
    rw [ih, walk]
    simp only [hpresent, if_true, hunder, Option.map_id_fun, id_eq]

/-- Pages of one region are served by the same tables down to its level. -/
theorem Leads.congr {root table : UInt64} {page other level : ℕ}
    (hleads : Leads vmm root page level table)
    (hregion : other / 512 ^ (level + 1) = page / 512 ^ (level + 1)) :
    Leads vmm root other level table := by
  induction hleads with
  | root => exact .root
  | @next level table _ hpresent ih =>
    rw [← slotOf_congr hregion] at hpresent ⊢
    exact .next (ih (region_above hregion)) hpresent

/-- The entries that the walk of a page reads are the same in both. -/
def SameEntries (place : UInt64 → Option (ℕ × ℕ)) (vmm vmm' : Vmm) (page level : ℕ) : Prop :=
  ∀ table, place table = some (level, page / 512 ^ (level + 1)) →
    vmm'.tables table (slotOf page level) = vmm.tables table (slotOf page level)

/-- The way down to a table reads entries of the levels above it only. -/
theorem leads_iff_of_sameEntries {root table : UInt64} {page level : ℕ} (h : Placed place vmm)
    (hroot : TopTable place root) (hpage : page < 2 ^ 36)
    (hsame : ∀ upper, level < upper → SameEntries place vmm vmm' page upper) :
    Leads vmm' root page level table ↔ Leads vmm root page level table := by
  constructor
  · intro hleads
    induction hleads with
    | root => exact .root
    | next _ hpresent ih =>
      have htable := ih fun upper hupper ↦ hsame upper (by omega)
      rw [hsame _ (Nat.lt_succ_self _) _ (htable.place_eq h hroot hpage)] at hpresent ⊢
      exact .next htable hpresent
  · intro hleads
    induction hleads with
    | root => exact .root
    | next htable hpresent ih =>
      rw [← hsame _ (Nat.lt_succ_self _) _ (htable.place_eq h hroot hpage)] at hpresent ⊢
      exact .next (ih fun upper hupper ↦ hsame upper (by omega)) hpresent

/-- The way down goes through every level in between. -/
theorem Leads.through {root table : UInt64} {page level upper : ℕ}
    (hleads : Leads vmm root page level table) (hlevel : level < upper) (hupper : upper ≤ 3) :
    ∃ above, Leads vmm root page upper above ∧
      (vmm.tables above (slotOf page upper)).present = true := by
  induction hleads with
  | root => omega
  | @next level table htable hpresent ih =>
    rcases Nat.lt_or_ge (level + 1) upper with hlt | hge
    · exact ih hlt
    · have heq : upper = level + 1 := by omega
      rw [heq]
      exact ⟨table, htable, hpresent⟩

theorem walk_eq_of_sameEntries {table : UInt64} {page level : ℕ} (h : Placed place vmm)
    (htable : place table = some (level, page / 512 ^ (level + 1)))
    (hsame : ∀ level, SameEntries place vmm vmm' page level) :
    walk vmm' level table page = walk vmm level table page := by
  induction level generalizing table with
  | zero =>
    simp only [walk]
    rw [hsame 0 table htable]
  | succ level ih =>
    simp only [walk]
    rw [hsame (level + 1) table htable]
    split
    next hpresent =>
      have hchild := h.child htable (slotOf_lt _ _) hpresent
      rw [region_slotOf] at hchild
      rw [ih hchild]
    next => rfl

/-- The walk from the top, likewise. -/
theorem walk_root_eq {root : UInt64} {page : ℕ} (h : Placed place vmm)
    (hroot : TopTable place root) (hpage : page < 2 ^ 36)
    (hsame : ∀ level, SameEntries place vmm vmm' page level) :
    walk vmm' 3 root page = walk vmm 3 root page :=
  walk_eq_of_sameEntries h (Leads.root.place_eq h hroot hpage) hsame

/-- There is a table of the lowest level for the page. -/
def HasTable (vmm : Vmm) (root : UInt64) (page : ℕ) : Prop := ∃ table, Leads vmm root page 0 table

/-- Tables may have been added, and none has moved. -/
structure Extends (place : UInt64 → Option (ℕ × ℕ)) (vmm : Vmm)
    (place' : UInt64 → Option (ℕ × ℕ)) (vmm' : Vmm) : Prop where
  placed : Placed place' vmm'
  extend : ∀ table spot, place table = some spot → place' table = some spot
  kpml_eq : vmm'.kpml = vmm.kpml

theorem Extends.refl (h : Placed place vmm) : Extends place vmm place vmm :=
  ⟨h, fun _ _ hplace ↦ hplace, rfl⟩

theorem Extends.trans {place'' : UInt64 → Option (ℕ × ℕ)} {vmm'' : Vmm}
    (h : Extends place vmm place' vmm') (h' : Extends place' vmm' place'' vmm'') :
    Extends place vmm place'' vmm'' :=
  ⟨h'.placed, fun table spot hplace ↦ h'.extend table spot (h.extend table spot hplace),
    h'.kpml_eq.trans h.kpml_eq⟩

/-- The flags of an entry above the lowest level. -/
def AllowsAll (flags : BrMemoryFlags) : Prop :=
  flags &&& brMemUser ≠ 0 ∧ flags &&& brMemWritable ≠ 0

/-- The tables with a new one at an empty entry. -/
def withTable (vmm : Vmm) (pmm : Pmm) (table : UInt64) (idx : ℕ) (page flags : UInt64) : Vmm :=
  setEntry (clearTable { vmm with pmm } page) table idx (pmlMakeEntry (mmapIoToPhys page) flags)

section WithTable

variable {pmm : Pmm} {table page flags : UInt64} {idx level region : ℕ}

theorem withTable_tables_of_ne {other : UInt64} {i : ℕ} (hpage : other ≠ page)
    (hslot : other ≠ table ∨ i ≠ idx) :
    (withTable vmm pmm table idx page flags).tables other i = vmm.tables other i := by
  rw [withTable, setEntry_tables_of_ne hslot, clearTable_tables_of_ne hpage]

theorem withTable_tables_page (hne : page ≠ table) (i : ℕ) :
    (withTable vmm pmm table idx page flags).tables page i = pmlCleanEntry := by
  rw [withTable, setEntry_tables_of_ne (Or.inl hne), clearTable_tables_self]

theorem withTable_tables_entry :
    (withTable vmm pmm table idx page flags).tables table idx =
      pmlMakeEntry (mmapIoToPhys page) flags :=
  setEntry_tables_self ..

/-- A new table is put in its place. -/
theorem Placed.withTable (h : Placed place vmm) (hpage : FreshPage vmm.pmm page pmm)
    (htable : place table = some (level + 1, region)) (hflags : AllowsAll flags) :
    Extends place vmm (Function.update place page (some (level, region * 512 + idx)))
      (withTable vmm pmm table idx page flags) := by
  have hextend : ∀ other spot, place other = some spot →
      Function.update place page (some (level, region * 512 + idx)) other = some spot := by
    intro other spot hother
    rwa [Function.update_of_ne (h.ne_fresh hpage hother)]
  have htableNe := h.ne_fresh hpage htable
  have hentry : ∀ other l r i,
      Function.update place page (some (level, region * 512 + idx)) other = some (l + 1, r) →
      ((Kernel.withTable vmm pmm table idx page flags).tables other i).present = true →
      (place other = some (l + 1, r) ∧
          (Kernel.withTable vmm pmm table idx page flags).tables other i = vmm.tables other i) ∨
        (other = table ∧ i = idx) := by
    intro other l r i hother hpresent
    by_cases hpage' : other = page
    · subst hpage'
      rw [withTable_tables_page htableNe.symm] at hpresent
      cases hpresent
    · rw [Function.update_of_ne hpage'] at hother
      by_cases hslot : other = table ∧ i = idx
      · exact Or.inr hslot
      · exact Or.inl ⟨hother, withTable_tables_of_ne hpage' (by tauto)⟩
  refine ⟨⟨hpage.layout, ?_, ?_, ?_⟩, hextend, rfl⟩
  · intro other hother
    by_cases hpage' : other = page
    · rw [hpage']
      exact hpage.used
    · rw [Function.update_of_ne hpage'] at hother
      exact hpage.keeps _ (h.used other hother)
  · intro other l r i hother hi hpresent
    rcases hentry other l r i hother hpresent with ⟨hold, hsame⟩ | ⟨rfl, rfl⟩
    · rw [hsame] at hpresent ⊢
      exact hextend _ _ (h.child hold hi hpresent)
    · rw [Function.update_of_ne htableNe, htable] at hother
      cases hother
      rw [withTable_tables_entry, childOf_pmlMakeEntry hpage.aligned, Function.update_self]
  · intro other l r i hother hi hpresent
    rcases hentry other l r i hother hpresent with ⟨hold, hsame⟩ | ⟨rfl, rfl⟩
    · rw [hsame] at hpresent ⊢
      exact h.allows hold hi hpresent
    · rw [withTable_tables_entry]
      exact ⟨by simpa [pmlMakeEntry] using hflags.1, by simpa [pmlMakeEntry] using hflags.2⟩

/-- Nothing is mapped through an empty table. -/
theorem walk_of_clean {other : UInt64} (hclean : ∀ i, (vmm.tables other i).present = false)
    (level page : ℕ) : walk vmm level other page = none := by
  cases level <;> simp [walk, hclean]

section Effect

variable {root : UInt64} {k : ℕ} (h : Placed place vmm) (hroot : TopTable place root)
  (hk : k < 2 ^ 36) (hleads : Leads vmm root k (level + 1) table)
  (habsent : (vmm.tables table (slotOf k (level + 1))).present = false)
  (hpage : FreshPage vmm.pmm page pmm)

include h hroot hk hleads hpage

/-- The entries that other walks read, and those that are read above the new table, stay. -/
theorem withTable_sameEntries {p upper : ℕ}
    (houtside : p / 512 ^ (level + 1) ≠ k / 512 ^ (level + 1) ∨ upper ≠ level + 1) :
    SameEntries place vmm (withTable vmm pmm table (slotOf k (level + 1)) page flags) p upper := by
  intro other hother
  apply withTable_tables_of_ne (h.ne_fresh hpage hother)
  · by_contra hslot
    simp only [not_or, not_not] at hslot
    obtain ⟨rfl, hslot⟩ := hslot
    rw [hleads.place_eq h hroot hk] at hother
    obtain ⟨rfl, hregion⟩ := Prod.mk.inj (Option.some.inj hother)
    rcases houtside with hne | hne
    · rw [← region_slotOf p, ← region_slotOf k, hregion, hslot] at hne
      exact hne rfl
    · exact hne rfl

theorem withTable_leads : Leads (withTable vmm pmm table (slotOf k (level + 1)) page flags) root k
    level page := by
  have habove : Leads (withTable vmm pmm table (slotOf k (level + 1)) page flags) root k
      (level + 1) table := by
    rw [leads_iff_of_sameEntries h hroot hk fun upper hupper ↦
      withTable_sameEntries h hroot hk hleads hpage (Or.inr (by omega))]
    exact hleads
  have hentry : (withTable vmm pmm table (slotOf k (level + 1)) page flags).tables table
      (slotOf k (level + 1)) = pmlMakeEntry (mmapIoToPhys page) flags := withTable_tables_entry
  have hnext := habove.next (by rw [hentry]; rfl)
  rwa [hentry, childOf_pmlMakeEntry hpage.aligned] at hnext

include habsent

theorem withTable_walk (hflags : AllowsAll flags) {p : ℕ} (hp : p < 2 ^ 36) :
    walk (withTable vmm pmm table (slotOf k (level + 1)) page flags) 3 root p =
      walk vmm 3 root p := by
  by_cases hinside : p / 512 ^ (level + 1) = k / 512 ^ (level + 1)
  · -- Nothing was mapped through the empty entry, and nothing is mapped through the empty table.
    have hplaced :
        Extends place vmm _ (withTable vmm pmm table (slotOf k (level + 1)) page flags) :=
      h.withTable hpage (hleads.place_eq h hroot hk) hflags
    have hne := (h.ne_fresh hpage (hleads.place_eq h hroot hk)).symm
    have hbefore : walk vmm 3 root p = none := by
      rw [(hleads.congr (region_above hinside)).walk_eq h hroot hp]
      simp [walk, slotOf_congr hinside, habsent]
    have hafter : Leads (withTable vmm pmm table (slotOf k (level + 1)) page flags) root p level
        page := (withTable_leads h hroot hk hleads hpage).congr hinside
    rw [hbefore, hafter.walk_eq hplaced.placed (hplaced.extend _ _ hroot) hp]
    exact walk_of_clean (fun i ↦ by rw [withTable_tables_page hne]; rfl) _ _
  · exact walk_root_eq h hroot hp fun upper ↦
      withTable_sameEntries h hroot hk hleads hpage (Or.inl hinside)

theorem withTable_hasTable {p : ℕ} (hp : p < 2 ^ 36) :
    HasTable (withTable vmm pmm table (slotOf k (level + 1)) page flags) root p ↔
      HasTable vmm root p ∨ (level = 0 ∧ p / 512 = k / 512) := by
  by_cases hinside : p / 512 ^ (level + 1) = k / 512 ^ (level + 1)
  · have hnew : Leads (withTable vmm pmm table (slotOf k (level + 1)) page flags) root p level
        page := (withTable_leads h hroot hk hleads hpage).congr hinside
    have hne := (h.ne_fresh hpage (hleads.place_eq h hroot hk)).symm
    have hbefore : ¬ HasTable vmm root p := by
      rintro ⟨other, hother⟩
      obtain ⟨above, hleads', hpresent⟩ := hother.through (Nat.succ_pos level) hleads.level_le
      rw [hleads'.unique (hleads.congr (region_above hinside)), slotOf_congr hinside,
        habsent] at hpresent
      cases hpresent
    rcases Nat.eq_zero_or_pos level with rfl | hpos
    · simp only [zero_add, pow_one] at hinside
      exact ⟨fun _ ↦ Or.inr ⟨rfl, hinside⟩, fun _ ↦ ⟨page, hnew⟩⟩
    · constructor
      · rintro ⟨other, hother⟩
        obtain ⟨above, hleads', hpresent⟩ := hother.through hpos
          ((Nat.le_succ level).trans hleads.level_le)
        rw [hleads'.unique hnew, withTable_tables_page hne] at hpresent
        cases hpresent
      · rintro (hold | ⟨hzero, _⟩)
        · exact absurd hold hbefore
        · omega
  · have hregion : ¬ (level = 0 ∧ p / 512 = k / 512) := by
      rintro ⟨rfl, heq⟩
      exact hinside (by simpa using heq)
    rw [or_iff_left hregion]
    apply exists_congr
    intro other
    exact leads_iff_of_sameEntries h hroot hp fun upper _ ↦
      withTable_sameEntries h hroot hk hleads hpage (Or.inl hinside)

end Effect

end WithTable

end Brutal.Kernel
