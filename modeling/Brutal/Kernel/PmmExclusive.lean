import Brutal.Kernel.Pmm

/-!
# Exclusive physical pages

A page that is in use stays in use until a call of `pmm_unused` covers it, and `pmm_alloc` returns
only pages that were not in use.  So a returned range can meet an earlier one, the bitmap or the
first pages only in pages that were given back in between.
-/

namespace Brutal.Kernel

open Base Boot Ds Lib

variable {pmm pmm' : Pmm} {range pages : USizeRange} {addr : UInt64}

/-- The position of the page of an address. -/
def pageOf (pmm : Pmm) (addr : UInt64) : ℕ := ((addr - pmm.usableRange.base) / memPageSize).toNat

/-- The page of the address is in the bitmap and its bit has this value. -/
def PageIs (value : Bool) (pmm : Pmm) (addr : UInt64) : Prop :=
  pageOf pmm addr < (bitsLen pmm.bitmap).toNat ∧ pmm.bitmap.bit (pageOf pmm addr) = value

/-- The page of the address is managed and in use. -/
abbrev PageUsed (pmm : Pmm) (addr : UInt64) : Prop := PageIs true pmm addr

/-- The page of the address is managed and free. -/
abbrev PageFree (pmm : Pmm) (addr : UInt64) : Prop := PageIs false pmm addr

/-- The pages that hold the bitmap itself. -/
def bitmapRange (pmm : Pmm) : USizeRange := ⟨mmapIoToPhys pmm.bitmap.data, pmm.bitmap.size⟩

/-- Pages start at multiples of the page size, and no two positions have the same address. -/
structure PmmLayout (pmm : Pmm) : Prop where
  base_aligned : pmm.usableRange.base.toNat % 4096 = 0
  len_le : (bitsLen pmm.bitmap).toNat ≤ 2 ^ 52

theorem SameLayout.refl (pmm : Pmm) : SameLayout pmm pmm := ⟨rfl, rfl, rfl, rfl⟩

theorem SameLayout.trans {pmm'' : Pmm} (h : SameLayout pmm pmm') (h' : SameLayout pmm' pmm'') :
    SameLayout pmm pmm'' :=
  ⟨h'.usableRange_eq.trans h.usableRange_eq, h'.data_eq.trans h.data_eq,
    h'.size_eq.trans h.size_eq, h'.available_eq.trans h.available_eq⟩

theorem SameLayout.bitsLen_eq (h : SameLayout pmm pmm') :
    bitsLen pmm'.bitmap = bitsLen pmm.bitmap := by
  rw [bitsLen, h.size_eq, bitsLen]

theorem SameLayout.pageOf_eq (h : SameLayout pmm pmm') (addr : UInt64) :
    pageOf pmm' addr = pageOf pmm addr := by
  rw [pageOf, h.usableRange_eq, pageOf]

theorem SameLayout.pmmLayout (h : SameLayout pmm pmm') (hpmm : PmmLayout pmm) :
    PmmLayout pmm' := by
  constructor
  · rw [h.usableRange_eq]
    exact hpmm.base_aligned
  · rw [h.bitsLen_eq]
    exact hpmm.len_le

theorem run_layout {calls : List PmmCall} (hrun : Run PmmStep pmm calls pmm') :
    SameLayout pmm pmm' :=
  hrun.relates SameLayout.refl (fun _ _ _ h h' ↦ h.trans h') fun _ _ _ h ↦ h.accounted_eq.1

/-- The addresses of some pages are those whose position is one of theirs. -/
theorem mem_pages2addr (hfinish : pages.finish ≤ 2 ^ 52) (hsize : pages.size.toNat < 2 ^ 52) :
    addr ∈ pages2addr pmm pages ↔
      pages.base.toNat ≤ pageOf pmm addr ∧ pageOf pmm addr < pages.finish := by
  have hpage : memPageSize.toNat = 4096 := rfl
  have hoffset : (addr - (pages.base * memPageSize + pmm.usableRange.base)) =
      (addr - pmm.usableRange.base) - pages.base * memPageSize := by grind
  simp only [mem_def, pages2addr, rangeMul, pageOf, hoffset, UInt64.lt_iff_toNat_lt,
    UInt64.toNat_div, hpage, UInt64.toNat_sub _ (pages.base * memPageSize), UInt64.toNat_mul]
  have hlt := (addr - pmm.usableRange.base).toNat_lt
  unfold USizeRange.finish at hfinish ⊢
  omega

theorem pages2addr_addr2pages (hpmm : PmmLayout pmm)
    (hrange : memIsRangePageAligned range = true) :
    pages2addr pmm (addr2pages pmm range) = range := by
  obtain ⟨hbase, hsize⟩ := memIsRangePageAligned_iff.1 hrange
  have hpage : memPageSize.toNat = 4096 := rfl
  have hroundtrip : ∀ x : UInt64, x.toNat % 4096 = 0 → x / memPageSize * memPageSize = x := by
    intro x hx
    have hlt := x.toNat_lt
    rw [← UInt64.toNat_inj, UInt64.toNat_mul, UInt64.toNat_div, hpage]
    omega
  have hoffset : (range.base - pmm.usableRange.base).toNat % 4096 = 0 := by
    have haligned := hpmm.base_aligned
    have hlt := pmm.usableRange.base.toNat_lt
    rw [UInt64.toNat_sub]
    omega
  simp only [pages2addr, addr2pages, rangeMul, rangeDiv, hroundtrip _ hoffset,
    hroundtrip _ hsize, UInt64.sub_add_cancel]

/-- The addresses of an aligned range are those whose position is one of its pages. -/
theorem mem_addr2pages (hpmm : PmmLayout pmm) (hrange : memIsRangePageAligned range = true)
    (hfinish : (addr2pages pmm range).finish ≤ (bitsLen pmm.bitmap).toNat) :
    addr ∈ range ↔ (addr2pages pmm range).base.toNat ≤ pageOf pmm addr ∧
      pageOf pmm addr < (addr2pages pmm range).finish := by
  rw [← mem_pages2addr (hfinish.trans hpmm.len_le) (addr2pages_lt pmm range).2,
    pages2addr_addr2pages hpmm hrange]

/-- Marking pages gives their addresses the value. -/
theorem Marks.pageIs {value : Bool} {count : UInt64} (h : Marks pmm pages value count pmm')
    (hlow : pages.base.toNat ≤ pageOf pmm addr) (hhigh : pageOf pmm addr < pages.finish) :
    PageIs value pmm' addr := by
  have hinside := h.inside
  refine ⟨?_, ?_⟩
  · rw [h.layout.pageOf_eq, h.layout.bitsLen_eq]
    omega
  · rw [h.layout.pageOf_eq, h.marked.bit_eq, if_pos ⟨hlow, hhigh⟩]

/-- Marking some pages as used leaves every page in use, and so does marking other pages free. -/
theorem Marks.pageUsed {value : Bool} {count : UInt64} (h : Marks pmm pages value count pmm')
    (hused : PageUsed pmm addr)
    (hother : value = false → ¬ (pages.base.toNat ≤ pageOf pmm addr ∧
      pageOf pmm addr < pages.finish)) : PageUsed pmm' addr := by
  refine ⟨?_, ?_⟩
  · rw [h.layout.pageOf_eq, h.layout.bitsLen_eq]
    exact hused.1
  · rw [h.layout.pageOf_eq, h.marked.bit_eq, hused.2]
    cases value with
    | false => exact if_neg (hother rfl)
    | true => exact ite_self true

/-- A page stays in use until `pmm_unused` covers it. -/
theorem PmmStep.pageUsed {call : PmmCall} (h : PmmStep pmm call pmm') (hpmm : PmmLayout pmm)
    (hused : PageUsed pmm addr) (hkeep : ∀ range, call = .unused range → addr ∉ range) :
    PageUsed pmm' addr := by
  rcases h.cases with ⟨_, _, _, _, _, _, _, _, hmarks⟩ | ⟨_, _, _, _, hmarks⟩ |
    ⟨range, rfl, haligned, rfl | ⟨_, hmarks⟩⟩ | ⟨bit, rfl⟩
  · exact hmarks.pageUsed hused (by simp)
  · exact hmarks.pageUsed hused (by simp)
  · exact hused
  · apply hmarks.pageUsed hused
    intro _ hcovered
    exact hkeep range rfl ((mem_addr2pages hpmm haligned hmarks.inside).2 hcovered)
  · refine ⟨hused.1, ?_⟩
    have hvalue : (overwriteBehind pmm.bitmap bit).bit (pageOf pmm addr) =
        pmm.bitmap.bit (pageOf pmm addr) := if_pos hused.1
    exact hvalue.trans hused.2

/-- Along a run, a page in use stays so unless one of the calls gives it back. -/
theorem run_pageUsed {calls : List PmmCall} (hrun : Run PmmStep pmm calls pmm')
    (hpmm : PmmLayout pmm) (hused : PageUsed pmm addr)
    (hkeep : ∀ range, .unused range ∈ calls → addr ∉ range) : PageUsed pmm' addr := by
  induction hrun with
  | nil pmm => exact hused
  | cons head _ ih =>
    apply ih (head.accounted_eq.1.pmmLayout hpmm)
    · apply head.pageUsed hpmm hused
      intro range hcall
      exact hkeep range (by simp [hcall])
    · intro range hmem
      exact hkeep range (List.mem_cons_of_mem _ hmem)

/-- What `pmm_used` covers is in use. -/
theorem pmmUsed_pageUsed {result : PmmResult} (h : pmmUsed pmm range = .ok (result, pmm'))
    (hpmm : PmmLayout pmm) (haddr : addr ∈ range) : PageUsed pmm' addr := by
  obtain ⟨haligned, count, hmarks⟩ := pmmUsed_spec h
  obtain ⟨hlow, hhigh⟩ := (mem_addr2pages hpmm haligned hmarks.inside).1 haddr
  exact hmarks.pageIs hlow hhigh

/-- The range that `pmm_alloc` returns was free and is now in use. -/
theorem pmmAlloc_pages {size : UInt64} {upper : Bool} (hpmm : PmmLayout pmm)
    (h : pmmAlloc pmm size upper = .ok (.ok range, pmm')) :
    memIsRangePageAligned range = true ∧ range.size = size ∧
      ∀ addr ∈ range, PageFree pmm addr ∧ PageUsed pmm' addr := by
  obtain ⟨haligned, pages, count, hresult, hpages, hclear, hmarks⟩ := pmmAlloc_spec h
  cases hresult
  have hpage : memPageSize.toNat = 4096 := rfl
  have hlt := size.toNat_lt
  have hzero : size.toNat % 4096 = 0 := by
    simpa [memIsSizePageAligned, memPageSize, ← UInt64.toNat_inj] using haligned
  have hcount : pages.size.toNat = size.toNat / 4096 := by
    rw [hpages, UInt64.toNat_div, hpage]
  have hsize : (pages2addr pmm pages).size = size := by
    rw [← UInt64.toNat_inj]
    simp only [pages2addr, rangeMul, UInt64.toNat_mul, hcount, hpage]
    omega
  have hbase : (pages2addr pmm pages).base.toNat % 4096 = 0 := by
    have hbaseAligned := hpmm.base_aligned
    simp only [pages2addr, rangeMul, UInt64.toNat_add, UInt64.toNat_mul, hpage]
    omega
  refine ⟨memIsRangePageAligned_iff.2 ⟨hbase, by rwa [hsize]⟩, hsize, ?_⟩
  intro addr haddr
  obtain ⟨hlow, hhigh⟩ :=
    (mem_pages2addr (hmarks.inside.trans hpmm.len_le) (by omega)).1 haddr
  exact ⟨⟨hhigh.trans_le hmarks.inside, hclear _ hlow hhigh⟩, hmarks.pageIs hlow hhigh⟩

theorem loadEntry_layout {entry : HandoverMmapEntry} (h : loadEntry pmm entry = .ok pmm') :
    pmm'.usableRange = pmm.usableRange ∧ bitsLen pmm'.bitmap = bitsLen pmm.bitmap := by
  unfold loadEntry at h
  split at h
  next =>
    simp only [bind_eq_ok, pure_eq_ok, Prod.exists] at h
    obtain ⟨result, unused, hunused, rfl⟩ := h
    have hstep : PmmStep _ (.unused entry.range) unused := ⟨result, hunused⟩
    have hlayout := hstep.accounted_eq.1
    exact ⟨hlayout.usableRange_eq, hlayout.bitsLen_eq⟩
  next =>
    cases h
    exact ⟨rfl, rfl⟩
  next =>
    cases h
    exact ⟨rfl, rfl⟩

/-- Loading the map succeeds only when pages are aligned, and reserves the first four. -/
theorem pmmLoad_spec {memory : UInt64 → ℕ → Bool} {memoryMap : HandoverMmap}
    (h : pmmLoad memory memoryMap = .ok pmm) :
    PmmLayout pmm ∧ ∀ addr ∈ firstPages pmm.usableRange.base, PageUsed pmm addr := by
  simp only [pmmLoad, pmmMmapLoad, bind_eq_ok, pure_eq_ok, Prod.exists] at h
  obtain ⟨init, hinit, loaded, hload, result, used, hused, rfl⟩ := h
  have hsame : loaded.usableRange = init.usableRange ∧
      bitsLen loaded.bitmap = bitsLen init.bitmap := by
    have htrans : ∀ s t u : Pmm,
        t.usableRange = s.usableRange ∧ bitsLen t.bitmap = bitsLen s.bitmap →
        u.usableRange = t.usableRange ∧ bitsLen u.bitmap = bitsLen t.bitmap →
        u.usableRange = s.usableRange ∧ bitsLen u.bitmap = bitsLen s.bitmap :=
      fun s t u hst htu ↦ ⟨htu.1.trans hst.1, htu.2.trans hst.2⟩
    exact (Run.ofFold hload).relates (fun s ↦ ⟨rfl, rfl⟩) htrans fun _ _ _ h ↦ loadEntry_layout h
  have hstep : PmmStep loaded (.used (firstPages loaded.usableRange.base)) used :=
    ⟨result, hused⟩
  have hlayout := hstep.accounted_eq.1
  have hloaded : PmmLayout loaded := by
    constructor
    · exact (memIsRangePageAligned_iff.1 (pmmUsed_spec hused).1).1
    · rw [hsame.2]
      exact (pmmBitmapInit_spec hinit).2
  refine ⟨hlayout.pmmLayout hloaded, ?_⟩
  rw [hlayout.usableRange_eq]
  intro addr haddr
  exact pmmUsed_pageUsed hused hloaded haddr

/-- After `pmm_initialize` the first four pages and those of the bitmap are in use. -/
theorem pmmInitialize_spec {memory : UInt64 → ℕ → Bool} {memoryMap : HandoverMmap}
    (h : pmmInitialize memory memoryMap = .ok pmm) :
    PmmLayout pmm ∧ (∀ addr ∈ firstPages pmm.usableRange.base, PageUsed pmm addr) ∧
      ∀ addr ∈ bitmapRange pmm, PageUsed pmm addr := by
  obtain ⟨loaded, reserved, calls, hload, hrun, hcalls, result, hreserve⟩ := pmmInitialize_run h
  obtain ⟨hloaded, hfirst⟩ := pmmLoad_spec hload
  have hlayout := run_layout hrun
  have hreserved := hlayout.pmmLayout hloaded
  have hstep : PmmStep reserved (.used (bitmapRange reserved)) pmm := ⟨result, hreserve⟩
  have hlayout' := hstep.accounted_eq.1
  refine ⟨hlayout'.pmmLayout hreserved, ?_, ?_⟩
  · intro addr haddr
    rw [hlayout'.usableRange_eq, hlayout.usableRange_eq] at haddr
    apply hstep.pageUsed hreserved _ (by simp)
    apply run_pageUsed hrun hloaded (hfirst addr haddr)
    intro range hmem
    obtain ⟨_, hcall⟩ := hcalls _ hmem
    cases hcall
  · intro addr haddr
    rw [bitmapRange, hlayout'.data_eq, hlayout'.size_eq] at haddr
    exact pmmUsed_pageUsed hreserve hreserved haddr

/-- A page of an allocated range that was in use at some earlier state was given back since. -/
theorem pmmAlloc_given_back {mid : List PmmCall} {s t : Pmm} {size : UInt64} {upper : Bool}
    (hpmm : PmmLayout pmm) (hrun : Run PmmStep pmm mid s)
    (halloc : pmmAlloc s size upper = .ok (.ok range, t)) (haddr : addr ∈ range)
    (hused : PageUsed pmm addr) : ∃ unused, .unused unused ∈ mid ∧ addr ∈ unused := by
  by_contra hkept
  have hkeep : ∀ unused, .unused unused ∈ mid → addr ∉ unused := fun unused hmem hin ↦
    hkept ⟨unused, hmem, hin⟩
  have hstill := run_pageUsed hrun hpmm hused hkeep
  have hfree := ((pmmAlloc_pages ((run_layout hrun).pmmLayout hpmm) halloc).2.2 addr haddr).1
  exact Bool.false_ne_true (hfree.2.symm.trans hstill.2)

/-- Whatever was called since boot, `pmm_alloc` returns an aligned range of the size asked for,
all of whose pages were free and are now in use.  Where it meets an earlier range, the bitmap or
the first four pages, the common page was given back in between. -/
theorem pmmAlloc_exclusive {memory : UInt64 → ℕ → Bool} {memoryMap : HandoverMmap}
    {calls : List PmmCall} {s t : Pmm} {size : UInt64} {upper : Bool}
    (hinit : pmmInitialize memory memoryMap = .ok pmm) (hrun : Run PmmStep pmm calls s)
    (halloc : pmmAlloc s size upper = .ok (.ok range, t)) :
    memIsRangePageAligned range = true ∧ range.size = size ∧
      (∀ addr ∈ range, PageFree s addr ∧ PageUsed t addr) ∧
      (∀ addr ∈ range, addr ∈ bitmapRange pmm ∨ addr ∈ firstPages pmm.usableRange.base →
        ∃ unused, .unused unused ∈ calls ∧ addr ∈ unused) ∧
      ∀ first mid size' upper' range', calls = first ++ .alloc size' upper' range' :: mid →
        ∀ addr ∈ range, addr ∈ range' → ∃ unused, .unused unused ∈ mid ∧ addr ∈ unused := by
  obtain ⟨hpmm, hfirst, hbitmap⟩ := pmmInitialize_spec hinit
  obtain ⟨haligned, hsize, hpages⟩ := pmmAlloc_pages ((run_layout hrun).pmmLayout hpmm) halloc
  refine ⟨haligned, hsize, hpages, ?_, ?_⟩
  · intro addr haddr hreserved
    exact pmmAlloc_given_back hpmm hrun halloc haddr (hreserved.elim (hbitmap addr) (hfirst addr))
  · intro first mid size' upper' range' hcalls addr haddr haddr'
    subst hcalls
    obtain ⟨before, hbefore, hrest⟩ := hrun.split
    have hbeforeLayout := (run_layout hbefore).pmmLayout hpmm
    cases hrest with
    | cons head tail =>
      have hused := ((pmmAlloc_pages hbeforeLayout head).2.2 addr haddr').2
      exact pmmAlloc_given_back (head.accounted_eq.1.pmmLayout hbeforeLayout) tail halloc haddr
        hused

/-- Two pages are allocated one after the other, from both ends of the free memory. -/
theorem pmmAlloc_exclusive_eightPages :
    ∃ pmm s t, pmmInitialize (fun _ _ ↦ false) eightPages = .ok pmm ∧
      Run PmmStep pmm [.alloc 0x1000 false ⟨0x14000, 0x1000⟩] s ∧
      pmmAlloc s 0x1000 true = .ok (.ok ⟨0x17000, 0x1000⟩, t) ∧
      ∀ addr ∈ (⟨0x17000, 0x1000⟩ : USizeRange), PageFree s addr ∧ PageUsed t addr := by
  have heval : (pmmInitialize (fun _ _ ↦ false) eightPages >>= fun pmm ↦
      pmmAlloc pmm 0x1000 false >>= fun low ↦
        pmmAlloc low.2 0x1000 true >>= fun high ↦ .ok (low.1, high.1)) =
      .ok (.ok ⟨0x14000, 0x1000⟩, .ok ⟨0x17000, 0x1000⟩) := by
    decide +kernel
  obtain ⟨pmm, hinit, hallocs⟩ := bind_eq_ok.mp heval
  obtain ⟨⟨first, s⟩, hfirst, hallocs⟩ := bind_eq_ok.mp hallocs
  obtain ⟨⟨second, t⟩, hsecond, hresults⟩ := bind_eq_ok.mp hallocs
  cases hresults
  have hrun : Run PmmStep pmm [.alloc 0x1000 false ⟨0x14000, 0x1000⟩] s := .cons hfirst (.nil s)
  exact ⟨pmm, s, t, hinit, hrun, hsecond, (pmmAlloc_exclusive hinit hrun hsecond).2.2.1⟩

end Brutal.Kernel
