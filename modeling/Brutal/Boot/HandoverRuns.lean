import Brutal.Boot.HandoverNormalForm
import Mathlib.Order.Bounds.Basic

/-!
# Sequences of appends

The recursion of `handover_mmap_append` stops, because every piece that is appended again is of a
smaller type or is shorter.  A sequence of appends from the empty map keeps the normal form as long
as each entry is bounded and separable from the map it meets.
-/

namespace Brutal.Boot

open Base Lib

variable {entries before after : List HandoverMmapEntry} {entry found : HandoverMmapEntry}

/-- Every entry of the map is page-aligned. -/
def Aligned (entries : List HandoverMmapEntry) : Prop :=
  ∀ e ∈ entries, memIsRangePageAligned e.range = true

theorem aligned_middle : Aligned (before ++ entry :: after) ↔
    Aligned before ∧ memIsRangePageAligned entry.range = true ∧ Aligned after := by
  simp only [Aligned, List.forall_mem_append, List.forall_mem_cons]

theorem Aligned.append (hbefore : Aligned before) (hafter : Aligned after) :
    Aligned (before ++ after) :=
  List.forall_mem_append.2 ⟨hbefore, hafter⟩

theorem alignEntry_of_aligned (h : memIsRangePageAligned entry.range = true) :
    alignEntry entry = entry := by
  unfold alignEntry
  split <;> simp only [rangeAlign_page h]

theorem rangeEnd_aligned {range : USizeRange} (h : memIsRangePageAligned range = true) :
    (rangeEnd range).toNat % 4096 = 0 := by
  obtain ⟨hbase, hsize⟩ := memIsRangePageAligned_iff.1 h
  rw [rangeEnd, UInt64.toNat_add]
  omega

theorem rangeMerge_aligned {lhs rhs : USizeRange} (hlhs : memIsRangePageAligned lhs = true)
    (hrhs : memIsRangePageAligned rhs = true) :
    memIsRangePageAligned (rangeMerge lhs rhs) = true := by
  have hbase : (min lhs.base rhs.base).toNat % 4096 = 0 := by
    have := (memIsRangePageAligned_iff.1 hlhs).1
    have := (memIsRangePageAligned_iff.1 hrhs).1
    rw [UInt64.toNat_min]
    omega
  have hend : (max (rangeEnd lhs) (rangeEnd rhs)).toNat % 4096 = 0 := by
    have := rangeEnd_aligned hlhs
    have := rangeEnd_aligned hrhs
    rw [UInt64.toNat_max]
    omega
  have hstart := (min lhs.base rhs.base).toNat_lt
  refine memIsRangePageAligned_iff.2 ⟨hbase, ?_⟩
  rw [rangeMerge, rangeFromStartAndEnd, UInt64.toNat_sub]
  omega

theorem size_pos_of_rangeEmpty {range : USizeRange} (h : rangeEmpty range = false) :
    0 < range.size.toNat := by
  apply Nat.pos_of_ne_zero
  intro hzero
  have hsize : range.size = 0 := UInt64.toNat_inj.1 hzero
  simp [rangeEmpty, hsize] at h

/-- Both pieces of a cut range are aligned, and shorter than the range unless it is empty. -/
theorem rangeHalf_aligned {self split piece : USizeRange}
    (hself : memIsRangePageAligned self = true) (hsplit : memIsRangePageAligned split = true)
    (hpiece : piece = rangeHalfUnder self split ∨ piece = rangeHalfOver self split) :
    memIsRangePageAligned piece = true ∧
      (rangeEmpty self = false → piece.size.toNat < self.size.toNat) := by
  obtain ⟨hbase, hsize⟩ := memIsRangePageAligned_iff.1 hself
  have hsplitBase := (memIsRangePageAligned_iff.1 hsplit).1
  have hend := rangeEnd_aligned hself
  have hsplitEnd := rangeEnd_aligned hsplit
  have hselfEnd : (rangeEnd self).toNat = (self.base.toNat + self.size.toNat) % 2 ^ 64 := by
    rw [rangeEnd, UInt64.toNat_add]
  have hbaseLt := self.base.toNat_lt
  have hsizeLt := self.size.toNat_lt
  have hempty : memIsRangePageAligned ⟨0, 0⟩ = true ∧
      (rangeEmpty self = false → (0 : UInt64).toNat < self.size.toNat) :=
    ⟨rfl, size_pos_of_rangeEmpty⟩
  rcases hpiece with rfl | rfl
  · rw [rangeHalfUnder]
    split
    next hcut =>
      simp only [rangeColide, Bool.and_eq_true, decide_eq_true_eq, gt_iff_lt,
        UInt64.lt_iff_toNat_lt] at hcut
      have hsub : (split.base - self.base).toNat = split.base.toNat - self.base.toNat :=
        UInt64.toNat_sub_of_le _ _ (UInt64.le_iff_toNat_le.2 hcut.2.le)
      refine ⟨memIsRangePageAligned_iff.2 ⟨hbase, ?_⟩, ?_⟩
      · rw [hsub]
        omega
      · intro _
        rw [hsub]
        omega
    next => exact hempty
  · rw [rangeHalfOver]
    split
    next hcut =>
      simp only [rangeColide, Bool.and_eq_true, decide_eq_true_eq, gt_iff_lt,
        UInt64.lt_iff_toNat_lt] at hcut
      have hsub : (rangeEnd self - rangeEnd split).toNat =
          (rangeEnd self).toNat - (rangeEnd split).toNat :=
        UInt64.toNat_sub_of_le _ _ (UInt64.le_iff_toNat_le.2 hcut.2.le)
      refine ⟨memIsRangePageAligned_iff.2 ⟨hsplitEnd, ?_⟩, ?_⟩
      · rw [hsub]
        omega
      · intro _
        rw [hsub]
        omega
    next => exact hempty

/-- What decreases along the recursion: the type first, then the number of pages. -/
def weight (entry : HandoverMmapEntry) : ℕ :=
  entry.type.rank * 2 ^ 52 + entry.range.size.toNat / 4096

theorem weight_lt_appendDepth (entry : HandoverMmapEntry) : weight entry < appendDepth := by
  have hrank := entry.type.rank_lt
  have hsize := entry.range.size.toNat_lt
  unfold weight appendDepth
  omega

/-- A piece of the loser is lighter than the entry that was to be appended. -/
theorem weight_piece_lt {winner loser : HandoverMmapEntry} {piece : USizeRange}
    (hloser : memIsRangePageAligned loser.range = true)
    (hwinner : memIsRangePageAligned winner.range = true)
    (hpiece : piece = rangeHalfUnder loser.range winner.range ∨
      piece = rangeHalfOver loser.range winner.range)
    (hentry : (entry = loser ∧ rangeEmpty entry.range = false) ∨ loser.type < entry.type) :
    weight ⟨piece, loser.type⟩ < weight entry := by
  unfold weight
  rcases hentry with ⟨rfl, hnonempty⟩ | htype
  · obtain ⟨haligned, hshorter⟩ := rangeHalf_aligned hloser hwinner hpiece
    have hlt := hshorter hnonempty
    have hpages := (memIsRangePageAligned_iff.1 haligned).2
    have hpages' := (memIsRangePageAligned_iff.1 hloser).2
    simp only
    omega
  · have hrank : loser.type.rank < entry.type.rank := htype
    have hsize := piece.size.toNat_lt
    simp only
    omega

/-- The depth is enough to append the entry: the call panics on a full map or returns a map whose
entries are page-aligned again. -/
def Finishes (depth : ℕ) (self : HandoverMmap) (entry : HandoverMmapEntry) : Prop :=
  appendWithin depth self entry = .error .panic ∨
    ∃ result, appendWithin depth self entry = .ok result ∧ Aligned result.entries

/-- Appending both pieces of the loser finishes when lighter entries do. -/
theorem cut_finishes {depth : ℕ} {winner loser : HandoverMmapEntry}
    (ih : ∀ entries entry, Aligned entries → memIsRangePageAligned entry.range = true →
      weight entry < depth → Finishes depth ⟨entries⟩ entry)
    (hmap : Aligned (before ++ winner :: after))
    (hloser : memIsRangePageAligned loser.range = true)
    (hlight : ∀ piece, (piece = rangeHalfUnder loser.range winner.range ∨
      piece = rangeHalfOver loser.range winner.range) → weight ⟨piece, loser.type⟩ < depth) :
    let append := do
      let self ← appendWithin depth ⟨before ++ winner :: after⟩
        ⟨rangeHalfUnder loser.range winner.range, loser.type⟩
      appendWithin depth self ⟨rangeHalfOver loser.range winner.range, loser.type⟩
    append = .error .panic ∨ ∃ result, append = .ok result ∧ Aligned result.entries := by
  have hwinner := (aligned_middle.1 hmap).2.1
  have hlower := (rangeHalf_aligned hloser hwinner (Or.inl rfl)).1
  have hlowerLight := hlight (rangeHalfUnder loser.range winner.range) (Or.inl rfl)
  have hover := (rangeHalf_aligned hloser hwinner (Or.inr rfl)).1
  have hoverLight := hlight (rangeHalfOver loser.range winner.range) (Or.inr rfl)
  rcases ih _ ⟨rangeHalfUnder loser.range winner.range, loser.type⟩ hmap hlower hlowerLight with
    h | ⟨middle, h, hmiddle⟩
  · simp only [h]
    exact Or.inl rfl
  · simp only [h]
    exact ih _ ⟨rangeHalfOver loser.range winner.range, loser.type⟩ hmiddle hover hoverLight

/-- A page-aligned entry is appended within any depth above its weight. -/
theorem appendWithin_finishes {depth : ℕ} (hmap : Aligned entries)
    (hentry : memIsRangePageAligned entry.range = true) (hdepth : weight entry < depth) :
    Finishes depth ⟨entries⟩ entry := by
  induction depth generalizing entries entry with
  | zero => exact absurd hdepth (Nat.not_lt_zero _)
  | succ depth ih =>
    have hdepth' : weight entry ≤ depth := Nat.lt_succ_iff.1 hdepth
    rw [Finishes, appendWithin]
    by_cases hfull : entries.length + 1 ≥ handoverMmapMaxSize
    · exact Or.inl (if_pos hfull)
    rw [if_neg hfull]
    by_cases hempty : rangeEmpty entry.range = true
    · exact Or.inr ⟨⟨entries⟩, if_pos hempty, hmap⟩
    rw [if_neg hempty, alignEntry_of_aligned hentry]
    dsimp only
    rcases scan_cases entry [] entries (by simp) with
      ⟨before, found, after, hscan, rfl, _⟩ |
      ⟨before, found, after, hscan, rfl, _, _, htype⟩ |
      ⟨before, after, hscan, rfl, _⟩
    · rw [hscan]
      obtain ⟨hbefore, hfound, hafter⟩ := aligned_middle.1 hmap
      exact Or.inr ⟨_, rfl, aligned_middle.2 ⟨hbefore, rangeMerge_aligned hfound hentry, hafter⟩⟩
    · rw [hscan]
      obtain ⟨hbefore, hfound, hafter⟩ := aligned_middle.1 hmap
      rcases lt_or_gt_of_ne htype with hlt | hlt
      · simp only [if_neg hlt.not_gt]
        apply cut_finishes (fun _ _ ↦ ih) (aligned_middle.2 ⟨hbefore, hentry, hafter⟩) hfound
        intro piece hpiece
        exact (weight_piece_lt hfound hentry hpiece (Or.inr hlt)).trans_le hdepth'
      · simp only [if_pos hlt]
        apply cut_finishes (fun _ _ ↦ ih) hmap hentry
        intro piece hpiece
        have hnonempty := Bool.eq_false_iff.2 hempty
        exact (weight_piece_lt hentry hfound hpiece (Or.inl ⟨rfl, hnonempty⟩)).trans_le hdepth'
    · rw [hscan]
      have hbefore : Aligned before := fun e he ↦ hmap e (by simp [he])
      have hafter : Aligned after := fun e he ↦ hmap e (by simp [he])
      exact Or.inr ⟨_, rfl, aligned_middle.2 ⟨hbefore, hentry, hafter⟩⟩

/-- On page-aligned entries `handover_mmap_append` returns, or panics because the map is full. -/
theorem handoverMmapAppend_finishes {map : HandoverMmap} (hmap : Aligned map.entries)
    (hentry : memIsRangePageAligned entry.range = true) :
    handoverMmapAppend map entry = .error .panic ∨
      ∃ result, handoverMmapAppend map entry = .ok result ∧ Aligned result.entries :=
  appendWithin_finishes hmap hentry (weight_lt_appendDepth entry)

/-- One call of `handover_mmap_append` with a page-aligned, non-empty entry. -/
def Appends (map : HandoverMmap) (entry : HandoverMmapEntry) (map' : HandoverMmap) : Prop :=
  memIsRangePageAligned entry.range = true ∧ rangeEmpty entry.range = false ∧
    handoverMmapAppend map entry = .ok map'

/-- The entry ends below `2 ^ 64`, and the code can separate it from the map by cutting. -/
def Fits (map : HandoverMmap) (entry : HandoverMmapEntry) : Prop :=
  entry.range.Bounded ∧ Separable map.entries entry

/-- The address has this type in the map. -/
def HandoverMmap.Gives (map : HandoverMmap) (addr : UInt64) (type : HandoverMmapType) : Prop :=
  ∃ entry ∈ map.entries, addr ∈ entry.range ∧ entry.type = type

/-- The types that the appended entries give to an address. -/
def typesAt (appended : List HandoverMmapEntry) (addr : UInt64) : Set HandoverMmapType :=
  {type | ∃ entry ∈ appended, addr ∈ entry.range ∧ entry.type = type}

/-- The map is sorted and disjoint, and its types are the largest ones appended. -/
structure Denotes (map : HandoverMmap) (appended : List HandoverMmapEntry) : Prop where
  sorted : map.entries.Pairwise fun first second ↦ first.range.base < second.range.base
  disjoint : map.entries.Pairwise fun first second ↦
    ∀ addr, ¬ (addr ∈ first.range ∧ addr ∈ second.range)
  largest : ∀ addr type, map.Gives addr type ↔ IsGreatest (typesAt appended addr) type

theorem coverage_eq_coe {addr : UInt64} {type : HandoverMmapType} :
    coverage entries addr = type ↔ IsGreatest (typesAt entries addr) type := by
  constructor
  · intro h
    obtain ⟨entry, hmem, haddr, htype⟩ :=
      exists_claim_eq_coverage (by rw [h]; exact WithBot.coe_ne_bot)
    refine ⟨⟨entry, hmem, haddr, WithBot.coe_inj.1 (htype.trans h)⟩, ?_⟩
    rintro type' ⟨entry', hmem', haddr', rfl⟩
    have hle := claim_le_coverage hmem' addr
    rw [claim, if_pos haddr', h] at hle
    exact WithBot.coe_le_coe.1 hle
  · rintro ⟨⟨entry, hmem, haddr, rfl⟩, hupper⟩
    have hle := claim_le_coverage hmem addr
    rw [claim, if_pos haddr] at hle
    have hcovered : coverage entries addr ≠ ⊥ := ne_bot_of_le_ne_bot WithBot.coe_ne_bot hle
    obtain ⟨entry', hmem', haddr', htype'⟩ := exists_claim_eq_coverage hcovered
    apply le_antisymm _ hle
    rw [← htype']
    exact WithBot.coe_le_coe.2 (hupper ⟨entry', hmem', haddr', rfl⟩)

/-- In a normal form the only type that an address has is the largest one. -/
theorem NormalForm.gives_iff {map : HandoverMmap} (h : NormalForm map.entries) {addr : UInt64}
    {type : HandoverMmapType} : map.Gives addr type ↔ coverage map.entries addr = type := by
  rw [coverage_eq_coe]
  constructor
  · rintro ⟨entry, hmem, haddr, rfl⟩
    refine ⟨⟨entry, hmem, haddr, rfl⟩, ?_⟩
    rintro type' ⟨entry', hmem', haddr', rfl⟩
    rw [(h.regular entry hmem).bounded.mem_iff] at haddr
    rw [(h.regular entry' hmem').bounded.mem_iff] at haddr'
    rw [h.eq_of_overlap hmem hmem' (by omega) (by omega)]
  · intro hgreatest
    exact hgreatest.1

/-- A normal form with the right coverage denotes what was appended. -/
theorem NormalForm.denotes {map : HandoverMmap} {appended : List HandoverMmapEntry}
    (h : NormalForm map.entries)
    (hcoverage : ∀ addr, coverage map.entries addr = coverage appended addr) :
    Denotes map appended := by
  have hregular : ∀ e ∈ map.entries, Regular e := h.regular
  refine ⟨?_, ?_, ?_⟩
  · refine h.ordered.imp_of_mem fun {first second} hfirst _ hle ↦ ?_
    have hnonempty := (hregular first hfirst).nonempty
    rw [UInt64.lt_iff_toNat_lt]
    omega
  · refine h.ordered.imp_of_mem fun {first second} hfirst hsecond hle addr ↦ ?_
    rw [(hregular first hfirst).bounded.mem_iff, (hregular second hsecond).bounded.mem_iff]
    omega
  · intro addr type
    rw [h.gives_iff, hcoverage, coverage_eq_coe]

/-- Along a run of appends that fit, the map stays a normal form with the right coverage. -/
theorem run_normalForm {map map' : HandoverMmap} {appended : List HandoverMmapEntry}
    (hrun : Run (Guarded Appends Fits) map appended map') (hmap : NormalForm map.entries) :
    NormalForm map'.entries ∧ ∀ addr, coverage map'.entries addr =
      max (coverage appended addr) (coverage map.entries addr) := by
  induction hrun with
  | nil map =>
    refine ⟨hmap, fun addr ↦ ?_⟩
    rw [coverage_nil, max_eq_right bot_le]
  | cons head _ ih =>
    obtain ⟨⟨hbounded, hsep⟩, haligned, hnonempty, happend⟩ := head
    obtain ⟨hnormal, hcoverage⟩ := append_separable hmap
      (Regular.of_aligned hnonempty haligned hbounded) hsep happend
    obtain ⟨hnormal', hcoverage'⟩ := ih hnormal
    refine ⟨hnormal', fun addr ↦ ?_⟩
    rw [hcoverage', hcoverage, coverage_cons]
    ac_rfl

theorem run_aligned {map map' : HandoverMmap} {appended : List HandoverMmapEntry}
    (hrun : Run Appends map appended map') (hmap : Aligned map.entries) : Aligned map'.entries := by
  have hstep : ∀ map entry map', Aligned map.entries → Appends map entry map' →
      Aligned map'.entries := by
    rintro map entry map' haligned ⟨hentry, _, happend⟩
    rcases handoverMmapAppend_finishes haligned hentry with h | ⟨result, h, hresult⟩
    · rw [h] at happend
      cases happend
    · rw [h] at happend
      cases happend
      exact hresult
  exact hrun.invariant hstep hmap

/-- A sequence of appends that fit makes a sorted, disjoint map in which every address has the
largest type appended for it, whatever the order of the appends, and the next append either
returns or finds the map full. -/
theorem appends_denote {map : HandoverMmap} {appended : List HandoverMmapEntry}
    (hrun : Run (Guarded Appends Fits) ⟨[]⟩ appended map) :
    Denotes map appended ∧
      (∀ other map', appended.Perm other → Run (Guarded Appends Fits) ⟨[]⟩ other map' →
        ∀ addr type, map.Gives addr type ↔ map'.Gives addr type) ∧
      ∀ entry, memIsRangePageAligned entry.range = true →
        handoverMmapAppend map entry ≠ .error .depth := by
  obtain ⟨hnormal, hcoverage⟩ := run_normalForm hrun NormalForm.nil
  simp only [coverage_nil, max_eq_left bot_le] at hcoverage
  refine ⟨hnormal.denotes hcoverage, ?_, ?_⟩
  · intro other map' hperm hrun' addr type
    obtain ⟨hnormal', hcoverage'⟩ := run_normalForm hrun' NormalForm.nil
    simp only [coverage_nil, max_eq_left bot_le] at hcoverage'
    rw [hnormal.gives_iff, hnormal'.gives_iff, hcoverage, hcoverage', coverage_perm hperm]
  · intro entry hentry
    have haligned := run_aligned (hrun.mono fun _ _ _ h ↦ h.2) (by simp [Aligned])
    rcases handoverMmapAppend_finishes haligned hentry with h | ⟨result, h, _⟩
    · simp [h]
    · simp [h]

/-- A reserved range, and a free range around it that is cut in two. -/
theorem appends_denote_cut :
    Denotes ⟨[⟨⟨0x1000, 0x1000⟩, .free⟩, ⟨⟨0x2000, 0x1000⟩, .reserved⟩, ⟨⟨0x3000, 0x1000⟩, .free⟩]⟩
      [⟨⟨0x2000, 0x1000⟩, .reserved⟩, ⟨⟨0x1000, 0x3000⟩, .free⟩] :=
  (appends_denote (.cons ⟨⟨by decide, by decide⟩, rfl, rfl, rfl⟩
    (.cons ⟨⟨by decide, by decide⟩, rfl, rfl, rfl⟩ (.nil _)))).1

/-- A free entry that continues a free entry is merged into it without a look at the reserved
entry behind it, which it overlaps. -/
theorem appends_denote_fails :
    ∃ map, Run Appends ⟨[]⟩ [⟨⟨0, 0x2000⟩, .free⟩, ⟨⟨0x2000, 0x2000⟩, .reserved⟩,
        ⟨⟨0x1000, 0x2000⟩, .free⟩] map ∧
      ¬ Denotes map [⟨⟨0, 0x2000⟩, .free⟩, ⟨⟨0x2000, 0x2000⟩, .reserved⟩,
        ⟨⟨0x1000, 0x2000⟩, .free⟩] := by
  refine ⟨⟨[⟨⟨0, 0x3000⟩, .free⟩, ⟨⟨0x2000, 0x2000⟩, .reserved⟩]⟩,
    .cons ⟨rfl, rfl, rfl⟩ (.cons ⟨rfl, rfl, rfl⟩ (.cons ⟨rfl, rfl, rfl⟩ (.nil _))), ?_⟩
  intro h
  have hdisjoint := (List.pairwise_cons.1 h.disjoint).1 _ (List.mem_singleton_self _)
  exact hdisjoint 0x2000 ⟨by decide, by decide⟩

end Brutal.Boot
