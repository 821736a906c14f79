import Brutal.Boot.HandoverRuns

/-!
# Alignment of ranges

`range_align_bigger` and `range_align_smaller` round the base and the size of a range on their own.
Whether the rounded range still covers the original one, or stays within it, depends on what is left
over at the base and at the size.
-/

namespace Brutal.Boot

open Base Base.USizeRange

section Rounding

variable {word align : UInt64} {k : ℕ}

theorem alignDown_toNat (halign : align.toNat = 2 ^ k) :
    (alignDown word align).toNat = word.toNat - word.toNat % 2 ^ k := by
  rw [alignDown, Lib.toNat_and_not_mask halign, ← Nat.div_mul_self_eq_mod_sub_self]

/-- Adding `unit - 1` before rounding down rounds up. -/
theorem roundUp_eq (value : ℕ) {unit : ℕ} (hunit : 0 < unit) :
    (value + unit - 1) / unit * unit =
      if value % unit = 0 then value else value - value % unit + unit := by
  have hsplit := Nat.div_add_mod value unit
  have hlt := Nat.mod_lt value hunit
  have hquotient : (value + unit - 1) / unit =
      value / unit + (value % unit + (unit - 1)) / unit := by
    rw [← Nat.mul_add_div hunit, ← Nat.add_assoc, hsplit, Nat.add_sub_assoc hunit]
  rw [hquotient, Nat.add_mul, Nat.mul_comm (value / unit)]
  split
  next hzero =>
    rw [hzero, Nat.zero_add, Nat.div_eq_of_lt (Nat.sub_lt hunit Nat.one_pos), Nat.zero_mul]
    omega
  next hpos =>
    have hone : (value % unit + (unit - 1)) / unit = 1 :=
      Nat.div_eq_of_lt_le (by omega) (by omega)
    rw [hone, Nat.one_mul]
    omega

theorem alignUp_toNat (halign : align.toNat = 2 ^ k) (hword : word.toNat + 2 ^ k ≤ 2 ^ 64) :
    (alignUp word align).toNat =
      if word.toNat % 2 ^ k = 0 then word.toNat else word.toNat - word.toNat % 2 ^ k + 2 ^ k := by
  have hpos := Nat.two_pow_pos k
  have hsum : (word + align - 1).toNat = word.toNat + 2 ^ k - 1 := by
    have hone : (1 : UInt64).toNat = 1 := rfl
    rw [UInt64.toNat_sub, UInt64.toNat_add, halign, hone]
    omega
  rw [alignUp, Lib.toNat_and_not_mask halign, hsum, roundUp_eq _ hpos]

/-- Too close to the top of the address space, rounding up wraps to zero. -/
theorem alignUp_wraps (halign : align.toNat = 2 ^ k) (hword : 2 ^ 64 < word.toNat + 2 ^ k) :
    (alignUp word align).toNat = 0 := by
  have hlt := word.toNat_lt
  have hk := halign ▸ align.toNat_lt
  have hsum : (word + align - 1).toNat = word.toNat + 2 ^ k - 1 - 2 ^ 64 := by
    have hone : (1 : UInt64).toNat = 1 := rfl
    rw [UInt64.toNat_sub, UInt64.toNat_add, halign, hone]
    omega
  rw [alignUp, Lib.toNat_and_not_mask halign, hsum, Nat.div_eq_of_lt (by omega), Nat.zero_mul]

theorem mod_toNat (halign : align.toNat = 2 ^ k) :
    (word % align).toNat = word.toNat % 2 ^ k := by
  rw [UInt64.toNat_mod, halign]

theorem mod_eq_zero_iff (halign : align.toNat = 2 ^ k) :
    word % align = 0 ↔ word.toNat % 2 ^ k = 0 := by
  rw [← UInt64.toNat_inj, mod_toNat halign]
  rfl

theorem alignDown_mod (halign : align.toNat = 2 ^ k) : alignDown word align % align = 0 := by
  rw [mod_eq_zero_iff halign, alignDown, Lib.toNat_and_not_mask halign]
  exact Nat.mul_mod_left _ _

theorem alignUp_mod (halign : align.toNat = 2 ^ k) : alignUp word align % align = 0 := by
  rw [mod_eq_zero_iff halign, alignUp, Lib.toNat_and_not_mask halign]
  exact Nat.mul_mod_left _ _

/-- A multiple of the alignment less than one step past the top is not past it. -/
theorem le_top_of_dvd {value : ℕ} (halign : align.toNat = 2 ^ k) (hdvd : 2 ^ k ∣ value)
    (hlt : value < 2 ^ 64 + 2 ^ k) : value ≤ 2 ^ 64 := by
  have hk : k ≤ 64 :=
    (Nat.pow_le_pow_iff_right (by decide)).mp (Nat.le_of_lt (halign ▸ align.toNat_lt))
  have htop : 2 ^ k ∣ 2 ^ 64 := Nat.pow_dvd_pow 2 hk
  obtain ⟨count, rfl⟩ := hdvd
  obtain ⟨top, htop⟩ := htop
  rw [htop] at hlt ⊢
  have hcount : count < top + 1 := by
    apply Nat.lt_of_mul_lt_mul_left (a := 2 ^ k)
    rwa [Nat.mul_add, Nat.mul_one]
  exact Nat.mul_le_mul_left _ (Nat.le_of_lt_succ hcount)

end Rounding

/-- Both ends of the range are multiples of the alignment. -/
def IsAligned (range : USizeRange) (align : UInt64) : Prop :=
  range.base % align = 0 ∧ range.size % align = 0

/-- `range_align_bigger` makes an aligned range that covers the original. -/
structure AlignsBigger (range : USizeRange) (align : UInt64) : Prop where
  aligned : IsAligned (rangeAlignBigger range align) align
  covers : ∀ addr ∈ range, addr ∈ rangeAlignBigger range align

/-- `range_align_smaller` makes an aligned range within the original, and an empty one if no other
fits. -/
structure AlignsSmaller (range : USizeRange) (align : UInt64) : Prop where
  aligned : IsAligned (rangeAlignSmaller range align) align
  within : ∀ addr ∈ rangeAlignSmaller range align, addr ∈ range
  empty : (∀ fit, IsAligned fit align → (∀ addr ∈ fit, addr ∈ range) → fit.size = 0) →
    (rangeAlignSmaller range align).size = 0

/-- What is left over at the base finds room in what the size is rounded up by. -/
def RoomBigger (range : USizeRange) (align : UInt64) : Prop :=
  range.size = 0 ∨ range.size.toNat + align.toNat ≤ 2 ^ 64 ∧
    (range.base % align = 0 ∨ range.size % align ≠ 0 ∧
      (range.base % align).toNat + (range.size % align).toNat ≤ align.toNat)

/-- What the base is rounded up by finds room in what is left over at the size. -/
def RoomSmaller (range : USizeRange) (align : UInt64) : Prop :=
  range.size < align ∨ range.base % align = 0 ∨
    align.toNat ≤ (range.base % align).toNat + (range.size % align).toNat

/-- Membership in a range that ends at the top of the address space at the latest. -/
theorem mem_iff_of_finish_le {range : USizeRange} (h : range.finish ≤ 2 ^ 64) {addr : UInt64} :
    addr ∈ range ↔ range.base.toNat ≤ addr.toNat ∧ addr.toNat < range.finish := by
  rw [mem_def, UInt64.lt_iff_toNat_lt, UInt64.toNat_sub]
  have haddr := addr.toNat_lt
  have hbase := range.base.toNat_lt
  unfold finish at h ⊢
  omega

section Aligned

variable {range : USizeRange} {align : UInt64} {k : ℕ}

/-- The last address of a range that is not empty. -/
theorem last_toNat {range : USizeRange} (hsize : range.size ≠ 0) (h : range.finish ≤ 2 ^ 64) :
    (range.base + range.size - 1).toNat = range.finish - 1 := by
  have hpos : range.size.toNat ≠ 0 := fun hzero ↦ hsize (UInt64.toNat_inj.mp hzero)
  have hone : (1 : UInt64).toNat = 1 := rfl
  have hbase := range.base.toNat_lt
  unfold finish at h ⊢
  rw [UInt64.toNat_sub, UInt64.toNat_add, hone]
  omega

theorem alignsBigger_of_room (halign : align.toNat = 2 ^ k) (hrange : range.Bounded)
    (hroom : RoomBigger range align) (addr : UInt64) (haddr : addr ∈ range) :
    addr ∈ rangeAlignBigger range align := by
  have hmem := hrange.mem_iff.mp haddr
  unfold Bounded at hrange
  have hbaseMod := Nat.mod_lt range.base.toNat (Nat.two_pow_pos k)
  have hbaseLe := Nat.mod_le range.base.toNat (2 ^ k)
  have hsizeLe := Nat.mod_le range.size.toNat (2 ^ k)
  rcases hroom with hempty | ⟨htop, hroom⟩
  · have hzero : range.size.toNat = 0 := UInt64.toNat_inj.mpr hempty
    unfold finish at hmem
    omega
  · rw [mod_eq_zero_iff halign, ne_eq, mod_eq_zero_iff halign, mod_toNat halign, mod_toNat halign,
      halign] at hroom
    rw [halign] at htop
    have hbase : (rangeAlignBigger range align).base.toNat =
        range.base.toNat - range.base.toNat % 2 ^ k := alignDown_toNat halign
    have hsize := alignUp_toNat halign htop
    have hfinish : (rangeAlignBigger range align).finish = range.base.toNat -
        range.base.toNat % 2 ^ k + (alignUp range.size align).toNat := by
      rw [finish, hbase]
      rfl
    have hdvd : 2 ^ k ∣ (rangeAlignBigger range align).finish := by
      rw [hfinish]
      apply Nat.dvd_add (Nat.dvd_sub_mod _)
      exact Nat.dvd_of_mod_eq_zero ((mod_eq_zero_iff halign).mp (alignUp_mod halign))
    have hlt : (rangeAlignBigger range align).finish < 2 ^ 64 + 2 ^ k := by
      rw [hfinish, hsize]
      split <;> omega
    rw [mem_iff_of_finish_le (le_top_of_dvd halign hdvd hlt), hbase, hfinish, hsize]
    unfold finish at hmem
    split <;> omega

theorem room_of_covers (halign : align.toNat = 2 ^ k) (hrange : range.Bounded)
    (hcovers : ∀ addr ∈ range, addr ∈ rangeAlignBigger range align) : RoomBigger range align := by
  by_cases hempty : range.size = 0
  · exact Or.inl hempty
  · have hpos : range.size.toNat ≠ 0 := fun hzero ↦ hempty (UInt64.toNat_inj.mp hzero)
    have hlastNat := last_toNat hempty (Nat.le_of_lt hrange)
    have hlast := hcovers (range.base + range.size - 1) (hrange.mem_iff.mpr (by
      rw [hlastNat]
      unfold finish
      omega))
    rw [mem_def, UInt64.lt_iff_toNat_lt, UInt64.toNat_sub, hlastNat] at hlast
    have hbase : (rangeAlignBigger range align).base.toNat =
        range.base.toNat - range.base.toNat % 2 ^ k := alignDown_toNat halign
    have hsize : (rangeAlignBigger range align).size = alignUp range.size align := rfl
    have hbaseLt := range.base.toNat_lt
    have hbaseLe := Nat.mod_le range.base.toNat (2 ^ k)
    have hsizeLe := Nat.mod_le range.size.toNat (2 ^ k)
    unfold Bounded at hrange
    rw [hbase, hsize] at hlast
    unfold finish at hlast
    rw [RoomBigger, mod_eq_zero_iff halign, ne_eq, mod_eq_zero_iff halign, mod_toNat halign,
      mod_toNat halign, halign]
    by_cases htop : range.size.toNat + 2 ^ k ≤ 2 ^ 64
    · rw [alignUp_toNat halign htop] at hlast
      refine Or.inr ⟨htop, ?_⟩
      split at hlast <;> omega
    · rw [alignUp_wraps halign (Nat.lt_of_not_le htop)] at hlast
      exact absurd hlast (Nat.not_lt_zero _)

theorem within_of_room (halign : align.toNat = 2 ^ k) (hrange : range.Bounded)
    (hroom : RoomSmaller range align) (addr : UInt64)
    (haddr : addr ∈ rangeAlignSmaller range align) : addr ∈ range := by
  have hbaseLe := Nat.mod_le range.base.toNat (2 ^ k)
  have hsizeLe := Nat.mod_le range.size.toNat (2 ^ k)
  have hsizeLt := Nat.mod_lt range.size.toNat (Nat.two_pow_pos k)
  have hsize : (rangeAlignSmaller range align).size.toNat =
      range.size.toNat - range.size.toNat % 2 ^ k := alignDown_toNat halign
  rw [RoomSmaller, mod_eq_zero_iff halign, mod_toNat halign, mod_toNat halign, halign,
    UInt64.lt_iff_toNat_lt, halign] at hroom
  by_cases hsmall : range.size.toNat < 2 ^ k
  · rw [mem_def, UInt64.lt_iff_toNat_lt, hsize, Nat.mod_eq_of_lt hsmall, Nat.sub_self] at haddr
    exact absurd haddr (Nat.not_lt_zero _)
  · unfold Bounded at hrange
    have htop : range.base.toNat + 2 ^ k ≤ 2 ^ 64 := by omega
    have hbase : (rangeAlignSmaller range align).base.toNat = _ := alignUp_toNat halign htop
    have hfinish : (rangeAlignSmaller range align).finish ≤ range.finish := by
      rw [finish, finish, hbase, hsize]
      split <;> omega
    have hle : range.finish ≤ 2 ^ 64 := Nat.le_of_lt hrange
    rw [mem_iff_of_finish_le (hfinish.trans hle), hbase] at haddr
    rw [mem_iff_of_finish_le hle]
    split at haddr <;> omega

theorem room_of_within (halign : align.toNat = 2 ^ k) (hrange : range.Bounded)
    (hwithin : ∀ addr ∈ rangeAlignSmaller range align, addr ∈ range) :
    RoomSmaller range align := by
  rw [RoomSmaller, mod_eq_zero_iff halign, mod_toNat halign, mod_toNat halign, halign,
    UInt64.lt_iff_toNat_lt, halign]
  by_cases hsmall : range.size.toNat < 2 ^ k
  · exact Or.inl hsmall
  · have hpos := Nat.two_pow_pos k
    have hsizeLt := Nat.mod_lt range.size.toNat hpos
    have hsizeLe := Nat.mod_le range.size.toNat (2 ^ k)
    have hbaseLe := Nat.mod_le range.base.toNat (2 ^ k)
    have hsize : (rangeAlignSmaller range align).size.toNat =
        range.size.toNat - range.size.toNat % 2 ^ k := alignDown_toNat halign
    have hbounded := hrange
    unfold Bounded at hbounded
    have htop : range.base.toNat + 2 ^ k ≤ 2 ^ 64 := by omega
    have hbase : (rangeAlignSmaller range align).base.toNat = _ := alignUp_toNat halign htop
    have hnonempty : (rangeAlignSmaller range align).size ≠ 0 := by
      intro hzero
      rw [hzero, UInt64.toNat_zero] at hsize
      omega
    have hdvd : 2 ^ k ∣ (rangeAlignSmaller range align).finish := by
      apply Nat.dvd_add
      · exact Nat.dvd_of_mod_eq_zero ((mod_eq_zero_iff halign).mp (alignUp_mod halign))
      · exact Nat.dvd_of_mod_eq_zero ((mod_eq_zero_iff halign).mp (alignDown_mod halign))
    have hlt : (rangeAlignSmaller range align).finish < 2 ^ 64 + 2 ^ k := by
      rw [finish, hbase, hsize]
      split <;> omega
    have hfinish := le_top_of_dvd halign hdvd hlt
    have hlastNat := last_toNat hnonempty hfinish
    have hlast := hwithin _ ((mem_iff_of_finish_le hfinish).mpr (by
      rw [hlastNat]
      unfold finish
      omega))
    rw [hrange.mem_iff, hlastNat, finish, hbase, hsize, finish] at hlast
    split at hlast <;> omega

theorem alignsBigger_iff (halign : align.toNat = 2 ^ k) (hrange : range.Bounded) :
    AlignsBigger range align ↔ RoomBigger range align := by
  constructor
  · intro h
    exact room_of_covers halign hrange h.covers
  · intro h
    exact ⟨⟨alignDown_mod halign, alignUp_mod halign⟩, alignsBigger_of_room halign hrange h⟩

theorem alignsSmaller_iff (halign : align.toNat = 2 ^ k) (hrange : range.Bounded) :
    AlignsSmaller range align ↔ RoomSmaller range align := by
  constructor
  · intro h
    exact room_of_within halign hrange h.within
  · intro h
    have haligned : IsAligned (rangeAlignSmaller range align) align :=
      ⟨alignUp_mod halign, alignDown_mod halign⟩
    have hwithin := within_of_room halign hrange h
    exact ⟨haligned, hwithin, fun hnone ↦ hnone _ haligned hwithin⟩

end Aligned

/-- The first entry of a memory map is stored as it was aligned. -/
theorem handoverMmapAppend_nil {entry : HandoverMmapEntry} (h : rangeEmpty entry.range = false) :
    handoverMmapAppend ⟨[]⟩ entry = .ok ⟨[alignEntry entry]⟩ := by
  have hdepth : appendDepth = appendDepth - 1 + 1 :=
    (Nat.sub_add_cancel Nat.one_le_two_pow).symm
  rw [handoverMmapAppend, hdepth, appendWithin, if_neg (by decide), h, if_neg Bool.false_ne_true]
  rfl

/-- The map that `handover_mmap_append` makes of one entry. -/
def firstMap (entry : HandoverMmapEntry) (addr : UInt64) : Prop :=
  ∃ map, handoverMmapAppend ⟨[]⟩ entry = .ok map ∧ map.Gives addr entry.type

theorem firstMap_iff {entry : HandoverMmapEntry} (h : rangeEmpty entry.range = false)
    (addr : UInt64) : firstMap entry addr ↔ addr ∈ (alignEntry entry).range := by
  have htype : (alignEntry entry).type = entry.type := by
    rw [alignEntry]
    split <;> rfl
  constructor
  · rintro ⟨map, happend, found, hfound, haddr, -⟩
    rw [handoverMmapAppend_nil h] at happend
    cases happend
    obtain rfl := List.mem_singleton.mp hfound
    exact haddr
  · intro haddr
    exact ⟨_, handoverMmapAppend_nil h, _, List.mem_singleton_self _, haddr, htype⟩

/-- The rounded ranges cover the original, or stay within it, exactly when what is left over at the
base and at the size allows it; the memory map gets a free range that is not too large, or another
that is not too small, exactly then. -/
theorem rangeAlign_contains_iff {range : USizeRange} {align : UInt64} {k : ℕ}
    (halign : align.toNat = 2 ^ k) (hrange : range.Bounded) :
    (AlignsBigger range align ↔ RoomBigger range align) ∧
      (AlignsSmaller range align ↔ RoomSmaller range align) ∧
      (align = memPageSize → rangeEmpty range = false →
        ((∀ addr, firstMap ⟨range, .free⟩ addr → addr ∈ range) ↔ RoomSmaller range align) ∧
        ∀ type ≠ .free,
          ((∀ addr ∈ range, firstMap ⟨range, type⟩ addr) ↔ RoomBigger range align)) := by
  refine ⟨alignsBigger_iff halign hrange, alignsSmaller_iff halign hrange, ?_⟩
  rintro rfl hnonempty
  constructor
  · have hfirst : ∀ addr, firstMap ⟨range, .free⟩ addr ↔
        addr ∈ rangeAlignSmaller range memPageSize := firstMap_iff hnonempty
    simp only [hfirst]
    exact ⟨room_of_within halign hrange, within_of_room halign hrange⟩
  · intro type htype
    have hentry : alignEntry ⟨range, type⟩ = ⟨rangeAlignBigger range memPageSize, type⟩ :=
      if_neg htype
    have hfirst : ∀ addr, firstMap ⟨range, type⟩ addr ↔
        addr ∈ (alignEntry ⟨range, type⟩).range := firstMap_iff hnonempty
    simp only [hfirst, hentry]
    exact ⟨room_of_covers halign hrange, alignsBigger_of_room halign hrange⟩

/-- Half a page in, a range of one page and a half is covered by two pages and has one in it. -/
theorem rangeAlign_contains_half :
    AlignsBigger ⟨0x1800, 0x1800⟩ 0x1000 ∧ AlignsSmaller ⟨0x1800, 0x1800⟩ 0x1000 ∧
      (∀ addr, firstMap ⟨⟨0x1800, 0x1800⟩, .free⟩ addr → addr ∈ (⟨0x1800, 0x1800⟩ : USizeRange)) ∧
      ∀ addr ∈ (⟨0x1800, 0x1800⟩ : USizeRange), firstMap ⟨⟨0x1800, 0x1800⟩, .reserved⟩ addr := by
  have hbigger : RoomBigger ⟨0x1800, 0x1800⟩ 0x1000 :=
    Or.inr ⟨by decide, Or.inr ⟨by decide, by decide⟩⟩
  have hsmaller : RoomSmaller ⟨0x1800, 0x1800⟩ 0x1000 := Or.inr (Or.inr (by decide))
  obtain ⟨hcovers, hwithin, hmap⟩ := @rangeAlign_contains_iff ⟨0x1800, 0x1800⟩ 0x1000 12 rfl
    (by decide)
  obtain ⟨hfree, hother⟩ := hmap rfl rfl
  exact ⟨hcovers.mpr hbigger, hwithin.mpr hsmaller, hfree.mpr hsmaller,
    (hother .reserved (by decide)).mpr hbigger⟩

/-- A page that starts half a page in: the bigger range ends before it does, the smaller range
after it, so memory that was never free is handed out. -/
theorem rangeAlign_fails :
    (0x2000 ∈ (⟨0x1800, 0x1000⟩ : USizeRange) ∧
      0x2000 ∉ rangeAlignBigger ⟨0x1800, 0x1000⟩ 0x1000 ∧
      ¬ firstMap ⟨⟨0x1800, 0x1000⟩, .reserved⟩ 0x2000) ∧
    0x2900 ∈ rangeAlignSmaller ⟨0x1800, 0x1000⟩ 0x1000 ∧
      0x2900 ∉ (⟨0x1800, 0x1000⟩ : USizeRange) ∧ firstMap ⟨⟨0x1800, 0x1000⟩, .free⟩ 0x2900 := by
  refine ⟨⟨by decide, by decide, ?_⟩, by decide, by decide, ?_⟩
  · rw [firstMap_iff rfl]
    decide
  · rw [firstMap_iff rfl]
    decide

end Brutal.Boot
