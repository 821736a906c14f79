import Brutal.Ds.RangeAlloc

/-!
# Free ranges in order

The range allocator starts with one free range.  As long as its ranges are in ascending order with
gaps in between, handing out a range and cutting one out leave no trace of it in the free ranges,
provided that no free range lies inside the range that is cut out (it would stay) and that a free
range is split in two only if it is the last (else `vec_insert` would go wrong).
-/

namespace Brutal.Ds

open Base Lib

/-- The two ranges have no address in common. -/
def Apart (lhs rhs : USizeRange) : Prop := ∀ addr ∈ lhs, addr ∉ rhs

theorem Apart.symm {lhs rhs : USizeRange} (h : Apart lhs rhs) : Apart rhs lhs :=
  fun addr hrhs hlhs ↦ h addr hlhs hrhs

/-- Every address of the first range is in the second. -/
def Within (inner outer : USizeRange) : Prop := ∀ addr ∈ inner, addr ∈ outer

theorem Apart.within {inner outer other : USizeRange} (h : Apart other outer)
    (hwithin : Within inner outer) : Apart other inner :=
  fun addr hother hinner ↦ h addr hother (hwithin addr hinner)

theorem apart_of_finish_le {lhs rhs : USizeRange} (hlhs : lhs.Bounded) (hrhs : rhs.Bounded)
    (h : lhs.finish ≤ rhs.base.toNat ∨ rhs.finish ≤ lhs.base.toNat) : Apart lhs rhs := by
  intro addr hmem hmem'
  rw [hlhs.mem_iff] at hmem
  rw [hrhs.mem_iff] at hmem'
  omega

theorem within_of_le {inner outer : USizeRange} (hinner : inner.Bounded) (houter : outer.Bounded)
    (hbase : outer.base.toNat ≤ inner.base.toNat) (hfinish : inner.finish ≤ outer.finish) :
    Within inner outer := by
  intro addr hmem
  rw [hinner.mem_iff] at hmem
  rw [houter.mem_iff]
  omega

/-- The free ranges are in ascending order, none is empty and there are gaps in between. -/
structure Gapped (alloc : RangeAlloc) : Prop where
  bounded : ∀ i < alloc.len, (alloc.data i).Bounded
  nonempty : ∀ i < alloc.len, (alloc.data i).base.toNat < (alloc.data i).finish
  gap : ∀ i j, i < j → j < alloc.len → (alloc.data i).finish < (alloc.data j).base.toNat

/-- What is free afterwards is a part of what was free before, and still in order. -/
structure Shrinks (alloc alloc' : RangeAlloc) : Prop where
  gapped : Gapped alloc'
  within : ∀ j < alloc'.len, ∃ k < alloc.len, Within (alloc'.data j) (alloc.data k)

theorem Shrinks.refl {alloc : RangeAlloc} (h : Gapped alloc) : Shrinks alloc alloc :=
  ⟨h, fun j hj ↦ ⟨j, hj, fun _ hmem ↦ hmem⟩⟩

theorem Shrinks.trans {alloc alloc' alloc'' : RangeAlloc} (h : Shrinks alloc alloc')
    (h' : Shrinks alloc' alloc'') : Shrinks alloc alloc'' where
  gapped := h'.gapped
  within j hj := by
    obtain ⟨k, hk, hwithin⟩ := h'.within j hj
    obtain ⟨l, hl, hwithin'⟩ := h.within k hk
    exact ⟨l, hl, fun addr hmem ↦ hwithin' addr (hwithin addr hmem)⟩

variable {alloc alloc' : RangeAlloc} {range part : USizeRange} {i : ℕ}

/-- A free range can be made narrower. -/
theorem Gapped.narrow (h : Gapped alloc) (hi : i < alloc.len) (hpart : part.Bounded)
    (hnonempty : part.base.toNat < part.finish)
    (hbase : (alloc.data i).base.toNat ≤ part.base.toNat)
    (hfinish : part.finish ≤ (alloc.data i).finish) :
    Shrinks alloc { alloc with data := Function.update alloc.data i part } := by
  refine ⟨⟨?_, ?_, ?_⟩, ?_⟩
  · intro j hj
    by_cases hji : j = i
    · simpa [hji] using hpart
    · simpa [hji] using h.bounded j hj
  · intro j hj
    by_cases hji : j = i
    · simpa [hji] using hnonempty
    · simpa [hji] using h.nonempty j hj
  · intro j k hjk hk
    have hgap := h.gap j k hjk hk
    by_cases hji : j = i
    · subst hji
      have hki : k ≠ j := by omega
      simp only [Function.update_self, Function.update_of_ne hki]
      omega
    · by_cases hki : k = i
      · subst hki
        simp only [Function.update_self, Function.update_of_ne hji]
        omega
      · simpa only [Function.update_of_ne hji, Function.update_of_ne hki] using hgap
  · intro j hj
    refine ⟨j, hj, ?_⟩
    by_cases hji : j = i
    · subst hji
      simp only [Function.update_self]
      exact within_of_le hpart (h.bounded j hj) hbase hfinish
    · simp only [Function.update_of_ne hji]
      exact fun _ hmem ↦ hmem

/-- What lies inside one free range is not in another. -/
theorem Gapped.apart {j : ℕ} (h : Gapped alloc) (hi : i < alloc.len) (hj : j < alloc.len)
    (hne : j ≠ i) (hpart : part.Bounded) (hbase : (alloc.data i).base.toNat ≤ part.base.toNat)
    (hfinish : part.finish ≤ (alloc.data i).finish) : Apart (alloc.data j) part := by
  apply apart_of_finish_le (h.bounded j hj) hpart
  rcases Nat.lt_or_gt_of_ne hne with hlt | hgt
  · have hgap := h.gap j i hlt hi
    omega
  · have hgap := h.gap i j hgt hj
    omega

/-- Taking out an element moves those behind it down by one. -/
theorem vecSplice_one {α : Type*} {v v' : Vec α} (hcall : vecSplice v i 1 = .ok v') :
    v'.len = v.len - 1 ∧ i < v.len ∧
      ∀ j < v'.len, v'.data j = v.data (if i ≤ j then j + 1 else j) := by
  unfold vecSplice at hcall
  split at hcall
  next hi =>
    cases hcall
    refine ⟨rfl, by omega, fun j hj ↦ ?_⟩
    dsimp only at hj ⊢
    by_cases hij : i ≤ j
    · rw [if_pos ⟨hij, by omega⟩, if_pos hij]
    · rw [if_neg (fun hboth ↦ hij hboth.1), if_neg hij]
  next => cases hcall

/-- A free range can be taken out. -/
theorem Gapped.splice (h : Gapped alloc) (hcall : vecSplice alloc i 1 = .ok alloc') :
    Shrinks alloc alloc' ∧
      ∀ j < alloc'.len, ∃ k < alloc.len, k ≠ i ∧ alloc'.data j = alloc.data k := by
  obtain ⟨hlen, hi, hdata⟩ := vecSplice_one hcall
  have hindex : ∀ j < alloc'.len, (if i ≤ j then j + 1 else j) < alloc.len ∧
      (if i ≤ j then j + 1 else j) ≠ i := by
    intro j hj
    split <;> omega
  refine ⟨⟨⟨?_, ?_, ?_⟩, ?_⟩, ?_⟩
  · intro j hj
    rw [hdata j hj]
    exact h.bounded _ (hindex j hj).1
  · intro j hj
    rw [hdata j hj]
    exact h.nonempty _ (hindex j hj).1
  · intro j k hjk hk
    rw [hdata j (hjk.trans hk), hdata k hk]
    apply h.gap _ _ _ (hindex k hk).1
    split <;> split <;> omega
  · intro j hj
    rw [hdata j hj]
    exact ⟨_, (hindex j hj).1, fun _ hmem ↦ hmem⟩
  · intro j hj
    exact ⟨_, (hindex j hj).1, (hindex j hj).2, hdata j hj⟩

/-- The last free range can be split in two. -/
theorem Gapped.split {upper : USizeRange} (h : Gapped alloc) (hi : i + 1 = alloc.len)
    (hpart : part.Bounded) (hupper : upper.Bounded) (hnonempty : part.base.toNat < part.finish)
    (hnonempty' : upper.base.toNat < upper.finish)
    (hbase : (alloc.data i).base.toNat = part.base.toNat)
    (hgap : part.finish < upper.base.toNat) (hfinish : upper.finish = (alloc.data i).finish) :
    Shrinks alloc (vecPush { alloc with data := Function.update alloc.data i part } upper) := by
  have hnarrow := h.narrow (by omega : i < alloc.len) hpart hnonempty hbase.le (by omega)
  have hlast : (vecPush { alloc with data := Function.update alloc.data i part } upper).data
      alloc.len = upper := Function.update_self ..
  have hbelow : ∀ j < alloc.len, (vecPush { alloc with
      data := Function.update alloc.data i part } upper).data j =
        Function.update alloc.data i part j := fun j hj ↦
          Function.update_of_ne (Nat.ne_of_lt hj) _ _
  have hcases : ∀ j < alloc.len + 1, j < alloc.len ∨ j = alloc.len := by omega
  refine ⟨⟨?_, ?_, ?_⟩, ?_⟩
  · intro j hj
    rcases hcases j hj with hlt | rfl
    · rw [hbelow j hlt]
      exact hnarrow.gapped.bounded j hlt
    · rwa [hlast]
  · intro j hj
    rcases hcases j hj with hlt | rfl
    · rw [hbelow j hlt]
      exact hnarrow.gapped.nonempty j hlt
    · rwa [hlast]
  · intro j k hjk hk
    rcases hcases k hk with hlt | rfl
    · rw [hbelow j (hjk.trans hlt), hbelow k hlt]
      exact hnarrow.gapped.gap j k hjk hlt
    · rw [hlast, hbelow j hjk]
      by_cases hji : j = i
      · simpa [hji] using hgap
      · have hold := h.gap j i (by omega) (by omega)
        rw [Function.update_of_ne hji]
        omega
  · intro j hj
    rcases hcases j hj with hlt | rfl
    · rw [hbelow j hlt]
      exact hnarrow.within j hlt
    · rw [hlast]
      exact ⟨i, by omega, within_of_le hupper (h.bounded i (by omega)) (by omega) hfinish.le⟩

/-- The front of a range and the rest of it. -/
theorem cutFront_toNat {free : USizeRange} {size : UInt64} (h : free.Bounded)
    (hsize : free.size > size) :
    USizeRange.Bounded ⟨free.base, size⟩ ∧
      USizeRange.Bounded ⟨free.base + size, free.size - size⟩ ∧
      USizeRange.finish ⟨free.base, size⟩ < free.finish ∧
      (free.base + size).toNat = USizeRange.finish ⟨free.base, size⟩ ∧
      USizeRange.finish ⟨free.base + size, free.size - size⟩ = free.finish := by
  have hlt := UInt64.lt_iff_toNat_lt.1 hsize
  have hbound : free.base.toNat + free.size.toNat < 2 ^ 64 := h
  have hbase : (free.base + size).toNat = free.base.toNat + size.toNat := by
    rw [UInt64.toNat_add, Nat.mod_eq_of_lt (by omega)]
  have hrest : (free.size - size).toNat = free.size.toNat - size.toNat :=
    UInt64.toNat_sub_of_le _ _ (UInt64.le_iff_toNat_le.2 hlt.le)
  simp only [USizeRange.Bounded, USizeRange.finish, hbase, hrest]
  refine ⟨?_, ?_, ?_, trivial, ?_⟩ <;> omega

/-- A range that is handed out was free, and no part of it is free any more. -/
theorem rangeAllocAlloc_gapped {size : UInt64} (h : Gapped alloc) (hsize : size ≠ 0)
    (hcall : rangeAllocAlloc alloc size = .ok (range, alloc')) :
    Shrinks alloc alloc' ∧ (range.size ≠ 0 → range.Bounded ∧
      (∃ k < alloc.len, Within range (alloc.data k)) ∧
      ∀ j < alloc'.len, Apart (alloc'.data j) range) := by
  have hpos : 0 < size.toNat := Nat.pos_of_ne_zero fun hzero ↦ hsize (UInt64.toNat_inj.1 hzero)
  have hloop : ∀ left i, i + left = alloc.len → allocFrom size left i alloc = .ok (range, alloc') →
      Shrinks alloc alloc' ∧ (range.size ≠ 0 → range.Bounded ∧
        (∃ k < alloc.len, Within range (alloc.data k)) ∧
        ∀ j < alloc'.len, Apart (alloc'.data j) range) := by
    intro left
    induction left with
    | zero =>
      intro i _ hcall
      cases hcall
      exact ⟨Shrinks.refl h, fun hne ↦ absurd rfl hne⟩
    | succ left ih =>
      intro i hi hcall
      rw [allocFrom] at hcall
      dsimp only at hcall
      split at hcall
      next hequal =>
        obtain ⟨spliced, hsplice, hcall⟩ := bind_eq_ok.1 hcall
        cases hcall
        obtain ⟨hshrinks, hothers⟩ := h.splice hsplice
        refine ⟨hshrinks, fun _ ↦ ⟨h.bounded i (by omega), ⟨i, by omega, fun _ hmem ↦ hmem⟩, ?_⟩⟩
        intro j hj
        obtain ⟨k, hk, hne, heq⟩ := hothers j hj
        rw [heq]
        exact h.apart (by omega) hk hne (h.bounded i (by omega)) le_rfl le_rfl
      next =>
        split at hcall
        next hlarger =>
          cases hcall
          have hi' : i < alloc.len := by omega
          obtain ⟨hpart, hrest, hfinish, hbase, hend⟩ := cutFront_toNat (h.bounded i hi') hlarger
          have hwithin : Within ⟨(alloc.data i).base, size⟩ (alloc.data i) :=
            within_of_le hpart (h.bounded i hi') le_rfl (by omega)
          have hlow : (alloc.data i).base.toNat ≤ ((alloc.data i).base + size).toNat := by
            rw [hbase]
            exact Nat.le_add_right _ _
          refine ⟨h.narrow hi' hrest (by rw [hend, hbase]; exact hfinish) hlow hend.le,
            fun _ ↦ ⟨hpart, ⟨i, hi', hwithin⟩, ?_⟩⟩
          intro j hj
          by_cases hji : j = i
          · simp only [hji, Function.update_self]
            exact apart_of_finish_le hrest hpart (Or.inr hbase.ge)
          · simp only [Function.update_of_ne hji]
            exact h.apart hi' hj hji hpart le_rfl (by omega)
        next => exact ih (i + 1) (by omega) hcall
  exact hloop alloc.len 0 (Nat.zero_add _) hcall

/-! ## Cutting out a range -/

/-- A free range that meets the range and is not equal to it reaches beyond it, and beyond both
ends only if it is the last. -/
def CleanAt (alloc : RangeAlloc) (range : USizeRange) (i : ℕ) : Prop :=
  rangeColide (alloc.data i) range = true → rangeEq (alloc.data i) range = false →
    (range.base ≤ (alloc.data i).base → rangeEnd range < rangeEnd (alloc.data i)) ∧
      ((alloc.data i).base < range.base → rangeEnd range < rangeEnd (alloc.data i) →
        i + 1 = alloc.len)

instance (alloc : RangeAlloc) (range : USizeRange) (i : ℕ) : Decidable (CleanAt alloc range i) :=
  inferInstanceAs (Decidable (_ → _ → _ ∧ (_ → _ → _)))

/-- The range can be cut out of the free ranges. -/
def CleanCut (alloc : RangeAlloc) (range : USizeRange) : Prop :=
  ∀ i < alloc.len, CleanAt alloc range i

instance (alloc : RangeAlloc) (range : USizeRange) : Decidable (CleanCut alloc range) :=
  inferInstanceAs (Decidable (∀ i < alloc.len, _))

theorem apart_of_not_colide {lhs rhs : USizeRange} (hlhs : lhs.Bounded) (hrhs : rhs.Bounded)
    (h : rangeColide lhs rhs = false) : Apart lhs rhs := by
  apply apart_of_finish_le hlhs hrhs
  by_contra hmeet
  have hcolide := (USizeRange.rangeColide_iff hlhs hrhs).2 (by omega)
  rw [h] at hcolide
  cases hcolide

/-- A range that is above all free ranges goes to the end. -/
theorem rangeAllocUnused_above (hbounded : ∀ i < alloc.len, (alloc.data i).Bounded)
    (hrange : range.Bounded) (habove : ∀ i < alloc.len,
      (alloc.data i).base.toNat < (alloc.data i).finish ∧
        (alloc.data i).finish < range.base.toNat) :
    rangeAllocUnused alloc range = .ok (vecPush alloc range) := by
  have hloop : ∀ left i, i + left = alloc.len →
      unusedFrom range left i alloc = .ok (vecPush alloc range) := by
    intro left
    induction left with
    | zero => exact fun _ _ ↦ rfl
    | succ left ih =>
      intro i hi
      obtain ⟨hnonempty, hbelow⟩ := habove i (by omega)
      have hfinish := range.base_le_finish
      have hapart : ¬ rangeContiguous (alloc.data i) range = true := by
        rw [USizeRange.rangeContiguous_iff (hbounded i (by omega)) hrange]
        omega
      have hplace : ¬ (decide (i + 1 < alloc.len) && decide ((alloc.data i).base < range.base) &&
          decide (range.base < (alloc.data (i + 1)).base)) = true := by
        simp only [Bool.and_eq_true, decide_eq_true_eq, UInt64.lt_iff_toNat_lt, not_and]
        intro hnext
        have hnextBelow := habove (i + 1) hnext.1
        omega
      rw [unusedFrom, if_neg hapart]
      exact (if_neg hplace).trans (ih (i + 1) (by omega))
  exact hloop alloc.len 0 (Nat.zero_add _)

/-- Cutting the range out of one free range leaves the others alone. -/
structure CutsOut (alloc : RangeAlloc) (range : USizeRange) (i : ℕ) (alloc' : RangeAlloc) :
    Prop where
  shrinks : Shrinks alloc alloc'
  len_eq : alloc'.len = alloc.len ∨ alloc'.len = alloc.len + 1 ∧ i + 1 = alloc.len
  others : ∀ j < alloc.len, j ≠ i → alloc'.data j = alloc.data j
  apart : ∀ j < alloc'.len, j = i ∨ alloc.len ≤ j → rangeColide (alloc'.data j) range = false

/-- A range with an end that is representable and past its base. -/
theorem size_ne_zero_of_finish {part : USizeRange} (h : part.base.toNat < part.finish) :
    (part.size != 0) = true := by
  rw [bne_iff_ne]
  intro hzero
  simp [USizeRange.finish, hzero] at h

/-- Replacing element `i` by what is left of it. -/
theorem Gapped.cutsOut (h : Gapped alloc) (hrange : range.Bounded) (hi : i < alloc.len)
    (hpart : part.Bounded) (hnonempty : part.base.toNat < part.finish)
    (hbase : (alloc.data i).base.toNat ≤ part.base.toNat)
    (hfinish : part.finish ≤ (alloc.data i).finish)
    (hout : part.finish ≤ range.base.toNat ∨ range.finish ≤ part.base.toNat) :
    CutsOut alloc range i { alloc with data := Function.update alloc.data i part } where
  shrinks := h.narrow hi hpart hnonempty hbase hfinish
  len_eq := Or.inl rfl
  others j _ hji := Function.update_of_ne hji _ _
  apart j hj hji := by
    have heq : j = i := hji.resolve_right (by simpa using hj)
    simp only [heq, Function.update_self]
    rw [Bool.eq_false_iff, Ne, USizeRange.rangeColide_iff hpart hrange]
    omega

/-- Splitting the last element in two. -/
theorem Gapped.cutsOut_split {upper : USizeRange} (h : Gapped alloc) (hrange : range.Bounded)
    (hnonempty : range.base.toNat < range.finish) (hi : i + 1 = alloc.len)
    (hlow : (alloc.data i).base.toNat < range.base.toNat)
    (hhigh : range.finish < (alloc.data i).finish)
    (hpart : part.base.toNat = (alloc.data i).base.toNat ∧ part.finish = range.base.toNat)
    (hupper : upper.base.toNat = range.finish ∧ upper.finish = (alloc.data i).finish)
    (hcall : rangeAllocUnused { alloc with data := Function.update alloc.data i part } upper =
      .ok alloc') : CutsOut alloc range i alloc' := by
  obtain ⟨hbase, hfinish⟩ := hpart
  obtain ⟨hupperBase, hupperFinish⟩ := hupper
  have hpartBounded : part.Bounded := lt_of_eq_of_lt hfinish range.base.toNat_lt
  have hupperBounded : upper.Bounded := lt_of_eq_of_lt hupperFinish (h.bounded i (by omega))
  have hnarrow := h.narrow (by omega : i < alloc.len) hpartBounded (by omega) hbase.ge (by omega)
  have habove : ∀ j < alloc.len, (Function.update alloc.data i part j).base.toNat <
      (Function.update alloc.data i part j).finish ∧
        (Function.update alloc.data i part j).finish < upper.base.toNat := by
    intro j hj
    refine ⟨hnarrow.gapped.nonempty j hj, ?_⟩
    by_cases hji : j = i
    · rw [hji, Function.update_self]
      omega
    · have hgap := h.gap j i (by omega) (by omega)
      rw [Function.update_of_ne hji]
      omega
  rw [rangeAllocUnused_above hnarrow.gapped.bounded hupperBounded habove] at hcall
  cases hcall
  have hdata : ∀ j < alloc.len, (vecPush { alloc with
      data := Function.update alloc.data i part } upper).data j =
        Function.update alloc.data i part j :=
    fun j hj ↦ Function.update_of_ne (Nat.ne_of_lt hj) _ _
  refine ⟨h.split hi hpartBounded hupperBounded (by omega) (by omega) hbase.symm (by omega)
    hupperFinish, Or.inr ⟨rfl, hi⟩, fun j hj hji ↦ ?_, fun j hj hji ↦ ?_⟩
  · rw [hdata j hj, Function.update_of_ne hji]
  · rcases hji with rfl | hlen
    · rw [hdata j (by omega), Function.update_self, Bool.eq_false_iff, Ne,
        USizeRange.rangeColide_iff hpartBounded hrange]
      omega
    · have hlast : j = alloc.len := Nat.le_antisymm (Nat.lt_succ_iff.1 hj) hlen
      have hupperData : (vecPush { alloc with
          data := Function.update alloc.data i part } upper).data j = upper := by
        rw [hlast]
        exact Function.update_self ..
      rw [hupperData, Bool.eq_false_iff, Ne, USizeRange.rangeColide_iff hupperBounded hrange]
      omega

theorem cutOut_clean (h : Gapped alloc) (hrange : range.Bounded)
    (hnonempty : range.base.toNat < range.finish) (hi : i < alloc.len)
    (hcolide : rangeColide (alloc.data i) range = true)
    (hne : rangeEq (alloc.data i) range = false) (hclean : CleanAt alloc range i)
    (hcall : cutOut alloc i range = .ok alloc') : CutsOut alloc range i alloc' := by
  have hfree := h.bounded i hi
  obtain ⟨hover, hlast⟩ := hclean hcolide hne
  rw [UInt64.le_iff_toNat_le, UInt64.lt_iff_toNat_lt, hrange.rangeEnd_toNat,
    hfree.rangeEnd_toNat] at hover
  rw [UInt64.lt_iff_toNat_lt, UInt64.lt_iff_toNat_lt, hrange.rangeEnd_toNat,
    hfree.rangeEnd_toNat] at hlast
  obtain ⟨hbelow, habove⟩ := (USizeRange.rangeColide_iff hfree hrange).1 hcolide
  unfold cutOut at hcall
  dsimp only at hcall
  rcases USizeRange.rangeHalfUnder_cases hfree hrange with
    ⟨hlow, _, hlowerBase, hlowerFinish⟩ | ⟨hlow, hlower⟩
  · have hlowerBounded : (rangeHalfUnder (alloc.data i) range).Bounded :=
      lt_of_eq_of_lt hlowerFinish range.base.toNat_lt
    have hlowerNonempty : (rangeHalfUnder (alloc.data i) range).base.toNat <
        (rangeHalfUnder (alloc.data i) range).finish := by omega
    rw [if_pos (size_ne_zero_of_finish hlowerNonempty)] at hcall
    rcases USizeRange.rangeHalfOver_cases hfree hrange with
      ⟨_, _, hhigh, hupperBase, hupperFinish⟩ | ⟨hhigh, hupper⟩
    · -- The last free range is split in two.
      rw [if_pos (size_ne_zero_of_finish (by omega))] at hcall
      exact h.cutsOut_split hrange hnonempty (hlast hlow hhigh) hlow hhigh
        ⟨hlowerBase, hlowerFinish⟩ ⟨hupperBase, hupperFinish⟩ hcall
    · rw [hupper] at hcall
      cases hcall
      exact h.cutsOut hrange hi hlowerBounded hlowerNonempty hlowerBase.ge (by omega)
        (Or.inl hlowerFinish.le)
  · rcases USizeRange.rangeHalfOver_cases hfree hrange with
      ⟨_, _, hhigh, hupperBase, hupperFinish⟩ | ⟨hhigh, _⟩
    · have hupperBounded : (rangeHalfOver (alloc.data i) range).Bounded :=
        lt_of_eq_of_lt hupperFinish hfree
      have hupperNonempty : (rangeHalfOver (alloc.data i) range).base.toNat <
          (rangeHalfOver (alloc.data i) range).finish := by omega
      rw [hlower, if_neg (by decide), if_pos (size_ne_zero_of_finish hupperNonempty)] at hcall
      cases hcall
      exact h.cutsOut hrange hi hupperBounded hupperNonempty (by omega) hupperFinish.le
        (Or.inr hupperBase.ge)
    · exact absurd (hover (by omega)) (by omega)

/-- What was still to be cut can still be cut. -/
theorem CutsOut.cleanAt (h : CutsOut alloc range i alloc')
    (hclean : ∀ j, i ≤ j → j < alloc.len → CleanAt alloc range j) (j : ℕ) (hlow : i + 1 ≤ j)
    (hhigh : j < alloc'.len) : CleanAt alloc' range j := by
  by_cases hlen : j < alloc.len
  · have hsame : alloc'.len = alloc.len := h.len_eq.resolve_right (by omega)
    have hold := hclean j (by omega) hlen
    unfold CleanAt at hold ⊢
    rwa [h.others j hlen (by omega), hsame]
  · intro hcolide
    rw [h.apart j hhigh (Or.inr (by omega))] at hcolide
    cases hcolide

/-- Cutting a range out of the free ranges leaves no part of it free. -/
theorem rangeAllocUsed_clean (h : Gapped alloc) (hrange : range.Bounded)
    (hnonempty : range.base.toNat < range.finish) (hclean : CleanCut alloc range)
    (hcall : rangeAllocUsed alloc range = .ok alloc') :
    Shrinks alloc alloc' ∧ ∀ j < alloc'.len, Apart (alloc'.data j) range := by
  have hloop : ∀ left i (alloc : RangeAlloc), Gapped alloc →
      (∀ j < i, j < alloc.len → rangeColide (alloc.data j) range = false) →
      (∀ j, i ≤ j → j < alloc.len → CleanAt alloc range j) →
      usedFrom range left i alloc = .ok alloc' →
      Shrinks alloc alloc' ∧ ∀ j < alloc'.len, Apart (alloc'.data j) range := by
    intro left
    induction left with
    | zero =>
      intro i alloc _ _ _ hcall
      cases hcall
    | succ left ih =>
      intro i alloc h hdone hclean hcall
      rw [usedFrom] at hcall
      split at hcall
      next hi =>
        split at hcall
        next hequal =>
          obtain ⟨hshrinks, hothers⟩ := h.splice hcall
          refine ⟨hshrinks, fun j hj ↦ ?_⟩
          obtain ⟨k, hk, hne, heq⟩ := hothers j hj
          rw [heq, ← rangeEq_iff.1 hequal]
          exact h.apart hi hk hne (h.bounded i hi) le_rfl le_rfl
        next hne =>
          split at hcall
          next hcolide =>
            obtain ⟨cut, hcut, hcall⟩ := bind_eq_ok.1 hcall
            have hcuts := cutOut_clean h hrange hnonempty hi hcolide (Bool.eq_false_iff.2 hne)
              (hclean i le_rfl hi) hcut
            have hdone' : ∀ j < i + 1, j < cut.len → rangeColide (cut.data j) range = false := by
              intro j hj hlen
              rcases Nat.lt_succ_iff_lt_or_eq.1 hj with hlt | rfl
              · rw [hcuts.others j (by omega) (by omega)]
                exact hdone j hlt (by omega)
              · exact hcuts.apart j hlen (Or.inl rfl)
            obtain ⟨hshrinks, hapart⟩ := ih (i + 1) cut hcuts.shrinks.gapped hdone'
              (hcuts.cleanAt hclean) hcall
            exact ⟨hcuts.shrinks.trans hshrinks, hapart⟩
          next hapart =>
            apply ih (i + 1) alloc h _ (fun j hj ↦ hclean j (by omega)) hcall
            intro j hj hlen
            rcases Nat.lt_succ_iff_lt_or_eq.1 hj with hlt | rfl
            · exact hdone j hlt hlen
            · exact Bool.eq_false_iff.2 hapart
      next hi =>
        cases hcall
        exact ⟨Shrinks.refl h, fun j hj ↦
          apart_of_not_colide (h.bounded j hj) hrange (hdone j (by omega) hj)⟩
  exact hloop _ 0 alloc h (fun _ hj ↦ absurd hj (Nat.not_lt_zero _)) (fun j _ ↦ hclean j) hcall

/-- The address is in a free range. -/
def IsFree (alloc : RangeAlloc) (addr : UInt64) : Prop := ∃ i < alloc.len, addr ∈ alloc.data i

instance (alloc : RangeAlloc) (addr : UInt64) : Decidable (IsFree alloc addr) :=
  inferInstanceAs (Decidable (∃ i < alloc.len, addr ∈ alloc.data i))

/-- The free range at this index is the first one that is large enough. -/
def FirstFitAt (alloc : RangeAlloc) (size : UInt64) (i : ℕ) : Prop :=
  i < alloc.len ∧ size ≤ (alloc.data i).size ∧ ∀ j < i, (alloc.data j).size < size

theorem FirstFitAt.unique {size : UInt64} {k : ℕ} (h : FirstFitAt alloc size i)
    (h' : FirstFitAt alloc size k) : i = k := by
  rcases Nat.lt_trichotomy i k with hlt | heq | hgt
  · exact absurd (h'.2.2 i hlt) (UInt64.not_lt.2 h.2.1)
  · exact heq
  · exact absurd (h.2.2 k hgt) (UInt64.not_lt.2 h'.2.1)

/-- An address behind the front of a range is in the rest. -/
theorem mem_rest_iff {free : USizeRange} {size addr : UInt64} (hsize : free.size > size) :
    addr ∈ (⟨free.base + size, free.size - size⟩ : USizeRange) ↔
      addr ∈ free ∧ addr ∉ (⟨free.base, size⟩ : USizeRange) := by
  have hlt := UInt64.lt_iff_toNat_lt.1 hsize
  have hsub := UInt64.toNat_sub_of_le _ _ (UInt64.le_iff_toNat_le.2 hlt.le)
  have hoffset : addr - (free.base + size) = addr - free.base - size := by grind
  have haddr := (addr - free.base).toNat_lt
  have hfree := free.size.toNat_lt
  simp only [mem_def, hoffset, UInt64.lt_iff_toNat_lt, hsub]
  rw [UInt64.toNat_sub]
  omega

theorem isFree_splice {addr : UInt64} (hcall : vecSplice alloc i 1 = .ok alloc') :
    IsFree alloc' addr ↔ ∃ j < alloc.len, j ≠ i ∧ addr ∈ alloc.data j := by
  obtain ⟨hlen, hi, hdata⟩ := vecSplice_one hcall
  constructor
  · rintro ⟨j, hj, hmem⟩
    rw [hdata j hj] at hmem
    refine ⟨_, ?_, ?_, hmem⟩ <;> (split <;> omega)
  · rintro ⟨j, hj, hne, hmem⟩
    rcases Nat.lt_or_gt_of_ne hne with hlt | hgt
    · refine ⟨j, by omega, ?_⟩
      rwa [hdata j (by omega), if_neg (by omega)]
    · refine ⟨j - 1, by omega, ?_⟩
      rwa [hdata (j - 1) (by omega), if_pos (by omega), Nat.sub_add_cancel (by omega)]

theorem isFree_update {addr : UInt64} (hi : i < alloc.len) :
    IsFree { alloc with data := Function.update alloc.data i part } addr ↔
      (∃ j < alloc.len, j ≠ i ∧ addr ∈ alloc.data j) ∨ addr ∈ part := by
  constructor
  · rintro ⟨j, hj, hmem⟩
    by_cases hji : j = i
    · simp only [hji, Function.update_self] at hmem
      exact Or.inr hmem
    · simp only [Function.update_of_ne hji] at hmem
      exact Or.inl ⟨j, hj, hji, hmem⟩
  · rintro (⟨j, hj, hji, hmem⟩ | hmem)
    · exact ⟨j, hj, by simpa only [Function.update_of_ne hji] using hmem⟩
    · exact ⟨i, hi, by simpa only [Function.update_self] using hmem⟩

/-- Handing out a range takes it from the first free range that is large enough. -/
theorem rangeAllocAlloc_isFree {size : UInt64}
    (hcall : rangeAllocAlloc alloc size = .ok (range, alloc')) (hne : range.size ≠ 0) :
    ∃ i, FirstFitAt alloc size i ∧ range = ⟨(alloc.data i).base, size⟩ ∧
      ∀ addr, IsFree alloc' addr ↔ (∃ j < alloc.len, j ≠ i ∧ addr ∈ alloc.data j) ∨
        (addr ∈ alloc.data i ∧ addr ∉ range) := by
  have hloop : ∀ left i, i + left = alloc.len → (∀ j < i, (alloc.data j).size < size) →
      allocFrom size left i alloc = .ok (range, alloc') →
      ∃ i, FirstFitAt alloc size i ∧ range = ⟨(alloc.data i).base, size⟩ ∧
        ∀ addr, IsFree alloc' addr ↔ (∃ j < alloc.len, j ≠ i ∧ addr ∈ alloc.data j) ∨
          (addr ∈ alloc.data i ∧ addr ∉ range) := by
    intro left
    induction left with
    | zero =>
      intro i _ _ hcall
      cases hcall
      exact absurd rfl hne
    | succ left ih =>
      intro i hi hsmall hcall
      have hi' : i < alloc.len := by omega
      rw [allocFrom] at hcall
      dsimp only at hcall
      split at hcall
      next hequal =>
        obtain ⟨spliced, hsplice, hcall⟩ := bind_eq_ok.1 hcall
        cases hcall
        have hsize : (alloc.data i).size = size := beq_iff_eq.1 hequal
        refine ⟨i, ⟨hi', by rw [hsize]; exact UInt64.le_refl _, hsmall⟩, by rw [← hsize],
          fun addr ↦ ?_⟩
        rw [or_iff_left (fun hboth ↦ hboth.2 hboth.1)]
        exact isFree_splice hsplice
      next hne' =>
        split at hcall
        next hlarger =>
          cases hcall
          refine ⟨i, ⟨hi', UInt64.le_of_lt hlarger, hsmall⟩, rfl, fun addr ↦ ?_⟩
          rw [← mem_rest_iff hlarger]
          exact isFree_update hi'
        next hnot =>
          apply ih (i + 1) (by omega) _ hcall
          intro j hj
          rcases Nat.lt_succ_iff_lt_or_eq.1 hj with hlt | rfl
          · exact hsmall j hlt
          · rcases UInt64.le_iff_lt_or_eq.1 (UInt64.not_lt.1 hnot) with hlt | heq
            · exact hlt
            · exact absurd (beq_iff_eq.2 heq) hne'
  exact hloop alloc.len 0 (Nat.zero_add _) (fun _ hj ↦ absurd hj (Nat.not_lt_zero _)) hcall

/-- Every address of the range that is handed out is in another free range, too. -/
def FreeTwice (alloc : RangeAlloc) (range : USizeRange) : Prop :=
  ∃ i, FirstFitAt alloc range.size i ∧
    ∀ addr ∈ range, ∃ j < alloc.len, j ≠ i ∧ addr ∈ alloc.data j

/-- After handing out a range the same addresses are free if and only if those of the range were
free twice. -/
theorem rangeAllocAlloc_same_iff {size : UInt64}
    (hcall : rangeAllocAlloc alloc size = .ok (range, alloc')) (hne : range.size ≠ 0) :
    (∀ addr, IsFree alloc' addr ↔ IsFree alloc addr) ↔ FreeTwice alloc range := by
  obtain ⟨i, hfit, rfl, hfree⟩ := rangeAllocAlloc_isFree hcall hne
  have hfront : ∀ addr ∈ (⟨(alloc.data i).base, size⟩ : USizeRange), addr ∈ alloc.data i :=
    fun addr hmem ↦ UInt64.lt_of_lt_of_le hmem hfit.2.1
  constructor
  · intro hsame
    refine ⟨i, hfit, fun addr hmem ↦ ?_⟩
    have hold : IsFree alloc addr := ⟨i, hfit.1, hfront addr hmem⟩
    rw [← hsame addr, hfree addr] at hold
    exact hold.resolve_right fun hboth ↦ hboth.2 hmem
  · rintro ⟨k, hfit', hcovered⟩ addr
    obtain rfl := hfit.unique hfit'
    rw [hfree addr]
    constructor
    · rintro (⟨j, hj, _, hmem⟩ | ⟨hmem, _⟩)
      · exact ⟨j, hj, hmem⟩
      · exact ⟨i, hfit.1, hmem⟩
    · rintro ⟨j, hj, hmem⟩
      by_cases hji : j = i
      · subst hji
        by_cases hin : addr ∈ (⟨(alloc.data j).base, size⟩ : USizeRange)
        · exact Or.inl (hcovered addr hin)
        · exact Or.inr ⟨hmem, hin⟩
      · exact Or.inl ⟨j, hj, hji, hmem⟩

/-- No free range is cut: none is equal to the range, and those that meet it lie inside it. -/
def NothingCut (alloc : RangeAlloc) (range : USizeRange) : Prop :=
  ∀ i < alloc.len, rangeEq (alloc.data i) range = false ∧
    (rangeColide (alloc.data i) range = true → range.base ≤ (alloc.data i).base ∧
      rangeEnd (alloc.data i) ≤ rangeEnd range)

theorem rangeAllocUsed_nothingCut (h : NothingCut alloc range)
    (hcall : rangeAllocUsed alloc range = .ok alloc') : alloc' = alloc := by
  have hloop : ∀ left i, usedFrom range left i alloc = .ok alloc' → alloc' = alloc := by
    intro left
    induction left with
    | zero =>
      intro i hcall
      cases hcall
    | succ left ih =>
      intro i hcall
      rw [usedFrom] at hcall
      split at hcall
      next hi =>
        obtain ⟨hne, hinside⟩ := h i hi
        rw [if_neg (by rw [hne]; exact Bool.false_ne_true)] at hcall
        split at hcall
        next hcolide =>
          obtain ⟨hbase, hend⟩ := hinside hcolide
          have hunder : rangeHalfUnder (alloc.data i) range = ⟨0, 0⟩ := by
            simp [rangeHalfUnder, UInt64.not_lt.2 hbase]
          have hover : rangeHalfOver (alloc.data i) range = ⟨0, 0⟩ := by
            simp [rangeHalfOver, UInt64.not_lt.2 hend]
          have hcut : cutOut alloc i range = .ok alloc := by
            simp [cutOut, hunder, hover]
          rw [hcut] at hcall
          exact ih (i + 1) hcall
        next => exact ih (i + 1) hcall
      next =>
        cases hcall
        rfl
  exact hloop _ 0 hcall

end Brutal.Ds
