import Brutal.Text.Scan
import Mathlib.Data.Finset.Max
import Mathlib.Data.Finset.Range
import Mathlib.Tactic.Common

/-!
# Searching for strings

`str_count`, `str_last` and `str_first` of `libs/brutal-text/str.c`.  The three loops look at the
same positions of the haystack, except that two of them leave out the last one.
-/

namespace Brutal.Text

open Base Lib

/-- A `size_t` that is returned as an `int`. -/
def sizeToInt (n : ℕ) : ℤ :=
  if n % 2 ^ 32 < 2 ^ 31 then (n % 2 ^ 32 : ℕ) else (n % 2 ^ 32 : ℕ) - 2 ^ 32

/-- `str_eq` of the needle and the slice of the haystack at a position. -/
def strEqAt (haystack needle : List UInt8) (i : ℕ) : Bool :=
  (haystack.drop i).take needle.length == needle

/-- The turn of the loop of `str_count`. -/
def strCountTurn (haystack needle : List UInt8) (count : ℤ) (i : ℕ) : Except Fault ℤ :=
  if strEqAt haystack needle i then
    if count + 1 < 2 ^ 31 then .ok (count + 1) else .error .overflow
  else .ok count

/-- `str_count` -/
def strCount (haystack needle : List UInt8) : Except Fault ℤ :=
  if haystack.length < needle.length then .ok 0
  else (List.range (haystack.length - needle.length)).foldlM (strCountTurn haystack needle) 0

/-- `str_last` -/
def strLast (lStr rStr : List UInt8) : ℤ :=
  if lStr.length < rStr.length then 0
  else (List.range (lStr.length - rStr.length)).foldl
    (fun pos i ↦ if strEqAt lStr rStr i then sizeToInt i else pos) (-1)

/-- `str_first` -/
def strFirst (lStr rStr : List UInt8) : ℤ :=
  if lStr.length < rStr.length then -1
  else
    match (List.range (lStr.length - rStr.length + 1)).find? (strEqAt lStr rStr) with
    | some i => sizeToInt i
    | none => -1

/-- The positions below a limit at which the needle occurs. -/
def occursBelow (haystack needle : List UInt8) (limit : ℕ) : Finset ℕ :=
  (Finset.range limit).filter fun i ↦ strEqAt haystack needle i = true

/-- The positions at which the needle occurs in the haystack. -/
def occurrences (haystack needle : List UInt8) : Finset ℕ :=
  (Finset.range (haystack.length + 1)).filter fun i ↦
    i + needle.length ≤ haystack.length ∧ needle <+: haystack.drop i

variable {haystack needle : List UInt8}

theorem strEqAt_iff (i : ℕ) : strEqAt haystack needle i = true ↔ needle <+: haystack.drop i := by
  rw [strEqAt, beq_iff_eq, List.prefix_iff_eq_take]
  exact eq_comm

theorem mem_occurrences {i : ℕ} : i ∈ occurrences haystack needle ↔
    i + needle.length ≤ haystack.length ∧ strEqAt haystack needle i = true := by
  rw [occurrences, Finset.mem_filter, Finset.mem_range, strEqAt_iff]
  constructor
  · exact And.right
  · intro h
    exact ⟨by omega, h⟩

theorem mem_occursBelow {limit i : ℕ} : i ∈ occursBelow haystack needle limit ↔
    i < limit ∧ strEqAt haystack needle i = true := by
  rw [occursBelow, Finset.mem_filter, Finset.mem_range]

theorem occurrences_eq (h : needle.length ≤ haystack.length) :
    occurrences haystack needle = occursBelow haystack needle
      (haystack.length - needle.length + 1) := by
  ext i
  rw [mem_occurrences, mem_occursBelow]
  constructor
  · rintro ⟨hfit, heq⟩
    exact ⟨by omega, heq⟩
  · rintro ⟨hlt, heq⟩
    exact ⟨by omega, heq⟩

theorem occurrences_eq_empty (h : haystack.length < needle.length) :
    occurrences haystack needle = ∅ := by
  rw [Finset.eq_empty_iff_forall_notMem]
  intro i hi
  have hfit := (mem_occurrences.mp hi).1
  omega

theorem occursBelow_succ (limit : ℕ) : occursBelow haystack needle (limit + 1) =
    if strEqAt haystack needle limit then insert limit (occursBelow haystack needle limit)
    else occursBelow haystack needle limit := by
  rw [occursBelow, Finset.range_add_one, Finset.filter_insert]
  rfl

theorem notMem_occursBelow (limit : ℕ) : limit ∉ occursBelow haystack needle limit := by
  rw [mem_occursBelow]
  exact fun h ↦ Nat.lt_irrefl limit h.1

/-- The last position is one of the needle exactly when the haystack ends with it. -/
theorem strEqAt_end (h : needle.length ≤ haystack.length) :
    strEqAt haystack needle (haystack.length - needle.length) = true ↔ needle <:+ haystack := by
  have hlength : (haystack.drop (haystack.length - needle.length)).length = needle.length := by
    rw [List.length_drop]
    omega
  have htake : (haystack.drop (haystack.length - needle.length)).take needle.length =
      haystack.drop (haystack.length - needle.length) := List.take_of_length_le (by omega)
  rw [strEqAt, htake, beq_iff_eq, List.suffix_iff_eq_drop]
  exact eq_comm

/-- The loop of `str_count` counts the occurrences below its end. -/
theorem foldlM_strCountTurn (limit : ℕ) (count : ℤ) :
    (List.range limit).foldlM (strCountTurn haystack needle) 0 = .ok count ↔
      count = (occursBelow haystack needle limit).card ∧ count < 2 ^ 31 := by
  induction limit generalizing count with
  | zero =>
    have hempty : occursBelow haystack needle 0 = ∅ := rfl
    rw [hempty, Finset.card_empty]
    change Except.ok 0 = Except.ok count ↔ _
    rw [Except.ok.injEq]
    omega
  | succ limit ih =>
    rw [List.range_succ, List.foldlM_append, bind_eq_ok, occursBelow_succ]
    simp only [List.foldlM_cons, List.foldlM_nil, bind_pure]
    by_cases hoccurs : strEqAt haystack needle limit = true
    · have hturn : ∀ before, strCountTurn haystack needle before limit =
          if before + 1 < 2 ^ 31 then .ok (before + 1) else .error .overflow :=
        fun _ ↦ if_pos hoccurs
      rw [if_pos hoccurs, Finset.card_insert_of_notMem (notMem_occursBelow limit),
        Int.natCast_add, Int.natCast_one]
      constructor
      · rintro ⟨before, hbefore, hnext⟩
        have hcard := ((ih before).mp hbefore).1
        rw [hturn] at hnext
        split at hnext
        next hlt =>
          cases hnext
          omega
        next => cases hnext
      · rintro ⟨hcount, hlt⟩
        refine ⟨count - 1, (ih (count - 1)).mpr (by omega), ?_⟩
        rw [hturn, Int.sub_add_cancel, if_pos hlt]
    · have hturn : ∀ before, strCountTurn haystack needle before limit = .ok before :=
        fun _ ↦ if_neg hoccurs
      rw [if_neg hoccurs]
      constructor
      · rintro ⟨before, hbefore, hnext⟩
        rw [hturn] at hnext
        cases hnext
        exact (ih _).mp hbefore
      · intro hcount
        exact ⟨count, (ih count).mpr hcount, hturn count⟩

/-- The least of some positions, or -1 if there is none. -/
def IsFirstOf (positions : Finset ℕ) (result : ℤ) : Prop :=
  positions = ∅ ∧ result = -1 ∨ ∃ i : ℕ, IsLeast (positions : Set ℕ) i ∧ result = i

/-- The greatest of some positions, or -1 if there is none. -/
def IsLastOf (positions : Finset ℕ) (result : ℤ) : Prop :=
  positions = ∅ ∧ result = -1 ∨ ∃ i : ℕ, IsGreatest (positions : Set ℕ) i ∧ result = i

/-- The three functions give the number of the occurrences, the first and the last of them. -/
def SearchesAgree (haystack needle : List UInt8) : Prop :=
  strCount haystack needle = .ok ((occurrences haystack needle).card : ℤ) ∧
    IsFirstOf (occurrences haystack needle) (strFirst haystack needle) ∧
    IsLastOf (occurrences haystack needle) (strLast haystack needle)

/-- The loop of `str_last` keeps the last occurrence below its end. -/
theorem foldl_strLast (limit : ℕ) :
    (occursBelow haystack needle limit = ∅ ∧ (List.range limit).foldl
        (fun pos i ↦ if strEqAt haystack needle i then sizeToInt i else pos) (-1) = -1) ∨
      ∃ i, IsGreatest (occursBelow haystack needle limit : Set ℕ) i ∧ (List.range limit).foldl
        (fun pos i ↦ if strEqAt haystack needle i then sizeToInt i else pos) (-1) =
          sizeToInt i := by
  induction limit with
  | zero => exact Or.inl ⟨rfl, rfl⟩
  | succ limit ih =>
    rw [List.range_succ, List.foldl_append, occursBelow_succ]
    simp only [List.foldl_cons, List.foldl_nil]
    by_cases hoccurs : strEqAt haystack needle limit = true
    · rw [if_pos hoccurs, if_pos hoccurs]
      refine Or.inr ⟨limit, ⟨Finset.mem_insert_self _ _, ?_⟩, rfl⟩
      intro i hi
      rw [Finset.mem_coe, Finset.mem_insert, mem_occursBelow] at hi
      omega
    · rw [if_neg hoccurs, if_neg hoccurs]
      exact ih

/-- The loop of `str_first` leaves at the first occurrence. -/
theorem find_strFirst (limit : ℕ) :
    match (List.range limit).find? (strEqAt haystack needle) with
    | some i => IsLeast (occursBelow haystack needle limit : Set ℕ) i
    | none => occursBelow haystack needle limit = ∅ := by
  split
  next i hfind =>
    rw [List.find?_range_eq_some] at hfind
    obtain ⟨hoccurs, hmem, hbefore⟩ := hfind
    constructor
    · exact mem_occursBelow.mpr ⟨List.mem_range.mp hmem, hoccurs⟩
    · intro j hj
      by_contra hlt
      have hnot := hbefore j (Nat.lt_of_not_le hlt)
      rw [(mem_occursBelow.mp hj).2] at hnot
      cases hnot
  next hfind =>
    rw [List.find?_range_eq_none] at hfind
    rw [Finset.eq_empty_iff_forall_notMem]
    intro i hi
    obtain ⟨hlt, hoccurs⟩ := mem_occursBelow.mp hi
    have hnot := hfind i hlt
    rw [hoccurs] at hnot
    cases hnot

theorem sizeToInt_of_lt {n : ℕ} (h : n < 2 ^ 31) : sizeToInt n = n := by
  rw [sizeToInt]
  split <;> omega

theorem sizeToInt_lt (n : ℕ) : sizeToInt n < 2 ^ 31 := by
  rw [sizeToInt]
  split <;> omega

/-- When the needle is no longer than the haystack, `str_first` is right as far as its result fits.
-/
theorem strFirst_isFirstOf (h : needle.length ≤ haystack.length)
    (hfit : ∀ i ∈ occurrences haystack needle, i < 2 ^ 31) :
    IsFirstOf (occurrences haystack needle) (strFirst haystack needle) := by
  have hfind := @find_strFirst haystack needle (haystack.length - needle.length + 1)
  rw [← occurrences_eq h] at hfind
  rw [strFirst, if_neg (Nat.not_lt.mpr h)]
  split
  next i heq =>
    rw [heq] at hfind
    exact Or.inr ⟨i, hfind, sizeToInt_of_lt (hfit i hfind.1)⟩
  next heq =>
    rw [heq] at hfind
    exact Or.inl ⟨hfind, rfl⟩

/-- The three functions agree on the occurrences exactly when there is none at the end of the
haystack, the needle is no longer than it, and the results fit in an `int`. -/
theorem searchesAgree_iff (haystack needle : List UInt8) :
    SearchesAgree haystack needle ↔
      needle.length ≤ haystack.length ∧ ¬ needle <:+ haystack ∧
      (occurrences haystack needle).card < 2 ^ 31 ∧
      ∀ i ∈ occurrences haystack needle, i < 2 ^ 31 := by
  by_cases hlength : haystack.length < needle.length
  · have hlast : ¬ IsLastOf (occurrences haystack needle) (strLast haystack needle) := by
      rw [strLast, if_pos hlength, occurrences_eq_empty hlength]
      rintro (⟨-, hresult⟩ | ⟨i, hgreatest, -⟩)
      · cases hresult
      · exact Finset.notMem_empty i hgreatest.1
    constructor
    · exact fun h ↦ absurd h.2.2 hlast
    · exact fun h ↦ absurd hlength (Nat.not_lt.mpr h.1)
  · have hle : needle.length ≤ haystack.length := Nat.le_of_not_lt hlength
    have hall := occurrences_eq hle
    rw [occursBelow_succ] at hall
    have hend := strEqAt_end hle
    have hcount : strCount haystack needle = .ok ((occurrences haystack needle).card : ℤ) ↔
        ((occurrences haystack needle).card : ℤ) =
          (occursBelow haystack needle (haystack.length - needle.length)).card ∧
        ((occurrences haystack needle).card : ℤ) < 2 ^ 31 := by
      rw [strCount, if_neg hlength]
      exact foldlM_strCountTurn _ _
    by_cases hsuffix : needle <:+ haystack
    · -- The occurrence at the end is not counted.
      have hcard : (occurrences haystack needle).card =
          (occursBelow haystack needle (haystack.length - needle.length)).card + 1 := by
        rw [hall, if_pos (hend.mpr hsuffix),
          Finset.card_insert_of_notMem (notMem_occursBelow _)]
      constructor
      · rintro ⟨h, -⟩
        have hsame := (hcount.mp h).1
        omega
      · exact fun h ↦ absurd hsuffix h.2.1
    · rw [if_neg (fun h ↦ hsuffix (hend.mp h))] at hall
      have hlast := @foldl_strLast haystack needle (haystack.length - needle.length)
      have hstrLast : strLast haystack needle = (List.range (haystack.length - needle.length)).foldl
          (fun pos i ↦ if strEqAt haystack needle i then sizeToInt i else pos) (-1) := by
        rw [strLast, if_neg hlength]
      rw [← hall, ← hstrLast] at hlast
      constructor
      · rintro ⟨h, -, hresult⟩
        have hfew := (hcount.mp h).2
        refine ⟨hle, hsuffix, by exact_mod_cast hfew, ?_⟩
        intro i hi
        obtain ⟨hempty, -⟩ | ⟨last, hgreatest, heq⟩ := hlast
        · rw [hempty] at hi
          exact absurd hi (Finset.notMem_empty i)
        · obtain ⟨hempty, -⟩ | ⟨last', hgreatest', heq'⟩ := hresult
          · rw [hempty] at hi
            exact absurd hi (Finset.notMem_empty i)
          · have hmax : i ≤ last' := hgreatest'.2 hi
            have hlt := sizeToInt_lt last
            omega
      · rintro ⟨-, -, hfew, hfit⟩
        refine ⟨hcount.mpr ⟨by rw [hall], by exact_mod_cast hfew⟩, strFirst_isFirstOf hle hfit, ?_⟩
        obtain ⟨hempty, heq⟩ | ⟨last, hgreatest, heq⟩ := hlast
        · exact Or.inl ⟨hempty, heq⟩
        · refine Or.inr ⟨last, hgreatest, ?_⟩
          rw [heq]
          exact sizeToInt_of_lt (hfit last hgreatest.1)

/-- A needle that is all of the haystack is not counted. -/
theorem searchesAgree_fails : ¬ SearchesAgree (ascii ['a']) (ascii ['a']) := by
  have hcount : strCount (ascii ['a']) (ascii ['a']) = .ok 0 := rfl
  have hcard : (occurrences (ascii ['a']) (ascii ['a'])).card = 1 := by decide
  rintro ⟨h, -⟩
  rw [hcount, hcard] at h
  cases h

end Brutal.Text
