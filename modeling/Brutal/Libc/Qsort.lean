import Brutal.Lib.Exchange
import Brutal.Lib.Memory
import Mathlib.Algebra.Group.Int.Defs
import Mathlib.Algebra.Group.Nat.Defs

/-!
# Sorting

`qsort` of `stdc-ansi/qsort.c` on an array in memory.  `memswap` of `stdc-ext/string.c` exchanges
two elements byte by byte, so the array goes through the turns of a sort by exchanges.
-/

namespace Brutal.Libc

open Lib

/-- Exchange two blocks of bytes, one byte after the other. -/
def memswap (memory : ℕ → UInt8) (p1 p2 : ℕ) : ℕ → ℕ → UInt8
  | 0 => memory
  | n + 1 =>
    memswap (Function.update (Function.update memory p1 (memory p2)) p2 (memory p1))
      ((p1 + 1) % 2 ^ 64) ((p2 + 1) % 2 ^ 64) n

/-- The bytes of an element. -/
abbrev Element (size : ℕ) := {bytes : List UInt8 // bytes.length = size}

/-- The element that a pointer points to. -/
def load (memory : ℕ → UInt8) (size pointer : ℕ) : Element size :=
  ⟨readAt memory pointer size, length_readAt memory pointer size⟩

section Code

variable (base nmemb size : ℕ) (compar : Element size → Element size → ℤ)

/-- `base + (i * size)` -/
def place (i : ℕ) : ℕ := (base + i * size % 2 ^ 64) % 2 ^ 64

/-- The body of the two loops. -/
def qsortTurn (i : ℕ) (memory : ℕ → UInt8) (j : ℕ) : ℕ → UInt8 :=
  let a := place base size i
  let b := place base size j
  if compar (load memory size a) (load memory size b) > 0 then memswap memory a b size else memory

/-- `qsort`; neither counter gets past `nmemb`, so they do not wrap. -/
def qsort (memory : ℕ → UInt8) : ℕ → UInt8 :=
  (List.range (nmemb - 1)).foldl
    (fun memory i ↦
      (List.range' (i + 1) (nmemb - (i + 1))).foldl (qsortTurn base size compar i) memory)
    memory

end Code

/-- The element at an index. -/
def element (memory : ℕ → UInt8) (base size i : ℕ) : Element size :=
  load memory size (base + i * size)

/-- The elements of an array. -/
def elements (memory : ℕ → UInt8) (base nmemb size : ℕ) : List (Element size) :=
  (List.range nmemb).map (element memory base size)

/-- A comparison function is a total preorder. -/
structure TotalPreorder {size : ℕ} (compar : Element size → Element size → ℤ) : Prop where
  total : ∀ a b, compar a b ≤ 0 ∨ compar b a ≤ 0
  trans : ∀ a b c, compar a b ≤ 0 → compar b c ≤ 0 → compar a c ≤ 0

/-- Two blocks that do not overlap change places, and nothing else changes. -/
theorem memswap_apply {p1 p2 n : ℕ} (memory : ℕ → UInt8) (hp1 : p1 + n ≤ 2 ^ 64)
    (hp2 : p2 + n ≤ 2 ^ 64) (hapart : p1 + n ≤ p2 ∨ p2 + n ≤ p1) (addr : ℕ) :
    memswap memory p1 p2 n addr =
      if p1 ≤ addr ∧ addr < p1 + n then memory (p2 + (addr - p1))
      else if p2 ≤ addr ∧ addr < p2 + n then memory (p1 + (addr - p2))
      else memory addr := by
  induction n generalizing memory p1 p2 with
  | zero => rw [memswap, if_neg (by omega), if_neg (by omega)]
  | succ n ih =>
    rw [memswap]
    rcases Nat.eq_zero_or_pos n with rfl | hpos
    · rw [memswap]
      rcases eq_or_ne addr p2 with rfl | h2
      · rw [Function.update_self, if_neg (by omega), if_pos (by omega), Nat.sub_self]
        rfl
      · rw [Function.update_of_ne h2]
        rcases eq_or_ne addr p1 with rfl | h1
        · rw [Function.update_self, if_pos (by omega), Nat.sub_self]
          rfl
        · rw [Function.update_of_ne h1, if_neg (by omega), if_neg (by omega)]
    · rw [Nat.mod_eq_of_lt (by omega), Nat.mod_eq_of_lt (by omega),
        ih _ (by omega) (by omega) (by omega)]
      have hother : ∀ other, other ≠ p1 → other ≠ p2 →
          Function.update (Function.update memory p1 (memory p2)) p2 (memory p1) other =
            memory other :=
        fun other h1 h2 ↦ by rw [Function.update_of_ne h2, Function.update_of_ne h1]
      rcases eq_or_ne addr p1 with rfl | h1
      · rw [if_neg (by omega), if_neg (by omega), if_pos (by omega), Nat.sub_self,
          Function.update_of_ne (by omega), Function.update_self]
        rfl
      · rcases eq_or_ne addr p2 with rfl | h2
        · rw [if_neg (by omega), if_neg (by omega), if_neg (by omega), if_pos (by omega),
            Function.update_self, Nat.sub_self]
          rfl
        · rw [hother addr h1 h2]
          by_cases hfirst : p1 ≤ addr ∧ addr < p1 + (n + 1)
          · rw [if_pos (by omega), if_pos hfirst, hother _ (by omega) (by omega)]
            congr 1
            omega
          · rw [if_neg (by omega), if_neg hfirst]
            by_cases hsecond : p2 ≤ addr ∧ addr < p2 + (n + 1)
            · rw [if_pos (by omega), if_pos hsecond, hother _ (by omega) (by omega)]
              congr 1
              omega
            · rw [if_neg (by omega), if_neg hsecond]

section Array

variable {base nmemb size : ℕ}

/-- Elements of an array do not overlap. -/
theorem elements_apart (base size : ℕ) {i j : ℕ} (h : i < j) :
    base + i * size + size ≤ base + j * size := by
  have hle : (i + 1) * size ≤ j * size := Nat.mul_le_mul_right size h
  rw [Nat.succ_mul] at hle
  omega

/-- The elements of an array that lies in the address space do so, too. -/
theorem element_le {i : ℕ} (harray : base + nmemb * size ≤ 2 ^ 64) (hi : i < nmemb) :
    base + i * size + size ≤ 2 ^ 64 :=
  (elements_apart base size hi).trans harray

theorem place_eq {i : ℕ} (harray : base + nmemb * size ≤ 2 ^ 64) (hi : i < nmemb)
    (hsize : size ≠ 0) : place base size i = base + i * size := by
  have hle := element_le harray hi
  rw [place, Nat.mod_eq_of_lt (by omega), Nat.mod_eq_of_lt (by omega)]

/-- Exchanging two elements of an array in memory exchanges them in the array. -/
theorem element_memswap {memory : ℕ → UInt8} {i j k : ℕ}
    (harray : base + nmemb * size ≤ 2 ^ 64) (hij : i < j) (hj : j < nmemb) :
    element (memswap memory (base + i * size) (base + j * size) size) base size k =
      element memory base size (Equiv.swap i j k) := by
  have hi := element_le harray (hij.trans hj)
  have hj' := element_le harray hj
  apply Subtype.ext
  apply List.map_congr_left
  intro offset hoffset
  have hlt : offset < size := List.mem_range.mp hoffset
  rw [memswap_apply memory hi hj' (Or.inl (elements_apart base size hij)), Equiv.swap_apply_def]
  by_cases hki : k = i
  · subst hki
    rw [if_pos (by omega), if_pos rfl, Nat.add_sub_cancel_left]
  · by_cases hkj : k = j
    · subst hkj
      have hapart := elements_apart base size hij
      rw [if_neg (by omega), if_pos (by omega), if_neg hki, if_pos rfl, Nat.add_sub_cancel_left]
    · rw [if_neg hki, if_neg hkj, if_neg, if_neg]
      · rcases Nat.lt_or_gt_of_ne hkj with h | h
        · have := elements_apart base size h
          omega
        · have := elements_apart base size h
          omega
      · rcases Nat.lt_or_gt_of_ne hki with h | h
        · have := elements_apart base size h
          omega
        · have := elements_apart base size h
          omega

variable {compar : Element size → Element size → ℤ}

/-- Two elements in order, as the comparison function has it. -/
def Ordered (compar : Element size → Element size → ℤ) (a b : Element size) : Prop :=
  compar a b ≤ 0

instance : DecidableRel (Ordered compar) :=
  fun a b ↦ inferInstanceAs (Decidable (compar a b ≤ 0))

/-- There is only one element without bytes. -/
theorem element_subsingleton (hsize : size = 0) (a b : Element size) : a = b := by
  apply Subtype.ext
  rw [List.eq_nil_of_length_eq_zero (a.property.trans hsize),
    List.eq_nil_of_length_eq_zero (b.property.trans hsize)]

/-- A turn of the loops is a turn of the sort by exchanges. -/
theorem element_qsortTurn {memory : ℕ → UInt8} {i j : ℕ} (harray : base + nmemb * size ≤ 2 ^ 64)
    (hij : i < j) (hj : j < nmemb) :
    element (qsortTurn base size compar i memory j) base size =
      exchange (Ordered compar) i j (element memory base size) := by
  by_cases hsize : size = 0
  · funext k
    exact element_subsingleton hsize _ _
  · rw [qsortTurn, place_eq harray (hij.trans hj) hsize, place_eq harray hj hsize, exchange]
    by_cases horder : Ordered compar (element memory base size i) (element memory base size j)
    · rw [if_pos horder, if_neg]
      exact Int.not_lt.mpr horder
    · rw [if_neg horder, if_pos]
      · funext k
        exact element_memswap harray hij hj
      · exact Int.not_le.mp horder

/-- Nothing outside the array changes in a turn. -/
theorem qsortTurn_outside {memory : ℕ → UInt8} {i j addr : ℕ}
    (harray : base + nmemb * size ≤ 2 ^ 64) (hij : i < j) (hj : j < nmemb)
    (haddr : addr < base ∨ base + nmemb * size ≤ addr) :
    qsortTurn base size compar i memory j addr = memory addr := by
  have hi := element_le harray (hij.trans hj)
  have hj' := element_le harray hj
  have hend : base + j * size + size ≤ base + nmemb * size := elements_apart base size hj
  have happart : base + i * size + size ≤ base + j * size := elements_apart base size hij
  unfold qsortTurn
  split
  next =>
    by_cases hsize : size = 0
    · subst hsize
      rfl
    · rw [place_eq harray (hij.trans hj) hsize, place_eq harray hj hsize,
        memswap_apply memory hi hj' (Or.inl happart), if_neg (by omega), if_neg (by omega)]
  next => rfl

/-- The array goes through the turns of the sort by exchanges. -/
theorem element_qsort (memory : ℕ → UInt8) (harray : base + nmemb * size ≤ 2 ^ 64) :
    element (qsort base nmemb size compar memory) base size =
      exchangeSort (Ordered compar) nmemb (element memory base size) := by
  apply List.foldl_rel (r := fun memory f ↦ element memory base size = f)
  · rfl
  · rintro i hi memory f rfl
    apply List.foldl_rel (r := fun memory f ↦ element memory base size = f)
    · rfl
    · rintro j hj memory f rfl
      obtain ⟨hij, hjn⟩ := List.mem_range'_1.mp hj
      have hin := List.mem_range.mp hi
      exact element_qsortTurn harray hij (by omega)

theorem qsort_outside (memory : ℕ → UInt8) (harray : base + nmemb * size ≤ 2 ^ 64) {addr : ℕ}
    (haddr : addr < base ∨ base + nmemb * size ≤ addr) :
    qsort base nmemb size compar memory addr = memory addr := by
  let Kept := fun (_ : ℕ) (after : ℕ → UInt8) ↦ after addr = memory addr
  rw [qsort, List.range_eq_range']
  apply foldl_range'_invariant Kept
  · exact Eq.refl (memory addr)
  · intro i _ hi after hafter
    apply foldl_range'_invariant Kept
    · exact hafter
    · intro j hij hj after hafter
      exact (qsortTurn_outside harray hij (by omega) haddr).trans hafter

/-- After `qsort` the array has the elements that it had, each in order with all later ones, and
nothing else has changed. -/
theorem qsort_sorts (memory : ℕ → UInt8) (harray : base + nmemb * size ≤ 2 ^ 64)
    (hcompar : TotalPreorder compar) :
    (elements (qsort base nmemb size compar memory) base nmemb size).Perm
        (elements memory base nmemb size) ∧
      (∀ i j, i < j → j < nmemb →
        compar (element (qsort base nmemb size compar memory) base size i)
          (element (qsort base nmemb size compar memory) base size j) ≤ 0) ∧
      ∀ addr, addr < base ∨ base + nmemb * size ≤ addr →
        qsort base nmemb size compar memory addr = memory addr := by
  refine ⟨?_, ?_, fun addr ↦ qsort_outside memory harray⟩
  · rw [elements, element_qsort memory harray]
    exact exchangeSort_perm (Ordered compar) nmemb _
  · intro i j hij hj
    rw [element_qsort memory harray]
    exact exchangeSort_sorted hcompar.total hcompar.trans nmemb _ hij hj

end Array

/-- The order of the first bytes of two elements. -/
def byteOrder (a b : Element 1) : ℤ := (a.val.headD 0).toNat - (b.val.headD 0).toNat

/-- Three bytes are put in order. -/
theorem qsort_sorts_bytes :
    elements (qsort 0x1000 3 1 byteOrder fun addr ↦ if addr = 0x1001 then 1 else 2) 0x1000 3 1 =
        [⟨[1], rfl⟩, ⟨[2], rfl⟩, ⟨[2], rfl⟩] ∧
      ∀ i j, i < j → j < 3 →
        byteOrder
          (element (qsort 0x1000 3 1 byteOrder fun addr ↦
            if addr = 0x1001 then 1 else 2) 0x1000 1 i)
          (element (qsort 0x1000 3 1 byteOrder fun addr ↦ if addr = 0x1001 then 1 else 2) 0x1000 1
            j) ≤ 0 := by
  refine ⟨by decide, (qsort_sorts _ (by decide) ⟨?_, ?_⟩).2.1⟩
  · intro a b
    unfold byteOrder
    omega
  · intro a b c
    unfold byteOrder
    omega

end Brutal.Libc
