import Mathlib.Data.List.Basic
import Mathlib.Logic.Function.Basic

/-!
# Stretches of memory

Reading and writing consecutive cells of a memory that is given as a function of the address.
-/

namespace Brutal.Lib

variable {α : Type*}

/-- The cells from an address on. -/
def readAt (memory : ℕ → α) (start count : ℕ) : List α :=
  (List.range count).map fun i ↦ memory (start + i)

/-- `mem_cpy` to an address. -/
def writeAt (memory : ℕ → α) (start : ℕ) (data : List α) (addr : ℕ) : α :=
  if start ≤ addr then data[addr - start]?.getD (memory addr) else memory addr

variable {memory memory' : ℕ → α} {start count : ℕ}

@[simp]
theorem length_readAt (memory : ℕ → α) (start count : ℕ) :
    (readAt memory start count).length = count := by
  rw [readAt, List.length_map, List.length_range]

theorem getElem?_readAt {i : ℕ} (h : i < count) :
    (readAt memory start count)[i]? = some (memory (start + i)) := by
  rw [readAt, List.getElem?_map, List.getElem?_range h]
  rfl

/-- What is read depends on the cells that are read only. -/
theorem readAt_congr (h : ∀ i < count, memory (start + i) = memory' (start + i)) :
    readAt memory start count = readAt memory' start count :=
  List.map_congr_left fun i hi ↦ h i (List.mem_range.mp hi)

theorem readAt_add (memory : ℕ → α) (start first second : ℕ) :
    readAt memory start (first + second) =
      readAt memory start first ++ readAt memory (start + first) second := by
  apply List.ext_getElem?
  intro i
  by_cases hfirst : i < first
  · rw [getElem?_readAt (by omega), List.getElem?_append_left (by rwa [length_readAt]),
      getElem?_readAt hfirst]
  · rw [List.getElem?_append_right (by rw [length_readAt]; omega), length_readAt]
    by_cases hsecond : i < first + second
    · rw [getElem?_readAt hsecond, getElem?_readAt (by omega), Nat.add_assoc start,
        Nat.add_sub_cancel' (Nat.le_of_not_lt hfirst)]
    · rw [List.getElem?_eq_none (by rw [length_readAt]; omega),
        List.getElem?_eq_none (by rw [length_readAt]; omega)]

/-- The cells of a stretch from one of them on, or up to one of them. -/
theorem take_drop_readAt (memory : ℕ → α) (start count skip size : ℕ) :
    ((readAt memory start count).drop skip).take size =
      readAt memory (start + skip) (min size (count - skip)) := by
  apply List.ext_getElem?
  intro i
  by_cases hi : i < min size (count - skip)
  · rw [List.getElem?_take_of_lt (by omega), List.getElem?_drop, getElem?_readAt (by omega),
      getElem?_readAt hi, Nat.add_assoc]
  · rw [List.getElem?_eq_none
        (by simp only [List.length_take, List.length_drop, length_readAt]; omega),
      List.getElem?_eq_none (by rw [length_readAt]; omega)]

theorem writeAt_inside {data : List α} {i : ℕ} (h : i < data.length) :
    writeAt memory start data (start + i) = data[i] := by
  rw [writeAt, if_pos (Nat.le_add_right _ _), Nat.add_sub_cancel_left, List.getElem?_eq_getElem h,
    Option.getD_some]

theorem writeAt_outside {data : List α} {addr : ℕ} (h : addr < start ∨ start + data.length ≤ addr) :
    writeAt memory start data addr = memory addr := by
  rw [writeAt]
  split
  next hle =>
    rw [List.getElem?_eq_none (by omega), Option.getD_none]
  next => rfl

@[simp]
theorem writeAt_nil (memory : ℕ → α) (start : ℕ) : writeAt memory start [] = memory :=
  funext fun addr ↦ by rw [writeAt, List.getElem?_nil, Option.getD_none, ite_self]

/-- Writing cell by cell. -/
theorem writeAt_cons (memory : ℕ → α) (start : ℕ) (value : α) (rest : List α) :
    writeAt memory start (value :: rest) =
      writeAt (Function.update memory start value) (start + 1) rest := by
  funext addr
  rcases Nat.lt_trichotomy addr start with hlt | rfl | hgt
  · rw [writeAt_outside (Or.inl hlt), writeAt_outside (Or.inl (by omega)),
      Function.update_of_ne (Nat.ne_of_lt hlt)]
  · rw [writeAt_outside (Or.inl (Nat.lt_succ_self addr)), Function.update_self, writeAt,
      if_pos (Nat.le_refl addr), Nat.sub_self]
    rfl
  · rw [writeAt, writeAt, if_pos (Nat.le_of_lt hgt), if_pos (Nat.succ_le_of_lt hgt),
      Function.update_of_ne (Nat.ne_of_gt hgt)]
    rw [show addr - start = addr - (start + 1) + 1 by omega, List.getElem?_cons_succ]

/-- What was written is read. -/
theorem readAt_writeAt (memory : ℕ → α) (start : ℕ) (data : List α) :
    readAt (writeAt memory start data) start data.length = data := by
  apply List.ext_getElem?
  intro i
  by_cases hi : i < data.length
  · rw [getElem?_readAt hi, writeAt_inside hi, List.getElem?_eq_getElem hi]
  · rw [List.getElem?_eq_none (by rw [length_readAt]; omega), List.getElem?_eq_none (by omega)]

/-- What is written elsewhere is not read. -/
theorem readAt_writeAt_apart {data : List α} {place : ℕ}
    (h : start + count ≤ place ∨ place + data.length ≤ start) :
    readAt (writeAt memory place data) start count = readAt memory start count :=
  readAt_congr fun i hi ↦ writeAt_outside (by omega)

end Brutal.Lib
