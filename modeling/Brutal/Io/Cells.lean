import Brutal.Io.Stream

/-!
# Arrays that are written before they are read

An array of C whose elements start without a value.  Reading outside of the array or reading an
element that was not written stops the program, and so does writing outside of it.
-/

namespace Brutal.Io

open Lib

abbrev Cells (α : Type) := List (Option α)

variable {α : Type}

def Cells.make (α : Type) (size : ℕ) : Cells α := List.replicate size none

theorem length_make (α : Type) (size : ℕ) : (Cells.make α size).length = size :=
  List.length_replicate

def readCell (cells : Cells α) (index : ℕ) : Except Stop α :=
  match cells[index]? with
  | some (some value) => .ok value
  | some none => .error .uninitialised
  | none => .error .outOfBounds

def writeCell (cells : Cells α) (index : ℕ) (value : α) : Except Stop (Cells α) :=
  if index < cells.length then .ok (cells.set index (some value)) else .error .outOfBounds

/-- The element was written. -/
def Written (cells : Cells α) (index : ℕ) : Prop := ∃ value, cells[index]? = some (some value)

theorem readCell_eq_ok {cells : Cells α} {index : ℕ} {value : α} :
    readCell cells index = .ok value ↔ cells[index]? = some (some value) := by
  unfold readCell
  split
  next found h => simp [h]
  next h => simp [h]
  next h => simp [h]

theorem writeCell_eq_ok {cells cells' : Cells α} {index : ℕ} {value : α} :
    writeCell cells index value = .ok cells' ↔
      index < cells.length ∧ cells.set index (some value) = cells' := by
  unfold writeCell
  split
  next h => simp [h]
  next h => simp [h]

theorem exists_writeCell {cells : Cells α} {index : ℕ} (value : α) (h : index < cells.length) :
    ∃ cells', writeCell cells index value = .ok cells' :=
  ⟨_, writeCell_eq_ok.mpr ⟨h, rfl⟩⟩

/-- What an array holds after a write. -/
theorem getElem?_writeCell {cells cells' : Cells α} {index : ℕ} {value : α}
    (h : writeCell cells index value = .ok cells') (j : ℕ) :
    cells'[j]? = if j = index then some (some value) else cells[j]? := by
  obtain ⟨hindex, rfl⟩ := writeCell_eq_ok.mp h
  rw [List.getElem?_set]
  by_cases hj : index = j
  · subst hj
    simp [hindex]
  · rw [if_neg hj, if_neg (Ne.symm hj)]

theorem Written.writeCell {cells cells' : Cells α} {index j : ℕ} {value : α}
    (h : Written cells j) (hwrite : writeCell cells index value = .ok cells') :
    Written cells' j := by
  obtain ⟨old, hold⟩ := h
  rw [Written, getElem?_writeCell hwrite]
  split
  next => exact ⟨value, rfl⟩
  next => exact ⟨old, hold⟩

theorem length_writeCell {cells cells' : Cells α} {index : ℕ} {value : α}
    (h : writeCell cells index value = .ok cells') : cells'.length = cells.length := by
  obtain ⟨-, rfl⟩ := writeCell_eq_ok.mp h
  exact List.length_set

end Brutal.Io
