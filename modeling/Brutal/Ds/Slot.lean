import Brutal.Base.Debug
import Mathlib.Data.Int.Notation
import Mathlib.Data.List.Basic
import Mathlib.Order.Nat
import Mathlib.Tactic.Common

/-!
# Slot tables

`brutal-ds/slot.c`: a growing table of cells with a flag for those in use.  The source keeps the
data and the flags in two arrays of the same capacity; here a cell has both.
-/

namespace Brutal.Ds

open Base Lib

variable {α : Type*}

/-- One entry of the arrays `data` and `used`, the data being null in a new cell. -/
structure SlotCell (α : Type*) where
  data : Option α
  used : Bool
deriving DecidableEq, Repr

/-- `Slot(T)`, whose capacity is the number of its cells. -/
structure Slot (α : Type*) where
  cells : List (SlotCell α)
deriving DecidableEq, Repr

/-- `INT_MAX`, the largest `SlotIndex`. -/
def slotIndexMax : ℕ := 2 ^ 31 - 1

/-- The conversion of a 64-bit handle to `SlotIndex`, an `int`. -/
def toSlotIndex (handle : UInt64) : ℤ :=
  let low : ℕ := handle.toNat % 2 ^ 32
  if low < 2 ^ 31 then low else low - 2 ^ 32

/-- `slot_init` -/
def slotInit : Slot α := ⟨[]⟩

/-- `data_size`: the tables hold pointers. -/
def slotDataSize : ℕ := 8

/-- `slot_capacity_impl`, which counts the bytes of the old data in an `int`. -/
def slotCapacity (self : Slot α) (newCapacity : ℕ) : Except Fault (Slot α) :=
  if self.cells.length ≥ newCapacity then .ok self
  else if slotDataSize * self.cells.length > slotIndexMax then .error .overflow
  else .ok ⟨self.cells ++ List.replicate (newCapacity - self.cells.length) ⟨none, false⟩⟩

/-- `slot_find_impl` on the cells, `none` standing for the index `-1`. -/
def slotFind : List (SlotCell α) → Option (ℕ × List (SlotCell α))
  | [] => none
  | cell :: rest =>
    if !cell.used then some (0, { cell with used := true } :: rest)
    else (slotFind rest).map fun (i, rest) ↦ (i + 1, cell :: rest)

/-- `slot_alloc_impl` -/
def slotAlloc (self : Slot α) : Except Fault (ℕ × Slot α) := do
  let self ← slotCapacity self 16
  match slotFind self.cells with
  | some (i, cells) => .ok (i, ⟨cells⟩)
  | none =>
    let newCapacity := self.cells.length + self.cells.length / 4
    if newCapacity > slotIndexMax then .error .overflow
    else do
      let self ← slotCapacity self newCapacity
      match slotFind self.cells with
      | some (i, cells) => .ok (i, ⟨cells⟩)
      | none => .error .outOfBounds

/-- `slot_valid_impl` -/
def slotValid (self : Slot α) (index : ℤ) : Bool :=
  match index with
  | .ofNat i => (self.cells[i]?.map SlotCell.used).getD false
  | .negSucc _ => false

/-- `slot_at`, reading -/
def slotAt (self : Slot α) (index : ℕ) : Except Fault (Option α) :=
  match self.cells[index]? with
  | some cell => .ok cell.data
  | none => .error .outOfBounds

/-- `slot_at`, writing -/
def slotSet (self : Slot α) (index : ℕ) (data : α) : Except Fault (Slot α) :=
  match self.cells[index]? with
  | some cell => .ok ⟨self.cells.set index { cell with data := some data }⟩
  | none => .error .outOfBounds

/-- `slot_release_impl` -/
def slotRelease (self : Slot α) (index : ℤ) : Except Fault (Slot α) :=
  match index with
  | .ofNat i =>
    match self.cells[i]? with
    | some cell =>
      if cell.used then .ok ⟨self.cells.set i { cell with used := false }⟩ else .error .panic
    | none => .error .outOfBounds
  | .negSucc _ => .error .outOfBounds

theorem slotFind_cases {cells cells' : List (SlotCell α)} {i : ℕ}
    (h : slotFind cells = some (i, cells')) :
    ∃ before data after, cells = before ++ ⟨data, false⟩ :: after ∧
      cells' = before ++ ⟨data, true⟩ :: after ∧ i = before.length := by
  induction cells generalizing i cells' with
  | nil => cases h
  | cons cell rest ih =>
    rw [slotFind] at h
    split at h
    next hunused =>
      cases h
      refine ⟨[], cell.data, rest, ?_, rfl, rfl⟩
      have hfalse : cell.used = false := by simpa using hunused
      rw [← hfalse]
      rfl
    next =>
      obtain ⟨⟨j, rest'⟩, hfind, heq⟩ := Option.map_eq_some_iff.1 h
      cases heq
      obtain ⟨before, data, after, rfl, rfl, rfl⟩ := ih hfind
      exact ⟨cell :: before, data, after, rfl, rfl, rfl⟩

/-- New cells are appended, and they are not in use. -/
theorem slotCapacity_cells {self self' : Slot α} {newCapacity : ℕ}
    (h : slotCapacity self newCapacity = .ok self') :
    ∃ added, self'.cells = self.cells ++ List.replicate added ⟨none, false⟩ ∧
      self'.cells.length = max self.cells.length newCapacity := by
  unfold slotCapacity at h
  split at h
  next hle =>
    cases h
    exact ⟨0, by simp, by omega⟩
  next =>
    rw [ite_error_eq_ok] at h
    obtain ⟨-, h⟩ := h
    cases h
    exact ⟨newCapacity - self.cells.length, rfl, by simp; omega⟩

/-- A table is not moved, or the bytes that are copied are an `int`. -/
theorem slotCapacity_eq_ok (self : Slot α) (newCapacity : ℕ)
    (h : newCapacity ≤ self.cells.length ∨ slotDataSize * self.cells.length ≤ slotIndexMax) :
    ∃ self', slotCapacity self newCapacity = .ok self' := by
  unfold slotCapacity
  by_cases hle : self.cells.length ≥ newCapacity
  · exact ⟨self, if_pos hle⟩
  · rw [if_neg hle, if_neg (Nat.not_lt.mpr (h.resolve_left hle))]
    exact ⟨_, rfl⟩

theorem slotFind_replicate {cells : List (SlotCell α)} {added : ℕ} (hadded : 0 < added) :
    slotFind (cells ++ List.replicate added ⟨none, false⟩) ≠ none := by
  induction cells with
  | nil =>
    obtain ⟨n, rfl⟩ := Nat.exists_eq_succ_of_ne_zero hadded.ne'
    simp [List.replicate_succ, slotFind]
  | cons cell rest ih =>
    rw [List.cons_append, slotFind]
    split
    · exact Option.some_ne_none _
    · simpa using ih

/-- What a table is after a slot was allocated in it. -/
structure SlotAllocated (self : Slot α) (index : ℕ) (self' : Slot α) : Prop where
  split : ∃ before data after added,
    self.cells ++ List.replicate added ⟨none, false⟩ = before ++ ⟨data, false⟩ :: after ∧
      self'.cells = before ++ ⟨data, true⟩ :: after ∧ index = before.length
  capacity_le : self.cells.length ≤ slotIndexMax → self'.cells.length ≤ slotIndexMax

theorem slotAlloc_spec {self self' : Slot α} {index : ℕ}
    (h : slotAlloc self = .ok (index, self')) : SlotAllocated self index self' := by
  rw [slotAlloc, bind_eq_ok] at h
  obtain ⟨first, hfirst, h⟩ := h
  obtain ⟨added, hcells, hlength⟩ := slotCapacity_cells hfirst
  dsimp only at h
  split at h
  next i cells hfind =>
    cases h
    obtain ⟨before, data, after, hold, hnew, hindex⟩ := slotFind_cases hfind
    refine ⟨⟨before, data, after, added, hcells ▸ hold, hnew, hindex⟩, fun hle ↦ ?_⟩
    have hsame : first.cells.length = cells.length := by simp [hold, hnew]
    simp only
    unfold slotIndexMax at hle ⊢
    omega
  next =>
    rw [ite_error_eq_ok] at h
    obtain ⟨hfits, h⟩ := h
    obtain ⟨second, hsecond, h⟩ := bind_eq_ok.mp h
    obtain ⟨more, hmore, hmoreLength⟩ := slotCapacity_cells hsecond
    split at h
    next i cells hfind =>
      cases h
      obtain ⟨before, data, after, hold, hnew, hindex⟩ := slotFind_cases hfind
      refine ⟨⟨before, data, after, added + more, ?_, hnew, hindex⟩, fun hle ↦ ?_⟩
      · rw [← hold, hmore, hcells, List.append_assoc, List.replicate_append_replicate]
      · have hsame : second.cells.length = cells.length := by simp [hold, hnew]
        simp only
        omega
    next => cases h

/-- There is a free slot, or room for the bytes that a growth copies. -/
def SlotRoom (self : Slot α) : Prop :=
  (∃ cell ∈ self.cells, cell.used = false) ∨ slotDataSize * self.cells.length ≤ slotIndexMax

theorem slotFind_ne_none {cells : List (SlotCell α)} (h : ∃ cell ∈ cells, cell.used = false) :
    slotFind cells ≠ none := by
  obtain ⟨cell, hcell, hfree⟩ := h
  induction cells with
  | nil => cases hcell
  | cons first rest ih =>
    rw [slotFind]
    split
    · exact Option.some_ne_none _
    next hused =>
      rcases List.mem_cons.mp hcell with rfl | hcell
      · exact absurd hfree (by simpa using hused)
      · simpa using ih hcell

theorem slotFind_eq_none {cells : List (SlotCell α)} (h : ∀ cell ∈ cells, cell.used = true) :
    slotFind cells = none := by
  induction cells with
  | nil => rfl
  | cons first rest ih =>
    rw [List.forall_mem_cons] at h
    rw [slotFind, h.1, ih h.2]
    rfl

/-- A slot is found exactly when there is a free one or the table can grow. -/
theorem slotAlloc_returns_iff (self : Slot α) :
    (∃ result, slotAlloc self = .ok result) ↔ SlotRoom self := by
  have hsize : slotDataSize * self.cells.length = 8 * self.cells.length := rfl
  have hmax : slotIndexMax = 2 ^ 31 - 1 := rfl
  constructor
  · rintro ⟨result, h⟩
    by_contra hroom
    obtain ⟨hused, hlarge⟩ := not_or.mp hroom
    have hfind : slotFind self.cells = none := by
      apply slotFind_eq_none
      intro cell hcell
      exact Bool.not_eq_false _ ▸ fun hfree ↦ hused ⟨cell, hcell, hfree⟩
    have hfirst : slotCapacity self 16 = .ok self := if_pos (by omega)
    rw [slotAlloc, hfirst, ok_bind, hfind] at h
    dsimp only at h
    rw [ite_error_eq_ok, slotCapacity, if_neg (by omega), if_pos (by omega)] at h
    cases h.2
  · intro hroom
    obtain ⟨first, hfirst⟩ := slotCapacity_eq_ok self 16 (by omega)
    obtain ⟨added, hcells, hlength⟩ := slotCapacity_cells hfirst
    rw [slotAlloc, hfirst, ok_bind]
    cases hfind : slotFind first.cells with
    | some found => exact ⟨_, rfl⟩
    | none =>
      have hbytes : slotDataSize * self.cells.length ≤ slotIndexMax := by
        refine hroom.resolve_left fun hfree ↦ slotFind_ne_none ?_ hfind
        obtain ⟨cell, hcell, hfree⟩ := hfree
        exact ⟨cell, hcells ▸ List.mem_append_left _ hcell, hfree⟩
      have hcopied : slotDataSize * first.cells.length = 8 * first.cells.length := rfl
      obtain ⟨second, hsecond⟩ := slotCapacity_eq_ok first
        (first.cells.length + first.cells.length / 4) (.inr (by omega))
      obtain ⟨more, hmore, hmoreLength⟩ := slotCapacity_cells hsecond
      have hpos : 0 < more := by
        rw [hmore, List.length_append, List.length_replicate] at hmoreLength
        omega
      dsimp only
      rw [if_neg (by omega), hsecond, ok_bind]
      cases hagain : slotFind second.cells with
      | some found => exact ⟨_, rfl⟩
      | none => exact absurd hagain (hmore ▸ slotFind_replicate hpos)

end Brutal.Ds
