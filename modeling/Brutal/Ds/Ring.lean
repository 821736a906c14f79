import Mathlib.Data.List.Rotate

/-!
# Ring buffers

`brutal-ds/ring.c`: a queue of bounded length in an array, written at `head` and read at `tail`.
The two indices wrap, so the queue is a segment of the array rotated to start at `tail`; pushing
appends to this segment and popping takes its first element.
-/

namespace Brutal.Ds

variable {α : Type*}

/-- `Ring(T)`, whose indices stay inside the array and agree with the number of elements. -/
structure Ring (α : Type*) where
  data : List α
  head : ℕ
  tail : ℕ
  used : ℕ
  capacity : ℕ
  length_data : data.length = capacity
  tail_lt : tail < capacity
  used_le : used ≤ capacity
  head_eq : head = (tail + used) % capacity
deriving DecidableEq

/-- `ring_init`, on memory that is zeroed. -/
def ringInit [Inhabited α] (capacity : ℕ) (hcapacity : 0 < capacity) : Ring α where
  data := List.replicate capacity default
  head := 0
  tail := 0
  used := 0
  capacity := capacity
  length_data := List.length_replicate
  tail_lt := hcapacity
  used_le := Nat.zero_le capacity
  head_eq := (Nat.zero_mod capacity).symm

def ringFull (self : Ring α) : Bool := self.used == self.capacity

/-- The ring that `ring_push` leaves when there is room. -/
def ringPushed (self : Ring α) (data : α) (hroom : self.used < self.capacity) : Ring α where
  data := self.data.set self.head data
  head := (self.head + 1) % self.capacity
  tail := self.tail
  used := self.used + 1
  capacity := self.capacity
  length_data := by rw [List.length_set, self.length_data]
  tail_lt := self.tail_lt
  used_le := hroom
  head_eq := by rw [self.head_eq, Nat.mod_add_mod, Nat.add_assoc]

/-- `ring_push` -/
def ringPush (self : Ring α) (data : α) : Bool × Ring α :=
  if hfull : self.used = self.capacity then (false, self)
  else (true, ringPushed self data (Nat.lt_of_le_of_ne self.used_le hfull))

/-- The ring that `ring_pop` leaves when there is an element. -/
def ringPopped (self : Ring α) (hany : 0 < self.used) : Ring α where
  data := self.data
  head := self.head
  tail := (self.tail + 1) % self.capacity
  used := self.used - 1
  capacity := self.capacity
  length_data := self.length_data
  tail_lt := Nat.mod_lt _ (Nat.lt_of_le_of_lt (Nat.zero_le _) self.tail_lt)
  used_le := Nat.le_trans (Nat.sub_le _ _) self.used_le
  head_eq := by
    rw [self.head_eq, Nat.mod_add_mod]
    congr 1
    omega

/-- The element that `ring_pop` copies out. -/
def ringFront (self : Ring α) : α :=
  self.data.get ⟨self.tail, Nat.lt_of_lt_of_eq self.tail_lt self.length_data.symm⟩

/-- `ring_pop` -/
def ringPop (self : Ring α) : Option α × Ring α :=
  if hempty : self.used = 0 then (none, self)
  else (some (ringFront self), ringPopped self (Nat.pos_of_ne_zero hempty))

/-- The elements of the ring, oldest first. -/
def contents (self : Ring α) : List α := (self.data.rotate self.tail).take self.used

@[simp]
theorem length_contents (self : Ring α) : (contents self).length = self.used := by
  rw [contents, List.length_take, List.length_rotate, self.length_data]
  exact Nat.min_eq_left self.used_le

@[simp]
theorem contents_init [Inhabited α] {capacity : ℕ} (hcapacity : 0 < capacity) :
    contents (ringInit capacity hcapacity : Ring α) = [] := rfl

/-- The element at a distance from the oldest one. -/
theorem getElem?_contents (self : Ring α) {i : ℕ} (hi : i < self.used) :
    (contents self)[i]? = self.data[(self.tail + i) % self.capacity]? := by
  have hlt : i < self.data.length := by
    rw [self.length_data]
    exact Nat.lt_of_lt_of_le hi self.used_le
  rw [contents, List.getElem?_take_of_lt hi, List.getElem?_rotate hlt, self.length_data,
    Nat.add_comm]

/-- Two places of the ring that are less than a full turn apart are different. -/
theorem index_ne {capacity tail i used : ℕ} (hi : i < used) (hroom : used < capacity) :
    (tail + used) % capacity ≠ (tail + i) % capacity := by
  intro heq
  have hzero := Nat.sub_mod_eq_zero_of_mod_eq heq
  rw [Nat.add_sub_add_left, Nat.mod_eq_of_lt (by omega)] at hzero
  omega

theorem contents_pushed (self : Ring α) (data : α) (hroom : self.used < self.capacity) :
    contents (ringPushed self data hroom) = contents self ++ [data] := by
  have hhead : self.head < self.data.length := by
    rw [self.length_data, self.head_eq]
    exact Nat.mod_lt _ (Nat.lt_of_le_of_lt (Nat.zero_le _) hroom)
  apply List.ext_getElem?
  intro i
  by_cases hi : i < self.used + 1
  · rw [getElem?_contents (ringPushed self data hroom) hi]
    simp only [ringPushed]
    by_cases hlast : i = self.used
    · rw [hlast, ← self.head_eq, List.getElem?_set_self hhead,
        List.getElem?_append_right (Nat.le_of_eq (length_contents self)), length_contents,
        Nat.sub_self]
      rfl
    · have hold : i < self.used := by omega
      have hne : self.head ≠ (self.tail + i) % self.capacity := by
        rw [self.head_eq]
        exact index_ne hold hroom
      rw [List.getElem?_set_ne hne, List.getElem?_append_left (by rwa [length_contents]),
        getElem?_contents self hold]
  · rw [List.getElem?_eq_none, List.getElem?_eq_none]
    · simp only [List.length_append, length_contents, List.length_singleton]
      omega
    · rw [length_contents]
      simp only [ringPushed]
      omega

theorem contents_popped (self : Ring α) (hany : 0 < self.used) :
    contents self = ringFront self :: contents (ringPopped self hany) := by
  apply List.ext_getElem?
  intro i
  cases i with
  | zero =>
    rw [getElem?_contents self hany, List.getElem?_cons_zero, Nat.add_zero,
      Nat.mod_eq_of_lt self.tail_lt, ringFront, List.get_eq_getElem, List.getElem?_eq_getElem]
  | succ i =>
    rw [List.getElem?_cons_succ]
    by_cases hi : i + 1 < self.used
    · have hi' : i < (ringPopped self hany).used := by
        simp only [ringPopped]
        omega
      rw [getElem?_contents self hi, getElem?_contents _ hi']
      simp only [ringPopped]
      rw [Nat.mod_add_mod, Nat.add_assoc, Nat.add_comm 1 i]
    · rw [List.getElem?_eq_none, List.getElem?_eq_none]
      · rw [length_contents]
        simp only [ringPopped]
        omega
      · rw [length_contents]
        omega

/-- Pushing fails exactly on a full ring, and otherwise appends. -/
theorem ringPush_cases (self : Ring α) (data : α) :
    (self.used = self.capacity ∧ ringPush self data = (false, self)) ∨
      ∃ self', ringPush self data = (true, self') ∧ self'.capacity = self.capacity ∧
        contents self' = contents self ++ [data] := by
  unfold ringPush
  split
  next hfull => exact Or.inl ⟨hfull, rfl⟩
  next hfull => exact Or.inr ⟨_, rfl, rfl, contents_pushed self data _⟩

/-- Popping fails exactly on an empty ring, and otherwise takes the oldest element. -/
theorem ringPop_cases (self : Ring α) :
    (self.used = 0 ∧ ringPop self = (none, self)) ∨
      ∃ data self', ringPop self = (some data, self') ∧ self'.capacity = self.capacity ∧
        contents self = data :: contents self' := by
  unfold ringPop
  split
  next hempty => exact Or.inl ⟨hempty, rfl⟩
  next hempty => exact Or.inr ⟨_, _, rfl, rfl, contents_popped self _⟩

end Brutal.Ds
