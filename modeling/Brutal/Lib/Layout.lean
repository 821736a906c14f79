import Mathlib.Algebra.BigOperators.Group.List.Basic
import Mathlib.Algebra.GroupWithZero.Nat
import Mathlib.Data.List.Basic
import Mathlib.Tactic.Common

/-!
# Extents laid out in order

A list of extents `[start, stop)` between two bounds, in increasing order and without overlaps.
There may be gaps between them.
-/

namespace Brutal.Lib

variable {Item : Type*} {start stop : Item → ℕ} {low high : ℕ} {item new : Item}
  {first second items : List Item}

/-- The extents lie between the two bounds, each one after the one before it. -/
def Laid (start stop : Item → ℕ) : ℕ → List Item → ℕ → Prop
  | low, [], high => low ≤ high
  | low, item :: rest, high => low ≤ start item ∧ start item ≤ stop item ∧
      Laid start stop (stop item) rest high

@[simp]
theorem laid_nil : Laid start stop low [] high ↔ low ≤ high := Iff.rfl

@[simp]
theorem laid_cons :
    Laid start stop low (item :: items) high ↔
      low ≤ start item ∧ start item ≤ stop item ∧ Laid start stop (stop item) items high := Iff.rfl

theorem Laid.lower {low' : ℕ} (h : Laid start stop low items high) (hlow : low' ≤ low) :
    Laid start stop low' items high := by
  cases items with
  | nil => exact Nat.le_trans hlow h
  | cons item rest => exact ⟨Nat.le_trans hlow h.1, h.2⟩

theorem Laid.le (h : Laid start stop low items high) : low ≤ high := by
  induction items generalizing low with
  | nil => exact h
  | cons item rest ih =>
    calc low ≤ start item := h.1
      _ ≤ stop item := h.2.1
      _ ≤ high := ih h.2.2

theorem laid_append_cons :
    Laid start stop low (first ++ item :: second) high ↔
      Laid start stop low first (start item) ∧ start item ≤ stop item ∧
        Laid start stop (stop item) second high := by
  induction first generalizing low with
  | nil => rfl
  | cons head rest ih => rw [List.cons_append, laid_cons, laid_cons, ih, and_assoc, and_assoc]

/-- Every extent lies between the bounds. -/
theorem Laid.bounds (h : Laid start stop low items high) (hitem : item ∈ items) :
    low ≤ start item ∧ start item ≤ stop item ∧ stop item ≤ high := by
  obtain ⟨first, second, rfl⟩ := List.append_of_mem hitem
  rw [laid_append_cons] at h
  exact ⟨h.1.le, h.2.1, h.2.2.le⟩

/-- Of two extents, the first one ends where the second one starts or before. -/
theorem Laid.pairwise (h : Laid start stop low items high) :
    items.Pairwise fun earlier later ↦ stop earlier ≤ start later := by
  induction items generalizing low with
  | nil => exact List.Pairwise.nil
  | cons item rest ih =>
    apply List.Pairwise.cons _ (ih h.2.2)
    intro later hlater
    exact (h.2.2.bounds hlater).1

/-- The extents together are no longer than the space between the bounds. -/
theorem Laid.sum_le (h : Laid start stop low items high) :
    low + (items.map fun item ↦ stop item - start item).sum ≤ high := by
  induction items generalizing low with
  | nil => exact h
  | cons item rest ih =>
    have hrest := ih h.2.2
    have hlow := h.1
    have hitem := h.2.1
    rw [List.map_cons, List.sum_cons]
    omega

/-- An extent that is taken out leaves a gap. -/
theorem Laid.remove (h : Laid start stop low (first ++ item :: second) high) :
    Laid start stop low (first ++ second) high := by
  induction first generalizing low with
  | nil => exact Laid.lower h.2.2 (Nat.le_trans h.1 h.2.1)
  | cons head rest ih => exact ⟨h.1, h.2.1, ih h.2.2⟩

/-- Where the gap behind the extents starts. -/
def gapStart (stop : Item → ℕ) : ℕ → List Item → ℕ
  | low, [] => low
  | _, item :: rest => gapStart stop (stop item) rest

/-- Where the gap before the extents ends. -/
def gapEnd (start : Item → ℕ) (items : List Item) (high : ℕ) : ℕ :=
  match items with
  | [] => high
  | item :: _ => start item

@[simp]
theorem gapStart_nil : gapStart stop low [] = low := rfl

@[simp]
theorem gapStart_append_singleton :
    gapStart stop low (first ++ [item]) = stop item := by
  induction first generalizing low with
  | nil => rfl
  | cons head rest ih => exact ih

@[simp]
theorem gapEnd_nil : gapEnd start [] high = high := rfl

@[simp]
theorem gapEnd_cons : gapEnd start (item :: items) high = start item := rfl

/-- An extent that fits in the gap between two parts can be put there. -/
theorem Laid.insert (h : Laid start stop low (first ++ second) high)
    (hlow : gapStart stop low first ≤ start new) (hnew : start new ≤ stop new)
    (hhigh : stop new ≤ gapEnd start second high) :
    Laid start stop low (first ++ new :: second) high := by
  induction first generalizing low with
  | nil =>
    refine ⟨hlow, hnew, ?_⟩
    cases second with
    | nil => exact hhigh
    | cons item rest => exact ⟨hhigh, h.2⟩
  | cons head rest ih => exact ⟨h.1, h.2.1, ih h.2.2 hlow⟩

end Brutal.Lib
