import Brutal.Io.Window
import Mathlib.Data.List.Induction

/-!
# The history of a window

A window over a writer that accepts everything refuses nothing, gives back the latest bytes, and
passes on all that was written.  This rests on the size of its memory, three times the capacity,
being representable.
-/

namespace Brutal.Io

open Lib

section History

variable {ω : Type} [IoWriter ω]

/-- The writer takes every write whole. -/
def AcceptsAll (rep : List UInt8 → ω → Prop) : Prop :=
  ∀ taken writer bytes, rep taken writer →
    ∃ writer', IoWriter.write writer bytes = (.ok bytes.length, writer') ∧
      rep (taken ++ bytes) writer'

theorem AcceptsAll.takes {rep : List UInt8 → ω → Prop} (h : AcceptsAll rep) (limit bound : ℕ) :
    Takes rep limit bound :=
  fun taken writer bytes hrep _ _ ↦ h taken writer bytes hrep

/-- A window after some writes. -/
def windowWrites (self : IoWindow ω) (writes : List (List UInt8)) : IoWindow ω :=
  writes.foldl (fun self bytes ↦ (IoWriter.write self bytes).2) self

theorem windowWrites_snoc (self : IoWindow ω) (writes : List (List UInt8)) (bytes : List UInt8) :
    windowWrites self (writes ++ [bytes]) = (IoWriter.write (windowWrites self writes) bytes).2 :=
  List.foldl_append

/-- What has to hold after some writes: the next one is not refused, the latest bytes can be looked
at, and a flush passes on what was written. -/
structure Slides (rep : List UInt8 → ω → Prop) (writer : ω) (capacity : ℕ)
    (writes : List (List UInt8)) : Prop where
  accepted : ∀ bytes, bytes.length ≤ capacity →
    (IoWriter.write (windowWrites (ioWindowInit writer capacity) writes) bytes).1 =
      .ok bytes.length
  history : ∀ k, 1 ≤ k → k ≤ min writes.flatten.length capacity →
    ∃ byte, writes.flatten[writes.flatten.length - k]? = some byte ∧
      ioWindowPeekFromBack (windowWrites (ioWindowInit writer capacity) writes) k = .ok byte
  flushed : rep writes.flatten
    (ioWindowFlushAll (windowWrites (ioWindowInit writer capacity) writes)).underlying

theorem windowWrites_rep {rep : List UInt8 → ω → Prop} (haccepts : AcceptsAll rep) {writer : ω}
    (hrep : rep [] writer) {capacity : ℕ} (hcapacity : capacity * 3 < 2 ^ 64)
    {writes : List (List UInt8)} (hwrites : ∀ bytes ∈ writes, bytes.length ≤ capacity) :
    WindowRep rep writes.flatten (windowWrites (ioWindowInit writer capacity) writes) ∧
      (windowWrites (ioWindowInit writer capacity) writes).capacity = capacity := by
  induction writes using List.reverseRecOn with
  | nil => exact ⟨⟨[], hrep, rfl, Nat.zero_le _, Nat.min_le_left _ _⟩, rfl⟩
  | append_singleton writes bytes ih =>
    have hall := List.forall_mem_append.1 hwrites
    have hwindow := ih hall.1
    have htakes := takes_window (haccepts.takes · (writes.flatten ++ bytes).length)
      (Nat.le_refl capacity) hcapacity
    obtain ⟨window, hwrite, hwindow'⟩ := htakes _ _ bytes hwindow
      (hall.2 bytes (List.mem_singleton_self bytes)) (Nat.le_refl _)
    rw [windowWrites_snoc, hwrite, List.flatten_append, List.flatten_singleton]
    exact hwindow'

omit [IoWriter ω] in
/-- The byte at a distance from the back, as long as the window has it. -/
theorem WindowRep.peek {rep : List UInt8 → ω → Prop} {taken : List UInt8} {self : IoWindow ω}
    (h : WindowRep rep taken self) {k : ℕ} (hpos : 1 ≤ k)
    (hk : k ≤ min taken.length self.capacity) :
    ∃ byte, taken[taken.length - k]? = some byte ∧ ioWindowPeekFromBack self k = .ok byte := by
  obtain ⟨flushed, -, htaken, -, hkept⟩ := h
  have hle : k ≤ self.data.length := hk.trans hkept
  have hindex : self.data.length - k < self.data.length := by omega
  refine ⟨self.data[self.data.length - k], ?_, ?_⟩
  · have hplace : taken.length - k = flushed.length + (self.data.length - k) := by
      rw [htaken, List.length_append]
      omega
    rw [hplace, htaken, List.getElem?_append_right (Nat.le_add_right _ _), Nat.add_sub_cancel_left,
      List.getElem?_eq_getElem hindex]
  · rw [ioWindowPeekFromBack, if_pos hle, List.getElem?_eq_getElem hindex]

theorem slides_of_capacity {rep : List UInt8 → ω → Prop} (haccepts : AcceptsAll rep) {writer : ω}
    (hrep : rep [] writer) {capacity : ℕ} (hcapacity : capacity * 3 < 2 ^ 64)
    {writes : List (List UInt8)} (hwrites : ∀ bytes ∈ writes, bytes.length ≤ capacity) :
    Slides rep writer capacity writes := by
  obtain ⟨hwindow, hsame⟩ := windowWrites_rep haccepts hrep hcapacity hwrites
  constructor
  · intro bytes hbytes
    have htakes := takes_window (haccepts.takes · (writes.flatten ++ bytes).length)
      (Nat.le_refl capacity) hcapacity
    obtain ⟨window, hwrite, -⟩ := htakes _ _ bytes ⟨hwindow, hsame⟩ hbytes (Nat.le_refl _)
    rw [hwrite]
  · intro k hpos hk
    exact hwindow.peek hpos (by rwa [hsame])
  · exact rep_flushAll (haccepts.takes · writes.flatten.length) hwindow (Nat.le_refl _)

omit [IoWriter ω] in
theorem length_le_of_replicate {size capacity : ℕ} (h : size ≤ capacity) :
    ∀ bytes ∈ [List.replicate size (0 : UInt8)], bytes.length ≤ capacity := by
  intro bytes hbytes
  rw [List.mem_singleton.1 hbytes, List.length_replicate]
  exact h

/-- Too little memory refuses a write. -/
theorem not_accepted {rep : List UInt8 → ω → Prop} {writer : ω} {capacity : ℕ}
    (hless : capacity * 3 % 2 ^ 64 < capacity) : ¬ Slides rep writer capacity [] := by
  intro h
  have haccepted := h.accepted (List.replicate (capacity * 3 % 2 ^ 64 + 1) 0)
    (by rw [List.length_replicate]; exact hless)
  have hwrite : (IoWriter.write (windowWrites (ioWindowInit writer capacity) [])
      (List.replicate (capacity * 3 % 2 ^ 64 + 1) (0 : UInt8))).1 =
        .ok (min (capacity * 3 % 2 ^ 64) (capacity * 3 % 2 ^ 64 + 1)) := by
    simp [IoWriter.write, windowWrites, ioWindowWrite, ioWindowInit]
  rw [hwrite, List.length_replicate, Except.ok.injEq] at haccepted
  omega

/-- A write over the threshold, and not over the capacity, is passed on at once. -/
theorem data_ioWindowWrite_nil {self : IoWindow ω} {bytes : List UInt8} (hempty : self.data = [])
    (hroom : bytes.length ≤ self.capacity * 3 % 2 ^ 64)
    (hover : self.capacity * 2 % 2 ^ 64 < bytes.length) (hle : bytes.length ≤ self.capacity) :
    (ioWindowWrite self bytes).2.data = [] := by
  rw [ioWindowWrite]
  dsimp only
  rw [hempty, List.nil_append, List.length_nil, Nat.sub_zero, min_eq_right hroom, List.take_length,
    if_pos hover, ioWindowFlushChunk]
  dsimp only
  rw [min_eq_left hle, Nat.sub_self, List.take_zero]

/-- A threshold below the capacity gives the history away. -/
theorem not_history {rep : List UInt8 → ω → Prop} {writer : ω} {capacity : ℕ}
    (hless : capacity * 2 % 2 ^ 64 < capacity) (hroom : capacity ≤ capacity * 3 % 2 ^ 64) :
    ¬ Slides rep writer capacity [List.replicate (capacity * 2 % 2 ^ 64 + 1) 0] := by
  intro h
  have hlength : [List.replicate (capacity * 2 % 2 ^ 64 + 1) (0 : UInt8)].flatten.length =
      capacity * 2 % 2 ^ 64 + 1 := by
    rw [List.flatten_singleton, List.length_replicate]
  obtain ⟨byte, -, hpeek⟩ := h.history 1 (Nat.le_refl 1) (by rw [hlength]; omega)
  have hempty : (windowWrites (ioWindowInit writer capacity)
      [List.replicate (capacity * 2 % 2 ^ 64 + 1) (0 : UInt8)]).data = [] := by
    apply data_ioWindowWrite_nil rfl
    · rw [List.length_replicate]
      exact hless.trans_le hroom
    · rw [List.length_replicate]
      exact Nat.lt_succ_self _
    · rw [List.length_replicate]
      exact hless
  rw [ioWindowPeekFromBack, hempty, if_neg (by decide)] at hpeek
  cases hpeek

/-- A window of any capacity slides over all writes exactly when its memory has a size that is
representable. -/
theorem ioWindow_slides_iff {rep : List UInt8 → ω → Prop} (haccepts : AcceptsAll rep) (writer : ω)
    (hrep : rep [] writer) (capacity : ℕ) (hpos : 0 < capacity) (hsize : capacity < 2 ^ 64) :
    (∀ writes : List (List UInt8), (∀ bytes ∈ writes, bytes.length ≤ capacity) →
      Slides rep writer capacity writes) ↔ capacity * 3 < 2 ^ 64 := by
  constructor
  · intro h
    by_contra hwraps
    by_cases hless : capacity * 3 % 2 ^ 64 < capacity
    · exact not_accepted hless (h [] (List.forall_mem_nil _))
    · have hhalf : 2 ^ 63 ≤ capacity := by
        by_contra hsmall
        rw [Nat.mod_eq_sub_mod (by omega), Nat.mod_eq_of_lt (by omega)] at hless
        omega
      have hthreshold : capacity * 2 % 2 ^ 64 < capacity := by
        rw [Nat.mod_eq_sub_mod (by omega), Nat.mod_eq_of_lt (by omega)]
        omega
      exact not_history hthreshold (Nat.le_of_not_lt hless)
        (h _ (length_le_of_replicate hthreshold))
  · intro hcapacity writes hwrites
    exact slides_of_capacity haccepts hrep hcapacity hwrites

end History

theorem acceptsAll_collector :
    AcceptsAll fun taken (writer : Collector) ↦ writer.bytes = taken := by
  rintro taken writer bytes rfl
  exact ⟨_, rfl, rfl⟩

theorem ioWindow_slides_iff_two :
    (∀ writes : List (List UInt8), (∀ bytes ∈ writes, bytes.length ≤ 2) →
      Slides (fun taken (writer : Collector) ↦ writer.bytes = taken) ⟨[]⟩ 2 writes) ∧
        2 * 3 < 2 ^ 64 :=
  ⟨(ioWindow_slides_iff acceptsAll_collector ⟨[]⟩ rfl 2 (by decide) (by decide)).2 (by decide),
    by decide⟩

/-- The memory for this capacity is two bytes long. -/
theorem ioWindow_slides_fails :
    ¬ Slides (fun taken (writer : Collector) ↦ writer.bytes = taken) ⟨[]⟩ 0x5555555555555556 [] :=
  not_accepted (by decide)

end Brutal.Io
