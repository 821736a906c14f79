import Brutal.Io.Stream

/-!
# The sliding window

`libs/brutal-io/window.c`: a writer that keeps the latest bytes and passes older ones on.  Its
memory holds `3 * capacity` bytes, of which the first `used` were written; the model keeps these.
The two products with the capacity are of type `size_t`.
-/

namespace Brutal.Io

open Lib

/-- `IoWindow`; `used` is the length of its data. -/
structure IoWindow (ω : Type) where
  data : List UInt8
  capacity : ℕ
  underlying : ω

/-- `io_window_init` -/
def ioWindowInit {ω : Type} (underlying : ω) (capacity : ℕ) : IoWindow ω :=
  ⟨[], capacity, underlying⟩

section Window

variable {ω : Type} [IoWriter ω]

/-- `io_window_flush_chunk`, whose source always starts at the front. -/
def ioWindowFlushChunk (self : IoWindow ω) : IoWindow ω :=
  let srcSize := min self.data.length self.capacity
  let srcStart := if srcSize > self.capacity then srcSize - self.capacity else 0
  let src := self.data.drop srcStart
  { self with
    underlying := (IoWriter.write self.underlying (src.take srcSize)).2
    data := (src.drop srcSize).take (self.data.length - srcSize) }

/-- `io_window_flush_all` -/
def ioWindowFlushAll (self : IoWindow ω) : IoWindow ω :=
  { self with
    underlying := (IoWriter.write self.underlying self.data).2
    data := [] }

/-- `io_window_write_impl` -/
def ioWindowWrite (self : IoWindow ω) (data : List UInt8) : IoResult ℕ × IoWindow ω :=
  let toWrite := min (self.capacity * 3 % 2 ^ 64 - self.data.length) data.length
  let self := { self with data := self.data ++ data.take toWrite }
  (.ok toWrite,
    if self.data.length > self.capacity * 2 % 2 ^ 64 then ioWindowFlushChunk self else self)

instance : IoWriter (IoWindow ω) := ⟨ioWindowWrite⟩

/-- `io_window_peek_from_back` -/
def ioWindowPeekFromBack (self : IoWindow ω) (offset : ℕ) : Except Stop UInt8 :=
  if offset ≤ self.data.length then
    match self.data[self.data.length - offset]? with
    | some byte => .ok byte
    | none => .error .uninitialised
  else .error .panic

/-- The window was given `taken`: the writer under it has got the bytes that are no longer in the
window, and the window has kept the latest ones. -/
def WindowRep (rep : List UInt8 → ω → Prop) (taken : List UInt8) (self : IoWindow ω) : Prop :=
  ∃ flushed, rep flushed self.underlying ∧ taken = flushed ++ self.data ∧
    self.data.length ≤ self.capacity * 2 ∧ min taken.length self.capacity ≤ self.data.length

theorem ioWindowFlushChunk_eq (self : IoWindow ω) (h : self.capacity ≤ self.data.length) :
    ioWindowFlushChunk self =
      { self with
        underlying := (IoWriter.write self.underlying (self.data.take self.capacity)).2
        data := self.data.drop self.capacity } := by
  simp [ioWindowFlushChunk, min_eq_right h, List.take_of_length_le]

/-- Writes of at most the capacity fit into the window. -/
theorem takes_window {rep : List UInt8 → ω → Prop} {limit bound capacity : ℕ}
    (hrep : ∀ limit, Takes rep limit bound) (hlimit : limit ≤ capacity)
    (hcapacity : capacity * 3 < 2 ^ 64) :
    Takes (fun taken self ↦ WindowRep rep taken self ∧ self.capacity = capacity) limit bound := by
  rintro taken self bytes ⟨⟨flushed, hflushed, rfl, hfits, hkept⟩, rfl⟩ hbytes hbound
  have htoWrite : min (self.capacity * 3 % 2 ^ 64 - self.data.length) bytes.length =
      bytes.length := by
    rw [Nat.mod_eq_of_lt hcapacity]
    omega
  have hthreshold : self.capacity * 2 % 2 ^ 64 = self.capacity * 2 := Nat.mod_eq_of_lt (by omega)
  rw [List.length_append] at hkept
  simp only [IoWriter.write, ioWindowWrite, htoWrite, hthreshold, List.take_length]
  by_cases hflush : (self.data ++ bytes).length > self.capacity * 2
  · rw [if_pos hflush, ioWindowFlushChunk_eq _ (by simp only; omega)]
    have hsplit :
        (self.data ++ bytes).take self.capacity ++ (self.data ++ bytes).drop self.capacity =
        self.data ++ bytes := List.take_append_drop _ _
    have hlength := congrArg List.length hsplit
    obtain ⟨underlying, hwrite, hrep'⟩ := hrep self.capacity flushed self.underlying
      ((self.data ++ bytes).take self.capacity) hflushed (List.length_take_le _ _)
      (by simp only [List.length_append] at *; omega)
    refine ⟨_, rfl, ⟨flushed ++ (self.data ++ bytes).take self.capacity, ?_, ?_, ?_, ?_⟩, rfl⟩
    · simp only [hwrite]
      exact hrep'
    · simp only [List.append_assoc, List.take_append_drop]
    · simp only [List.length_drop, List.length_append] at *
      omega
    · simp only [List.length_drop, List.length_append] at *
      omega
  · rw [if_neg hflush]
    refine ⟨_, rfl, ⟨flushed, hflushed, by simp, Nat.le_of_not_lt hflush, ?_⟩, rfl⟩
    simp only [List.length_append]
    omega

/-- After the last flush the writer under the window has all. -/
theorem rep_flushAll {rep : List UInt8 → ω → Prop} {bound : ℕ}
    (hrep : ∀ limit, Takes rep limit bound)
    {taken : List UInt8} {self : IoWindow ω} (h : WindowRep rep taken self)
    (hbound : taken.length ≤ bound) : rep taken (ioWindowFlushAll self).underlying := by
  obtain ⟨flushed, hflushed, rfl, -, -⟩ := h
  obtain ⟨underlying, hwrite, hrep'⟩ := hrep self.data.length flushed self.underlying self.data
    hflushed (Nat.le_refl _) hbound
  simp only [ioWindowFlushAll, hwrite]
  exact hrep'

end Window

end Brutal.Io
