import Brutal.Lib.Outcome
import Mathlib.Data.List.Basic
import Mathlib.Order.Lattice

/-!
# Readers and writers

`libs/brutal-io`: the traits of `traits.h`, memory as a stream (`mem.c`) and the copy functions of
`funcs.c`.  A reader or writer is the context that its callback gets, and the callback is chosen by
the type of the context.  A read returns the bytes that it stored, so the count that the callback
returns is their number.

A variable that C leaves uninitialised has the value that the stack happens to hold there.  The
functions below that have such a variable take that value from `Stack`.
-/

namespace Brutal.Io

open Lib

/-- The errors of `brutal-base/error.h` and `codec-deflate/errors.h` that the codecs return. -/
inductive IoError where
  | invalidData
  | notImplemented
  | checksumMismatch
  | unknownBlock
  | tooManySymbols
  | notEnoughTableSpace
  | invalidCode
  | badData
deriving DecidableEq, Repr

/-- Why a function of the codecs does not go on. -/
inductive Stop where
  /-- An error result, which `TRY` passes on. -/
  | error (error : IoError)
  /-- An `assert_*` that failed. -/
  | panic
  /-- An index outside of its array. -/
  | outOfBounds
  /-- An element of an array that was not written before. -/
  | uninitialised
  /-- A loop that was not given enough turns to finish. -/
  | fuel
deriving DecidableEq, Repr

abbrev IoResult := Except IoError

/-- `IoReader` -/
class IoReader (ρ : Type) where
  read : ρ → ℕ → IoResult (List UInt8) × ρ

/-- `IoWriter` -/
class IoWriter (ω : Type) where
  write : ω → List UInt8 → IoResult ℕ × ω

/-- `TRY` -/
def attempt {α σ : Type} (result : IoResult α × σ) : Except Stop (α × σ) :=
  match result with
  | (.ok value, state) => .ok (value, state)
  | (.error error, _) => .error (.error error)

@[simp] theorem attempt_ok {α σ : Type} (value : α) (state : σ) :
    attempt (.ok value, state) = .ok (value, state) := rfl

/-- The values of uninitialised variables, in the order in which they are declared. -/
abbrev Stack := ℕ → UInt8

def Stack.drop (stack : Stack) (count : ℕ) : Stack := fun n ↦ stack (count + n)

def Stack.take (stack : Stack) (count : ℕ) : List UInt8 := (List.range count).map stack

/-- The bytes of a variable after some of them were stored, from the front. -/
def store (old bytes : List UInt8) : List UInt8 := bytes ++ old.drop bytes.length

/-- A variable whose bytes were all stored. -/
theorem store_eq {old bytes : List UInt8} (h : old.length ≤ bytes.length) :
    store old bytes = bytes := by
  rw [store, List.drop_eq_nil_of_le h, List.append_nil]

/-- `IoMem`; its capacity is the length of the data. -/
structure IoMem where
  data : List UInt8
  used : ℕ
deriving DecidableEq, Repr

/-- `io_mem_init` -/
def ioMemInit (data : List UInt8) : IoMem := ⟨data, 0⟩

/-- `io_mem_read` -/
def ioMemRead (self : IoMem) (size : ℕ) : IoResult (List UInt8) × IoMem :=
  let read := min size (self.data.length - self.used)
  (.ok ((self.data.drop self.used).take read), { self with used := self.used + read })

/-- `io_mem_write_impl` -/
def ioMemWrite (self : IoMem) (data : List UInt8) : IoResult ℕ × IoMem :=
  let toWrite := min (self.data.length - self.used) data.length
  (.ok toWrite,
    { data := self.data.take self.used ++ data.take toWrite ++
        self.data.drop (self.used + toWrite)
      used := self.used + toWrite })

instance : IoReader IoMem := ⟨ioMemRead⟩

instance : IoWriter IoMem := ⟨ioMemWrite⟩

/-- A reader over memory that has delivered the first part of it. -/
def memAt (before rest : List UInt8) : IoMem := ⟨before ++ rest, before.length⟩

theorem ioMemInit_eq (data : List UInt8) : ioMemInit data = memAt [] data := rfl

/-- A read of bytes that are there. -/
theorem read_memAt (before bytes rest : List UInt8) :
    IoReader.read (memAt before (bytes ++ rest)) bytes.length =
      (.ok bytes, memAt (before ++ bytes) rest) := by
  simp [IoReader.read, ioMemRead, memAt]

/-- A read past the end gets what is left. -/
theorem read_memAt_end (before bytes : List UInt8) {size : ℕ} (h : bytes.length ≤ size) :
    IoReader.read (memAt before bytes) size = (.ok bytes, memAt (before ++ bytes) []) := by
  simp [IoReader.read, ioMemRead, memAt, min_eq_right h]

/-- A reader that has delivered the first of two strings reads what is asked for, or what is left,
from the second one. -/
def Delivers {ρ : Type} [IoReader ρ] (source : List UInt8 → List UInt8 → ρ) : Prop :=
  ∀ before bytes rest size, bytes.length = size ∨ bytes.length ≤ size ∧ rest = [] →
    IoReader.read (source before (bytes ++ rest)) size = (.ok bytes, source (before ++ bytes) rest)

theorem delivers_memAt : Delivers memAt := by
  rintro before bytes rest size (rfl | ⟨hsize, rfl⟩)
  · exact read_memAt before bytes rest
  · rw [List.append_nil]
    exact read_memAt_end before bytes hsize

/-- A writer over memory that was given some bytes, of which it has stored as many as fit. -/
def memAfter (out taken : List UInt8) : IoMem :=
  ⟨taken.take out.length ++ out.drop taken.length, min taken.length out.length⟩

theorem ioMemInit_eq_memAfter (out : List UInt8) : ioMemInit out = memAfter out [] := by
  simp [ioMemInit, memAfter]

/-- A write stores what fits, and is never an error. -/
theorem write_memAfter (out taken bytes : List UInt8) :
    IoWriter.write (memAfter out taken) bytes =
      (.ok (min (out.length - taken.length) bytes.length), memAfter out (taken ++ bytes)) := by
  have hlength : (taken.take out.length ++ out.drop taken.length).length = out.length := by
    rw [List.length_append, List.length_take, List.length_drop]
    omega
  have hroom : out.length - min taken.length out.length = out.length - taken.length := by omega
  have htaken : (taken.take out.length).length = min taken.length out.length := by
    rw [List.length_take, Nat.min_comm]
  have hfront : (taken.take out.length ++ out.drop taken.length).take
      (min taken.length out.length) = taken.take out.length := by
    rw [← htaken, List.take_left]
  have hback : (taken.take out.length ++ out.drop taken.length).drop
      (min taken.length out.length + min (out.length - taken.length) bytes.length) =
        out.drop (taken.length + bytes.length) := by
    rw [← htaken, ← List.drop_drop, List.drop_left, List.drop_drop]
    by_cases hfit : taken.length + bytes.length ≤ out.length
    · rw [min_eq_right (by omega)]
    · rw [List.drop_eq_nil_of_le (by omega), List.drop_eq_nil_of_le (by omega)]
  have hstored : bytes.take (min (out.length - taken.length) bytes.length) =
      bytes.take (out.length - taken.length) := by
    rw [← List.take_take, List.take_length]
  change ioMemWrite _ _ = _
  simp only [ioMemWrite, memAfter, hlength, hroom, hfront, hback, hstored, Prod.mk.injEq, true_and,
    IoMem.mk.injEq]
  constructor
  · rw [List.take_append, List.length_append]
  · rw [List.length_append]
    omega

/-- `io_sink`: the writer that accepts everything. -/
structure IoSink where
deriving DecidableEq, Repr

instance : IoWriter IoSink := ⟨fun self data ↦ (.ok data.length, self)⟩

/-- A writer that accepts everything, with all that it was given. -/
structure Collector where
  bytes : List UInt8
deriving DecidableEq, Repr

instance : IoWriter Collector := ⟨fun self data ↦ (.ok data.length, ⟨self.bytes ++ data⟩)⟩

section Copy

variable {ρ ω : Type} [IoReader ρ] [IoWriter ω]

/-- The loop of `io_copy_n`, which goes on only after it has written something. -/
def ioCopyNLoop (size : ℕ) : ℕ → ρ → ω → ℕ → Except Stop (ℕ × ρ × ω)
  | 0, _, _, _ => .error .fuel
  | turns + 1, from_, to_, total => do
    let toRead := min 512 (size - total)
    let (buf, from_) ← attempt (IoReader.read from_ toRead)
    if buf.length = 0 then
      return (total, from_, to_)
    let (written, to_) ← attempt (IoWriter.write to_ buf)
    if written = 0 then
      return (total, from_, to_)
    let total := total + written
    if total < size then ioCopyNLoop size turns from_ to_ total
    else return (total, from_, to_)

/-- `io_copy_n` -/
def ioCopyN (from_ : ρ) (to_ : ω) (size : ℕ) : Except Stop (ℕ × ρ × ω) :=
  ioCopyNLoop size (size + 1) from_ to_ 0

/-- `io_skip` -/
def ioSkip (self : ρ) (size : ℕ) : Except Stop (ℕ × ρ) := do
  let (total, self, _) ← ioCopyN self (IoSink.mk) size
  return (total, self)

/-- No write is an error; `rep` says which bytes a writer was given. -/
def Swallows (rep : List UInt8 → ω → Prop) : Prop :=
  ∀ taken writer bytes, rep taken writer →
    ∃ count writer', IoWriter.write writer bytes = (.ok count, writer') ∧
      rep (taken ++ bytes) writer'

/-- A writer takes writes of up to `limit` bytes whole, as long as no more than `bound` bytes are
written in all; `rep` says which bytes a writer was given. -/
def Takes (rep : List UInt8 → ω → Prop) (limit bound : ℕ) : Prop :=
  ∀ taken writer bytes, rep taken writer → bytes.length ≤ limit →
    (taken ++ bytes).length ≤ bound →
    ∃ writer', IoWriter.write writer bytes = (.ok bytes.length, writer') ∧
      rep (taken ++ bytes) writer'

theorem ioCopyNLoop_of_takes {rep : List UInt8 → ω → Prop} {bound : ℕ}
    (htakes : Takes rep 512 bound)
    {turns : ℕ} (before : List UInt8) {bytes : List UInt8} (rest : List UInt8)
    {taken : List UInt8} {writer : ω} (total : ℕ) (hrep : rep taken writer)
    (hbound : (taken ++ bytes).length ≤ bound)
    (hturns : bytes.length < turns) :
    ∃ writer',
      ioCopyNLoop (total + bytes.length) turns (memAt before (bytes ++ rest)) writer total =
      .ok (total + bytes.length, memAt (before ++ bytes) rest, writer') ∧
      rep (taken ++ bytes) writer' := by
  induction turns generalizing before bytes taken writer total with
  | zero => omega
  | succ turns ih =>
    obtain ⟨chunk, tail, rfl, hchunk⟩ : ∃ chunk tail, bytes = chunk ++ tail ∧
        chunk.length = min 512 bytes.length :=
      ⟨bytes.take 512, bytes.drop 512, (List.take_append_drop 512 bytes).symm,
        List.length_take⟩
    have hsize : min 512 (total + (chunk ++ tail).length - total) = chunk.length := by
      rw [hchunk, Nat.add_sub_cancel_left]
    rw [List.length_append] at hchunk hbound hturns
    rw [ioCopyNLoop, hsize, List.append_assoc, read_memAt]
    simp only [attempt_ok, Lib.ok_bind]
    by_cases hempty : chunk.length = 0
    · have htail : tail = [] := List.eq_nil_of_length_eq_zero (by omega)
      rw [if_pos hempty, List.eq_nil_of_length_eq_zero hempty, htail]
      exact ⟨writer, by simp [pure, Except.pure], by simpa using hrep⟩
    · rw [if_neg hempty]
      obtain ⟨writer', hwrite, hrep'⟩ := htakes taken writer chunk hrep (by omega)
        (by rw [List.length_append]; rw [List.length_append] at hbound; omega)
      rw [hwrite]
      simp only [attempt_ok, Lib.ok_bind]
      rw [if_neg hempty]
      by_cases htail : tail.length = 0
      · rw [List.eq_nil_of_length_eq_zero htail, if_neg (by simp)]
        exact ⟨writer', by simp [pure, Except.pure], by simpa using hrep'⟩
      · rw [if_pos (by rw [List.length_append]; omega)]
        obtain ⟨writer'', hloop, hrep''⟩ := ih (before ++ chunk) (total + chunk.length) hrep'
          (by simpa [Nat.add_assoc] using hbound) (by omega)
        refine ⟨writer'', ?_, by simpa using hrep''⟩
        simpa [Nat.add_assoc] using hloop

/-- `io_copy_n` from memory to a writer that takes everything. -/
theorem ioCopyN_of_takes {rep : List UInt8 → ω → Prop} {bound : ℕ} (htakes : Takes rep 512 bound)
    (before bytes rest taken : List UInt8) {writer : ω} (hrep : rep taken writer)
    (hbound : (taken ++ bytes).length ≤ bound) :
    ∃ writer', ioCopyN (memAt before (bytes ++ rest)) writer bytes.length =
      .ok (bytes.length, memAt (before ++ bytes) rest, writer') ∧ rep (taken ++ bytes) writer' := by
  have hloop := ioCopyNLoop_of_takes htakes before rest 0 hrep hbound (Nat.lt_succ_self _)
  simpa [ioCopyN] using hloop

end Copy

end Brutal.Io
