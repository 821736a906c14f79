import Brutal.Base.Debug
import Brutal.Lib.Memory
import Brutal.Lib.Run
import Mathlib.Data.Int.Notation

/-!
# Buffers as streams

`libs/brutal-io/buf.c` and `io_seek_eval` of `base.c`.  A buffer keeps the number of bytes in use
and the position of the reader apart, both as a `size_t`: a seek or `buf_clear` may leave the
position behind the end, and the number of bytes left that a read computes then wraps around.
-/

namespace Brutal.Io

open Base Lib

/-- `IoWhence` -/
inductive IoWhence where
  | start
  | current
  | fromEnd
deriving DecidableEq, Repr

/-- `IoSeek` -/
structure IoSeek where
  whence : IoWhence
  position : ℤ

/-- A signed 64-bit addition. -/
def addSSize (a b : ℤ) : Except Fault ℤ :=
  if -2 ^ 63 ≤ a + b ∧ a + b < 2 ^ 63 then .ok (a + b) else .error .overflow

/-- A `size_t` as an `SSize`. -/
def toSSize (n : ℕ) : ℤ := if n < 2 ^ 63 then n else n - 2 ^ 64

/-- An `SSize` as a `size_t`. -/
def toSizeT (n : ℤ) : ℕ := (n % 2 ^ 64).toNat

/-- `io_seek_eval` -/
def ioSeekEval (seek : IoSeek) (current size : ℤ) : Except Fault ℤ :=
  match seek.whence with
  | .start => .ok seek.position
  | .current => addSSize current seek.position
  | .fromEnd => addSSize size seek.position

/-- `Buf`, with the bytes at `data` by their index. -/
structure Buf where
  data : ℕ → UInt8
  pos : ℕ
  used : ℕ
  capacity : ℕ

/-- The loop of `buf_ensure`. -/
def growCapacity (wanted : ℕ) : ℕ → ℕ → Except Fault ℕ
  | 0, _ => .error .depth
  | turns + 1, capacity =>
    if capacity < wanted then
      growCapacity wanted turns ((capacity + capacity / 4) % 2 ^ 64)
    else .ok capacity

/-- `buf_ensure`, where memory that was not in the buffer before holds `fresh`. -/
def bufEnsure (fresh : ℕ → UInt8) (self : Buf) (capacity : ℕ) : Except Fault Buf := do
  let capacity := max capacity 16
  if capacity ≤ self.capacity then
    return self
  let grown ← growCapacity capacity capacity (max self.capacity 16)
  if grown = 0 then
    return { self with data := fun _ ↦ 0, capacity := grown }
  if 2 ^ 63 ≤ grown then
    throw .outOfBounds
  return { self with
    data := fun i ↦ if i < self.capacity then self.data i else fresh i, capacity := grown }

/-- `buf_init` -/
def bufInit (fresh : ℕ → UInt8) (capacity : ℕ) : Except Fault Buf :=
  bufEnsure fresh ⟨fresh, 0, 0, 0⟩ capacity

/-- `buf_clear` -/
def bufClear (self : Buf) : Buf := { self with used := 0 }

/-- `buf_push_impl` -/
def bufPushImpl (fresh : ℕ → UInt8) (self : Buf) (data : List UInt8) : Except Fault Buf := do
  let self ← bufEnsure fresh self ((self.used + data.length) % 2 ^ 64)
  if self.capacity < self.used + data.length then
    throw .outOfBounds
  return { self with
    data := writeAt self.data self.used data, used := (self.used + data.length) % 2 ^ 64 }

/-- The loop of `buf_read_impl`: the bytes with the positions that they are copied from. -/
def bufReadLoop (self : Buf) : ℕ → Except Fault (List (ℕ × UInt8) × Buf)
  | 0 => .ok ([], self)
  | left + 1 => do
    if self.capacity ≤ self.pos then
      throw .outOfBounds
    let (copied, self') ← bufReadLoop { self with pos := (self.pos + 1) % 2 ^ 64 } left
    return ((self.pos, self.data self.pos) :: copied, self')

/-- `buf_read_impl` -/
def bufReadImpl (self : Buf) (size : ℕ) : Except Fault (List (ℕ × UInt8) × Buf) :=
  bufReadLoop self (min size ((self.used + (2 ^ 64 - self.pos)) % 2 ^ 64))

/-- `buf_write_impl` -/
def bufWriteImpl (fresh : ℕ → UInt8) (self : Buf) (data : List UInt8) :
    Except Fault (ℕ × Buf) := do
  let self ← bufPushImpl fresh self data
  return (data.length, self)

/-- `buf_seek_impl` -/
def bufSeekImpl (self : Buf) (seek : IoSeek) : Except Fault (ℕ × Buf) := do
  let pos ← ioSeekEval seek (toSSize self.pos) (toSSize self.used)
  return (toSizeT pos, { self with pos := toSizeT pos })

/-- A buffer together with the bytes that were written since it was last cleared. -/
structure Stream where
  buf : Buf
  written : List UInt8

inductive StreamAction where
  /-- A write, with what fresh memory holds at that time. -/
  | write (fresh : ℕ → UInt8) (data : List UInt8)
  | read (size : ℕ)
  | seek (seek : IoSeek)
  | clear

def Stream.next (s : Stream) : StreamAction → Except Fault Stream
  | .write fresh data => do
    let (_, buf) ← bufWriteImpl fresh s.buf data
    return ⟨buf, s.written ++ data⟩
  | .read size => do
    let (_, buf) ← bufReadImpl s.buf size
    return { s with buf := buf }
  | .seek seek => do
    let (_, buf) ← bufSeekImpl s.buf seek
    return { s with buf := buf }
  | .clear => .ok ⟨bufClear s.buf, []⟩

/-- The read copies from positions below the end only, and returns what was written from the
position of the reader on, as far as it is asked for and there is some. -/
def ReadsWritten (s : Stream) (size : ℕ) : Prop :=
  ∃ copied buf, bufReadImpl s.buf size = .ok (copied, buf) ∧
    (∀ entry ∈ copied, entry.1 < s.buf.used) ∧
      copied.map Prod.snd = (s.written.drop s.buf.pos).take size

/-- The buffer holds what was written, within its capacity. -/
structure Holds (s : Stream) : Prop where
  used : s.buf.used = s.written.length
  fits : s.buf.used ≤ s.buf.capacity
  capacity : s.buf.capacity < 2 ^ 63
  pos : s.buf.pos < 2 ^ 64
  data : readAt s.buf.data 0 s.buf.used = s.written

variable {fresh : ℕ → UInt8} {self self' : Buf} {wanted turns capacity grown : ℕ}
  {data : List UInt8} {s t : Stream} {actions : List StreamAction}

theorem growCapacity_eq_ok (h : growCapacity wanted turns capacity = .ok grown) :
    wanted ≤ grown := by
  induction turns generalizing capacity with
  | zero => cases h
  | succ turns ih =>
    rw [growCapacity] at h
    split at h
    next => exact ih h
    next hle =>
      cases h
      exact Nat.le_of_not_lt hle

/-- With a turn for each byte wanted, the loop ends. -/
theorem exists_growCapacity (hwanted : wanted < 2 ^ 62) (hcapacity : 16 ≤ capacity)
    (hlt : capacity < 2 ^ 63) (hturns : wanted ≤ turns + capacity) :
    ∃ grown, growCapacity wanted (turns + 1) capacity = .ok grown ∧ 0 < grown ∧ grown < 2 ^ 63 := by
  induction turns generalizing capacity with
  | zero =>
    rw [growCapacity, if_neg (by omega)]
    exact ⟨capacity, rfl, by omega, hlt⟩
  | succ turns ih =>
    rw [growCapacity]
    split
    next hless =>
      have hmod : (capacity + capacity / 4) % 2 ^ 64 = capacity + capacity / 4 :=
        Nat.mod_eq_of_lt (by omega)
      rw [hmod]
      exact ih (by omega) (by omega) (by omega)
    next => exact ⟨capacity, rfl, by omega, hlt⟩

/-- Growing keeps the bytes within the old capacity, the position and the number of bytes in use. -/
theorem bufEnsure_eq_ok (h : bufEnsure fresh self capacity = .ok self')
    (hcapacity : self.capacity < 2 ^ 63) :
    capacity ≤ self'.capacity ∧ self.capacity ≤ self'.capacity ∧ self'.capacity < 2 ^ 63 ∧
      self'.pos = self.pos ∧ self'.used = self.used ∧
        ∀ i < self.capacity, self'.data i = self.data i := by
  rw [bufEnsure] at h
  dsimp only at h
  split at h
  next hle =>
    cases h
    exact ⟨by omega, Nat.le_refl _, hcapacity, rfl, rfl, fun _ _ ↦ rfl⟩
  next hlarger =>
    obtain ⟨grown, hgrown, h⟩ := bind_eq_ok.mp h
    have hwanted := growCapacity_eq_ok hgrown
    rw [if_neg (by omega)] at h
    split at h
    next => cases h
    next hless =>
      cases h
      exact ⟨by dsimp only; omega, by dsimp only; omega, by dsimp only; omega, rfl, rfl,
        fun i hi ↦ if_pos hi⟩

/-- A request that an object of C may have is met. -/
theorem exists_bufEnsure (hwanted : capacity < 2 ^ 62) (hcapacity : self.capacity < 2 ^ 63) :
    ∃ self', bufEnsure fresh self capacity = .ok self' := by
  rw [bufEnsure]
  dsimp only
  split
  next => exact ⟨self, rfl⟩
  next hlarger =>
    obtain ⟨turns, hturns⟩ : ∃ turns, max capacity 16 = turns + 1 :=
      ⟨max capacity 16 - 1, by omega⟩
    obtain ⟨grown, hgrown, hpos, hlt⟩ := @exists_growCapacity (max capacity 16) turns
      (max self.capacity 16) (by omega) (by omega) (by omega)
      (by omega)
    have hgrown' : growCapacity (max capacity 16) (max capacity 16) (max self.capacity 16) =
        .ok grown := by
      rw [← hgrown, ← hturns]
    rw [hgrown', ok_bind, if_neg (by omega), if_neg (by omega)]
    exact ⟨_, rfl⟩

theorem bufPushImpl_eq_ok (h : bufPushImpl fresh self data = .ok self')
    (hfits : self.used ≤ self.capacity) (hcapacity : self.capacity < 2 ^ 63) :
    self'.used = self.used + data.length ∧ self'.used ≤ self'.capacity ∧
      self'.capacity < 2 ^ 63 ∧ self'.pos = self.pos ∧
        readAt self'.data 0 self'.used = readAt self.data 0 self.used ++ data := by
  obtain ⟨grown, hgrown, h⟩ := bind_eq_ok.mp h
  obtain ⟨-, hgrow, hlt, hpos, hused, hdata⟩ := bufEnsure_eq_ok hgrown hcapacity
  split at h
  next => cases h
  next hroom =>
    cases h
    have hmod : (grown.used + data.length) % 2 ^ 64 = self.used + data.length := by
      rw [Nat.mod_eq_of_lt (by omega), hused]
    refine ⟨hmod, by dsimp only; omega, hlt, hpos, ?_⟩
    dsimp only
    rw [hmod, readAt_add, Nat.zero_add, hused, readAt_writeAt, readAt_writeAt_apart (by omega)]
    rw [readAt_congr fun i hi ↦ hdata (0 + i) (by omega)]

/-- A loop within the capacity copies the bytes from the position on. -/
theorem bufReadLoop_within {left : ℕ} (h : self.pos + left ≤ self.capacity)
    (hcapacity : self.capacity < 2 ^ 63) :
    bufReadLoop self left = .ok ((List.range left).map fun i ↦
      (self.pos + i, self.data (self.pos + i)), { self with pos := self.pos + left }) := by
  induction left generalizing self with
  | zero => rfl
  | succ left ih =>
    have hmod : (self.pos + 1) % 2 ^ 64 = self.pos + 1 := Nat.mod_eq_of_lt (by omega)
    have hrest := @ih { self with pos := self.pos + 1 } (by dsimp only; omega) hcapacity
    rw [bufReadLoop, if_neg (by omega), hmod, hrest, ok_bind, List.range_succ_eq_map, List.map_cons,
      List.map_map]
    simp only [Function.comp_def, Nat.add_zero, Nat.succ_eq_add_one, Nat.add_assoc, Nat.add_comm 1]
    rfl

/-- The loop changes the position only. -/
theorem bufReadLoop_eq_ok {left : ℕ} {copied : List (ℕ × UInt8)}
    (h : bufReadLoop self left = .ok (copied, self')) (hpos : self.pos < 2 ^ 64) :
    (∃ pos < 2 ^ 64, self' = { self with pos := pos }) ∧
      (0 < left → ∃ rest, copied = (self.pos, self.data self.pos) :: rest) := by
  induction left generalizing self copied with
  | zero =>
    cases h
    exact ⟨⟨_, hpos, rfl⟩, fun h ↦ absurd h (Nat.lt_irrefl 0)⟩
  | succ left ih =>
    rw [bufReadLoop] at h
    split at h
    next => cases h
    next =>
      obtain ⟨⟨rest, buf⟩, hrest, h⟩ := bind_eq_ok.mp h
      cases h
      obtain ⟨⟨pos, hlt, rfl⟩, -⟩ := ih hrest (Nat.mod_lt _ (by decide))
      exact ⟨⟨pos, hlt, rfl⟩, fun _ ↦ ⟨rest, rfl⟩⟩

/-- A read is right exactly when it asks for nothing or the position is not behind the end. -/
theorem Holds.readsWritten_iff (h : Holds s) (size : ℕ) :
    ReadsWritten s size ↔ size = 0 ∨ s.buf.pos ≤ s.buf.used := by
  obtain ⟨hused, hfits, hcapacity, hpos, hdata⟩ := h
  constructor
  · rintro ⟨copied, buf, hread, hbelow, -⟩
    by_contra hnot
    rw [not_or, Nat.not_le] at hnot
    have hleft : 0 < min size ((s.buf.used + (2 ^ 64 - s.buf.pos)) % 2 ^ 64) := by
      rw [Nat.mod_eq_of_lt (by omega)]
      omega
    obtain ⟨rest, rfl⟩ := (bufReadLoop_eq_ok hread hpos).2 hleft
    have hfirst : s.buf.pos < s.buf.used := hbelow _ List.mem_cons_self
    omega
  · intro hor
    have hleft : min size ((s.buf.used + (2 ^ 64 - s.buf.pos)) % 2 ^ 64) =
        min size (s.buf.used - s.buf.pos) := by
      by_cases hle : s.buf.pos ≤ s.buf.used
      · rw [show s.buf.used + (2 ^ 64 - s.buf.pos) = s.buf.used - s.buf.pos + 2 ^ 64 by omega,
          Nat.add_mod_right, Nat.mod_eq_of_lt (by omega)]
      · rcases hor with rfl | hor
        · rw [Nat.zero_min, Nat.zero_min]
        · exact absurd hor hle
    by_cases hzero : min size (s.buf.used - s.buf.pos) = 0
    · refine ⟨[], s.buf, ?_, List.forall_mem_nil _, ?_⟩
      · rw [bufReadImpl, hleft, hzero]
        rfl
      · rw [← hdata, take_drop_readAt, hzero]
        rfl
    · have hread := @bufReadLoop_within s.buf (min size (s.buf.used - s.buf.pos)) (by omega)
        hcapacity
      rw [← hleft] at hread
      refine ⟨_, _, hread, ?_, ?_⟩
      · intro entry hentry
        obtain ⟨i, hi, rfl⟩ := List.mem_map.mp hentry
        rw [List.mem_range, hleft] at hi
        dsimp only
        omega
      · rw [← hdata, take_drop_readAt, List.map_map, Nat.zero_add, hleft]
        rfl

theorem bufSeekImpl_eq_ok {seek : IoSeek} {pos : ℕ}
    (h : bufSeekImpl self seek = .ok (pos, self')) :
    pos < 2 ^ 64 ∧ self' = { self with pos := pos } := by
  obtain ⟨result, -, h⟩ := bind_eq_ok.mp h
  cases h
  have hpos : toSizeT result < 2 ^ 64 := by
    rw [toSizeT]
    omega
  exact ⟨hpos, rfl⟩

/-- The buffer holds what was written after every step that it held before. -/
theorem Holds.next {action : StreamAction} (h : Holds s) (hnext : s.next action = .ok t) :
    Holds t := by
  obtain ⟨hused, hfits, hcapacity, hpos, hdata⟩ := h
  cases action with
  | write fresh data =>
    obtain ⟨⟨count, buf⟩, hwrite, hnext⟩ := bind_eq_ok.mp hnext
    cases hnext
    obtain ⟨self', hpush, hwrite⟩ := bind_eq_ok.mp hwrite
    cases hwrite
    obtain ⟨hused', hfits', hcapacity', hpos', hdata'⟩ := bufPushImpl_eq_ok hpush hfits hcapacity
    refine ⟨?_, hfits', hcapacity', ?_, ?_⟩
    · rw [hused', List.length_append, hused]
    · rwa [hpos']
    · rw [hdata', hdata]
  | read size =>
    obtain ⟨⟨copied, buf⟩, hread, hnext⟩ := bind_eq_ok.mp hnext
    cases hnext
    obtain ⟨⟨pos, hlt, rfl⟩, -⟩ := bufReadLoop_eq_ok hread hpos
    exact ⟨hused, hfits, hcapacity, hlt, hdata⟩
  | seek seek =>
    obtain ⟨⟨pos, buf⟩, hseek, hnext⟩ := bind_eq_ok.mp hnext
    cases hnext
    obtain ⟨hlt, rfl⟩ := bufSeekImpl_eq_ok hseek
    exact ⟨hused, hfits, hcapacity, hlt, hdata⟩
  | clear =>
    cases hnext
    exact ⟨rfl, Nat.zero_le _, hcapacity, hpos, rfl⟩

theorem holds_bufInit (h : bufInit fresh capacity = .ok self) : Holds ⟨self, []⟩ := by
  obtain ⟨-, -, hcapacity, hpos, hused, -⟩ := bufEnsure_eq_ok h (Nat.two_pow_pos 63)
  dsimp only at hpos hused
  refine ⟨hused, ?_, hcapacity, ?_, ?_⟩
  · dsimp only
    omega
  · dsimp only
    omega
  · dsimp only
    rw [hused]
    rfl

/-- A write that an object of C has room for succeeds. -/
theorem Holds.exists_write (h : Holds s) (fresh : ℕ → UInt8) {data : List UInt8}
    (hroom : s.buf.used + data.length < 2 ^ 62) : ∃ t, s.next (.write fresh data) = .ok t := by
  have hmod : (s.buf.used + data.length) % 2 ^ 64 = s.buf.used + data.length :=
    Nat.mod_eq_of_lt (by omega)
  obtain ⟨self', hensure⟩ := @exists_bufEnsure fresh _ _ hroom h.capacity
  obtain ⟨hwanted, -, -, -, hused, -⟩ := bufEnsure_eq_ok hensure h.capacity
  have hpush : bufPushImpl fresh s.buf data = .ok { self' with
      data := writeAt self'.data self'.used data
      used := (self'.used + data.length) % 2 ^ 64 } := by
    rw [bufPushImpl, hmod, hensure, ok_bind, if_neg (by omega)]
    rfl
  rw [Stream.next, bufWriteImpl, hpush]
  exact ⟨_, rfl⟩

/-- In every run of a buffer the bytes in use are within the capacity, and a read at any point is
right exactly when it asks for nothing or the position is not behind the end. -/
theorem buf_readsWritten_iff (fresh : ℕ → UInt8) (capacity : ℕ) (self : Buf)
    (hinit : bufInit fresh capacity = .ok self) (actions : List StreamAction) (s : Stream)
    (hrun : Run (Succeeds Stream.next) ⟨self, []⟩ actions s) :
    s.buf.used ≤ s.buf.capacity ∧
      ∀ size, ReadsWritten s size ↔ size = 0 ∨ s.buf.pos ≤ s.buf.used := by
  have hholds : Holds s :=
    hrun.invariant (fun _ _ _ hs hnext ↦ hs.next hnext) (holds_bufInit hinit)
  exact ⟨hholds.fits, hholds.readsWritten_iff⟩

/-- A byte is written and read, and the buffer is cleared. -/
theorem buf_readsWritten_cleared :
    ∃ s, Run (Succeeds Stream.next) ⟨⟨fun _ ↦ 0, 0, 0, 16⟩, []⟩
        [.write (fun _ ↦ 0) [7], .read 1, .clear] s ∧
      s.buf.used ≤ s.buf.capacity ∧
        ∀ size, ReadsWritten s size ↔ size = 0 ∨ s.buf.pos ≤ s.buf.used := by
  have hrun : Run (Succeeds Stream.next) ⟨⟨fun _ ↦ 0, 0, 0, 16⟩, []⟩
      [.write (fun _ ↦ 0) [7], .read 1, .clear]
      ⟨⟨writeAt (fun _ ↦ 0) 0 [7], 1, 0, 16⟩, []⟩ := Run.ofFold rfl
  exact ⟨_, hrun, buf_readsWritten_iff (fun _ ↦ 0) 16 ⟨fun _ ↦ 0, 0, 0, 16⟩ rfl _ _ hrun⟩

/-- After a byte was written and read and the buffer was cleared, a read gets that byte again. -/
theorem buf_readsWritten_fails :
    ¬ ∀ (fresh : ℕ → UInt8) (capacity : ℕ) (self : Buf), bufInit fresh capacity = .ok self →
      ∀ actions s, Run (Succeeds Stream.next) ⟨self, []⟩ actions s →
        ∀ size, ReadsWritten s size := by
  intro h
  have hrun : Run (Succeeds Stream.next) ⟨⟨fun _ ↦ 0, 0, 0, 16⟩, []⟩
      [.write (fun _ ↦ 0) [7], .read 1, .clear]
      ⟨⟨writeAt (fun _ ↦ 0) 0 [7], 1, 0, 16⟩, []⟩ := Run.ofFold rfl
  obtain ⟨copied, buf, hread, hbelow, -⟩ := h (fun _ ↦ 0) 16 _ rfl _ _ hrun 1
  cases hread
  exact absurd (hbelow _ List.mem_cons_self) (Nat.not_lt_zero _)

end Brutal.Io
