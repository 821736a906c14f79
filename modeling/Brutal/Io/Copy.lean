import Brutal.Io.Stream

/-!
# What a copy moves

`io_copy` and `io_copy_n` ask the reader for more after every write, also after one that did not
accept all that it was given: what was left over of that is not written any more.  A reader and a
writer of any kind are watched here, so that a copy can be compared with what they answered.
-/

namespace Brutal.Io

open Lib

section Copy

variable {ρ ω : Type} [IoReader ρ] [IoWriter ω]

/-- The loop of `io_copy`, whose total is a `size_t`. -/
def ioCopyLoop : ℕ → ρ → ω → ℕ → Except Stop (ℕ × ρ × ω)
  | 0, _, _, _ => .error .fuel
  | turns + 1, from_, to_, total => do
    let (buf, from_) ← attempt (IoReader.read from_ 512)
    if buf.length = 0 then
      return (total, from_, to_)
    let (written, to_) ← attempt (IoWriter.write to_ buf)
    if written = 0 then
      return (total, from_, to_)
    ioCopyLoop turns from_ to_ ((total + written) % 2 ^ 64)

/-- `io_copy`, for as many turns as it may take. -/
def ioCopy (turns : ℕ) (from_ : ρ) (to_ : ω) : Except Stop (ℕ × ρ × ω) :=
  ioCopyLoop turns from_ to_ 0

end Copy

/-- A reader, what it has delivered, and whether its last answer was that there is no more. -/
structure Heard (ρ : Type) where
  reader : ρ
  delivered : List UInt8
  ended : Bool

/-- A write: what was given, and how much of it was accepted. -/
structure Write where
  given : List UInt8
  accepted : ℕ
deriving DecidableEq, Repr

/-- A writer and all its writes. -/
structure Watched (ω : Type) where
  writer : ω
  writes : List Write

def heard {ρ : Type} (reader : ρ) : Heard ρ := ⟨reader, [], false⟩

def watched {ω : Type} (writer : ω) : Watched ω := ⟨writer, []⟩

section Watch

variable {ρ ω : Type} [IoReader ρ] [IoWriter ω]

/-- A read that is listened to. -/
def heardRead (self : Heard ρ) (size : ℕ) : IoResult (List UInt8) × Heard ρ :=
  match IoReader.read self.reader size with
  | (.ok bytes, reader) => (.ok bytes, ⟨reader, self.delivered ++ bytes, bytes.isEmpty⟩)
  | (.error error, reader) => (.error error, { self with reader })

/-- A write that is watched. -/
def watchedWrite (self : Watched ω) (data : List UInt8) : IoResult ℕ × Watched ω :=
  match IoWriter.write self.writer data with
  | (.ok count, writer) => (.ok count, ⟨writer, self.writes ++ [⟨data, count⟩]⟩)
  | (.error error, writer) => (.error error, { self with writer })

instance : IoReader (Heard ρ) := ⟨heardRead⟩

instance : IoWriter (Watched ω) := ⟨watchedWrite⟩

/-- A reader never stores more than it was asked for. -/
def ReadsAtMost (ρ : Type) [IoReader ρ] : Prop :=
  ∀ (reader : ρ) (size : ℕ) (bytes : List UInt8) (reader' : ρ),
    IoReader.read reader size = (.ok bytes, reader') → bytes.length ≤ size

/-- A writer never accepts more than it was given. -/
def WritesAtMost (ω : Type) [IoWriter ω] : Prop :=
  ∀ (writer : ω) (bytes : List UInt8) (count : ℕ) (writer' : ω),
    IoWriter.write writer bytes = (.ok count, writer') → count ≤ bytes.length

theorem attempt_eq_ok {α σ : Type} {result : IoResult α × σ} {value : α} {state : σ} :
    attempt result = .ok (value, state) ↔ result = (.ok value, state) := by
  obtain ⟨outcome, final⟩ := result
  cases outcome with
  | ok found => simp [attempt]
  | error error => simp [attempt]

theorem heard_read (hreads : ReadsAtMost ρ) {reader reader' : Heard ρ} {size : ℕ}
    {bytes : List UInt8} (h : IoReader.read reader size = (.ok bytes, reader')) :
    bytes.length ≤ size ∧ reader'.delivered = reader.delivered ++ bytes ∧
      reader'.ended = bytes.isEmpty := by
  change heardRead reader size = _ at h
  rw [heardRead] at h
  split at h
  next found inner hread =>
    cases h
    exact ⟨hreads _ _ _ _ hread, rfl, rfl⟩
  next => cases h

theorem watched_write (hwrites : WritesAtMost ω) {writer writer' : Watched ω}
    {bytes : List UInt8} {count : ℕ} (h : IoWriter.write writer bytes = (.ok count, writer')) :
    count ≤ bytes.length ∧ writer'.writes = writer.writes ++ [⟨bytes, count⟩] := by
  change watchedWrite writer bytes = _ at h
  rw [watchedWrite] at h
  split at h
  next found inner hwrite =>
    cases h
    exact ⟨hwrites _ _ _ _ hwrite, rfl⟩
  next => cases h

end Watch

/-- What was given to a writer. -/
def givenBytes (writes : List Write) : List UInt8 := writes.flatMap Write.given

/-- What a writer has accepted. -/
def acceptedBytes (writes : List Write) : List UInt8 :=
  writes.flatMap fun write ↦ write.given.take write.accepted

/-- The number of bytes that were left over by the writes before the one that accepted the byte
with the given number. -/
def leftOverBefore : List Write → ℕ → ℕ
  | [], _ => 0
  | write :: writes, k =>
    if k < write.accepted then 0
    else write.given.length - write.accepted + leftOverBefore writes (k - write.accepted)

/-- No write accepts more than it is given. -/
def Fit (writes : List Write) : Prop := ∀ write ∈ writes, write.accepted ≤ write.given.length

/-- Every accepted byte was given further on by as much as was left over before. -/
theorem acceptedBytes_getElem? {writes : List Write} (hfit : Fit writes) {k : ℕ}
    (hk : k < (acceptedBytes writes).length) :
    (acceptedBytes writes)[k]? = (givenBytes writes)[k + leftOverBefore writes k]? := by
  induction writes generalizing k with
  | nil => exact absurd hk (Nat.not_lt_zero k)
  | cons write writes ih =>
    have hwrite : write.accepted ≤ write.given.length := hfit write List.mem_cons_self
    have hlength : (write.given.take write.accepted).length = write.accepted := by
      rw [List.length_take, min_eq_left hwrite]
    simp only [acceptedBytes, givenBytes, List.flatMap_cons] at hk ⊢
    rw [List.length_append, hlength] at hk
    rw [leftOverBefore]
    by_cases hfirst : k < write.accepted
    · rw [if_pos hfirst, Nat.add_zero, List.getElem?_append_left (by rwa [hlength]),
        List.getElem?_append_left (by omega), List.getElem?_take_of_lt hfirst]
    · have hnext := ih (fun other hother ↦ hfit other (List.mem_cons_of_mem _ hother))
        (show k - write.accepted < (acceptedBytes writes).length by rw [acceptedBytes]; omega)
      rw [acceptedBytes, givenBytes] at hnext
      rw [if_neg hfirst, List.getElem?_append_right (by omega), hlength, hnext,
        List.getElem?_append_right (by omega)]
      congr 1
      omega

theorem length_acceptedBytes_le {writes : List Write} (hfit : Fit writes) :
    (acceptedBytes writes).length ≤ (givenBytes writes).length := by
  induction writes with
  | nil => exact le_rfl
  | cons write writes ih =>
    have hrest := ih fun other hother ↦ hfit other (List.mem_cons_of_mem _ hother)
    simp only [acceptedBytes, givenBytes, List.flatMap_cons, List.length_append] at hrest ⊢
    exact Nat.add_le_add (List.length_take_le' _ _) hrest

/-- Nothing is left over by writes that were accepted whole, and by no others. -/
theorem length_acceptedBytes_eq_iff {writes : List Write} (hfit : Fit writes) :
    (acceptedBytes writes).length = (givenBytes writes).length ↔
      ∀ write ∈ writes, write.accepted = write.given.length := by
  induction writes with
  | nil => exact ⟨fun _ ↦ nofun, fun _ ↦ rfl⟩
  | cons write writes ih =>
    have hwrite : write.accepted ≤ write.given.length := hfit write List.mem_cons_self
    have hrest : Fit writes := fun other hother ↦ hfit other (List.mem_cons_of_mem _ hother)
    have hle := length_acceptedBytes_le hrest
    rw [List.forall_mem_cons, ← ih hrest]
    simp only [acceptedBytes, givenBytes, List.flatMap_cons, List.length_append,
      List.length_take] at hle ⊢
    omega

@[simp] theorem acceptedBytes_append_singleton (writes : List Write) (write : Write) :
    acceptedBytes (writes ++ [write]) =
      acceptedBytes writes ++ write.given.take write.accepted := by
  simp [acceptedBytes]

@[simp] theorem givenBytes_append_singleton (writes : List Write) (write : Write) :
    givenBytes (writes ++ [write]) = givenBytes writes ++ write.given := by
  simp [givenBytes]

section Loops

variable {ρ ω : Type} [IoReader ρ] [IoWriter ω]

/-- All that was delivered was given on, and no write accepted more than that. -/
structure Passed (reader : Heard ρ) (writer : Watched ω) : Prop where
  given : reader.delivered = givenBytes writer.writes
  fit : Fit writer.writes

omit [IoReader ρ] [IoWriter ω] in
theorem passed_initial (from_ : ρ) (to_ : ω) : Passed (heard from_) (watched to_) :=
  ⟨rfl, fun _ hwrite ↦ absurd hwrite List.not_mem_nil⟩

/-- A read and the write of what it delivered. -/
theorem Passed.turn {reader reader' : Heard ρ} {writer writer' : Watched ω}
    (h : Passed reader writer) (hreads : ReadsAtMost ρ) (hwrites : WritesAtMost ω) {size : ℕ}
    {bytes : List UInt8} (hread : IoReader.read reader size = (.ok bytes, reader')) {count : ℕ}
    (hwrite : IoWriter.write writer bytes = (.ok count, writer')) :
    Passed reader' writer' ∧ writer'.writes = writer.writes ++ [⟨bytes, count⟩] ∧
      (acceptedBytes writer'.writes).length = (acceptedBytes writer.writes).length + count ∧
      count ≤ size := by
  obtain ⟨hsize, hdelivered, -⟩ := heard_read hreads hread
  obtain ⟨hcount, hlog⟩ := watched_write hwrites hwrite
  refine ⟨⟨?_, ?_⟩, hlog, ?_, hcount.trans hsize⟩
  · rw [hdelivered, h.given, hlog, givenBytes_append_singleton]
  · rw [hlog]
    intro write hmem
    cases List.mem_append.mp hmem with
    | inl hold => exact h.fit write hold
    | inr hnew =>
      rw [List.mem_singleton.mp hnew]
      exact hcount
  · rw [hlog, acceptedBytes_append_singleton, List.length_append, List.length_take,
      min_eq_left hcount]

omit [IoWriter ω] in
/-- A read at the end of the stream. -/
theorem Passed.stop {reader reader' : Heard ρ} {writer : Watched ω} (h : Passed reader writer)
    (hreads : ReadsAtMost ρ) {size : ℕ} {bytes : List UInt8}
    (hread : IoReader.read reader size = (.ok bytes, reader')) (hempty : bytes.length = 0) :
    Passed reader' writer ∧ reader'.ended = true := by
  obtain ⟨-, hdelivered, hended⟩ := heard_read hreads hread
  rw [List.eq_nil_of_length_eq_zero hempty] at hdelivered hended
  exact ⟨⟨by rw [hdelivered, List.append_nil, h.given], h.fit⟩, hended⟩

/-- How a copy is left: the reader was at its end, or the last write accepted nothing, or enough
was accepted. -/
inductive Left (reader : Heard ρ) (writer : Watched ω) (enough : Prop) : Prop where
  | ended (h : reader.ended = true)
  | refused (h : ∃ write ∈ writer.writes, write.accepted = 0)
  | enough (h : enough)

/-- The loop of `io_copy`. -/
theorem ioCopyLoop_passed (hreads : ReadsAtMost ρ) (hwrites : WritesAtMost ω) {turns : ℕ}
    {reader reader' : Heard ρ} {writer writer' : Watched ω} (h : Passed reader writer) {t : ℕ}
    (hrun : ioCopyLoop turns reader writer ((acceptedBytes writer.writes).length % 2 ^ 64) =
      .ok (t, reader', writer')) :
    Passed reader' writer' ∧ t = (acceptedBytes writer'.writes).length % 2 ^ 64 ∧
      Left reader' writer' False := by
  induction turns generalizing reader writer with
  | zero => cases hrun
  | succ turns ih =>
    rw [ioCopyLoop, bind_eq_ok] at hrun
    obtain ⟨⟨bytes, reader₁⟩, hread, hrun⟩ := hrun
    rw [attempt_eq_ok] at hread
    dsimp only at hrun
    split at hrun
    next hempty =>
      cases hrun
      obtain ⟨hpassed, hended⟩ := h.stop hreads hread hempty
      exact ⟨hpassed, rfl, .ended hended⟩
    next =>
      rw [bind_eq_ok] at hrun
      obtain ⟨⟨count, writer₁⟩, hwrite, hrun⟩ := hrun
      rw [attempt_eq_ok] at hwrite
      obtain ⟨hpassed, hlog, htotal, -⟩ := h.turn hreads hwrites hread hwrite
      dsimp only at hrun
      split at hrun
      next hzero =>
        cases hrun
        refine ⟨hpassed, by rw [htotal, hzero, Nat.add_zero], .refused ⟨⟨bytes, count⟩, ?_, hzero⟩⟩
        rw [hlog]
        exact List.mem_append_right _ (List.mem_singleton.mpr rfl)
      next =>
        apply ih hpassed
        rw [htotal, ← Nat.mod_add_mod]
        exact hrun

/-- The loop of `io_copy_n`. -/
theorem ioCopyNLoop_passed (hreads : ReadsAtMost ρ) (hwrites : WritesAtMost ω) {turns size : ℕ}
    {reader reader' : Heard ρ} {writer writer' : Watched ω} (h : Passed reader writer)
    (hsize : (acceptedBytes writer.writes).length ≤ size) {t : ℕ}
    (hrun : ioCopyNLoop size turns reader writer (acceptedBytes writer.writes).length =
      .ok (t, reader', writer')) :
    Passed reader' writer' ∧ t = (acceptedBytes writer'.writes).length ∧ t ≤ size ∧
      Left reader' writer' (size ≤ t) := by
  induction turns generalizing reader writer with
  | zero => cases hrun
  | succ turns ih =>
    rw [ioCopyNLoop, bind_eq_ok] at hrun
    obtain ⟨⟨bytes, reader₁⟩, hread, hrun⟩ := hrun
    rw [attempt_eq_ok] at hread
    dsimp only at hrun
    split at hrun
    next hempty =>
      cases hrun
      obtain ⟨hpassed, hended⟩ := h.stop hreads hread hempty
      exact ⟨hpassed, rfl, hsize, .ended hended⟩
    next =>
      rw [bind_eq_ok] at hrun
      obtain ⟨⟨count, writer₁⟩, hwrite, hrun⟩ := hrun
      rw [attempt_eq_ok] at hwrite
      obtain ⟨hpassed, hlog, htotal, hcount⟩ := h.turn hreads hwrites hread hwrite
      dsimp only at hrun
      split at hrun
      next hzero =>
        cases hrun
        refine ⟨hpassed, by rw [htotal, hzero, Nat.add_zero], hsize,
          .refused ⟨⟨bytes, count⟩, ?_, hzero⟩⟩
        rw [hlog]
        exact List.mem_append_right _ (List.mem_singleton.mpr rfl)
      next =>
        have hroom := hcount.trans (min_le_right _ _)
        rw [← htotal] at hrun
        split at hrun
        next => exact ih hpassed (by omega) hrun
        next hdone =>
          cases hrun
          exact ⟨hpassed, rfl, by omega, .enough (Nat.le_of_not_lt hdone)⟩

/-- The lengths that the stream of a reader may have: at its end it has delivered all. -/
def StreamLength (reader : Heard ρ) (length : ℕ) : Prop :=
  reader.delivered.length ≤ length ∧ (reader.ended = true → length = reader.delivered.length)

/-- No write was refused. -/
def NeverRefused (writes : List Write) : Prop := ∀ write ∈ writes, write.accepted ≠ 0

/-- How much a copy of a stream of some length moves; `io_copy_n` has a size. -/
def copyLength (size : Option ℕ) (length : ℕ) : ℕ :=
  match size with
  | none => length
  | some size => min size length

/-- What was accepted are the first bytes that were delivered, as many as the copy returns, which
are no more than was asked for, and all of the stream or as much as was asked for if no write was
refused. -/
structure CopyFaithful (size : Option ℕ) (t : ℕ) (reader : Heard ρ) (writer : Watched ω) :
    Prop where
  accepted : acceptedBytes writer.writes = reader.delivered.take t
  delivered : t ≤ reader.delivered.length
  bounded : ∀ n ∈ size, t ≤ n
  complete : NeverRefused writer.writes → ∀ length, StreamLength reader length →
    t = copyLength size length

/-- What writes leave over does no harm: every accepted byte is the one that was given as much
earlier as was left over before it, and if no write was refused, then nothing was left over, or as
much was accepted as was asked for.  What `io_copy` moves has to be counted in a `size_t`. -/
structure LeftOverHarmless (size : Option ℕ) (writes : List Write) : Prop where
  counted : size = none → (acceptedBytes writes).length < 2 ^ 64
  same : ∀ k < (acceptedBytes writes).length,
    (givenBytes writes)[k + leftOverBefore writes k]? = (givenBytes writes)[k]?
  complete : NeverRefused writes → size = some (acceptedBytes writes).length ∨
    ∀ write ∈ writes, write.accepted = write.given.length

omit [IoReader ρ] [IoWriter ω] in
/-- What was accepted is what was delivered first. -/
theorem Passed.accepted_iff {reader : Heard ρ} {writer : Watched ω} (h : Passed reader writer)
    (t : ℕ) :
    acceptedBytes writer.writes = reader.delivered.take t ∧ t ≤ reader.delivered.length ↔
      t = (acceptedBytes writer.writes).length ∧
        ∀ k < (acceptedBytes writer.writes).length,
          (givenBytes writer.writes)[k + leftOverBefore writer.writes k]? =
            (givenBytes writer.writes)[k]? := by
  rw [h.given]
  constructor
  · rintro ⟨heq, hle⟩
    have ht : t = (acceptedBytes writer.writes).length := by
      rw [heq, List.length_take, min_eq_left hle]
    refine ⟨ht, fun k hk ↦ ?_⟩
    rw [← acceptedBytes_getElem? h.fit hk, heq, List.getElem?_take_of_lt (by omega)]
  · rintro ⟨rfl, hsame⟩
    refine ⟨?_, length_acceptedBytes_le h.fit⟩
    apply List.ext_getElem?
    intro k
    by_cases hk : k < (acceptedBytes writer.writes).length
    · rw [acceptedBytes_getElem? h.fit hk, hsame k hk, List.getElem?_take_of_lt hk]
    · rw [List.getElem?_eq_none (Nat.le_of_not_lt hk), List.getElem?_eq_none
        ((List.length_take_le _ _).trans (Nat.le_of_not_lt hk))]

omit [IoReader ρ] [IoWriter ω] in
/-- A copy that no write refused is complete when nothing was left over, or when it had enough. -/
theorem Passed.complete_iff {reader : Heard ρ} {writer : Watched ω} (h : Passed reader writer)
    {size : Option ℕ} (hbounded : ∀ n ∈ size, (acceptedBytes writer.writes).length ≤ n)
    (hleft : reader.ended = true ∨ ∃ n ∈ size, n ≤ (acceptedBytes writer.writes).length) :
    (∀ length, StreamLength reader length →
        (acceptedBytes writer.writes).length = copyLength size length) ↔
      size = some (acceptedBytes writer.writes).length ∨
        ∀ write ∈ writer.writes, write.accepted = write.given.length := by
  have hle := length_acceptedBytes_le h.fit
  rw [← length_acceptedBytes_eq_iff h.fit]
  simp only [StreamLength, h.given]
  cases size with
  | none =>
    have hended : reader.ended = true := hleft.resolve_right (by simp)
    simp only [copyLength, reduceCtorEq, false_or]
    constructor
    · intro hall
      exact hall _ ⟨le_rfl, fun _ ↦ rfl⟩
    · rintro hall length ⟨-, hlength⟩
      rw [hlength hended, hall]
  | some n =>
    have hn := hbounded n rfl
    simp only [copyLength, Option.some.injEq]
    constructor
    · intro hall
      have hmin := hall _ ⟨le_rfl, fun _ ↦ rfl⟩
      omega
    · rintro hcase length ⟨hlength, hend⟩
      obtain hended | ⟨n', hn', henough⟩ := hleft
      · have := hend hended
        omega
      · cases hn'
        omega

omit [IoReader ρ] [IoWriter ω] in
/-- A copy that was left is faithful exactly when what the writes leave over does no harm. -/
theorem Passed.faithful_iff {reader : Heard ρ} {writer : Watched ω} (h : Passed reader writer)
    {size : Option ℕ} {t : ℕ}
    (hcounted : size = none → t = (acceptedBytes writer.writes).length % 2 ^ 64)
    (hsize : ∀ n ∈ size, t = (acceptedBytes writer.writes).length ∧ t ≤ n)
    (hleft : Left reader writer (∃ n ∈ size, n ≤ t)) :
    CopyFaithful size t reader writer ↔ LeftOverHarmless size writer.writes := by
  have haccepted := h.accepted_iff t
  have hbounded : ∀ n ∈ size, (acceptedBytes writer.writes).length ≤ n :=
    fun n hn ↦ (hsize n hn).1 ▸ (hsize n hn).2
  have hcomplete (hnever : NeverRefused writer.writes) := h.complete_iff hbounded (by
    cases hleft with
    | ended h => exact Or.inl h
    | refused h =>
      obtain ⟨write, hwrite, hzero⟩ := h
      exact absurd hzero (hnever write hwrite)
    | enough h =>
      obtain ⟨n, hn, henough⟩ := h
      exact Or.inr ⟨n, hn, (hsize n hn).1 ▸ henough⟩)
  constructor
  · intro hfaithful
    obtain ⟨rfl, hsame⟩ := haccepted.mp ⟨hfaithful.accepted, hfaithful.delivered⟩
    refine ⟨fun hnone ↦ ?_, hsame, fun hnever ↦ (hcomplete hnever).mp (hfaithful.complete hnever)⟩
    have := hcounted hnone
    omega
  · intro hharmless
    have ht : t = (acceptedBytes writer.writes).length := by
      cases size with
      | none => rw [hcounted rfl, Nat.mod_eq_of_lt (hharmless.counted rfl)]
      | some n => exact (hsize n rfl).1
    obtain ⟨heq, hle⟩ := haccepted.mpr ⟨ht, hharmless.same⟩
    refine ⟨heq, hle, fun n hn ↦ (hsize n hn).2, fun hnever length hstream ↦ ?_⟩
    rw [ht]
    exact (hcomplete hnever).mpr (hharmless.complete hnever) length hstream

end Loops

section Faithful

variable {ρ ω : Type} [IoReader ρ] [IoWriter ω]

/-- `io_copy` and `io_copy_n` are faithful exactly when what the writes leave over does no harm. -/
theorem copyFaithful_iff (hreads : ReadsAtMost ρ) (hwrites : WritesAtMost ω) (from_ : ρ) (to_ : ω) :
    (∀ turns t reader writer,
      ioCopy turns (heard from_) (watched to_) = .ok (t, reader, writer) →
        (CopyFaithful none t reader writer ↔ LeftOverHarmless none writer.writes)) ∧
    (∀ size t reader writer,
      ioCopyN (heard from_) (watched to_) size = .ok (t, reader, writer) →
        (CopyFaithful (some size) t reader writer ↔
          LeftOverHarmless (some size) writer.writes)) := by
  have hpassed := passed_initial from_ to_
  constructor
  · intro turns t reader writer hrun
    obtain ⟨hpassed, ht, hleft⟩ := ioCopyLoop_passed hreads hwrites hpassed hrun
    refine hpassed.faithful_iff (fun _ ↦ ht) (fun n hn ↦ nomatch hn) ?_
    cases hleft with
    | ended h => exact .ended h
    | refused h => exact .refused h
    | enough h => exact h.elim
  · intro size t reader writer hrun
    obtain ⟨hpassed, ht, hsize, hleft⟩ :=
      ioCopyNLoop_passed hreads hwrites hpassed (Nat.zero_le size) hrun
    refine hpassed.faithful_iff (fun hnone ↦ nomatch hnone) ?_ ?_
    · intro n hn
      cases hn
      exact ⟨ht, hsize⟩
    · cases hleft with
      | ended h => exact .ended h
      | refused h => exact .refused h
      | enough h => exact .enough ⟨size, rfl, h⟩

end Faithful

/-- A reader that delivers, or a writer that accepts, no more than a few bytes at a time. -/
structure Paced where
  bytes : List UInt8
  pace : ℕ
deriving DecidableEq, Repr

instance : IoReader Paced := ⟨fun self size ↦
  (.ok (self.bytes.take (min size self.pace)),
    { self with bytes := self.bytes.drop (min size self.pace) })⟩

instance : IoWriter Paced := ⟨fun self data ↦
  (.ok (min self.pace data.length), { self with bytes := self.bytes ++ data.take self.pace })⟩

theorem readsAtMost_paced : ReadsAtMost Paced := by
  intro reader size bytes reader' h
  cases h
  exact (List.length_take_le _ _).trans (min_le_left _ _)

theorem writesAtMost_paced : WritesAtMost Paced := by
  intro writer bytes count writer' h
  cases h
  exact min_le_right _ _

/-- A writer that keeps up with the reader. -/
theorem copyFaithful_iff_keepsUp :
    ∃ reader writer : Paced, ∃ heardReader watchedWriter,
      ioCopy 4 (heard reader) (watched writer) = .ok (3, heardReader, watchedWriter) ∧
        CopyFaithful none 3 heardReader watchedWriter := by
  have hrun : ioCopy 4 (heard (⟨[1, 2, 3], 2⟩ : Paced)) (watched (⟨[], 2⟩ : Paced)) =
      .ok (3, ⟨⟨[], 2⟩, [1, 2, 3], true⟩, ⟨⟨[1, 2, 3], 2⟩, [⟨[1, 2], 2⟩, ⟨[3], 1⟩]⟩) := rfl
  refine ⟨_, _, _, _, hrun, ((copyFaithful_iff readsAtMost_paced writesAtMost_paced _ _).1
    4 3 _ _ hrun).mpr ⟨fun _ ↦ by decide, by decide, fun _ ↦ Or.inr (by decide)⟩⟩

/-- A reader that delivers two bytes at a time and a writer that accepts one of them: the second
byte is lost, and the third one is accepted in its place. -/
theorem copyFaithful_fails :
    ∃ reader writer : Paced, ∃ heardReader watchedWriter,
      ioCopy 4 (heard reader) (watched writer) = .ok (2, heardReader, watchedWriter) ∧
        heardReader.delivered = [1, 2, 3] ∧ acceptedBytes watchedWriter.writes = [1, 3] ∧
        ¬ CopyFaithful none 2 heardReader watchedWriter := by
  have hrun : ioCopy 4 (heard (⟨[1, 2, 3], 2⟩ : Paced)) (watched (⟨[], 1⟩ : Paced)) =
      .ok (2, ⟨⟨[], 2⟩, [1, 2, 3], true⟩, ⟨⟨[1, 3], 1⟩, [⟨[1, 2], 1⟩, ⟨[3], 1⟩]⟩) := rfl
  refine ⟨_, _, _, _, hrun, rfl, rfl, fun h ↦ ?_⟩
  exact absurd h.accepted (by decide)

end Brutal.Io
