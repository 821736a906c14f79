import Brutal.Ipc.Pack
import Brutal.Lib.Memory

/-!
# Unpacking messages from others

`libs/ipc/unpack.c` on a message whose bytes and lengths come from another task.  `IpcUnpack` knows
the length of its buffer, but `ipc_unpack` does not look at it: it copies from the memory behind the
buffer as well.  What keeps to the buffer is compared with it here: a reader that checks.

Unpacking that does not go on, because an assertion failed or because the allocator stopped it, is
an error in `EStateM`, which keeps what was read before.
-/

namespace Brutal.Ipc.Unpack

open Lib

/-- What does not change while a message is unpacked: memory from the buffer on, the length of the
buffer, the handles of the message and the sizes that the allocator has memory for. -/
structure Source where
  buf : ℕ → UInt8
  len : ℕ
  handles : ℕ → UInt64
  acquires : ℕ → Bool
  len_lt : len < 2 ^ 64

/-- `IpcUnpack` without its source, with the stretches of memory and the handles that were read. -/
structure IpcUnpack where
  curr : ℕ
  currentHandle : ℕ
  reads : List (ℕ × ℕ)
  handleReads : List ℕ

/-- Unpacking may stop the program. -/
abbrev UnpackM := EStateM Unit IpcUnpack

/-- `ipc_unpack_init` -/
def ipcUnpackInit : IpcUnpack := ⟨0, 0, [], []⟩

variable (source : Source)

/-- `ipc_unpack`, where the offset wraps. -/
def ipcUnpack (len : ℕ) : UnpackM (List UInt8) := fun self ↦
  .ok (readAt (fun offset ↦ source.buf (offset % 2 ^ 64)) self.curr len)
    { self with
      curr := (self.curr + len) % 2 ^ 64
      reads := self.reads ++ [(self.curr, len)] }

/-- `alloc_calloc`, where the product wraps. -/
def allocCalloc (size count : ℕ) : UnpackM Unit := fun self ↦
  if source.acquires (size * count % 2 ^ 64) then .ok () self else .error () self

/-- `assert_lower_than(self->current_handle, BR_MSG_ARG_COUNT - 1)` -/
def assertHandle : UnpackM Unit := fun self ↦
  if self.currentHandle < maxHandles then .ok () self else .error () self

/-- `self->handles[self->current_handle++]` -/
def nextHandle : UnpackM UInt64 := fun self ↦
  .ok (source.handles self.currentHandle)
    { self with
      currentHandle := self.currentHandle + 1
      handleReads := self.handleReads ++ [self.currentHandle] }

/-- `ipc_unpack_handle` -/
def ipcUnpackHandle : UnpackM UInt64 := do
  assertHandle
  let _ ← ipcUnpack source 8
  nextHandle source

/-- `ipc_unpack_str` -/
def ipcUnpackStr : UnpackM (List UInt8) := do
  let len ← ipcUnpack source 8
  allocCalloc source 1 (ofLeBytes len)
  ipcUnpack source (ofLeBytes len)

/-- The loop of `ipc_unpack_slice_impl`. -/
def ipcUnpackElements {α : Type} (element : UnpackM α) : ℕ → UnpackM (List α)
  | 0 => pure []
  | count + 1 => do
    let value ← element
    let rest ← ipcUnpackElements element count
    return value :: rest

/-- `ipc_unpack_slice_impl` -/
def ipcUnpackSlice {α : Type} (element : UnpackM α) (size : ℕ) : UnpackM (List α) := do
  let len ← ipcUnpack source 8
  allocCalloc source size (ofLeBytes len)
  ipcUnpackElements element (ofLeBytes len)

/-- The type of a request, as far as its unpack function goes: the calls that it makes, with the
sizes that the compiler puts in. -/
inductive Shape where
  | void
  | pod (size : ℕ)
  | handle
  | str
  | slice (element : Shape) (size : ℕ)
  | members (first rest : Shape)

/-- What is unpacked. -/
def Content : Shape → Type
  | .void => Unit
  | .pod _ => List UInt8
  | .handle => UInt64
  | .str => List UInt8
  | .slice element _ => List (Content element)
  | .members first rest => Content first × Content rest

/-- The unpack function of a type. -/
def unpack : (shape : Shape) → UnpackM (Content shape)
  | .void => pure ()
  | .pod size => ipcUnpack source size
  | .handle => ipcUnpackHandle source
  | .str => ipcUnpackStr source
  | .slice element size => ipcUnpackSlice source (unpack element) size
  | .members first rest => do
    let value ← unpack first
    let others ← unpack rest
    return (value, others)

/-- What a reader comes to: a value and the places behind it, a stop, or bytes that are missing. -/
inductive Extent (α : Type) where
  | fits (value : α) (curr handle : ℕ)
  | stops
  | short

/-- A reader from a place in the buffer and a place in the handles. -/
def Checked (α : Type) : Type := ℕ → ℕ → Extent α

instance : Monad Checked where
  pure value := fun curr handle ↦ .fits value curr handle
  bind first next := fun curr handle ↦
    match first curr handle with
    | .fits value curr handle => next value curr handle
    | .stops => .stops
    | .short => .short

/-- The next bytes, if the buffer has as many. -/
def checkedBytes (count : ℕ) : Checked (List UInt8) := fun curr handle ↦
  if curr + count ≤ source.len then .fits (readAt source.buf curr count) (curr + count) handle
  else .short

def checkedAlloc (size : ℕ) : Checked Unit := fun curr handle ↦
  if source.acquires (size % 2 ^ 64) then .fits () curr handle else .stops

def checkedHandle : Checked UInt64 := fun curr handle ↦
  if handle < maxHandles then
    if curr + 8 ≤ source.len then .fits (source.handles handle) (curr + 8) (handle + 1)
    else .short
  else .stops

def checkedElements {α : Type} (element : Checked α) : ℕ → Checked (List α)
  | 0 => pure []
  | count + 1 => do
    let value ← element
    let rest ← checkedElements element count
    return value :: rest

/-- A value of a type in the buffer. -/
def checked : (shape : Shape) → Checked (Content shape)
  | .void => pure ()
  | .pod size => checkedBytes source size
  | .handle => checkedHandle source
  | .str => do
    let len ← checkedBytes source 8
    checkedAlloc source (1 * ofLeBytes len)
    checkedBytes source (ofLeBytes len)
  | .slice element size => do
    let len ← checkedBytes source 8
    checkedAlloc source (size * ofLeBytes len)
    checkedElements (checked element) (ofLeBytes len)
  | .members first rest => do
    let value ← checked first
    let others ← checked rest
    return (value, others)

/-- Only bytes of the buffer and handles of the message were read. -/
structure Inside (state : IpcUnpack) : Prop where
  reads : ∀ read ∈ state.reads, ∀ i < read.2, (read.1 + i) % 2 ^ 64 < source.len
  handles : ∀ i ∈ state.handleReads, i < maxHandles

/-- The state in which unpacking ends or stops. -/
def final {α : Type} : EStateM.Result Unit IpcUnpack α → IpcUnpack
  | .ok _ self => self
  | .error _ self => self

/-- Where the reader has a value, unpacking gives it and stands behind it; where the reader stops,
unpacking stops; and where bytes are missing, unpacking reads others. -/
def Agrees {α : Type} (result : EStateM.Result Unit IpcUnpack α) : Extent α → Prop
  | .fits value curr handle => curr ≤ source.len ∧ ∃ self, result = .ok value self ∧
      self.curr = curr ∧ self.currentHandle = handle ∧ Inside source self
  | .stops => ∃ self, result = .error () self ∧ Inside source self
  | .short => ¬ Inside source (final result)

structure Follows {α : Type} (run : UnpackM α) (reader : Checked α) : Prop where
  inside_of_final : ∀ self, Inside source (final (run self)) → Inside source self
  agrees : ∀ self, self.curr ≤ source.len → Inside source self →
    Agrees source (run self) (reader self.curr self.currentHandle)

section Follows

variable {source} {α β : Type}

theorem Follows.pure (value : α) : Follows source (pure value) (pure value) :=
  ⟨fun _ hself ↦ hself, fun self hcurr hself ↦ ⟨hcurr, self, rfl, rfl, rfl, hself⟩⟩

theorem bind_apply (run : UnpackM α) (next : α → UnpackM β) (self : IpcUnpack) :
    (run >>= next) self =
      match run self with
      | .ok value after => next value after
      | .error stop after => .error stop after := by
  show EStateM.bind run next self = _
  rw [EStateM.bind]
  cases run self <;> rfl

theorem Follows.bind {run : UnpackM α} {next : α → UnpackM β} {reader : Checked α}
    {nextReader : α → Checked β} (h : Follows source run reader)
    (hnext : ∀ value, Follows source (next value) (nextReader value)) :
    Follows source (run >>= next) (reader >>= nextReader) := by
  have hgrows (self : IpcUnpack) (hfinal : Inside source (final ((run >>= next) self))) :
      Inside source (final (run self)) := by
    rw [bind_apply] at hfinal
    cases hrun : run self with
    | ok value after =>
      rw [hrun] at hfinal
      exact (hnext value).inside_of_final after hfinal
    | error stop after =>
      rw [hrun] at hfinal
      exact hfinal
  refine ⟨fun self hfinal ↦ h.inside_of_final self (hgrows self hfinal), fun self hcurr hself ↦ ?_⟩
  have hagrees := h.agrees self hcurr hself
  have hreader : (reader >>= nextReader) self.curr self.currentHandle =
      match reader self.curr self.currentHandle with
      | .fits value curr handle => nextReader value curr handle
      | .stops => .stops
      | .short => .short := rfl
  rw [hreader]
  cases hextent : reader self.curr self.currentHandle with
  | fits value curr handle =>
    rw [hextent] at hagrees
    obtain ⟨hcurr', after, hrun, rfl, rfl, hafter⟩ := hagrees
    have hresult := (hnext value).agrees after hcurr' hafter
    rwa [bind_apply, hrun]
  | stops =>
    rw [hextent] at hagrees
    obtain ⟨after, hrun, hafter⟩ := hagrees
    exact ⟨after, by rw [bind_apply, hrun], hafter⟩
  | short =>
    rw [hextent] at hagrees
    exact fun hfinal ↦ hagrees (hgrows self hfinal)

/-- A copy keeps to the buffer if and only if the buffer has as many bytes. -/
theorem inside_snoc_iff {self : IpcUnpack} (hcurr : self.curr ≤ source.len) (count curr : ℕ) :
    Inside source { self with curr := curr, reads := self.reads ++ [(self.curr, count)] } ↔
      Inside source self ∧ self.curr + count ≤ source.len := by
  have hlen := source.len_lt
  constructor
  · intro h
    have hreads := h.reads
    rw [List.forall_mem_append, List.forall_mem_singleton] at hreads
    refine ⟨⟨hreads.1, h.handles⟩, ?_⟩
    by_contra hlong
    have hbehind := hreads.2 (source.len - self.curr) (by dsimp only; omega)
    rw [Nat.add_sub_cancel' hcurr, Nat.mod_eq_of_lt hlen] at hbehind
    exact Nat.lt_irrefl _ hbehind
  · rintro ⟨h, hle⟩
    refine ⟨?_, h.handles⟩
    rw [List.forall_mem_append, List.forall_mem_singleton]
    refine ⟨h.reads, fun i hi ↦ ?_⟩
    dsimp only at hi ⊢
    rw [Nat.mod_eq_of_lt (by omega)]
    omega

theorem ipcUnpack_follows (count : ℕ) :
    Follows source (ipcUnpack source count) (checkedBytes source count) := by
  have hlen := source.len_lt
  refine ⟨fun self hfinal ↦ ?_, fun self hcurr hself ↦ ?_⟩
  · have hreads := hfinal.reads
    rw [ipcUnpack, final, List.forall_mem_append] at hreads
    exact ⟨hreads.1, hfinal.handles⟩
  · rw [checkedBytes]
    split
    next hle =>
      have hbytes : readAt (fun offset ↦ source.buf (offset % 2 ^ 64)) self.curr count =
          readAt source.buf self.curr count :=
        readAt_congr fun i hi ↦ by rw [Nat.mod_eq_of_lt (by omega)]
      rw [ipcUnpack, hbytes]
      exact ⟨hle, _, rfl, Nat.mod_eq_of_lt (by omega), rfl,
        (inside_snoc_iff hcurr count _).mpr ⟨hself, hle⟩⟩
    next hnot => exact fun hfinal ↦ hnot ((inside_snoc_iff hcurr count _).mp hfinal).2

theorem allocCalloc_follows (size count : ℕ) :
    Follows source (allocCalloc source size count) (checkedAlloc source (size * count)) := by
  refine ⟨fun self hfinal ↦ ?_, fun self hcurr hself ↦ ?_⟩
  · rw [allocCalloc] at hfinal
    split at hfinal <;> exact hfinal
  · rw [allocCalloc, checkedAlloc]
    split
    · exact ⟨hcurr, self, rfl, rfl, rfl, hself⟩
    · exact ⟨self, rfl, hself⟩

theorem ipcUnpackHandle_follows :
    Follows source (ipcUnpackHandle source) (checkedHandle source) := by
  have hrun (self : IpcUnpack) : ipcUnpackHandle source self =
      if self.currentHandle < maxHandles then
        .ok (source.handles self.currentHandle)
          { curr := (self.curr + 8) % 2 ^ 64
            currentHandle := self.currentHandle + 1
            reads := self.reads ++ [(self.curr, 8)]
            handleReads := self.handleReads ++ [self.currentHandle] }
      else .error () self := by
    rw [ipcUnpackHandle, bind_apply, assertHandle]
    by_cases hroom : self.currentHandle < maxHandles
    · rw [if_pos hroom, if_pos hroom]
      rfl
    · rw [if_neg hroom, if_neg hroom]
  have hlen := source.len_lt
  refine ⟨fun self hfinal ↦ ?_, fun self hcurr hself ↦ ?_⟩
  · rw [hrun] at hfinal
    split at hfinal
    · have hreads := hfinal.reads
      have hhandles := hfinal.handles
      rw [final, List.forall_mem_append] at hreads hhandles
      exact ⟨hreads.1, hhandles.1⟩
    · exact hfinal
  · rw [hrun, checkedHandle]
    by_cases hroom : self.currentHandle < maxHandles
    · rw [if_pos hroom, if_pos hroom]
      split
      next hle =>
        have hcopy := (inside_snoc_iff hcurr 8 self.curr).mpr ⟨hself, hle⟩
        refine ⟨hle, _, rfl, Nat.mod_eq_of_lt (by omega), rfl, hcopy.reads, ?_⟩
        rw [List.forall_mem_append, List.forall_mem_singleton]
        exact ⟨hself.handles, hroom⟩
      next hnot =>
        refine fun hfinal ↦ hnot ((inside_snoc_iff hcurr 8 self.curr).mp ?_).2
        exact ⟨hfinal.reads, hself.handles⟩
    · rw [if_neg hroom, if_neg hroom]
      exact ⟨self, rfl, hself⟩

theorem ipcUnpackElements_follows {element : UnpackM α} {reader : Checked α}
    (h : Follows source element reader) (count : ℕ) :
    Follows source (ipcUnpackElements element count) (checkedElements reader count) := by
  induction count with
  | zero => exact Follows.pure []
  | succ count ih => exact h.bind fun value ↦ ih.bind fun rest ↦ Follows.pure (value :: rest)

theorem unpack_follows (shape : Shape) :
    Follows source (unpack source shape) (checked source shape) := by
  induction shape with
  | void => exact Follows.pure ()
  | pod size => exact ipcUnpack_follows size
  | handle => exact ipcUnpackHandle_follows
  | str =>
    exact (ipcUnpack_follows 8).bind fun len ↦
      (allocCalloc_follows 1 (ofLeBytes len)).bind fun _ ↦ ipcUnpack_follows (ofLeBytes len)
  | slice element size ih =>
    exact (ipcUnpack_follows 8).bind fun len ↦
      (allocCalloc_follows size (ofLeBytes len)).bind fun _ ↦
        ipcUnpackElements_follows ih (ofLeBytes len)
  | members first rest ihFirst ihRest =>
    exact ihFirst.bind fun value ↦ ihRest.bind fun others ↦ Follows.pure (value, others)

end Follows

/-- The source with an allocator that has memory for everything. -/
def Source.unlimited (source : Source) : Source := { source with acquires := fun _ ↦ true }

/-- The buffer is too short for the type, or for a length that it announces. -/
def TooShort (shape : Shape) : Prop := checked source.unlimited shape 0 0 = .short

/-- Only bytes of the buffer and handles of the message are read, and if the buffer is too short,
unpacking does not go on to the end. -/
structure UnpacksSafely (shape : Shape) : Prop where
  inside : Inside source (final (unpack source shape ipcUnpackInit))
  refuses : TooShort source shape → ∃ self, unpack source shape ipcUnpackInit = .error () self

section Permits

variable {source} {α β : Type}

/-- What the first reader reads, the second one reads, too. -/
def Permits (first second : Checked α) : Prop :=
  ∀ curr handle value curr' handle', first curr handle = .fits value curr' handle' →
    second curr handle = .fits value curr' handle'

theorem Permits.refl (reader : Checked α) : Permits reader reader := fun _ _ _ _ _ h ↦ h

theorem Permits.bind {first second : Checked α} {next next' : α → Checked β}
    (h : Permits first second) (hnext : ∀ value, Permits (next value) (next' value)) :
    Permits (first >>= next) (second >>= next') := by
  intro curr handle value curr' handle' hfits
  have hbind (reader : Checked α) (next : α → Checked β) : (reader >>= next) curr handle =
      match reader curr handle with
      | .fits value curr handle => next value curr handle
      | .stops => .stops
      | .short => .short := rfl
  rw [hbind] at hfits ⊢
  cases hfirst : first curr handle with
  | fits middle currMiddle handleMiddle =>
    rw [hfirst] at hfits
    rw [h _ _ _ _ _ hfirst]
    exact hnext middle _ _ _ _ _ hfits
  | stops =>
    rw [hfirst] at hfits
    cases hfits
  | short =>
    rw [hfirst] at hfits
    cases hfits

theorem checkedAlloc_permits (size : ℕ) :
    Permits (checkedAlloc source size) (checkedAlloc source.unlimited size) := by
  intro curr handle value curr' handle' hfits
  rw [checkedAlloc] at hfits
  split at hfits
  · exact hfits
  · cases hfits

theorem checkedElements_permits {first second : Checked α} (h : Permits first second)
    (count : ℕ) : Permits (checkedElements first count) (checkedElements second count) := by
  induction count with
  | zero => exact Permits.refl _
  | succ count ih => exact h.bind fun value ↦ ih.bind fun rest ↦ Permits.refl _

theorem checked_permits (shape : Shape) :
    Permits (checked source shape) (checked source.unlimited shape) := by
  induction shape with
  | void => exact Permits.refl _
  | pod size => exact Permits.refl _
  | handle => exact Permits.refl _
  | str =>
    exact (Permits.refl _).bind fun len ↦
      (checkedAlloc_permits _).bind fun _ ↦ Permits.refl _
  | slice element size ih =>
    exact (Permits.refl _).bind fun len ↦
      (checkedAlloc_permits _).bind fun _ ↦ checkedElements_permits ih _
  | members first rest ihFirst ihRest =>
    exact ihFirst.bind fun value ↦ ihRest.bind fun others ↦ Permits.refl _

end Permits

/-- A message is unpacked safely if and only if its buffer has all the bytes that its type and its
lengths ask for, or unpacking is stopped before one is missing. -/
theorem unpacksSafely_iff (shape : Shape) :
    UnpacksSafely source shape ↔ checked source shape 0 0 ≠ .short := by
  have hagrees := (@unpack_follows source shape).agrees ipcUnpackInit (Nat.zero_le _)
    ⟨fun _ hread ↦ absurd hread List.not_mem_nil, fun _ hread ↦ absurd hread List.not_mem_nil⟩
  constructor
  · intro h hshort
    rw [ipcUnpackInit, hshort] at hagrees
    exact hagrees h.inside
  · intro hnot
    cases hextent : checked source shape 0 0 with
    | fits value curr handle =>
      rw [ipcUnpackInit, hextent] at hagrees
      obtain ⟨-, self, hrun, -, -, hself⟩ := hagrees
      rw [← ipcUnpackInit] at hrun
      refine ⟨by rwa [hrun], fun hshort ↦ ?_⟩
      rw [TooShort, checked_permits shape 0 0 value curr handle hextent] at hshort
      cases hshort
    | stops =>
      rw [ipcUnpackInit, hextent] at hagrees
      obtain ⟨self, hrun, hself⟩ := hagrees
      rw [← ipcUnpackInit] at hrun
      exact ⟨by rwa [hrun], fun _ ↦ ⟨self, hrun⟩⟩
    | short => exact absurd hextent hnot

/-- Eight bytes that announce a string of one byte. -/
theorem unpacksSafely_fails :
    ¬ ∀ (source : Source) (shape : Shape), UnpacksSafely source shape := by
  intro h
  have hinside := (h ⟨fun offset ↦ if offset = 0 then 1 else 0, 8, fun _ ↦ 0, fun _ ↦ true,
    by decide⟩ .str).inside
  exact absurd (hinside.reads (8, 1) (by decide) 0 (by decide)) (by decide)

section Checked

/-- A state at the same place of a message as a reader that knows where the buffer ends. -/
structure SamePlace (source : Source) (state : IpcUnpack) (reader : Ipc.IpcUnpack) : Prop where
  buf : reader.buf = readAt source.buf 0 source.len
  handles : ∀ i handle, reader.handles[i]? = some handle → source.handles i = handle
  curr : reader.curr = state.curr
  currentHandle : reader.currentHandle = state.currentHandle

/-- What the reader gives is unpacked. -/
def Reads {α : Type} (source : Source) (run : UnpackM α)
    (read : Ipc.IpcUnpack → Option (α × Ipc.IpcUnpack)) : Prop :=
  ∀ state reader value reader', SamePlace source state reader →
    read reader = some (value, reader') →
      ∃ state', run state = .ok value state' ∧ SamePlace source state' reader'

variable {source : Source}

theorem ipcUnpack_reads (len : ℕ) :
    Reads source (ipcUnpack source len) (Ipc.ipcUnpack · len) := by
  intro state reader value reader' hplace hread
  have hlength : reader.buf.length = source.len := by rw [hplace.buf, length_readAt]
  dsimp only at hread
  rw [Ipc.ipcUnpack] at hread
  split at hread
  next hle =>
    cases hread
    rw [hlength, hplace.curr] at hle
    have hlt := source.len_lt
    have hbytes : readAt (fun offset ↦ source.buf (offset % 2 ^ 64)) state.curr len =
        (reader.buf.drop reader.curr).take len := by
      rw [hplace.buf, hplace.curr, take_drop_readAt, Nat.zero_add, Nat.min_eq_left (by omega)]
      exact readAt_congr fun i hi ↦ congrArg source.buf (Nat.mod_eq_of_lt (by omega))
    refine ⟨{ state with
      curr := (state.curr + len) % 2 ^ 64
      reads := state.reads ++ [(state.curr, len)] }, by rw [ipcUnpack, hbytes], hplace.buf,
      hplace.handles, ?_, hplace.currentHandle⟩
    dsimp only
    rw [hplace.curr, Nat.mod_eq_of_lt (by omega)]
  next => cases hread

theorem ipcUnpackHandle_reads : Reads source (ipcUnpackHandle source) Ipc.ipcUnpackHandle := by
  intro state reader value reader' hplace hread
  rw [Ipc.ipcUnpackHandle] at hread
  split at hread
  next hlt =>
    simp only [Option.bind_eq_bind, Option.bind_eq_some_iff, Option.pure_def, Option.some.injEq,
      Prod.exists, Prod.mk.injEq] at hread
    obtain ⟨bytes, next, hskip, handle, hhandle, rfl, rfl⟩ := hread
    obtain ⟨state', hrun, hnext⟩ := ipcUnpack_reads 8 state reader bytes next hplace hskip
    have hassert : assertHandle state = .ok () state := by
      rw [assertHandle, ← hplace.currentHandle, if_pos hlt]
    refine ⟨{ state' with
      currentHandle := state'.currentHandle + 1
      handleReads := state'.handleReads ++ [state'.currentHandle] }, ?_, hnext.buf, hnext.handles,
      hnext.curr, congrArg (· + 1) hnext.currentHandle⟩
    have hvalue := hnext.handles _ _ hhandle
    rw [hnext.currentHandle] at hvalue
    rw [ipcUnpackHandle, bind_apply, hassert]
    dsimp only
    rw [bind_apply, hrun]
    dsimp only
    rw [nextHandle, hvalue]
  next => cases hread

theorem ipcUnpackElements_reads {element : UnpackM Value}
    {element' : Value → Ipc.IpcUnpack → Option (Value × Ipc.IpcUnpack)} {zero : Value}
    (h : Reads source element (element' zero)) (count : ℕ) :
    Reads source (ipcUnpackElements element count) (Ipc.ipcUnpackElements element' zero count) := by
  induction count with
  | zero =>
    intro state reader value reader' hplace hread
    cases hread
    exact ⟨state, rfl, hplace⟩
  | succ count ih =>
    intro state reader value reader' hplace hread
    simp only [Ipc.ipcUnpackElements, Option.bind_eq_bind, Option.bind_eq_some_iff,
      Option.pure_def, Option.some.injEq, Prod.exists, Prod.mk.injEq] at hread
    obtain ⟨first, next, hfirst, rest, last, hrest, rfl, rfl⟩ := hread
    obtain ⟨state₁, hrun, hnext⟩ := h state reader first next hplace hfirst
    obtain ⟨state₂, hloop, hlast⟩ := ih state₁ next rest last hnext hrest
    refine ⟨state₂, ?_, hlast⟩
    rw [ipcUnpackElements, bind_apply, hrun]
    dsimp only
    rw [bind_apply, hloop]
    rfl

/-- A slice that is read to its end is unpacked if there is memory for it. -/
theorem ipcUnpackSlice_reads {element : UnpackM Value}
    {element' : Value → Ipc.IpcUnpack → Option (Value × Ipc.IpcUnpack)} {zero : Value}
    (h : Reads source element (element' zero)) (hacquires : ∀ size, source.acquires size = true)
    (size : ℕ) :
    Reads source (ipcUnpackSlice source element size) (Ipc.ipcUnpackSlice element' zero) := by
  intro state reader value reader' hplace hread
  simp only [Ipc.ipcUnpackSlice, Option.bind_eq_bind, Option.bind_eq_some_iff, Prod.exists] at hread
  obtain ⟨len, next, hlen, hread⟩ := hread
  obtain ⟨state₁, hrun, hnext⟩ := ipcUnpack_reads 8 state reader len next hplace hlen
  obtain ⟨state₂, hloop, hlast⟩ :=
    ipcUnpackElements_reads h (ofLeBytes len) state₁ next _ _ hnext hread
  have halloc : allocCalloc source size (ofLeBytes len) state₁ = .ok () state₁ := by
    rw [allocCalloc, if_pos (hacquires _)]
  refine ⟨state₂, ?_, hlast⟩
  rw [ipcUnpackSlice, bind_apply, hrun]
  dsimp only
  rw [bind_apply, halloc]
  exact hloop

end Checked

end Brutal.Ipc.Unpack
