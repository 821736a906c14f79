import Brutal.Base.Abi
import Brutal.Lib.Bytes

/-!
# Packing values into messages

`libs/ipc/pack.c` and `libs/ipc/unpack.c`.  A value is packed by appending its bytes to a buffer
that grows by whole pages; handles are also put into a list of their own, from which they are taken
when the value is unpacked.  Values are what the C objects hold: a slice is its elements, whose
number is its `len`.

`Codes` says that a function that packs and one that unpacks are inverse to each other, wherever in
the buffer the value stands and whatever comes after it.
-/

namespace Brutal.Ipc

open Base Lib

variable {reader : IpcUnpack} {pack : PackFn} {unpack : UnpackFn} {shape : Value → Prop}
  {wire : Value → List UInt8} {elements : List Value}

/-- What a C object of one of the packed types holds. -/
inductive Value where
  | void
  | pod (bytes : List UInt8)
  | handle (id : UInt64)
  | text (bytes : List UInt8)
  | struct (fields : List (String × Value))
  | vec (elements : List Value)

/-- The handles that a value holds, in order. -/
def Value.handles : Value → List UInt64
  | .void => []
  | .pod _ => []
  | .handle id => [id]
  | .text _ => []
  | .struct fields => fields.attach.flatMap fun ⟨field, _⟩ ↦ field.2.handles
  | .vec elements => elements.attach.flatMap fun ⟨element, _⟩ ↦ element.handles
termination_by value => sizeOf value
decreasing_by
  all_goals simp_wf
  · rename_i hmem
    have hfield := List.sizeOf_lt_of_mem hmem
    cases field
    simp at hfield ⊢
    omega
  · rename_i hmem
    have helement := List.sizeOf_lt_of_mem hmem
    omega

/-- The recursion of `handles` without the proofs of membership. -/
theorem Value.handles_eq (value : Value) : value.handles = match value with
    | .void | .pod _ | .text _ => []
    | .handle id => [id]
    | .struct fields => fields.flatMap fun field ↦ field.2.handles
    | .vec elements => elements.flatMap Value.handles := by
  cases value with
  | void => rw [Value.handles]
  | pod bytes => rw [Value.handles]
  | handle id => rw [Value.handles]
  | text bytes => rw [Value.handles]
  | struct fields =>
    have hmap : fields.attach.map (fun field ↦ field.1.2.handles) =
        fields.map fun field ↦ field.2.handles :=
      List.attach_map_val (f := fun field : String × Value ↦ field.2.handles)
    rw [Value.handles, List.flatMap_def]
    dsimp only
    rw [List.flatMap_def]
    exact congrArg List.flatten hmap
  | vec elements =>
    rw [Value.handles]
    simp [List.flatMap_def]

theorem Value.handles_struct (fields : List (String × Value)) :
    (Value.struct fields).handles = fields.flatMap fun field ↦ field.2.handles :=
  Value.handles_eq _

theorem Value.handles_vec (elements : List Value) :
    (Value.vec elements).handles = elements.flatMap Value.handles :=
  Value.handles_eq _

@[simp]
theorem Value.handles_void : Value.void.handles = [] := Value.handles_eq _

@[simp]
theorem Value.handles_pod (bytes : List UInt8) : (Value.pod bytes).handles = [] :=
  Value.handles_eq _

@[simp]
theorem Value.handles_handle (id : UInt64) : (Value.handle id).handles = [id] :=
  Value.handles_eq _

@[simp]
theorem Value.handles_text (bytes : List UInt8) : (Value.text bytes).handles = [] :=
  Value.handles_eq _

/-- How many handles fit into one message. -/
def maxHandles : ℕ := brMsgArgCount - 1

def memPageSize : ℕ := 4096

/-- `IpcPack`, whose buffer has as many bytes as `len` says. -/
structure IpcPack where
  buf : List UInt8
  curr : ℕ
  handles : List UInt64
  curr_le : curr ≤ buf.length

/-- What was packed. -/
def IpcPack.bytes (self : IpcPack) : List UInt8 := self.buf.take self.curr

/-- `ipc_pack_init` -/
def ipcPackInit : IpcPack := ⟨[], 0, [], Nat.le_refl _⟩

/-- `align_up$(cap, MEM_PAGE_SIZE)` -/
def pageAlignUp (cap : ℕ) : ℕ := (cap + memPageSize - 1) / memPageSize * memPageSize

/-- `ipc_pack_ensure`: new memory, with what was packed copied into it. -/
def ipcPackEnsure (self : IpcPack) (cap : ℕ) : IpcPack :=
  if cap ≤ self.buf.length then self
  else
    { buf := self.bytes ++ List.replicate (pageAlignUp cap - self.curr) 0
      curr := self.curr
      handles := self.handles
      curr_le := by
        have hbytes : self.bytes.length = self.curr := List.length_take_of_le self.curr_le
        rw [List.length_append, hbytes]
        omega }

theorem ipcPackEnsure_bytes (self : IpcPack) (cap : ℕ) :
    (ipcPackEnsure self cap).bytes = self.bytes ∧ (ipcPackEnsure self cap).curr = self.curr ∧
      (ipcPackEnsure self cap).handles = self.handles := by
  have hbytes : self.bytes.length = self.curr := List.length_take_of_le self.curr_le
  unfold ipcPackEnsure
  split
  · exact ⟨rfl, rfl, rfl⟩
  · exact ⟨List.take_left' hbytes, rfl, rfl⟩

/-- The bytes copied into the buffer after what was packed. -/
def packAt (self : IpcPack) (data : List UInt8) : IpcPack where
  buf := self.bytes ++ data ++ self.buf.drop (self.curr + data.length)
  curr := self.curr + data.length
  handles := self.handles
  curr_le := by
    have hbytes : self.bytes.length = self.curr := List.length_take_of_le self.curr_le
    simp only [List.length_append, hbytes]
    omega

/-- `ipc_pack` -/
def ipcPack (self : IpcPack) (data : List UInt8) : IpcPack :=
  packAt (ipcPackEnsure self (self.curr + data.length)) data

/-- What was packed between two states. -/
structure Appends (first last : IpcPack) (bytes : List UInt8) (handles : List UInt64) : Prop where
  bytes_eq : last.bytes = first.bytes ++ bytes
  handles_eq : last.handles = first.handles ++ handles

theorem Appends.refl (self : IpcPack) : Appends self self [] [] :=
  ⟨(List.append_nil _).symm, (List.append_nil _).symm⟩

theorem Appends.trans {first next last : IpcPack} {bytes bytes' : List UInt8}
    {handles handles' : List UInt64} (h : Appends first next bytes handles)
    (h' : Appends next last bytes' handles') :
    Appends first last (bytes ++ bytes') (handles ++ handles') := by
  constructor
  · rw [h'.bytes_eq, h.bytes_eq, List.append_assoc]
  · rw [h'.handles_eq, h.handles_eq, List.append_assoc]

theorem ipcPack_appends (self : IpcPack) (data : List UInt8) :
    Appends self (ipcPack self data) data [] := by
  have hensure := ipcPackEnsure_bytes self (self.curr + data.length)
  constructor
  · have hlength : (self.bytes ++ data).length = (ipcPack self data).curr := by
      show _ = (ipcPackEnsure self _).curr + data.length
      rw [List.length_append, IpcPack.bytes, List.length_take_of_le self.curr_le, hensure.2.1]
    show List.take _ ((ipcPackEnsure self _).bytes ++ data ++ _) = _
    rw [hensure.1]
    exact List.take_left' hlength
  · show (ipcPackEnsure self _).handles = _
    rw [hensure.2.2, List.append_nil]

/-- `ipc_pack_handle` -/
def ipcPackHandle (self : IpcPack) (id : UInt64) : Option IpcPack :=
  if self.handles.length < maxHandles then
    some (ipcPack { self with handles := self.handles ++ [id] } (leBytes 8 id.toNat))
  else none

/-- The loop of `ipc_pack_slice_impl` -/
def ipcPackElements (element : Value → IpcPack → Option IpcPack) :
    List Value → IpcPack → Option IpcPack
  | [], self => some self
  | value :: rest, self => do
    let self ← element value self
    ipcPackElements element rest self

/-- `ipc_pack_slice_impl` -/
def ipcPackSlice (element : Value → IpcPack → Option IpcPack) (elements : List Value)
    (self : IpcPack) : Option IpcPack :=
  ipcPackElements element elements (ipcPack self (leBytes 8 elements.length))

/-- `IpcUnpack` -/
structure IpcUnpack where
  buf : List UInt8
  curr : ℕ
  handles : List UInt64
  currentHandle : ℕ

/-- `ipc_unpack_init`, with the handles of the message. -/
def ipcUnpackInit (buf : List UInt8) (handles : List UInt64) : IpcUnpack := ⟨buf, 0, handles, 0⟩

/-- `ipc_unpack`; there is nothing to read after the end of the buffer. -/
def ipcUnpack (self : IpcUnpack) (len : ℕ) : Option (List UInt8 × IpcUnpack) :=
  if self.curr + len ≤ self.buf.length then
    some ((self.buf.drop self.curr).take len, { self with curr := self.curr + len })
  else none

/-- `ipc_unpack_handle` -/
def ipcUnpackHandle (self : IpcUnpack) : Option (UInt64 × IpcUnpack) :=
  if self.currentHandle < maxHandles then do
    let (_, self) ← ipcUnpack self 8
    let id ← self.handles[self.currentHandle]?
    return (id, { self with currentHandle := self.currentHandle + 1 })
  else none

/-- `ipc_unpack_str` -/
def ipcUnpackStr (self : IpcUnpack) : Option (List UInt8 × IpcUnpack) := do
  let (len, self) ← ipcUnpack self 8
  ipcUnpack self (ofLeBytes len)

/-- The loop of `ipc_unpack_slice_impl`; every element starts as zeroed memory. -/
def ipcUnpackElements (element : Value → IpcUnpack → Option (Value × IpcUnpack)) (zero : Value) :
    ℕ → IpcUnpack → Option (List Value × IpcUnpack)
  | 0, self => some ([], self)
  | count + 1, self => do
    let (value, self) ← element zero self
    let (rest, self) ← ipcUnpackElements element zero count self
    return (value :: rest, self)

/-- `ipc_unpack_slice_impl` -/
def ipcUnpackSlice (element : Value → IpcUnpack → Option (Value × IpcUnpack)) (zero : Value)
    (self : IpcUnpack) : Option (List Value × IpcUnpack) := do
  let (len, self) ← ipcUnpack self 8
  ipcUnpackElements element zero (ofLeBytes len) self

/-- The reader stands before the bytes and before the handles. -/
structure Reads (reader : IpcUnpack) (bytes : List UInt8) (handles : List UInt64) : Prop where
  curr_le : reader.curr ≤ reader.buf.length
  bytes_next : bytes <+: reader.buf.drop reader.curr
  handles_next : handles <+: reader.handles.drop reader.currentHandle
  handles_le : reader.currentHandle + handles.length ≤ maxHandles

/-- The reader after the bytes and the handles. -/
def IpcUnpack.advance (self : IpcUnpack) (count handles : ℕ) : IpcUnpack :=
  { self with curr := self.curr + count, currentHandle := self.currentHandle + handles }

/-- What was packed can be read from where it was appended. -/
theorem Appends.reads {first last : IpcPack} {bytes : List UInt8} {handles : List UInt64}
    (h : Appends first last bytes handles)
    (hroom : first.handles.length + handles.length ≤ maxHandles) (tail : List UInt8)
    (more : List UInt64) :
    Reads ⟨last.bytes ++ tail, first.bytes.length, last.handles ++ more, first.handles.length⟩
      bytes handles := by
  refine ⟨?_, ⟨tail, ?_⟩, ⟨more, ?_⟩, hroom⟩
  · simp [h.bytes_eq]
  · simp [h.bytes_eq]
  · simp [h.handles_eq]

theorem Reads.split {bytes bytes' : List UInt8} {handles handles' : List UInt64}
    (h : Reads reader (bytes ++ bytes') (handles ++ handles')) :
    Reads reader bytes handles ∧
      Reads (reader.advance bytes.length handles.length) bytes' handles' := by
  have hle := h.handles_le
  rw [List.length_append] at hle
  have hlength := h.bytes_next.length_le
  rw [List.length_append, List.length_drop] at hlength
  have hcurr := h.curr_le
  refine ⟨⟨hcurr, ?_, ?_, by omega⟩, ⟨?_, ?_, ?_, by simp only [IpcUnpack.advance]; omega⟩⟩
  · exact (List.prefix_append _ _).trans h.bytes_next
  · exact (List.prefix_append _ _).trans h.handles_next
  · simp only [IpcUnpack.advance]
    omega
  · obtain ⟨tail, htail⟩ := h.bytes_next
    refine ⟨tail, ?_⟩
    simp only [IpcUnpack.advance]
    rw [← List.drop_drop, ← htail, List.append_assoc, List.drop_left]
  · obtain ⟨tail, htail⟩ := h.handles_next
    refine ⟨tail, ?_⟩
    simp only [IpcUnpack.advance]
    rw [← List.drop_drop, ← htail, List.append_assoc, List.drop_left]

theorem IpcUnpack.advance_advance (self : IpcUnpack) (count count' handles handles' : ℕ) :
    (self.advance count handles).advance count' handles' =
      self.advance (count + count') (handles + handles') := by
  simp [IpcUnpack.advance, Nat.add_assoc]

theorem ipcUnpack_of_reads {bytes : List UInt8} {handles : List UInt64}
    (h : Reads reader bytes handles) :
    ipcUnpack reader bytes.length = some (bytes, reader.advance bytes.length 0) := by
  obtain ⟨tail, htail⟩ := h.bytes_next
  have hlength := congrArg List.length htail
  have hcurr := h.curr_le
  rw [List.length_append, List.length_drop] at hlength
  have htake : (reader.buf.drop reader.curr).take bytes.length = bytes := by
    rw [← htail]
    exact List.take_left' rfl
  rw [ipcUnpack, if_pos (by omega), htake]
  rfl

/-- A function that packs a value, and one that unpacks a value into memory. -/
abbrev PackFn := Value → IpcPack → Option IpcPack

abbrev UnpackFn := Value → IpcUnpack → Option (Value × IpcUnpack)

/-- Packing appends the bytes and the handles of the value, and unpacking from where they stand,
into memory of the right shape, gives the value back and goes on after them. -/
structure Codes (pack : PackFn) (unpack : UnpackFn) (shape : Value → Prop) (value : Value)
    (bytes : List UInt8) : Prop where
  packs : ∀ self : IpcPack, self.handles.length + value.handles.length ≤ maxHandles →
    ∃ next, pack value self = some next ∧ Appends self next bytes value.handles
  unpacks : ∀ old reader, shape old → Reads reader bytes value.handles →
    unpack old reader = some (value, reader.advance bytes.length value.handles.length)

/-- `ipc_pack_handle` and `ipc_unpack_handle` as a pair of functions. -/
def packHandle : PackFn
  | .handle id, self => ipcPackHandle self id
  | _, _ => none

def unpackHandle : UnpackFn := fun _ reader ↦ do
  let (id, reader) ← ipcUnpackHandle reader
  return (.handle id, reader)

theorem handle_codes (id : UInt64) :
    Codes packHandle unpackHandle (fun _ ↦ True) (.handle id) (leBytes 8 id.toNat) := by
  constructor
  · intro self hroom
    rw [Value.handles_handle, List.length_singleton] at hroom
    refine ⟨_, if_pos (by omega), ?_⟩
    have happends := ipcPack_appends { self with handles := self.handles ++ [id] }
      (leBytes 8 id.toNat)
    refine ⟨happends.bytes_eq, ?_⟩
    rw [happends.handles_eq, Value.handles_handle, List.append_nil]
  · intro old reader _ hreads
    rw [Value.handles_handle] at hreads ⊢
    have hle := hreads.handles_le
    rw [List.length_singleton] at hle
    have hbytes := ipcUnpack_of_reads hreads
    rw [length_leBytes] at hbytes
    have hid : reader.handles[reader.currentHandle]? = some id := by
      obtain ⟨tail, htail⟩ := hreads.handles_next
      have hhead := congrArg List.head? htail
      rw [List.head?_drop] at hhead
      exact hhead.symm
    unfold unpackHandle ipcUnpackHandle
    rw [if_pos (by omega), hbytes]
    simp [IpcUnpack.advance, hid]

/-- The elements of a slice are packed one after the other. -/
theorem packElements_appends
    (hcodes : ∀ value ∈ elements, Codes pack unpack shape value (wire value)) {self : IpcPack}
    (hroom : self.handles.length + (elements.flatMap Value.handles).length ≤ maxHandles) :
    ∃ next, ipcPackElements pack elements self = some next ∧
      Appends self next (elements.flatMap wire) (elements.flatMap Value.handles) := by
  induction elements generalizing self with
  | nil => exact ⟨self, rfl, Appends.refl self⟩
  | cons value rest ih =>
    rw [List.flatMap_cons, List.length_append] at hroom
    obtain ⟨next, hnext, happends⟩ :=
      (hcodes value List.mem_cons_self).packs self (by omega)
    have hhandles := congrArg List.length happends.handles_eq
    rw [List.length_append] at hhandles
    have hrest : ∀ other ∈ rest, Codes pack unpack shape other (wire other) :=
      fun other hother ↦ hcodes other (List.mem_cons_of_mem _ hother)
    have hroom' : next.handles.length + (rest.flatMap Value.handles).length ≤ maxHandles := by
      omega
    obtain ⟨last, hlast, happends'⟩ := ih hrest hroom'
    refine ⟨last, ?_, ?_⟩
    · rw [ipcPackElements, hnext]
      exact hlast
    · rw [List.flatMap_cons, List.flatMap_cons]
      exact happends.trans happends'

/-- The elements of a slice are unpacked one after the other. -/
theorem unpackElements_reads {zero : Value} (hzero : shape zero)
    (hcodes : ∀ value ∈ elements, Codes pack unpack shape value (wire value))
    (hreads : Reads reader (elements.flatMap wire) (elements.flatMap Value.handles)) :
    ipcUnpackElements unpack zero elements.length reader = some (elements, reader.advance
      (elements.flatMap wire).length (elements.flatMap Value.handles).length) := by
  induction elements generalizing reader with
  | nil => rfl
  | cons value rest ih =>
    rw [List.flatMap_cons, List.flatMap_cons] at hreads ⊢
    have hsplit := hreads.split
    have hrest : ∀ other ∈ rest, Codes pack unpack shape other (wire other) :=
      fun other hother ↦ hcodes other (List.mem_cons_of_mem _ hother)
    rw [List.length_cons, ipcUnpackElements,
      (hcodes value List.mem_cons_self).unpacks zero reader hzero hsplit.1]
    simp only [Option.bind_eq_bind, Option.bind_some]
    rw [ih hrest hsplit.2]
    simp [IpcUnpack.advance_advance]

/-- `ipc_pack_slice` and `ipc_unpack_slice` as a pair of functions. -/
def packSlice (element : PackFn) : PackFn
  | .vec elements, self => ipcPackSlice element elements self
  | _, _ => none

def unpackSlice (element : UnpackFn) (zero : Value) : UnpackFn := fun _ reader ↦ do
  let (elements, reader) ← ipcUnpackSlice element zero reader
  return (.vec elements, reader)

theorem slice_codes {zero : Value} (hlength : elements.length < 2 ^ 64) (hzero : shape zero)
    (hcodes : ∀ value ∈ elements, Codes pack unpack shape value (wire value)) :
    Codes (packSlice pack) (unpackSlice unpack zero) (fun _ ↦ True) (.vec elements)
      (leBytes 8 elements.length ++ elements.flatMap wire) := by
  constructor
  · intro self hroom
    rw [Value.handles_vec] at hroom ⊢
    have hfirst := ipcPack_appends self (leBytes 8 elements.length)
    have hhandles : (ipcPack self (leBytes 8 elements.length)).handles = self.handles := by
      rw [hfirst.handles_eq, List.append_nil]
    rw [← hhandles] at hroom
    obtain ⟨next, hnext, happends⟩ := packElements_appends hcodes hroom
    exact ⟨next, hnext, hfirst.trans happends⟩
  · intro old reader _ hreads
    rw [Value.handles_vec] at hreads ⊢
    have hreads' : Reads reader (leBytes 8 elements.length ++ elements.flatMap wire)
        ([] ++ elements.flatMap Value.handles) := hreads
    have hsplit := hreads'.split
    have hlen := ipcUnpack_of_reads hsplit.1
    have hvalue : ofLeBytes (leBytes 8 elements.length) = elements.length :=
      ofLeBytes_leBytes_of_lt (by omega)
    have hrest := unpackElements_reads hzero hcodes hsplit.2
    rw [length_leBytes] at hlen hrest
    unfold unpackSlice ipcUnpackSlice
    rw [hlen]
    simp only [Option.bind_eq_bind, Option.bind_some, hvalue, List.length_nil] at hrest ⊢
    rw [hrest]
    simp [IpcUnpack.advance_advance]

end Brutal.Ipc
