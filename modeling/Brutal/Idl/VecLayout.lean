import Brutal.Idl.RoundTrip

/-!
# The structure of an IDL vector in memory

`libs/idl/cgen/types.c` declares the structure of a vector with its fields in the order `buf`,
`len`.  `ipc_pack_slice` reads the fields by their names.  `ipc_unpack_slice` casts the structure to
`VoidSlice`, in which `len` comes first, so that each field is written into the place of the other.
Generated functions call it for every vector inside of an element, too.
-/

namespace Brutal.Idl

open Base Ipc Lib

variable {objects : List Object} {lengths : List ℕ} {reads : Blocks → Prop} {elements : List Value}

/-- `CType`, as far as types of IDL declarations go. -/
inductive CType where
  | void
  | ident (name : String)
  | ptr (subtype : CType)
  | enum (constants : List (String × ℤ))
  | struct (members : List (String × CType))

mutual

/-- `idl_cgen_decl_type`, with `idl_cgen_decl_primitive`, `idl_cgen_decl_enum`,
`idl_cgen_decl_struct` and `idl_cgen_decl_vec` -/
def idlCgenDeclType : IdlType → CType
  | .nil => .void
  | .ctype name => .ident name
  | .primitive _ (.mk _ (.ctype name) _) => .ident name
  | .primitive _ (.mk name _ _) => .ident name
  | .enum members => .enum members
  | .struct members => .struct (idlCgenDeclMembers members)
  | .vec subtype => .struct [("buf", .ptr (idlCgenDeclType subtype)), ("len", .ident "size_t")]

def idlCgenDeclMembers : IdlMembers → List (String × CType)
  | .nil => []
  | .cons name type rest => (name, idlCgenDeclType type) :: idlCgenDeclMembers rest

end

/-- `VoidSlice` -/
def voidSlice : CType := .struct [("len", .ident "size_t"), ("buf", .ptr .void)]

/-- The place of a field, in words, in a structure whose members are pointers and `size_t`. -/
def fieldWord (name : String) : CType → Option ℕ
  | .struct members => members.findIdx? (·.1 = name)
  | _ => none

/-- What stands in the memory of a type: a structure has the objects of its fields, and a vector the
two words of its structure.  What the functions of a `packfn` attribute write is not taken apart. -/
inductive Object where
  | leaf (value : Value)
  | struct (fields : List (String × Object))
  | slice (words : ℕ → UInt64)

def Object.leaf? : Object → Option Value
  | .leaf value => some value
  | _ => none

/-- The objects in the blocks that were allocated. -/
abbrev Blocks := UInt64 → Option (List Object)

/-- The objects from an address on. -/
def loadBlock (blocks : Blocks) (addr : UInt64) (count : ℕ) : Option (List Object) :=
  if count = 0 then some []
  else
    match blocks addr with
    | some objects => if count ≤ objects.length then some (objects.take count) else none
    | none => none

/-- The word of a field. -/
def readField (type : CType) (name : String) (words : ℕ → UInt64) : Option UInt64 := do
  let word ← fieldWord name type
  return words word

def writeField (type : CType) (name : String) (value : UInt64) (words : ℕ → UInt64) :
    Option (ℕ → UInt64) := do
  let word ← fieldWord name type
  return Function.update words word value

mutual

/-- The value of an object that is read through the declaration of its type. -/
def readObject (blocks : Blocks) : IdlType → Object → Option Value
  | .vec subtype, .slice words => do
    let len ← readField (idlCgenDeclType (.vec subtype)) "len" words
    let buf ← readField (idlCgenDeclType (.vec subtype)) "buf" words
    let objects ← loadBlock blocks buf len.toNat
    let elements ← objects.mapM (readObject blocks subtype)
    return .vec elements
  | .struct members, .struct fields => do
    let values ← readMembers blocks members fields
    return .struct values
  | .primitive _ named, object => readAlias blocks named object
  | .nil, .leaf value => some value
  | .ctype _, .leaf value => some value
  | .enum _, .leaf value => some value
  | _, _ => none

def readAlias (blocks : Blocks) : IdlAlias → Object → Option Value
  | .mk _ type attrs, object =>
    match idlAttrsGet attrs "packfn" with
    | some _ => object.leaf?
    | none => readObject blocks type object

def readMembers (blocks : Blocks) : IdlMembers → List (String × Object) →
    Option (List (String × Value))
  | .nil, [] => some []
  | .cons name type rest, field :: fields => do
    let value ← readObject blocks type field.2
    let others ← readMembers blocks rest fields
    return (name, value) :: others
  | _, _ => none

end

/-- The blocks, and how often `alloc_calloc` was called. -/
structure Memory where
  blocks : Blocks
  calls : ℕ

/-- A loop that unpacks the elements of a slice one after the other. -/
def storeElements (store : Value → Memory → Option (Object × Memory)) :
    List Value → Memory → Option (List Object × Memory)
  | [], memory => some ([], memory)
  | value :: rest, memory => do
    let (object, memory) ← store value memory
    let (objects, memory) ← storeElements store rest memory
    return (object :: objects, memory)

/-- The words of a structure that `ipc_unpack_slice_impl` writes through a `VoidSlice`. -/
def sliceWords (len : ℕ) (buf : UInt64) : Option (ℕ → UInt64) := do
  let words ← writeField voidSlice "len" (UInt64.ofNat len) fun _ ↦ 0
  writeField voidSlice "buf" buf words

mutual

/-- The object that is there when a value of a type was unpacked: at every level
`ipc_unpack_slice_impl` allocates the block of the elements, unpacks them into it and writes the
structure of the slice.  `addr` has the addresses that `alloc_calloc` returns, by its calls. -/
def storeObject (addr : ℕ → UInt64) : IdlType → Value → Memory → Option (Object × Memory)
  | .vec subtype, .vec elements, memory => do
    let buf := addr memory.calls
    let (objects, memory) ←
      storeElements (storeObject addr subtype) elements { memory with calls := memory.calls + 1 }
    let words ← sliceWords elements.length buf
    return (.slice words,
      { memory with blocks := Function.update memory.blocks buf (some objects) })
  | .struct members, .struct fields, memory => do
    let (objects, memory) ← storeMembers addr members fields memory
    return (.struct objects, memory)
  | .primitive _ named, value, memory => storeAlias addr named value memory
  | .nil, value, memory => some (.leaf value, memory)
  | .ctype _, value, memory => some (.leaf value, memory)
  | .enum _, value, memory => some (.leaf value, memory)
  | _, _, _ => none

def storeAlias (addr : ℕ → UInt64) : IdlAlias → Value → Memory → Option (Object × Memory)
  | .mk _ type attrs, value, memory =>
    match idlAttrsGet attrs "packfn" with
    | some _ => some (.leaf value, memory)
    | none => storeObject addr type value memory

def storeMembers (addr : ℕ → UInt64) : IdlMembers → List (String × Value) → Memory →
    Option (List (String × Object) × Memory)
  | .nil, [], memory => some ([], memory)
  | .cons name type rest, field :: fields, memory => do
    let (object, memory) ← storeObject addr type field.2 memory
    let (objects, memory) ← storeMembers addr rest fields memory
    return ((name, object) :: objects, memory)
  | _, _, _ => none

end

/-- The generated call of `ipc_pack_slice`, whose `slice_impl$` takes the fields by their names, as
does every call for a vector inside of it. -/
def ipcPackSliceOf (subtype : IdlType) (element : PackFn) (blocks : Blocks) (object : Object)
    (self : IpcPack) : Option IpcPack :=
  match readObject blocks (.vec subtype) object with
  | some (.vec elements) => ipcPackSlice element elements self
  | _ => none

/-- The generated call of `ipc_unpack_slice`. -/
def ipcUnpackSliceTo (subtype : IdlType) (element : UnpackFn) (zero : Value) (addr : ℕ → UInt64)
    (memory : Memory) (reader : IpcUnpack) : Option (Object × Memory × IpcUnpack) := do
  let (elements, reader) ← ipcUnpackSlice element zero reader
  let (object, memory) ← storeObject addr (.vec subtype) (.vec elements) memory
  return (object, memory, reader)

mutual

/-- The lengths of the vectors in a value, in the order in which their blocks are allocated. -/
def vecLengths : IdlType → Value → List ℕ
  | .vec subtype, .vec elements => elements.length :: elements.flatMap (vecLengths subtype)
  | .struct members, .struct fields => memberLengths members fields
  | .primitive _ named, value => aliasLengths named value
  | .nil, _ => []
  | .ctype _, _ => []
  | .enum _, _ => []
  | _, _ => []

def aliasLengths : IdlAlias → Value → List ℕ
  | .mk _ type attrs, value =>
    match idlAttrsGet attrs "packfn" with
    | some _ => []
    | none => vecLengths type value

def memberLengths : IdlMembers → List (String × Value) → List ℕ
  | .nil, _ => []
  | .cons _ type rest, field :: fields => vecLengths type field.2 ++ memberLengths rest fields
  | .cons _ _ _, [] => []

end

/-- From a call on, the addresses are the lengths. -/
def AddressesAre (addr : ℕ → UInt64) : ℕ → List ℕ → Prop
  | _, [] => True
  | call, len :: rest => addr call = UInt64.ofNat len ∧ AddressesAre addr (call + 1) rest

/-- Up to the call `last`, what `alloc_calloc` returns is not the address of a block that is there,
nor of another one that it returns. -/
structure Fresh (addr : ℕ → UInt64) (memory : Memory) (last : ℕ) : Prop where
  le : memory.calls ≤ last
  apart : ∀ j < last, ∀ i < j, memory.calls ≤ i → addr i ≠ addr j
  free : ∀ call, memory.calls ≤ call → call < last → memory.blocks (addr call) = none

/-- The fields stand in another order than those of `VoidSlice`. -/
theorem vec_fieldWord (subtype : IdlType) :
    fieldWord "len" (idlCgenDeclType (.vec subtype)) = some 1 ∧
      fieldWord "buf" (idlCgenDeclType (.vec subtype)) = some 0 ∧
      fieldWord "len" voidSlice = some 0 ∧ fieldWord "buf" voidSlice = some 1 := by
  have hvec : idlCgenDeclType (.vec subtype) =
      .struct [("buf", .ptr (idlCgenDeclType subtype)), ("len", .ident "size_t")] := by
    rw [idlCgenDeclType]
  rw [hvec]
  exact ⟨rfl, rfl, rfl, rfl⟩

theorem sliceWords_eq (len : ℕ) (buf : UInt64) :
    ∃ words, sliceWords len buf = some words ∧ words 0 = UInt64.ofNat len ∧ words 1 = buf :=
  ⟨_, rfl, rfl, rfl⟩

/-- A vector is read from its two words. -/
theorem readObject_vec (blocks : Blocks) (subtype : IdlType) (words : ℕ → UInt64) :
    readObject blocks (.vec subtype) (.slice words) =
      (loadBlock blocks (words 0) (words 1).toNat).bind fun objects ↦
        (objects.mapM (readObject blocks subtype)).map .vec := by
  obtain ⟨hlen, hbuf, -⟩ := vec_fieldWord subtype
  rw [readObject, readField, readField, hlen, hbuf]
  simp only [Option.pure_def, Option.bind_eq_bind, Option.bind_some]
  cases loadBlock blocks (words 0) (words 1).toNat with
  | none => rfl
  | some objects =>
    simp only [Option.bind_some]
    cases objects.mapM (readObject blocks subtype) <;> rfl

theorem length_loadBlock {blocks : Blocks} {addr : UInt64} {count : ℕ}
    (h : loadBlock blocks addr count = some objects) : objects.length = count := by
  rw [loadBlock] at h
  split at h
  next hzero =>
    cases h
    exact hzero.symm
  next =>
    split at h
    next found _ =>
      split at h
      next hle =>
        cases h
        exact List.length_take_of_le hle
      next => cases h
    next => cases h

theorem loadBlock_length {blocks : Blocks} {addr : UInt64} (h : blocks addr = some objects) :
    loadBlock blocks addr objects.length = some objects := by
  rw [loadBlock, h]
  split
  next hzero => rw [List.length_eq_zero_iff.mp hzero]
  next =>
    dsimp only
    rw [if_pos (Nat.le_refl _), List.take_length]

theorem length_mapM {α β : Type} {f : α → Option β} {items : List α} {results : List β}
    (h : items.mapM f = some results) : results.length = items.length := by
  induction items generalizing results with
  | nil =>
    cases h
    rfl
  | cons item items ih =>
    simp only [List.mapM_cons, Option.bind_eq_bind, Option.bind_eq_some_iff, Option.pure_def,
      Option.some.injEq] at h
    obtain ⟨first, -, rest, hrest, rfl⟩ := h
    rw [List.length_cons, ih hrest, List.length_cons]

section Addresses

variable {addr : ℕ → UInt64} {memory memory' : Memory} {last : ℕ}

theorem addressesAre_append (call : ℕ) (first second : List ℕ) :
    AddressesAre addr call (first ++ second) ↔
      AddressesAre addr call first ∧ AddressesAre addr (call + first.length) second := by
  induction first generalizing call with
  | nil => exact (and_iff_right trivial).symm
  | cons len first ih =>
    rw [List.cons_append, AddressesAre, AddressesAre, ih, and_assoc, List.length_cons,
      Nat.add_assoc, Nat.add_comm 1]

/-- Vectors of the given lengths were stored, each in a block of its own, and what was stored can be
read when their addresses are these lengths. -/
structure Stores (addr : ℕ → UInt64) (last : ℕ) (memory memory' : Memory) (lengths : List ℕ)
    (reads : Blocks → Prop) : Prop where
  calls : memory'.calls = memory.calls + lengths.length
  same : ∀ at', (∀ call, memory.calls ≤ call → call < memory'.calls → at' ≠ addr call) →
    memory'.blocks at' = memory.blocks at'
  fresh : Fresh addr memory' last
  reads : ∀ blocks : Blocks, (∀ at' objects, memory'.blocks at' = some objects →
    blocks at' = some objects) → (reads blocks ↔ AddressesAre addr memory.calls lengths)

theorem Stores.keeps (h : Stores addr last memory memory' lengths reads)
    (hfresh : Fresh addr memory last) {at' : UInt64} (hat : memory.blocks at' = some objects) :
    memory'.blocks at' = some objects := by
  rw [h.same at' fun call hcall hlt heq ↦ ?_, hat]
  rw [heq, hfresh.free call hcall (Nat.lt_of_lt_of_le hlt h.fresh.le)] at hat
  cases hat

/-- What needs no block. -/
theorem Stores.refl (hfresh : Fresh addr memory last) (hreads : ∀ blocks, reads blocks) :
    Stores addr last memory memory [] reads :=
  ⟨rfl, fun _ _ ↦ rfl, hfresh, fun blocks _ ↦ iff_of_true (hreads blocks) trivial⟩

/-- One after the other. -/
theorem Stores.trans {memory₂ : Memory} {first second : List ℕ} {reads reads' : Blocks → Prop}
    (h : Stores addr last memory memory' first reads)
    (h' : Stores addr last memory' memory₂ second reads') :
    Stores addr last memory memory₂ (first ++ second) fun blocks ↦
      reads blocks ∧ reads' blocks := by
  have hcalls := h.calls
  have hcalls' := h'.calls
  refine ⟨?_, fun at' hat ↦ ?_, h'.fresh, fun blocks hkeep ↦ ?_⟩
  · rw [hcalls', hcalls, List.length_append, Nat.add_assoc]
  · rw [h'.same at' fun call hcall hlt ↦ hat call (by omega) hlt,
      h.same at' fun call hcall hlt ↦ hat call hcall (by omega)]
  · rw [addressesAre_append, ← hcalls, h'.reads blocks hkeep, h.reads blocks fun at' objects hat ↦
      hkeep at' objects (h'.keeps h.fresh hat)]

theorem Stores.congr {reads reads' : Blocks → Prop}
    (h : Stores addr last memory memory' lengths reads)
    (hreads : ∀ blocks, reads' blocks ↔ reads blocks) :
    Stores addr last memory memory' lengths reads' :=
  ⟨h.calls, h.same, h.fresh, fun blocks hkeep ↦ (hreads blocks).trans (h.reads blocks hkeep)⟩

/-- Elements are stored one after the other. -/
theorem storeElements_stores {store : Value → Memory → Option (Object × Memory)}
    {read : Blocks → Object → Option Value} {lengths : Value → List ℕ}
    (hstore : ∀ element ∈ elements, ∀ memory, Fresh addr memory last →
      memory.calls + (lengths element).length ≤ last → ∃ object memory',
        store element memory = some (object, memory') ∧
          Stores addr last memory memory' (lengths element) fun blocks ↦
            read blocks object = some element) (hfresh : Fresh addr memory last)
    (hlast : memory.calls + (elements.flatMap lengths).length ≤ last) :
    ∃ objects memory', storeElements store elements memory = some (objects, memory') ∧
      objects.length = elements.length ∧
        Stores addr last memory memory' (elements.flatMap lengths) fun blocks ↦
          objects.mapM (read blocks) = some elements := by
  induction elements generalizing memory with
  | nil => exact ⟨[], memory, rfl, rfl, .refl hfresh fun _ ↦ rfl⟩
  | cons element elements ih =>
    rw [List.forall_mem_cons] at hstore
    rw [List.flatMap_cons, List.length_append] at hlast
    obtain ⟨object, memory₁, hobject, hfirst⟩ := hstore.1 memory hfresh (by omega)
    have hcalls := hfirst.calls
    obtain ⟨objects, memory₂, hobjects, hlength, hrest⟩ :=
      ih hstore.2 hfirst.fresh (by omega)
    refine ⟨object :: objects, memory₂, ?_, ?_, ?_⟩
    · rw [storeElements, hobject]
      simp only [Option.bind_eq_bind, Option.bind_some, hobjects, Option.pure_def]
    · rw [List.length_cons, hlength, List.length_cons]
    · rw [List.flatMap_cons]
      refine (hfirst.trans hrest).congr fun blocks ↦ ?_
      simp only [List.mapM_cons, Option.bind_eq_bind, Option.bind_eq_some_iff, Option.pure_def,
        Option.some.injEq, List.cons.injEq]
      constructor
      · rintro ⟨first, hread, rest, hreads, rfl, rfl⟩
        exact ⟨hread, hreads⟩
      · rintro ⟨hread, hreads⟩
        exact ⟨element, hread, elements, hreads, rfl, rfl⟩

/-- The block of the elements and the words of the structure. -/
theorem Stores.slice {memory₁ : Memory} {subtype : IdlType} {words : ℕ → UInt64}
    (hfresh : Fresh addr memory last) (hlt : memory.calls < last)
    (hlength : objects.length = elements.length) (hsize : elements.length < 2 ^ 64)
    (h : Stores addr last { memory with calls := memory.calls + 1 } memory₁ lengths fun blocks ↦
      objects.mapM (readObject blocks subtype) = some elements)
    (hwords : words 0 = UInt64.ofNat elements.length ∧ words 1 = addr memory.calls) :
    Stores addr last memory
      { memory₁ with blocks := Function.update memory₁.blocks (addr memory.calls) (some objects) }
      (elements.length :: lengths) fun blocks ↦
        readObject blocks (.vec subtype) (.slice words) = some (.vec elements) := by
  have hcalls : memory₁.calls = memory.calls + 1 + lengths.length := h.calls
  have hapart : ∀ call, memory.calls + 1 ≤ call → call < last → addr memory.calls ≠ addr call :=
    fun call hcall hlt ↦ hfresh.apart call hlt memory.calls hcall (Nat.le_refl _)
  have hnew : memory₁.blocks (addr memory.calls) = none := by
    rw [h.same _ fun call hcall hlt ↦ hapart call hcall (Nat.lt_of_lt_of_le hlt h.fresh.le)]
    exact hfresh.free _ (Nat.le_refl _) hlt
  refine ⟨?_, fun at' hat ↦ ?_, ⟨h.fresh.le, h.fresh.apart, fun call hcall hlt ↦ ?_⟩,
    fun blocks hkeep ↦ ?_⟩
  · rw [hcalls, List.length_cons]
    omega
  · dsimp only at hat ⊢
    rw [Function.update_of_ne (hat memory.calls (Nat.le_refl _) (by omega))]
    exact h.same at' fun call hcall hlt ↦ hat call (Nat.le_of_succ_le hcall) hlt
  · dsimp only at hcall ⊢
    rw [Function.update_of_ne (hapart call (by omega) hlt).symm, h.fresh.free call hcall hlt]
  · have hblock : blocks (addr memory.calls) = some objects :=
      hkeep _ _ (Function.update_self ..)
    have hinner := h.reads blocks fun at' found hat ↦ hkeep at' found (by
      dsimp only
      rw [Function.update_of_ne, hat]
      rintro rfl
      rw [hnew] at hat
      cases hat)
    rw [readObject_vec, hwords.1, hwords.2, AddressesAre, ← hinner]
    have hcount : (UInt64.ofNat elements.length).toNat = elements.length := by
      rw [UInt64.toNat_ofNat']
      exact Nat.mod_eq_of_lt hsize
    have hload : addr memory.calls = UInt64.ofNat elements.length →
        loadBlock blocks (UInt64.ofNat elements.length) (addr memory.calls).toNat =
          some objects := by
      intro heq
      rw [heq, hcount, ← hlength]
      exact loadBlock_length (by rw [hlength, ← heq, hblock])
    constructor
    · intro hread
      obtain ⟨loaded, hloaded, hread⟩ := Option.bind_eq_some_iff.mp hread
      obtain ⟨read, hread, heq⟩ := Option.map_eq_some_iff.mp hread
      cases heq
      have haddr : addr memory.calls = UInt64.ofNat elements.length := by
        rw [length_mapM hread, length_loadBlock hloaded, UInt64.ofNat_toNat]
      rw [hload haddr] at hloaded
      cases hloaded
      exact ⟨haddr, hread⟩
    · rintro ⟨haddr, hread⟩
      rw [hload haddr, Option.bind_some, hread]
      rfl

end Addresses

section Types

variable {addr : ℕ → UInt64} {program : Program} {last : ℕ}

mutual

/-- What is stored of a type is read again exactly when every address is the length of its
vector. -/
theorem storeObject_stores (type : IdlType) {value : Value} (hvalue : HasType program type value)
    {memory : Memory} (hfresh : Fresh addr memory last)
    (hlast : memory.calls + (vecLengths type value).length ≤ last) : ∃ object memory',
      storeObject addr type value memory = some (object, memory') ∧
        Stores addr last memory memory' (vecLengths type value) fun blocks ↦
          readObject blocks type object = some value := by
  cases type with
  | nil =>
    refine ⟨.leaf value, memory, ?_, ?_⟩
    · rw [storeObject]
    · rw [vecLengths]
      exact .refl hfresh fun blocks ↦ by rw [readObject]
  | ctype name =>
    refine ⟨.leaf value, memory, ?_, ?_⟩
    · rw [storeObject]
    · rw [vecLengths]
      exact .refl hfresh fun blocks ↦ by rw [readObject]
  | enum members =>
    refine ⟨.leaf value, memory, ?_, ?_⟩
    · rw [storeObject]
    · rw [vecLengths]
      exact .refl hfresh fun blocks ↦ by rw [readObject]
  | primitive name named =>
    rw [vecLengths] at hlast
    obtain ⟨object, memory', hstore, hstores⟩ := storeAlias_stores named hvalue hfresh hlast
    refine ⟨object, memory', ?_, ?_⟩
    · rw [storeObject, hstore]
    · rw [vecLengths]
      exact hstores.congr fun blocks ↦ by rw [readObject]
  | struct members =>
    obtain ⟨fields, rfl, -, hfields⟩ := hvalue
    rw [vecLengths] at hlast
    obtain ⟨objects, memory', hstore, hstores⟩ := storeMembers_stores members hfields hfresh hlast
    refine ⟨.struct objects, memory', ?_, ?_⟩
    · rw [storeObject, hstore]
      rfl
    · rw [vecLengths]
      refine hstores.congr fun blocks ↦ ?_
      rw [readObject]
      cases readMembers blocks members objects with
      | none => exact iff_of_false (Option.some_ne_none _).symm (Option.some_ne_none _).symm
      | some values =>
        simp only [Option.pure_def, Option.bind_eq_bind, Option.bind_some, Option.some.injEq,
          Value.struct.injEq]
  | vec subtype =>
    obtain ⟨elements, rfl, hsize, helements⟩ := hvalue
    rw [vecLengths, List.length_cons] at hlast
    have hlt : memory.calls < last := by omega
    have hnext : Fresh addr { memory with calls := memory.calls + 1 } last :=
      ⟨hlt, fun j hj i hij hi ↦ hfresh.apart j hj i hij (Nat.le_of_succ_le hi),
        fun call hcall hlt ↦ hfresh.free call (Nat.le_of_succ_le hcall) hlt⟩
    have hrest : memory.calls + 1 + (elements.flatMap (vecLengths subtype)).length ≤ last := by
      omega
    obtain ⟨objects, memory₁, hobjects, hlength, hstores⟩ :=
      storeElements_stores (fun element helement memory hfresh hlast ↦
        storeObject_stores subtype (helements element helement) hfresh hlast) hnext hrest
    obtain ⟨words, hwords, hlen, hbuf⟩ := sliceWords_eq elements.length (addr memory.calls)
    refine ⟨.slice words, { memory₁ with
      blocks := Function.update memory₁.blocks (addr memory.calls) (some objects) }, ?_, ?_⟩
    · rw [storeObject]
      simp only [hobjects, hwords, Option.bind_eq_bind, Option.bind_some, Option.pure_def]
    · rw [vecLengths]
      exact hstores.slice hfresh hlt hlength hsize ⟨hlen, hbuf⟩

theorem storeAlias_stores (named : IdlAlias) {value : Value}
    (hvalue : HasTypeAlias program named value) {memory : Memory} (hfresh : Fresh addr memory last)
    (hlast : memory.calls + (aliasLengths named value).length ≤ last) :
    ∃ object memory', storeAlias addr named value memory = some (object, memory') ∧
      Stores addr last memory memory' (aliasLengths named value) fun blocks ↦
        readAlias blocks named object = some value := by
  cases named with
  | mk name type attrs =>
    rw [HasTypeAlias] at hvalue
    rw [aliasLengths] at hlast
    rw [storeAlias, aliasLengths]
    cases hattr : idlAttrsGet attrs "packfn" with
    | some attr =>
      refine ⟨.leaf value, memory, rfl, .refl hfresh fun blocks ↦ ?_⟩
      rw [readAlias, hattr]
      rfl
    | none =>
      rw [hattr] at hvalue hlast
      obtain ⟨object, memory', hstore, hstores⟩ := storeObject_stores type hvalue hfresh hlast
      refine ⟨object, memory', hstore, hstores.congr fun blocks ↦ ?_⟩
      rw [readAlias, hattr]

theorem storeMembers_stores (members : IdlMembers) {fields : List (String × Value)}
    (hfields : HasMembers program members fields) {memory : Memory}
    (hfresh : Fresh addr memory last)
    (hlast : memory.calls + (memberLengths members fields).length ≤ last) :
    ∃ objects memory', storeMembers addr members fields memory = some (objects, memory') ∧
      Stores addr last memory memory' (memberLengths members fields) fun blocks ↦
        readMembers blocks members objects = some fields := by
  cases members with
  | nil =>
    rw [HasMembers] at hfields
    subst hfields
    refine ⟨[], memory, ?_, ?_⟩
    · rw [storeMembers]
    · rw [memberLengths]
      exact .refl hfresh fun blocks ↦ by rw [readMembers]
  | cons name type rest =>
    obtain ⟨value, others, rfl, hvalue, hothers⟩ := hfields
    rw [memberLengths, List.length_append] at hlast
    dsimp only at hlast
    obtain ⟨object, memory₁, hobject, hfirst⟩ :=
      storeObject_stores type hvalue hfresh (by omega)
    have hcalls := hfirst.calls
    obtain ⟨objects, memory₂, hobjects, hrest⟩ :=
      storeMembers_stores rest hothers hfirst.fresh (by omega)
    refine ⟨(name, object) :: objects, memory₂, ?_, ?_⟩
    · rw [storeMembers]
      simp only [hobject, hobjects, Option.bind_eq_bind, Option.bind_some, Option.pure_def]
    · rw [memberLengths]
      refine (hfirst.trans hrest).congr fun blocks ↦ ?_
      rw [readMembers]
      simp only [Option.bind_eq_bind, Option.bind_eq_some_iff, Option.pure_def, Option.some.injEq,
        List.cons.injEq, Prod.mk.injEq]
      constructor
      · rintro ⟨first, hread, values, hreads, ⟨-, rfl⟩, rfl⟩
        exact ⟨hread, hreads⟩
      · rintro ⟨hread, hreads⟩
        exact ⟨value, hread, others, hreads, ⟨trivial, rfl⟩, rfl⟩

end

end Types

theorem unpackSlice_eq_some {element : UnpackFn} {zero old : Value} {reader reader' : IpcUnpack}
    (h : unpackSlice element zero old reader = some (.vec elements, reader')) :
    ipcUnpackSlice element zero reader = some (elements, reader') := by
  unfold unpackSlice at h
  cases hslice : ipcUnpackSlice element zero reader with
  | none =>
    rw [hslice] at h
    cases h
  | some found =>
    rw [hslice] at h
    cases h
    rfl

/-- A vector that is packed from the structure `object` is unpacked into another one that says the
same number of elements and has the same elements. -/
def VecRoundTrips (subtype : IdlType) (pack : PackFn) (unpack : UnpackFn) (zero : Value)
    (addr : ℕ → UInt64) (source : Blocks) (object : Object) (dest : Memory) (self : IpcPack) :
    Prop :=
  ∃ packed object' dest' reader,
    ipcPackSliceOf subtype pack source object self = some packed ∧
    ipcUnpackSliceTo subtype unpack zero addr dest
      ⟨packed.bytes, self.bytes.length, packed.handles, self.handles.length⟩ =
        some (object', dest', reader) ∧
    readObject dest'.blocks (.vec subtype) object' = readObject source (.vec subtype) object

/-- A vector that was packed is unpacked as it was exactly when the address of the new elements of
each vector in it happens to be their number. -/
theorem vec_roundTrips_iff {program : Program} {name : String} {named : IdlAlias}
    (hresolved : ResolvedAlias program named) :
    ∃ fn fn' depth, idlCgenPackName named = some fn ∧ idlCgenUnpackName named = some fn' ∧
      ∀ fuel ≥ depth, ∀ (source : Blocks) (object : Object) (elements : List Value),
        readObject source (.vec (.primitive name named)) object = some (.vec elements) →
        HasType program (.vec (.primitive name named)) (.vec elements) →
        ∀ self : IpcPack,
          self.handles.length + (Value.vec elements).handles.length ≤ brMsgArgCount - 1 →
          ∀ (addr : ℕ → UInt64) (dest : Memory),
            Fresh addr dest
              (dest.calls + (vecLengths (.vec (.primitive name named)) (.vec elements)).length) →
            (VecRoundTrips (.primitive name named) (applyPack program fuel fn)
                (applyUnpack program fuel fn') (zeroed program (.primitive name named)) addr source
                object dest self ↔
              AddressesAre addr dest.calls
                (vecLengths (.vec (.primitive name named)) (.vec elements))) := by
  obtain ⟨fn, fn', hfn, hfn'⟩ := hresolved.names
  obtain ⟨depth, hcodes⟩ := alias_codes named hresolved
  refine ⟨fn, fn', depth, hfn, hfn', ?_⟩
  intro fuel hfuel source object elements hsource hvalue self hroom addr dest hfresh
  obtain ⟨object', dest', hstore, hstores⟩ :=
    storeObject_stores (.vec (.primitive name named)) hvalue hfresh (Nat.le_refl _)
  obtain ⟨found, heq, hsize, helements⟩ := hvalue
  cases heq
  obtain ⟨bytes, hbytes⟩ := elements_codes name hfn hfn' hsize fun element helement ↦
    hcodes element (helements element helement)
  have hslice := hbytes fuel hfuel
  obtain ⟨packed, hpacked, happends⟩ := hslice.packs self hroom
  have hpack : ipcPackSliceOf (.primitive name named) (applyPack program fuel fn) source object
      self = some packed := by
    rw [ipcPackSliceOf, hsource]
    exact hpacked
  have hreads := happends.reads hroom [] []
  rw [List.append_nil, List.append_nil] at hreads
  obtain ⟨reader, hunpack⟩ : ∃ reader, ipcUnpackSlice (applyUnpack program fuel fn')
      (zeroed program (.primitive name named)) ⟨packed.bytes, self.bytes.length, packed.handles,
        self.handles.length⟩ = some (elements, reader) :=
    ⟨_, unpackSlice_eq_some (hslice.unpacks .void _ trivial hreads)⟩
  rw [← hstores.reads dest'.blocks fun _ _ hat ↦ hat, ← hsource]
  constructor
  · rintro ⟨packed', found', foundDest, reader', hpack', hto, hsame⟩
    cases hpack.symm.trans hpack'
    rw [ipcUnpackSliceTo, hunpack] at hto
    simp only [Option.bind_eq_bind, Option.bind_some, hstore, Option.pure_def] at hto
    cases hto
    exact hsame
  · intro hsame
    refine ⟨packed, object', dest', reader, hpack, ?_, hsame⟩
    rw [ipcUnpackSliceTo, hunpack]
    simp only [Option.bind_eq_bind, Option.bind_some, hstore, Option.pure_def]

/-- The word that is read as the number of elements has the address of the elements. -/
theorem VecRoundTrips.addr_eq {subtype : IdlType} {pack : PackFn} {unpack : UnpackFn} {zero : Value}
    {addr : ℕ → UInt64} {source : Blocks} {object : Object} {dest : Memory} {self : IpcPack}
    (h : VecRoundTrips subtype pack unpack zero addr source object dest self)
    (hsource : readObject source (.vec subtype) object = some (.vec elements)) :
    addr dest.calls = UInt64.ofNat elements.length := by
  obtain ⟨packed, object', dest', reader, -, hto, hsame⟩ := h
  rw [hsource] at hsame
  rw [ipcUnpackSliceTo] at hto
  simp only [Option.bind_eq_bind, Option.bind_eq_some_iff, Option.pure_def] at hto
  obtain ⟨⟨found, reader'⟩, -, ⟨object'', dest''⟩, hstore, heq⟩ := hto
  cases heq
  rw [storeObject] at hstore
  simp only [Option.bind_eq_bind, Option.bind_eq_some_iff, Option.pure_def] at hstore
  obtain ⟨⟨objects, memory⟩, -, words, hwords, heq⟩ := hstore
  cases heq
  cases hwords
  rw [readObject_vec] at hsame
  obtain ⟨loaded, hloaded, hread⟩ := Option.bind_eq_some_iff.mp hsame
  obtain ⟨read, hread, heq⟩ := Option.map_eq_some_iff.mp hread
  cases heq
  have hlength := length_loadBlock hloaded
  rw [← length_mapM hread] at hlength
  rw [hlength, UInt64.ofNat_toNat]
  rfl

/-- A slice of bytes under a name, whose functions call `ipc_pack_slice` and `ipc_unpack_slice`. -/
def bytesAlias : IdlAlias := .mk "Bytes" (.vec (.primitive "U8" byteAlias)) []

def bytesProgram : Program where
  sizeof := fun _ ↦ 1
  holds := fun _ _ ↦ False
  pack := fun name ↦
    if name = "ipc_pack_bytes" then
      some (.generated [.slice "ipc_pack_slice" .data "ipc_pack_u8" (.primitive "U8" byteAlias)])
    else some (.generated [.pod "ipc_pack_pod" .data (.ctype "uint8_t")])
  unpack := fun name ↦
    if name = "ipc_unpack_bytes" then
      some
        (.generated [.slice "ipc_unpack_slice" .data "ipc_unpack_u8" (.primitive "U8" byteAlias)])
    else some (.generated [.pod "ipc_unpack_pod" .data (.ctype "uint8_t")])

theorem bytesAlias_resolved : ResolvedAlias bytesProgram bytesAlias :=
  ⟨_, _, rfl, rfl, rfl, rfl, ⟨_, _, rfl⟩, ⟨_, _, rfl, rfl, rfl, rfl, trivial⟩⟩

/-- A vector of two slices, of which the first has one byte and the second has none. -/
def bytesVec : Object := .slice fun word ↦ if word = 0 then 4096 else 2

def bytesBlocks : Blocks := fun addr ↦
  if addr = 4096 then
    some [.slice fun word ↦ if word = 0 then 8192 else 1, .slice fun _ ↦ 0]
  else if addr = 8192 then some [.leaf (.pod [7])] else none

theorem readObject_bytesVec :
    readObject bytesBlocks (.vec (.primitive "Bytes" bytesAlias)) bytesVec =
      some (.vec [.vec [.pod [7]], .vec []]) := by
  rw [bytesVec, readObject_vec]
  rfl

theorem hasType_bytesVec :
    HasType bytesProgram (.vec (.primitive "Bytes" bytesAlias))
      (.vec [.vec [.pod [7]], .vec []]) := by
  refine ⟨_, rfl, by decide, fun element helement ↦ ?_⟩
  simp only [List.mem_cons, List.not_mem_nil, or_false] at helement
  obtain rfl | rfl := helement
  · refine ⟨_, rfl, by decide, fun byte hbyte ↦ ?_⟩
    cases List.mem_singleton.mp hbyte
    exact ⟨_, rfl, rfl⟩
  · exact ⟨_, rfl, by decide, fun byte hbyte ↦ absurd hbyte List.not_mem_nil⟩

/-- Two slices of bytes come back from the addresses 2, 1 and 0, and not when that of the byte is
another one. -/
theorem vec_roundTrips_iff_bytes :
    ∃ fn fn' depth, idlCgenPackName bytesAlias = some fn ∧
      idlCgenUnpackName bytesAlias = some fn' ∧
      ∀ fuel ≥ depth,
        VecRoundTrips (.primitive "Bytes" bytesAlias) (applyPack bytesProgram fuel fn)
          (applyUnpack bytesProgram fuel fn')
          (zeroed bytesProgram (.primitive "Bytes" bytesAlias)) (fun call ↦ UInt64.ofNat (2 - call))
          bytesBlocks bytesVec ⟨fun _ ↦ none, 0⟩ ipcPackInit ∧
        ¬ VecRoundTrips (.primitive "Bytes" bytesAlias) (applyPack bytesProgram fuel fn)
          (applyUnpack bytesProgram fuel fn')
          (zeroed bytesProgram (.primitive "Bytes" bytesAlias))
          (fun call ↦ if call = 1 then 12288 else UInt64.ofNat (2 - call))
          bytesBlocks bytesVec ⟨fun _ ↦ none, 0⟩ ipcPackInit := by
  obtain ⟨fn, fn', depth, hfn, hfn', hiff⟩ := vec_roundTrips_iff bytesAlias_resolved
  have hroom : ipcPackInit.handles.length +
      (Value.vec [.vec [.pod [7]], .vec []]).handles.length ≤ brMsgArgCount - 1 := by
    simp [Value.handles_vec, ipcPackInit]
  refine ⟨fn, fn', depth, hfn, hfn', fun fuel hfuel ↦ ⟨?_, fun hround ↦ ?_⟩⟩
  · refine (hiff fuel hfuel bytesBlocks bytesVec _ readObject_bytesVec hasType_bytesVec
      ipcPackInit hroom _ _ ⟨by decide, ?_, fun _ _ _ ↦ rfl⟩).mpr ⟨rfl, rfl, rfl, trivial⟩
    decide
  · have haddr := (hiff fuel hfuel bytesBlocks bytesVec _ readObject_bytesVec hasType_bytesVec
      ipcPackInit hroom _ _ ⟨by decide, ?_, fun _ _ _ ↦ rfl⟩).mp hround
    · exact absurd haddr.2.1 (by decide)
    · decide

/-- A vector of one byte, whose elements stand at the address 4096. -/
def byteVec : Object := .slice fun word ↦ if word = 0 then 4096 else 1

def byteBlocks : Blocks := fun addr ↦ if addr = 4096 then some [.leaf (.pod [7])] else none

/-- With its elements at the address 8192 a vector of one byte comes back with 8192 elements. -/
theorem vec_roundTrips_fails :
    ¬ ∀ (program : Program) (name : String) (named : IdlAlias), ResolvedAlias program named →
      ∃ fn fn' depth, idlCgenPackName named = some fn ∧ idlCgenUnpackName named = some fn' ∧
        ∀ fuel ≥ depth, ∀ (source : Blocks) (object : Object) (elements : List Value),
          readObject source (.vec (.primitive name named)) object = some (.vec elements) →
          HasType program (.vec (.primitive name named)) (.vec elements) →
          ∀ self : IpcPack,
            self.handles.length + (Value.vec elements).handles.length ≤ brMsgArgCount - 1 →
            ∀ (addr : ℕ → UInt64) (dest : Memory),
              Fresh addr dest
                (dest.calls + (vecLengths (.vec (.primitive name named)) (.vec elements)).length) →
              VecRoundTrips (.primitive name named) (applyPack program fuel fn)
                (applyUnpack program fuel fn') (zeroed program (.primitive name named)) addr source
                object dest self := by
  intro hall
  obtain ⟨fn, fn', depth, _, _, hround⟩ := hall byteProgram "U8" byteAlias
    ⟨_, _, rfl, rfl, rfl, rfl, trivial⟩
  have hread : readObject byteBlocks (.vec (.primitive "U8" byteAlias)) byteVec =
      some (.vec [.pod [7]]) := by
    rw [byteVec, readObject_vec]
    rfl
  have htype : HasType byteProgram (.vec (.primitive "U8" byteAlias)) (.vec [.pod [7]]) := by
    refine ⟨_, rfl, by decide, fun element helement ↦ ?_⟩
    cases List.mem_singleton.mp helement
    exact ⟨_, rfl, rfl⟩
  have hbyte := hround depth le_rfl byteBlocks byteVec [.pod [7]] hread htype ipcPackInit
    (by simp [Value.handles_vec, ipcPackInit]) (fun _ ↦ 8192) ⟨fun _ ↦ none, 0⟩
    ⟨by decide, by decide, fun _ _ _ ↦ rfl⟩
  have haddr : (8192 : UInt64) = UInt64.ofNat 1 := hbyte.addr_eq hread
  exact absurd haddr (by decide)

end Brutal.Idl
