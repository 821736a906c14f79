import Brutal.Idl.Cgen
import Mathlib.Data.List.Basic

/-!
# Unpacking gives back what was packed

For every resolved type the statements that pack a value and those that unpack it call functions
that are inverse to each other, in the same order and on the same paths.  The proof follows the
type: what is known of the function of an alias is used where the alias is referred to.
-/

namespace Brutal.Idl

open Base Ipc Lib

variable {name : String} {fields : List (String × Value)} {value old object written : Value}
  {path : Path} {program : Program} {bytes : List UInt8} {type : IdlType} {named : IdlAlias}
  {depth : ℕ}

attribute [local grind =] setField getField packStmts unpackStmts packStmt unpackStmt

theorem setField_of_getField (h : getField name fields = some value) :
    setField name value fields = fields := by
  induction fields with
  | nil => cases h
  | cons field rest ih =>
    rw [getField] at h
    rw [setField]
    split at h
    · next hname =>
      cases h
      rw [if_pos hname, ← hname]
    · next hname => rw [if_neg hname, ih h]

theorem getField_setField (h : getField name fields = some old) :
    getField name (setField name value fields) = some value := by
  induction fields with
  | nil => cases h
  | cons field rest ih =>
    rw [getField] at h
    rw [setField]
    split at h
    · next hname => rw [if_pos hname, getField, if_pos rfl]
    · next hname => rw [if_neg hname, getField, if_neg hname, ih h]

theorem setField_setField {value value' : Value} :
    setField name value' (setField name value fields) = setField name value' fields := by
  induction fields with
  | nil => rfl
  | cons field rest ih =>
    by_cases hname : field.1 = name
    · grind
    · grind

theorem getField_append {before after : List (String × Value)} (h : name ∉ before.map Prod.fst) :
    getField name (before ++ (name, value) :: after) = some value := by
  induction before with
  | nil => simp [getField]
  | cons field rest ih =>
    rw [List.map_cons, List.mem_cons, not_or] at h
    rw [List.cons_append, getField, if_neg (fun heq ↦ h.1 heq.symm)]
    exact ih h.2

theorem setField_append {before after : List (String × Value)} (h : name ∉ before.map Prod.fst) :
    setField name value (before ++ (name, old) :: after) = before ++ (name, value) :: after := by
  induction before with
  | nil => simp [setField]
  | cons field rest ih =>
    rw [List.map_cons, List.mem_cons, not_or] at h
    rw [List.cons_append, setField, if_neg (fun heq ↦ h.1 heq.symm), ih h.2]
    rfl

namespace Path

theorem read_member (h : (path.member name).read object = some value) :
    ∃ fields, path.read object = some (.struct fields) ∧ getField name fields = some value := by
  unfold Path.read at h
  cases hread : path.read object with
  | none => simp [hread] at h
  | some base =>
    cases base with
    | struct fields => exact ⟨fields, rfl, by simpa [hread] using h⟩
    | _ => simp [hread] at h

theorem write_member (hread : path.read object = some (.struct fields))
    (hfield : getField name fields = some old) :
    (path.member name).write value object =
      path.write (.struct (setField name value fields)) object := by
  rw [Path.write]
  simp only [hread, hfield]

/-- Writing what is there changes nothing. -/
theorem write_read (h : path.read object = some value) : path.write value object = some object := by
  induction path generalizing value with
  | data =>
    cases h
    rfl
  | member path name ih =>
    obtain ⟨fields, hread, hfield⟩ := read_member h
    rw [write_member hread hfield, setField_of_getField hfield]
    exact ih hread

/-- There is room for another value of the object. -/
theorem write_some (h : path.read object = some old) (value : Value) :
    ∃ written, path.write value object = some written := by
  induction path generalizing old value with
  | data => exact ⟨value, rfl⟩
  | member path name ih =>
    obtain ⟨fields, hread, hfield⟩ := read_member h
    rw [write_member hread hfield]
    exact ih hread _

theorem read_of_write (h : path.write value object = some written) :
    ∃ old, path.read object = some old := by
  cases path with
  | data => exact ⟨object, rfl⟩
  | member path name =>
    unfold Path.write at h
    split at h
    · next fields hread =>
      split at h
      · next old hfield => exact ⟨old, by simp [Path.read, hread, hfield]⟩
      · cases h
    · cases h

theorem read_write (h : path.write value object = some written) :
    path.read written = some value := by
  induction path generalizing value with
  | data =>
    cases h
    rfl
  | member path name ih =>
    obtain ⟨old, hold⟩ := read_of_write h
    obtain ⟨fields, hread, hfield⟩ := read_member hold
    rw [write_member hread hfield] at h
    simp [Path.read, ih h, getField_setField hfield]

/-- Only the last value that is written counts. -/
theorem write_write {object value value' written : Value}
    (h : path.write value object = some written) :
    path.write value' written = path.write value' object := by
  induction path generalizing value value' with
  | data => rfl
  | member path name ih =>
    obtain ⟨old, hold⟩ := read_of_write h
    obtain ⟨fields, hread, hfield⟩ := read_member hold
    rw [write_member hread hfield] at h ⊢
    rw [write_member (read_write h) (getField_setField hfield), setField_setField]
    exact ih h

end Path

mutual

/-- The value is one of the type. -/
def HasType (program : Program) : IdlType → Value → Prop
  | .nil, value => value = .void
  | .ctype name, value => ∃ bytes, value = .pod bytes ∧ bytes.length = program.sizeof name
  | .primitive _ named, value => HasTypeAlias program named value
  | .enum _, value => ∃ bytes, value = .pod bytes ∧ bytes.length = 4
  | .struct members, value => ∃ fields, value = .struct fields ∧
      (fields.map Prod.fst).Nodup ∧ HasMembers program members fields
  | .vec subtype, value => ∃ elements, value = .vec elements ∧ elements.length < 2 ^ 64 ∧
      ∀ element ∈ elements, HasType program subtype element

def HasTypeAlias (program : Program) : IdlAlias → Value → Prop
  | .mk name type attrs, value =>
    match idlAttrsGet attrs "packfn" with
    | some _ => program.holds name value
    | none => HasType program type value

def HasMembers (program : Program) : IdlMembers → List (String × Value) → Prop
  | .nil, fields => fields = []
  | .cons name type rest, fields => ∃ value others, fields = (name, value) :: others ∧
      HasType program type value ∧ HasMembers program rest others

end

mutual

/-- The value is what memory of the type holds, as far as its members go. -/
def Shaped (program : Program) : IdlType → Value → Prop
  | .nil, value => value = .void
  | .primitive _ named, value => ShapedAlias program named value
  | .struct members, value => ∃ fields, value = .struct fields ∧
      ShapedMembers program members fields
  | _, _ => True

def ShapedAlias (program : Program) : IdlAlias → Value → Prop
  | .mk _ type attrs, value =>
    match idlAttrsGet attrs "packfn" with
    | some _ => True
    | none => Shaped program type value

def ShapedMembers (program : Program) : IdlMembers → List (String × Value) → Prop
  | .nil, fields => fields = []
  | .cons name type rest, fields => ∃ value others, fields = (name, value) :: others ∧
      Shaped program type value ∧ ShapedMembers program rest others

end

mutual

/-- Slices have a primitive type, and the program has the functions of every alias: those that were
generated for it, or those that its attribute names, which are inverse to each other. -/
def Resolved (program : Program) : IdlType → Prop
  | .nil => True
  | .ctype _ => True
  | .primitive _ named => ResolvedAlias program named
  | .enum _ => True
  | .struct members => ResolvedMembers program members
  | .vec subtype => (∃ name named, subtype = .primitive name named) ∧ Resolved program subtype

def ResolvedAlias (program : Program) : IdlAlias → Prop
  | .mk name type attrs =>
    match idlAttrsGet attrs "packfn" with
    | some attr => ∃ packName unpackName more pack unpack,
        attr.args = packName :: unpackName :: more ∧
        program.pack packName = some (.external pack) ∧
        program.unpack unpackName = some (.external unpack) ∧
        ∀ value, program.holds name value →
          ∃ bytes, Codes pack unpack (fun _ ↦ True) value bytes
    | none => ∃ body body',
        idlCgenPackBody type .data = some body ∧ idlCgenUnpackBody type .data = some body' ∧
        program.pack ("ipc_pack_" ++ caseToSnake name) = some (.generated body) ∧
        program.unpack ("ipc_unpack_" ++ caseToSnake name) = some (.generated body') ∧
        Resolved program type

def ResolvedMembers (program : Program) : IdlMembers → Prop
  | .nil => True
  | .cons _ type rest => Resolved program type ∧ ResolvedMembers program rest

end

mutual

theorem shaped_zeroed (program : Program) (type : IdlType) :
    Shaped program type (zeroed program type) := by
  cases type with
  | nil => rfl
  | primitive name named => exact shaped_zeroedAlias program named
  | struct members => exact ⟨_, rfl, shaped_zeroedMembers program members⟩
  | ctype name => trivial
  | enum members => trivial
  | vec subtype => trivial

theorem shaped_zeroedAlias (program : Program) (named : IdlAlias) :
    ShapedAlias program named (zeroedAlias program named) := by
  cases named with
  | mk name type attrs =>
    unfold ShapedAlias zeroedAlias
    cases idlAttrsGet attrs "packfn" with
    | some attr => trivial
    | none => exact shaped_zeroed program type

theorem shaped_zeroedMembers (program : Program) (members : IdlMembers) :
    ShapedMembers program members (zeroedMembers program members) := by
  cases members with
  | nil => rfl
  | cons name type rest =>
    exact ⟨_, _, rfl, shaped_zeroed program type, shaped_zeroedMembers program rest⟩

end

/-! ## Bodies that are inverse to each other -/

/-- The statements generated for a type, at any path and with calls that may nest deep enough, pack
the value there and unpack it again. -/
def BodyCodes (program : Program) (type : IdlType) (value : Value) (bytes : List UInt8)
    (depth : ℕ) : Prop :=
  ∀ fuel ≥ depth, ∀ path, ∃ body body',
    idlCgenPackBody type path = some body ∧ idlCgenUnpackBody type path = some body' ∧
    (∀ data self, path.read data = some value →
      self.handles.length + value.handles.length ≤ maxHandles →
      ∃ next, packStmts program (applyPack program fuel) body data self = some next ∧
        Appends self next bytes value.handles) ∧
    ∀ data old reader, path.read data = some old → Shaped program type old →
      Reads reader bytes value.handles →
      ∃ data', path.write value data = some data' ∧
        unpackStmts program (applyUnpack program fuel) body' data reader =
          some (data', reader.advance bytes.length value.handles.length)

/-- One call of a pair of functions that are inverse to each other. -/
theorem call_codes {fuel : ℕ} {fn fn' : String} {shape : Value → Prop}
    (h : Codes (applyPack program fuel fn) (applyUnpack program fuel fn') shape value bytes) :
    (∀ data self, path.read data = some value →
      self.handles.length + value.handles.length ≤ maxHandles →
      ∃ next, packStmts program (applyPack program fuel) [.call fn path] data self = some next ∧
        Appends self next bytes value.handles) ∧
    ∀ data old reader, path.read data = some old → shape old →
      Reads reader bytes value.handles →
      ∃ data', path.write value data = some data' ∧
        unpackStmts program (applyUnpack program fuel) [.call fn' path] data reader =
          some (data', reader.advance bytes.length value.handles.length) := by
  constructor
  · intro data self hread hroom
    obtain ⟨next, hnext, happends⟩ := h.packs self hroom
    exact ⟨next, by simp [packStmts, packStmt, hread, hnext], happends⟩
  · intro data old reader hread hshape hreads
    obtain ⟨data', hwrite⟩ := Path.write_some hread value
    have hunpack := h.unpacks old reader hshape hreads
    exact ⟨data', hwrite, by simp [unpackStmts, unpackStmt, hread, hunpack, hwrite]⟩

theorem pod_codes (hsize : podSize program type = some bytes.length)
    (hpack : ∀ path, idlCgenPackBody type path = some [.pod "ipc_pack_pod" path type])
    (hunpack : ∀ path, idlCgenUnpackBody type path = some [.pod "ipc_unpack_pod" path type]) :
    BodyCodes program type (.pod bytes) bytes 0 := by
  intro fuel _ path
  refine ⟨_, _, hpack path, hunpack path, ?_, ?_⟩
  · intro data self hread _
    refine ⟨ipcPack self bytes, ?_, ?_⟩
    · simp [packStmts, packStmt, hread, hsize]
    · rw [Value.handles_pod]
      exact ipcPack_appends self bytes
  · intro data old reader hread _ hreads
    obtain ⟨data', hwrite⟩ := Path.write_some hread (.pod bytes)
    have hbytes := ipcUnpack_of_reads hreads
    refine ⟨data', hwrite, ?_⟩
    simp [unpackStmts, unpackStmt, hsize, hbytes, hwrite]

/-- The calls generated for an alias: its functions are inverse to each other. -/
def AliasCodes (program : Program) (named : IdlAlias) (value : Value) (bytes : List UInt8)
    (depth : ℕ) : Prop :=
  ∃ fn fn', idlCgenPackName named = some fn ∧ idlCgenUnpackName named = some fn' ∧
    ∀ fuel ≥ depth, Codes (applyPack program fuel fn) (applyUnpack program fuel fn')
      (ShapedAlias program named) value bytes

theorem AliasCodes.body (h : AliasCodes program named value bytes depth) (name : String) :
    BodyCodes program (.primitive name named) value bytes depth := by
  obtain ⟨fn, fn', hfn, hfn', hcodes⟩ := h
  intro fuel hfuel path
  refine ⟨[.call fn path], [.call fn' path], ?_, ?_, ?_⟩
  · simp [idlCgenPackBody, cgenBody, packGenerator, hfn]
  · simp [idlCgenUnpackBody, cgenBody, unpackGenerator, hfn']
  · exact call_codes (hcodes fuel hfuel)

/-- The functions that the attribute of an alias names. -/
theorem AliasCodes.of_packfn {attrs : List IdlAttr} {attr : IdlAttr}
    (hattr : idlAttrsGet attrs "packfn" = some attr)
    (hresolved : ResolvedAlias program (.mk name type attrs))
    (hvalue : HasTypeAlias program (.mk name type attrs) value) :
    ∃ bytes, AliasCodes program (.mk name type attrs) value bytes 1 := by
  unfold ResolvedAlias at hresolved
  unfold HasTypeAlias at hvalue
  simp only [hattr] at hresolved hvalue
  obtain ⟨fn, fn', more, pack, unpack, hargs, hpack, hunpack, hcodes⟩ := hresolved
  obtain ⟨bytes, hbytes⟩ := hcodes value hvalue
  refine ⟨bytes, fn, fn', ?_, ?_, ?_⟩
  · simp [idlCgenPackName, IdlAlias.attrs, hattr, hargs]
  · simp [idlCgenUnpackName, IdlAlias.attrs, hattr, hargs]
  · intro fuel hfuel
    obtain ⟨fuel, rfl⟩ := Nat.exists_eq_add_of_le' hfuel
    refine ⟨?_, fun old reader _ ↦ ?_⟩
    · intro self hroom
      simpa [applyPack, hpack] using hbytes.packs self hroom
    · intro hreads
      simpa [applyUnpack, hunpack] using hbytes.unpacks old reader trivial hreads

/-- The functions that were generated for an alias. -/
theorem AliasCodes.of_body {attrs : List IdlAttr} (hattr : idlAttrsGet attrs "packfn" = none)
    (hresolved : ResolvedAlias program (.mk name type attrs))
    (hcodes : BodyCodes program type value bytes depth) :
    AliasCodes program (.mk name type attrs) value bytes (depth + 1) := by
  unfold ResolvedAlias at hresolved
  simp only [hattr] at hresolved
  obtain ⟨body, body', hbody, hbody', hpack, hunpack, _⟩ := hresolved
  refine ⟨"ipc_pack_" ++ caseToSnake name, "ipc_unpack_" ++ caseToSnake name, ?_, ?_, ?_⟩
  · simp [idlCgenPackName, IdlAlias.attrs, IdlAlias.name, hattr]
  · simp [idlCgenUnpackName, IdlAlias.attrs, IdlAlias.name, hattr]
  · intro fuel hfuel
    obtain ⟨fuel, rfl⟩ : ∃ more, fuel = more + 1 := Nat.exists_eq_add_of_le' (by omega)
    obtain ⟨found, found', hfound, hfound', hpacks, hunpacks⟩ := hcodes fuel (by omega) .data
    cases hbody.symm.trans hfound
    cases hbody'.symm.trans hfound'
    constructor
    · intro self hroom
      simpa [applyPack, hpack] using hpacks value self rfl hroom
    · intro old reader hshape hreads
      have hshape' : Shaped program type old := by
        simpa [ShapedAlias, hattr] using hshape
      obtain ⟨data', hwrite, hrun⟩ := hunpacks old old reader rfl hshape' hreads
      cases hwrite
      simpa [applyUnpack, hunpack] using hrun

theorem BodyCodes.mono {depth depth' : ℕ} (h : BodyCodes program type value bytes depth)
    (hle : depth ≤ depth') : BodyCodes program type value bytes depth' :=
  fun fuel hfuel ↦ h fuel (le_trans hle hfuel)

theorem ResolvedAlias.names (h : ResolvedAlias program named) :
    ∃ fn fn', idlCgenPackName named = some fn ∧ idlCgenUnpackName named = some fn' := by
  cases named with
  | mk name type attrs =>
    unfold ResolvedAlias at h
    cases hattr : idlAttrsGet attrs "packfn" with
    | some attr =>
      simp only [hattr] at h
      obtain ⟨fn, fn', more, _, _, hargs, _⟩ := h
      refine ⟨fn, fn', ?_, ?_⟩
      · simp [idlCgenPackName, IdlAlias.attrs, hattr, hargs]
      · simp [idlCgenUnpackName, IdlAlias.attrs, hattr, hargs]
    | none =>
      refine ⟨"ipc_pack_" ++ caseToSnake name, "ipc_unpack_" ++ caseToSnake name, ?_, ?_⟩
      · simp [idlCgenPackName, IdlAlias.attrs, IdlAlias.name, hattr]
      · simp [idlCgenUnpackName, IdlAlias.attrs, IdlAlias.name, hattr]

/-- A slice whose elements are packed by the functions of an alias. -/
theorem elements_codes (name : String) {elements : List Value} {fn fn' : String}
    (hfn : idlCgenPackName named = some fn) (hfn' : idlCgenUnpackName named = some fn')
    (hlength : elements.length < 2 ^ 64)
    (hcodes : ∀ element ∈ elements, ∃ bytes, AliasCodes program named element bytes depth) :
    ∃ bytes, ∀ fuel ≥ depth, Codes (packSlice (applyPack program fuel fn))
      (unpackSlice (applyUnpack program fuel fn') (zeroed program (.primitive name named)))
      (fun _ ↦ True) (.vec elements) bytes := by
  choose! wire hwire using hcodes
  refine ⟨leBytes 8 elements.length ++ elements.flatMap wire, fun fuel hfuel ↦ ?_⟩
  have helements : ∀ element ∈ elements,
      Codes (applyPack program fuel fn) (applyUnpack program fuel fn')
        (ShapedAlias program named) element (wire element) := by
    intro element helement
    obtain ⟨found, found', hfound, hfound', helementCodes⟩ := hwire element helement
    cases hfn.symm.trans hfound
    cases hfn'.symm.trans hfound'
    exact helementCodes fuel hfuel
  have hzero : ShapedAlias program named (zeroed program (.primitive name named)) :=
    shaped_zeroed program (.primitive name named)
  exact slice_codes hlength hzero helements

/-- A slice of a primitive type. -/
theorem vec_codes (name : String) {elements : List Value} (hresolved : ResolvedAlias program named)
    (hlength : elements.length < 2 ^ 64)
    (hcodes : ∀ element ∈ elements, ∃ bytes, AliasCodes program named element bytes depth) :
    ∃ bytes, BodyCodes program (.vec (.primitive name named)) (.vec elements) bytes depth := by
  obtain ⟨fn, fn', hfn, hfn'⟩ := hresolved.names
  obtain ⟨bytes, hbytes⟩ := elements_codes name hfn hfn' hlength hcodes
  refine ⟨bytes, fun fuel hfuel path ↦ ?_⟩
  have hslice := hbytes fuel hfuel
  refine ⟨[.slice "ipc_pack_slice" path fn (.primitive name named)],
    [.slice "ipc_unpack_slice" path fn' (.primitive name named)], ?_, ?_, ?_, ?_⟩
  · simp [idlCgenPackBody, cgenBody, packGenerator, hfn]
  · simp [idlCgenUnpackBody, cgenBody, unpackGenerator, hfn']
  · intro data self hread hroom
    obtain ⟨next, hnext, happends⟩ := hslice.packs self hroom
    exact ⟨next, by simp [packStmts, packStmt, hread, hnext], happends⟩
  · intro data old reader hread _ hreads
    obtain ⟨data', hwrite⟩ := Path.write_some hread (.vec elements)
    have hunpack := hslice.unpacks old reader trivial hreads
    exact ⟨data', hwrite, by simp [unpackStmts, unpackStmt, hread, hunpack, hwrite]⟩

/-- The names of the members of a structure. -/
def IdlMembers.names : IdlMembers → List String
  | .nil => []
  | .cons name _ rest => name :: rest.names

theorem HasMembers.names {members : IdlMembers} (h : HasMembers program members fields) :
    fields.map Prod.fst = members.names := by
  induction fields generalizing members with
  | nil =>
    cases members with
    | nil => rfl
    | cons name type rest =>
      obtain ⟨value, others, hfields, _⟩ := h
      cases hfields
  | cons field others ih =>
    cases members with
    | nil => cases h
    | cons name type rest =>
      obtain ⟨value, others', hfields, _, hothers⟩ := h
      cases hfields
      rw [List.map_cons, IdlMembers.names, ih hothers]

/-- The statements generated for the members of a structure pack the fields, and unpack them into
the fields that were there. -/
def MembersCode (program : Program) (members : IdlMembers) (fields : List (String × Value))
    (bytes : List UInt8) (depth : ℕ) : Prop :=
  ∀ fuel ≥ depth, ∀ path, ∃ body body',
    cgenMembers packGenerator members path = some body ∧
    cgenMembers unpackGenerator members path = some body' ∧
    (∀ data self before, path.read data = some (.struct (before ++ fields)) →
      (before.map Prod.fst ++ members.names).Nodup →
      self.handles.length + (Value.struct fields).handles.length ≤ maxHandles →
      ∃ next, packStmts program (applyPack program fuel) body data self = some next ∧
        Appends self next bytes (Value.struct fields).handles) ∧
    ∀ data before olds reader, path.read data = some (.struct (before ++ olds)) →
      (before.map Prod.fst ++ members.names).Nodup → ShapedMembers program members olds →
      Reads reader bytes (Value.struct fields).handles →
      ∃ data', path.write (.struct (before ++ fields)) data = some data' ∧
        unpackStmts program (applyUnpack program fuel) body' data reader =
          some (data', reader.advance bytes.length (Value.struct fields).handles.length)

theorem MembersCode.nil (program : Program) : MembersCode program .nil [] [] 0 := by
  intro fuel _ path
  refine ⟨[], [], rfl, rfl, ?_, ?_⟩
  · intro data self before _ _ _
    refine ⟨self, rfl, ?_⟩
    rw [Value.handles_struct]
    exact Appends.refl self
  · intro data before olds reader hread _ hshape _
    have holds : olds = [] := hshape
    rw [holds] at hread
    refine ⟨data, Path.write_read hread, ?_⟩
    rw [Value.handles_struct]
    rfl

theorem packStmts_append {call : String → PackFn} {first second : List Stmt} {data : Value}
    {self next : IpcPack} (h : packStmts program call first data self = some next) :
    packStmts program call (first ++ second) data self =
      packStmts program call second data next := by
  unfold packStmts at h ⊢
  rw [List.foldlM_append, h]
  rfl

theorem unpackStmts_append {call : String → UnpackFn} {first second : List Stmt}
    {data data' : Value} {reader reader' : IpcUnpack}
    (h : unpackStmts program call first data reader = some (data', reader')) :
    unpackStmts program call (first ++ second) data reader =
      unpackStmts program call second data' reader' := by
  unfold unpackStmts at h ⊢
  rw [List.foldlM_append, h]
  rfl

theorem MembersCode.cons {rest : IdlMembers} {others : List (String × Value)}
    {bytes bytes' : List UInt8} (hvalue : BodyCodes program type value bytes depth)
    (hothers : MembersCode program rest others bytes' depth) :
    MembersCode program (.cons name type rest) ((name, value) :: others)
      (bytes ++ bytes') depth := by
  have hhandles : (Value.struct ((name, value) :: others)).handles =
      value.handles ++ (Value.struct others).handles := by
    rw [Value.handles_struct, Value.handles_struct, List.flatMap_cons]
  intro fuel hfuel path
  obtain ⟨first, first', hfirst, hfirst', hpack, hunpack⟩ :=
    hvalue fuel hfuel (.member path name)
  obtain ⟨second, second', hsecond, hsecond', hpacks, hunpacks⟩ := hothers fuel hfuel path
  have hbody : cgenBody packGenerator type (.member path name) = some first := hfirst
  have hbody' : cgenBody unpackGenerator type (.member path name) = some first' := hfirst'
  refine ⟨first ++ second, first' ++ second', ?_, ?_, ?_, ?_⟩
  · simp [cgenMembers, hbody, hsecond]
  · simp [cgenMembers, hbody', hsecond']
  · intro data self before hread hnodup hroom
    have hname : name ∉ before.map Prod.fst := by
      intro hmem
      exact (List.nodup_append.mp hnodup).2.2 name hmem name List.mem_cons_self rfl
    have hmember : (path.member name).read data = some value := by
      simp [Path.read, hread, getField_append hname]
    rw [hhandles, List.length_append] at hroom
    obtain ⟨next, hnext, happends⟩ := hpack data self hmember (by omega)
    have hcount := congrArg List.length happends.handles_eq
    rw [List.length_append] at hcount
    have hread' : path.read data = some (.struct (before ++ [(name, value)] ++ others)) := by
      simpa using hread
    have hnodup' : ((before ++ [(name, value)]).map Prod.fst ++ rest.names).Nodup := by
      simpa [IdlMembers.names] using hnodup
    obtain ⟨last, hlast, happends'⟩ := hpacks data next _ hread' hnodup' (by omega)
    refine ⟨last, ?_, ?_⟩
    · rw [packStmts_append hnext]
      exact hlast
    · rw [hhandles]
      exact happends.trans happends'
  · intro data before olds reader hread hnodup hshape hreads
    obtain ⟨old, olds', rfl, hold, holds'⟩ := hshape
    have hname : name ∉ before.map Prod.fst := by
      intro hmem
      exact (List.nodup_append.mp hnodup).2.2 name hmem name List.mem_cons_self rfl
    have hmember : (path.member name).read data = some old := by
      simp [Path.read, hread, getField_append hname]
    rw [hhandles] at hreads ⊢
    have hsplit := hreads.split
    obtain ⟨data₁, hwrite, hrun⟩ := hunpack data old reader hmember hold hsplit.1
    rw [Path.write_member hread (getField_append hname), setField_append hname] at hwrite
    have hread₁ : path.read data₁ = some (.struct (before ++ [(name, value)] ++ olds')) := by
      simpa using Path.read_write hwrite
    have hnodup' : ((before ++ [(name, value)]).map Prod.fst ++ rest.names).Nodup := by
      simpa [IdlMembers.names] using hnodup
    obtain ⟨data₂, hwrite₂, hrun₂⟩ := hunpacks data₁ _ olds' _ hread₁ hnodup' holds' hsplit.2
    refine ⟨data₂, ?_, ?_⟩
    · rw [Path.write_write hwrite] at hwrite₂
      simpa using hwrite₂
    · rw [unpackStmts_append hrun, hrun₂, IpcUnpack.advance_advance, List.length_append,
        List.length_append]

mutual

/-- By induction over the type, with the depth at which calls nest in it. -/
theorem body_codes (type : IdlType) (hresolved : Resolved program type) :
    ∃ depth, ∀ value, HasType program type value →
      ∃ bytes, BodyCodes program type value bytes depth := by
  cases type with
  | nil =>
    refine ⟨0, ?_⟩
    rintro value rfl
    refine ⟨[], fun fuel _ path ↦ ⟨[], [], rfl, rfl, ?_, ?_⟩⟩
    · intro data self _ _
      refine ⟨self, rfl, ?_⟩
      rw [Value.handles_void]
      exact Appends.refl self
    · rintro data old reader hread rfl _
      refine ⟨data, Path.write_read hread, ?_⟩
      rw [Value.handles_void]
      rfl
  | ctype name =>
    refine ⟨0, ?_⟩
    rintro value ⟨bytes, rfl, hlength⟩
    exact ⟨bytes, pod_codes (by rw [podSize, hlength]) (fun _ ↦ rfl) (fun _ ↦ rfl)⟩
  | enum members =>
    refine ⟨0, ?_⟩
    rintro value ⟨bytes, rfl, hlength⟩
    exact ⟨bytes, pod_codes (by rw [podSize, hlength]) (fun _ ↦ rfl) (fun _ ↦ rfl)⟩
  | primitive name named =>
    obtain ⟨depth, hcodes⟩ := alias_codes named hresolved
    refine ⟨depth, fun value hvalue ↦ ?_⟩
    obtain ⟨bytes, hbytes⟩ := hcodes value hvalue
    exact ⟨bytes, hbytes.body name⟩
  | struct members =>
    obtain ⟨depth, hcodes⟩ := members_code members hresolved
    refine ⟨depth, ?_⟩
    rintro value ⟨fields, rfl, hnodup, hfields⟩
    obtain ⟨bytes, hbytes⟩ := hcodes fields hfields
    rw [hfields.names] at hnodup
    refine ⟨bytes, fun fuel hfuel path ↦ ?_⟩
    obtain ⟨body, body', hbody, hbody', hpack, hunpack⟩ := hbytes fuel hfuel path
    refine ⟨body, body', hbody, hbody', ?_, ?_⟩
    · intro data self hread hroom
      exact hpack data self [] hread hnodup hroom
    · rintro data old reader hread ⟨olds, rfl, hshape⟩ hreads
      exact hunpack data [] olds reader hread hnodup hshape hreads
  | vec subtype =>
    obtain ⟨⟨name, named, rfl⟩, halias⟩ := hresolved
    obtain ⟨depth, hcodes⟩ := alias_codes named halias
    refine ⟨depth, ?_⟩
    rintro value ⟨elements, rfl, hlength, helements⟩
    exact vec_codes name halias hlength fun element helement ↦
      hcodes element (helements element helement)

theorem alias_codes (named : IdlAlias) (hresolved : ResolvedAlias program named) :
    ∃ depth, ∀ value, HasTypeAlias program named value →
      ∃ bytes, AliasCodes program named value bytes depth := by
  cases named with
  | mk name type attrs =>
    cases hattr : idlAttrsGet attrs "packfn" with
    | some attr =>
      exact ⟨1, fun value hvalue ↦ AliasCodes.of_packfn hattr hresolved hvalue⟩
    | none =>
      have htype : Resolved program type := by
        have hbody := hresolved
        unfold ResolvedAlias at hbody
        simp only [hattr] at hbody
        obtain ⟨_, _, _, _, _, _, htype⟩ := hbody
        exact htype
      obtain ⟨depth, hcodes⟩ := body_codes type htype
      refine ⟨depth + 1, fun value hvalue ↦ ?_⟩
      unfold HasTypeAlias at hvalue
      simp only [hattr] at hvalue
      obtain ⟨bytes, hbytes⟩ := hcodes value hvalue
      exact ⟨bytes, AliasCodes.of_body hattr hresolved hbytes⟩

theorem members_code (members : IdlMembers) (hresolved : ResolvedMembers program members) :
    ∃ depth, ∀ fields, HasMembers program members fields →
      ∃ bytes, MembersCode program members fields bytes depth := by
  cases members with
  | nil =>
    refine ⟨0, ?_⟩
    rintro fields rfl
    exact ⟨[], MembersCode.nil program⟩
  | cons name type rest =>
    obtain ⟨depth, hcodes⟩ := body_codes type hresolved.1
    obtain ⟨depth', hcodes'⟩ := members_code rest hresolved.2
    refine ⟨max depth depth', ?_⟩
    rintro fields ⟨value, others, rfl, hvalue, hothers⟩
    obtain ⟨bytes, hbytes⟩ := hcodes value hvalue
    obtain ⟨bytes', hbytes'⟩ := hcodes' others hothers
    refine ⟨bytes ++ bytes', MembersCode.cons (hbytes.mono (le_max_left _ _)) ?_⟩
    exact fun fuel hfuel ↦ hbytes' fuel (le_trans (le_max_right _ _) hfuel)

end

/-- A value packed after whatever was packed before is unpacked again, whatever comes after it, and
the reader is left where it ends. -/
theorem unpackBody_packBody {program : Program} {type : IdlType} (hresolved : Resolved program type)
    {value : Value} (hvalue : HasType program type value) :
    ∃ depth, ∀ fuel ≥ depth, ∃ body body',
      idlCgenPackBody type .data = some body ∧ idlCgenUnpackBody type .data = some body' ∧
      ∀ self : IpcPack, self.handles.length + value.handles.length ≤ brMsgArgCount - 1 →
        ∃ packed, packStmts program (applyPack program fuel) body value self = some packed ∧
          packed.handles = self.handles ++ value.handles ∧
          ∀ old tail handles, Shaped program type old →
            unpackStmts program (applyUnpack program fuel) body' old
                ⟨packed.bytes ++ tail, self.bytes.length, packed.handles ++ handles,
                  self.handles.length⟩ =
              some (value, ⟨packed.bytes ++ tail, packed.bytes.length, packed.handles ++ handles,
                packed.handles.length⟩) := by
  obtain ⟨depth, hcodes⟩ := body_codes type hresolved
  obtain ⟨bytes, hbytes⟩ := hcodes value hvalue
  refine ⟨depth, fun fuel hfuel ↦ ?_⟩
  obtain ⟨body, body', hbody, hbody', hpack, hunpack⟩ := hbytes fuel hfuel .data
  refine ⟨body, body', hbody, hbody', fun self hroom ↦ ?_⟩
  obtain ⟨packed, hpacked, happends⟩ := hpack value self rfl hroom
  refine ⟨packed, hpacked, happends.handles_eq, fun old tail handles hshape ↦ ?_⟩
  obtain ⟨data', hwrite, hrun⟩ :=
    hunpack old old _ rfl hshape (happends.reads hroom tail handles)
  cases hwrite
  rw [hrun]
  simp [IpcUnpack.advance, happends.bytes_eq, happends.handles_eq]

/-- A program with bytes and handles. -/
def byteProgram : Program where
  sizeof := fun _ ↦ 1
  holds := fun _ value ↦ ∃ id, value = .handle id
  pack := fun name ↦
    if name = "ipc_pack_handle" then some (.external packHandle)
    else some (.generated [.pod "ipc_pack_pod" .data (.ctype "uint8_t")])
  unpack := fun name ↦
    if name = "ipc_unpack_handle" then some (.external unpackHandle)
    else some (.generated [.pod "ipc_unpack_pod" .data (.ctype "uint8_t")])

def byteAlias : IdlAlias := .mk "U8" (.ctype "uint8_t") []

def handleAlias : IdlAlias :=
  .mk "IpcHnd" (.ctype "BrHandle") [⟨"packfn", ["ipc_pack_handle", "ipc_unpack_handle"]⟩]

/-- A structure of a handle and a slice of bytes. -/
def messageType : IdlType :=
  .struct (.cons "hnd" (.primitive "IpcHnd" handleAlias)
    (.cons "data" (.vec (.primitive "U8" byteAlias)) .nil))

theorem messageType_resolved : Resolved byteProgram messageType := by
  have hhandle : ResolvedAlias byteProgram handleAlias := by
    refine ⟨_, _, _, packHandle, unpackHandle, rfl, rfl, rfl, ?_⟩
    rintro value ⟨id, rfl⟩
    exact ⟨_, handle_codes id⟩
  have hbyte : ResolvedAlias byteProgram byteAlias :=
    ⟨_, _, rfl, rfl, rfl, rfl, trivial⟩
  exact ⟨hhandle, ⟨⟨_, _, rfl⟩, hbyte⟩, trivial⟩

/-- A handle and two bytes in a slice. -/
theorem unpackBody_packBody_message :
    ∃ depth, ∀ fuel ≥ depth, ∃ body body',
      idlCgenPackBody messageType .data = some body ∧
      idlCgenUnpackBody messageType .data = some body' ∧
      ∀ self : IpcPack, self.handles.length + 1 ≤ 4 →
        ∃ packed, packStmts byteProgram (applyPack byteProgram fuel) body
            (.struct [("hnd", .handle 7), ("data", .vec [.pod [1], .pod [2]])]) self =
              some packed ∧
          packed.handles = self.handles ++ [7] ∧
          ∀ old tail handles, Shaped byteProgram messageType old →
            unpackStmts byteProgram (applyUnpack byteProgram fuel) body' old
                ⟨packed.bytes ++ tail, self.bytes.length, packed.handles ++ handles,
                  self.handles.length⟩ =
              some (.struct [("hnd", .handle 7), ("data", .vec [.pod [1], .pod [2]])],
                ⟨packed.bytes ++ tail, packed.bytes.length, packed.handles ++ handles,
                  packed.handles.length⟩) := by
  have hvalue : HasType byteProgram messageType
      (.struct [("hnd", .handle 7), ("data", .vec [.pod [1], .pod [2]])]) := by
    refine ⟨_, rfl, by decide, _, _, rfl, ⟨7, rfl⟩, _, _, rfl, ⟨_, rfl, by decide, ?_⟩, rfl⟩
    intro element helement
    simp only [List.mem_cons, List.not_mem_nil, or_false] at helement
    rcases helement with rfl | rfl <;> exact ⟨_, rfl, rfl⟩
  have hhandles : (Value.struct [("hnd", .handle 7),
      ("data", .vec [.pod [1], .pod [2]])]).handles = [7] := by
    simp [Value.handles_struct, Value.handles_vec]
  have hround := unpackBody_packBody messageType_resolved hvalue
  rw [hhandles] at hround
  exact hround

end Brutal.Idl
