import Brutal.Ipc.Pack

/-!
# Code that packs and unpacks IDL types

`libs/idl/cgen/pack.c` and `libs/idl/cgen/unpack.c` for types whose names are resolved: a type that
refers to an alias has the alias with it.  The two generators walk over a type in the same way and
differ in the functions that they call.  Generated statements are calls on paths from the argument
`data`; with a call stands what the C compiler knows about its operands, the type behind the path.

A generated program gives every function a name.  The functions of aliases with a `packfn` attribute
come from elsewhere.
-/

namespace Brutal.Idl

open Ipc Lib

structure IdlAttr where
  name : String
  args : List String
deriving DecidableEq, Repr

mutual

/-- `IdlType` -/
inductive IdlType where
  | nil
  | ctype (name : String)
  | primitive (name : String) (named : IdlAlias)
  | enum (members : List (String × ℤ))
  | struct (members : IdlMembers)
  | vec (subtype : IdlType)

/-- `IdlAlias` -/
inductive IdlAlias where
  | mk (name : String) (type : IdlType) (attrs : List IdlAttr)

/-- The members of an `IdlStruct` -/
inductive IdlMembers where
  | nil
  | cons (name : String) (type : IdlType) (rest : IdlMembers)

end

def IdlAlias.name : IdlAlias → String
  | .mk name _ _ => name

def IdlAlias.type : IdlAlias → IdlType
  | .mk _ type _ => type

def IdlAlias.attrs : IdlAlias → List IdlAttr
  | .mk _ _ attrs => attrs

/-- `idl_attrs_get` -/
def idlAttrsGet (attrs : List IdlAttr) (name : String) : Option IdlAttr :=
  attrs.find? (·.name = name)

def isBlank (c : Char) : Bool := c = ' ' || c = '\t'

/-- `is_sep` -/
def isSep (c : Char) : Bool := isBlank c || c = '.' || c = '_' || c = '/' || c = '-'

/-- The loop of `case_to_no`, where separators are written as one blank once something follows. -/
def caseToNoLoop (prev : Char) (pending : Bool) : List Char → List Char
  | [] => []
  | c :: rest =>
    if isSep c then caseToNoLoop c true rest
    else
      (if pending then [' '] else []) ++
        (if prev.isLower && c.isUpper then [' '] else []) ++ c.toLower :: caseToNoLoop c false rest

/-- `case_to_no` -/
def caseToNo (text : List Char) : List Char :=
  caseToNoLoop ' ' false (text.dropWhile isBlank)

/-- `case_to_snake` -/
def caseToSnake (text : String) : String :=
  String.ofList ((caseToNo text.toList).map fun c ↦ if c = ' ' then '_' else c)

/-- `idl_cgen_pack_name` -/
def idlCgenPackName (named : IdlAlias) : Option String :=
  match idlAttrsGet named.attrs "packfn" with
  | some attr => attr.args[0]?
  | none => some ("ipc_pack_" ++ caseToSnake named.name)

/-- `idl_cgen_unpack_name` -/
def idlCgenUnpackName (named : IdlAlias) : Option String :=
  match idlAttrsGet named.attrs "packfn" with
  | some attr => attr.args[1]?
  | none => some ("ipc_unpack_" ++ caseToSnake named.name)

/-- `data`, and `&path->name` -/
inductive Path where
  | data
  | member (path : Path) (name : String)
deriving DecidableEq, Repr

/-- A call of a function of the runtime or of an alias, with `self` as the first argument. -/
inductive Stmt where
  | pod (fn : String) (path : Path) (type : IdlType)
  | call (fn : String) (path : Path)
  | slice (fn : String) (path : Path) (element : String) (type : IdlType)

/-- What a generator calls. -/
structure Generator where
  pod : String
  slice : String
  name : IdlAlias → Option String

mutual

/-- The common shape of `idl_cgen_pack_body` and `idl_cgen_unpack_body`; a slice of anything but a
primitive type fails an assertion. -/
def cgenBody (generator : Generator) : IdlType → Path → Option (List Stmt)
  | .nil, _ => some []
  | .enum members, path => some [.pod generator.pod path (.enum members)]
  | .ctype name, path => some [.pod generator.pod path (.ctype name)]
  | .primitive _ named, path => do
    let fn ← generator.name named
    return [.call fn path]
  | .struct members, path => cgenMembers generator members path
  | .vec subtype, path =>
    match subtype with
    | .primitive name named => do
      let element ← generator.name named
      return [.slice generator.slice path element (.primitive name named)]
    | _ => none

/-- The loop over the members of a structure. -/
def cgenMembers (generator : Generator) : IdlMembers → Path → Option (List Stmt)
  | .nil, _ => some []
  | .cons name type rest, path => do
    let first ← cgenBody generator type (.member path name)
    let others ← cgenMembers generator rest path
    return first ++ others

end

def packGenerator : Generator := ⟨"ipc_pack_pod", "ipc_pack_slice", idlCgenPackName⟩

def unpackGenerator : Generator := ⟨"ipc_unpack_pod", "ipc_unpack_slice", idlCgenUnpackName⟩

/-- `idl_cgen_pack_body` -/
def idlCgenPackBody : IdlType → Path → Option (List Stmt) := cgenBody packGenerator

/-- `idl_cgen_unpack_body` -/
def idlCgenUnpackBody : IdlType → Path → Option (List Stmt) := cgenBody unpackGenerator

/-- The field of a structure. -/
def getField (name : String) : List (String × Value) → Option Value
  | [] => none
  | field :: rest => if field.1 = name then some field.2 else getField name rest

def setField (name : String) (value : Value) : List (String × Value) → List (String × Value)
  | [] => []
  | field :: rest =>
    if field.1 = name then (name, value) :: rest else field :: setField name value rest

/-- The object at a path from `data`. -/
def Path.read : Path → Value → Option Value
  | .data, object => some object
  | .member path name, object =>
    match path.read object with
    | some (.struct fields) => getField name fields
    | _ => none

/-- `data` after the object at a path was overwritten. -/
def Path.write : Path → Value → Value → Option Value
  | .data, value, _ => some value
  | .member path name, value, object =>
    match path.read object with
    | some (.struct fields) =>
      match getField name fields with
      | some _ => path.write (.struct (setField name value fields)) object
      | none => none
    | _ => none

/-- A function of the program: generated, or given from elsewhere. -/
inductive Function (fn : Type) where
  | generated (body : List Stmt)
  | external (fn : fn)

/-- A program with the functions of aliases: what C types take in memory, what objects of the types
with a `packfn` attribute hold, and the functions under their names. -/
structure Program where
  sizeof : String → ℕ
  holds : String → Value → Prop
  pack : String → Option (Function PackFn)
  unpack : String → Option (Function UnpackFn)

/-- The size of what `ipc_pack_pod` and `ipc_unpack_pod` copy. -/
def podSize (program : Program) : IdlType → Option ℕ
  | .ctype name => some (program.sizeof name)
  | .enum _ => some 4
  | _ => none

mutual

/-- Memory of a type that was set to zero. -/
def zeroed (program : Program) : IdlType → Value
  | .nil => .void
  | .ctype name => .pod (List.replicate (program.sizeof name) 0)
  | .primitive _ named => zeroedAlias program named
  | .enum _ => .pod (List.replicate 4 0)
  | .struct members => .struct (zeroedMembers program members)
  | .vec _ => .vec []

def zeroedAlias (program : Program) : IdlAlias → Value
  | .mk _ type attrs =>
    match idlAttrsGet attrs "packfn" with
    | some _ => .void
    | none => zeroed program type

def zeroedMembers (program : Program) : IdlMembers → List (String × Value)
  | .nil => []
  | .cons name type rest => (name, zeroed program type) :: zeroedMembers program rest

end

/-- One statement of a function that packs `data`. -/
def packStmt (program : Program) (call : String → PackFn) (data : Value) (self : IpcPack) :
    Stmt → Option IpcPack
  | .pod fn path type =>
    match path.read data, podSize program type with
    | some (.pod bytes), some size =>
      if fn = "ipc_pack_pod" ∧ bytes.length = size then some (ipcPack self bytes) else none
    | _, _ => none
  | .call fn path => do
    let value ← path.read data
    call fn value self
  | .slice fn path element _ => do
    let value ← path.read data
    if fn = "ipc_pack_slice" then packSlice (call element) value self else none

/-- One statement of a function that unpacks into `data`. -/
def unpackStmt (program : Program) (call : String → UnpackFn) (state : Value × IpcUnpack) :
    Stmt → Option (Value × IpcUnpack)
  | .pod fn path type =>
    if fn = "ipc_unpack_pod" then do
      let size ← podSize program type
      let (bytes, reader) ← ipcUnpack state.2 size
      let data ← path.write (.pod bytes) state.1
      return (data, reader)
    else none
  | .call fn path => do
    let old ← path.read state.1
    let (value, reader) ← call fn old state.2
    let data ← path.write value state.1
    return (data, reader)
  | .slice fn path element type =>
    if fn = "ipc_unpack_slice" then do
      let old ← path.read state.1
      let (value, reader) ← unpackSlice (call element) (zeroed program type) old state.2
      let data ← path.write value state.1
      return (data, reader)
    else none

/-- The body of a function that packs. -/
def packStmts (program : Program) (call : String → PackFn) (body : List Stmt) (data : Value)
    (self : IpcPack) : Option IpcPack :=
  body.foldlM (packStmt program call data) self

/-- The body of a function that unpacks. -/
def unpackStmts (program : Program) (call : String → UnpackFn) (body : List Stmt) (data : Value)
    (reader : IpcUnpack) : Option (Value × IpcUnpack) :=
  body.foldlM (unpackStmt program call) (data, reader)

/-- A function that packs, called by its name; calls nest at most as deep as `depth` says. -/
def applyPack (program : Program) : ℕ → String → PackFn
  | 0, _ => fun _ _ ↦ none
  | depth + 1, fn => fun value self ↦
    match program.pack fn with
    | some (.external pack) => pack value self
    | some (.generated body) => packStmts program (applyPack program depth) body value self
    | none => none

/-- A function that unpacks, called by its name. -/
def applyUnpack (program : Program) : ℕ → String → UnpackFn
  | 0, _ => fun _ _ ↦ none
  | depth + 1, fn => fun old reader ↦
    match program.unpack fn with
    | some (.external unpack) => unpack old reader
    | some (.generated body) => unpackStmts program (applyUnpack program depth) body old reader
    | none => none

end Brutal.Idl
