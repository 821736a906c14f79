import Mathlib.Data.Nat.Notation
import Mathlib.Data.Int.Notation

/-!
# IDL syntax trees

`libs/idl/ast`, with the names as bytes.  A type that refers to an alias has the alias with it once
`idl_sema_type` resolved it; an import is only its name here.
-/

namespace Brutal.Idl.Syntax

/-- `IdlAttr` -/
structure IdlAttr where
  name : List UInt8
  args : List (List UInt8)
deriving DecidableEq, Repr

mutual

/-- `IdlType` -/
inductive IdlType where
  | nil
  | ctype (name : List UInt8)
  | primitive (name : List UInt8) (named : Option IdlAlias)
  | enum (members : List (List UInt8 × ℤ))
  | struct (members : List (List UInt8 × IdlType))
  | vec (subtype : IdlType)

/-- `IdlAlias` -/
inductive IdlAlias where
  | mk (name : List UInt8) (attrs : List IdlAttr) (type : IdlType)

end

def IdlAlias.name : IdlAlias → List UInt8
  | .mk name _ _ => name

def IdlAlias.attrs : IdlAlias → List IdlAttr
  | .mk _ attrs _ => attrs

def IdlAlias.type : IdlAlias → IdlType
  | .mk _ _ type => type

/-- `IdlMethod` -/
structure IdlMethod where
  name : List UInt8
  request : IdlType
  response : IdlType
  attrs : List IdlAttr

/-- `IdlIface` -/
structure IdlIface where
  id : UInt32
  name : List UInt8
  attrs : List IdlAttr
  methods : List IdlMethod

/-- `IdlModule` -/
structure IdlModule where
  name : List UInt8
  imports : List (List UInt8)
  includes : List (List UInt8)
  errors : IdlType
  aliases : List IdlAlias
  ifaces : List IdlIface

/-- `idl_attrs_get` -/
def idlAttrsGet (attrs : List IdlAttr) (name : List UInt8) : Option IdlAttr :=
  attrs.find? (·.name = name)

end Brutal.Idl.Syntax
