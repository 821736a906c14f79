import Mathlib.Data.Nat.Notation
import Mathlib.Data.Int.Notation

/-!
# C syntax trees

`libs/cc/ast` and the constructors of `libs/cc/builder`.  A tree carries the types that
`libs/cc/sema` finds; a tree from the parser or from a generator has the zeroed type everywhere.
-/

namespace Brutal.Cc

/-- `CVal`, with the representation of a floating value. -/
inductive CVal where
  | invalid
  | signed (value : ℤ)
  | unsigned (value : ℕ)
  | float (bits : UInt64)
  | string (text : List UInt8)
deriving DecidableEq, Repr

mutual

/-- `CType` -/
inductive CType where
  | mk (shape : CTypeShape) (attr : ℕ) (name : List UInt8)

/-- `CTypeType`, with what the union of a `CType` holds. -/
inductive CTypeShape where
  | invalid
  | tail
  | error
  | void
  | auto
  | bool
  | ptr (subtype : CType)
  | ref (subtype : CType)
  | parent (subtype : CType)
  | array (subtype : CType) (size : ℤ)
  | signed (precision : ℤ)
  | unsigned (precision : ℤ)
  | float (precision : ℤ)
  | struct (members : List (List UInt8 × CType))
  | union (members : List (List UInt8 × CType))
  | enum (constants : List (List UInt8 × CVal))
  | func (ret : CType) (params : List (List UInt8 × CType))
  | name

end

def CType.shape : CType → CTypeShape
  | .mk shape _ _ => shape

/-- A type that is all zeros. -/
def CType.zeroed : CType := .mk .invalid 0 []

/-- `COp` -/
inductive COp where
  | invalid
  | inc
  | dec
  | assign
  | assignAdd
  | assignSub
  | assignMult
  | assignDiv
  | assignMod
  | assignBitAnd
  | assignBitOr
  | assignBitXor
  | assignLshift
  | assignRshift
  | add
  | sub
  | mult
  | div
  | mod
  | bitNot
  | bitAnd
  | bitOr
  | bitXor
  | lshift
  | rshift
  | not
  | and
  | or
  | eq
  | notEq
  | lt
  | gt
  | ltEq
  | gtEq
  | index
  | deref
  | ref
  | access
  | ptrAccess
  | call
deriving DecidableEq, Repr

mutual

/-- `CExpr`, with its `sema_type` first. -/
inductive CExpr where
  | invalid (semaType : CType)
  | empty (semaType : CType)
  | self (semaType : CType)
  | constant (semaType : CType) (value : CVal)
  | ident (semaType : CType) (name : List UInt8)
  | prefixed (semaType : CType) (op : COp) (expr : CExpr)
  | infixed (semaType : CType) (op : COp) (lhs rhs : CExpr)
  | postfixed (semaType : CType) (op : COp) (expr : CExpr)
  | call (semaType : CType) (expr : CExpr) (args : List CExpr)
  | cast (semaType : CType) (type : CType) (expr : CExpr)
  | ternary (semaType : CType) (cond true' false' : CExpr)
  | initializer (semaType : CType) (type : CType) (members : List CExpr)
  | lambda (semaType : CType) (type : CType) (body : CStmt)
  | statement (semaType : CType)

/-- `CStmt` -/
inductive CStmt where
  | invalid
  | empty
  | decl (decl : CDecl)
  | expr (expr : CExpr)
  | block (stmts : List CStmt)
  | if (expr : CExpr) (true' false' : CStmt)
  | for (init : CStmt) (cond iter : CExpr) (stmt : CStmt)
  | while (expr : CExpr) (stmt : CStmt)
  | do (expr : CExpr) (stmt : CStmt)
  | switch (expr : CExpr) (stmt : CStmt)
  | return (expr : CExpr)
  | goto (label : List UInt8)
  | break
  | continue
  | label (label : List UInt8)
  | case (expr : CExpr)
  | default

/-- `CDecl`; for `CDECL_TYPE`, `CDECL_VAR` and `CDECL_FUNC` its attributes and its name come first,
and its `sema_type` next. -/
inductive CDecl where
  | nil
  | empty
  | type (attr : ℕ) (name : List UInt8) (semaType : CType) (type : CType)
  | var (attr : ℕ) (name : List UInt8) (semaType : CType) (type : CType) (expr : CExpr)
  | func (attr : ℕ) (name : List UInt8) (semaType : CType) (type : CType) (body : CStmt)

end

def CExpr.semaType : CExpr → CType
  | .invalid semaType | .empty semaType | .self semaType | .constant semaType _
  | .ident semaType _ | .prefixed semaType _ _ | .infixed semaType _ _ _ | .postfixed semaType _ _
  | .call semaType _ _ | .cast semaType _ _ | .ternary semaType _ _ _
  | .initializer semaType _ _ | .lambda semaType _ _ | .statement semaType => semaType

/-- `CUnitEntry` -/
inductive CUnitEntry where
  | none
  | include (isSystem : Bool) (path : List UInt8)
  | pragma (text : List UInt8)
  | declaration (decl : CDecl)
  | define (name : List UInt8) (args : List (List UInt8)) (expression : CExpr)

/-- `CUnit` -/
abbrev CUnit := List CUnitEntry

/-- `ctype_void` -/
def ctypeVoid : CType := .mk .void 0 []

/-- `ctype_ptr` -/
def ctypePtr (subtype : CType) : CType := .mk (.ptr subtype) 0 []

/-- `ctype_struct`, and a `ctype_member` for each of its members. -/
def ctypeStruct (members : List (List UInt8 × CType)) : CType := .mk (.struct members) 0 []

/-- `ctype_enum`, and a `ctype_constant` for each of its constants. -/
def ctypeEnum (constants : List (List UInt8 × CVal)) : CType := .mk (.enum constants) 0 []

/-- `ctype_func`, and a `ctype_member` for each of its parameters. -/
def ctypeFunc (ret : CType) (params : List (List UInt8 × CType)) : CType :=
  .mk (.func ret params) 0 []

/-- `ctype_ident` -/
def ctypeIdent (name : List UInt8) : CType := .mk .name 0 name

/-- `ctype_ident_ptr` -/
def ctypeIdentPtr (name : List UInt8) : CType := ctypePtr (ctypeIdent name)

/-- `CTYPE_CONST` -/
def ctypeConst : ℕ := 1

/-- `ctype_attr` -/
def ctypeAttr : CType → ℕ → CType
  | .mk shape old name, attr => .mk shape (old ||| attr) name

/-- `cexpr_empty` -/
def cexprEmpty : CExpr := .empty .zeroed

/-- `cexpr_constant` -/
def cexprConstant (value : CVal) : CExpr := .constant .zeroed value

/-- `cexpr_ident` -/
def cexprIdent (name : List UInt8) : CExpr := .ident .zeroed name

/-- `cexpr_call`, and a `cexpr_member` for each of its arguments. -/
def cexprCall (expr : CExpr) (args : List CExpr) : CExpr := .call .zeroed expr args

/-- `cexpr_cast` -/
def cexprCast (expr : CExpr) (type : CType) : CExpr := .cast .zeroed type expr

/-- `cexpr_initializer`, and a `cexpr_member` for each of its members. -/
def cexprInitializer (type : CType) (members : List CExpr) : CExpr :=
  .initializer .zeroed type members

/-- `cexpr_ref` -/
def cexprRef (expr : CExpr) : CExpr := .prefixed .zeroed .ref expr

/-- `cexpr_ptr_access` -/
def cexprPtrAccess (expr member : CExpr) : CExpr := .infixed .zeroed .ptrAccess expr member

/-- `cdecl_type` -/
def cdeclType (name : List UInt8) (type : CType) : CDecl := .type 0 name .zeroed type

/-- `cdecl_var` -/
def cdeclVar (name : List UInt8) (type : CType) (expr : CExpr) : CDecl :=
  .var 0 name .zeroed type expr

/-- `cdecl_func` -/
def cdeclFunc (name : List UInt8) (type : CType) (body : CStmt) : CDecl :=
  .func 0 name .zeroed type body

end Brutal.Cc
