import Brutal.Cc.Ast
import Brutal.Ds.VecPush
import Brutal.Idl.Syntax
import Brutal.Text.Emit

/-!
# Generated message names

`libs/idl/cgen/dispatch.c`, `binding.c` and the part of `header.c` for an interface: the three
places that make the name of a message from the name of a method.
-/

namespace Brutal.Idl.Syntax

open Base Cc Ds.Growth Text

/-- `fmt_str$` with a string -/
def fmtStr (format : List Char) (value : List UInt8) : Except Fault (List UInt8) :=
  fmtFormat (ascii format) [.str value]

def nullptrIdent : CExpr := cexprIdent (ascii ['n', 'u', 'l', 'l', 'p', 't', 'r'])

/-- `*type.primitive_.alias` -/
def primitiveAlias : IdlType → Except Fault IdlAlias
  | .primitive _ (some named) => .ok named
  | _ => .error .outOfBounds

/-- `idl_cgen_decl_primitive` -/
def idlCgenDeclPrimitive : IdlType → Except Fault Cc.CType
  | .primitive _ (some named) =>
    match named.type with
    | .ctype name => .ok (ctypeIdent name)
    | _ => .ok (ctypeIdent named.name)
  | .primitive _ none => .error .outOfBounds
  | _ => .error .panic

/-- The attribute that names the functions of an alias. -/
def packfn : List UInt8 := ascii ['p', 'a', 'c', 'k', 'f', 'n']

/-- The common shape of `idl_cgen_pack_name` and `idl_cgen_unpack_name`. -/
def cgenName (index : ℕ) (format : List Char) (named : IdlAlias) : Except Fault (List UInt8) :=
  match idlAttrsGet named.attrs packfn with
  | some attr =>
    match attr.args[index]? with
    | some name => .ok name
    | none => .error .outOfBounds
  | none => fmtStr format named.name

/-- `idl_cgen_pack_name` -/
def idlCgenPackName : IdlAlias → Except Fault (List UInt8) :=
  cgenName 0 ['i', 'p', 'c', '_', 'p', 'a', 'c', 'k', '_', '{', 'c', 'a', 's', 'e', '-', 's', 'n',
    'a', 'k', 'e', '}']

/-- `idl_cgen_unpack_name` -/
def idlCgenUnpackName : IdlAlias → Except Fault (List UInt8) :=
  cgenName 1 ['i', 'p', 'c', '_', 'u', 'n', 'p', 'a', 'c', 'k', '_', '{', 'c', 'a', 's', 'e', '-',
    's', 'n', 'a', 'k', 'e', '}']

/-- `idl_cgen_pack_ref` -/
def idlCgenPackRef (named : IdlAlias) : Except Fault CExpr := do
  let name ← idlCgenPackName named
  return cexprCast (cexprIdent name)
    (ctypeIdentPtr (ascii ['I', 'p', 'c', 'P', 'a', 'c', 'k', 'F', 'n']))

/-- `idl_cgen_unpack_ref` -/
def idlCgenUnpackRef (named : IdlAlias) : Except Fault CExpr := do
  let name ← idlCgenUnpackName named
  return cexprCast (cexprIdent name)
    (ctypeIdentPtr (ascii ['I', 'p', 'c', 'U', 'n', 'p', 'a', 'c', 'k', 'F', 'n']))

/-- A parameter whose type is a pointer to a request or a response, if there is one. -/
def messageParam (name : List Char) (attr : ℕ) :
    IdlType → Except Fault (List (List UInt8 × Cc.CType))
  | .nil => .ok []
  | type => do
    let ctype ← idlCgenDeclPrimitive type
    return [(ascii name, ctypePtr (ctypeAttr ctype attr))]

def allocParam : List UInt8 × Cc.CType :=
  (ascii ['a', 'l', 'l', 'o', 'c'], ctypeIdentPtr (ascii ['A', 'l', 'l', 'o', 'c']))

/-- `idl_cgen_method_type` -/
def idlCgenMethodType (method : IdlMethod) (module : IdlModule) : Except Fault Cc.CType := do
  let ret ← idlCgenDeclPrimitive module.errors
  let req ← messageParam ['r', 'e', 'q'] ctypeConst method.request
  let resp ← messageParam ['r', 'e', 's', 'p'] 0 method.response
  return ctypeFunc ret ([
    (ascii ['i', 'p', 'c'],
      ctypeIdentPtr (ascii ['I', 'p', 'c', 'C', 'o', 'm', 'p', 'o', 'n', 'e', 'n', 't'])),
    (ascii ['c', 'a', 'p'], ctypeIdent (ascii ['I', 'p', 'c', 'C', 'a', 'p']))] ++ req ++ resp ++
      if (req ++ resp).isEmpty then [] else [allocParam])

/-- `idl_cgen_handler_type` -/
def idlCgenHandlerType (method : IdlMethod) (module : IdlModule) : Except Fault Cc.CType := do
  let ret ← idlCgenDeclPrimitive module.errors
  let req ← messageParam ['r', 'e', 'q'] ctypeConst method.request
  let resp ← messageParam ['r', 'e', 's', 'p'] 0 method.response
  return ctypeFunc ret [
    (ascii ['s', 'e', 'l', 'f'], ctypePtr ctypeVoid),
    req.headD (ascii ['r', 'e', 'q'], ctypePtr ctypeVoid),
    resp.headD (ascii ['r', 'e', 's', 'p'], ctypePtr ctypeVoid),
    allocParam]

/-- `idl_cgen_provider_type` -/
def idlCgenProviderType (iface : IdlIface) : Except Fault Cc.CType := do
  let vtable ← fmtStr ['{', '}', 'V', 'T', 'a', 'b', 'l', 'e'] iface.name
  return ctypeFunc (ctypeIdent (ascii ['I', 'p', 'c', 'C', 'a', 'p'])) [
    (ascii ['o', 'b', 'j', 'e', 'c', 't'],
      ctypePtr (ctypeIdent (ascii ['I', 'p', 'c', 'O', 'b', 'j', 'e', 'c', 't']))),
    (ascii ['v', 't', 'a', 'b', 'l', 'e'], ctypePtr (ctypeIdent vtable))]

def msgConstantReq : List Char :=
  ['M', 'S', 'G', '_', '{', 'c', 'a', 's', 'e', '-', 'c', 'o', 'n', 's', 't', 'a', 'n', 't', '}',
    '_', 'R', 'E', 'Q']

def msgConstantResp : List Char :=
  ['M', 'S', 'G', '_', '{', 'c', 'a', 's', 'e', '-', 'c', 'o', 'n', 's', 't', 'a', 'n', 't', '}',
    '_', 'R', 'E', 'S', 'P']

def msgUpperReq : List Char :=
  ['M', 'S', 'G', '_', '{', 'c', 'a', 's', 'e', '-', 'u', 'p', 'p', 'e', 'r', '}', '_', 'R', 'E',
    'Q']

/-- The functions that pack and unpack a request or a response. -/
def bindingFns : IdlType → Except Fault (List CExpr)
  | .nil => .ok [nullptrIdent, nullptrIdent]
  | type => do
    let named ← primitiveAlias type
    let pack ← idlCgenPackRef named
    let unpack ← idlCgenUnpackRef named
    return [pack, unpack]

/-- The type of the response in a binding. -/
def bindingResponse (method : IdlMethod) : Except Fault CExpr :=
  match method.response with
  | .nil => .ok (cexprConstant (.signed (-1)))
  | _ => do
    let resp ← fmtStr msgConstantResp method.name
    return cexprIdent resp

/-- `idl_cgen_binding` -/
def idlCgenBinding (method : IdlMethod) (iface : IdlIface) : Except Fault CExpr := do
  let req ← fmtStr msgConstantReq method.name
  let reqFns ← bindingFns method.request
  let resp ← bindingResponse method
  let respFns ← bindingFns method.response
  return cexprInitializer (ctypeIdent (ascii ['I', 'd', 'l', 'B', 'i', 'n', 'd', 'i', 'n', 'g']))
    ([cexprConstant (.unsigned iface.id.toNat), cexprIdent req] ++ reqFns ++ [resp] ++ respFns)

/-- `idl_cgen_dispatch_vtable` -/
def idlCgenDispatchVtable (iface : IdlIface) : Except Fault CExpr := do
  let vtable ← fmtStr ['{', '}', 'V', 'T', 'a', 'b', 'l', 'e'] iface.name
  return cexprCast (cexprIdent (ascii ['v', 't', 'a', 'b', 'l', 'e'])) (ctypeIdentPtr vtable)

/-- `idl_cgen_dispatch_handler` -/
def idlCgenDispatchHandler (method : IdlMethod) (iface : IdlIface) : Except Fault CExpr := do
  let vtable ← idlCgenDispatchVtable iface
  return cexprCast (cexprPtrAccess vtable (cexprIdent method.name))
    (ctypeIdentPtr (ascii ['I', 'd', 'l', 'H', 'a', 'n', 'd', 'l', 'e', 'r', 'F', 'n']))

/-- The buffer of a request or a response in a case, and the argument for it. -/
def dispatchBuffer (name : List Char) : IdlType → Except Fault (List CStmt × CExpr)
  | .nil => .ok ([], nullptrIdent)
  | type => do
    let ctype ← idlCgenDeclPrimitive type
    return ([.decl (cdeclVar (ascii name) ctype cexprEmpty)], cexprRef (cexprIdent (ascii name)))

/-- `idl_cgen_dispatch_case` -/
def idlCgenDispatchCase (method : IdlMethod) (iface : IdlIface) : Except Fault (List CStmt) := do
  let handler ← idlCgenDispatchHandler method iface
  let binding ← idlCgenBinding method iface
  let (reqDecl, reqArg) ← dispatchBuffer ['r', 'e', 'q', '_', 'b', 'u', 'f'] method.request
  let (respDecl, respArg) ← dispatchBuffer ['r', 'e', 's', 'p', '_', 'b', 'u', 'f'] method.response
  return reqDecl ++ respDecl ++ [.expr (cexprCall
    (cexprIdent (ascii ['i', 'p', 'c', '_', 'h', 'o', 'o', 'k', '_', 'h', 'a', 'n', 'd', 'l', 'e']))
    [cexprIdent (ascii ['i', 'p', 'c']), cexprIdent (ascii ['o', 'b', 'j', 'e', 'c', 't']), handler,
      cexprIdent (ascii ['r', 'e', 'q']), binding, reqArg, respArg])]

/-- The loop of `idl_cgen_dispatch_body`. -/
def dispatchCases (iface : IdlIface) : List IdlMethod → Except Fault (List CStmt)
  | [] => .ok []
  | method :: methods => do
    let label ← fmtStr msgUpperReq method.name
    let body ← idlCgenDispatchCase method iface
    let rest ← dispatchCases iface methods
    return .case (cexprIdent label) :: .block (body ++ [.break]) :: rest

/-- The statement that takes a request to its case. -/
def dispatchSwitch (cases : List CStmt) : CStmt :=
  .block [.switch (cexprPtrAccess (cexprIdent (ascii ['r', 'e', 'q']))
    (cexprIdent (ascii ['t', 'y', 'p', 'e']))) (.block cases)]

/-- The bytes of a `CStmt`. -/
def cstmtSize : ℕ := 360

/-- `idl_cgen_dispatch_body` -/
def idlCgenDispatchBody (iface : IdlIface) : Except Fault CStmt := do
  let cases ← dispatchCases iface iface.methods
  return dispatchSwitch (cases.foldl (vecPush cstmtSize) [])

/-- What the loop of `idl_cgen_iface_header` makes. -/
structure Header where
  vtable : List (List UInt8 × Cc.CType)
  messages : List (List UInt8 × CVal)
  unit : CUnit

/-- `i++` of an `int` that is not negative -/
def increment (i : ℕ) : Except Fault ℕ := if i + 1 < 2 ^ 31 then .ok (i + 1) else .error .overflow

/-- The loop of `idl_cgen_iface_header`, from a value of `i` on. -/
def headerMethods (module : IdlModule) : ℕ → List IdlMethod → Except Fault Header
  | _, [] => .ok ⟨[], [], []⟩
  | i, method :: methods => do
    let name ← caseChange .pascal method.name
    let methodType ← idlCgenMethodType method module
    let handlerType ← idlCgenHandlerType method module
    let rpc ← fmtStr ['{', '}', '_', 'r', 'p', 'c'] method.name
    let req ← fmtStr msgConstantReq method.name
    let afterReq ← increment i
    let resp ← fmtStr msgConstantResp method.name
    let afterResp ← increment afterReq
    let rest ← headerMethods module afterResp methods
    return ⟨(method.name, ctypeIdentPtr name) :: rest.vtable,
      (req, .unsigned i) :: (resp, .unsigned afterReq) :: rest.messages,
      .declaration (cdeclType name handlerType) ::
        .declaration (cdeclFunc rpc methodType .empty) :: rest.unit⟩

def protoFormat : List Char :=
  ['I', 'P', 'C', '_', '{', 'c', 'a', 's', 'e', '-', 'c', 'o', 'n', 's', 't', 'a', 'n', 't', '}',
    '_', 'P', 'R', 'O', 'T', 'O']

def provideFormat : List Char :=
  ['{', 'c', 'a', 's', 'e', '-', 's', 'n', 'a', 'k', 'e', '}', '_', 'p', 'r', 'o', 'v', 'i', 'd',
    'e']

/-- The bytes of a `CTypeMember`, a `CTypeConst` and a `CUnitEntry`. -/
def ctypeMemberSize : ℕ := 80

def ctypeConstSize : ℕ := 40

def cunitEntrySize : ℕ := 520

/-- `cunit_member`, which drops the answer of `vec_push`. -/
def cunitMember (unit : CUnit) (entry : CUnitEntry) : CUnit := vecPush cunitEntrySize unit entry

/-- `idl_cgen_iface_header` -/
def idlCgenIfaceHeader (unit : CUnit) (module : IdlModule) (iface : IdlIface) :
    Except Fault CUnit := do
  let proto ← fmtStr protoFormat iface.name
  let header ← headerMethods module 0 iface.methods
  let msgs ← fmtStr ['{', '}', 'M', 's', 'g', 's'] iface.name
  let vtable ← fmtStr ['{', '}', 'V', 'T', 'a', 'b', 'l', 'e'] iface.name
  let provide ← fmtStr provideFormat iface.name
  let providerType ← idlCgenProviderType iface
  let messages := header.messages.foldl (vecPush ctypeConstSize) []
  let members := header.vtable.foldl (vecPush ctypeMemberSize) []
  let entries : CUnit := .define proto [] (cexprConstant (.unsigned iface.id.toNat)) ::
    header.unit ++ [.declaration (cdeclType msgs (ctypeEnum messages)),
      .declaration (cdeclType vtable (ctypeStruct members)),
      .declaration (cdeclFunc provide providerType .empty)]
  return entries.foldl cunitMember unit

end Brutal.Idl.Syntax
