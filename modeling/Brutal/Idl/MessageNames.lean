import Brutal.Idl.Dispatch
import Brutal.Lib.Defined
import Brutal.Text.CaseSpelling
import Mathlib.Data.List.Nodup

/-!
# Message names agree

The header declares the messages of an interface under the constant case of the method names, the
bindings use them under that case, too, and the labels of the dispatch function have the upper case.
-/

namespace Brutal.Idl.Syntax

open Base Cc Ds.Growth Lib Text

variable {type : IdlType} {method : IdlMethod} {methods : List IdlMethod} {module : IdlModule}
  {iface : IdlIface} {unit : CUnit} {texts : List (List UInt8)} {text : List UInt8}

/-- A string in the format of a message. -/
def messageName (text : List UInt8) (kind : List Char) : List UInt8 :=
  ascii ['M', 'S', 'G', '_'] ++ (text ++ ascii kind)

def fmtCase (casing : Case) : Fmt := ⟨.none, casing, 0, fmtPrecisionDefault, 32, false, false⟩

theorem fmtStr_msgConstantReq (name : List UInt8) : fmtStr msgConstantReq name =
    caseToConstant name >>= fun text ↦ .ok (messageName text ['_', 'R', 'E', 'Q']) := by
  have hspec : Specifies (ascii ['c', 'a', 's', 'e', '-', 'c', 'o', 'n', 's', 't', 'a', 'n', 't',
      '}']) (ascii ['_', 'R', 'E', 'Q']) (fmtCase .constant) := ⟨by decide, rfl⟩
  exact @fmtFormat_one (ascii ['M', 'S', 'G', '_']) _ _ _ (by decide) hspec (by decide) (by decide)
    name

theorem fmtStr_msgConstantResp (name : List UInt8) : fmtStr msgConstantResp name =
    caseToConstant name >>= fun text ↦ .ok (messageName text ['_', 'R', 'E', 'S', 'P']) := by
  have hspec : Specifies (ascii ['c', 'a', 's', 'e', '-', 'c', 'o', 'n', 's', 't', 'a', 'n', 't',
      '}']) (ascii ['_', 'R', 'E', 'S', 'P']) (fmtCase .constant) := ⟨by decide, rfl⟩
  exact @fmtFormat_one (ascii ['M', 'S', 'G', '_']) _ _ _ (by decide) hspec (by decide) (by decide)
    name

theorem fmtStr_msgUpperReq (name : List UInt8) : fmtStr msgUpperReq name =
    .ok (messageName (name.map upperByte) ['_', 'R', 'E', 'Q']) := by
  have hspec : Specifies (ascii ['c', 'a', 's', 'e', '-', 'u', 'p', 'p', 'e', 'r', '}'])
      (ascii ['_', 'R', 'E', 'Q']) (fmtCase .upper) := ⟨by decide, rfl⟩
  exact @fmtFormat_one (ascii ['M', 'S', 'G', '_']) _ _ _ (by decide) hspec (by decide) (by decide)
    name

/-- The format `{}` with plain text behind it. -/
theorem fmtStr_default {after : List Char} (hafter : Plain (ascii after))
    (hlength : after.length < 1024) (name : List UInt8) :
    fmtStr ('{' :: '}' :: after) name = .ok (name ++ ascii after) := by
  have hspec : Specifies [125] (ascii after) (fmtCase .default) :=
    ⟨fun h ↦ absurd (Option.some.inj h) (by decide), rfl⟩
  apply @fmtFormat_one [] [125] (ascii after) (fmtCase .default) (by decide) hspec hafter
  simp only [ascii, List.nil_append, List.cons_append, List.length_cons, List.length_map]
  omega

theorem defined_caseToNo_iff (str : List UInt8) :
    Defined (Text.caseToNo str) ↔ str.length < 2 ^ 31 := by
  rw [Text.caseToNo, defined_bind_pure]
  by_cases h : str.length < 2 ^ 31
  · rw [scanInit, if_pos h]
    exact iff_of_true (defined_ok _) h
  · rw [scanInit, if_neg h]
    exact iff_of_false (not_defined_error _) h

theorem defined_caseToConstant_iff (str : List UInt8) :
    Defined (caseToConstant str) ↔ str.length < 2 ^ 31 := by
  rw [caseToConstant, defined_bind_pure, defined_caseToNo_iff]

theorem defined_caseSpaced_iff (space : UInt8) (str : List UInt8) :
    Defined (caseSpaced space str) ↔ str.length < 2 ^ 31 := by
  rw [caseSpaced, defined_bind_pure, defined_caseToNo_iff]

theorem defined_caseToPascal_iff (str : List UInt8) :
    Defined (caseToPascal str) ↔ str.length < 2 ^ 31 := by
  rw [caseToPascal, defined_bind_pure, defined_caseToNo_iff]

/-- A format of one string is as good as the case in it. -/
theorem defined_fmtStr_iff {format : List Char} {before spec after : List UInt8} {casing : Case}
    (hformat : ascii format = before ++ (123 :: spec ++ after)) (hbefore : Plain before)
    (hspec : Specifies spec after (fmtCase casing)) (hafter : Plain after)
    (hlength : format.length < 1024) (name : List UInt8) :
    Defined (fmtStr format name) ↔ Defined (fmtString (fmtCase casing) name) := by
  have hshort : (before ++ (123 :: spec ++ after)).length < 2 ^ 31 := by
    rw [← hformat, ascii, List.length_map]
    omega
  rw [fmtStr, hformat, fmtFormat_one hbefore hspec hafter hshort]
  exact defined_bind_pure _

theorem defined_msgConstantReq_iff (name : List UInt8) :
    Defined (fmtStr msgConstantReq name) ↔ name.length < 2 ^ 31 := by
  rw [fmtStr_msgConstantReq, ← defined_caseToConstant_iff]
  exact defined_bind_pure _

theorem defined_msgConstantResp_iff (name : List UInt8) :
    Defined (fmtStr msgConstantResp name) ↔ name.length < 2 ^ 31 := by
  rw [fmtStr_msgConstantResp, ← defined_caseToConstant_iff]
  exact defined_bind_pure _

/-- A type that `idl_sema_iface` gives to a request or a response: nothing, or an alias. -/
inductive Resolved : IdlType → Prop where
  | nil : Resolved .nil
  | primitive (name : List UInt8) (named : IdlAlias) : Resolved (.primitive name (some named))

/-- The functions of an alias have names: two of them stand in its attribute, or there is no
attribute and the name of the alias fits in a scanner. -/
def HasFns (named : IdlAlias) : Prop :=
  match idlAttrsGet named.attrs packfn with
  | some attr => 2 ≤ attr.args.length
  | none => named.name.length < 2 ^ 31

/-- The alias of a request or a response, if there is one, has functions. -/
def TypeHasFns : IdlType → Prop
  | .primitive _ (some named) => HasFns named
  | _ => True

theorem defined_cgenNames_iff (named : IdlAlias) :
    (Defined (idlCgenPackName named) ∧ Defined (idlCgenUnpackName named)) ↔ HasFns named := by
  rw [idlCgenPackName, idlCgenUnpackName, cgenName, cgenName, HasFns]
  cases idlAttrsGet named.attrs packfn with
  | some attr =>
    dsimp only
    cases hargs : attr.args with
    | nil => exact iff_of_false (fun h ↦ not_defined_error _ h.1) (by simp)
    | cons pack rest =>
      cases rest with
      | nil => exact iff_of_false (fun h ↦ not_defined_error _ h.2) (by simp)
      | cons unpack rest => exact iff_of_true ⟨defined_ok _, defined_ok _⟩ (by simp)
  | none =>
    have hspec : Specifies (ascii ['c', 'a', 's', 'e', '-', 's', 'n', 'a', 'k', 'e', '}']) []
        (fmtCase .snake) := ⟨by decide, rfl⟩
    have hpack := @defined_fmtStr_iff ['i', 'p', 'c', '_', 'p', 'a', 'c', 'k', '_', '{', 'c', 'a',
      's', 'e', '-', 's', 'n', 'a', 'k', 'e', '}'] (ascii ['i', 'p', 'c', '_', 'p', 'a', 'c', 'k',
      '_']) _ [] .snake rfl (by decide) hspec (by decide) (by decide) named.name
    have hunpack := @defined_fmtStr_iff ['i', 'p', 'c', '_', 'u', 'n', 'p', 'a', 'c', 'k', '_', '{',
      'c', 'a', 's', 'e', '-', 's', 'n', 'a', 'k', 'e', '}'] (ascii ['i', 'p', 'c', '_', 'u', 'n',
      'p', 'a', 'c', 'k', '_']) _ [] .snake rfl (by decide) hspec (by decide) (by decide) named.name
    dsimp only
    rw [hpack, hunpack]
    exact (and_self_iff).trans (defined_caseSpaced_iff 95 named.name)

theorem defined_bindingFns_iff (h : Resolved type) :
    Defined (bindingFns type) ↔ TypeHasFns type := by
  cases h with
  | nil => exact iff_of_true (defined_ok _) trivial
  | primitive name named =>
    have hpack : Defined (idlCgenPackRef named) ↔ Defined (idlCgenPackName named) :=
      defined_bind_pure _
    have hunpack : Defined (idlCgenUnpackRef named) ↔ Defined (idlCgenUnpackName named) :=
      defined_bind_pure _
    rw [TypeHasFns, ← defined_cgenNames_iff, ← hpack, ← hunpack, bindingFns, primitiveAlias,
      ok_bind]
    · apply defined_bind_of_forall
      intro pack _
      exact defined_bind_pure _
    · rintro ⟨⟩

/-- What the generators need of a method. -/
structure MethodFits (method : IdlMethod) : Prop where
  name : method.name.length < 2 ^ 31
  request : TypeHasFns method.request
  response : TypeHasFns method.response

theorem defined_bindingResponse (h : method.name.length < 2 ^ 31) :
    Defined (bindingResponse method) := by
  obtain ⟨name, request, response, attrs⟩ := method
  have hresp : Defined (fmtStr msgConstantResp name >>= fun resp ↦ pure (cexprIdent resp)) :=
    (defined_bind_pure _).mpr ((defined_msgConstantResp_iff name).mpr h)
  cases response with
  | nil => exact defined_ok _
  | _ => exact hresp

theorem defined_idlCgenBinding_iff (hrequest : Resolved method.request)
    (hresponse : Resolved method.response) (iface : IdlIface) :
    Defined (idlCgenBinding method iface) ↔ MethodFits method := by
  have hparts :
      Defined (idlCgenBinding method iface) ↔ Defined (fmtStr msgConstantReq method.name) ∧
      Defined (bindingFns method.request) ∧ Defined (bindingResponse method) ∧
        Defined (bindingFns method.response) := by
    apply defined_bind_of_forall
    intro req _
    apply defined_bind_of_forall
    intro reqFns _
    apply defined_bind_of_forall
    intro resp _
    exact defined_bind_pure _
  rw [hparts, defined_msgConstantReq_iff, defined_bindingFns_iff hrequest,
    defined_bindingFns_iff hresponse]
  constructor
  · rintro ⟨hname, hreq, -, hresp⟩
    exact ⟨hname, hreq, hresp⟩
  · intro hfits
    exact ⟨hfits.name, hfits.request, defined_bindingResponse hfits.name, hfits.response⟩

theorem defined_idlCgenDeclPrimitive (name : List UInt8) (named : IdlAlias) :
    Defined (idlCgenDeclPrimitive (.primitive name (some named))) := by
  rw [idlCgenDeclPrimitive]
  split <;> exact defined_ok _

theorem defined_dispatchBuffer (name : List Char) (h : Resolved type) :
    Defined (dispatchBuffer name type) := by
  cases h with
  | nil => exact defined_ok _
  | primitive typeName named =>
    exact (defined_bind_pure _).mpr (defined_idlCgenDeclPrimitive typeName named)

theorem defined_idlCgenDispatchCase_iff (hrequest : Resolved method.request)
    (hresponse : Resolved method.response) (iface : IdlIface) :
    Defined (idlCgenDispatchCase method iface) ↔ MethodFits method := by
  have hvtable : Defined (idlCgenDispatchVtable iface) := by
    rw [idlCgenDispatchVtable, fmtStr_default (by decide) (by decide)]
    exact defined_ok _
  have hhandler : Defined (idlCgenDispatchHandler method iface) := (defined_bind_pure _).mpr hvtable
  have hparts : Defined (idlCgenDispatchCase method iface) ↔
      Defined (idlCgenDispatchHandler method iface) ∧ Defined (idlCgenBinding method iface) ∧
        Defined (dispatchBuffer ['r', 'e', 'q', '_', 'b', 'u', 'f'] method.request) ∧
          Defined (dispatchBuffer ['r', 'e', 's', 'p', '_', 'b', 'u', 'f'] method.response) := by
    apply defined_bind_of_forall
    intro handler _
    apply defined_bind_of_forall
    intro binding _
    apply defined_bind_of_forall
    rintro ⟨reqDecl, reqArg⟩ _
    exact defined_bind_pure _
  rw [hparts, defined_idlCgenBinding_iff hrequest hresponse]
  constructor
  · rintro ⟨-, hfits, -⟩
    exact hfits
  · intro hfits
    exact ⟨hhandler, hfits, defined_dispatchBuffer _ hrequest, defined_dispatchBuffer _ hresponse⟩

theorem defined_dispatchCases_iff (iface : IdlIface)
    (h : ∀ method ∈ methods, Resolved method.request ∧ Resolved method.response) :
    Defined (dispatchCases iface methods) ↔ ∀ method ∈ methods, MethodFits method := by
  induction methods with
  | nil => exact iff_of_true (defined_ok _) nofun
  | cons method methods ih =>
    have hlabel : Defined (fmtStr msgUpperReq method.name) := by
      rw [fmtStr_msgUpperReq]
      exact defined_ok _
    have hparts : Defined (dispatchCases iface (method :: methods)) ↔
        Defined (fmtStr msgUpperReq method.name) ∧ Defined (idlCgenDispatchCase method iface) ∧
          Defined (dispatchCases iface methods) := by
      apply defined_bind_of_forall
      intro label _
      apply defined_bind_of_forall
      intro body _
      exact defined_bind_pure _
    obtain ⟨hrequest, hresponse⟩ := h method List.mem_cons_self
    rw [hparts, and_iff_right hlabel, defined_idlCgenDispatchCase_iff hrequest hresponse,
      ih fun other hother ↦ h other (List.mem_cons_of_mem method hother), List.forall_mem_cons]

theorem defined_messageParam (name : List Char) (attr : ℕ) (h : Resolved type) :
    Defined (messageParam name attr type) := by
  cases h with
  | nil => exact defined_ok _
  | primitive typeName named =>
    exact (defined_bind_pure _).mpr (defined_idlCgenDeclPrimitive typeName named)

/-- What `idl_sema_module` hands over: the type of the errors is an alias, and every request and
response is an alias or missing. -/
structure SemaDone (module : IdlModule) (methods : List IdlMethod) : Prop where
  errors : ∃ name named, module.errors = .primitive name (some named)
  methods : ∀ method ∈ methods, Resolved method.request ∧ Resolved method.response

theorem SemaDone.tail (h : SemaDone module (method :: methods)) : SemaDone module methods :=
  ⟨h.errors, fun other hother ↦ h.methods other (List.mem_cons_of_mem method hother)⟩

theorem SemaDone.types (h : SemaDone module methods) (hmethod : method ∈ methods) :
    Defined (idlCgenMethodType method module) ∧ Defined (idlCgenHandlerType method module) := by
  obtain ⟨name, named, herrors⟩ := h.errors
  obtain ⟨hrequest, hresponse⟩ := h.methods method hmethod
  have hret : Defined (idlCgenDeclPrimitive module.errors) := by
    rw [herrors]
    exact defined_idlCgenDeclPrimitive name named
  have hreq := defined_messageParam ['r', 'e', 'q'] ctypeConst hrequest
  have hresp := defined_messageParam ['r', 'e', 's', 'p'] 0 hresponse
  obtain ⟨ret, hret⟩ := hret
  obtain ⟨req, hreq⟩ := hreq
  obtain ⟨resp, hresp⟩ := hresp
  rw [idlCgenMethodType, idlCgenHandlerType, hret, ok_bind, ok_bind, hreq, ok_bind, ok_bind, hresp]
  exact ⟨defined_ok _, defined_ok _⟩

theorem defined_increment_iff (i : ℕ) : Defined (increment i) ↔ i + 1 < 2 ^ 31 := by
  rw [increment]
  split
  next h => exact iff_of_true (defined_ok _) h
  next h => exact iff_of_false (not_defined_error _) h

theorem eq_of_increment {i next : ℕ} (h : increment i = .ok next) : next = i + 1 := by
  rw [increment] at h
  split at h
  · exact (Except.ok.inj h).symm
  · cases h

theorem defined_headerMethods_iff (h : SemaDone module methods) {i : ℕ} (hi : i < 2 ^ 31) :
    Defined (headerMethods module i methods) ↔
      (∀ method ∈ methods, method.name.length < 2 ^ 31) ∧ i + 2 * methods.length < 2 ^ 31 := by
  induction methods generalizing i with
  | nil =>
    refine iff_of_true (defined_ok _) ⟨nofun, hi⟩
  | cons method methods ih =>
    obtain ⟨htype, hhandler⟩ := h.types List.mem_cons_self
    have hrpc : Defined (fmtStr ['{', '}', '_', 'r', 'p', 'c'] method.name) := by
      rw [fmtStr_default (by decide) (by decide)]
      exact defined_ok _
    have hpascal : Defined (caseChange .pascal method.name) ↔ method.name.length < 2 ^ 31 :=
      defined_caseToPascal_iff method.name
    have hparts : Defined (headerMethods module i (method :: methods)) ↔
        Defined (caseChange .pascal method.name) ∧ Defined (idlCgenMethodType method module) ∧
          Defined (idlCgenHandlerType method module) ∧
            Defined (fmtStr ['{', '}', '_', 'r', 'p', 'c'] method.name) ∧
              Defined (fmtStr msgConstantReq method.name) ∧ Defined (increment i) ∧
                Defined (fmtStr msgConstantResp method.name) ∧ Defined (increment (i + 1)) ∧
                  Defined (headerMethods module (i + 2) methods) := by
      apply defined_bind_of_forall
      intro name _
      apply defined_bind_of_forall
      intro methodType _
      apply defined_bind_of_forall
      intro handlerType _
      apply defined_bind_of_forall
      intro rpc _
      apply defined_bind_of_forall
      intro req _
      apply defined_bind_of_forall
      intro afterReq hafterReq
      obtain rfl := eq_of_increment hafterReq
      apply defined_bind_of_forall
      intro resp _
      apply defined_bind_of_forall
      intro afterResp hafterResp
      obtain rfl := eq_of_increment hafterResp
      exact defined_bind_pure _
    rw [hparts, hpascal, and_iff_right htype, and_iff_right hhandler, and_iff_right hrpc,
      defined_msgConstantReq_iff, defined_msgConstantResp_iff, defined_increment_iff,
      defined_increment_iff, List.forall_mem_cons, List.length_cons]
    constructor
    · rintro ⟨hname, -, -, -, hnext, hrest⟩
      obtain ⟨hnames, hcount⟩ := (ih h.tail hnext).mp hrest
      exact ⟨⟨hname, hnames⟩, by omega⟩
    · rintro ⟨⟨hname, hnames⟩, hcount⟩
      have hnext : i + 1 + 1 < 2 ^ 31 := by omega
      exact ⟨hname, hname, by omega, hname, hnext, (ih h.tail hnext).mpr ⟨hnames, by omega⟩⟩

/-- What the generators need of an interface. -/
structure Generates (iface : IdlIface) : Prop where
  name : iface.name.length < 2 ^ 31
  count : 2 * iface.methods.length < 2 ^ 31
  methods : ∀ method ∈ iface.methods, MethodFits method

theorem defined_idlCgenIfaceHeader_iff (unit : CUnit) (h : SemaDone module iface.methods) :
    Defined (idlCgenIfaceHeader unit module iface) ↔ iface.name.length < 2 ^ 31 ∧
      (∀ method ∈ iface.methods, method.name.length < 2 ^ 31) ∧
        2 * iface.methods.length < 2 ^ 31 := by
  have hproto := @defined_fmtStr_iff protoFormat (ascii ['I', 'P', 'C', '_'])
    (ascii ['c', 'a', 's', 'e', '-', 'c', 'o', 'n', 's', 't', 'a', 'n', 't', '}'])
    (ascii ['_', 'P', 'R', 'O', 'T', 'O']) .constant rfl (by decide) ⟨by decide, rfl⟩ (by decide)
    (by decide) iface.name
  have hprovide :=
    @defined_fmtStr_iff provideFormat [] (ascii ['c', 'a', 's', 'e', '-', 's', 'n', 'a', 'k',
    'e', '}']) (ascii ['_', 'p', 'r', 'o', 'v', 'i', 'd', 'e']) .snake rfl (by decide)
    ⟨by decide, rfl⟩ (by decide) (by decide) iface.name
  have hconstant :
      Defined (fmtString (fmtCase .constant) iface.name) ↔ iface.name.length < 2 ^ 31 :=
    defined_caseToConstant_iff iface.name
  have hsnake : Defined (fmtString (fmtCase .snake) iface.name) ↔ iface.name.length < 2 ^ 31 :=
    defined_caseSpaced_iff 95 iface.name
  have hdefault {after : List Char} (hafter : Plain (ascii after)) (hlength : after.length < 1024) :
      Defined (fmtStr ('{' :: '}' :: after) iface.name) := by
    rw [fmtStr_default hafter hlength]
    exact defined_ok _
  have hmsgs := @hdefault ['M', 's', 'g', 's'] (by decide) (by decide)
  have hvtable := @hdefault ['V', 'T', 'a', 'b', 'l', 'e'] (by decide) (by decide)
  have hprovider : Defined (idlCgenProviderType iface) := (defined_bind_pure _).mpr hvtable
  have hparts : Defined (idlCgenIfaceHeader unit module iface) ↔
      Defined (fmtStr protoFormat iface.name) ∧
      Defined (headerMethods module 0 iface.methods) ∧
        Defined (fmtStr ['{', '}', 'M', 's', 'g', 's'] iface.name) ∧
          Defined (fmtStr ['{', '}', 'V', 'T', 'a', 'b', 'l', 'e'] iface.name) ∧
            Defined (fmtStr provideFormat iface.name) ∧ Defined (idlCgenProviderType iface) := by
    apply defined_bind_of_forall
    intro proto _
    apply defined_bind_of_forall
    intro header _
    apply defined_bind_of_forall
    intro msgs _
    apply defined_bind_of_forall
    intro vtable _
    apply defined_bind_of_forall
    intro provide _
    exact defined_bind_pure _
  rw [hparts, hproto, hconstant, defined_headerMethods_iff h (by decide), and_iff_right hmsgs,
    and_iff_right hvtable, hprovide, hsnake, and_iff_left hprovider, Nat.zero_add]
  exact ⟨fun hall ↦ ⟨hall.1, hall.2.1⟩, fun hall ↦ ⟨hall.1, hall.2, hall.1⟩⟩

/-- Header and dispatch function are generated if and only if the names fit in a scanner, the values
in an `int`, and the types have functions. -/
theorem generates_iff (unit : CUnit) (h : SemaDone module iface.methods) :
    (Defined (idlCgenIfaceHeader unit module iface) ∧ Defined (idlCgenDispatchBody iface)) ↔
      Generates iface := by
  have hbody : Defined (idlCgenDispatchBody iface) ↔ Defined (dispatchCases iface iface.methods) :=
    defined_bind_pure _
  rw [defined_idlCgenIfaceHeader_iff unit h, hbody, defined_dispatchCases_iff iface h.methods]
  constructor
  · rintro ⟨⟨hname, -, hcount⟩, hmethods⟩
    exact ⟨hname, hcount, hmethods⟩
  · intro hgen
    exact ⟨⟨hgen.name, fun method hmethod ↦ (hgen.methods method hmethod).name, hgen.count⟩,
      hgen.methods⟩

/-- The constants of the enumerations that a header declares. -/
def declaredMessages (unit : CUnit) : List (List UInt8 × CVal) :=
  unit.flatMap fun entry ↦
    match entry with
    | .declaration (.type _ _ _ (.mk (.enum constants) _ _)) => constants
    | _ => []

/-- The names of the constants that a header declares for a method, given by its number. -/
def methodMessages (messages : List (List UInt8 × CVal)) (i : ℕ) : List (List UInt8) :=
  ((messages.drop (2 * i)).take 2).map Prod.fst

/-- The value of a name in C. -/
def messageValue (messages : List (List UInt8 × CVal)) (name : List UInt8) : Option CVal :=
  (messages.find? (·.1 = name)).map Prod.snd

/-- The messages that a method has under the constant case. -/
def ownMessages (text : List UInt8) (i : ℕ) : List (List UInt8 × CVal) :=
  [(messageName text ['_', 'R', 'E', 'Q'], .unsigned i),
    (messageName text ['_', 'R', 'E', 'S', 'P'], .unsigned (i + 1))]

/-- The messages of methods whose constant cases are known. -/
def messagesFrom : ℕ → List (List UInt8) → List (List UInt8 × CVal)
  | _, [] => []
  | i, text :: texts => ownMessages text i ++ messagesFrom (i + 2) texts

attribute [local grind =] messagesFrom methodMessages

theorem declaredMessages_append (first second : CUnit) :
    declaredMessages (first ++ second) = declaredMessages first ++ declaredMessages second :=
  List.flatMap_append

theorem declaredMessages_take (h : declaredMessages unit = []) (count : ℕ) :
    declaredMessages (unit.take count) = [] := by
  rw [← List.take_append_drop count unit, declaredMessages_append] at h
  exact (List.append_eq_nil_iff.mp h).1

theorem declaredMessages_handler {type : Cc.CType} (h : idlCgenHandlerType method module = .ok type)
    (name : List UInt8) : declaredMessages [.declaration (cdeclType name type)] = [] := by
  obtain ⟨ret, -, h⟩ := bind_eq_ok.mp h
  obtain ⟨req, -, h⟩ := bind_eq_ok.mp h
  obtain ⟨resp, -, h⟩ := bind_eq_ok.mp h
  rw [pure_eq_ok] at h
  subst h
  rfl

/-- The loop over the methods declares their messages in order, with numbers one after the other. -/
theorem headerMethods_messages {i : ℕ} {header : Header}
    (h : headerMethods module i methods = .ok header) :
    header.unit.length = 2 * methods.length ∧ declaredMessages header.unit = [] ∧ ∃ texts,
      methods.map (fun method ↦ caseToConstant method.name) = texts.map .ok ∧
        header.messages = messagesFrom i texts := by
  induction methods generalizing i header with
  | nil =>
    obtain rfl := Except.ok.inj h
    exact ⟨rfl, rfl, [], rfl, rfl⟩
  | cons method methods ih =>
    obtain ⟨name, -, h⟩ := bind_eq_ok.mp h
    obtain ⟨methodType, -, h⟩ := bind_eq_ok.mp h
    obtain ⟨handlerType, hhandler, h⟩ := bind_eq_ok.mp h
    obtain ⟨rpc, -, h⟩ := bind_eq_ok.mp h
    obtain ⟨req, hreq, h⟩ := bind_eq_ok.mp h
    obtain ⟨afterReq, hafterReq, h⟩ := bind_eq_ok.mp h
    obtain ⟨resp, hresp, h⟩ := bind_eq_ok.mp h
    obtain ⟨afterResp, hafterResp, h⟩ := bind_eq_ok.mp h
    obtain ⟨rest, hrest, hheader⟩ := bind_eq_ok.mp h
    obtain rfl := eq_of_increment hafterReq
    obtain rfl := eq_of_increment hafterResp
    obtain ⟨hlength, hunit, texts, htexts, hmessages⟩ := ih hrest
    rw [fmtStr_msgConstantReq] at hreq
    obtain ⟨text, htext, hreq⟩ := bind_eq_ok.mp hreq
    rw [fmtStr_msgConstantResp, htext, ok_bind] at hresp
    obtain rfl := Except.ok.inj hreq
    obtain rfl := Except.ok.inj hresp
    rw [pure_eq_ok] at hheader
    subst hheader
    refine ⟨?_, ?_, text :: texts, ?_, ?_⟩
    · simp only [List.length_cons, hlength]
      omega
    · change declaredMessages ([.declaration (cdeclType name handlerType)] ++
        ([.declaration (cdeclFunc rpc methodType .empty)] ++ rest.unit)) = []
      rw [declaredMessages_append, declaredMessages_append, declaredMessages_handler hhandler,
        hunit]
      rfl
    · rw [List.map_cons, List.map_cons, htexts, htext]
    · rw [messagesFrom, ← hmessages]
      rfl

/-! ## Messages by number -/

theorem messagesFrom_values (i : ℕ) (texts : List (List UInt8)) :
    (messagesFrom i texts).map Prod.snd =
      (List.range' i (2 * texts.length)).map CVal.unsigned := by
  induction texts generalizing i with
  | nil => rfl
  | cons text texts ih =>
    have hlength : 2 * (text :: texts).length = 2 * texts.length + 1 + 1 := by
      rw [List.length_cons]
      omega
    rw [messagesFrom, List.map_append, ih, hlength, List.range'_succ, List.range'_succ]
    rfl

theorem length_messagesFrom (i : ℕ) (texts : List (List UInt8)) :
    (messagesFrom i texts).length = 2 * texts.length := by
  rw [← List.length_map Prod.snd, messagesFrom_values, List.length_map, List.length_range']

theorem vecRoom_cunitEntrySize : vecRoom cunitEntrySize = 2 ^ 21 :=
  vecRoom_eq (by decide) (by decide)

theorem vecRoom_ctypeConstSize : vecRoom ctypeConstSize = 2 ^ 25 :=
  vecRoom_eq (by decide) (by decide)

theorem vecRoom_cstmtSize : vecRoom cstmtSize = 2 ^ 22 := vecRoom_eq (by decide) (by decide)

/-- The unit has room for the entries of an interface up to the one with its messages. -/
def HasRoom (unit : CUnit) (iface : IdlIface) : Prop :=
  unit.length + (2 * iface.methods.length + 2) ≤ vecRoom cunitEntrySize

instance (unit : CUnit) (iface : IdlIface) : Decidable (HasRoom unit iface) :=
  inferInstanceAs (Decidable (_ ≤ _))

/-- With room for them in the unit, the header declares the messages of all methods, and none
otherwise. -/
theorem idlCgenIfaceHeader_messages {before after : CUnit}
    (h : idlCgenIfaceHeader before module iface = .ok after) :
    ∃ texts added, iface.methods.map (fun method ↦ caseToConstant method.name) = texts.map .ok ∧
      after = before ++ added ∧
        declaredMessages added = if HasRoom before iface then messagesFrom 0 texts else [] := by
  obtain ⟨proto, -, h⟩ := bind_eq_ok.mp h
  obtain ⟨header, hheader, h⟩ := bind_eq_ok.mp h
  obtain ⟨msgs, -, h⟩ := bind_eq_ok.mp h
  obtain ⟨vtable, -, h⟩ := bind_eq_ok.mp h
  obtain ⟨provide, -, h⟩ := bind_eq_ok.mp h
  obtain ⟨providerType, -, h⟩ := bind_eq_ok.mp h
  rw [pure_eq_ok] at h
  subst h
  obtain ⟨hlength, hunit, texts, htexts, hmessages⟩ := headerMethods_messages hheader
  have hcount : texts.length = iface.methods.length := by
    rw [← List.length_map Except.ok, ← htexts, List.length_map]
  refine ⟨texts, _, htexts, foldl_vecPush cunitEntrySize before _, ?_⟩
  generalize hfront : CUnitEntry.define proto [] (cexprConstant (.unsigned iface.id.toNat)) ::
    header.unit = front
  have hnone : declaredMessages front = [] := hfront ▸ hunit
  have hfrontLength : front.length = 2 * iface.methods.length + 1 := by
    rw [← hfront, List.length_cons, hlength]
  split
  next hroom =>
    rw [HasRoom] at hroom
    have hall : header.messages.foldl (vecPush ctypeConstSize) [] = messagesFrom 0 texts := by
      rw [foldl_vecPush_of_le, hmessages, List.nil_append]
      rw [vecRoom_cunitEntrySize] at hroom
      rw [hmessages, length_messagesFrom, vecRoom_ctypeConstSize, List.length_nil]
      omega
    obtain ⟨left, hleft⟩ : ∃ left, vecRoom cunitEntrySize - before.length =
        front.length + (left + 1) :=
      ⟨vecRoom cunitEntrySize - before.length - (2 * iface.methods.length + 2), by omega⟩
    rw [hleft, List.take_length_add_append, List.take_succ_cons, hall, declaredMessages_append,
      hnone, List.nil_append, ← List.singleton_append, declaredMessages_append,
      declaredMessages_take rfl, List.append_nil]
    exact List.append_nil _
  next hroom =>
    rw [HasRoom] at hroom
    rw [List.take_append_of_le_length (by omega)]
    exact declaredMessages_take hnone _

theorem messagesFrom_drop (i j : ℕ) (texts : List (List UInt8)) :
    (messagesFrom i texts).drop (2 * j) = messagesFrom (i + 2 * j) (texts.drop j) := by
  induction j generalizing i texts with
  | zero => rfl
  | succ j ih =>
    cases texts with
    | nil => grind
    | cons text texts =>
      have hindex : i + 2 + 2 * j = i + 2 * (j + 1) := by omega
      rw [messagesFrom, List.drop_succ_cons, ← hindex, ← ih]
      rfl

/-- The messages of a method are its own, with twice its number as the first value. -/
theorem messagesFrom_take {j : ℕ} (h : texts[j]? = some text) (i : ℕ) :
    ((messagesFrom i texts).drop (2 * j)).take 2 = ownMessages text (i + 2 * j) := by
  rw [messagesFrom_drop, List.drop_eq_getElem?_toList_append, h]
  rfl

/-- The two kinds of messages end differently, and messages of one kind have different texts. -/
theorem messageName_req_inj {first second : List UInt8}
    (h : messageName first ['_', 'R', 'E', 'Q'] = messageName second ['_', 'R', 'E', 'Q']) :
    first = second :=
  List.append_cancel_right (List.append_cancel_left h)

theorem messageName_req_ne_resp (first second : List UInt8) :
    messageName first ['_', 'R', 'E', 'Q'] ≠ messageName second ['_', 'R', 'E', 'S', 'P'] := by
  intro h
  have hlast (text kind : List UInt8) (hkind : kind ≠ []) :
      (ascii ['M', 'S', 'G', '_'] ++ (text ++ kind)).getLast? = kind.getLast? := by
    rw [← List.append_assoc, List.getLast?_append_of_ne_nil _ hkind]
  have hreq : (messageName first ['_', 'R', 'E', 'Q']).getLast? = some 81 :=
    hlast first _ (by decide)
  have hresp : (messageName second ['_', 'R', 'E', 'S', 'P']).getLast? = some 80 :=
    hlast second _ (by decide)
  rw [h, hresp] at hreq
  cases hreq

/-- The request of a method has its own value if no two methods have one constant case. -/
theorem messageValue_req (hnodup : texts.Nodup) {j : ℕ} (h : texts[j]? = some text) (i : ℕ) :
    messageValue (messagesFrom i texts) (messageName text ['_', 'R', 'E', 'Q']) =
      some (.unsigned (i + 2 * j)) := by
  induction texts generalizing i j with
  | nil => cases h
  | cons first texts ih =>
    rw [List.nodup_cons] at hnodup
    rw [messageValue, messagesFrom, ownMessages, List.cons_append, List.cons_append,
      List.nil_append]
    cases j with
    | zero =>
      obtain rfl := Option.some.inj h
      rw [List.find?_cons_of_pos (by exact decide_eq_true rfl)]
      rfl
    | succ j =>
      have hmem : text ∈ texts := List.mem_of_getElem? h
      have hreq :
          messageName first ['_', 'R', 'E', 'Q'] ≠ messageName text ['_', 'R', 'E', 'Q'] := by
        intro hname
        rw [messageName_req_inj hname] at hnodup
        exact hnodup.1 hmem
      have hresp := (messageName_req_ne_resp text first).symm
      have hindex : i + 2 + 2 * j = i + 2 * (j + 1) := by omega
      rw [List.find?_cons_of_neg (by simpa using hreq),
        List.find?_cons_of_neg (by simpa using hresp), ← hindex]
      exact ih hnodup.2 h (i + 2)

def identName : CExpr → List (List UInt8)
  | .ident _ name => [name]
  | _ => []

/-- The messages in the fields `req_id` and `resp_id` of a binding. -/
def bindingMessages : CExpr → List (List UInt8)
  | .initializer _ _ (_ :: req :: _ :: _ :: resp :: _) => identName req ++ identName resp
  | _ => []

theorem bindingFns_two {fns : List CExpr} (h : bindingFns type = .ok fns) :
    ∃ pack unpack, fns = [pack, unpack] := by
  have hsome {named : Except Fault IdlAlias}
      (h : (named >>= fun named ↦ idlCgenPackRef named >>= fun pack ↦
        idlCgenUnpackRef named >>= fun unpack ↦ pure [pack, unpack]) = .ok fns) :
      ∃ pack unpack, fns = [pack, unpack] := by
    obtain ⟨named, -, h⟩ := bind_eq_ok.mp h
    obtain ⟨pack, -, h⟩ := bind_eq_ok.mp h
    obtain ⟨unpack, -, h⟩ := bind_eq_ok.mp h
    exact ⟨pack, unpack, (pure_eq_ok.mp h).symm⟩
  cases type with
  | nil => exact ⟨_, _, (Except.ok.inj h).symm⟩
  | _ => exact hsome h

theorem bindingResponse_messages {resp : CExpr} (htext : caseToConstant method.name = .ok text)
    (h : bindingResponse method = .ok resp) :
    identName resp ⊆ [messageName text ['_', 'R', 'E', 'S', 'P']] := by
  have hsome (h : (fmtStr msgConstantResp method.name >>= fun resp ↦ pure (cexprIdent resp)) =
      .ok resp) : identName resp ⊆ [messageName text ['_', 'R', 'E', 'S', 'P']] := by
    rw [fmtStr_msgConstantResp, htext, ok_bind, ok_bind, pure_eq_ok] at h
    subst h
    exact List.Subset.refl _
  obtain ⟨name, request, response, attrs⟩ := method
  cases response with
  | nil =>
    obtain rfl := Except.ok.inj h
    exact List.nil_subset _
  | _ => exact hsome h

/-- A binding has the request of its method, and no other message but the response. -/
theorem idlCgenBinding_messages {binding : CExpr} (htext : caseToConstant method.name = .ok text)
    (h : idlCgenBinding method iface = .ok binding) :
    ∃ others, bindingMessages binding = messageName text ['_', 'R', 'E', 'Q'] :: others ∧
      others ⊆ [messageName text ['_', 'R', 'E', 'S', 'P']] := by
  obtain ⟨req, hreq, h⟩ := bind_eq_ok.mp h
  obtain ⟨reqFns, hreqFns, h⟩ := bind_eq_ok.mp h
  obtain ⟨resp, hresp, h⟩ := bind_eq_ok.mp h
  obtain ⟨respFns, -, hbinding⟩ := bind_eq_ok.mp h
  obtain ⟨pack, unpack, rfl⟩ := bindingFns_two hreqFns
  rw [fmtStr_msgConstantReq, htext, ok_bind] at hreq
  obtain rfl := Except.ok.inj hreq
  rw [pure_eq_ok] at hbinding
  subst hbinding
  exact ⟨identName resp, rfl, bindingResponse_messages htext hresp⟩

/-- The statement behind the first label of a value in the block of a `switch`. -/
def switchTarget (messages : List (List UInt8 × CVal)) (value : CVal) : List CStmt → Option CStmt
  | .case (.ident _ label) :: target :: rest =>
    if messageValue messages label = some value then some target
    else switchTarget messages value rest
  | _ => none

/-- The cases of a method stand at its number. -/
theorem dispatchCases_at {cases : List CStmt} (h : dispatchCases iface methods = .ok cases) {i : ℕ}
    (hmethod : methods[i]? = some method) :
    cases[2 * i]? = some (.case (cexprIdent
        (messageName (method.name.map upperByte) ['_', 'R', 'E', 'Q']))) ∧
      ∃ body, idlCgenDispatchCase method iface = .ok body ∧
        cases[2 * i + 1]? = some (.block (body ++ [.break])) := by
  induction methods generalizing i cases with
  | nil => cases hmethod
  | cons first methods ih =>
    obtain ⟨label, hlabel, h⟩ := bind_eq_ok.mp h
    obtain ⟨body, hbody, h⟩ := bind_eq_ok.mp h
    obtain ⟨rest, hrest, hcases⟩ := bind_eq_ok.mp h
    rw [fmtStr_msgUpperReq] at hlabel
    obtain rfl := Except.ok.inj hlabel
    rw [pure_eq_ok] at hcases
    subst hcases
    cases i with
    | zero =>
      obtain rfl := Option.some.inj hmethod
      exact ⟨rfl, body, hbody, rfl⟩
    | succ i => exact ih hrest hmethod

/-- A request goes to the case of its method if the labels have the values of the requests. -/
theorem switchTarget_case {messages : List (List UInt8 × CVal)} {cases : List CStmt}
    (h : dispatchCases iface methods = .ok cases) {start : ℕ}
    (hlabels : ∀ j method, methods[j]? = some method → messageValue messages
      (messageName (method.name.map upperByte) ['_', 'R', 'E', 'Q']) =
        some (.unsigned (start + 2 * j))) {i : ℕ} (hi : i < methods.length) :
    switchTarget messages (.unsigned (start + 2 * i)) cases = cases[2 * i + 1]? := by
  induction methods generalizing i start cases with
  | nil => exact absurd hi (Nat.not_lt_zero _)
  | cons first methods ih =>
    obtain ⟨label, hlabel, h⟩ := bind_eq_ok.mp h
    obtain ⟨body, hbody, h⟩ := bind_eq_ok.mp h
    obtain ⟨rest, hrest, hcases⟩ := bind_eq_ok.mp h
    rw [fmtStr_msgUpperReq] at hlabel
    obtain rfl := Except.ok.inj hlabel
    rw [pure_eq_ok] at hcases
    subst hcases
    have hfirst := hlabels 0 first rfl
    rw [cexprIdent, switchTarget, hfirst]
    cases i with
    | zero =>
      rw [if_pos rfl]
      rfl
    | succ i =>
      have hne : (some (CVal.unsigned (start + 2 * 0)) : Option CVal) ≠
          some (.unsigned (start + 2 * (i + 1))) := by
        rw [ne_eq, Option.some.injEq, CVal.unsigned.injEq]
        omega
      have hindex : start + 2 + 2 * i = start + 2 * (i + 1) := by omega
      rw [if_neg hne, ← hindex]
      apply ih hrest _ (Nat.lt_of_succ_lt_succ hi)
      intro j method hmethod
      have hnext : start + 2 + 2 * j = start + 2 * (j + 1) := by omega
      rw [hnext]
      exact hlabels (j + 1) method hmethod

/-- The label of a method's case and the messages of its binding are constants that the header
declares for the method, and a request of the method goes to its case. -/
structure MethodAgrees (messages : List (List UInt8 × CVal)) (cases : List CStmt)
    (iface : IdlIface) (i : ℕ) (method : IdlMethod) : Prop where
  label : ∃ label ∈ methodMessages messages i, cases[2 * i]? = some (.case (cexprIdent label))
  binding : ∃ binding, idlCgenBinding method iface = .ok binding ∧
    bindingMessages binding ⊆ methodMessages messages i ∧
      ∃ req ∈ (bindingMessages binding).head?, ∃ value, messageValue messages req = some value ∧
        ∃ body, idlCgenDispatchCase method iface = .ok body ∧
          switchTarget messages value cases = some (.block (body ++ [.break]))

/-- The code of an interface is generated, its messages have different values, and every method
agrees with what the header adds to the unit. -/
def NamesAgree (unit : CUnit) (module : IdlModule) (iface : IdlIface) : Prop :=
  ∃ added cases, idlCgenIfaceHeader unit module iface = .ok (unit ++ added) ∧
    idlCgenDispatchBody iface = .ok (dispatchSwitch cases) ∧
      ((declaredMessages added).map Prod.snd).Nodup ∧
        ∀ i method, iface.methods[i]? = some method →
          MethodAgrees (declaredMessages added) cases iface i method

theorem dispatchBody_cases {cases : List CStmt}
    (h : idlCgenDispatchBody iface = .ok (dispatchSwitch cases)) :
    ∃ found, dispatchCases iface iface.methods = .ok found ∧
      cases = found.take (vecRoom cstmtSize) := by
  obtain ⟨found, hfound, h⟩ := bind_eq_ok.mp h
  rw [pure_eq_ok, foldl_vecPush] at h
  injection h with hblock
  injection hblock with hswitch
  injection hswitch with _ hcases
  injection hcases with hcases
  exact ⟨found, hfound, hcases.symm⟩

theorem length_dispatchCases {cases : List CStmt} (h : dispatchCases iface methods = .ok cases) :
    cases.length = 2 * methods.length := by
  induction methods generalizing cases with
  | nil =>
    obtain rfl := Except.ok.inj h
    rfl
  | cons method methods ih =>
    obtain ⟨label, -, h⟩ := bind_eq_ok.mp h
    obtain ⟨body, -, h⟩ := bind_eq_ok.mp h
    obtain ⟨rest, hrest, hcases⟩ := bind_eq_ok.mp h
    rw [pure_eq_ok] at hcases
    subst hcases
    simp only [List.length_cons, ih hrest]
    omega

theorem getElem?_texts
    (htexts : methods.map (fun method ↦ caseToConstant method.name) = texts.map .ok) {i : ℕ}
    (hmethod : methods[i]? = some method) :
    ∃ text, texts[i]? = some text ∧ caseToConstant method.name = .ok text := by
  have hget := congrArg (·[i]?) htexts
  simp only [List.getElem?_map, hmethod, Option.map_some] at hget
  cases htext : texts[i]? with
  | none =>
    rw [htext] at hget
    cases hget
  | some text =>
    rw [htext] at hget
    exact ⟨text, rfl, Option.some.inj hget⟩

theorem nodup_texts (htexts : methods.map (fun method ↦ caseToConstant method.name) = texts.map .ok)
    (hdistinct : methods.Pairwise fun first second ↦
      caseToConstant first.name ≠ caseToConstant second.name) : texts.Nodup := by
  have hpairwise : (texts.map (Except.ok : _ → Except Fault (List UInt8))).Nodup := by
    rw [← htexts]
    exact List.pairwise_map.mpr hdistinct
  exact List.Nodup.of_map _ hpairwise

/-- The request of a method in upper case has the number of the method. -/
theorem messageValue_upper
    (htexts : methods.map (fun method ↦ caseToConstant method.name) = texts.map .ok)
    (hnodup : texts.Nodup) {j : ℕ} {method : IdlMethod} (hmethod : methods[j]? = some method)
    (hupper : caseToConstant method.name = .ok (method.name.map upperByte)) :
    messageValue (messagesFrom 0 texts)
        (messageName (method.name.map upperByte) ['_', 'R', 'E', 'Q']) =
      some (.unsigned (0 + 2 * j)) := by
  obtain ⟨text, htext, hconstant⟩ := getElem?_texts htexts hmethod
  rw [Except.ok.inj (hupper.symm.trans hconstant)]
  exact messageValue_req hnodup htext 0

/-- What decides whether the names agree: the code is generated, the unit has room for it if there
are methods, and their names have one spelling. -/
structure Consistent (unit : CUnit) (iface : IdlIface) : Prop where
  generates : Generates iface
  room : iface.methods ≠ [] → HasRoom unit iface
  spelling : ∀ method ∈ iface.methods, OneSpelling method.name

/-- Names that agree have one spelling, and the unit has room for them. -/
theorem NamesAgree.consistent (h : NamesAgree unit module iface)
    (hsema : SemaDone module iface.methods)
    (hident : ∀ method ∈ iface.methods, IsCIdent method.name) : Consistent unit iface := by
  obtain ⟨added, cases, hunit, hbody, -, hagrees⟩ := h
  have hgen := (generates_iff unit hsema).mp ⟨⟨_, hunit⟩, ⟨_, hbody⟩⟩
  obtain ⟨texts, added', htexts, hadded, hmessages⟩ := idlCgenIfaceHeader_messages hunit
  obtain rfl := List.append_cancel_left hadded
  have hroom : iface.methods ≠ [] → HasRoom unit iface := by
    intro hne
    obtain ⟨method, rest, hcons⟩ := List.exists_cons_of_ne_nil hne
    obtain ⟨label, hlabel, -⟩ := (hagrees 0 method (by rw [hcons]; rfl)).label
    by_contra hroom
    rw [if_neg hroom] at hmessages
    rw [methodMessages, hmessages, List.drop_nil, List.take_nil] at hlabel
    exact List.not_mem_nil hlabel
  refine ⟨hgen, hroom, fun method hmethod ↦ ?_⟩
  rw [if_pos (hroom (List.ne_nil_of_mem hmethod))] at hmessages
  obtain ⟨i, hi⟩ := List.getElem?_of_mem hmethod
  obtain ⟨text, htext, hconstant⟩ := getElem?_texts htexts hi
  obtain ⟨label, hlabel, hcase⟩ := (hagrees i method hi).label
  obtain ⟨found, hfound, rfl⟩ := dispatchBody_cases hbody
  have hcase : found[2 * i]? = some (.case (cexprIdent label)) := by
    rw [List.getElem?_take] at hcase
    split at hcase
    next => exact hcase
    next => cases hcase
  rw [(dispatchCases_at hfound hi).1] at hcase
  injection hcase with hcase
  injection hcase with hcase
  injection hcase with _ hcase
  rw [methodMessages, hmessages, messagesFrom_take htext, ← hcase] at hlabel
  have hnames : messageName (method.name.map upperByte) ['_', 'R', 'E', 'Q'] ∈
      [messageName text ['_', 'R', 'E', 'Q'], messageName text ['_', 'R', 'E', 'S', 'P']] := hlabel
  have hspelling : method.name.map upperByte = text := by
    rw [List.mem_cons, List.mem_singleton] at hnames
    cases hnames with
    | inl hreq => exact messageName_req_inj hreq
    | inr hresp => exact absurd hresp (messageName_req_ne_resp _ _)
  rw [← caseToConstant_eq_upper_iff (hident method hmethod) (hgen.methods method hmethod).name,
    hconstant, hspelling]

/-- Names with one spelling agree, if the unit has room for them. -/
theorem Consistent.namesAgree (h : Consistent unit iface) (hsema : SemaDone module iface.methods)
    (hident : ∀ method ∈ iface.methods, IsCIdent method.name)
    (hdistinct : iface.methods.Pairwise fun first second ↦
      caseToConstant first.name ≠ caseToConstant second.name) : NamesAgree unit module iface := by
  obtain ⟨hgen, hroom, hspelling⟩ := h
  obtain ⟨⟨after, hunit⟩, body, hbody⟩ := (generates_iff unit hsema).mpr hgen
  obtain ⟨cases, hcases, hswitch⟩ := bind_eq_ok.mp hbody
  rw [pure_eq_ok] at hswitch
  subst hswitch
  obtain ⟨texts, added, htexts, rfl, hmessages⟩ := idlCgenIfaceHeader_messages hunit
  refine ⟨added, _, hunit, hbody, ?_, ?_⟩
  · rw [hmessages]
    split
    next =>
      rw [messagesFrom_values]
      have hinjective : Function.Injective CVal.unsigned := fun first second h ↦ CVal.unsigned.inj h
      exact List.Nodup.map hinjective List.nodup_range'
    next => exact List.nodup_nil
  · intro i method hmethod
    have hmem := List.mem_of_getElem? hmethod
    have hroom := hroom (List.ne_nil_of_mem hmem)
    rw [if_pos hroom] at hmessages
    rw [HasRoom, vecRoom_cunitEntrySize] at hroom
    have hall : cases.foldl (vecPush cstmtSize) [] = cases := by
      rw [foldl_vecPush_of_le, List.nil_append]
      rw [length_dispatchCases hcases, vecRoom_cstmtSize, List.length_nil]
      omega
    rw [hall]
    have hnodup := nodup_texts htexts hdistinct
    obtain ⟨hrequest, hresponse⟩ := hsema.methods method hmem
    have hfits := hgen.methods method hmem
    obtain ⟨text, htext, hconstant⟩ := getElem?_texts htexts hmethod
    obtain ⟨hcase, caseBody, hcaseBody, htarget⟩ := dispatchCases_at hcases hmethod
    obtain ⟨binding, hbinding⟩ := (defined_idlCgenBinding_iff hrequest hresponse iface).mpr hfits
    obtain ⟨others, hothers, hresp⟩ := idlCgenBinding_messages hconstant hbinding
    have hupper : ∀ other ∈ iface.methods,
        caseToConstant other.name = .ok (other.name.map upperByte) := fun other hother ↦
      (caseToConstant_eq_upper_iff (hident other hother) (hgen.methods other hother).name).mpr
        (hspelling other hother)
    have hlabels : ∀ j other, iface.methods[j]? = some other → messageValue (declaredMessages added)
        (messageName (other.name.map upperByte) ['_', 'R', 'E', 'Q']) =
          some (.unsigned (0 + 2 * j)) := fun j other hother ↦
      hmessages ▸
        messageValue_upper htexts hnodup hother (hupper other (List.mem_of_getElem? hother))
    have htext' := Except.ok.inj (hconstant.symm.trans (hupper method hmem))
    have hown : methodMessages (declaredMessages added) i =
        [messageName text ['_', 'R', 'E', 'Q'], messageName text ['_', 'R', 'E', 'S', 'P']] := by
      rw [methodMessages, hmessages, messagesFrom_take htext]
      rfl
    have hlength : i < iface.methods.length := (List.getElem?_eq_some_iff.mp hmethod).1
    refine ⟨⟨_, ?_, hcase⟩, binding, hbinding, ?_, ?_⟩
    · rw [hown, htext']
      exact List.mem_cons_self
    · rw [hown, hothers]
      exact List.cons_subset_cons _ hresp
    · rw [hothers]
      refine ⟨_, rfl, .unsigned (0 + 2 * i), ?_, caseBody, hcaseBody, ?_⟩
      · rw [hmessages]
        exact messageValue_req hnodup htext 0
      · rw [switchTarget_case hcases hlabels hlength, htarget]

/-- The message names of an interface whose methods are C identifiers agree if and only if the code
is generated, the unit has room for its messages, and every method has one spelling in upper case
and in constant case. -/
theorem namesAgree_iff (unit : CUnit) {module : IdlModule} {iface : IdlIface}
    (hsema : SemaDone module iface.methods)
    (hident : ∀ method ∈ iface.methods, IsCIdent method.name)
    (hdistinct : iface.methods.Pairwise fun first second ↦
      caseToConstant first.name ≠ caseToConstant second.name) :
    NamesAgree unit module iface ↔ Consistent unit iface :=
  ⟨fun h ↦ h.consistent hsema hident, fun h ↦ h.namesAgree hsema hident hdistinct⟩

/-- The alias `FsError` of `idl_sema_module`. -/
def fsError : IdlAlias :=
  .mk (ascii ['F', 's', 'E', 'r', 'r', 'o', 'r']) []
    (.enum [(ascii ['F', 'S', '_', 'S', 'U', 'C', 'C', 'E', 'S', 'S'], 0)])

/-- The alias of a path, which a request takes. -/
def fsPath : IdlAlias := .mk (ascii ['P', 'a', 't', 'h']) [] (.ctype (ascii ['S', 't', 'r']))

def fsModule : IdlModule :=
  ⟨ascii ['f', 's'], [], [], .primitive (ascii ['E', 'r', 'r', 'o', 'r']) (some fsError), [fsPath],
    []⟩

def fsMethod (name : List Char) : IdlMethod :=
  ⟨ascii name, .primitive (ascii ['P', 'a', 't', 'h']) (some fsPath), .nil, []⟩

def fsIface (names : List (List Char)) : IdlIface := ⟨7, ascii ['F', 's'], [], names.map fsMethod⟩

theorem fs_semaDone (names : List (List Char)) : SemaDone fsModule (fsIface names).methods := by
  refine ⟨⟨_, _, rfl⟩, fun method hmethod ↦ ?_⟩
  obtain ⟨name, -, rfl⟩ := List.mem_map.mp hmethod
  exact ⟨.primitive _ _, .nil⟩

/-- The messages of `fs_read` and `fs_read_all` agree. -/
theorem namesAgree_fs : NamesAgree [] fsModule
    (fsIface [['f', 's', '_', 'r', 'e', 'a', 'd'],
      ['f', 's', '_', 'r', 'e', 'a', 'd', '_', 'a', 'l', 'l']]) := by
  have hpath : TypeHasFns (.primitive (ascii ['P', 'a', 't', 'h']) (some fsPath)) :=
    show fsPath.name.length < 2 ^ 31 by decide
  have hroom : HasRoom [] (fsIface [['f', 's', '_', 'r', 'e', 'a', 'd'],
      ['f', 's', '_', 'r', 'e', 'a', 'd', '_', 'a', 'l', 'l']]) := by
    rw [HasRoom, vecRoom_cunitEntrySize]
    decide
  refine (namesAgree_iff [] (fs_semaDone _) (by decide) ?_).mpr
    ⟨⟨by decide, by decide, ?_⟩, fun _ ↦ hroom, by decide⟩
  · exact List.pairwise_pair.mpr (by decide)
  · refine List.forall_mem_cons.mpr ⟨⟨by decide, hpath, trivial⟩, ?_⟩
    exact List.forall_mem_singleton.mpr ⟨by decide, hpath, trivial⟩

/-- The label of `fs__reset`, which `idl_sema_iface` makes of the method `_reset`, is not declared:
the header has `MSG_FS_RESET_REQ`, and the dispatch function `MSG_FS__RESET_REQ`. -/
theorem namesAgree_fails : ¬ ∀ (module : IdlModule) (iface : IdlIface),
    SemaDone module iface.methods → (∀ method ∈ iface.methods, IsCIdent method.name) →
      (iface.methods.Pairwise fun first second ↦
        caseToConstant first.name ≠ caseToConstant second.name) →
          NamesAgree [] module iface := by
  intro h
  have hident : ∀ method ∈ (fsIface [['f', 's', '_', '_', 'r', 'e', 's', 'e', 't']]).methods,
      IsCIdent method.name := by
    decide
  have hagrees := h fsModule _ (fs_semaDone _) hident (List.pairwise_singleton _ _)
  have hspelling := (hagrees.consistent (fs_semaDone _) hident).spelling _ List.mem_cons_self
  revert hspelling
  decide

end Brutal.Idl.Syntax
