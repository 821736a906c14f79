import Brutal.Idl.Cgen
import Brutal.Idl.MessageNames

/-!
# Resolved types

The generators of pack functions work on types in which every name has its alias.  These are the
syntax trees of IDL in which every name is resolved, with the bytes of their names.
-/

namespace Brutal.Idl

/-- The bytes of a name. -/
def nameBytes (name : String) : List UInt8 := name.toUTF8.data.toList

theorem nameBytes_inj {name other : String} : nameBytes name = nameBytes other ↔ name = other := by
  constructor
  · intro h
    exact String.toByteArray_inj.mp (ByteArray.ext (Array.toList_inj.mp h))
  · rintro rfl
    rfl

def IdlAttr.toSyntax (attr : IdlAttr) : Syntax.IdlAttr :=
  ⟨nameBytes attr.name, attr.args.map nameBytes⟩

mutual

/-- The syntax tree of a type. -/
def IdlType.toSyntax : IdlType → Syntax.IdlType
  | .nil => .nil
  | .ctype name => .ctype (nameBytes name)
  | .primitive name named => .primitive (nameBytes name) (some named.toSyntax)
  | .enum members => .enum (members.map fun member ↦ (nameBytes member.1, member.2))
  | .struct members => .struct members.toSyntax
  | .vec subtype => .vec subtype.toSyntax

def IdlAlias.toSyntax : IdlAlias → Syntax.IdlAlias
  | .mk name type attrs => .mk (nameBytes name) (attrs.map IdlAttr.toSyntax) type.toSyntax

def IdlMembers.toSyntax : IdlMembers → List (List UInt8 × Syntax.IdlType)
  | .nil => []
  | .cons name type rest => (nameBytes name, type.toSyntax) :: rest.toSyntax

end

/-- An attribute is found under the same name. -/
theorem idlAttrsGet_toSyntax (attrs : List IdlAttr) (name : String) :
    Syntax.idlAttrsGet (attrs.map IdlAttr.toSyntax) (nameBytes name) =
      (idlAttrsGet attrs name).map IdlAttr.toSyntax := by
  rw [Syntax.idlAttrsGet, idlAttrsGet, List.find?_map]
  congr 2
  funext attr
  exact decide_eq_decide.mpr nameBytes_inj

theorem nameBytes_map_inj {names others : List String} :
    names.map nameBytes = others.map nameBytes ↔ names = others :=
  List.map_inj_right fun _ _ ↦ nameBytes_inj.mp

theorem IdlAttr.toSyntax_inj {attr other : IdlAttr} (h : attr.toSyntax = other.toSyntax) :
    attr = other := by
  obtain ⟨name, args⟩ := attr
  obtain ⟨name', args'⟩ := other
  simp only [IdlAttr.toSyntax, Syntax.IdlAttr.mk.injEq, nameBytes_inj, nameBytes_map_inj] at h
  rw [h.1, h.2]

mutual

/-- Different types have different trees. -/
theorem IdlType.toSyntax_inj {type other : IdlType} (h : type.toSyntax = other.toSyntax) :
    type = other := by
  cases type <;> cases other <;> simp only [IdlType.toSyntax, reduceCtorEq] at h
  case nil.nil => rfl
  case ctype.ctype => rw [nameBytes_inj.mp (Syntax.IdlType.ctype.inj h)]
  case primitive.primitive =>
    obtain ⟨hname, hnamed⟩ := Syntax.IdlType.primitive.inj h
    rw [nameBytes_inj.mp hname, IdlAlias.toSyntax_inj (Option.some.inj hnamed)]
  case enum.enum =>
    have hmember : ∀ member member' : String × ℤ,
        (nameBytes member.1, member.2) = (nameBytes member'.1, member'.2) → member = member' :=
      fun _ _ h ↦ Prod.ext (nameBytes_inj.mp (Prod.mk.inj h).1) (Prod.mk.inj h).2
    rw [(List.map_inj_right hmember).mp (Syntax.IdlType.enum.inj h)]
  case struct.struct => rw [IdlMembers.toSyntax_inj (Syntax.IdlType.struct.inj h)]
  case vec.vec => rw [IdlType.toSyntax_inj (Syntax.IdlType.vec.inj h)]

theorem IdlAlias.toSyntax_inj {named other : IdlAlias} (h : named.toSyntax = other.toSyntax) :
    named = other := by
  cases named
  cases other
  simp only [IdlAlias.toSyntax, Syntax.IdlAlias.mk.injEq, nameBytes_inj] at h
  obtain ⟨hname, hattrs, htype⟩ := h
  rw [hname, (List.map_inj_right fun _ _ ↦ IdlAttr.toSyntax_inj).mp hattrs,
    IdlType.toSyntax_inj htype]

theorem IdlMembers.toSyntax_inj {members other : IdlMembers}
    (h : members.toSyntax = other.toSyntax) : members = other := by
  cases members <;> cases other <;> simp only [IdlMembers.toSyntax, reduceCtorEq] at h
  case nil.nil => rfl
  case cons.cons =>
    obtain ⟨hmember, hrest⟩ := List.cons.inj h
    obtain ⟨hname, htype⟩ := Prod.mk.inj hmember
    rw [nameBytes_inj.mp hname, IdlType.toSyntax_inj htype, IdlMembers.toSyntax_inj hrest]

end

/-- A name is a type that a method may have. -/
theorem resolved_toSyntax (name : String) (named : IdlAlias) :
    Syntax.Resolved (IdlType.primitive name named).toSyntax := by
  rw [IdlType.toSyntax]
  exact .primitive _ _

end Brutal.Idl
