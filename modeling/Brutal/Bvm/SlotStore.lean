import Brutal.Bvm.Machine

/-!
# Slots of prototype chains

`bvm_obj_loadv` stops at the first object of a chain that defines the slot; `bvm_obj_storev` stores
there and goes on, so that it also stores into the objects behind it that define the slot.  Both
give up at the first object that is too short.
-/

namespace Brutal.Bvm

open Lib

/-- The objects from an address on, with their addresses, up to the null pointer. -/
inductive ProtoChain (m : Machine) : BitVec 64 → List (BitVec 64 × BvmObj) → Prop where
  | nil : ProtoChain m 0 []
  | cons {addr : BitVec 64} {obj : BvmObj} {path : List (BitVec 64 × BvmObj)} (hnull : addr ≠ 0)
    (hobj : m.objs addr = some obj) (hproto : ProtoChain m obj.proto path) :
    ProtoChain m addr ((addr, obj) :: path)

section Slots

variable (index : ℕ)

/-- The object has a value at the slot. -/
def Defines (obj : BvmObj) : Prop :=
  index < obj.len ∧ ∃ val ∈ obj.vals[index]?, (val.type ≠ .undef)

/-- The first object of a chain that defines the slot. -/
def Nearest (path : List (BitVec 64 × BvmObj)) (owner : BitVec 64) (obj : BvmObj) : Prop :=
  ∃ before after, path = before ++ (owner, obj) :: after ∧ Defines index obj ∧
    ∀ entry ∈ before, ¬ Defines index entry.2

variable (val : BvmVal)

/-- A machine where one slot of one object has another value. -/
def setSlot (m : Machine) (owner : BitVec 64) (obj : BvmObj) : Machine :=
  let obj := { obj with vals := obj.vals.set index val }
  { m with objs := Function.update m.objs owner (some obj) }

/-- The value is stored at the nearest object that defines the slot and nowhere else, is loaded from
there, and is not seen through chains without that object. -/
structure StoresSlot (m : Machine) (addr : BitVec 64) (path : List (BitVec 64 × BvmObj)) :
    Prop where
  nearest : ∀ owner obj, Nearest index path owner obj → ∀ chain > path.length,
    bvmObjStorev index val chain m addr = .ok (setSlot index val m owner obj) ∧
      bvmObjLoadv (setSlot index val m owner obj) index chain addr = .ok val ∧
      ∀ other path', ProtoChain m other path' → owner ∉ path'.map Prod.fst → ∀ index' chain',
        bvmObjLoadv (setSlot index val m owner obj) index' chain' other =
          bvmObjLoadv m index' chain' other
  none : (∀ entry ∈ path, ¬ Defines index entry.2) → ∀ chain > path.length,
    bvmObjStorev index val chain m addr = .ok m

/-- Up to the first object that is too short, every object that defines the slot has the value. -/
def HasValue : List (BitVec 64 × BvmObj) → Prop
  | [] => True
  | (_, obj) :: path =>
    obj.len ≤ index ∨ ∃ old ∈ obj.vals[index]?, (old.type ≠ .undef → old = val) ∧ HasValue path

/-- No object in front of the nearest one that defines the slot is too short for it, and the objects
behind that one, up to the first one that is too short, have the value if they define the slot. -/
def StoresWhen : List (BitVec 64 × BvmObj) → Prop
  | [] => True
  | (_, obj) :: path =>
    if obj.len ≤ index then ∀ entry ∈ path, ¬ Defines index entry.2
    else ∃ old ∈ obj.vals[index]?,
      if old.type = .undef then StoresWhen path else HasValue index val path

end Slots

variable {m m' : Machine} {addr owner : BitVec 64} {obj : BvmObj} {index chain : ℕ}
  {val old : BvmVal} {path path' : List (BitVec 64 × BvmObj)}

theorem ProtoChain.unique (h : ProtoChain m addr path) (h' : ProtoChain m addr path') :
    path = path' := by
  induction h generalizing path' with
  | nil =>
    cases h' with
    | nil => rfl
    | cons hnull => exact absurd rfl hnull
  | cons hnull hobj _ ih =>
    cases h' with
    | nil => exact absurd rfl hnull
    | cons _ hobj' hproto =>
      cases hobj.symm.trans hobj'
      rw [ih hproto]

theorem ProtoChain.of_append {before after : List (BitVec 64 × BvmObj)}
    (h : ProtoChain m addr (before ++ (owner, obj) :: after)) :
    ProtoChain m owner ((owner, obj) :: after) := by
  induction before generalizing addr with
  | nil =>
    cases h with
    | cons hnull hobj hproto => exact .cons hnull hobj hproto
  | cons entry before ih =>
    cases h with
    | cons _ _ hproto => exact ih hproto

/-- A chain that ends does not come back to an object. -/
theorem ProtoChain.not_mem (h : ProtoChain m addr ((addr, obj) :: path)) :
    addr ∉ path.map Prod.fst := by
  intro hmem
  obtain ⟨⟨_, obj'⟩, hentry, rfl⟩ := List.mem_map.mp hmem
  obtain ⟨before, after, rfl⟩ := List.append_of_mem hentry
  have hlength := congrArg List.length (h.unique (@ProtoChain.of_append _ _ _ _ (_ :: before) _ h))
  simp only [List.length_cons, List.length_append] at hlength
  omega

theorem ProtoChain.congr (h : ProtoChain m addr path)
    (hsame : ∀ other ∈ path.map Prod.fst, m'.objs other = m.objs other) :
    ProtoChain m' addr path := by
  induction h with
  | nil => exact .nil
  | cons hnull hobj _ ih =>
    rw [List.map_cons, List.forall_mem_cons] at hsame
    exact .cons hnull (hsame.1.trans hobj) (ih hsame.2)

theorem setSlot_objs_ne {other : BitVec 64} (h : other ≠ owner) :
    (setSlot index val m owner obj).objs other = m.objs other :=
  Function.update_of_ne h _ _

theorem setSlot_objs_self : (setSlot index val m owner obj).objs owner =
    some { obj with vals := obj.vals.set index val } :=
  Function.update_self _ _ _

/-- A value that is there already. -/
theorem setSlot_eq_self (hobj : m.objs owner = some obj) (hval : obj.vals[index]? = some val) :
    setSlot index val m owner obj = m := by
  obtain ⟨hlt, hget⟩ := List.getElem?_eq_some_iff.mp hval
  have hset : obj.vals.set index val = obj.vals := hget ▸ List.set_getElem_self hlt
  rw [setSlot, hset, ← hobj, Function.update_eq_self]

theorem ProtoChain.setSlot (h : ProtoChain m addr path) (hnot : owner ∉ path.map Prod.fst) :
    ProtoChain (setSlot index val m owner obj) addr path :=
  h.congr fun _ hmem ↦ setSlot_objs_ne fun hsame ↦ hnot (hsame ▸ hmem)

theorem nearest_or_none (index : ℕ) (path : List (BitVec 64 × BvmObj)) :
    (∃ owner obj, Nearest index path owner obj) ∨ ∀ entry ∈ path, ¬ Defines index entry.2 := by
  induction path with
  | nil => exact .inr nofun
  | cons entry path ih =>
    by_cases hentry : Defines index entry.2
    · exact .inl ⟨entry.1, entry.2, [], path, rfl, hentry, nofun⟩
    · rcases ih with ⟨owner, obj, before, after, rfl, hobj, hbefore⟩ | hnone
      · exact .inl ⟨owner, obj, entry :: before, after, rfl, hobj,
          List.forall_mem_cons.mpr ⟨hentry, hbefore⟩⟩
      · exact .inr (List.forall_mem_cons.mpr ⟨hentry, hnone⟩)

theorem nearest_cons_of_not (hnot : ¬ Defines index obj) {owner' : BitVec 64} {obj' : BvmObj} :
    Nearest index ((owner, obj) :: path) owner' obj' ↔ Nearest index path owner' obj' := by
  constructor
  · rintro ⟨before, after, hpath, hdefines, hbefore⟩
    cases before with
    | nil =>
      cases hpath
      exact absurd hdefines hnot
    | cons entry before =>
      obtain ⟨-, hpath⟩ := List.cons.inj hpath
      exact ⟨before, after, hpath, hdefines, (List.forall_mem_cons.mp hbefore).2⟩
  · rintro ⟨before, after, rfl, hdefines, hbefore⟩
    exact ⟨_ :: before, after, rfl, hdefines, List.forall_mem_cons.mpr ⟨hnot, hbefore⟩⟩

theorem nearest_cons_of_defines (h : Defines index obj) {owner' : BitVec 64} {obj' : BvmObj} :
    Nearest index ((owner, obj) :: path) owner' obj' ↔ owner' = owner ∧ obj' = obj := by
  constructor
  · rintro ⟨before, after, hpath, -, hbefore⟩
    cases before with
    | nil =>
      cases hpath
      exact ⟨rfl, rfl⟩
    | cons entry before =>
      obtain ⟨rfl, -⟩ := List.cons.inj hpath
      exact absurd h (hbefore _ List.mem_cons_self)
  · rintro ⟨rfl, rfl⟩
    exact ⟨[], path, rfl, h, nofun⟩

theorem Nearest.mem {owner' : BitVec 64} {obj' : BvmObj} (h : Nearest index path owner' obj') :
    owner' ∈ path.map Prod.fst := by
  obtain ⟨before, after, rfl, -⟩ := h
  simp

section Object

variable (hnull : addr ≠ 0) (hobj : m.objs addr = some obj)

include hnull hobj

theorem bvmObjLoadv_short (hshort : obj.len ≤ index) :
    bvmObjLoadv m index (chain + 1) addr = .ok bvmValUndef := by
  rw [bvmObjLoadv, if_neg hnull, objAt, hobj]
  exact if_pos hshort

theorem bvmObjStorev_short (hshort : obj.len ≤ index) :
    bvmObjStorev index val (chain + 1) m addr = .ok m := by
  rw [bvmObjStorev, if_neg hnull, objAt, hobj]
  exact if_pos hshort

variable (hlong : ¬ obj.len ≤ index)

include hlong

theorem bvmObjLoadv_some (hold : obj.vals[index]? = some old) :
    bvmObjLoadv m index (chain + 1) addr =
      if old.type ≠ .undef then .ok old else bvmObjLoadv m index chain obj.proto := by
  rw [bvmObjLoadv, if_neg hnull, objAt, hobj]
  refine (if_neg hlong).trans ?_
  rw [objVal, hold]
  rfl

theorem bvmObjLoadv_none (hold : obj.vals[index]? = none) :
    bvmObjLoadv m index (chain + 1) addr = .error .outOfBounds := by
  rw [bvmObjLoadv, if_neg hnull, objAt, hobj]
  refine (if_neg hlong).trans ?_
  rw [objVal, hold]
  rfl

theorem bvmObjStorev_none (hold : obj.vals[index]? = none) :
    bvmObjStorev index val (chain + 1) m addr = .error .outOfBounds := by
  rw [bvmObjStorev, if_neg hnull, objAt, hobj]
  refine (if_neg hlong).trans ?_
  rw [objVal, hold]
  rfl

theorem bvmObjStorev_some (hold : obj.vals[index]? = some old) :
    bvmObjStorev index val (chain + 1) m addr =
      if old.type ≠ .undef then
        bvmObjStorev index val chain (setSlot index val m addr obj) obj.proto
      else bvmObjStorev index val chain m obj.proto := by
  have hlt := (List.getElem?_eq_some_iff.mp hold).1
  rw [bvmObjStorev, if_neg hnull, objAt, hobj]
  refine (if_neg hlong).trans ?_
  rw [objVal, hold, objWrite, if_pos hlt]
  rfl

end Object

/-- What is loaded through a chain depends on its objects only. -/
theorem bvmObjLoadv_congr (h : ProtoChain m addr path)
    (hsame : ∀ other ∈ path.map Prod.fst, m'.objs other = m.objs other) (index chain : ℕ) :
    bvmObjLoadv m' index chain addr = bvmObjLoadv m index chain addr := by
  induction h generalizing chain with
  | nil =>
    cases chain with
    | zero => rfl
    | succ chain => rfl
  | @cons addr obj path hnull hobj _ ih =>
    rw [List.map_cons, List.forall_mem_cons] at hsame
    have hobj' := hsame.1.trans hobj
    cases chain with
    | zero => rfl
    | succ chain =>
      by_cases hshort : obj.len ≤ index
      · rw [bvmObjLoadv_short hnull hobj hshort, bvmObjLoadv_short hnull hobj' hshort]
      · cases hold : obj.vals[index]? with
        | none => rw [bvmObjLoadv_none hnull hobj hshort hold,
            bvmObjLoadv_none hnull hobj' hshort hold]
        | some old => rw [bvmObjLoadv_some hnull hobj hshort hold,
            bvmObjLoadv_some hnull hobj' hshort hold, ih hsame.2]

/-- Objects that are not on the chain are not stored into. -/
theorem bvmObjStorev_frame (h : ProtoChain m addr path) (hnot : owner ∉ path.map Prod.fst)
    (hrun : bvmObjStorev index val chain m addr = .ok m') : m'.objs owner = m.objs owner := by
  induction path generalizing chain m addr with
  | nil =>
    cases h
    cases chain with
    | zero => cases hrun
    | succ chain =>
      cases hrun
      rfl
  | cons entry path ih =>
    cases h with
    | @cons _ obj _ hnull hobj hproto =>
      rw [List.map_cons, List.mem_cons, not_or] at hnot
      cases chain with
      | zero => cases hrun
      | succ chain =>
        by_cases hshort : obj.len ≤ index
        · rw [bvmObjStorev_short hnull hobj hshort] at hrun
          cases hrun
          rfl
        · cases hold : obj.vals[index]? with
          | none =>
            rw [bvmObjStorev_none hnull hobj hshort hold] at hrun
            cases hrun
          | some old =>
            rw [bvmObjStorev_some hnull hobj hshort hold] at hrun
            split at hrun
            · have hfresh := (ProtoChain.cons hnull hobj hproto).not_mem
              rw [ih (hproto.setSlot hfresh) hnot.2 hrun, setSlot_objs_ne hnot.1]
            · exact ih hproto hnot.2 hrun

/-- Behind the nearest object, nothing is changed exactly when the value is there already. -/
theorem bvmObjStorev_eq_self_iff (h : ProtoChain m addr path) (hchain : path.length < chain) :
    bvmObjStorev index val chain m addr = .ok m ↔ HasValue index val path := by
  induction h generalizing chain with
  | nil =>
    obtain ⟨chain, rfl⟩ := Nat.exists_eq_succ_of_ne_zero (Nat.ne_of_gt hchain)
    exact iff_of_true rfl trivial
  | @cons addr obj path hnull hobj hproto ih =>
    obtain ⟨chain, rfl⟩ := Nat.exists_eq_succ_of_ne_zero (Nat.ne_of_gt (Nat.zero_lt_of_lt hchain))
    have hchain := Nat.lt_of_succ_lt_succ hchain
    rw [HasValue]
    by_cases hshort : obj.len ≤ index
    · exact iff_of_true (bvmObjStorev_short hnull hobj hshort) (.inl hshort)
    · rw [or_iff_right hshort]
      cases hold : obj.vals[index]? with
      | none =>
        rw [bvmObjStorev_none hnull hobj hshort hold]
        exact iff_of_false nofun (by simp)
      | some old =>
        rw [bvmObjStorev_some hnull hobj hshort hold]
        have hsome : (∃ old' ∈ some old, (old'.type ≠ .undef → old' = val) ∧
            HasValue index val path) ↔
              (old.type ≠ .undef → old = val) ∧ HasValue index val path := by simp
        rw [hsome]
        by_cases hundef : old.type = .undef
        · rw [if_neg (not_not.mpr hundef), ih hchain]
          simp [hundef]
        · rw [if_pos hundef]
          by_cases hval : old = val
          · rw [hval] at hold
            rw [setSlot_eq_self hobj hold, ih hchain]
            simp [hval]
          · refine iff_of_false (fun hrun ↦ hval ?_) fun h ↦ hval (h.1 hundef)
            have hfresh := (ProtoChain.cons hnull hobj hproto).not_mem
            have hframe := bvmObjStorev_frame (hproto.setSlot hfresh) hfresh hrun
            rw [setSlot_objs_self, hobj, Option.some.injEq] at hframe
            have hvals : obj.vals.set index val = obj.vals := (congrArg BvmObj.vals hframe).symm
            have hlt := (List.getElem?_eq_some_iff.mp hold).1
            rw [← hvals, List.getElem?_set_self hlt, Option.some.injEq] at hold
            exact hold.symm

theorem defines_iff (hlong : ¬ obj.len ≤ index) (hold : obj.vals[index]? = some old) :
    Defines index obj ↔ old.type ≠ .undef := by
  rw [Defines, hold]
  constructor
  · rintro ⟨-, _, ⟨⟩, hdefined⟩
    exact hdefined
  · intro hdefined
    exact ⟨Nat.lt_of_not_le hlong, old, rfl, hdefined⟩

/-- Through an object that does not define the slot, the rest of its chain is stored into and loaded
from. -/
theorem storesSlot_cons_of_undef (h : ProtoChain m addr ((addr, obj) :: path))
    (hlong : ¬ obj.len ≤ index) (hold : obj.vals[index]? = some old) (hundef : old.type = .undef) :
    StoresSlot index val m addr ((addr, obj) :: path) ↔ StoresSlot index val m obj.proto path := by
  have hnot : ¬ Defines index obj := fun hdefines ↦ (defines_iff hlong hold).mp hdefines hundef
  have hfresh := h.not_mem
  cases h with
  | cons hnull hobj hproto =>
    have hstore : ∀ chain, bvmObjStorev index val (chain + 1) m addr =
        bvmObjStorev index val chain m obj.proto := by
      intro chain
      rw [bvmObjStorev_some hnull hobj hlong hold, if_neg (not_not.mpr hundef)]
    have hload : ∀ owner' obj' chain, Nearest index path owner' obj' →
        bvmObjLoadv (setSlot index val m owner' obj') index (chain + 1) addr =
          bvmObjLoadv (setSlot index val m owner' obj') index chain obj.proto := by
      intro owner' obj' chain hnearest
      have hne : addr ≠ owner' := fun hsame ↦ hfresh (hsame ▸ hnearest.mem)
      rw [bvmObjLoadv_some hnull ((setSlot_objs_ne hne).trans hobj) hlong hold,
        if_neg (not_not.mpr hundef)]
    constructor
    · rintro ⟨hnear, hnone⟩
      refine ⟨fun owner' obj' hnearest chain hchain ↦ ?_, fun hall chain hchain ↦ ?_⟩
      · have hall := hnear owner' obj' ((nearest_cons_of_not hnot).mpr hnearest) (chain + 1)
          (Nat.succ_lt_succ hchain)
        rwa [hstore, hload owner' obj' chain hnearest] at hall
      · rw [← hstore]
        exact hnone (List.forall_mem_cons.mpr ⟨hnot, hall⟩) (chain + 1) (Nat.succ_lt_succ hchain)
    · rintro ⟨hnear, hnone⟩
      refine ⟨fun owner' obj' hnearest chain hchain ↦ ?_, fun hall chain hchain ↦ ?_⟩
      all_goals
        obtain ⟨chain, rfl⟩ :=
          Nat.exists_eq_succ_of_ne_zero (Nat.ne_of_gt (Nat.zero_lt_of_lt hchain))
      · have hnearest := (nearest_cons_of_not hnot).mp hnearest
        rw [hstore, hload owner' obj' chain hnearest]
        exact hnear owner' obj' hnearest chain (Nat.lt_of_succ_lt_succ hchain)
      · rw [hstore]
        exact hnone (List.forall_mem_cons.mp hall).2 chain (Nat.lt_of_succ_lt_succ hchain)

/-- At the nearest object, what is left is that nothing behind it is changed. -/
theorem storesSlot_cons_of_defined (h : ProtoChain m addr ((addr, obj) :: path))
    (hlong : ¬ obj.len ≤ index) (hold : obj.vals[index]? = some old) (hdefined : old.type ≠ .undef)
    (hval : val.type ≠ .undef) :
    StoresSlot index val m addr ((addr, obj) :: path) ↔ HasValue index val path := by
  have hdefines := (defines_iff hlong hold).mpr hdefined
  have hfresh := h.not_mem
  cases h with
  | cons hnull hobj hproto =>
    have hstored : ∀ chain > path.length,
        bvmObjStorev index val (chain + 1) m addr = .ok (setSlot index val m addr obj) ↔
          HasValue index val path := by
      intro chain hchain
      rw [bvmObjStorev_some hnull hobj hlong hold, if_pos hdefined]
      exact bvmObjStorev_eq_self_iff (hproto.setSlot hfresh) hchain
    constructor
    · intro hstores
      exact (hstored _ (Nat.lt_succ_self _)).mp (hstores.nearest addr obj
        ((nearest_cons_of_defines hdefines).mpr ⟨rfl, rfl⟩) _ (Nat.lt_succ_self _)).1
    · intro hhas
      refine ⟨?_, fun hnone ↦ absurd hdefines (hnone _ List.mem_cons_self)⟩
      intro owner' obj' hnearest chain hchain
      obtain ⟨rfl, rfl⟩ := (nearest_cons_of_defines hdefines).mp hnearest
      obtain ⟨chain, rfl⟩ := Nat.exists_eq_succ_of_ne_zero (Nat.ne_of_gt (Nat.zero_lt_of_lt hchain))
      have hlt := (List.getElem?_eq_some_iff.mp hold).1
      refine ⟨(hstored chain (Nat.lt_of_succ_lt_succ hchain)).mpr hhas, ?_, ?_⟩
      · rw [bvmObjLoadv_some hnull setSlot_objs_self hlong (List.getElem?_set_self hlt),
          if_pos hval]
      · intro other path' hpath' hother index' chain'
        apply bvmObjLoadv_congr hpath'
        intro entry hentry
        apply setSlot_objs_ne
        rintro rfl
        exact hother hentry

/-- A store through a chain has its effect at the nearest object only, exactly when no object in
front of it is too short and those behind it have the value or do not define the slot. -/
theorem bvmObjStorev_storesSlot_iff (h : ProtoChain m addr path) (hval : val.type ≠ .undef) :
    StoresSlot index val m addr path ↔ StoresWhen index val path := by
  induction h with
  | nil =>
    refine iff_of_true ⟨?_, fun _ chain hchain ↦ ?_⟩ trivial
    · rintro owner obj ⟨before, after, hpath, -⟩
      exact absurd hpath.symm (by simp)
    · obtain ⟨chain, rfl⟩ := Nat.exists_eq_succ_of_ne_zero (Nat.ne_of_gt hchain)
      rfl
  | @cons addr obj path hnull hobj hproto ih =>
    have hchain := ProtoChain.cons hnull hobj hproto
    rw [StoresWhen]
    by_cases hshort : obj.len ≤ index
    · have hnot : ¬ Defines index obj := fun hdefines ↦ absurd hdefines.1 (Nat.not_lt_of_le hshort)
      rw [if_pos hshort]
      constructor
      · intro hstores
        refine (nearest_or_none index path).resolve_left ?_
        rintro ⟨owner, obj', hnearest⟩
        have hne : addr ≠ owner := fun hsame ↦ hchain.not_mem (hsame ▸ hnearest.mem)
        have hload := (hstores.nearest owner obj' ((nearest_cons_of_not hnot).mpr hnearest) _
          (Nat.lt_succ_self _)).2.1
        rw [bvmObjLoadv_short hnull ((setSlot_objs_ne hne).trans hobj) hshort] at hload
        exact hval (Except.ok.inj hload ▸ rfl)
      · intro hnone
        refine ⟨fun owner obj' hnearest ↦ ?_, fun _ chain hlength ↦ ?_⟩
        · obtain ⟨before, after, rfl, hdefines, -⟩ := (nearest_cons_of_not hnot).mp hnearest
          exact absurd hdefines (hnone _ (List.mem_append_right _ List.mem_cons_self))
        · obtain ⟨chain, rfl⟩ :=
            Nat.exists_eq_succ_of_ne_zero (Nat.ne_of_gt (Nat.zero_lt_of_lt hlength))
          exact bvmObjStorev_short hnull hobj hshort
    · rw [if_neg hshort]
      cases hold : obj.vals[index]? with
      | none =>
        refine iff_of_false (fun hstores ↦ ?_) (by simp)
        have hfault := @bvmObjStorev_none m addr obj index (path.length + 1) val hnull hobj hshort
          hold
        rcases nearest_or_none index ((addr, obj) :: path) with ⟨owner, obj', hnearest⟩ | hnone
        · have hrun := (hstores.nearest owner obj' hnearest _ (Nat.lt_succ_self _)).1
          cases hfault.symm.trans hrun
        · cases hfault.symm.trans (hstores.none hnone _ (Nat.lt_succ_self _))
      | some old =>
        have hsome : (∃ old' ∈ some old, if old'.type = .undef then StoresWhen index val path
            else HasValue index val path) ↔
              if old.type = .undef then StoresWhen index val path
              else HasValue index val path := by simp
        rw [hsome]
        by_cases hundef : old.type = .undef
        · rw [if_pos hundef, storesSlot_cons_of_undef hchain hshort hold hundef, ih]
        · rw [if_neg hundef, storesSlot_cons_of_defined hchain hshort hold hundef hval]

/-- The machine of two objects, of which the first one has the second one as its prototype. -/
def twoObjs (first second : BvmVal) : Machine :=
  { loc := bvmLocalInit
    global := []
    objs := fun addr ↦
      if addr = 1 then some ⟨2, 1, [first]⟩ else if addr = 2 then some ⟨0, 1, [second]⟩ else none }

theorem twoObjs_chain (first second : BvmVal) :
    ProtoChain (twoObjs first second) 1 [(1, ⟨2, 1, [first]⟩), (2, ⟨0, 1, [second]⟩)] :=
  .cons (by decide) rfl (.cons (show (2 : BitVec 64) ≠ 0 by decide) rfl .nil)

/-- A slot that only the prototype defines. -/
theorem bvmObjStorev_storesSlot_proto :
    StoresSlot 0 (bvmValInt 7) (twoObjs bvmValUndef (bvmValInt 1)) 1
      [(1, ⟨2, 1, [bvmValUndef]⟩), (2, ⟨0, 1, [bvmValInt 1]⟩)] := by
  refine (bvmObjStorev_storesSlot_iff (twoObjs_chain _ _) (by decide)).mpr ?_
  rw [StoresWhen, if_neg (by decide)]
  refine ⟨_, rfl, ?_⟩
  rw [if_pos (by decide), StoresWhen, if_neg (by decide)]
  exact ⟨_, rfl, trivial⟩

/-- A slot that both objects define is changed in both. -/
theorem bvmObjStorev_storesSlot_fails :
    ¬ ∀ (m : Machine) addr path index val, ProtoChain m addr path → val.type ≠ .undef →
      StoresSlot index val m addr path := by
  intro h
  have hrun := ((h _ _ _ 0 (bvmValInt 7) (twoObjs_chain (bvmValInt 1) (bvmValInt 1))
    (by decide)).nearest 1 _ ⟨[], _, rfl, ⟨by decide, _, rfl, by decide⟩, nofun⟩ 3 (by decide)).1
  have hproto := congrArg (Except.map fun m : Machine ↦ m.objs 2) hrun
  exact absurd hproto (by decide)

end Brutal.Bvm
