import Brutal.Bvm.Locals

/-!
# The slots of new objects

`bvm_obj_create` allocates as many slots as the instruction asks for, gives the object the length of
its prototype, and leaves the slots as the allocator hands them out.  All accesses go by the length.
As long as every prototype has as many slots as are asked for, and new memory reads as undefined,
the slots of every object are its own and are undefined until they are stored to.
-/

namespace Brutal.Bvm

open Lib

/-- The object lies in memory with all the slots of its length, and its prototype, if any, is an
object. -/
structure Placed (objs : BitVec 64 → Option BvmObj) (obj : BvmObj) : Prop where
  slots : obj.len ≤ obj.vals.length
  memory : 16 + obj.vals.length * 16 < 2 ^ 64
  proto : obj.proto = 0 ∨ (objs obj.proto).isSome

def ObjsPlaced (objs : BitVec 64 → Option BvmObj) : Prop :=
  ∀ addr, ∀ obj ∈ objs addr, Placed objs obj

/-- The object has the slot, with an undefined value. -/
def Unset (obj : BvmObj) (index : ℕ) : Prop :=
  index < obj.len ∧ ∃ val ∈ obj.vals[index]?, (val.type = .undef)

/-- The length is the same, and slots that were undefined are so, but for those stored to. -/
structure SameObj (stored : ℕ → Prop) (obj obj' : BvmObj) : Prop where
  len : obj'.len = obj.len
  unset : ∀ index, ¬ stored index → Unset obj index → Unset obj' index

/-- Every object is still there, and objects that are new are placed as the others are. -/
structure ObjsKept (stored : BitVec 64 → ℕ → Prop) (objs objs' : BitVec 64 → Option BvmObj) :
    Prop where
  same : ∀ addr, ∀ obj ∈ objs addr, ∃ obj' ∈ objs' addr, SameObj (stored addr) obj obj'
  placed : ObjsPlaced objs → ObjsPlaced objs'

/-- A native function keeps the objects, to any slots of which it may store. -/
def NativeKeepsObjs (env : Env) : Prop :=
  ∀ addr m val m', env.native addr m = .ok (val, m') →
    ObjsKept (fun _ _ ↦ True) m.objs m'.objs

/-- The instruction stores to the slot, or calls a native function that does. -/
def InstrStores (env : Env) (m : Machine) (instr : BvmInstr) (m' : Machine) (addr : BitVec 64)
    (index : ℕ) : Prop :=
  match instr.opcode with
  | .storeo => m.loc.stack (m.loc.stackTop - 1) = ⟨.obj, addr⟩ ∧ instr.arg.toNat = index
  | .call => env.program (m.loc.stack (m.loc.stackTop - 1)).bits = some .native ∧
      bvmObjLoad m' addr index ≠ bvmObjLoad m addr index
  | _ => False

/-- The step stores to the slot. -/
def Stores (env : Env) (addr : BitVec 64) (index : ℕ) (m : Machine) (action : Action)
    (m' : Machine) : Prop :=
  ∃ supply instr loc, action = .eval supply ∧ bvmLocalIfetch env m.loc = .ok (instr, loc) ∧
    InstrStores env { m with loc := loc } instr m' addr index

/-- The step makes a new object with so many slots and this prototype. -/
def Creates (env : Env) (m : Machine) (count : ℕ) (proto : BitVec 64) : Prop :=
  ∃ instr loc, bvmLocalIfetch env m.loc = .ok (instr, loc) ∧ instr.opcode = .new ∧
    instr.arg.toNat = count ∧ loc.stack (loc.stackTop - 1) = ⟨.obj, proto⟩

/-- The prototype of a new object has as many slots as are asked for, and the memory for the object
reads as undefined. -/
def Sizes (env : Env) (m : Machine) : Action → Prop
  | .eval supply => ∀ count proto, Creates env m count proto →
      (∀ obj ∈ m.objs proto, obj.len = count) ∧ ∀ val ∈ supply.vals, (val.type = .undef)
  | _ => True

/-- Loads from the object and stores into it touch no slot that was not allocated, at the object and
along its prototypes. -/
structure Accesses (m : Machine) (addr : BitVec 64) (index : ℕ) : Prop where
  load : ∃ val, bvmObjLoad m addr index = .ok val
  store : ∀ val, ∃ m', bvmObjStore m addr index val = .ok m'
  loadv : ∀ chain fault, bvmObjLoadv m index chain addr = .error fault → fault = .unbounded
  storev : ∀ val chain fault, bvmObjStorev index val chain m addr = .error fault →
    fault = .unbounded

/-- Accesses stay within the slots of the objects, and new objects have as many slots as were asked
for, which read as undefined until they are stored to. -/
structure NewObjects (env : Env) (step : Machine → Action → Machine → Prop) (start : Machine) :
    Prop where
  access : ∀ actions m, Run step start actions m → ∀ addr index, (m.objs addr).isSome →
    Accesses m addr index
  len : ∀ before m supply m₁ after m₂ count proto, Run step start before m →
    step m (.eval supply) m₁ → Creates env m count proto → Run step m₁ after m₂ →
      ∃ obj ∈ m₂.objs supply.addr, obj.len = count
  unset : ∀ before m supply m₁ after m₂ count proto, Run step start before m →
    step m (.eval supply) m₁ → Creates env m count proto → ∀ index < count,
      Run (fun s action t ↦ step s action t ∧ ¬ Stores env supply.addr index s action t)
        m₁ after m₂ →
        ∃ val, bvmObjLoad m₂ supply.addr index = .ok val ∧ val.type = .undef

variable {env : Env} {m m' : Machine} {instr : BvmInstr} {res : BvmRes} {supply : Supply}
  {addr : BitVec 64} {index chain : ℕ} {val : BvmVal} {obj : BvmObj}
  {objs objs' objs'' : BitVec 64 → Option BvmObj} {stored : BitVec 64 → ℕ → Prop}

theorem SameObj.refl (slots : ℕ → Prop) (obj : BvmObj) : SameObj slots obj obj :=
  ⟨rfl, fun _ _ hunset ↦ hunset⟩

theorem SameObj.trans {slots : ℕ → Prop} {obj obj' obj'' : BvmObj} (h : SameObj slots obj obj')
    (h' : SameObj slots obj' obj'') : SameObj slots obj obj'' where
  len := h'.len.trans h.len
  unset index hstored hunset := h'.unset index hstored (h.unset index hstored hunset)

theorem ObjsKept.refl (stored : BitVec 64 → ℕ → Prop) (objs : BitVec 64 → Option BvmObj) :
    ObjsKept stored objs objs :=
  ⟨fun _ obj hobj ↦ ⟨obj, hobj, SameObj.refl _ obj⟩, id⟩

theorem ObjsKept.trans (h : ObjsKept stored objs objs') (h' : ObjsKept stored objs' objs'') :
    ObjsKept stored objs objs'' := by
  refine ⟨fun addr obj hobj ↦ ?_, fun hplaced ↦ h'.placed (h.placed hplaced)⟩
  obtain ⟨obj', hobj', hsame⟩ := h.same addr obj hobj
  obtain ⟨obj'', hobj'', hsame'⟩ := h'.same addr obj' hobj'
  exact ⟨obj'', hobj'', hsame.trans hsame'⟩

theorem Placed.mono (h : Placed objs obj)
    (hstay : ∀ addr, (objs addr).isSome → (objs' addr).isSome) : Placed objs' obj :=
  ⟨h.slots, h.memory, h.proto.imp_right (hstay obj.proto)⟩

/-- An object beside those that are there keeps them placed. -/
theorem ObjsPlaced.update (h : ObjsPlaced objs) (hobj : Placed objs obj) :
    ObjsPlaced (Function.update objs addr (some obj)) := by
  have hstay : ∀ other, (objs other).isSome →
      (Function.update objs addr (some obj) other).isSome := by
    intro other hother
    by_cases hsame : other = addr
    · rw [hsame, Function.update_self]
      rfl
    · rwa [Function.update_of_ne hsame]
  intro other found hfound
  by_cases hsame : other = addr
  · rw [hsame, Function.update_self] at hfound
    cases hfound
    exact hobj.mono hstay
  · rw [Function.update_of_ne hsame] at hfound
    exact (h other found hfound).mono hstay

/-- A write to a slot that was defined or is stored to. -/
theorem objWrite_kept (hobj : m.objs addr = some obj)
    (hstored : stored addr index ∨ ¬ Unset obj index)
    (h : objWrite m addr obj index val = .ok m') : ObjsKept stored m.objs m'.objs := by
  unfold objWrite at h
  split at h
  · cases h
    have hlength : (obj.vals.set index val).length = obj.vals.length := List.length_set
    refine ⟨fun other found hfound ↦ ?_, fun hplaced ↦ ?_⟩
    · by_cases hother : other = addr
      · rw [hother] at hfound ⊢
        cases hobj.symm.trans hfound
        refine ⟨_, Function.update_self .., rfl, ?_⟩
        rintro slot hslot ⟨hlt, hunset⟩
        have hne : index ≠ slot := by
          rintro rfl
          exact hstored.elim hslot fun hset ↦ hset ⟨hlt, hunset⟩
        refine ⟨hlt, ?_⟩
        rwa [List.getElem?_set_ne hne]
      · exact ⟨found, (Function.update_of_ne hother _ _).trans hfound, SameObj.refl _ found⟩
    · obtain ⟨hslots, hmemory, hproto⟩ := hplaced addr obj hobj
      rw [← hlength] at hslots hmemory
      exact hplaced.update ⟨hslots, hmemory, hproto⟩
  · cases h

theorem objAt_eq_ok (h : objAt m addr = .ok obj) : m.objs addr = some obj := by
  unfold objAt at h
  split at h
  · rename_i hobj
    cases h
    exact hobj
  · cases h

theorem bvmObjStore_kept (h : bvmObjStore m addr index val = .ok m')
    (hstored : stored addr index) : ObjsKept stored m.objs m'.objs := by
  unfold bvmObjStore at h
  obtain ⟨obj, hobj, h⟩ := bind_eq_ok.mp h
  split at h
  · cases h
    exact ObjsKept.refl _ _
  · exact objWrite_kept (objAt_eq_ok hobj) (.inl hstored) h

theorem objVal_eq_ok (h : objVal obj index = .ok val) : obj.vals[index]? = some val := by
  unfold objVal at h
  split at h
  · rename_i hval
    cases h
    exact hval
  · cases h

/-- The stores along a chain go to slots that are defined. -/
theorem bvmObjStorev_kept (h : bvmObjStorev index val chain m addr = .ok m') :
    ObjsKept stored m.objs m'.objs := by
  induction chain generalizing m addr with
  | zero => cases h
  | succ chain ih =>
    unfold bvmObjStorev at h
    split at h
    · cases h
      exact ObjsKept.refl _ _
    · obtain ⟨obj, hobj, h⟩ := bind_eq_ok.mp h
      split at h
      · cases h
        exact ObjsKept.refl _ _
      · obtain ⟨old, hold, h⟩ := bind_eq_ok.mp h
        split at h
        · rename_i hdefined
          obtain ⟨m₁, hwrite, h⟩ := bind_eq_ok.mp h
          have hset : ¬ Unset obj index := by
            rintro ⟨-, other, hother, hundef⟩
            cases (objVal_eq_ok hold).symm.trans hother
            exact hdefined hundef
          exact (objWrite_kept (objAt_eq_ok hobj) (.inr hset) hwrite).trans (ih h)
        · exact ih h

/-- A new object with as many slots as its prototype. -/
theorem bvmObjCreate_kept {size : ℕ} {proto addr : BitVec 64}
    (hsize : ∀ obj ∈ m.objs proto, obj.len = size)
    (h : bvmObjCreate m size proto supply = .ok (addr, m')) :
    ObjsKept stored m.objs m'.objs := by
  obtain ⟨obj, hobj, hfree, hmemory, rfl⟩ := bvmObjCreate_eq_ok h
  refine ⟨fun other found hfound ↦ ?_, fun hplaced ↦ ?_⟩
  · have hne : other ≠ supply.addr := by
      rintro rfl
      rw [hfree] at hfound
      cases hfound
    exact ⟨found, (Function.update_of_ne hne _ _).trans hfound, SameObj.refl _ found⟩
  · obtain ⟨hslots, hlarge, -⟩ := hplaced proto obj hobj
    have hlen := hsize obj hobj
    unfold allocSize at hmemory
    rw [Nat.mod_eq_of_lt (by omega)] at hmemory
    apply hplaced.update
    refine ⟨?_, ?_, .inr (by rw [hobj]; rfl)⟩
    · dsimp only
      omega
    · dsimp only
      omega

/-! ## Instructions -/

theorem pushVal_objs (h : pushVal m val = .ok (res, m')) : m'.objs = m.objs := by
  unfold pushVal at h
  obtain ⟨loc, -, h⟩ := bind_eq_ok.mp h
  cases h
  rfl

theorem popVal_objs (h : popVal m = .ok (val, m')) : m'.objs = m.objs := by
  rw [(popVal_eq_ok h).1]

theorem evalArith_objs {op : BvmOp} (h : evalArith env m op = .ok (res, m')) :
    m'.objs = m.objs := by
  unfold evalArith at h
  split at h
  · obtain ⟨⟨rhs, m₁⟩, hpop₁, h⟩ := bind_eq_ok.mp h
    obtain ⟨⟨lhs, m₂⟩, hpop₂, h⟩ := bind_eq_ok.mp h
    obtain ⟨val, -, hpush⟩ := bind_eq_ok.mp h
    exact (pushVal_objs hpush).trans ((popVal_objs hpop₂).trans (popVal_objs hpop₁))
  · split at h
    · obtain ⟨⟨val, m₁⟩, hpop, hpush⟩ := bind_eq_ok.mp h
      exact (pushVal_objs hpush).trans (popVal_objs hpop)
    · cases h
      rfl

theorem evalLoadObj_objs {load : BitVec 64 → Except Fault BvmVal}
    (h : evalLoadObj m load = .ok (res, m')) : m'.objs = m.objs := by
  unfold evalLoadObj at h
  obtain ⟨⟨val, m₁⟩, hpop, h⟩ := bind_eq_ok.mp h
  dsimp only at h
  split at h
  · exact (pushVal_objs h).trans (popVal_objs hpop)
  · obtain ⟨loaded, -, hpush⟩ := bind_eq_ok.mp h
    exact (pushVal_objs hpush).trans (popVal_objs hpop)

theorem evalSuper_objs (h : evalSuper m = .ok (res, m')) : m'.objs = m.objs := by
  unfold evalSuper at h
  obtain ⟨⟨val, m₁⟩, hpop, h⟩ := bind_eq_ok.mp h
  dsimp only at h
  split at h
  · obtain ⟨obj, -, hpush⟩ := bind_eq_ok.mp h
    exact (pushVal_objs hpush).trans (popVal_objs hpop)
  · exact (pushVal_objs h).trans (popVal_objs hpop)

theorem evalRet_objs (h : evalRet m = .ok (res, m')) : m'.objs = m.objs := by
  unfold evalRet at h
  obtain ⟨⟨val, m₁⟩, hpop, h⟩ := bind_eq_ok.mp h
  obtain ⟨⟨res', loc⟩, -, h⟩ := bind_eq_ok.mp h
  have hobjs := popVal_objs hpop
  cases h
  exact hobjs

/-- Instructions other than stores to objects, calls and `NEW` leave the objects alone. -/
theorem evalInstr_objs (h : evalInstr env m instr supply = .ok (res, m'))
    (hop : instr.opcode ≠ .storeo ∧ instr.opcode ≠ .storev ∧ instr.opcode ≠ .call ∧
      instr.opcode ≠ .new) : m'.objs = m.objs := by
  unfold evalInstr at h
  cases hopcode : instr.opcode <;> simp only [hopcode] at h hop
  case nop | halt | jmp =>
    cases h
    rfl
  case loadg | loadl | loada | argc =>
    obtain ⟨val, -, h⟩ := bind_eq_ok.mp h
    exact pushVal_objs h
  case pushi | pushu | pushf | pushn => exact pushVal_objs h
  case loado | loadv => exact evalLoadObj_objs h
  case storeg | storel | storea =>
    obtain ⟨⟨val, m₁⟩, hpop, h⟩ := bind_eq_ok.mp h
    obtain ⟨written, -, h⟩ := bind_eq_ok.mp h
    have hobjs := popVal_objs hpop
    cases h
    exact hobjs
  case storeo | storev | call | new => simp at hop
  case dup =>
    obtain ⟨⟨val, m₁⟩, hpop, h⟩ := bind_eq_ok.mp h
    obtain ⟨⟨res₂, m₂⟩, hpush₁, hpush₂⟩ := bind_eq_ok.mp h
    exact (pushVal_objs hpush₂).trans ((pushVal_objs hpush₁).trans (popVal_objs hpop))
  case pop =>
    obtain ⟨⟨val, m₁⟩, hpop, h⟩ := bind_eq_ok.mp h
    cases h
    exact popVal_objs hpop
  case ret => exact evalRet_objs h
  case super => exact evalSuper_objs h
  case jmpf =>
    obtain ⟨⟨val, m₁⟩, hpop, h⟩ := bind_eq_ok.mp h
    have hobjs := popVal_objs hpop
    dsimp only at h
    split at h
    · cases h
      exact hobjs
    · cases h
      exact hobjs
  all_goals exact evalArith_objs h

/-- A store to the object on the stack, if there is one. -/
theorem evalStoreObj_kept {store : Machine → BitVec 64 → BvmVal → Except Fault Machine}
    (hstore : ∀ m₁ val m', m.loc.stack (m.loc.stackTop - 1) = ⟨.obj, addr⟩ →
      store m₁ addr val = .ok m' → ObjsKept stored m₁.objs m'.objs)
    (haddr : (m.loc.stack (m.loc.stackTop - 1)).bits = addr)
    (h : evalStoreObj m store = .ok (res, m')) : ObjsKept stored m.objs m'.objs := by
  unfold evalStoreObj at h
  obtain ⟨⟨obj, m₁⟩, hpop₁, h⟩ := bind_eq_ok.mp h
  obtain ⟨⟨val, m₂⟩, hpop₂, h⟩ := bind_eq_ok.mp h
  have hobjs : m₂.objs = m.objs := (popVal_objs hpop₂).trans (popVal_objs hpop₁)
  have hobj := (popVal_eq_ok hpop₁).2
  dsimp only at h
  split at h
  · cases h
    rw [hobjs]
    exact ObjsKept.refl _ _
  · rename_i htype
    obtain ⟨m₃, hstored, h⟩ := bind_eq_ok.mp h
    cases h
    rw [← hobj] at haddr hstore
    rw [haddr] at hstored
    rw [← hobjs]
    apply hstore m₂ val _ _ hstored
    rw [← haddr, ← not_not.mp htype]

/-- `NEW` with a prototype that has as many slots. -/
theorem evalNew_kept {size : ℕ}
    (hsize : ∀ proto, m.loc.stack (m.loc.stackTop - 1) = ⟨.obj, proto⟩ →
      ∀ obj ∈ m.objs proto, obj.len = size)
    (h : evalNew m size supply = .ok (res, m')) : ObjsKept stored m.objs m'.objs := by
  unfold evalNew at h
  obtain ⟨⟨val, m₁⟩, hpop, h⟩ := bind_eq_ok.mp h
  dsimp only at h
  split at h
  · rw [pushVal_objs h, popVal_objs hpop]
    exact ObjsKept.refl _ _
  · rename_i htype
    obtain ⟨⟨addr, m₂⟩, hcreate, hpush⟩ := bind_eq_ok.mp h
    rw [pushVal_objs hpush, ← popVal_objs hpop]
    refine bvmObjCreate_kept ?_ hcreate
    rw [popVal_objs hpop]
    apply hsize
    rw [← (popVal_eq_ok hpop).2, ← not_not.mp htype]

/-- A call runs a native function or leaves the objects alone. -/
theorem evalCall_objs {argc : ℤ} (h : evalCall env m argc = .ok (res, m')) :
    m'.objs = m.objs ∨
      env.program (m.loc.stack (m.loc.stackTop - 1)).bits = some .native ∧
        ∃ addr m₁ val m₂, env.native addr m₁ = .ok (val, m₂) ∧ m₁.objs = m.objs ∧
          m'.objs = m₂.objs := by
  unfold evalCall at h
  obtain ⟨⟨val, m₁⟩, hpop, h⟩ := bind_eq_ok.mp h
  have hobjs := popVal_objs hpop
  have hval := (popVal_eq_ok hpop).2
  dsimp only at h
  split at h
  · cases h
  · rename_i func hfunc
    obtain ⟨loc, -, h⟩ := bind_eq_ok.mp h
    cases func with
    | managed locals code =>
      cases h
      exact .inl hobjs
    | native =>
      obtain ⟨⟨result, m₂⟩, hrun, h⟩ := bind_eq_ok.mp h
      obtain ⟨⟨res', loc'⟩, -, h⟩ := bind_eq_ok.mp h
      cases h
      rw [hval] at hfunc
      exact .inr ⟨hfunc, _, _, _, _, hrun, hobjs, rfl⟩

theorem bvmObjLoad_eq (hobj : m.objs addr = some obj) (hlt : index < obj.len) :
    bvmObjLoad m addr index = objVal obj index := by
  unfold bvmObjLoad objAt
  rw [hobj]
  exact if_neg (Nat.not_le.mpr hlt)

theorem Unset.load (h : Unset obj index) (hobj : m.objs addr = some obj) :
    ∃ val, bvmObjLoad m addr index = .ok val ∧ val.type = .undef := by
  obtain ⟨hlt, val, hval, hundef⟩ := h
  refine ⟨val, ?_, hundef⟩
  rw [bvmObjLoad_eq hobj hlt, objVal, hval]

/-- Slots that read as they did are undefined as they were. -/
theorem ObjsKept.of_load (h : ObjsKept (fun _ _ ↦ True) m.objs m'.objs) :
    ObjsKept (fun addr index ↦ bvmObjLoad m' addr index ≠ bvmObjLoad m addr index)
      m.objs m'.objs := by
  refine ⟨fun addr obj hobj ↦ ?_, h.placed⟩
  obtain ⟨obj', hobj', hsame⟩ := h.same addr obj hobj
  refine ⟨obj', hobj', hsame.len, fun index hload hunset ↦ ?_⟩
  obtain ⟨val, hval, hundef⟩ := hunset.load hobj
  have hlt : index < obj'.len := hsame.len.symm ▸ hunset.1
  have hval' : objVal obj' index = .ok val := by
    rw [← bvmObjLoad_eq hobj' hlt, not_not.mp hload]
    exact hval
  exact ⟨hlt, val, objVal_eq_ok hval', hundef⟩

/-- One instruction keeps the objects. -/
theorem evalInstr_kept (hnative : NativeKeepsObjs env)
    (hsize : instr.opcode = .new → ∀ proto, m.loc.stack (m.loc.stackTop - 1) = ⟨.obj, proto⟩ →
      ∀ obj ∈ m.objs proto, obj.len = instr.arg.toNat)
    (h : evalInstr env m instr supply = .ok (res, m')) :
    ObjsKept (InstrStores env m instr m') m.objs m'.objs := by
  by_cases hop : instr.opcode ≠ .storeo ∧ instr.opcode ≠ .storev ∧ instr.opcode ≠ .call ∧
      instr.opcode ≠ .new
  · rw [evalInstr_objs h hop]
    exact ObjsKept.refl _ _
  · unfold evalInstr at h
    cases hopcode : instr.opcode <;> simp [hopcode] at hop
    case storeo =>
      simp only [hopcode] at h
      refine evalStoreObj_kept (fun m₁ val m' htop hstore ↦ ?_) rfl h
      apply bvmObjStore_kept hstore
      unfold InstrStores
      rw [hopcode]
      exact ⟨htop, rfl⟩
    case storev =>
      simp only [hopcode] at h
      exact evalStoreObj_kept (fun _ _ _ _ hstore ↦ bvmObjStorev_kept hstore) rfl h
    case call =>
      simp only [hopcode] at h
      rcases evalCall_objs h with hobjs | ⟨hfunc, addr, m₁, val, m₂, hrun, hobjs, hobjs'⟩
      · rw [hobjs]
        exact ObjsKept.refl _ _
      · have hkept : ObjsKept (fun _ _ ↦ True) m.objs m'.objs := by
          rw [← hobjs, hobjs']
          exact hnative _ _ _ _ hrun
        have hstores : InstrStores env m instr m' =
            fun addr index ↦ bvmObjLoad m' addr index ≠ bvmObjLoad m addr index := by
          funext addr index
          unfold InstrStores
          rw [hopcode]
          exact propext ⟨And.right, And.intro hfunc⟩
        rw [hstores]
        exact hkept.of_load
    case new =>
      simp only [hopcode] at h
      exact evalNew_kept (hsize hopcode) h

/-- One step of the host keeps the objects. -/
theorem machineNext_kept (hnative : NativeKeepsObjs env) {action : Action}
    (hsizes : Sizes env m action) (h : machineNext env m action = .ok m') :
    ObjsKept (fun addr index ↦ Stores env addr index m action m') m.objs m'.objs := by
  cases action with
  | push val =>
    obtain ⟨⟨res, m₁⟩, hpush, h⟩ := bind_eq_ok.mp h
    cases h
    rw [pushVal_objs hpush]
    exact ObjsKept.refl _ _
  | pop =>
    obtain ⟨⟨val, m₁⟩, hpop, h⟩ := bind_eq_ok.mp h
    cases h
    rw [popVal_objs hpop]
    exact ObjsKept.refl _ _
  | call addr argc =>
    unfold machineNext at h
    dsimp only at h
    split at h
    · cases h
    · obtain ⟨loc, -, h⟩ := bind_eq_ok.mp h
      cases h
      exact ObjsKept.refl _ _
  | eval supply =>
    obtain ⟨⟨res, m₁⟩, heval, h⟩ := bind_eq_ok.mp h
    cases h
    unfold bvmEval at heval
    obtain ⟨⟨instr, loc⟩, hfetch, heval⟩ := bind_eq_ok.mp heval
    dsimp only at heval
    have hkept := evalInstr_kept hnative ?_ heval
    swap
    · intro hop proto htop
      exact (hsizes _ _ ⟨instr, loc, hfetch, hop, rfl, htop⟩).1
    refine ⟨fun addr obj hobj ↦ ?_, hkept.placed⟩
    obtain ⟨obj', hobj', hsame⟩ := hkept.same addr obj hobj
    refine ⟨obj', hobj', hsame.len, fun index hstores ↦ ?_⟩
    exact hsame.unset index fun hinstr ↦ hstores ⟨supply, instr, loc, rfl, hfetch, hinstr⟩

/-- A step that makes an object of the size asked for. -/
theorem Creates.object {count : ℕ} {proto : BitVec 64} (h : Creates env m count proto)
    (hplaced : ObjsPlaced m.objs) (hsizes : Sizes env m (.eval supply))
    (hstep : machineNext env m (.eval supply) = .ok m') :
    ∃ obj ∈ m'.objs supply.addr, obj.len = count ∧ ∀ index < count, Unset obj index := by
  obtain ⟨hproto, hundef⟩ := hsizes count proto h
  obtain ⟨instr, loc, hfetch, hop, hcount, htop⟩ := h
  obtain ⟨⟨res, m₁⟩, heval, hstep⟩ := bind_eq_ok.mp hstep
  cases hstep
  unfold bvmEval at heval
  rw [hfetch, ok_bind] at heval
  unfold evalInstr at heval
  simp only [hop, hcount] at heval
  unfold evalNew at heval
  obtain ⟨⟨val, m₂⟩, hpop, heval⟩ := bind_eq_ok.mp heval
  have hobjs := popVal_objs hpop
  dsimp only at hobjs
  have hval : val = ⟨.obj, proto⟩ := (popVal_eq_ok hpop).2.trans htop
  dsimp only at heval
  rw [if_neg (by rw [hval]; simp)] at heval
  obtain ⟨⟨addr, m₃⟩, hcreate, hpush⟩ := bind_eq_ok.mp heval
  obtain ⟨obj, hobj, -, hmemory, hm₃⟩ := bvmObjCreate_eq_ok hcreate
  rw [hobjs, hval] at hobj
  have hlen : obj.len = count := hproto obj hobj
  have hlength : supply.vals.length = count := by
    obtain ⟨hslots, hlarge, -⟩ := hplaced proto obj hobj
    unfold allocSize at hmemory
    rw [Nat.mod_eq_of_lt (by omega)] at hmemory
    omega
  refine ⟨⟨val.bits, obj.len, supply.vals⟩, ?_, hlen, fun index hlt ↦ ⟨?_, ?_⟩⟩
  · rw [pushVal_objs hpush, hm₃]
    exact Function.update_self ..
  · rw [hlen]
    exact hlt
  · have hlt' : index < supply.vals.length := hlength ▸ hlt
    exact ⟨supply.vals[index], List.getElem?_eq_getElem hlt', hundef _ (List.getElem_mem hlt')⟩

theorem objVal_of_lt (h : index < obj.vals.length) : ∃ val, objVal obj index = .ok val := by
  refine ⟨obj.vals[index], ?_⟩
  unfold objVal
  rw [List.getElem?_eq_getElem h]

theorem ObjsPlaced.loadv (h : ObjsPlaced m.objs) (haddr : addr = 0 ∨ (m.objs addr).isSome)
    {fault : Fault} (hload : bvmObjLoadv m index chain addr = .error fault) :
    fault = .unbounded := by
  induction chain generalizing addr with
  | zero =>
    cases hload
    rfl
  | succ chain ih =>
    unfold bvmObjLoadv at hload
    split at hload
    · cases hload
    · rename_i hnull
      obtain ⟨obj, hobj⟩ := Option.isSome_iff_exists.mp (haddr.resolve_left hnull)
      have hplaced := h addr obj hobj
      unfold objAt at hload
      rw [hobj, ok_bind] at hload
      split at hload
      · cases hload
      · rename_i hlt
        have hslots := hplaced.slots
        obtain ⟨val, hval⟩ := @objVal_of_lt index obj (by omega)
        rw [hval, ok_bind] at hload
        split at hload
        · cases hload
        · exact ih hplaced.proto hload

theorem ObjsPlaced.storev (h : ObjsPlaced m.objs) (haddr : addr = 0 ∨ (m.objs addr).isSome)
    {fault : Fault} (hstore : bvmObjStorev index val chain m addr = .error fault) :
    fault = .unbounded := by
  induction chain generalizing m addr with
  | zero =>
    cases hstore
    rfl
  | succ chain ih =>
    unfold bvmObjStorev at hstore
    split at hstore
    · cases hstore
    · rename_i hnull
      obtain ⟨obj, hobj⟩ := Option.isSome_iff_exists.mp (haddr.resolve_left hnull)
      have hplaced := h addr obj hobj
      unfold objAt at hstore
      rw [hobj, ok_bind] at hstore
      split at hstore
      · cases hstore
      · have hslots := hplaced.slots
        have hlt : index < obj.vals.length := by omega
        obtain ⟨old, hold⟩ := objVal_of_lt hlt
        rw [hold, ok_bind] at hstore
        split at hstore
        · rename_i hdefined
          have hset : ¬ Unset obj index := by
            rintro ⟨-, other, hother, hundef⟩
            cases (objVal_eq_ok hold).symm.trans hother
            exact hdefined hundef
          obtain ⟨m₁, hwrite⟩ : ∃ m₁, objWrite m addr obj index val = .ok m₁ :=
            ⟨_, if_pos hlt⟩
          have hkept : ObjsKept (fun _ _ ↦ False) m.objs m₁.objs :=
            objWrite_kept hobj (.inr hset) hwrite
          rw [hwrite, ok_bind] at hstore
          refine ih (hkept.placed h) (hplaced.proto.imp_right fun hsome ↦ ?_) hstore
          obtain ⟨proto, hproto⟩ := Option.isSome_iff_exists.mp hsome
          obtain ⟨proto', hproto', -⟩ := hkept.same _ proto hproto
          exact Option.isSome_iff_exists.mpr ⟨proto', hproto'⟩
        · exact ih h hplaced.proto hstore

/-- Where the objects have their slots, accesses to objects touch nothing else. -/
theorem ObjsPlaced.accesses (h : ObjsPlaced m.objs) (index : ℕ) (haddr : (m.objs addr).isSome) :
    Accesses m addr index := by
  obtain ⟨obj, hobj⟩ := Option.isSome_iff_exists.mp haddr
  have hslots := (h addr obj hobj).slots
  refine ⟨?_, fun val ↦ ?_, fun _ _ ↦ h.loadv (.inr haddr), fun _ _ _ ↦ h.storev (.inr haddr)⟩
  · by_cases hlt : index < obj.len
    · rw [bvmObjLoad_eq hobj hlt]
      exact objVal_of_lt (by omega)
    · refine ⟨bvmValUndef, ?_⟩
      unfold bvmObjLoad objAt
      rw [hobj]
      exact if_pos (Nat.not_lt.mp hlt)
  · unfold bvmObjStore objAt
    rw [hobj, ok_bind]
    by_cases hlt : index < obj.len
    · rw [if_neg (Nat.not_le.mpr hlt)]
      exact ⟨_, if_pos (by omega)⟩
    · rw [if_pos (Nat.not_lt.mp hlt)]
      exact ⟨m, rfl⟩

/-- In every run in which prototypes have as many slots as are asked for and new memory reads as
undefined, new objects have the size asked for and accesses stay within it. -/
theorem machineRun_newObjects (hnative : NativeKeepsObjs env) (global : List BvmVal)
    (hobjs : ObjsPlaced objs) :
    NewObjects env (Guarded (Succeeds (machineNext env)) (Sizes env))
      ⟨bvmLocalInit, global, objs⟩ := by
  have hplaced : ∀ {actions m},
      Run (Guarded (Succeeds (machineNext env)) (Sizes env)) ⟨bvmLocalInit, global, objs⟩
        actions m → ObjsPlaced m.objs := by
    intro actions m hrun
    apply @Run.invariant _ _ _ (fun m ↦ ObjsPlaced m.objs) _ _ _ _ hrun hobjs
    rintro m action m' hm ⟨hsizes, hstep⟩
    exact (machineNext_kept hnative hsizes hstep).placed hm
  refine ⟨fun actions m hrun addr index haddr ↦ ?_, ?_, ?_⟩
  · exact (hplaced hrun).accesses index haddr
  · intro before m supply m₁ after m₂ count proto hbefore hstep hcreates hafter
    obtain ⟨obj, hobj, hlen, -⟩ := hcreates.object (hplaced hbefore) hstep.1 hstep.2
    apply @Run.invariant _ _ _ (fun m ↦ ∃ obj ∈ m.objs supply.addr, obj.len = count) _ _ _ _
      hafter ⟨obj, hobj, hlen⟩
    rintro s action t ⟨obj, hobj, hlen⟩ ⟨hsizes, hstep⟩
    obtain ⟨obj', hobj', hsame⟩ := (machineNext_kept hnative hsizes hstep).same _ obj hobj
    exact ⟨obj', hobj', hsame.len.trans hlen⟩
  · intro before m supply m₁ after m₂ count proto hbefore hstep hcreates index hlt hafter
    obtain ⟨obj, hobj, -, hunset⟩ := hcreates.object (hplaced hbefore) hstep.1 hstep.2
    have hend : ∃ obj ∈ m₂.objs supply.addr, Unset obj index := by
      apply @Run.invariant _ _ _ (fun m ↦ ∃ obj ∈ m.objs supply.addr, Unset obj index) _ _ _ _
        hafter ⟨obj, hobj, hunset index hlt⟩
      rintro s action t ⟨obj, hobj, hunset⟩ ⟨⟨hsizes, hstep⟩, hstores⟩
      obtain ⟨obj', hobj', hsame⟩ := (machineNext_kept hnative hsizes hstep).same _ obj hobj
      exact ⟨obj', hobj', hsame.unset index hstores hunset⟩
    obtain ⟨obj', hobj', hunset'⟩ := hend
    exact hunset'.load hobj'

/-- Objects at address 8 with two slots. -/
def twoSlots (addr : BitVec 64) : Option BvmObj :=
  if addr = 8 then some ⟨0, 2, [bvmValInt 3, bvmValInt 4]⟩ else none

theorem twoSlots_placed : ObjsPlaced twoSlots := by
  intro addr obj hobj
  unfold twoSlots at hobj
  split at hobj
  · cases hobj
    exact ⟨by decide, by decide, .inl rfl⟩
  · cases hobj

/-- A function that makes a new object from its argument. -/
def makesObject (count : BitVec 64) : Env := oneFunction 0 [⟨.loada, 0⟩, ⟨.new, count⟩]

theorem makesObject_nativeKeepsObjs (count : BitVec 64) : NativeKeepsObjs (makesObject count) := by
  intro addr m val m' h
  cases h

/-- An object with as many slots as its prototype. -/
theorem machineRun_newObjects_two :
    ∃ m : Machine, (∃ obj ∈ m.objs 16, obj.len = 2) ∧ Accesses m 16 1 ∧
      ∃ val, bvmObjLoad m 16 1 = .ok val ∧ val.type = .undef := by
  have hnew := machineRun_newObjects (makesObject_nativeKeepsObjs 2) [] twoSlots_placed
  let supply : Supply := ⟨16, [bvmValUndef, bvmValUndef], 0⟩
  have hload : ∀ m : Machine,
      (∃ loc, bvmLocalIfetch (makesObject 2) m.loc = .ok (⟨.loada, 0⟩, loc)) →
        Sizes (makesObject 2) m (.eval supply) := by
    rintro m ⟨loc, hfetch⟩ count proto ⟨instr, loc', hfetch', hop, -⟩
    cases hfetch.symm.trans hfetch'
    cases hop
  have hsizes : ∀ m : Machine, m.objs = twoSlots →
      (∃ loc, bvmLocalIfetch (makesObject 2) m.loc = .ok (⟨.new, 2⟩, loc) ∧
        loc.stack (loc.stackTop - 1) = ⟨.obj, 8⟩) → Sizes (makesObject 2) m (.eval supply) := by
    rintro m hobjs ⟨loc, hfetch, htop⟩ count proto ⟨instr, loc', hfetch', -, hcount, htop'⟩
    cases hfetch.symm.trans hfetch'
    cases htop.symm.trans htop'
    rw [hobjs, ← hcount]
    exact ⟨by rintro _ ⟨⟩; rfl, by decide⟩
  have hbefore : Run (Guarded (Succeeds (machineNext (makesObject 2))) (Sizes (makesObject 2)))
      ⟨bvmLocalInit, [], twoSlots⟩ [.push ⟨.obj, 8⟩, .call 1 1, .eval supply] _ :=
    .cons ⟨trivial, rfl⟩ <| .cons ⟨trivial, rfl⟩ <| .cons ⟨hload _ ⟨_, rfl⟩, rfl⟩ <| .nil _
  exact ⟨_, hnew.len _ _ supply _ _ _ 2 8 hbefore ⟨hsizes _ rfl ⟨_, rfl, rfl⟩, rfl⟩
      ⟨_, _, rfl, rfl, rfl, rfl⟩ (.nil _),
    hnew.access _ _ (hbefore.append (.cons ⟨hsizes _ rfl ⟨_, rfl, rfl⟩, rfl⟩ (.nil _))) 16 1 rfl,
    hnew.unset _ _ supply _ _ _ 2 8 hbefore ⟨hsizes _ rfl ⟨_, rfl, rfl⟩, rfl⟩
      ⟨_, _, rfl, rfl, rfl, rfl⟩ 1 (by decide) (.nil _)⟩

/-- A new object with one slot from a prototype with two is read behind its slot. -/
theorem machineRun_newObject_overruns :
    ¬ ∀ (env : Env), NativeKeepsObjs env → ∀ (global : List BvmVal)
      (objs : BitVec 64 → Option BvmObj), ObjsPlaced objs →
        NewObjects env (Succeeds (machineNext env)) ⟨bvmLocalInit, global, objs⟩ := by
  intro h
  have hnew := h (makesObject 1) (makesObject_nativeKeepsObjs 1) [] twoSlots twoSlots_placed
  have hrun : Run (Succeeds (machineNext (makesObject 1))) ⟨bvmLocalInit, [], twoSlots⟩
      [.push ⟨.obj, 8⟩, .call 1 1, .eval ⟨16, [], 0⟩, .eval ⟨16, [bvmValUndef], 0⟩] _ :=
    .cons rfl <| .cons rfl <| .cons rfl <| .cons rfl <| .nil _
  obtain ⟨val, hload⟩ := (hnew.access _ _ hrun 16 1 rfl).load
  cases hload

end Brutal.Bvm
