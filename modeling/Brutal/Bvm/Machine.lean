import Brutal.Lib.Outcome
import Brutal.Lib.Run
import Mathlib.Data.Int.Notation
import Mathlib.Logic.Function.Basic

/-!
# The bytecode machine

`libs/bvm`: values, objects, globals, the operand stack with its frames, and `bvm_eval`.  A value is
its type with the 64 bits of its union; functions and objects are reached through their addresses.
The operand stack and the frames are arrays without bounds checks: an access outside of them is a
fault of the model, and so is everything else that the language leaves undefined.

The frames up to `frame_curr` are kept as a list, the current one first and the one at the base of
the array last.  Beside them the model keeps which calls have not returned, with what was there when
they were made, and what every return left behind.  Floating point arithmetic, native functions and
the memory that the allocator hands out are given from outside.
-/

namespace Brutal.Bvm

open Lib

inductive BvmType where
  | undef
  | nil
  | int
  | uint
  | num
  | obj
  | func
deriving DecidableEq, Repr

/-- `BvmVal` -/
structure BvmVal where
  type : BvmType
  bits : BitVec 64
deriving DecidableEq, Repr

def bvmValNil : BvmVal := ⟨.nil, 0⟩

def bvmValUndef : BvmVal := ⟨.undef, 0⟩

def bvmValInt (bits : BitVec 64) : BvmVal := ⟨.int, bits⟩

/-- `bvm_val_uint`, which does not use the type of unsigned values. -/
def bvmValUint (bits : BitVec 64) : BvmVal := ⟨.int, bits⟩

/-- `bvm_val_num`, which does not use the type of numbers. -/
def bvmValNum (bits : BitVec 64) : BvmVal := ⟨.int, bits⟩

def bvmValObj (addr : BitVec 64) : BvmVal :=
  if addr = 0 then bvmValNil else ⟨.obj, addr⟩

def bvmValBool (b : Bool) : BvmVal := bvmValInt (if b then 1 else 0)

/-- The operations on the bits of a `double`. -/
structure NumOps where
  add : BitVec 64 → BitVec 64 → BitVec 64
  sub : BitVec 64 → BitVec 64 → BitVec 64
  div : BitVec 64 → BitVec 64 → BitVec 64
  mul : BitVec 64 → BitVec 64 → BitVec 64
  fmod : BitVec 64 → BitVec 64 → BitVec 64
  neg : BitVec 64 → BitVec 64
  gt : BitVec 64 → BitVec 64 → Bool
  gteq : BitVec 64 → BitVec 64 → Bool
  nonzero : BitVec 64 → Bool
  ofInt : BitVec 64 → BitVec 64
  ofUint : BitVec 64 → BitVec 64
  toInt : BitVec 64 → BitVec 64
  toUint : BitVec 64 → BitVec 64

/-- `bvm_val_truthy` -/
def bvmValTruthy (num : NumOps) (val : BvmVal) : Bool :=
  match val.type with
  | .nil | .undef => false
  | .int | .uint => val.bits ≠ 0
  | .num => num.nonzero val.bits
  | .obj | .func => true

inductive BvmOp where
  | nop
  | loadg | loadl | loada | loado | loadv
  | storeg | storel | storea | storeo | storev
  | pushi | pushu | pushf | pushn | dup | pop
  | call | ret | argc | new | halt
  | jmp | jmpf
  | eq
  | addi | subi | divi | muli | modi | negi
  | gti | gteqi
  | addu | subu | divu | mulu | modu | negu
  | gtu | gtequ
  | addn | subn | divn | muln | modn | negn
  | gtn | gteqn
  | i2u | i2n | u2i | u2n | n2i | n2u
  | super
  | isnil | isundef | isint | isuint | isnum | isobj | isfunc | istype | isa
  | and | or | not | lshift | rshift | band | bor | bxor | bnot
  | unknown (code : UInt8)
deriving DecidableEq, Repr

/-- `BvmInstr`, whose argument is read as `uarg`, `iarg` or `farg`. -/
structure BvmInstr where
  opcode : BvmOp
  arg : BitVec 64
deriving DecidableEq, Repr

inductive BvmFunc where
  | native
  | managed (locals : ℕ) (code : List BvmInstr)
deriving DecidableEq, Repr

/-- `BvmObj` -/
structure BvmObj where
  proto : BitVec 64
  len : ℕ
  vals : List BvmVal
deriving DecidableEq, Repr

/-- `BvmFrame`; stack positions count from the base of the stack. -/
structure BvmFrame where
  ip : ℕ
  args : ℤ
  argc : BitVec 64
  vars : ℤ
  varc : ℕ
  func : BitVec 64
deriving DecidableEq, Repr

/-- A call: the frame made for it, and the frames and the stack of the caller when it was made. -/
structure Call where
  frame : BvmFrame
  callers : List BvmFrame
  stack : ℤ → BvmVal

/-- A return: the call that it ends, the value, and the frames and the stack after it. -/
structure Return where
  call : Option Call
  value : BvmVal
  frames : List BvmFrame
  stackTop : ℤ
  stack : ℤ → BvmVal

/-- `BvmLocal`, with the calls that have not returned and the returns that were made. -/
structure BvmLocal where
  stack : ℤ → BvmVal
  stackTop : ℤ
  frames : List BvmFrame
  calls : List Call
  returns : List Return

/-- The context of `bvm_eval`; `BvmGlobal` without the names of its symbols. -/
structure Machine where
  loc : BvmLocal
  global : List BvmVal
  objs : BitVec 64 → Option BvmObj

inductive Fault where
  | outOfBounds
  | nullPointer
  | undefined
  | outOfMemory
  | unbounded
deriving DecidableEq, Repr

/-- The functions of the program, and the code outside of the machine. -/
structure Env where
  program : BitVec 64 → Option BvmFunc
  native : BitVec 64 → Machine → Except Fault (BvmVal × Machine)
  num : NumOps

/-- What one `bvm_eval` gets from outside: the memory for a new object, and a bound on the length of
prototype chains. -/
structure Supply where
  addr : BitVec 64
  vals : List BvmVal
  chain : ℕ
deriving DecidableEq, Repr

inductive BvmRes where
  | run
  | halt
  | ret
  | error
deriving DecidableEq, Repr

def bvmMaxStack : ℤ := 4096

def bvmMaxFrame : ℕ := 128

/-- `bvm_local_init` -/
def bvmLocalInit : BvmLocal := ⟨fun _ ↦ ⟨.undef, 0⟩, 0, [], [], []⟩

def stackRead (loc : BvmLocal) (pos : ℤ) : Except Fault BvmVal :=
  if 0 ≤ pos ∧ pos < bvmMaxStack then .ok (loc.stack pos) else .error .outOfBounds

def stackWrite (loc : BvmLocal) (pos : ℤ) (val : BvmVal) : Except Fault BvmLocal :=
  if 0 ≤ pos ∧ pos < bvmMaxStack then
    .ok { loc with stack := Function.update loc.stack pos val }
  else .error .outOfBounds

/-- `bvm_local_push` -/
def bvmLocalPush (loc : BvmLocal) (val : BvmVal) : Except Fault BvmLocal := do
  let loc ← stackWrite loc loc.stackTop val
  return { loc with stackTop := loc.stackTop + 1 }

/-- `bvm_local_pop` -/
def bvmLocalPop (loc : BvmLocal) : Except Fault (BvmVal × BvmLocal) := do
  let val ← stackRead loc (loc.stackTop - 1)
  return (val, { loc with stackTop := loc.stackTop - 1 })

def frameCurr (loc : BvmLocal) : Except Fault BvmFrame :=
  match loc.frames with
  | [] => .error .nullPointer
  | frame :: _ => .ok frame

/-- The loop of `bvm_local_call` over the variables. -/
def clearVars (loc : BvmLocal) (vars : ℤ) : ℕ → Except Fault BvmLocal
  | 0 => .ok loc
  | count + 1 => do
    let loc ← clearVars loc vars count
    stackWrite loc (vars + count) bvmValNil

/-- The frame that `bvm_local_call` fills in. -/
def calleeFrame (loc : BvmLocal) (addr : BitVec 64) (func : BvmFunc) (argc : ℤ) : BvmFrame :=
  let frame : BvmFrame :=
    { ip := 0
      args := loc.stackTop - argc
      argc := BitVec.ofInt 64 argc
      vars := loc.stackTop
      varc := 0
      func := addr }
  match func with
  | .native => frame
  | .managed locals _ => { frame with vars := loc.stackTop + locals, varc := locals }

/-- `bvm_local_call` -/
def bvmLocalCall (loc : BvmLocal) (addr : BitVec 64) (func : BvmFunc) (argc : ℤ) :
    Except Fault BvmLocal :=
  if loc.frames.length = bvmMaxFrame then .error .outOfBounds
  else
    let frame := calleeFrame loc addr func argc
    let call : Call := ⟨frame, loc.frames, loc.stack⟩
    clearVars { loc with frames := frame :: loc.frames, calls := call :: loc.calls }
      frame.vars frame.varc

/-- `bvm_local_ret`: the stack is cut at the arguments of the frame at the base of the array. -/
def bvmLocalRet (loc : BvmLocal) (val : BvmVal) : Except Fault (BvmRes × BvmLocal) :=
  match loc.frames with
  | [] => .error .nullPointer
  | frame :: callers => do
    let base := (frame :: callers).getLast (List.cons_ne_nil frame callers)
    let loc ← bvmLocalPush { loc with stackTop := base.args } val
    let done : Return := ⟨loc.calls.head?, val, callers, loc.stackTop, loc.stack⟩
    let loc :=
      { loc with frames := callers, calls := loc.calls.tail, returns := loc.returns ++ [done] }
    return (if callers = [] then .ret else .run, loc)

/-- An `int` argument given as a `uint64_t`. -/
def intArg (arg : BitVec 64) : ℤ := (arg.setWidth 32).toInt

def bvmLocalLoadVar (loc : BvmLocal) (index : ℤ) : Except Fault BvmVal := do
  let frame ← frameCurr loc
  stackRead loc (frame.vars + index)

def bvmLocalStoreVar (loc : BvmLocal) (index : ℤ) (val : BvmVal) : Except Fault BvmLocal := do
  let frame ← frameCurr loc
  stackWrite loc (frame.vars + index) val

def bvmLocalLoadArg (loc : BvmLocal) (index : ℤ) : Except Fault BvmVal := do
  let frame ← frameCurr loc
  stackRead loc (frame.args + index)

def bvmLocalStoreArg (loc : BvmLocal) (index : ℤ) (val : BvmVal) : Except Fault BvmLocal := do
  let frame ← frameCurr loc
  stackWrite loc (frame.args + index) val

/-- The instruction of the current frame. -/
def instrAt (env : Env) (loc : BvmLocal) : Except Fault BvmInstr := do
  let frame ← frameCurr loc
  match env.program frame.func with
  | some (.managed _ code) =>
    match code[frame.ip]? with
    | some instr => return instr
    | none => .error .outOfBounds
  | _ => .error .nullPointer

/-- `bvm_local_jump` -/
def bvmLocalJump (loc : BvmLocal) (addr : ℕ) : BvmLocal :=
  { loc with frames := loc.frames.modifyHead fun frame ↦ { frame with ip := addr } }

/-- `bvm_local_ifetch` -/
def bvmLocalIfetch (env : Env) (loc : BvmLocal) : Except Fault (BvmInstr × BvmLocal) := do
  let instr ← instrAt env loc
  let frame ← frameCurr loc
  return (instr, bvmLocalJump loc (frame.ip + 1))

def bvmGlobalLoad (global : List BvmVal) (index : ℤ) : Except Fault BvmVal :=
  match if index < 0 then none else global[index.toNat]? with
  | some val => .ok val
  | none => .error .outOfBounds

def bvmGlobalStore (global : List BvmVal) (index : ℤ) (val : BvmVal) :
    Except Fault (List BvmVal) :=
  if 0 ≤ index ∧ index.toNat < global.length then .ok (global.set index.toNat val)
  else .error .outOfBounds

def objAt (m : Machine) (addr : BitVec 64) : Except Fault BvmObj :=
  match m.objs addr with
  | some obj => .ok obj
  | none => .error .nullPointer

def objVal (obj : BvmObj) (index : ℕ) : Except Fault BvmVal :=
  match obj.vals[index]? with
  | some val => .ok val
  | none => .error .outOfBounds

/-- `bvm_obj_load` -/
def bvmObjLoad (m : Machine) (addr : BitVec 64) (index : ℕ) : Except Fault BvmVal := do
  let obj ← objAt m addr
  if obj.len ≤ index then return bvmValUndef else objVal obj index

/-- `bvm_obj_loadv` -/
def bvmObjLoadv (m : Machine) (index : ℕ) : ℕ → BitVec 64 → Except Fault BvmVal
  | 0, _ => .error .unbounded
  | chain + 1, addr =>
    if addr = 0 then return bvmValUndef
    else do
      let obj ← objAt m addr
      if obj.len ≤ index then return bvmValUndef
      let val ← objVal obj index
      if val.type ≠ .undef then return val
      bvmObjLoadv m index chain obj.proto

/-- A value written into an object. -/
def objWrite (m : Machine) (addr : BitVec 64) (obj : BvmObj) (index : ℕ) (val : BvmVal) :
    Except Fault Machine :=
  if index < obj.vals.length then
    let obj := { obj with vals := obj.vals.set index val }
    .ok { m with objs := Function.update m.objs addr (some obj) }
  else .error .outOfBounds

/-- `bvm_obj_store` -/
def bvmObjStore (m : Machine) (addr : BitVec 64) (index : ℕ) (val : BvmVal) :
    Except Fault Machine := do
  let obj ← objAt m addr
  if obj.len ≤ index then return m else objWrite m addr obj index val

/-- `bvm_obj_storev` -/
def bvmObjStorev (index : ℕ) (val : BvmVal) : ℕ → Machine → BitVec 64 → Except Fault Machine
  | 0, _, _ => .error .unbounded
  | chain + 1, m, addr =>
    if addr = 0 then return m
    else do
      let obj ← objAt m addr
      if obj.len ≤ index then return m
      let old ← objVal obj index
      if old.type ≠ .undef then do
        let m ← objWrite m addr obj index val
        bvmObjStorev index val chain m obj.proto
      else bvmObjStorev index val chain m obj.proto

/-- `alloc_size`, in the 64 bits of a `size_t`. -/
def allocSize (size : ℕ) : ℕ := (16 + size * 16) % 2 ^ 64

/-- `bvm_obj_create`, in memory of as many bytes as are asked for. -/
def bvmObjCreate (m : Machine) (size : ℕ) (proto : BitVec 64) (supply : Supply) :
    Except Fault (BitVec 64 × Machine) := do
  let protoObj ← objAt m proto
  if supply.addr = 0 ∨ (m.objs supply.addr).isSome ∨
      16 + supply.vals.length * 16 ≠ allocSize size then
    .error .outOfMemory
  else
    let obj : BvmObj := ⟨proto, protoObj.len, supply.vals⟩
    return (supply.addr, { m with objs := Function.update m.objs supply.addr (some obj) })

end Brutal.Bvm
