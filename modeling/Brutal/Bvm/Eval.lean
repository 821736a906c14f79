import Brutal.Bvm.Machine

/-!
# Evaluation of one instruction

`libs/bvm/eval/eval.c`.  The instructions that replace one or two operands by a value differ in the
value only; `unary` and `binary` list what they compute.
-/

namespace Brutal.Bvm

open Lib

/-- A defined result of integer arithmetic. -/
def defined (guard : Bool) (val : BvmVal) : Except Fault BvmVal :=
  if guard then .ok val else .error .undefined

/-- The quotient of signed numbers exists. -/
def divides (lhs rhs : BitVec 64) : Bool :=
  rhs ≠ 0 ∧ ¬ (lhs = BitVec.intMin 64 ∧ rhs = BitVec.allOnes 64)

/-- What the instructions with two operands compute. -/
def binary (num : NumOps) : BvmOp → Option (BvmVal → BvmVal → Except Fault BvmVal)
  | .eq => some fun lhs rhs ↦ .ok (bvmValBool (lhs.bits = rhs.bits))
  | .addi => some fun lhs rhs ↦ .ok (bvmValInt (lhs.bits + rhs.bits))
  | .subi => some fun lhs rhs ↦ .ok (bvmValInt (lhs.bits - rhs.bits))
  | .divi => some fun lhs rhs ↦
      defined (divides lhs.bits rhs.bits) (bvmValInt (lhs.bits.sdiv rhs.bits))
  | .muli => some fun lhs rhs ↦ .ok (bvmValInt (lhs.bits * rhs.bits))
  | .modi => some fun lhs rhs ↦
      defined (divides lhs.bits rhs.bits) (bvmValInt (lhs.bits.srem rhs.bits))
  | .gti => some fun lhs rhs ↦ .ok (bvmValBool (rhs.bits.slt lhs.bits))
  | .gteqi => some fun lhs rhs ↦ .ok (bvmValBool (rhs.bits.sle lhs.bits))
  | .addu => some fun lhs rhs ↦ .ok (bvmValUint (lhs.bits + rhs.bits))
  | .subu => some fun lhs rhs ↦ .ok (bvmValUint (lhs.bits - rhs.bits))
  | .divu => some fun lhs rhs ↦ defined (rhs.bits ≠ 0) (bvmValUint (lhs.bits / rhs.bits))
  | .mulu => some fun lhs rhs ↦ .ok (bvmValUint (lhs.bits * rhs.bits))
  | .modu => some fun lhs rhs ↦ defined (rhs.bits ≠ 0) (bvmValUint (lhs.bits % rhs.bits))
  | .gtu => some fun lhs rhs ↦ .ok (bvmValBool (rhs.bits.ult lhs.bits))
  | .gtequ => some fun lhs rhs ↦ .ok (bvmValBool (rhs.bits.ule lhs.bits))
  | .addn => some fun lhs rhs ↦ .ok (bvmValNum (num.add lhs.bits rhs.bits))
  | .subn => some fun lhs rhs ↦ .ok (bvmValNum (num.sub lhs.bits rhs.bits))
  | .divn => some fun lhs rhs ↦ .ok (bvmValNum (num.div lhs.bits rhs.bits))
  | .muln => some fun lhs rhs ↦ .ok (bvmValNum (num.mul lhs.bits rhs.bits))
  | .modn => some fun lhs rhs ↦ .ok (bvmValNum (num.fmod lhs.bits rhs.bits))
  | .gtn => some fun lhs rhs ↦ .ok (bvmValBool (num.gt lhs.bits rhs.bits))
  | .gteqn => some fun lhs rhs ↦ .ok (bvmValBool (num.gteq lhs.bits rhs.bits))
  | .and => some fun lhs rhs ↦ .ok (bvmValBool (bvmValTruthy num lhs && bvmValTruthy num rhs))
  | .or => some fun lhs rhs ↦ .ok (bvmValBool (bvmValTruthy num lhs || bvmValTruthy num rhs))
  | .lshift => some fun lhs rhs ↦
      defined (rhs.bits.toNat < 64) (bvmValUint (lhs.bits <<< rhs.bits.toNat))
  | .rshift => some fun lhs rhs ↦
      defined (rhs.bits.toNat < 64) (bvmValUint (lhs.bits >>> rhs.bits.toNat))
  | .band => some fun lhs rhs ↦ .ok (bvmValUint (lhs.bits &&& rhs.bits))
  | .bor => some fun lhs rhs ↦ .ok (bvmValUint (lhs.bits ||| rhs.bits))
  | .bxor => some fun lhs rhs ↦ .ok (bvmValUint (lhs.bits ^^^ rhs.bits))
  | _ => none

/-- What the instructions with one operand compute. -/
def unary (num : NumOps) : BvmOp → Option (BvmVal → BvmVal)
  | .negi => some fun val ↦ bvmValInt (-val.bits)
  | .negu => some fun val ↦ bvmValUint (-val.bits)
  | .negn => some fun val ↦ bvmValNum (num.neg val.bits)
  | .i2u => some fun val ↦ bvmValUint val.bits
  | .i2n => some fun val ↦ bvmValNum (num.ofInt val.bits)
  | .u2i => some fun val ↦ bvmValInt val.bits
  | .u2n => some fun val ↦ bvmValNum (num.ofUint val.bits)
  | .n2i => some fun val ↦ bvmValInt (num.toInt val.bits)
  | .n2u => some fun val ↦ bvmValUint (num.toUint val.bits)
  | .isnil => some fun val ↦ bvmValBool (val.type = .nil)
  | .isundef => some fun val ↦ bvmValBool (val.type = .undef)
  | .isint => some fun val ↦ bvmValBool (val.type = .int)
  | .isuint => some fun val ↦ bvmValBool (val.type = .uint)
  | .isnum => some fun val ↦ bvmValBool (val.type = .num)
  | .isobj => some fun val ↦ bvmValBool (val.type = .obj)
  | .isfunc => some fun val ↦ bvmValBool (val.type = .func)
  | .not => some fun val ↦ bvmValBool (!bvmValTruthy num val)
  | .bnot => some fun val ↦ bvmValUint (~~~val.bits)
  | _ => none

def pushVal (m : Machine) (val : BvmVal) : Except Fault (BvmRes × Machine) := do
  let loc ← bvmLocalPush m.loc val
  return (.run, { m with loc := loc })

def popVal (m : Machine) : Except Fault (BvmVal × Machine) := do
  let (val, loc) ← bvmLocalPop m.loc
  return (val, { m with loc := loc })

/-- `BVM_OP_LOADO` and `BVM_OP_LOADV` -/
def evalLoadObj (m : Machine) (load : BitVec 64 → Except Fault BvmVal) :
    Except Fault (BvmRes × Machine) := do
  let (val, m) ← popVal m
  if val.type ≠ .obj then
    pushVal m bvmValUndef
  else
    let loaded ← load val.bits
    pushVal m loaded

/-- `BVM_OP_STOREO` and `BVM_OP_STOREV` -/
def evalStoreObj (m : Machine)
    (store : Machine → BitVec 64 → BvmVal → Except Fault Machine) :
    Except Fault (BvmRes × Machine) := do
  let (obj, m) ← popVal m
  let (val, m) ← popVal m
  if obj.type ≠ .obj then
    return (.run, m)
  else
    let m ← store m obj.bits val
    return (.run, m)

/-- `BVM_OP_CALL` -/
def evalCall (env : Env) (m : Machine) (argc : ℤ) : Except Fault (BvmRes × Machine) := do
  let (val, m) ← popVal m
  match env.program val.bits with
  | none => .error .nullPointer
  | some func =>
    let loc ← bvmLocalCall m.loc val.bits func argc
    let m := { m with loc := loc }
    match func with
    | .managed _ _ => return (.run, m)
    | .native =>
      let (result, m) ← env.native val.bits m
      let (_, loc) ← bvmLocalRet m.loc result
      return (.run, { m with loc := loc })

/-- `BVM_OP_RET` -/
def evalRet (m : Machine) : Except Fault (BvmRes × Machine) := do
  let (val, m) ← popVal m
  let (res, loc) ← bvmLocalRet m.loc val
  return (res, { m with loc := loc })

/-- `BVM_OP_NEW` -/
def evalNew (m : Machine) (size : ℕ) (supply : Supply) : Except Fault (BvmRes × Machine) := do
  let (val, m) ← popVal m
  if val.type ≠ .obj then
    pushVal m bvmValNil
  else
    let (addr, m) ← bvmObjCreate m size val.bits supply
    pushVal m (bvmValObj addr)

/-- `BVM_OP_SUPER` -/
def evalSuper (m : Machine) : Except Fault (BvmRes × Machine) := do
  let (val, m) ← popVal m
  if val.type = .obj ∧ val.bits ≠ 0 then
    let obj ← objAt m val.bits
    pushVal m (bvmValObj obj.proto)
  else
    pushVal m bvmValUndef

/-- The instructions that only compute, and those that are not known. -/
def evalArith (env : Env) (m : Machine) (op : BvmOp) : Except Fault (BvmRes × Machine) :=
  match binary env.num op with
  | some compute => do
    let (rhs, m) ← popVal m
    let (lhs, m) ← popVal m
    let val ← compute lhs rhs
    pushVal m val
  | none =>
    match unary env.num op with
    | some compute => do
      let (val, m) ← popVal m
      pushVal m (compute val)
    | none => return (.error, m)

/-- The body of `bvm_eval` after the instruction was fetched. -/
def evalInstr (env : Env) (m : Machine) (instr : BvmInstr) (supply : Supply) :
    Except Fault (BvmRes × Machine) :=
  match instr.opcode with
  | .nop => return (.run, m)
  | .loadg => do
    let val ← bvmGlobalLoad m.global (intArg instr.arg)
    pushVal m val
  | .loadl => do
    let val ← bvmLocalLoadVar m.loc (intArg instr.arg)
    pushVal m val
  | .loada => do
    let val ← bvmLocalLoadArg m.loc (intArg instr.arg)
    pushVal m val
  | .loado => evalLoadObj m fun addr ↦ bvmObjLoad m addr instr.arg.toNat
  | .loadv => evalLoadObj m fun addr ↦ bvmObjLoadv m instr.arg.toNat supply.chain addr
  | .storeg => do
    let (val, m) ← popVal m
    let global ← bvmGlobalStore m.global (intArg instr.arg) val
    return (.run, { m with global := global })
  | .storel => do
    let (val, m) ← popVal m
    let loc ← bvmLocalStoreVar m.loc (intArg instr.arg) val
    return (.run, { m with loc := loc })
  | .storea => do
    let (val, m) ← popVal m
    let loc ← bvmLocalStoreArg m.loc (intArg instr.arg) val
    return (.run, { m with loc := loc })
  | .storeo => evalStoreObj m fun m addr val ↦ bvmObjStore m addr instr.arg.toNat val
  | .storev => evalStoreObj m fun m addr val ↦ bvmObjStorev instr.arg.toNat val supply.chain m addr
  | .pushi => pushVal m (bvmValInt instr.arg)
  | .pushu => pushVal m (bvmValUint instr.arg)
  | .pushf => pushVal m (bvmValUint (env.num.toUint instr.arg))
  | .pushn => pushVal m bvmValNil
  | .dup => do
    let (val, m) ← popVal m
    let (_, m) ← pushVal m val
    pushVal m val
  | .pop => do
    let (_, m) ← popVal m
    return (.run, m)
  | .call => evalCall env m (intArg instr.arg)
  | .new => evalNew m instr.arg.toNat supply
  | .ret => evalRet m
  | .argc => do
    let frame ← frameCurr m.loc
    pushVal m (bvmValInt frame.argc)
  | .halt => return (.halt, m)
  | .jmp => return (.run, { m with loc := bvmLocalJump m.loc instr.arg.toNat })
  | .jmpf => do
    let (val, m) ← popVal m
    if bvmValTruthy env.num val then return (.run, m)
    else return (.run, { m with loc := bvmLocalJump m.loc instr.arg.toNat })
  | .super => evalSuper m
  | op => evalArith env m op

/-- `bvm_eval` -/
def bvmEval (env : Env) (m : Machine) (supply : Supply) : Except Fault (BvmRes × Machine) := do
  let (instr, loc) ← bvmLocalIfetch env m.loc
  evalInstr env { m with loc := loc } instr supply

/-- What the host does: push arguments, call a function, evaluate, and pop a result. -/
inductive Action where
  | push (val : BvmVal)
  | pop
  | call (addr : BitVec 64) (argc : ℤ)
  | eval (supply : Supply)
deriving DecidableEq, Repr

/-- One step of the host; `bvm_call` is a call, evaluations and a pop. -/
def machineNext (env : Env) (m : Machine) : Action → Except Fault Machine
  | .push val => do
    let (_, m) ← pushVal m val
    return m
  | .pop => do
    let (_, m) ← popVal m
    return m
  | .call addr argc =>
    match env.program addr with
    | none => .error .nullPointer
    | some func => do
      let loc ← bvmLocalCall m.loc addr func argc
      return { m with loc := loc }
  | .eval supply => do
    let (_, m) ← bvmEval env m supply
    return m

end Brutal.Bvm
