import Brutal.Bvm.Eval
import Mathlib.Data.List.Basic

/-!
# Calls and returns

Every frame belongs to a call that has not returned, and the stack below its arguments is as the
call found it, as long as instructions only write at or above the arguments of the current frame.
`bvm_local_ret` cuts the stack at the arguments of the frame at the base of the array, so that a
return finds its caller again only where the current frame has its arguments at the same position.
-/

namespace Brutal.Bvm

open Lib

variable {loc loc' : BvmLocal} {pos argc : ℤ} {val : BvmVal} {m m' : Machine} {res : BvmRes}
  {addr : BitVec 64} {env : Env} {index : ℕ} {supply : Supply}

/-- The frames agree in everything but the instruction that comes next. -/
def SameFrame (frame frame' : BvmFrame) : Prop :=
  { frame with ip := 0 } = { frame' with ip := 0 }

theorem SameFrame.args {frame frame' : BvmFrame} (h : SameFrame frame frame') :
    frame.args = frame'.args := by
  have hargs := congrArg BvmFrame.args h
  exact hargs

/-- The caller goes on as it was when it made the call, with the value on its stack. -/
def Return.Restored (done : Return) : Prop :=
  ∃ call, done.call = some call ∧ done.frames = call.callers ∧
    done.stackTop = call.frame.args + 1 ∧ done.stack call.frame.args = done.value ∧
    ∀ pos < call.frame.args, done.stack pos = call.stack pos

/-- Every frame belongs to a call: its callers are the frames below it, whose arguments are not
above its own, and the stack below its arguments is as the call found it. -/
def Nested (stack : ℤ → BvmVal) : List BvmFrame → List Call → Prop
  | [], [] => True
  | frame :: frames, call :: calls =>
    SameFrame frame call.frame ∧ call.callers = frames ∧
      (∀ pos < frame.args, stack pos = call.stack pos) ∧
      (∀ caller ∈ frames.head?, caller.args ≤ frame.args) ∧ Nested stack frames calls
  | _, _ => False

structure Disciplined (loc : BvmLocal) : Prop where
  nested : Nested loc.stack loc.frames loc.calls
  returns : ∀ done ∈ loc.returns, done.Restored

/-- The position is not below the arguments of the current frame. -/
def Owns (loc : BvmLocal) (pos : ℤ) : Prop :=
  ∀ frame ∈ loc.frames.head?, frame.args ≤ pos

/-- The frames are the same up to the next instruction of the current one, below whose arguments
nothing was written, and calls made in between have returned to where they were made. -/
structure Keeps (loc loc' : BvmLocal) : Prop where
  callers : loc'.frames.tail = loc.frames.tail
  current : loc'.frames.head?.map (fun frame ↦ { frame with ip := 0 }) =
    loc.frames.head?.map (fun frame ↦ { frame with ip := 0 })
  calls : loc'.calls = loc.calls
  stack : ∀ frame ∈ loc.frames.head?, ∀ pos < frame.args, loc'.stack pos = loc.stack pos
  returns : ∀ done ∈ loc'.returns, done ∈ loc.returns ∨ done.Restored

theorem Nested.congr {stack stack' : ℤ → BvmVal} {frames : List BvmFrame} {calls : List Call}
    (h : Nested stack frames calls)
    (hstack : ∀ frame ∈ frames.head?, ∀ pos < frame.args, stack' pos = stack pos) :
    Nested stack' frames calls := by
  induction frames generalizing calls with
  | nil =>
    cases calls with
    | nil => trivial
    | cons call calls => exact h.elim
  | cons frame frames ih =>
    cases calls with
    | nil => exact h.elim
    | cons call calls =>
      obtain ⟨hsame, hcallers, hbelow, hargs, hrest⟩ := h
      have hframe := hstack frame rfl
      refine ⟨hsame, hcallers, fun pos hpos ↦ (hframe pos hpos).trans (hbelow pos hpos), hargs, ?_⟩
      apply ih hrest
      intro caller hcaller pos hpos
      exact hframe pos (Int.lt_of_lt_of_le hpos (hargs caller hcaller))

theorem Keeps.refl (loc : BvmLocal) : Keeps loc loc :=
  ⟨rfl, rfl, rfl, fun _ _ _ _ ↦ rfl, fun _ h ↦ Or.inl h⟩

/-- Both machines have a current frame with the same arguments, or neither has one. -/
theorem Keeps.args (h : Keeps loc loc') :
    loc'.frames.head?.map BvmFrame.args = loc.frames.head?.map BvmFrame.args := by
  have hcurrent := congrArg (Option.map BvmFrame.args) h.current
  simpa [Function.comp_def] using hcurrent

theorem Keeps.head (h : Keeps loc loc') {frame' : BvmFrame} (hframe' : frame' ∈ loc'.frames.head?) :
    ∃ frame ∈ loc.frames.head?, frame.args = frame'.args := by
  have hargs := h.args
  rw [Option.mem_def.mp hframe', Option.map_some] at hargs
  obtain ⟨frame, hframe, heq⟩ := Option.map_eq_some_iff.mp hargs.symm
  exact ⟨frame, hframe, heq⟩

theorem Keeps.owns (h : Keeps loc loc') (howns : Owns loc pos) : Owns loc' pos := by
  intro frame' hframe'
  obtain ⟨frame, hframe, heq⟩ := h.head hframe'
  rw [← heq]
  exact howns frame hframe

theorem Keeps.trans {loc₁ loc₂ loc₃ : BvmLocal} (h : Keeps loc₁ loc₂) (h' : Keeps loc₂ loc₃) :
    Keeps loc₁ loc₃ := by
  refine ⟨h'.callers.trans h.callers, h'.current.trans h.current, h'.calls.trans h.calls, ?_, ?_⟩
  · intro frame hframe pos hpos
    have hargs := h.args
    rw [Option.mem_def.mp hframe, Option.map_some] at hargs
    obtain ⟨frame', hframe', heq⟩ := Option.map_eq_some_iff.mp hargs
    have hpos' : pos < frame'.args := heq.symm ▸ hpos
    exact (h'.stack frame' hframe' pos hpos').trans (h.stack frame hframe pos hpos)
  · intro done hdone
    rcases h'.returns done hdone with hdone | hrestored
    · exact h.returns done hdone
    · exact Or.inr hrestored

/-- What keeps the frames keeps the discipline. -/
theorem Disciplined.keeps (hloc : Disciplined loc) (h : Keeps loc loc') : Disciplined loc' := by
  constructor
  · have hnested : Nested loc'.stack loc.frames loc.calls := hloc.nested.congr h.stack
    have hcallers := h.callers
    have hcurrent := h.current
    rw [h.calls]
    cases hframes : loc.frames with
    | nil =>
      cases hframes' : loc'.frames with
      | nil => exact hframes ▸ hnested
      | cons frame' frames' =>
        rw [hframes, hframes'] at hcurrent
        cases hcurrent
    | cons frame frames =>
      cases hframes' : loc'.frames with
      | nil =>
        rw [hframes, hframes'] at hcurrent
        cases hcurrent
      | cons frame' frames' =>
        rw [hframes, hframes'] at hcurrent hcallers
        have hsame : SameFrame frame' frame := Option.some.inj hcurrent
        have hrest : frames' = frames := hcallers
        rw [hframes] at hnested
        cases hcalls : loc.calls with
        | nil =>
          rw [hcalls] at hnested
          exact hnested.elim
        | cons call calls =>
          rw [hcalls] at hnested
          obtain ⟨hsameCall, hcallersCall, hbelow, hargs, hnest⟩ := hnested
          rw [hrest]
          refine ⟨Eq.trans hsame hsameCall, hcallersCall, ?_, ?_, hnest⟩
          · rw [hsame.args]
            exact hbelow
          · rw [hsame.args]
            exact hargs
  · intro done hdone
    rcases h.returns done hdone with hold | hrestored
    · exact hloc.returns done hold
    · exact hrestored

theorem stackWrite_eq_ok (h : stackWrite loc pos val = .ok loc') :
    loc' = { loc with stack := Function.update loc.stack pos val } := by
  unfold stackWrite at h
  split at h
  · cases h
    rfl
  · cases h

theorem stackWrite_keeps (howns : Owns loc pos) (h : stackWrite loc pos val = .ok loc') :
    Keeps loc loc' := by
  rw [stackWrite_eq_ok h]
  refine ⟨rfl, rfl, rfl, fun frame hframe below hbelow ↦ ?_, fun _ hdone ↦ Or.inl hdone⟩
  have hne : below ≠ pos := Int.ne_of_lt (Int.lt_of_lt_of_le hbelow (howns frame hframe))
  exact Function.update_of_ne hne _ _

theorem bvmLocalJump_keeps (loc : BvmLocal) (addr : ℕ) : Keeps loc (bvmLocalJump loc addr) := by
  refine ⟨?_, ?_, rfl, fun _ _ _ _ ↦ rfl, fun _ hdone ↦ Or.inl hdone⟩
  · cases hframes : loc.frames <;> simp [bvmLocalJump, hframes]
  · cases hframes : loc.frames <;> simp [bvmLocalJump, hframes]

theorem pushVal_eq_ok (h : pushVal m val = .ok (res, m')) :
    m'.loc = { m.loc with
      stack := Function.update m.loc.stack m.loc.stackTop val
      stackTop := m.loc.stackTop + 1 } := by
  unfold pushVal bvmLocalPush at h
  obtain ⟨loc, hpush, h⟩ := bind_eq_ok.mp h
  obtain ⟨written, hwrite, hpush⟩ := bind_eq_ok.mp hpush
  cases hpush
  cases h
  rw [stackWrite_eq_ok hwrite]

theorem pushVal_keeps (howns : Owns m.loc m.loc.stackTop) (h : pushVal m val = .ok (res, m')) :
    Keeps m.loc m'.loc := by
  rw [pushVal_eq_ok h]
  refine ⟨rfl, rfl, rfl, fun frame hframe below hbelow ↦ ?_, fun _ hdone ↦ Or.inl hdone⟩
  have hne : below ≠ m.loc.stackTop := Int.ne_of_lt (Int.lt_of_lt_of_le hbelow (howns frame hframe))
  exact Function.update_of_ne hne _ _

theorem popVal_eq_ok (h : popVal m = .ok (val, m')) :
    m' = { m with loc := { m.loc with stackTop := m.loc.stackTop - 1 } } ∧
      val = m.loc.stack (m.loc.stackTop - 1) := by
  unfold popVal bvmLocalPop stackRead at h
  split at h
  · cases h
    exact ⟨rfl, rfl⟩
  · cases h

theorem keeps_stackTop (loc : BvmLocal) (top : ℤ) : Keeps loc { loc with stackTop := top } :=
  ⟨rfl, rfl, rfl, fun _ _ _ _ ↦ rfl, fun _ h ↦ Or.inl h⟩

theorem popVal_keeps (h : popVal m = .ok (val, m')) : Keeps m.loc m'.loc := by
  rw [(popVal_eq_ok h).1]
  exact keeps_stackTop _ _

/-- A value that replaces the topmost operand. -/
theorem pop_push_keeps {m m₁ m₂ : Machine} {val val' : BvmVal}
    (howns : Owns m.loc (m.loc.stackTop - 1)) (hpop : popVal m = .ok (val, m₁))
    (hpush : pushVal m₁ val' = .ok (res, m₂)) : Keeps m.loc m₂.loc := by
  have hkeeps := popVal_keeps hpop
  refine hkeeps.trans (pushVal_keeps ?_ hpush)
  rw [(popVal_eq_ok hpop).1]
  exact howns

theorem clearVars_keeps {vars : ℤ} {count : ℕ} (howns : Owns loc vars)
    (h : clearVars loc vars count = .ok loc') :
    Keeps loc loc' ∧ loc'.stackTop = loc.stackTop ∧ loc'.frames = loc.frames := by
  induction count generalizing loc' with
  | zero =>
    cases h
    exact ⟨Keeps.refl loc, rfl, rfl⟩
  | succ count ih =>
    unfold clearVars at h
    obtain ⟨cleared, hclear, hwrite⟩ := bind_eq_ok.mp h
    obtain ⟨hkeeps, htop, hframes⟩ := ih hclear
    have howns' : Owns cleared (vars + count) := by
      intro frame hframe
      have hle := hkeeps.owns howns frame hframe
      omega
    refine ⟨hkeeps.trans (stackWrite_keeps howns' hwrite), ?_, ?_⟩
    · rw [stackWrite_eq_ok hwrite]
      exact htop
    · rw [stackWrite_eq_ok hwrite]
      exact hframes

theorem calleeFrame_args (loc : BvmLocal) (addr : BitVec 64) (func : BvmFunc) (argc : ℤ) :
    (calleeFrame loc addr func argc).args = loc.stackTop - argc := by
  cases func <;> rfl

theorem calleeFrame_vars (loc : BvmLocal) (addr : BitVec 64) (func : BvmFunc) (hargc : 0 ≤ argc) :
    (calleeFrame loc addr func argc).args ≤ (calleeFrame loc addr func argc).vars := by
  cases func with
  | native =>
    show loc.stackTop - argc ≤ loc.stackTop
    omega
  | managed locals code =>
    show loc.stackTop - argc ≤ loc.stackTop + locals
    omega

/-- A call whose arguments lie above those of its caller. -/
theorem Disciplined.call (hloc : Disciplined loc) {func : BvmFunc} (hargc : 0 ≤ argc)
    (howns : Owns loc (loc.stackTop - argc)) (h : bvmLocalCall loc addr func argc = .ok loc') :
    Disciplined loc' ∧ loc'.frames = calleeFrame loc addr func argc :: loc.frames := by
  unfold bvmLocalCall at h
  split at h
  · cases h
  · have hargs := calleeFrame_args loc addr func argc
    have hvars := calleeFrame_vars loc addr func hargc
    generalize calleeFrame loc addr func argc = frame at h hargs hvars ⊢
    have hentered : Disciplined
        { loc with
          frames := frame :: loc.frames
          calls := ⟨frame, loc.frames, loc.stack⟩ :: loc.calls } := by
      refine ⟨⟨rfl, rfl, fun _ _ ↦ rfl, ?_, hloc.nested⟩, hloc.returns⟩
      intro caller hcaller
      rw [hargs]
      exact howns caller hcaller
    have hownsVars : Owns { loc with
        frames := frame :: loc.frames
        calls := ⟨frame, loc.frames, loc.stack⟩ :: loc.calls } frame.vars := by
      rintro current ⟨⟩
      exact hvars
    obtain ⟨hkeeps, _, hframes⟩ := clearVars_keeps hownsVars h
    exact ⟨hentered.keeps hkeeps, hframes⟩

/-- The current frame has its arguments where the frame at the base of the array has them. -/
def AtBase (loc : BvmLocal) : Prop :=
  ∀ frame ∈ loc.frames.head?, ∀ base ∈ loc.frames.getLast?, frame.args = base.args

/-- A return from a frame whose arguments are at the base finds the caller again. -/
theorem Disciplined.ret (hloc : Disciplined loc) (hbase : AtBase loc)
    (h : bvmLocalRet loc val = .ok (res, loc')) : Disciplined loc' := by
  have hnested := hloc.nested
  unfold bvmLocalRet at h
  cases hframes : loc.frames with
  | nil =>
    simp only [hframes] at h
    cases h
  | cons frame callers =>
    simp only [hframes] at h
    have hargs : ((frame :: callers).getLast (List.cons_ne_nil frame callers)).args =
        frame.args := by
      apply Eq.symm
      apply hbase frame (by rw [hframes]; rfl)
      rw [hframes]
      exact List.getLast?_eq_getLast_of_ne_nil _
    rw [hargs] at h
    unfold bvmLocalPush at h
    obtain ⟨pushed, hpush, h⟩ := bind_eq_ok.mp h
    obtain ⟨written, hwrite, hpush⟩ := bind_eq_ok.mp hpush
    cases hpush
    cases h
    rw [stackWrite_eq_ok hwrite]
    rw [hframes] at hnested
    cases hcalls : loc.calls with
    | nil =>
      rw [hcalls] at hnested
      exact hnested.elim
    | cons call calls =>
      rw [hcalls] at hnested
      obtain ⟨hsame, hcallers, hbelow, hcallerArgs, hrest⟩ := hnested
      have hunder : ∀ pos < frame.args,
          Function.update loc.stack frame.args val pos = loc.stack pos :=
        fun pos hpos ↦ Function.update_of_ne (Int.ne_of_lt hpos) _ _
      constructor
      · apply hrest.congr
        intro caller hcaller pos hpos
        exact hunder pos (Int.lt_of_lt_of_le hpos (hcallerArgs caller hcaller))
      · intro done hdone
        rcases List.mem_append.mp hdone with hold | hnew
        · exact hloc.returns done hold
        · rw [List.mem_singleton.mp hnew]
          refine ⟨call, rfl, hcallers.symm, ?_, ?_, ?_⟩
          · rw [← hsame.args]
          · rw [← hsame.args]
            exact Function.update_self ..
          · rw [← hsame.args]
            exact fun pos hpos ↦ (hunder pos hpos).trans (hbelow pos hpos)

/-! ## Instructions -/

/-- How many operands an instruction takes before it pushes a value, if it pushes one. -/
def operands (num : NumOps) : BvmOp → Option ℕ
  | .loadg | .loadl | .loada | .pushi | .pushu | .pushf | .pushn | .argc => some 0
  | .loado | .loadv | .dup | .new | .super => some 1
  | op =>
    if (binary num op).isSome then some 2
    else if (unary num op).isSome then some 1
    else none

/-- The instruction writes nothing below the arguments of the current frame, a call has its
arguments among the operands of the frame, and what returns has its arguments where the frame at
the base has them. -/
def Proper (env : Env) (loc : BvmLocal) (instr : BvmInstr) : Prop :=
  match instr.opcode with
  | .call => 0 ≤ intArg instr.arg ∧ Owns loc (loc.stackTop - 1 - intArg instr.arg) ∧
      (env.program (loc.stack (loc.stackTop - 1)).bits = some .native →
        ∀ base ∈ loc.frames.getLast?, loc.stackTop - 1 - intArg instr.arg = base.args)
  | .ret => AtBase loc
  | .storel => ∀ frame ∈ loc.frames.head?, frame.args ≤ frame.vars + intArg instr.arg
  | .storea => 0 ≤ intArg instr.arg
  | op => ∀ count ∈ operands env.num op, Owns loc (loc.stackTop - count)

/-- A native function leaves the frames as it finds them and does not write below its arguments,
and what it calls itself has returned. -/
def NativeKeeps (env : Env) : Prop :=
  ∀ addr m val m', env.native addr m = .ok (val, m') → Keeps m.loc m'.loc ∧
    m'.loc.frames = m.loc.frames

theorem evalArith_keeps {op : BvmOp}
    (hbinary : (binary env.num op).isSome = true → Owns m.loc (m.loc.stackTop - 2))
    (hunary : binary env.num op = none → (unary env.num op).isSome = true →
      Owns m.loc (m.loc.stackTop - 1)) (h : evalArith env m op = .ok (res, m')) :
    Keeps m.loc m'.loc := by
  unfold evalArith at h
  cases hcompute : binary env.num op with
  | some compute =>
    simp only [hcompute] at h
    obtain ⟨⟨rhs, m₁⟩, hpop₁, h⟩ := bind_eq_ok.mp h
    obtain ⟨⟨lhs, m₂⟩, hpop₂, h⟩ := bind_eq_ok.mp h
    obtain ⟨val, _, hpush⟩ := bind_eq_ok.mp h
    refine (popVal_keeps hpop₁).trans (pop_push_keeps ?_ hpop₂ hpush)
    have howns := (popVal_keeps hpop₁).owns (hbinary (by rw [hcompute]; rfl))
    rw [(popVal_eq_ok hpop₁).1] at howns ⊢
    have htop : m.loc.stackTop - 1 - 1 = m.loc.stackTop - 2 := by omega
    rw [htop]
    exact howns
  | none =>
    simp only [hcompute] at h
    cases hcompute' : unary env.num op with
    | some compute =>
      simp only [hcompute'] at h
      obtain ⟨⟨val, m₁⟩, hpop, hpush⟩ := bind_eq_ok.mp h
      exact pop_push_keeps (hunary hcompute (by rw [hcompute']; rfl)) hpop hpush
    | none =>
      simp only [hcompute'] at h
      cases h
      exact Keeps.refl _

theorem evalLoadObj_keeps {load : BitVec 64 → Except Fault BvmVal}
    (howns : Owns m.loc (m.loc.stackTop - 1)) (h : evalLoadObj m load = .ok (res, m')) :
    Keeps m.loc m'.loc := by
  unfold evalLoadObj at h
  obtain ⟨⟨val, m₁⟩, hpop, h⟩ := bind_eq_ok.mp h
  dsimp only at h
  split at h
  · exact pop_push_keeps howns hpop h
  · obtain ⟨loaded, _, hpush⟩ := bind_eq_ok.mp h
    exact pop_push_keeps howns hpop hpush

theorem evalStoreObj_keeps {store : Machine → BitVec 64 → BvmVal → Except Fault Machine}
    (hstore : ∀ m addr val m', store m addr val = .ok m' → m'.loc = m.loc)
    (h : evalStoreObj m store = .ok (res, m')) : Keeps m.loc m'.loc := by
  unfold evalStoreObj at h
  obtain ⟨⟨obj, m₁⟩, hpop₁, h⟩ := bind_eq_ok.mp h
  obtain ⟨⟨val, m₂⟩, hpop₂, h⟩ := bind_eq_ok.mp h
  have hkeeps := (popVal_keeps hpop₁).trans (popVal_keeps hpop₂)
  dsimp only at h
  split at h
  · cases h
    exact hkeeps
  · obtain ⟨m₃, hstored, h⟩ := bind_eq_ok.mp h
    cases h
    rw [hstore _ _ _ _ hstored]
    exact hkeeps

theorem objWrite_loc {obj : BvmObj} (h : objWrite m addr obj index val = .ok m') :
    m'.loc = m.loc := by
  unfold objWrite at h
  split at h
  · cases h
    rfl
  · cases h

theorem bvmObjStore_loc (h : bvmObjStore m addr index val = .ok m') : m'.loc = m.loc := by
  unfold bvmObjStore at h
  obtain ⟨obj, _, h⟩ := bind_eq_ok.mp h
  split at h
  · cases h
    rfl
  · exact objWrite_loc h

theorem bvmObjStorev_loc {index chain : ℕ} (h : bvmObjStorev index val chain m addr = .ok m') :
    m'.loc = m.loc := by
  induction chain generalizing m addr with
  | zero => cases h
  | succ chain ih =>
    unfold bvmObjStorev at h
    split at h
    · cases h
      rfl
    · obtain ⟨obj, _, h⟩ := bind_eq_ok.mp h
      split at h
      · cases h
        rfl
      · obtain ⟨old, _, h⟩ := bind_eq_ok.mp h
        split at h
        · obtain ⟨m₁, hwrite, h⟩ := bind_eq_ok.mp h
          exact (ih h).trans (objWrite_loc hwrite)
        · exact ih h

/-- A new object, in memory that no other object is in. -/
theorem bvmObjCreate_eq_ok {size : ℕ} {proto addr : BitVec 64}
    (h : bvmObjCreate m size proto supply = .ok (addr, m')) :
    ∃ obj, m.objs proto = some obj ∧ m.objs supply.addr = none ∧
      16 + supply.vals.length * 16 = allocSize size ∧
      m' = { m with
        objs := Function.update m.objs supply.addr (some ⟨proto, obj.len, supply.vals⟩) } := by
  unfold bvmObjCreate objAt at h
  split at h
  · rename_i obj hobj
    rw [ok_bind] at h
    split at h
    · cases h
    · rename_i hfree
      cases h
      simp only [not_or, Option.not_isSome_iff_eq_none, not_not] at hfree
      exact ⟨obj, hobj, hfree.2.1, hfree.2.2, rfl⟩
  · cases h

theorem evalNew_keeps {size : ℕ} (howns : Owns m.loc (m.loc.stackTop - 1))
    (h : evalNew m size supply = .ok (res, m')) : Keeps m.loc m'.loc := by
  unfold evalNew at h
  obtain ⟨⟨val, m₁⟩, hpop, h⟩ := bind_eq_ok.mp h
  dsimp only at h
  split at h
  · exact pop_push_keeps howns hpop h
  · obtain ⟨⟨addr, m₂⟩, hcreate, hpush⟩ := bind_eq_ok.mp h
    obtain ⟨proto, _, _, _, hm₂⟩ := bvmObjCreate_eq_ok hcreate
    have hloc : m₂.loc = m₁.loc := by rw [hm₂]
    have htop : Owns m₂.loc m₂.loc.stackTop := by
      rw [hloc, (popVal_eq_ok hpop).1]
      exact howns
    have hkeeps := popVal_keeps hpop
    rw [← hloc] at hkeeps
    exact hkeeps.trans (pushVal_keeps htop hpush)

theorem evalSuper_keeps (howns : Owns m.loc (m.loc.stackTop - 1))
    (h : evalSuper m = .ok (res, m')) : Keeps m.loc m'.loc := by
  unfold evalSuper at h
  obtain ⟨⟨val, m₁⟩, hpop, h⟩ := bind_eq_ok.mp h
  dsimp only at h
  split at h
  · obtain ⟨obj, _, hpush⟩ := bind_eq_ok.mp h
    exact pop_push_keeps howns hpop hpush
  · exact pop_push_keeps howns hpop h

theorem evalStore_keeps {m m₁ m' : Machine} {pos : BvmFrame → ℤ}
    (howns : ∀ frame ∈ m.loc.frames.head?, frame.args ≤ pos frame) (hpop : popVal m = .ok (val, m₁))
    (hstore : (frameCurr m₁.loc >>= fun frame ↦ stackWrite m₁.loc (pos frame) val) = .ok loc)
    (hm' : m'.loc = loc) : Keeps m.loc m'.loc := by
  obtain ⟨frame, hframe, hwrite⟩ := bind_eq_ok.mp hstore
  have hframes : m₁.loc.frames = m.loc.frames := by rw [(popVal_eq_ok hpop).1]
  have hhead : frame ∈ m.loc.frames.head? := by
    rw [← hframes]
    unfold frameCurr at hframe
    cases hcase : m₁.loc.frames with
    | nil =>
      rw [hcase] at hframe
      cases hframe
    | cons head rest =>
      rw [hcase] at hframe
      cases hframe
      rfl
  have howns' : Owns m₁.loc (pos frame) := by
    intro other hother
    rw [hframes] at hother
    cases Option.mem_unique hother hhead
    exact howns _ hhead
  rw [hm']
  exact (popVal_keeps hpop).trans (stackWrite_keeps howns' hwrite)

theorem Disciplined.evalRet (hm : Disciplined m.loc) (hbase : AtBase m.loc)
    (h : evalRet m = .ok (res, m')) : Disciplined m'.loc := by
  unfold Bvm.evalRet at h
  obtain ⟨⟨val, m₁⟩, hpop, h⟩ := bind_eq_ok.mp h
  obtain ⟨⟨res', loc⟩, hret, h⟩ := bind_eq_ok.mp h
  cases h
  have hbase' : AtBase m₁.loc := by
    rw [(popVal_eq_ok hpop).1]
    exact hbase
  exact (hm.keeps (popVal_keeps hpop)).ret hbase' hret

theorem Disciplined.evalCall (hnative : NativeKeeps env) (hm : Disciplined m.loc) (hargc : 0 ≤ argc)
    (howns : Owns m.loc (m.loc.stackTop - 1 - argc))
    (hbase : env.program (m.loc.stack (m.loc.stackTop - 1)).bits = some .native →
      ∀ base ∈ m.loc.frames.getLast?, m.loc.stackTop - 1 - argc = base.args)
    (h : evalCall env m argc = .ok (res, m')) : Disciplined m'.loc := by
  unfold Bvm.evalCall at h
  obtain ⟨⟨val, m₁⟩, hpop, h⟩ := bind_eq_ok.mp h
  obtain ⟨hm₁, hval⟩ := popVal_eq_ok hpop
  have hdisciplined : Disciplined m₁.loc := hm.keeps (popVal_keeps hpop)
  have howns₁ : Owns m₁.loc (m₁.loc.stackTop - argc) := by
    rw [hm₁]
    exact howns
  dsimp only at h
  cases hfunc : env.program val.bits with
  | none =>
    rw [hfunc] at h
    cases h
  | some func =>
    rw [hfunc] at h
    obtain ⟨loc, hcall, h⟩ := bind_eq_ok.mp h
    obtain ⟨hcalled, hframes⟩ := hdisciplined.call hargc howns₁ hcall
    cases func with
    | managed locals code =>
      cases h
      exact hcalled
    | native =>
      obtain ⟨⟨result, m₂⟩, hrun, h⟩ := bind_eq_ok.mp h
      obtain ⟨⟨res', loc'⟩, hret, h⟩ := bind_eq_ok.mp h
      cases h
      obtain ⟨hkeeps, hsame⟩ := hnative _ _ _ _ hrun
      have hatBase : AtBase m₂.loc := by
        intro frame hframe base hlast
        rw [hsame] at hframe hlast
        dsimp only at hframe hlast
        rw [hframes] at hframe hlast
        cases hframe
        rw [calleeFrame_args]
        cases hcallers : m₁.loc.frames with
        | nil =>
          rw [hcallers] at hlast
          cases hlast
          exact (calleeFrame_args ..).symm
        | cons caller callers =>
          rw [hcallers, List.getLast?_cons_cons, ← hcallers] at hlast
          rw [hm₁] at hlast ⊢
          exact hbase (hval ▸ hfunc) base hlast
      exact (hcalled.keeps hkeeps).ret hatBase hret

/-- One instruction keeps the discipline. -/
theorem Disciplined.evalInstr (hnative : NativeKeeps env) (hm : Disciplined m.loc)
    {instr : BvmInstr} (hproper : Proper env m.loc instr)
    (h : evalInstr env m instr supply = .ok (res, m')) : Disciplined m'.loc := by
  have hpush : ∀ {val : BvmVal}, Owns m.loc (m.loc.stackTop - (0 : ℕ)) →
      pushVal m val = .ok (res, m') → Disciplined m'.loc := by
    intro val howns hpush
    apply hm.keeps (pushVal_keeps _ hpush)
    simpa using howns
  unfold Bvm.evalInstr at h
  unfold Proper at hproper
  cases hop : instr.opcode <;> simp only [hop] at h hproper
  case nop | halt =>
    cases h
    exact hm
  case loadg | loadl | loada | argc =>
    obtain ⟨val, _, h⟩ := bind_eq_ok.mp h
    exact hpush (hproper 0 rfl) h
  case pushi | pushu | pushf | pushn => exact hpush (hproper 0 rfl) h
  case loado | loadv => exact hm.keeps (evalLoadObj_keeps (hproper 1 rfl) h)
  case storeg =>
    obtain ⟨⟨val, m₁⟩, hpop, h⟩ := bind_eq_ok.mp h
    obtain ⟨global, _, h⟩ := bind_eq_ok.mp h
    cases h
    have hpopped : Disciplined m₁.loc := hm.keeps (popVal_keeps hpop)
    exact hpopped
  case storel =>
    obtain ⟨⟨val, m₁⟩, hpop, h⟩ := bind_eq_ok.mp h
    obtain ⟨loc, hstore, h⟩ := bind_eq_ok.mp h
    cases h
    exact hm.keeps (evalStore_keeps hproper hpop hstore rfl)
  case storea =>
    obtain ⟨⟨val, m₁⟩, hpop, h⟩ := bind_eq_ok.mp h
    obtain ⟨loc, hstore, h⟩ := bind_eq_ok.mp h
    cases h
    have howns : ∀ frame ∈ m.loc.frames.head?, frame.args ≤ frame.args + intArg instr.arg := by
      intro frame _
      omega
    exact hm.keeps (evalStore_keeps howns hpop hstore rfl)
  case storeo => exact hm.keeps (evalStoreObj_keeps (fun _ _ _ _ ↦ bvmObjStore_loc) h)
  case storev => exact hm.keeps (evalStoreObj_keeps (fun _ _ _ _ ↦ bvmObjStorev_loc) h)
  case dup =>
    obtain ⟨⟨val, m₁⟩, hpop, h⟩ := bind_eq_ok.mp h
    obtain ⟨⟨res₂, m₂⟩, hpush₁, hpush₂⟩ := bind_eq_ok.mp h
    have howns : Owns m.loc (m.loc.stackTop - 1) := hproper 1 rfl
    have hkeeps := pop_push_keeps howns hpop hpush₁
    refine hm.keeps (hkeeps.trans (pushVal_keeps ?_ hpush₂))
    have htop : m₂.loc.stackTop = m.loc.stackTop := by
      rw [pushVal_eq_ok hpush₁, (popVal_eq_ok hpop).1]
      simp
    rw [htop]
    intro frame hframe
    have hle := hkeeps.owns howns frame hframe
    omega
  case pop =>
    obtain ⟨⟨val, m₁⟩, hpop, h⟩ := bind_eq_ok.mp h
    cases h
    exact hm.keeps (popVal_keeps hpop)
  case call => exact hm.evalCall hnative hproper.1 hproper.2.1 hproper.2.2 h
  case ret => exact hm.evalRet hproper h
  case new => exact hm.keeps (evalNew_keeps (hproper 1 rfl) h)
  case super => exact hm.keeps (evalSuper_keeps (hproper 1 rfl) h)
  case jmp =>
    cases h
    exact hm.keeps (bvmLocalJump_keeps _ _)
  case jmpf =>
    obtain ⟨⟨val, m₁⟩, hpop, h⟩ := bind_eq_ok.mp h
    have hpopped := hm.keeps (popVal_keeps hpop)
    dsimp only at h
    split at h
    · cases h
      exact hpopped
    · cases h
      exact hpopped.keeps (bvmLocalJump_keeps _ _)
  all_goals
    apply hm.keeps (evalArith_keeps _ _ h)
    · intro hsome
      apply hproper 2
      simp [operands, binary] at hsome ⊢
    · intro hnone hsome
      apply hproper 1
      simp [operands, binary, unary] at hnone hsome ⊢

/-- What the host pushes and calls leaves the stack below the arguments of the current frame alone,
and so does the next instruction. -/
def Follows (env : Env) (m : Machine) : Action → Prop
  | .push _ => Owns m.loc m.loc.stackTop
  | .pop => True
  | .call _ argc => 0 ≤ argc ∧ Owns m.loc (m.loc.stackTop - argc)
  | .eval _ => ∀ instr loc, bvmLocalIfetch env m.loc = .ok (instr, loc) → Proper env loc instr

theorem Disciplined.step (hnative : NativeKeeps env) {action : Action} (hm : Disciplined m.loc)
    (hfollows : Follows env m action) (h : machineNext env m action = .ok m') :
    Disciplined m'.loc := by
  cases action with
  | push val =>
    obtain ⟨⟨res, m₁⟩, hpush, h⟩ := bind_eq_ok.mp h
    cases h
    exact hm.keeps (pushVal_keeps hfollows hpush)
  | pop =>
    obtain ⟨⟨val, m₁⟩, hpop, h⟩ := bind_eq_ok.mp h
    cases h
    exact hm.keeps (popVal_keeps hpop)
  | call addr argc =>
    unfold machineNext at h
    cases hfunc : env.program addr with
    | none =>
      simp only [hfunc] at h
      cases h
    | some func =>
      simp only [hfunc] at h
      obtain ⟨loc, hcall, h⟩ := bind_eq_ok.mp h
      cases h
      exact (hm.call hfollows.1 hfollows.2 hcall).1
  | eval supply =>
    obtain ⟨⟨res, m₁⟩, heval, h⟩ := bind_eq_ok.mp h
    cases h
    unfold bvmEval at heval
    obtain ⟨⟨instr, loc⟩, hfetch, heval⟩ := bind_eq_ok.mp heval
    have hproper := hfollows instr loc hfetch
    have hfetched : Disciplined loc := by
      unfold bvmLocalIfetch at hfetch
      obtain ⟨_, _, hfetch⟩ := bind_eq_ok.mp hfetch
      obtain ⟨frame, _, hfetch⟩ := bind_eq_ok.mp hfetch
      cases hfetch
      exact hm.keeps (bvmLocalJump_keeps _ _)
    exact Disciplined.evalInstr hnative hfetched hproper heval

/-- The frames are those of the calls that have not returned, and every return restored the caller
of its call. -/
structure CallsReturn (loc : BvmLocal) : Prop where
  frames : List.Forall₂ (fun frame call ↦ SameFrame frame call.frame) loc.frames loc.calls
  returns : ∀ done ∈ loc.returns, done.Restored

theorem Nested.forall₂ {stack : ℤ → BvmVal} {frames : List BvmFrame} {calls : List Call}
    (h : Nested stack frames calls) :
    List.Forall₂ (fun frame call ↦ SameFrame frame call.frame) frames calls := by
  induction frames generalizing calls with
  | nil =>
    cases calls with
    | nil => exact .nil
    | cons call calls => exact h.elim
  | cons frame frames ih =>
    cases calls with
    | nil => exact h.elim
    | cons call calls => exact .cons h.1 (ih h.2.2.2.2)

/-- In every run in which returns are made with the arguments at the base of the stack and nothing
is written below the arguments of the current frame, returns restore their callers. -/
theorem machineRun_callsReturn {env : Env} (hnative : NativeKeeps env) {global : List BvmVal}
    {objs : BitVec 64 → Option BvmObj} {actions : List Action} {m : Machine}
    (hrun : Run (Guarded (Succeeds (machineNext env)) (Follows env)) ⟨bvmLocalInit, global, objs⟩
      actions m) : CallsReturn m.loc := by
  have hinit : Disciplined bvmLocalInit := by
    refine ⟨trivial, fun done hdone ↦ ?_⟩
    cases hdone
  have hm : Disciplined m.loc := by
    apply Run.invariant _ hrun hinit
    rintro m action m' hm ⟨hfollows, hstep⟩
    exact Disciplined.step hnative hm hfollows hstep
  exact ⟨hm.nested.forall₂, hm.returns⟩

/-- Arithmetic on zeros, for programs without numbers. -/
def noNum : NumOps where
  add := fun _ _ ↦ 0
  sub := fun _ _ ↦ 0
  div := fun _ _ ↦ 0
  mul := fun _ _ ↦ 0
  fmod := fun _ _ ↦ 0
  neg := fun _ ↦ 0
  gt := fun _ _ ↦ false
  gteq := fun _ _ ↦ false
  nonzero := fun _ ↦ false
  ofInt := fun _ ↦ 0
  ofUint := fun _ ↦ 0
  toInt := fun _ ↦ 0
  toUint := fun _ ↦ 0

/-- Two functions, at addresses 1 and 2, and no native ones. -/
def twoFunctions (main callee : List BvmInstr) : Env where
  program := fun addr ↦
    if addr = 1 then some (.managed 0 main)
    else if addr = 2 then some (.managed 0 callee)
    else none
  native := fun _ _ ↦ .error .nullPointer
  num := noNum

theorem twoFunctions_nativeKeeps (main callee : List BvmInstr) :
    NativeKeeps (twoFunctions main callee) := by
  intro addr m val m' h
  cases h

/-- A function that calls another with an empty stack and returns what it gets. -/
theorem machineRun_callsReturn_nested :
    ∃ m : Machine, m.loc.returns.length = 2 ∧ m.loc.frames = [] ∧ m.loc.stackTop = 0 ∧
      CallsReturn m.loc := by
  let env := twoFunctions [⟨.pushu, 2⟩, ⟨.call, 0⟩, ⟨.ret, 0⟩] [⟨.pushi, 7⟩, ⟨.ret, 0⟩]
  let supply : Supply := ⟨0, [], 0⟩
  have hrun : Run (Guarded (Succeeds (machineNext env)) (Follows env))
      ⟨bvmLocalInit, [], fun _ ↦ none⟩
      [.call 1 0, .eval supply, .eval supply, .eval supply, .eval supply, .eval supply, .pop] _ :=
    .cons ⟨⟨by decide, fun _ h ↦ nomatch h⟩, rfl⟩ <|
      .cons ⟨by rintro _ _ ⟨⟩ _ ⟨⟩ _ ⟨⟩; decide, rfl⟩ <|
      .cons ⟨by
        rintro _ _ ⟨⟩
        refine ⟨by decide, ?_, nofun⟩
        rintro _ ⟨⟩
        decide, rfl⟩ <|
      .cons ⟨by rintro _ _ ⟨⟩ _ ⟨⟩ _ ⟨⟩; decide, rfl⟩ <|
      .cons ⟨by rintro _ _ ⟨⟩ _ ⟨⟩ _ ⟨⟩; rfl, rfl⟩ <|
      .cons ⟨by rintro _ _ ⟨⟩ _ ⟨⟩ _ ⟨⟩; rfl, rfl⟩ <| .cons ⟨trivial, rfl⟩ <| .nil _
  exact ⟨_, rfl, rfl, rfl, machineRun_callsReturn (twoFunctions_nativeKeeps _ _) hrun⟩

/-- A function that calls another with a value on its stack does not find the value again. -/
theorem machineRun_return_loses_operand :
    ¬ ∀ (env : Env), NativeKeeps env → ∀ (global : List BvmVal)
      (objs : BitVec 64 → Option BvmObj) (actions : List Action) (m : Machine),
      Run (Succeeds (machineNext env)) ⟨bvmLocalInit, global, objs⟩ actions m →
      CallsReturn m.loc := by
  intro h
  let env := twoFunctions [⟨.pushi, 5⟩, ⟨.pushu, 2⟩, ⟨.call, 0⟩, ⟨.ret, 0⟩]
    [⟨.pushi, 7⟩, ⟨.ret, 0⟩]
  let supply : Supply := ⟨0, [], 0⟩
  have hrun : Run (Succeeds (machineNext env)) ⟨bvmLocalInit, [], fun _ ↦ none⟩
      [.call 1 0, .eval supply, .eval supply, .eval supply, .eval supply, .eval supply] _ :=
    .cons rfl <| .cons rfl <| .cons rfl <| .cons rfl <| .cons rfl <| .cons rfl <| .nil _
  have hreturns := (h env (twoFunctions_nativeKeeps _ _) [] _ _ _ hrun).returns
  obtain ⟨call, hcall, _, htop, _⟩ := hreturns _ List.mem_cons_self
  cases hcall
  exact absurd htop (by decide)

end Brutal.Bvm
