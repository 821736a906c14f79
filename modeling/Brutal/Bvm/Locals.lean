import Brutal.Bvm.CallReturn

/-!
# The storage of local variables

`bvm_local_call` puts the variables of a frame behind as many values as there are variables, and
leaves the top of the stack where it is: what is pushed next goes towards the variables, and after
as many values as there are variables it goes over them.  As long as the operand stack stays below
the variables of every frame, no push and no store to a variable changes what belongs to another.
-/

namespace Brutal.Bvm

open Lib

/-- What a frame has on the stack. -/
structure Area where
  vars : ℤ
  varc : ℕ
  args : ℤ
  argc : ℕ
deriving DecidableEq, Repr

namespace Area

/-- The position is that of a local variable. -/
def InLocals (area : Area) (pos : ℤ) : Prop := area.vars ≤ pos ∧ pos < area.vars + area.varc

/-- The position is that of an argument. -/
def InArgs (area : Area) (pos : ℤ) : Prop := area.args ≤ pos ∧ pos < area.args + area.argc

end Area

def BvmFrame.area (frame : BvmFrame) : Area :=
  ⟨frame.vars, frame.varc, frame.args, frame.argc.toNat⟩

/-- The areas of the active frames, that of the current one first. -/
def areas (loc : BvmLocal) : List Area := loc.frames.map BvmFrame.area

/-- Everything below the position is below the local variables. -/
def Below (list : List Area) (top : ℤ) : Prop := ∀ area ∈ list, 0 < area.varc → top ≤ area.vars

/-- A store to a local variable of the current frame changes no argument, no operand and no local
variable of another frame; where nothing is stored to variables or arguments, no local variable of a
frame that stays active is changed. -/
structure SeparateStep (env : Env) (m : Machine) (action : Action) (m' : Machine) : Prop where
  store : ∀ supply instr loc frame, action = .eval supply →
    bvmLocalIfetch env m.loc = .ok (instr, loc) → instr.opcode = .storel →
      frame ∈ loc.frames.head? → 0 ≤ intArg instr.arg → intArg instr.arg < frame.varc →
        (∀ area ∈ areas m.loc, ∀ pos, area.InArgs pos → m'.loc.stack pos = m.loc.stack pos) ∧
          (∀ pos < m'.loc.stackTop, m'.loc.stack pos = m.loc.stack pos) ∧
            ∀ area ∈ (areas m.loc).tail, ∀ pos, area.InLocals pos →
              m'.loc.stack pos = m.loc.stack pos
  locals : (∀ supply instr loc, action = .eval supply →
      bvmLocalIfetch env m.loc = .ok (instr, loc) →
        instr.opcode ≠ .storel ∧ instr.opcode ≠ .storea) →
    ∀ area ∈ areas m.loc, area ∈ areas m'.loc → ∀ pos, area.InLocals pos →
      m'.loc.stack pos = m.loc.stack pos

/-- A call makes a frame whose variables are apart from the variables and the arguments of the
active frames. -/
def CallsApart (loc : BvmLocal) (addr : BitVec 64) (func : BvmFunc) (argc : ℤ) : Prop :=
  let callee := (calleeFrame loc addr func argc).area
  0 ≤ argc ∧ ∀ area ∈ areas loc, ∀ pos, callee.InLocals pos →
    ¬ area.InLocals pos ∧ ¬ area.InArgs pos

/-- A value is returned to a place below the variables of the frames that stay active. -/
def ReturnsBelow (frames callers : List BvmFrame) : Prop :=
  ∀ base ∈ frames.getLast?, Below (callers.map BvmFrame.area) (base.args + 1)

/-- The instruction pushes below the variables of every active frame, and makes frames apart from
them. -/
def InstrReserves (env : Env) (loc : BvmLocal) (instr : BvmInstr) : Prop :=
  match instr.opcode with
  | .loadg | .loadl | .loada | .pushi | .pushu | .pushf | .pushn | .argc | .dup =>
    Below (areas loc) (loc.stackTop + 1)
  | .call => ∀ func ∈ env.program (loc.stack (loc.stackTop - 1)).bits,
      let loc := { loc with stackTop := loc.stackTop - 1 }
      CallsApart loc (loc.stack loc.stackTop).bits func (intArg instr.arg) ∧
        (func = .native → ReturnsBelow
          (calleeFrame loc (loc.stack loc.stackTop).bits func (intArg instr.arg) :: loc.frames)
          loc.frames)
  | .ret => ReturnsBelow loc.frames loc.frames.tail
  | _ => True

/-- The step pushes below the variables of every active frame, and makes frames apart from them. -/
def Reserves (env : Env) (m : Machine) : Action → Prop
  | .push _ => Below (areas m.loc) (m.loc.stackTop + 1)
  | .pop => True
  | .call addr argc => ∀ func ∈ env.program addr, CallsApart m.loc addr func argc
  | .eval _ => ∀ instr loc,
      bvmLocalIfetch env m.loc = .ok (instr, loc) → InstrReserves env loc instr

/-- A native function leaves the frames and the local variables of the active ones as they are. -/
def NativeSpares (env : Env) : Prop :=
  ∀ addr m val m', env.native addr m = .ok (val, m') → m'.loc.frames = m.loc.frames ∧
    ∀ area ∈ areas m.loc, ∀ pos, area.InLocals pos → m'.loc.stack pos = m.loc.stack pos

/-- The local variables of the frames are apart from each other and from the arguments. -/
structure Apart (list : List Area) : Prop where
  locals : list.Pairwise fun area other ↦ ∀ pos, area.InLocals pos → ¬ other.InLocals pos
  args : ∀ area ∈ list, ∀ other ∈ list, ∀ pos, area.InLocals pos → ¬ other.InArgs pos

/-- The operand stack ends below the variables of every active frame, and these are apart from each
other and from the arguments. -/
structure Layout (list : List Area) (top : ℤ) : Prop extends Apart list where
  below : Below list top

/-- The layout is kept, and so are the local variables of the frames that stay active. -/
structure Spares (loc loc' : BvmLocal) : Prop where
  layout : Layout (areas loc') loc'.stackTop
  locals : ∀ area ∈ areas loc, area ∈ areas loc' → ∀ pos, area.InLocals pos →
    loc'.stack pos = loc.stack pos

variable {env : Env} {m m' : Machine} {loc loc' : BvmLocal} {instr : BvmInstr} {res : BvmRes}
  {supply : Supply} {val : BvmVal}

/-- The instruction replaces operands by a value, drops operands, jumps, doubles an operand, stores
into the current frame, calls or returns. -/
inductive Effect (env : Env) (m : Machine) (instr : BvmInstr) (res : BvmRes) (m' : Machine) :
    Prop where
  | replaced (val : BvmVal) {count : ℕ} (hcount : count ∈ operands env.num instr.opcode)
    (hloc : m'.loc = { m.loc with
      stack := Function.update m.loc.stack (m.loc.stackTop - count) val
      stackTop := m.loc.stackTop - count + 1 })
  | dropped (count : ℕ) (hloc : m'.loc = { m.loc with stackTop := m.loc.stackTop - count })
  | jumped (count addr : ℕ)
    (hloc : m'.loc = bvmLocalJump { m.loc with stackTop := m.loc.stackTop - count } addr)
  | doubled (val : BvmVal) (hop : instr.opcode = .dup) (hloc : m'.loc = { m.loc with
      stack := Function.update (Function.update m.loc.stack (m.loc.stackTop - 1) val)
        m.loc.stackTop val
      stackTop := m.loc.stackTop + 1 })
  | stored (val : BvmVal) {frame : BvmFrame} (hframe : frame ∈ m.loc.frames.head?)
    (hop : instr.opcode = .storel ∨ instr.opcode = .storea) (hloc : m'.loc = { m.loc with
      stack := Function.update m.loc.stack
        ((if instr.opcode = .storel then frame.vars else frame.args) + intArg instr.arg) val
      stackTop := m.loc.stackTop - 1 })
  | called (hop : instr.opcode = .call) (h : evalCall env m (intArg instr.arg) = .ok (res, m'))
  | returned (hop : instr.opcode = .ret) (h : evalRet m = .ok (res, m'))

/-- A value that is pushed in place of the topmost operand. -/
theorem pop_push_eq_ok {m₁ : Machine} {val' : BvmVal} (hpop : popVal m = .ok (val, m₁))
    (hpush : pushVal m₁ val' = .ok (res, m')) :
    m'.loc = { m.loc with
      stack := Function.update m.loc.stack (m.loc.stackTop - (1 : ℕ)) val'
      stackTop := m.loc.stackTop - (1 : ℕ) + 1 } := by
  rw [pushVal_eq_ok hpush, (popVal_eq_ok hpop).1]
  rfl

/-- Two values that are taken before one is pushed. -/
theorem pop_pop_push_eq_ok {m₁ m₂ : Machine} {lhs rhs : BvmVal} (hpop₁ : popVal m = .ok (rhs, m₁))
    (hpop₂ : popVal m₁ = .ok (lhs, m₂)) (hpush : pushVal m₂ val = .ok (res, m')) :
    m'.loc = { m.loc with
      stack := Function.update m.loc.stack (m.loc.stackTop - (2 : ℕ)) val
      stackTop := m.loc.stackTop - (2 : ℕ) + 1 } := by
  have htop : m.loc.stackTop - 1 - (1 : ℕ) = m.loc.stackTop - (2 : ℕ) := by omega
  rw [pop_push_eq_ok hpop₂ hpush, (popVal_eq_ok hpop₁).1]
  dsimp only
  rw [htop]

theorem evalArith_effect
    (hoperands : operands env.num instr.opcode =
      if (binary env.num instr.opcode).isSome then some 2
      else if (unary env.num instr.opcode).isSome then some 1 else none)
    (h : evalArith env m instr.opcode = .ok (res, m')) : Effect env m instr res m' := by
  unfold evalArith at h
  cases hbinary : binary env.num instr.opcode with
  | some compute =>
    rw [hbinary] at h hoperands
    obtain ⟨⟨rhs, m₁⟩, hpop₁, h⟩ := bind_eq_ok.mp h
    obtain ⟨⟨lhs, m₂⟩, hpop₂, h⟩ := bind_eq_ok.mp h
    obtain ⟨val, -, hpush⟩ := bind_eq_ok.mp h
    exact .replaced _ hoperands (pop_pop_push_eq_ok hpop₁ hpop₂ hpush)
  | none =>
    rw [hbinary] at h hoperands
    cases hunary : unary env.num instr.opcode with
    | some compute =>
      rw [hunary] at hoperands
      simp only [hunary] at h
      obtain ⟨⟨val, m₁⟩, hpop, hpush⟩ := bind_eq_ok.mp h
      exact .replaced _ hoperands (pop_push_eq_ok hpop hpush)
    | none =>
      simp only [hunary] at h
      cases h
      refine .dropped 0 ?_
      rw [Int.natCast_zero, Int.sub_zero]

theorem evalLoadObj_effect {load : BitVec 64 → Except Fault BvmVal}
    (hoperands : operands env.num instr.opcode = some 1)
    (h : evalLoadObj m load = .ok (res, m')) : Effect env m instr res m' := by
  unfold evalLoadObj at h
  obtain ⟨⟨val, m₁⟩, hpop, h⟩ := bind_eq_ok.mp h
  dsimp only at h
  split at h
  · exact .replaced _ hoperands (pop_push_eq_ok hpop h)
  · obtain ⟨loaded, -, hpush⟩ := bind_eq_ok.mp h
    exact .replaced _ hoperands (pop_push_eq_ok hpop hpush)

theorem evalStoreObj_effect {store : Machine → BitVec 64 → BvmVal → Except Fault Machine}
    (hstore : ∀ m addr val m', store m addr val = .ok m' → m'.loc = m.loc)
    (h : evalStoreObj m store = .ok (res, m')) : Effect env m instr res m' := by
  unfold evalStoreObj at h
  obtain ⟨⟨obj, m₁⟩, hpop₁, h⟩ := bind_eq_ok.mp h
  obtain ⟨⟨val, m₂⟩, hpop₂, h⟩ := bind_eq_ok.mp h
  have hloc : m₂.loc = { m.loc with stackTop := m.loc.stackTop - (2 : ℕ) } := by
    have htop : m.loc.stackTop - 1 - 1 = m.loc.stackTop - (2 : ℕ) := by omega
    rw [(popVal_eq_ok hpop₂).1, (popVal_eq_ok hpop₁).1]
    dsimp only
    rw [htop]
  dsimp only at h
  split at h
  · cases h
    exact .dropped 2 hloc
  · obtain ⟨m₃, hstored, h⟩ := bind_eq_ok.mp h
    cases h
    exact .dropped 2 ((hstore _ _ _ _ hstored).trans hloc)

theorem evalNew_effect {size : ℕ} (hoperands : operands env.num instr.opcode = some 1)
    (h : evalNew m size supply = .ok (res, m')) : Effect env m instr res m' := by
  unfold evalNew at h
  obtain ⟨⟨val, m₁⟩, hpop, h⟩ := bind_eq_ok.mp h
  dsimp only at h
  split at h
  · exact .replaced _ hoperands (pop_push_eq_ok hpop h)
  · obtain ⟨⟨addr, m₂⟩, hcreate, hpush⟩ := bind_eq_ok.mp h
    obtain ⟨proto, -, -, -, hm₂⟩ := bvmObjCreate_eq_ok hcreate
    have hloc : m₂.loc = m₁.loc := by rw [hm₂]
    apply Effect.replaced _ hoperands
    rw [pushVal_eq_ok hpush, hloc, (popVal_eq_ok hpop).1]
    rfl

theorem evalSuper_effect (hoperands : operands env.num instr.opcode = some 1)
    (h : evalSuper m = .ok (res, m')) : Effect env m instr res m' := by
  unfold evalSuper at h
  obtain ⟨⟨val, m₁⟩, hpop, h⟩ := bind_eq_ok.mp h
  dsimp only at h
  split at h
  · obtain ⟨obj, -, hpush⟩ := bind_eq_ok.mp h
    exact .replaced _ hoperands (pop_push_eq_ok hpop hpush)
  · exact .replaced _ hoperands (pop_push_eq_ok hpop h)

/-- A value that is taken and stored into the current frame. -/
theorem pop_store_eq_ok {m₁ : Machine} {pos : BvmFrame → ℤ} (hpop : popVal m = .ok (val, m₁))
    (hstore : (frameCurr m₁.loc >>= fun frame ↦ stackWrite m₁.loc (pos frame) val) = .ok loc) :
    ∃ frame ∈ m.loc.frames.head?, loc = { m.loc with
      stack := Function.update m.loc.stack (pos frame) val
      stackTop := m.loc.stackTop - 1 } := by
  obtain ⟨frame, hframe, hwrite⟩ := bind_eq_ok.mp hstore
  rw [stackWrite_eq_ok hwrite]
  rw [(popVal_eq_ok hpop).1] at hframe ⊢
  unfold frameCurr at hframe
  split at hframe
  · cases hframe
  · rename_i head rest hframes
    cases hframe
    dsimp only at hframes
    exact ⟨frame, by rw [hframes]; rfl, rfl⟩

/-- What every instruction does to the stack and the frames. -/
theorem evalInstr_effect (h : evalInstr env m instr supply = .ok (res, m')) :
    Effect env m instr res m' := by
  have hpush : ∀ {val}, operands env.num instr.opcode = some 0 →
      pushVal m val = .ok (res, m') → Effect env m instr res m' := by
    intro val hoperands hpush
    apply Effect.replaced val hoperands
    rw [pushVal_eq_ok hpush]
    simp
  have hdrop : m' = m → Effect env m instr res m' := by
    rintro rfl
    refine .dropped 0 ?_
    rw [Int.natCast_zero, Int.sub_zero]
  unfold evalInstr at h
  cases hop : instr.opcode <;> simp only [hop] at h hpush
  case nop | halt =>
    cases h
    exact hdrop rfl
  case loadg | loadl | loada | argc =>
    obtain ⟨val, -, h⟩ := bind_eq_ok.mp h
    exact hpush rfl h
  case pushi | pushu | pushf | pushn => exact hpush rfl h
  case loado | loadv => exact evalLoadObj_effect (by rw [hop]; rfl) h
  case storeg =>
    obtain ⟨⟨val, m₁⟩, hpop, h⟩ := bind_eq_ok.mp h
    obtain ⟨global, -, h⟩ := bind_eq_ok.mp h
    cases h
    refine .dropped 1 ?_
    rw [(popVal_eq_ok hpop).1]
    rfl
  case storel =>
    obtain ⟨⟨val, m₁⟩, hpop, h⟩ := bind_eq_ok.mp h
    obtain ⟨loc, hstore, h⟩ := bind_eq_ok.mp h
    cases h
    obtain ⟨frame, hframe, hloc⟩ := pop_store_eq_ok hpop hstore
    refine .stored val hframe (.inl hop) ?_
    rw [if_pos hop]
    exact hloc
  case storea =>
    obtain ⟨⟨val, m₁⟩, hpop, h⟩ := bind_eq_ok.mp h
    obtain ⟨loc, hstore, h⟩ := bind_eq_ok.mp h
    cases h
    obtain ⟨frame, hframe, hloc⟩ := pop_store_eq_ok hpop hstore
    refine .stored val hframe (.inr hop) ?_
    rw [if_neg (by rw [hop]; decide)]
    exact hloc
  case storeo => exact evalStoreObj_effect (fun _ _ _ _ ↦ bvmObjStore_loc) h
  case storev => exact evalStoreObj_effect (fun _ _ _ _ ↦ bvmObjStorev_loc) h
  case dup =>
    obtain ⟨⟨val, m₁⟩, hpop, h⟩ := bind_eq_ok.mp h
    obtain ⟨⟨res₂, m₂⟩, hpush₁, hpush₂⟩ := bind_eq_ok.mp h
    refine .doubled val hop ?_
    rw [pushVal_eq_ok hpush₂, pop_push_eq_ok hpop hpush₁]
    simp
  case pop =>
    obtain ⟨⟨val, m₁⟩, hpop, h⟩ := bind_eq_ok.mp h
    cases h
    refine .dropped 1 ?_
    rw [(popVal_eq_ok hpop).1]
    rfl
  case call => exact .called hop h
  case ret => exact .returned hop h
  case new => exact evalNew_effect (by rw [hop]; rfl) h
  case super => exact evalSuper_effect (by rw [hop]; rfl) h
  case jmp =>
    cases h
    refine .jumped 0 instr.arg.toNat ?_
    rw [Int.natCast_zero, Int.sub_zero]
  case jmpf =>
    obtain ⟨⟨val, m₁⟩, hpop, h⟩ := bind_eq_ok.mp h
    have hloc : m₁.loc = { m.loc with stackTop := m.loc.stackTop - (1 : ℕ) } := by
      rw [(popVal_eq_ok hpop).1]
      rfl
    dsimp only at h
    split at h
    · cases h
      exact .dropped 1 hloc
    · cases h
      exact .jumped 1 _ (congrArg (bvmLocalJump · instr.arg.toNat) hloc)
  all_goals
    rw [← hop] at h
    exact evalArith_effect (by rw [hop]; rfl) h

/-! ## What is kept -/

variable {list : List Area} {area : Area} {top top' pos : ℤ} {frames callers : List BvmFrame}

theorem Below.not_inLocals (h : Below list top) (harea : area ∈ list) (hpos : pos < top) :
    ¬ area.InLocals pos := by
  rintro ⟨hle, hlt⟩
  have hvarc : 0 < area.varc := by omega
  have htop := h area harea hvarc
  omega

theorem Below.mono (h : Below list top) (hle : top' ≤ top) : Below list top' :=
  fun area harea hvarc ↦ Int.le_trans hle (h area harea hvarc)

theorem Apart.tail {list : List Area} (h : Apart (area :: list)) : Apart list :=
  ⟨h.locals.of_cons, fun first hfirst second hsecond ↦
    h.args first (List.mem_cons_of_mem _ hfirst) second (List.mem_cons_of_mem _ hsecond)⟩

theorem areas_bvmLocalJump (loc : BvmLocal) (addr : ℕ) :
    areas (bvmLocalJump loc addr) = areas loc := by
  unfold areas bvmLocalJump
  cases loc.frames <;> rfl

theorem Spares.of_stackTop (h : Layout (areas loc) loc.stackTop) (hle : top ≤ loc.stackTop) :
    Spares loc { loc with stackTop := top } :=
  ⟨⟨h.toApart, h.below.mono hle⟩, fun _ _ _ _ _ ↦ rfl⟩

/-- A value written below the variables of every frame. -/
theorem Spares.of_write (h : Apart (areas loc)) (hpos : Below (areas loc) (pos + 1))
    (htop : Below (areas loc) top) :
    Spares loc { loc with stack := Function.update loc.stack pos val, stackTop := top } := by
  refine ⟨⟨h, htop⟩, fun area harea _ other hother ↦ Function.update_of_ne ?_ _ _⟩
  rintro rfl
  exact hpos.not_inLocals harea (by omega) hother

theorem Spares.trans {loc₁ loc₂ loc₃ : BvmLocal} (h : Spares loc₁ loc₂) (h' : Spares loc₂ loc₃)
    (hareas : areas loc₂ = areas loc₃) : Spares loc₁ loc₃ := by
  refine ⟨h'.layout, fun area harea hstays pos hpos ↦ ?_⟩
  have harea₂ : area ∈ areas loc₂ := hareas.symm ▸ hstays
  exact (h'.locals area harea₂ hstays pos hpos).trans (h.locals area harea harea₂ pos hpos)

theorem clearVars_eq_ok {vars : ℤ} {count : ℕ} (h : clearVars loc vars count = .ok loc') :
    loc'.frames = loc.frames ∧ loc'.stackTop = loc.stackTop ∧
      ∀ pos, ¬ (vars ≤ pos ∧ pos < vars + count) → loc'.stack pos = loc.stack pos := by
  induction count generalizing loc' with
  | zero =>
    cases h
    exact ⟨rfl, rfl, fun _ _ ↦ rfl⟩
  | succ count ih =>
    unfold clearVars at h
    obtain ⟨cleared, hclear, hwrite⟩ := bind_eq_ok.mp h
    obtain ⟨hframes, htop, hstack⟩ := ih hclear
    rw [stackWrite_eq_ok hwrite]
    refine ⟨hframes, htop, fun pos hpos ↦ ?_⟩
    have hne : pos ≠ vars + count := by omega
    exact (Function.update_of_ne hne _ _).trans (hstack pos (by omega))

theorem calleeFrame_argc_le (loc : BvmLocal) (addr : BitVec 64) (func : BvmFunc) {argc : ℤ}
    (hargc : 0 ≤ argc) : ((calleeFrame loc addr func argc).argc.toNat : ℤ) ≤ argc := by
  have heq : (calleeFrame loc addr func argc).argc = BitVec.ofInt 64 argc := by cases func <;> rfl
  rw [heq, BitVec.toNat_ofInt]
  have hwidth : ((2 ^ 64 : ℕ) : ℤ) = 18446744073709551616 := rfl
  rw [hwidth]
  omega

theorem calleeFrame_stackTop_le (loc : BvmLocal) (addr : BitVec 64) (func : BvmFunc) (argc : ℤ) :
    loc.stackTop ≤ (calleeFrame loc addr func argc).vars := by
  cases func with
  | native => exact Int.le_refl _
  | managed locals code =>
    show loc.stackTop ≤ loc.stackTop + locals
    omega

/-- A call adds a frame whose variables and arguments are apart from what the frames below have. -/
theorem Layout.call (h : Layout (areas loc) loc.stackTop) {addr : BitVec 64} {func : BvmFunc}
    {argc : ℤ} (hcalls : CallsApart loc addr func argc)
    (hcall : bvmLocalCall loc addr func argc = .ok loc') :
    Spares loc loc' ∧ loc'.frames = calleeFrame loc addr func argc :: loc.frames := by
  obtain ⟨hargc, hapart⟩ := hcalls
  have hargs := calleeFrame_args loc addr func argc
  have hcount := calleeFrame_argc_le loc addr func hargc
  have hvars := calleeFrame_stackTop_le loc addr func argc
  unfold bvmLocalCall at hcall
  split at hcall
  · cases hcall
  generalize calleeFrame loc addr func argc = frame at *
  obtain ⟨hframes, htop, hstack⟩ := clearVars_eq_ok hcall
  have hareas : areas loc' = frame.area :: areas loc := by
    unfold areas
    rw [hframes]
    rfl
  have hcallee : ∀ area, area = frame.area ∨ area ∈ areas loc → ∀ pos, area.InLocals pos →
      ¬ frame.area.InArgs pos := by
    rintro area harea pos hpos ⟨-, hlt⟩
    have hltTop : pos < loc.stackTop := by
      have hlt' : pos < frame.args + frame.argc.toNat := hlt
      omega
    rcases harea with rfl | harea
    · have hle : frame.vars ≤ pos := hpos.1
      omega
    · exact h.below.not_inLocals harea hltTop hpos
  refine ⟨⟨?_, ?_⟩, hframes⟩
  · rw [hareas, htop]
    refine ⟨⟨List.pairwise_cons.mpr ⟨?_, h.locals⟩, ?_⟩, ?_⟩
    · exact fun area harea pos hpos ↦ (hapart area harea pos hpos).1
    · intro area harea other hother pos hpos
      rcases List.mem_cons.mp hother with rfl | hother
      · exact hcallee area (List.mem_cons.mp harea) pos hpos
      · rcases List.mem_cons.mp harea with rfl | harea
        · exact (hapart other hother pos hpos).2
        · exact h.args area harea other hother pos hpos
    · intro area harea hvarc
      rcases List.mem_cons.mp harea with rfl | harea
      · exact hvars
      · exact h.below area harea hvarc
  · intro area harea _ pos hpos
    exact hstack pos fun hcleared ↦ (hapart area harea pos hcleared).1 hpos

/-- A return leaves the variables of the callers as they are. -/
theorem Apart.ret (h : Apart (areas loc)) (hreturns : ReturnsBelow loc.frames loc.frames.tail)
    (hret : bvmLocalRet loc val = .ok (res, loc')) :
    Spares loc loc' ∧ loc'.frames = loc.frames.tail := by
  unfold bvmLocalRet at hret
  cases hframes : loc.frames with
  | nil =>
    simp only [hframes] at hret
    cases hret
  | cons frame callers =>
    simp only [hframes] at hret
    rw [hframes] at hreturns
    have hbelow := hreturns _ (List.getLast?_eq_getLast_of_ne_nil (List.cons_ne_nil frame callers))
    generalize (frame :: callers).getLast (List.cons_ne_nil frame callers) = base at hret hbelow
    unfold bvmLocalPush at hret
    obtain ⟨pushed, hpush, hret⟩ := bind_eq_ok.mp hret
    obtain ⟨written, hwrite, hpush⟩ := bind_eq_ok.mp hpush
    cases hpush
    cases hret
    rw [stackWrite_eq_ok hwrite]
    have hcallers : Apart (callers.map BvmFrame.area) := by
      unfold areas at h
      rw [hframes] at h
      exact h.tail
    refine ⟨⟨⟨hcallers, hbelow⟩, fun area _ hstays pos hpos ↦ Function.update_of_ne ?_ _ _⟩, rfl⟩
    rintro rfl
    exact hbelow.not_inLocals hstays (Int.lt_succ _) hpos

theorem evalRet_spares (h : Layout (areas m.loc) m.loc.stackTop)
    (hreturns : ReturnsBelow m.loc.frames m.loc.frames.tail) (heval : evalRet m = .ok (res, m')) :
    Spares m.loc m'.loc := by
  unfold evalRet at heval
  obtain ⟨⟨val, m₁⟩, hpop, heval⟩ := bind_eq_ok.mp heval
  obtain ⟨⟨res', loc⟩, hret, heval⟩ := bind_eq_ok.mp heval
  cases heval
  have hm₁ := (popVal_eq_ok hpop).1
  have hpopped : Spares m.loc m₁.loc := by
    rw [hm₁]
    exact Spares.of_stackTop h (by omega)
  rw [← (congrArg (fun m ↦ m.loc.frames) hm₁ : m₁.loc.frames = m.loc.frames)] at hreturns
  obtain ⟨hspares, -⟩ := hpopped.layout.toApart.ret hreturns hret
  refine ⟨hspares.layout, fun area harea hstays pos hpos ↦ ?_⟩
  have harea₁ : area ∈ areas m₁.loc := by
    rw [hm₁]
    exact harea
  rw [hspares.locals area harea₁ hstays pos hpos]
  exact hpopped.locals area harea harea₁ pos hpos

theorem evalCall_spares (hnative : NativeSpares env) (h : Layout (areas m.loc) m.loc.stackTop)
    {argc : ℤ} (hreserves : ∀ func ∈ env.program (m.loc.stack (m.loc.stackTop - 1)).bits,
      let loc := { m.loc with stackTop := m.loc.stackTop - 1 }
      CallsApart loc (loc.stack loc.stackTop).bits func argc ∧
        (func = .native → ReturnsBelow
          (calleeFrame loc (loc.stack loc.stackTop).bits func argc :: loc.frames) loc.frames))
    (heval : evalCall env m argc = .ok (res, m')) : Spares m.loc m'.loc := by
  unfold evalCall at heval
  obtain ⟨⟨val, m₁⟩, hpop, heval⟩ := bind_eq_ok.mp heval
  obtain ⟨hm₁, hval⟩ := popVal_eq_ok hpop
  have hloc₁ : m₁.loc = { m.loc with stackTop := m.loc.stackTop - 1 } := by rw [hm₁]
  have hpopped : Spares m.loc m₁.loc := by
    rw [hloc₁]
    exact Spares.of_stackTop h (by omega)
  rw [← hval] at hreserves
  dsimp only at heval hreserves
  rw [← hval, ← hloc₁] at hreserves
  cases hfunc : env.program val.bits with
  | none =>
    rw [hfunc] at heval
    cases heval
  | some func =>
    rw [hfunc] at heval
    obtain ⟨hcalls, hreturns⟩ := hreserves func hfunc
    obtain ⟨loc, hcall, heval⟩ := bind_eq_ok.mp heval
    obtain ⟨hcalled, hframes⟩ := hpopped.layout.call hcalls hcall
    have hareas : areas loc = (calleeFrame m₁.loc val.bits func argc).area :: areas m₁.loc := by
      unfold areas
      rw [hframes]
      rfl
    have hlocals : ∀ area ∈ areas m₁.loc, ∀ pos, area.InLocals pos →
        loc.stack pos = m.loc.stack pos := by
      intro area harea pos hpos
      have hmem : area ∈ areas loc := hareas ▸ List.mem_cons_of_mem _ harea
      rw [hcalled.locals area harea hmem pos hpos]
      rw [hloc₁]
    have hareas₁ : areas m₁.loc = areas m.loc := by rw [hloc₁]; rfl
    cases func with
    | managed locals code =>
      cases heval
      refine ⟨hcalled.layout, fun area harea _ pos hpos ↦ ?_⟩
      exact hlocals area (hareas₁ ▸ harea) pos hpos
    | native =>
      obtain ⟨⟨result, m₂⟩, hrun, heval⟩ := bind_eq_ok.mp heval
      obtain ⟨⟨res', loc'⟩, hret, heval⟩ := bind_eq_ok.mp heval
      cases heval
      obtain ⟨hsame, hkept⟩ := hnative _ _ _ _ hrun
      dsimp only at hsame hkept
      have hframes₂ : m₂.loc.frames = calleeFrame m₁.loc val.bits .native argc ::
          m₁.loc.frames := hsame.trans hframes
      have hareas₂ : areas m₂.loc = areas loc := congrArg (List.map BvmFrame.area) hsame
      have hapart : Apart (areas m₂.loc) := hareas₂ ▸ hcalled.layout.toApart
      have hbelow : ReturnsBelow m₂.loc.frames m₂.loc.frames.tail := by
        rw [hframes₂, hloc₁]
        rw [hloc₁] at hreturns
        exact hreturns rfl
      obtain ⟨hspares, hcallers⟩ := hapart.ret hbelow hret
      rw [hframes₂] at hcallers
      have hareas' : areas loc' = areas m₁.loc := congrArg (List.map BvmFrame.area) hcallers
      refine ⟨hspares.layout, fun area _ hstays pos hpos ↦ ?_⟩
      have harea₁ : area ∈ areas m₁.loc := hareas' ▸ hstays
      have hmem : area ∈ areas loc := hareas ▸ List.mem_cons_of_mem _ harea₁
      calc loc'.stack pos
          = m₂.loc.stack pos := hspares.locals area (hareas₂ ▸ hmem) hstays pos hpos
        _ = loc.stack pos := hkept area hmem pos hpos
        _ = m.loc.stack pos := hlocals area harea₁ pos hpos

/-- An instruction that takes nothing and pushes a value is one that has to leave room for it. -/
theorem InstrReserves.below_of_operands (h : InstrReserves env loc instr)
    (hoperands : operands env.num instr.opcode = some 0) :
    Below (areas loc) (loc.stackTop + 1) := by
  unfold InstrReserves at h
  cases hop : instr.opcode <;> rw [hop] at h hoperands
  case loadg | loadl | loada | pushi | pushu | pushf | pushn | argc => exact h
  all_goals simp [operands, binary, unary] at hoperands

/-- An instruction that stores neither to variables nor to arguments. -/
theorem Effect.spares (hnative : NativeSpares env) (h : Layout (areas m.loc) m.loc.stackTop)
    (hreserves : InstrReserves env m.loc instr) (heffect : Effect env m instr res m')
    (hop : instr.opcode ≠ .storel ∧ instr.opcode ≠ .storea) : Spares m.loc m'.loc := by
  cases heffect with
  | @replaced val count hcount hloc =>
    have hbelow : Below (areas m.loc) (m.loc.stackTop - count + 1) := by
      rcases Nat.eq_zero_or_pos count with rfl | hpos
      · simpa using hreserves.below_of_operands hcount
      · exact h.below.mono (by omega)
    rw [hloc]
    exact Spares.of_write h.toApart hbelow hbelow
  | dropped count hloc =>
    rw [hloc]
    exact Spares.of_stackTop h (by omega)
  | jumped count addr hloc =>
    have hdropped : Spares m.loc { m.loc with stackTop := m.loc.stackTop - count } :=
      Spares.of_stackTop h (by omega)
    rw [hloc]
    refine ⟨?_, fun area harea _ ↦ hdropped.locals area harea harea⟩
    rw [areas_bvmLocalJump]
    exact hdropped.layout
  | doubled val hdup hloc =>
    have hbelow : Below (areas m.loc) (m.loc.stackTop + 1) := by
      unfold InstrReserves at hreserves
      rw [hdup] at hreserves
      exact hreserves
    have hfirst : Spares m.loc { m.loc with
        stack := Function.update m.loc.stack (m.loc.stackTop - 1) val
        stackTop := m.loc.stackTop } :=
      Spares.of_write h.toApart (h.below.mono (by omega)) h.below
    rw [hloc]
    exact hfirst.trans (Spares.of_write hfirst.layout.toApart hbelow hbelow) rfl
  | stored val hframe hstore hloc =>
    rcases hstore with hstore | hstore
    · exact absurd hstore hop.1
    · exact absurd hstore hop.2
  | called hcall heval =>
    unfold InstrReserves at hreserves
    rw [hcall] at hreserves
    exact evalCall_spares hnative h hreserves heval
  | returned hret heval =>
    unfold InstrReserves at hreserves
    rw [hret] at hreserves
    exact evalRet_spares h hreserves heval

/-- An instruction that stores to a variable or an argument changes that place only, and pushes
nothing. -/
theorem Effect.of_store (heffect : Effect env m instr res m')
    (hop : instr.opcode = .storel ∨ instr.opcode = .storea) :
    areas m'.loc = areas m.loc ∧ m'.loc.stackTop ≤ m.loc.stackTop ∧
      ∀ pos, m'.loc.stack pos ≠ m.loc.stack pos → ∃ frame ∈ m.loc.frames.head?,
        pos = (if instr.opcode = .storel then frame.vars else frame.args) + intArg instr.arg := by
  have hcall : instr.opcode ≠ .call ∧ instr.opcode ≠ .ret ∧ instr.opcode ≠ .dup := by
    rcases hop with hop | hop <;> simp [hop]
  cases heffect with
  | replaced val hcount hloc =>
    rcases hop with hop | hop <;> simp [hop, operands, binary, unary] at hcount
  | dropped count hloc =>
    rw [hloc]
    exact ⟨rfl, by dsimp only; omega, fun pos hne ↦ absurd rfl hne⟩
  | jumped count addr hloc =>
    rw [hloc, areas_bvmLocalJump]
    exact ⟨rfl, by dsimp only [bvmLocalJump]; omega, fun pos hne ↦ absurd rfl hne⟩
  | doubled val hdup hloc => exact absurd hdup hcall.2.2
  | @stored val frame hframe _ hloc =>
    rw [hloc]
    refine ⟨rfl, by dsimp only; omega, fun pos hne ↦ ⟨frame, hframe, ?_⟩⟩
    by_contra hother
    exact hne (Function.update_of_ne hother _ _)
  | called hop' _ => exact absurd hop' hcall.1
  | returned hop' _ => exact absurd hop' hcall.2.1

/-- A store to a variable of the current frame changes nothing that belongs to another. -/
theorem Effect.store_separate (h : Layout (areas m.loc) m.loc.stackTop)
    (heffect : Effect env m instr res m') (hop : instr.opcode = .storel) {frame : BvmFrame}
    (hframe : frame ∈ m.loc.frames.head?) (hle : 0 ≤ intArg instr.arg)
    (hlt : intArg instr.arg < frame.varc) :
    (∀ area ∈ areas m.loc, ∀ pos, area.InArgs pos → m'.loc.stack pos = m.loc.stack pos) ∧
      (∀ pos < m'.loc.stackTop, m'.loc.stack pos = m.loc.stack pos) ∧
        ∀ area ∈ (areas m.loc).tail, ∀ pos, area.InLocals pos →
          m'.loc.stack pos = m.loc.stack pos := by
  obtain ⟨-, htop, hchanged⟩ := heffect.of_store (.inl hop)
  obtain ⟨callers, hframes⟩ := List.head?_eq_some_iff.mp hframe
  have hareas : areas m.loc = frame.area :: callers.map BvmFrame.area := by
    unfold areas
    rw [hframes]
    rfl
  have hmem : frame.area ∈ areas m.loc := hareas ▸ List.mem_cons_self
  have hlocal : ∀ pos, m'.loc.stack pos ≠ m.loc.stack pos → frame.area.InLocals pos := by
    intro pos hne
    obtain ⟨other, hother, rfl⟩ := hchanged pos hne
    cases Option.mem_unique hother hframe
    rw [if_pos hop]
    show frame.vars ≤ frame.vars + intArg instr.arg ∧
      frame.vars + intArg instr.arg < frame.vars + frame.varc
    omega
  refine ⟨fun area harea pos hpos ↦ ?_, fun pos hpos ↦ ?_, fun area harea pos hpos ↦ ?_⟩
  · by_contra hne
    exact h.args frame.area hmem area harea pos (hlocal pos hne) hpos
  · by_contra hne
    exact h.below.not_inLocals hmem (by omega) (hlocal pos hne)
  · by_contra hne
    have hlocals := h.locals
    rw [hareas] at hlocals harea
    exact (List.pairwise_cons.mp hlocals).1 area harea pos (hlocal pos hne) hpos

theorem bvmLocalIfetch_eq_ok (h : bvmLocalIfetch env loc = .ok (instr, loc')) :
    areas loc' = areas loc ∧ loc'.stack = loc.stack ∧ loc'.stackTop = loc.stackTop := by
  unfold bvmLocalIfetch at h
  obtain ⟨_, -, h⟩ := bind_eq_ok.mp h
  obtain ⟨frame, -, h⟩ := bind_eq_ok.mp h
  cases h
  exact ⟨areas_bvmLocalJump loc (frame.ip + 1), rfl, rfl⟩

/-- A step of the host other than an evaluation stores to no variable. -/
theorem Spares.separate {action : Action} (h : Spares m.loc m'.loc)
    (haction : ∀ supply, action ≠ .eval supply) :
    Layout (areas m'.loc) m'.loc.stackTop ∧ SeparateStep env m action m' :=
  ⟨h.layout, fun supply _ _ _ heval ↦ absurd heval (haction supply), fun _ ↦ h.locals⟩

theorem Layout.eval (hnative : NativeSpares env) (h : Layout (areas m.loc) m.loc.stackTop)
    (hreserves : Reserves env m (.eval supply)) (heval : bvmEval env m supply = .ok (res, m')) :
    Layout (areas m'.loc) m'.loc.stackTop ∧ SeparateStep env m (.eval supply) m' := by
  unfold bvmEval at heval
  obtain ⟨⟨instr, loc⟩, hfetch, heval⟩ := bind_eq_ok.mp heval
  dsimp only at heval
  obtain ⟨hareas, hstack, htop⟩ := bvmLocalIfetch_eq_ok hfetch
  have heffect := evalInstr_effect heval
  have hfetched : Layout (areas loc) loc.stackTop := by
    rw [hareas, htop]
    exact h
  have hreserved := hreserves instr loc hfetch
  have hfetched_eq : ∀ {other : BvmInstr × BvmLocal},
      bvmLocalIfetch env m.loc = .ok other → other = (instr, loc) := by
    intro other hother
    rw [hfetch] at hother
    cases hother
    rfl
  refine ⟨?_, ?_, ?_⟩
  · by_cases hop : instr.opcode = .storel ∨ instr.opcode = .storea
    · obtain ⟨hareas', hle, -⟩ := heffect.of_store hop
      rw [hareas']
      exact ⟨hfetched.toApart, hfetched.below.mono hle⟩
    · exact (heffect.spares hnative hfetched hreserved (not_or.mp hop)).layout
  · intro _ _ _ frame _ hfetch' hop hframe hle hlt
    cases hfetched_eq hfetch'
    rw [← hareas, ← hstack]
    exact heffect.store_separate hfetched hop hframe hle hlt
  · intro hstores area harea hstays pos hpos
    have hspares := heffect.spares hnative hfetched hreserved (hstores supply instr loc rfl hfetch)
    rw [← hareas] at harea
    rw [← hstack]
    exact hspares.locals area harea hstays pos hpos

/-- One step of the host keeps the layout and what it has to leave alone. -/
theorem Layout.step (hnative : NativeSpares env) (h : Layout (areas m.loc) m.loc.stackTop)
    {action : Action} (hreserves : Reserves env m action)
    (hstep : machineNext env m action = .ok m') :
    Layout (areas m'.loc) m'.loc.stackTop ∧ SeparateStep env m action m' := by
  cases action with
  | push val =>
    obtain ⟨⟨res, m₁⟩, hpush, hstep⟩ := bind_eq_ok.mp hstep
    cases hstep
    refine Spares.separate ?_ fun _ heq ↦ nomatch heq
    rw [pushVal_eq_ok hpush]
    exact Spares.of_write h.toApart hreserves hreserves
  | pop =>
    obtain ⟨⟨val, m₁⟩, hpop, hstep⟩ := bind_eq_ok.mp hstep
    cases hstep
    refine Spares.separate ?_ fun _ heq ↦ nomatch heq
    rw [(popVal_eq_ok hpop).1]
    exact Spares.of_stackTop h (by omega)
  | call addr argc =>
    unfold machineNext at hstep
    cases hfunc : env.program addr with
    | none =>
      simp only [hfunc] at hstep
      cases hstep
    | some func =>
      simp only [hfunc] at hstep
      obtain ⟨loc, hcall, hstep⟩ := bind_eq_ok.mp hstep
      cases hstep
      exact (h.call (hreserves func hfunc) hcall).1.separate fun _ heq ↦ nomatch heq
  | eval supply =>
    obtain ⟨⟨res, m₁⟩, heval, hstep⟩ := bind_eq_ok.mp hstep
    cases hstep
    exact h.eval hnative hreserves heval

/-- In every run in which what is pushed and returned stays below the variables of the active
frames, and calls make frames apart from them, variables are storage of their own. -/
theorem machineRun_separate (hnative : NativeSpares env) {global : List BvmVal}
    {objs : BitVec 64 → Option BvmObj} {actions : List Action} {action : Action}
    (hrun : Run (Guarded (Succeeds (machineNext env)) (Reserves env)) ⟨bvmLocalInit, global, objs⟩
      actions m)
    (hstep : Guarded (Succeeds (machineNext env)) (Reserves env) m action m') :
    SeparateStep env m action m' := by
  have hinit : Layout (areas bvmLocalInit) bvmLocalInit.stackTop := ⟨⟨.nil, nofun⟩, nofun⟩
  have hm : Layout (areas m.loc) m.loc.stackTop := by
    apply Run.invariant _ hrun hinit
    rintro m action m' hm ⟨hreserves, hstep⟩
    exact (hm.step hnative hreserves hstep).1
  exact (hm.step hnative hstep.1 hstep.2).2

/-- A function with some local variables, at address 1. -/
def oneFunction (locals : ℕ) (code : List BvmInstr) : Env where
  program := fun addr ↦ if addr = 1 then some (.managed locals code) else none
  native := fun _ _ ↦ .error .nullPointer
  num := noNum

theorem oneFunction_nativeSpares (locals : ℕ) (code : List BvmInstr) :
    NativeSpares (oneFunction locals code) := by
  intro addr m val m' h
  cases h

/-- A function that pushes 7 and stores it to its only variable, with an argument below. -/
theorem machineRun_separate_store :
    ∃ m m' : Machine, m.loc.stack 2 = bvmValNil ∧ m'.loc.stack 2 = bvmValInt 7 ∧
      SeparateStep (oneFunction 1 [⟨.pushi, 7⟩, ⟨.storel, 0⟩]) m (.eval ⟨0, [], 0⟩) m' := by
  let env := oneFunction 1 [⟨.pushi, 7⟩, ⟨.storel, 0⟩]
  let supply : Supply := ⟨0, [], 0⟩
  have hrun : Run (Guarded (Succeeds (machineNext env)) (Reserves env))
      ⟨bvmLocalInit, [], fun _ ↦ none⟩ [.push (bvmValInt 5), .call 1 1, .eval supply] _ :=
    .cons ⟨nofun, rfl⟩ <|
      .cons ⟨by
        rintro _ ⟨⟩
        exact ⟨by decide, nofun⟩, rfl⟩ <|
      .cons ⟨by
        rintro _ _ ⟨⟩
        intro area harea hvarc
        cases List.mem_singleton.mp harea
        decide, rfl⟩ <| .nil _
  refine ⟨_, _, rfl, rfl, machineRun_separate (oneFunction_nativeSpares _ _) hrun ⟨?_, rfl⟩⟩
  rintro _ _ ⟨⟩
  trivial

/-- A function with one variable that pushes twice without a store loses the variable. -/
theorem machineRun_push_overwrites_variable :
    ¬ ∀ (env : Env), NativeSpares env → ∀ (global : List BvmVal)
      (objs : BitVec 64 → Option BvmObj) (actions : List Action) (action : Action) (m m' : Machine),
      Run (Succeeds (machineNext env)) ⟨bvmLocalInit, global, objs⟩ actions m →
        machineNext env m action = .ok m' → SeparateStep env m action m' := by
  intro h
  let env := oneFunction 1 [⟨.pushi, 5⟩, ⟨.pushi, 7⟩]
  let supply : Supply := ⟨0, [], 0⟩
  have hrun : Run (Succeeds (machineNext env)) ⟨bvmLocalInit, [], fun _ ↦ none⟩
      [.call 1 0, .eval supply] _ :=
    .cons rfl <| .cons rfl <| .nil _
  have hseparate := h env (oneFunction_nativeSpares _ _) [] _ _ (.eval supply) _ _ hrun rfl
  have hkept := hseparate.locals
    (by
      rintro _ _ _ ⟨⟩ ⟨⟩
      decide)
    ⟨1, 1, 0, 0⟩ (by decide) (by decide) 1 ⟨by decide, by decide⟩
  exact absurd hkept (by decide)

end Brutal.Bvm
