import Brutal.Lib.Outcome
import Brutal.Lib.Run
import Mathlib.Logic.Function.Basic

/-!
# Fibers

`libs/brutal-fibers/fibers.c` with the pool of `libs/brutal-alloc/pool.c`.  A fiber structure is
reached through its address.  The circular list through `next` and `prev` is kept as the list of
addresses that starts at `_current`, so that a fiber inserted before `_current` comes last.  Pooled
structures keep what their last fiber left in them.

A fiber that is not executing is suspended in `fiber_yield`, or has not entered its function yet;
`ctx` says where it continues.  What the functions of other blockers answer, and the clock, is given
with every call that polls them: one `Poll` for each call of `fiber_try_unblock`.  A call that uses
up its polls is still waiting.

Beside the structures the model keeps the history of every fiber: a structure has a new life each
time it is taken by `fiber_start`.
-/

namespace Brutal.Fibers

open Lib

inductive FiberState where
  | embryo
  | running
  | canceling
  | canceled
  | blocked
  | idle
  | error
deriving DecidableEq, Repr, Inhabited

inductive FiberBlockResult where
  | success
  | timeout
  | interrupted
deriving DecidableEq, Repr, Inhabited

/-- The function of a blocker: none, `wait_fiber` with its `FiberAwaitCtx` and the life that is
awaited, or another one. -/
inductive FiberBlockerFn where
  | null
  | waitFiber (fiber : ℕ) (ret : ℕ) (life : ℕ)
  | other
deriving DecidableEq, Repr, Inhabited

/-- `FiberBlocker`, where the deadline `none` is `TIME_TIMEOUT_INFINITY`. -/
structure FiberBlocker where
  function : FiberBlockerFn
  deadline : Option ℕ
  result : FiberBlockResult
deriving DecidableEq, Repr, Inhabited

/-- Where a fiber continues: nowhere as long as its context was never set, at `_fiber_entry`, in a
call of `fiber_yield` by one of its callers, or it is executing. -/
inductive FibersContext where
  | unset
  | entry
  | inYield
  | inBlock
  | inAwait
  | inRet
  | executing
deriving DecidableEq, Repr, Inhabited

/-- `Fiber`, without its stack and its links. -/
structure Fiber where
  id : ℕ
  state : FiberState
  blocker : FiberBlocker
  fireAndForget : Bool
  fn : ℕ
  args : ℕ
  ret : ℕ
  ctx : FibersContext
deriving DecidableEq, Repr

/-- The history of one fiber: its structure, whether nobody gets its handle, the fiber that awaits
it, what its function returned, and whether a `fiber_await` took that. -/
structure Life where
  addr : ℕ
  forgotten : Bool
  awaiter : Option ℕ
  returned : Option ℕ
  taken : Bool
deriving DecidableEq, Repr

/-- The answer of the function of a blocker, and `tick_now()`. -/
structure Poll where
  answer : Bool
  now : ℕ
deriving DecidableEq, Repr

/-- The structures that are allocated, the list from `_current`, the pool with its top first, the
counter of `fiber_start`, the histories, and what each `fiber_await` returned for which life. -/
structure State where
  fibers : ℕ → Option Fiber
  ring : List ℕ
  pool : List ℕ
  poolInit : Bool
  id : ℕ
  lives : ℕ → Option Life
  awaited : List (ℕ × ℕ)

inductive Fault where
  | nullPointer
  | freedMemory
  | noContext
  | addressInUse
  | waiting
deriving DecidableEq, Repr

/-- No fiber was started, and the globals are zero. -/
def zeroed : State := ⟨fun _ ↦ none, [], [], false, 0, fun _ ↦ none, []⟩

def fiberAt (s : State) (addr : ℕ) : Except Fault Fiber :=
  match s.fibers addr with
  | some fiber => .ok fiber
  | none => .error .freedMemory

def put (s : State) (addr : ℕ) (fiber : Fiber) : State :=
  { s with fibers := Function.update s.fibers addr (some fiber) }

def putLife (s : State) (id : ℕ) (life : Life) : State :=
  { s with lives := Function.update s.lives id (some life) }

/-- `_current` -/
def current (s : State) : Except Fault ℕ :=
  match s.ring with
  | [] => .error .nullPointer
  | addr :: _ => .ok addr

/-- The size given to `pool_init`. -/
def poolSize : ℕ := 16

/-- `fiber_ctor` -/
def fiberCtor : Fiber where
  id := 0
  state := .embryo
  blocker := ⟨.null, some 0, .success⟩
  fireAndForget := false
  fn := 0
  args := 0
  ret := 0
  ctx := .unset

/-- `pool_acquire`, where `fresh` is the address that the allocator has for `fiber_ctor`. -/
def poolAcquire (s : State) (fresh : ℕ) : Except Fault (ℕ × State) :=
  match s.pool with
  | addr :: pool => .ok (addr, { s with pool := pool })
  | [] =>
    if s.poolInit = false then .error .nullPointer
    else if (s.fibers fresh).isSome then .error .addressInUse
    else .ok (fresh, put s fresh fiberCtor)

/-- `pool_release` -/
def poolRelease (s : State) (addr : ℕ) : State :=
  if s.pool.length = poolSize then
    { s with fibers := Function.update s.fibers addr none }
  else { s with pool := addr :: s.pool }

/-- `fiber_alloc` -/
def fiberAlloc (s : State) (fresh : ℕ) : Except Fault (ℕ × State) := do
  let (addr, s) ← poolAcquire s fresh
  let fiber ← fiberAt s addr
  let s := put s addr { fiber with state := .embryo }
  return (addr, { s with ring := s.ring ++ [addr] })

/-- `fiber_free` -/
def fiberFree (s : State) (addr : ℕ) : State :=
  poolRelease { s with ring := s.ring.erase addr } addr

/-- The fields that `fiber_start` sets. -/
def startFields (fiber : Fiber) (id fn args : ℕ) : Fiber :=
  { fiber with
    id := id
    fn := fn
    args := args
    ctx := if fn = 0 then .unset else .entry
    state := .running }

/-- `pool_init` in the first branch of `fiber_start`. -/
def poolInit (s : State) (fn args : ℕ) : State :=
  if fn = 0 ∧ args = 0 then { s with pool := [], poolInit := true } else s

/-- `fiber_start` -/
def fiberStart (s : State) (fn args fresh : ℕ) : Except Fault (ℕ × State) := do
  let s := poolInit s fn args
  let (addr, s) ← fiberAlloc s fresh
  let fiber ← fiberAt s addr
  let id := s.id
  let s := put { s with id := s.id + 1 } addr (startFields fiber id fn args)
  return (addr, putLife s id ⟨addr, false, none, none, false⟩)

/-- `fiber_start` as `ipc_component_init` calls it, for the fiber that executes when no other can.
-/
def fiberStartIdle (s : State) (fn args fresh : ℕ) : Except Fault (ℕ × State) := do
  let (addr, s) ← fiberStart s fn args fresh
  let fiber ← fiberAt s addr
  return (addr, put s addr { fiber with state := .idle })

/-- `fiber_start_and_forget` -/
def fiberStartAndForget (s : State) (fn args fresh : ℕ) : Except Fault State := do
  let (addr, s) ← fiberStart s fn args fresh
  let fiber ← fiberAt s addr
  let s := put s addr { fiber with fireAndForget := true }
  return putLife s fiber.id ⟨addr, true, none, none, false⟩

/-- `wait_fiber` for the blocker of `self`. -/
def waitFiber (s : State) (self fiber life : ℕ) : Except Fault (Bool × State) := do
  let target ← fiberAt s fiber
  if target.state ≠ .canceling then
    return (false, s)
  let s := put s fiber { target with state := .canceled }
  let waiting ← fiberAt s self
  let blocker := { waiting.blocker with function := .waitFiber fiber target.ret life }
  let s := put s self { waiting with blocker := blocker }
  match s.lives life with
  | some history => return (true, putLife s life { history with taken := true })
  | none => return (true, s)

/-- What the function of a blocker answers; without a function it does not let the fiber go on. -/
def blockerFunction (s : State) (self : ℕ) (blocker : FiberBlocker) (poll : Poll) :
    Except Fault (Bool × State) :=
  match blocker.function with
  | .null => .ok (false, s)
  | .other => .ok (poll.answer, s)
  | .waitFiber fiber _ life => waitFiber s self fiber life

/-- The fiber stops being blocked. -/
def unblock (s : State) (self : ℕ) (result : FiberBlockResult) : Except Fault (Bool × State) := do
  let fiber ← fiberAt s self
  let blocker := { fiber.blocker with result := result }
  return (true, put s self { fiber with state := .running, blocker := blocker })

/-- Whether a deadline is over. -/
def expired (deadline : Option ℕ) (now : ℕ) : Bool :=
  match deadline with
  | none => false
  | some deadline => deadline < now

/-- `fiber_try_unblock` -/
def fiberTryUnblock (s : State) (self : ℕ) (poll : Poll) : Except Fault (Bool × State) := do
  let fiber ← fiberAt s self
  if fiber.state ≠ .blocked then
    return (true, s)
  let (answer, s) ← blockerFunction s self fiber.blocker poll
  if answer then
    unblock s self .success
  else if expired fiber.blocker.deadline poll.now then
    unblock s self .timeout
  else
    return (false, s)

/-- The loop of `fiber_next` over the fibers after `_current`: where it stops, with the polls that
are left. -/
def fiberNextLoop (expected : FiberState) (current : ℕ) :
    List ℕ → List Poll → State → Except Fault (ℕ × List Poll × State)
  | [], polls, s => .ok (current, polls, s)
  | _ :: _, [], _ => .error .waiting
  | next :: rest, poll :: polls, s => do
    let (unblocked, s) ← fiberTryUnblock s next poll
    if unblocked then
      return (next, polls, s)
    let fiber ← fiberAt s next
    if fiber.state = expected then
      return (next, polls, s)
    fiberNextLoop expected current rest polls s

/-- `fiber_next` -/
def fiberNext (expected : FiberState) (polls : List Poll) (s : State) :
    Except Fault (Option ℕ × List Poll × State) :=
  match s.ring with
  | [] => .error .nullPointer
  | current :: others => do
    let (next, polls, s) ← fiberNextLoop expected current others polls s
    let fiber ← fiberAt s next
    if fiber.state ≠ expected then
      return (none, polls, s)
    return (some next, polls, s)

/-- `fiber_wait_unblocked`, where the fibers are in the order in which they come next. -/
def fiberWaitUnblocked : List ℕ → List Poll → State → Except Fault (ℕ × State)
  | next :: rest, poll :: polls, s => do
    let (unblocked, s) ← fiberTryUnblock s next poll
    let fiber ← fiberAt s next
    if unblocked = true ∧ (fiber.state = .running ∨ fiber.state = .idle) then
      return (next, s)
    fiberWaitUnblocked (rest ++ [next]) polls s
  | _, _, _ => .error .waiting

/-- `fiber_free_canceled` over the fibers after `_current`. -/
def fiberFreeCanceled : List ℕ → State → Except Fault State
  | [], s => .ok s
  | curr :: rest, s => do
    let fiber ← fiberAt s curr
    if fiber.state = .canceled then
      fiberFreeCanceled rest (fiberFree s curr)
    else
      fiberFreeCanceled rest s

/-- The list of fibers from another `_current`. -/
def rotateTo (next : ℕ) (ring : List ℕ) : List ℕ :=
  ring.dropWhile (· ≠ next) ++ ring.takeWhile (· ≠ next)

/-- The fiber goes on with its own code; a `fiber_await` returns `ctx.ret`. -/
def continueCurrent (s : State) (addr : ℕ) : Except Fault State := do
  let fiber ← fiberAt s addr
  let s := put s addr { fiber with ctx := .executing }
  match fiber.ctx, fiber.blocker.function with
  | .inAwait, .waitFiber _ ret life => return { s with awaited := s.awaited ++ [(life, ret)] }
  | _, _ => return s

/-- `fibers_switch`, and the rest of the `fiber_yield` in which the next fiber is suspended. -/
def fibersSwitch (s : State) (next : ℕ) : Except Fault State := do
  let s := { s with ring := rotateTo next s.ring }
  let fiber ← fiberAt s next
  match fiber.ctx with
  | .unset => .error .noContext
  | .entry => return s
  | _ => fiberFreeCanceled s.ring.tail s

/-- The fiber that `fiber_yield` chooses. -/
def chooseNext (s : State) (polls : List Poll) : Except Fault (ℕ × State) := do
  let (next, polls, s) ← fiberNext .running polls s
  match next with
  | some next => return (next, s)
  | none =>
    let (next, polls, s) ← fiberNext .idle polls s
    match next with
    | some next => return (next, s)
    | none => fiberWaitUnblocked (s.ring.tail ++ s.ring.take 1) polls s

/-- `fiber_yield`, once the context of the fiber says who called it. -/
def fiberYield (s : State) (polls : List Poll) : Except Fault State := do
  let prev ← current s
  let (next, s) ← chooseNext s polls
  if next = prev then
    continueCurrent s prev
  else
    let s ← fibersSwitch s next
    continueCurrent s next

/-- `fiber_yield` called by the function of the fiber. -/
def yieldSelf (s : State) (polls : List Poll) : Except Fault State := do
  let self ← current s
  let fiber ← fiberAt s self
  fiberYield (put s self { fiber with ctx := .inYield }) polls

/-- `fiber_block`, with the caller in which it continues. -/
def fiberBlock (s : State) (blocker : FiberBlocker) (ctx : FibersContext) (polls : List Poll) :
    Except Fault State := do
  let self ← current s
  let fiber ← fiberAt s self
  let s := put s self { fiber with state := .blocked, blocker := blocker, ctx := ctx }
  fiberYield s polls

/-- `fiber_ret` -/
def fiberRet (s : State) (ret : ℕ) (polls : List Poll) : Except Fault State := do
  let self ← current s
  let fiber ← fiberAt s self
  let state : FiberState := if fiber.fireAndForget then .canceled else .canceling
  let s := put s self { fiber with ret := ret, state := state, ctx := .inRet }
  match s.lives fiber.id with
  | some life => fiberYield (putLife s fiber.id { life with returned := some ret }) polls
  | none => fiberYield s polls

/-- `fiber_await` of the fiber that has the structure now. -/
def fiberAwait (s : State) (addr : ℕ) (polls : List Poll) : Except Fault State := do
  let self ← current s
  let fiber ← fiberAt s addr
  let blocker : FiberBlocker := ⟨.waitFiber addr 0 fiber.id, none, .success⟩
  match s.lives fiber.id with
  | some life =>
    fiberBlock (putLife s fiber.id { life with awaiter := some self }) blocker .inAwait polls
  | none => fiberBlock s blocker .inAwait polls

/-- What the executing fiber does next, with the address of new memory or the polls that it
needs. -/
inductive Action where
  | start (fn args fresh : ℕ)
  | startIdle (fn args fresh : ℕ)
  | startAndForget (fn args fresh : ℕ)
  | yield (polls : List Poll)
  | block (hasFunction : Bool) (deadline : Option ℕ) (polls : List Poll)
  | await (addr : ℕ) (polls : List Poll)
  | ret (value : ℕ) (polls : List Poll)
deriving DecidableEq, Repr

def fiberNextState (s : State) : Action → Except Fault State
  | .start fn args fresh => do
    let (_, s) ← fiberStart s fn args fresh
    return s
  | .startIdle fn args fresh => do
    let (_, s) ← fiberStartIdle s fn args fresh
    return s
  | .startAndForget fn args fresh => fiberStartAndForget s fn args fresh
  | .yield polls => yieldSelf s polls
  | .block hasFunction deadline polls =>
    let function : FiberBlockerFn := if hasFunction then .other else .null
    fiberBlock s ⟨function, deadline, .success⟩ .inBlock polls
  | .await addr polls => fiberAwait s addr polls
  | .ret value polls => fiberRet s value polls

end Brutal.Fibers
