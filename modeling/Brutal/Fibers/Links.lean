import Brutal.Fibers.Choice
import Brutal.Lib.Cycle
import Brutal.Lib.Related

/-!
# The links of the fibers

The functions of `libs/brutal-fibers/fibers.c` with the links that the structures really have:
`next`, `prev` and `_current` instead of the list of the fibers.  They do what the functions over
the list do, whatever the fibers call, and the links stay one cycle of the fibers in use.
-/

namespace Brutal.Fibers.Links

open Lib

/-- The structures and globals, whose list `ring` stays empty, the links of the structures,
`_current`, and which structures were acquired from the pool and not released. -/
structure Linked where
  state : State
  next : ℕ → ℕ
  prev : ℕ → ℕ
  current : Option ℕ
  acquired : ℕ → Bool

/-- No fiber was started, and the globals are zero. -/
def zeroed : Linked := ⟨Fibers.zeroed, fun _ ↦ 0, fun _ ↦ 0, none, fun _ ↦ false⟩

/-- `_current` -/
def current (l : Linked) : Except Fault ℕ :=
  match l.current with
  | none => .error .nullPointer
  | some addr => .ok addr

/-- `fiber_alloc` -/
def fiberAlloc (l : Linked) (fresh : ℕ) : Except Fault (ℕ × Linked) := do
  let (self, state) ← poolAcquire l.state fresh
  let fiber ← fiberAt state self
  let state := put state self { fiber with state := .embryo }
  let acquired := Function.update l.acquired self true
  match l.current with
  | none =>
    let next := Function.update l.next self self
    let prev := Function.update l.prev self self
    return (self, ⟨state, next, prev, some self, acquired⟩)
  | some current =>
    let next := Function.update l.next self current
    let prev := Function.update l.prev self (l.prev current)
    let next := Function.update next (prev current) self
    let prev := Function.update prev current self
    return (self, ⟨state, next, prev, some current, acquired⟩)

/-- `fiber_free` -/
def fiberFree (l : Linked) (self : ℕ) : Linked :=
  let prev := Function.update l.prev (l.next self) (l.prev self)
  let next := Function.update l.next (prev self) (l.next self)
  let acquired := Function.update l.acquired self false
  ⟨poolRelease l.state self, next, prev, l.current, acquired⟩

/-- `fiber_start` -/
def fiberStart (l : Linked) (fn args fresh : ℕ) : Except Fault (ℕ × Linked) := do
  let (addr, l) ← fiberAlloc { l with state := poolInit l.state fn args } fresh
  let fiber ← fiberAt l.state addr
  let id := l.state.id
  let state := put { l.state with id := id + 1 } addr (startFields fiber id fn args)
  return (addr, { l with state := putLife state id ⟨addr, false, none, none, false⟩ })

/-- `fiber_start` as `ipc_component_init` calls it, for the fiber that executes when no other
can. -/
def fiberStartIdle (l : Linked) (fn args fresh : ℕ) : Except Fault (ℕ × Linked) := do
  let (addr, l) ← fiberStart l fn args fresh
  let fiber ← fiberAt l.state addr
  return (addr, { l with state := put l.state addr { fiber with state := .idle } })

/-- `fiber_start_and_forget` -/
def fiberStartAndForget (l : Linked) (fn args fresh : ℕ) : Except Fault Linked := do
  let (addr, l) ← fiberStart l fn args fresh
  let fiber ← fiberAt l.state addr
  let state := put l.state addr { fiber with fireAndForget := true }
  return { l with state := putLife state fiber.id ⟨addr, true, none, none, false⟩ }

/-- The loop of `fiber_next`. -/
def fiberNextLoop (expected : FiberState) (current next : ℕ) :
    List Poll → Linked → Except Fault (ℕ × List Poll × Linked)
  | [], l => if next = current then .ok (next, [], l) else .error .waiting
  | poll :: polls, l =>
    if next = current then .ok (next, poll :: polls, l)
    else do
      let (unblocked, state) ← fiberTryUnblock l.state next poll
      let l := { l with state }
      if unblocked then
        return (next, polls, l)
      let fiber ← fiberAt state next
      if fiber.state = expected then
        return (next, polls, l)
      fiberNextLoop expected current (l.next next) polls l

/-- `fiber_next` -/
def fiberNext (expected : FiberState) (polls : List Poll) (l : Linked) :
    Except Fault (Option ℕ × List Poll × Linked) := do
  let current ← current l
  let (next, polls, l) ← fiberNextLoop expected current (l.next current) polls l
  let fiber ← fiberAt l.state next
  if fiber.state ≠ expected then
    return (none, polls, l)
  return (some next, polls, l)

/-- The loop of `fiber_wait_unblocked`. -/
def fiberWaitUnblocked (next : ℕ) : List Poll → Linked → Except Fault (ℕ × Linked)
  | [], _ => .error .waiting
  | poll :: polls, l => do
    let (unblocked, state) ← fiberTryUnblock l.state next poll
    let l := { l with state }
    let fiber ← fiberAt state next
    if unblocked = true ∧ (fiber.state = .running ∨ fiber.state = .idle) then
      return (next, l)
    fiberWaitUnblocked (l.next next) polls l

/-- The fiber that `fiber_yield` chooses. -/
def chooseNext (l : Linked) (polls : List Poll) : Except Fault (ℕ × Linked) := do
  let (next, polls, l) ← fiberNext .running polls l
  match next with
  | some next => return (next, l)
  | none =>
    let (next, polls, l) ← fiberNext .idle polls l
    match next with
    | some next => return (next, l)
    | none =>
      let current ← current l
      fiberWaitUnblocked (l.next current) polls l

/-- The loop of `fiber_free_canceled`, with a bound on its rounds. -/
def freeCanceledLoop (current : ℕ) : ℕ → ℕ → Linked → Except Fault Linked
  | 0, curr, l => if curr = current then .ok l else .error .waiting
  | rounds + 1, curr, l =>
    if curr = current then .ok l
    else do
      let next := l.next curr
      let fiber ← fiberAt l.state curr
      if fiber.state = .canceled then
        freeCanceledLoop current rounds next (fiberFree l curr)
      else
        freeCanceledLoop current rounds next l

/-- `fiber_free_canceled`: there are not more fibers than `fiber_start` has counted. -/
def fiberFreeCanceled (l : Linked) : Except Fault Linked := do
  let current ← current l
  freeCanceledLoop current l.state.id (l.next current) l

/-- `fibers_switch`, and the rest of the `fiber_yield` in which the next fiber is suspended. -/
def fibersSwitch (l : Linked) (next : ℕ) : Except Fault Linked := do
  let l := { l with current := some next }
  let fiber ← fiberAt l.state next
  match fiber.ctx with
  | .unset => .error .noContext
  | .entry => return l
  | _ => fiberFreeCanceled l

/-- The fiber goes on with its own code. -/
def continueCurrent (l : Linked) (addr : ℕ) : Except Fault Linked := do
  let state ← Fibers.continueCurrent l.state addr
  return { l with state }

/-- `fiber_yield`, once the context of the fiber says who called it. -/
def fiberYield (l : Linked) (polls : List Poll) : Except Fault Linked := do
  let prev ← current l
  let (next, l) ← chooseNext l polls
  if next = prev then
    continueCurrent l prev
  else
    let l ← fibersSwitch l next
    continueCurrent l next

/-- `fiber_yield` called by the function of the fiber. -/
def yieldSelf (l : Linked) (polls : List Poll) : Except Fault Linked := do
  let self ← current l
  let fiber ← fiberAt l.state self
  fiberYield { l with state := put l.state self { fiber with ctx := .inYield } } polls

/-- `fiber_block`, with the caller in which it continues. -/
def fiberBlock (l : Linked) (blocker : FiberBlocker) (ctx : FibersContext) (polls : List Poll) :
    Except Fault Linked := do
  let self ← current l
  let fiber ← fiberAt l.state self
  let state := put l.state self { fiber with state := .blocked, blocker := blocker, ctx := ctx }
  fiberYield { l with state } polls

/-- `fiber_ret` -/
def fiberRet (l : Linked) (ret : ℕ) (polls : List Poll) : Except Fault Linked := do
  let self ← current l
  let fiber ← fiberAt l.state self
  let state : FiberState := if fiber.fireAndForget then .canceled else .canceling
  let s := put l.state self { fiber with ret := ret, state := state, ctx := .inRet }
  match s.lives fiber.id with
  | some life =>
    fiberYield { l with state := putLife s fiber.id { life with returned := some ret } } polls
  | none => fiberYield { l with state := s } polls

/-- `fiber_await` of the fiber that has the structure now. -/
def fiberAwait (l : Linked) (addr : ℕ) (polls : List Poll) : Except Fault Linked := do
  let self ← current l
  let fiber ← fiberAt l.state addr
  let blocker : FiberBlocker := ⟨.waitFiber addr 0 fiber.id, none, .success⟩
  match l.state.lives fiber.id with
  | some life =>
    let state := putLife l.state fiber.id { life with awaiter := some self }
    fiberBlock { l with state } blocker .inAwait polls
  | none => fiberBlock l blocker .inAwait polls

def fiberNextState (l : Linked) : Action → Except Fault Linked
  | .start fn args fresh => do
    let (_, l) ← fiberStart l fn args fresh
    return l
  | .startIdle fn args fresh => do
    let (_, l) ← fiberStartIdle l fn args fresh
    return l
  | .startAndForget fn args fresh => fiberStartAndForget l fn args fresh
  | .yield polls => yieldSelf l polls
  | .block hasFunction deadline polls =>
    let function : FiberBlockerFn := if hasFunction then .other else .null
    fiberBlock l ⟨function, deadline, .success⟩ .inBlock polls
  | .await addr polls => fiberAwait l addr polls
  | .ret value polls => fiberRet l value polls

/-- The structures and globals without the list. -/
def clear (s : State) : State := { s with ring := [] }

@[simp]
theorem clear_lives (s : State) : (clear s).lives = s.lives := rfl

@[simp]
theorem put_lives (s : State) (addr : ℕ) (fiber : Fiber) :
    (put s addr fiber).lives = s.lives := rfl

/-- The fibers in use are those of the list, in its order from `_current`, and none is pooled. -/
structure Refines (l : Linked) (s : State) : Prop where
  state : l.state = clear s
  cycle : IsCycle l.next l.prev s.ring
  current : l.current = s.ring.head?
  acquired : ∀ addr, l.acquired addr = true ↔ addr ∈ s.ring
  nodup : (s.ring ++ s.pool).Nodup
  allocated : ∀ addr ∈ s.ring ++ s.pool, (s.fibers addr).isSome = true

/-- Not more fibers are in use than were counted. -/
def Bounded (s : State) : Prop := s.ring.length ≤ s.id

/-- The same structures are in use and in the pool. -/
structure SameShape (s t : State) : Prop where
  ring : t.ring = s.ring
  pool : t.pool = s.pool
  id : t.id = s.id
  fibers : ∀ addr, (t.fibers addr).isSome = (s.fibers addr).isSome

theorem SameShape.refl (s : State) : SameShape s s := ⟨rfl, rfl, rfl, fun _ ↦ rfl⟩

variable {l : Linked} {s t u : State}

theorem SameShape.trans (h : SameShape s t) (h' : SameShape t u) : SameShape s u :=
  ⟨h'.ring.trans h.ring, h'.pool.trans h.pool, h'.id.trans h.id,
    fun addr ↦ (h'.fibers addr).trans (h.fibers addr)⟩

theorem SameShape.put (h : SameShape s t) {addr : ℕ} {fiber fiber' : Fiber}
    (hfiber : t.fibers addr = some fiber) : SameShape s (put t addr fiber') := by
  refine ⟨h.ring, h.pool, h.id, fun other ↦ ?_⟩
  rw [← h.fibers other]
  by_cases heq : other = addr
  · subst heq
    rw [hfiber, Fibers.put]
    dsimp only
    rw [Function.update_self]
    rfl
  · exact congrArg Option.isSome (Function.update_of_ne heq ..)

theorem SameShape.putLife (h : SameShape s t) (id : ℕ) (life : Life) :
    SameShape s (putLife t id life) :=
  ⟨h.ring, h.pool, h.id, h.fibers⟩

theorem Refines.shape (h : Refines l s) (hshape : SameShape s t) :
    Refines { l with state := clear t } t := by
  refine ⟨rfl, ?_, ?_, ?_, ?_, ?_⟩
  · rw [hshape.ring]
    exact h.cycle
  · rw [hshape.ring]
    exact h.current
  · rw [hshape.ring]
    exact h.acquired
  · rw [hshape.ring, hshape.pool]
    exact h.nodup
  · rw [hshape.ring, hshape.pool]
    exact fun addr hmem ↦ (hshape.fibers addr).trans (h.allocated addr hmem)

theorem related_fiberAt (s : State) (addr : ℕ) :
    Related (fun fiber fiber' ↦ fiber = fiber' ∧ s.fibers addr = some fiber)
      (fiberAt (clear s) addr) (fiberAt s addr) :=
  @Related.self _ _ (fiberAt s addr) _ fun _ h ↦ ⟨rfl, fiberAt_eq_ok.mp h⟩

theorem Refines.related_current (h : Refines l s) :
    Related (fun addr addr' ↦ addr = addr' ∧ s.ring.head? = some addr) (Links.current l)
      (Fibers.current s) := by
  rw [Links.current, h.current, Fibers.current]
  cases s.ring with
  | nil => exact rfl
  | cons addr rest => exact ⟨rfl, rfl⟩

/-- The same answer, in states with the same structures in use. -/
def SameAnswer (s : State) : Bool × State → Bool × State → Prop
  | (answer, u), (answer', t) => answer = answer' ∧ u = clear t ∧ SameShape s t

theorem related_unblock (h : SameShape s t) (self : ℕ) (result : FiberBlockResult) :
    Related (SameAnswer s) (unblock (clear t) self result) (unblock t self result) := by
  refine (related_fiberAt t self).bind ?_
  rintro fiber _ ⟨rfl, hfiber⟩
  exact ⟨rfl, rfl, h.put hfiber⟩

theorem related_waitFiber (s : State) (self addr life : ℕ) :
    Related (SameAnswer s) (waitFiber (clear s) self addr life) (waitFiber s self addr life) := by
  refine (related_fiberAt s addr).bind ?_
  rintro target _ ⟨rfl, htarget⟩
  dsimp only
  split
  · exact ⟨rfl, rfl, SameShape.refl s⟩
  · have hput := @SameShape.put _ _ (SameShape.refl s) _ _ { target with state := .canceled }
      htarget
    refine (related_fiberAt (Fibers.put s addr { target with state := .canceled }) self).bind ?_
    rintro waiting _ ⟨rfl, hwaiting⟩
    have hdone := @SameShape.put _ _ hput _ _ { waiting with
      blocker := { waiting.blocker with function := .waitFiber addr target.ret life } } hwaiting
    simp only [put_lives, clear_lives]
    cases hlife : s.lives life with
    | none => exact ⟨rfl, rfl, hdone⟩
    | some history => exact ⟨rfl, rfl, hdone.putLife life { history with taken := true }⟩

theorem related_blockerFunction (s : State) (self : ℕ) (blocker : FiberBlocker) (poll : Poll) :
    Related (SameAnswer s) (blockerFunction (clear s) self blocker poll)
      (blockerFunction s self blocker poll) := by
  unfold blockerFunction
  split
  · exact ⟨rfl, rfl, SameShape.refl s⟩
  · exact ⟨rfl, rfl, SameShape.refl s⟩
  · exact related_waitFiber ..

theorem related_fiberTryUnblock (s : State) (self : ℕ) (poll : Poll) :
    Related (SameAnswer s) (fiberTryUnblock (clear s) self poll) (fiberTryUnblock s self poll) := by
  refine (related_fiberAt s self).bind ?_
  rintro fiber _ ⟨rfl, -⟩
  dsimp only
  split
  · exact ⟨rfl, rfl, SameShape.refl s⟩
  · refine (related_blockerFunction s self fiber.blocker poll).bind ?_
    rintro ⟨answer, _⟩ ⟨_, t⟩ ⟨rfl, rfl, hshape⟩
    dsimp only
    split
    · exact related_unblock hshape self .success
    · split
      · exact related_unblock hshape self .timeout
      · exact ⟨rfl, rfl, hshape⟩

variable {polls : List Poll}

/-- The same fiber with the same polls left, and links that go with the list. -/
def SameFound {Found : Type} (s : State) :
    Found × List Poll × Linked → Found × List Poll × State → Prop
  | (found, polls, l), (found', polls', t) =>
    found = found' ∧ polls = polls' ∧ Refines l t ∧ SameShape s t

theorem Refines.related_fiberNextLoop {expected : FiberState} {head next : ℕ}
    {before rest : List ℕ} (h : Refines l s) (hring : s.ring = head :: (before ++ rest))
    (hnext : (rest ++ [head]).head? = some next) :
    Related (SameFound s) (fiberNextLoop expected head next polls l)
      (Fibers.fiberNextLoop expected head rest polls s) := by
  induction rest generalizing before next polls l s with
  | nil =>
    cases hnext
    cases polls with
    | nil =>
      rw [fiberNextLoop, if_pos rfl]
      exact ⟨rfl, rfl, h, SameShape.refl s⟩
    | cons poll polls =>
      rw [fiberNextLoop, if_pos rfl]
      exact ⟨rfl, rfl, h, SameShape.refl s⟩
  | cons addr rest ih =>
    cases hnext
    have hcycle := h.cycle
    have hnodup := h.nodup
    rw [hring] at hcycle hnodup
    have hne : addr ≠ head := by
      rintro rfl
      rw [List.cons_append, List.nodup_cons] at hnodup
      exact hnodup.1 (List.mem_append_left _ (List.mem_append_right _ List.mem_cons_self))
    have hnext := hcycle.head_eq
      (show head :: (before ++ addr :: rest) = (head :: before) ++ addr :: rest from rfl)
    cases polls with
    | nil =>
      rw [fiberNextLoop, if_neg hne]
      exact rfl
    | cons poll polls =>
      rw [fiberNextLoop, if_neg hne, Fibers.fiberNextLoop, h.state]
      refine (related_fiberTryUnblock s addr poll).bind ?_
      rintro ⟨unblocked, _⟩ ⟨_, t⟩ ⟨rfl, rfl, hshape⟩
      have ht := h.shape hshape
      dsimp only
      split
      · exact ⟨rfl, rfl, ht, hshape⟩
      · refine (related_fiberAt t addr).bind ?_
        rintro fiber _ ⟨rfl, -⟩
        split
        · exact ⟨rfl, rfl, ht, hshape⟩
        · have hring' : t.ring = head :: (before ++ [addr] ++ rest) := by
            rw [hshape.ring, hring, List.append_assoc, List.singleton_append]
          refine (ih ht hring' hnext).mono ?_
          rintro ⟨found, left, l'⟩ ⟨_, _, u⟩ ⟨rfl, rfl, hu, hshape'⟩
          exact ⟨rfl, rfl, hu, hshape.trans hshape'⟩

theorem Refines.related_fiberNext (h : Refines l s) (expected : FiberState) (polls : List Poll) :
    Related (SameFound s) (fiberNext expected polls l) (Fibers.fiberNext expected polls s) := by
  rw [fiberNext, Fibers.fiberNext, Links.current, h.current]
  cases hring : s.ring with
  | nil => exact rfl
  | cons head others =>
    have hcycle := h.cycle
    rw [hring] at hcycle
    have hnext := hcycle.head_eq (show head :: others = [] ++ head :: others from rfl)
    have hsplit : s.ring = head :: ([] ++ others) := hring
    refine (h.related_fiberNextLoop hsplit hnext).bind ?_
    rintro ⟨found, left, l'⟩ ⟨_, _, t⟩ ⟨rfl, rfl, ht, hshape⟩
    dsimp only
    rw [ht.state]
    refine (related_fiberAt t found).bind ?_
    rintro fiber _ ⟨rfl, -⟩
    split
    · exact ⟨rfl, rfl, ht, hshape⟩
    · exact ⟨rfl, rfl, ht, hshape⟩

/-- The same fiber, and links that go with the list. -/
def SameChoice (s : State) : ℕ × Linked → ℕ × State → Prop
  | (next, l), (next', t) => next = next' ∧ Refines l t ∧ SameShape s t

theorem Refines.related_fiberWaitUnblocked {next : ℕ} {rest : List ℕ} (h : Refines l s)
    (hcycle : IsCycle l.next l.prev (next :: rest)) :
    Related (SameChoice s) (fiberWaitUnblocked next polls l)
      (Fibers.fiberWaitUnblocked (next :: rest) polls s) := by
  induction polls generalizing next rest l s with
  | nil => exact rfl
  | cons poll polls ih =>
    rw [fiberWaitUnblocked, Fibers.fiberWaitUnblocked, h.state]
    refine (related_fiberTryUnblock s next poll).bind ?_
    rintro ⟨unblocked, _⟩ ⟨_, t⟩ ⟨rfl, rfl, hshape⟩
    have ht := h.shape hshape
    refine (related_fiberAt t next).bind ?_
    rintro fiber _ ⟨rfl, -⟩
    dsimp only
    split
    · exact ⟨rfl, ht, hshape⟩
    · have hnext := hcycle.head_eq (show next :: rest = [] ++ next :: rest from rfl)
      obtain ⟨after, horder⟩ := List.head?_eq_some_iff.mp hnext
      rw [horder]
      refine (ih ht (hcycle.behind horder)).mono ?_
      rintro ⟨found, l'⟩ ⟨_, u⟩ ⟨rfl, hu, hshape'⟩
      exact ⟨rfl, hu, hshape.trans hshape'⟩

theorem Refines.related_chooseNext (h : Refines l s) (polls : List Poll) :
    Related (SameChoice s) (chooseNext l polls) (Fibers.chooseNext s polls) := by
  cases hring : s.ring with
  | nil =>
    rw [chooseNext, Fibers.chooseNext, fiberNext, Fibers.fiberNext, Links.current, h.current, hring]
    exact rfl
  | cons head others =>
    refine (h.related_fiberNext .running polls).bind ?_
    rintro ⟨running, left, l₁⟩ ⟨_, _, t⟩ ⟨rfl, rfl, ht, hshape⟩
    cases running with
    | some next => exact ⟨rfl, ht, hshape⟩
    | none =>
      refine (ht.related_fiberNext .idle left).bind ?_
      rintro ⟨idle, left', l₂⟩ ⟨_, _, u⟩ ⟨rfl, rfl, hu, hshape'⟩
      have hboth := hshape.trans hshape'
      cases idle with
      | some next => exact ⟨rfl, hu, hboth⟩
      | none =>
        have hsame : u.ring = head :: others := hboth.ring.trans hring
        have hcycle := hu.cycle
        rw [hsame] at hcycle
        have hnext := hcycle.head_eq (show head :: others = [] ++ head :: others from rfl)
        obtain ⟨after, horder⟩ := List.head?_eq_some_iff.mp hnext
        dsimp only
        rw [Links.current, hu.current, hsame]
        change Related (SameChoice s) (fiberWaitUnblocked (l₂.next head) left' l₂)
          (Fibers.fiberWaitUnblocked (others ++ [head]) left' u)
        rw [horder]
        refine (hu.related_fiberWaitUnblocked (hcycle.behind horder)).mono ?_
        rintro ⟨found, l'⟩ ⟨_, v⟩ ⟨rfl, hv, hshape''⟩
        exact ⟨rfl, hv, hboth.trans hshape''⟩

/-! ## Switches -/

/-- The links go with a list of not more fibers than were counted. -/
structure Simulates (l : Linked) (s : State) : Prop where
  refines : Refines l s
  bounded : Bounded s

theorem Simulates.shape (h : Simulates l s) (hshape : SameShape s t) :
    Simulates { l with state := clear t } t := by
  refine ⟨h.refines.shape hshape, ?_⟩
  rw [Bounded, hshape.ring, hshape.id]
  exact h.bounded

theorem clear_fiberFree (s : State) (addr : ℕ) :
    clear (Fibers.fiberFree s addr) = poolRelease (clear s) addr := by
  have hpool : (clear s).pool = s.pool := rfl
  unfold Fibers.fiberFree poolRelease
  rw [hpool]
  dsimp only
  split <;> rfl

/-- A structure that is taken out of the list goes into the pool or to the allocator. -/
theorem Refines.released (h : Refines l s) {addr : ℕ} (hmem : addr ∈ s.ring) :
    ((Fibers.fiberFree s addr).ring ++ (Fibers.fiberFree s addr).pool).Nodup ∧
      ∀ other ∈ (Fibers.fiberFree s addr).ring ++ (Fibers.fiberFree s addr).pool,
        ((Fibers.fiberFree s addr).fibers other).isSome = true := by
  have hperm := (List.perm_cons_erase hmem).append_right s.pool
  have hnodup : (addr :: (s.ring.erase addr ++ s.pool)).Nodup := hperm.nodup_iff.mp h.nodup
  have hold : ∀ other ∈ s.ring.erase addr ++ s.pool, (s.fibers other).isSome = true :=
    fun other hother ↦ h.allocated other (hperm.mem_iff.mpr (List.mem_cons_of_mem _ hother))
  unfold Fibers.fiberFree poolRelease
  split
  · refine ⟨(List.nodup_cons.mp hnodup).2, fun other hother ↦ ?_⟩
    have hne : other ≠ addr := fun heq ↦ (List.nodup_cons.mp hnodup).1 (heq ▸ hother)
    dsimp only
    rw [Function.update_of_ne hne]
    exact hold other hother
  · refine ⟨List.nodup_middle.mpr hnodup, fun other hother ↦ ?_⟩
    rcases List.mem_cons.mp (List.perm_middle.mem_iff.mp hother) with heq | hother
    · rw [heq]
      exact h.allocated addr (List.mem_append_left _ hmem)
    · exact hold other hother

/-- A fiber other than the current one is taken out of the links and out of the list. -/
theorem Refines.free {head addr : ℕ} {before after : List ℕ} (h : Refines l s)
    (hring : s.ring = head :: (before ++ addr :: after)) :
    Refines (fiberFree l addr) (Fibers.fiberFree s addr) ∧
      (Fibers.fiberFree s addr).ring = head :: (before ++ after) := by
  have hnodup := h.nodup
  have hcycle := h.cycle
  rw [hring] at hnodup hcycle
  have hlist := (List.nodup_append.mp hnodup).1
  have hmem : addr ∈ s.ring :=
    hring ▸ List.mem_cons_of_mem _ (List.mem_append_right _ List.mem_cons_self)
  have hperm : (head :: (before ++ addr :: after)).Perm (addr :: head :: (before ++ after)) :=
    (List.perm_middle.cons head).trans (List.Perm.swap addr head _)
  have hfresh : addr ∉ head :: (before ++ after) ∧ (head :: (before ++ after)).Nodup :=
    List.nodup_cons.mp (hperm.nodup_iff.mp hlist)
  have herase : (head :: (before ++ addr :: after)).erase addr = head :: (before ++ after) := by
    have hfront : addr ∉ head :: before := fun hin ↦
      hfresh.1 (List.mem_append_left after hin)
    rw [← List.cons_append, List.erase_append_right _ hfront, List.erase_cons_head]
    rfl
  have hrest : (Fibers.fiberFree s addr).ring = head :: (before ++ after) := by
    rw [fiberFree_ring, hring, herase]
  have hprev : Function.update l.prev (l.next addr) (l.prev addr) addr = l.prev addr := by
    by_cases heq : addr = l.next addr
    · rw [← heq, Function.update_self]
    · rw [Function.update_of_ne heq]
  refine ⟨⟨?_, ?_, ?_, ?_, ?_, ?_⟩, hrest⟩
  · rw [clear_fiberFree, fiberFree]
    dsimp only
    rw [h.state]
  · rw [hrest, fiberFree]
    dsimp only
    rw [hprev]
    exact hcycle.remove hlist
  · rw [hrest, fiberFree]
    dsimp only
    rw [h.current, hring]
    rfl
  · intro other
    rw [hrest, fiberFree]
    dsimp only
    by_cases heq : other = addr
    · rw [heq, Function.update_self]
      exact iff_of_false Bool.false_ne_true hfresh.1
    · rw [Function.update_of_ne heq, h.acquired, hring, hperm.mem_iff, List.mem_cons,
        or_iff_right heq]
  · exact (h.released hmem).1
  · exact (h.released hmem).2

theorem fiberFree_id (s : State) (addr : ℕ) : (Fibers.fiberFree s addr).id = s.id := by
  unfold Fibers.fiberFree poolRelease
  split <;> rfl

theorem Simulates.related_freeCanceled {head curr rounds : ℕ} {before rest : List ℕ}
    (h : Simulates l s) (hring : s.ring = head :: (before ++ rest))
    (hcurr : (rest ++ [head]).head? = some curr) (hrounds : rest.length ≤ rounds) :
    Related Simulates (freeCanceledLoop head rounds curr l) (Fibers.fiberFreeCanceled rest s) := by
  induction rest generalizing before curr rounds l s with
  | nil =>
    cases hcurr
    cases rounds <;> rw [freeCanceledLoop, if_pos rfl] <;> exact h
  | cons addr rest ih =>
    cases hcurr
    have hcycle := h.refines.cycle
    have hnodup := h.refines.nodup
    rw [hring] at hcycle hnodup
    have hne : addr ≠ head := by
      rintro rfl
      rw [List.cons_append, List.nodup_cons] at hnodup
      exact hnodup.1 (List.mem_append_left _ (List.mem_append_right _ List.mem_cons_self))
    have hnext := hcycle.head_eq
      (show head :: (before ++ addr :: rest) = (head :: before) ++ addr :: rest from rfl)
    cases rounds with
    | zero => exact absurd hrounds (Nat.not_succ_le_zero _)
    | succ rounds =>
      have hleft : rest.length ≤ rounds := Nat.le_of_succ_le_succ hrounds
      rw [freeCanceledLoop, if_neg hne, Fibers.fiberFreeCanceled, h.refines.state]
      refine (related_fiberAt s addr).bind ?_
      rintro fiber _ ⟨rfl, -⟩
      split
      · obtain ⟨hfree, hrest⟩ := h.refines.free hring
        refine ih ⟨hfree, ?_⟩ hrest hnext hleft
        have hbounded := h.bounded
        rw [Bounded, hring] at hbounded
        rw [Bounded, hrest, fiberFree_id]
        simp only [List.length_cons, List.length_append] at hbounded ⊢
        omega
      · have hring' : s.ring = head :: (before ++ [addr] ++ rest) := by
          rw [hring, List.append_assoc, List.singleton_append]
        exact ih h hring' hnext hleft

theorem rotateTo_eq {next : ℕ} {before after : List ℕ} (hbefore : next ∉ before) :
    rotateTo next (before ++ next :: after) = next :: (after ++ before) := by
  have hskip : ∀ addr ∈ before, decide (addr ≠ next) = true := by
    intro addr haddr
    have hne : addr ≠ next := fun heq ↦ hbefore (heq ▸ haddr)
    simpa using hne
  have hdrop : (next :: after).dropWhile (· ≠ next) = next :: after := by simp
  have htake : (next :: after).takeWhile (· ≠ next) = [] := by simp
  rw [rotateTo, List.dropWhile_append_of_pos hskip, List.takeWhile_append_of_pos hskip, hdrop,
    htake, List.append_nil, List.cons_append]

/-- Another fiber of the list is the current one. -/
theorem Simulates.rotate {next : ℕ} (h : Simulates l s) (hnext : next ∈ s.ring) :
    Simulates { l with current := some next } { s with ring := rotateTo next s.ring } := by
  have hperm := rotateTo_perm next s.ring
  obtain ⟨before, after, hring, hbefore⟩ := List.eq_append_cons_of_mem hnext
  have hrotated : rotateTo next s.ring = next :: (after ++ before) := by
    rw [hring, rotateTo_eq hbefore]
  refine ⟨⟨h.refines.state, ?_, ?_, ?_, ?_, ?_⟩, ?_⟩
  · have hcycle := h.refines.cycle
    rw [hring] at hcycle
    dsimp only
    rw [hrotated]
    exact hcycle.rotate
  · dsimp only
    rw [hrotated]
    rfl
  · intro addr
    exact (h.refines.acquired addr).trans hperm.mem_iff.symm
  · exact ((hperm.append_right s.pool).nodup_iff).mpr h.refines.nodup
  · intro addr hmem
    exact h.refines.allocated addr ((hperm.append_right s.pool).mem_iff.mp hmem)
  · rw [Bounded]
    dsimp only
    rw [hperm.length_eq]
    exact h.bounded

theorem Simulates.related_fiberFreeCanceled {head : ℕ} {others : List ℕ} (h : Simulates l s)
    (hring : s.ring = head :: others) :
    Related Simulates (fiberFreeCanceled l) (Fibers.fiberFreeCanceled s.ring.tail s) := by
  have hcycle := h.refines.cycle
  have hbounded := h.bounded
  rw [hring] at hcycle
  rw [Bounded, hring, List.length_cons] at hbounded
  have hnext := hcycle.head_eq (show head :: others = [] ++ head :: others from rfl)
  have hsplit : s.ring = head :: ([] ++ others) := hring
  rw [fiberFreeCanceled, Links.current, h.refines.current, h.refines.state, hring]
  exact h.related_freeCanceled hsplit hnext (Nat.le_of_succ_le hbounded)

theorem Simulates.related_fibersSwitch {next : ℕ} (h : Simulates l s) (hnext : next ∈ s.ring) :
    Related Simulates (fibersSwitch l next) (Fibers.fibersSwitch s next) := by
  have hrotate := h.rotate hnext
  obtain ⟨others, hothers⟩ := rotateTo_head hnext
  have hfree := hrotate.related_fiberFreeCanceled hothers
  rw [fibersSwitch, Fibers.fibersSwitch]
  dsimp only
  have hstate : l.state = clear { s with ring := rotateTo next s.ring } := h.refines.state
  have hfiber := related_fiberAt { s with ring := rotateTo next s.ring } next
  rw [← hstate] at hfiber
  refine hfiber.bind ?_
  rintro fiber _ ⟨rfl, -⟩
  cases fiber.ctx with
  | unset => exact rfl
  | entry => exact hrotate
  | inYield | inBlock | inAwait | inRet | executing => exact hfree

theorem related_continueCurrent (s : State) (addr : ℕ) :
    Related (fun u t ↦ u = clear t ∧ SameShape s t) (Fibers.continueCurrent (clear s) addr)
      (Fibers.continueCurrent s addr) := by
  refine (related_fiberAt s addr).bind ?_
  rintro fiber _ ⟨rfl, hfiber⟩
  dsimp only
  have hput := @SameShape.put _ _ (SameShape.refl s) _ _ { fiber with ctx := .executing } hfiber
  split
  next => exact ⟨rfl, hput.ring, hput.pool, hput.id, hput.fibers⟩
  next => exact ⟨rfl, hput⟩

theorem Simulates.related_continueCurrent (h : Simulates l s) (addr : ℕ) :
    Related Simulates (continueCurrent l addr) (Fibers.continueCurrent s addr) := by
  have hbind := @Related.bind _ _ _ _ _ _ _ _ Simulates (fun state ↦ pure { l with state }) pure
    (Links.related_continueCurrent s addr) ?_
  · rw [bind_pure, ← h.refines.state] at hbind
    exact hbind
  · rintro _ t ⟨rfl, hshape⟩
    exact h.shape hshape

theorem Simulates.related_fiberYield (h : Simulates l s) (polls : List Poll) :
    Related Simulates (fiberYield l polls) (Fibers.fiberYield s polls) := by
  refine h.refines.related_current.bind ?_
  rintro prev _ ⟨rfl, -⟩
  refine (h.refines.related_chooseNext polls).returned.bind ?_
  rintro ⟨next, l'⟩ ⟨_, t⟩ ⟨⟨rfl, ht, hshape⟩, -, hchoose⟩
  have hsimulates : Simulates l' t := by
    refine ⟨ht, ?_⟩
    rw [Bounded, hshape.ring, hshape.id]
    exact h.bounded
  dsimp only
  split
  · exact hsimulates.related_continueCurrent prev
  · refine (hsimulates.related_fibersSwitch (chooseNext_eligible hchoose).2.1).bind ?_
    intro l'' u hu
    exact hu.related_continueCurrent next

/-- The same structure from the pool or from the allocator, which is not in use. -/
def SameAcquired (s : State) : ℕ × State → ℕ × State → Prop
  | (addr, u), (addr', t) =>
    addr = addr' ∧ u = clear t ∧ t.ring = s.ring ∧ t.id = s.id ∧
      (addr :: (t.ring ++ t.pool)).Nodup ∧
        ∀ other ∈ addr :: (t.ring ++ t.pool), (t.fibers other).isSome = true

theorem Refines.related_poolAcquire (h : Refines l s) (fresh : ℕ) :
    Related (SameAcquired s) (poolAcquire (clear s) fresh) (poolAcquire s fresh) := by
  have hpool : (clear s).pool = s.pool := rfl
  have hinit : (clear s).poolInit = s.poolInit := rfl
  have hfibers : (clear s).fibers = s.fibers := rfl
  have hnodup := h.nodup
  have hallocated := h.allocated
  rw [poolAcquire, poolAcquire, hpool]
  cases hcases : s.pool with
  | cons addr pool =>
    rw [hcases] at hnodup hallocated
    refine ⟨rfl, rfl, rfl, rfl, List.nodup_middle.mp hnodup, fun other hmem ↦ ?_⟩
    exact hallocated other (List.perm_middle.mem_iff.mpr hmem)
  | nil =>
    rw [hcases, List.append_nil] at hnodup hallocated
    dsimp only
    rw [hinit, hfibers]
    split
    · exact rfl
    · split
      · exact rfl
      · next hfree =>
        have hfresh : fresh ∉ s.ring := fun hmem ↦ hfree (hallocated fresh hmem)
        have hring : (put s fresh fiberCtor).ring ++ (put s fresh fiberCtor).pool = s.ring := by
          change s.ring ++ s.pool = s.ring
          rw [hcases, List.append_nil]
        refine ⟨rfl, rfl, rfl, rfl, ?_, ?_⟩
        · rw [hring]
          exact List.nodup_cons.mpr ⟨hfresh, hnodup⟩
        · rw [hring]
          intro other hmem
          rw [put]
          dsimp only
          by_cases heq : other = fresh
          · rw [heq, Function.update_self]
            rfl
          · rw [Function.update_of_ne heq]
            exact hallocated other ((List.mem_cons.mp hmem).resolve_left heq)

/-- The same new fiber, which is in the links and in the list. -/
def SameAllocated (s : State) : ℕ × Linked → ℕ × State → Prop
  | (addr, l), (addr', t) =>
    addr = addr' ∧ Refines l t ∧ t.id = s.id ∧ t.ring.length = s.ring.length + 1

theorem Refines.related_fiberAlloc (h : Refines l s) (fresh : ℕ) :
    Related (SameAllocated s) (fiberAlloc l fresh) (Fibers.fiberAlloc s fresh) := by
  rw [fiberAlloc, Fibers.fiberAlloc, h.state]
  refine (h.related_poolAcquire fresh).bind ?_
  rintro ⟨addr, _⟩ ⟨_, t⟩ ⟨rfl, rfl, hring, hid, hnodup, hallocated⟩
  dsimp only
  refine (related_fiberAt t addr).bind ?_
  rintro fiber _ ⟨rfl, hfiber⟩
  obtain ⟨hfresh, hrest⟩ := List.nodup_cons.mp hnodup
  have hnot : addr ∉ s.ring := fun hmem ↦ hfresh (List.mem_append_left _ (hring ▸ hmem))
  have hlist : ∀ l' : Linked, l'.state = clear (put t addr { fiber with state := .embryo }) →
      l'.acquired = Function.update l.acquired addr true →
      IsCycle l'.next l'.prev (s.ring ++ [addr]) → l'.current = (s.ring ++ [addr]).head? →
      SameAllocated s (addr, l')
        (addr, { put t addr { fiber with state := .embryo } with ring := t.ring ++ [addr] }) := by
    intro l' hstate hacquired hcycle hcurrent
    rw [← hring] at hcycle hcurrent
    refine ⟨rfl, ⟨hstate, hcycle, hcurrent, ?_, ?_, ?_⟩, hid, ?_⟩
    · intro other
      rw [hacquired]
      dsimp only
      rw [List.mem_append, List.mem_singleton, hring]
      by_cases heq : other = addr
      · rw [heq, Function.update_self]
        exact iff_of_true rfl (Or.inr rfl)
      · rw [Function.update_of_ne heq, h.acquired, or_iff_left heq]
    · change (t.ring ++ [addr] ++ t.pool).Nodup
      rw [List.append_assoc]
      exact List.nodup_middle.mpr hnodup
    · intro other hmem
      have hput := @SameShape.put _ _ (SameShape.refl t) _ _ { fiber with state := .embryo } hfiber
      change other ∈ t.ring ++ [addr] ++ t.pool at hmem
      rw [List.append_assoc] at hmem
      exact (hput.fibers other).trans (hallocated other (List.perm_middle.mem_iff.mp hmem))
    · change (t.ring ++ [addr]).length = s.ring.length + 1
      rw [List.length_append, hring]
      rfl
  rw [h.current]
  cases hcases : s.ring with
  | nil =>
    rw [hcases] at hlist
    exact hlist _ rfl rfl (isCycle_singleton addr) rfl
  | cons head rest =>
    have hcycle := h.cycle
    have hold := (List.nodup_append.mp h.nodup).1
    rw [hcases] at hlist hcycle hold hnot
    refine hlist ⟨_, _, _, _, _⟩ rfl rfl ?_ rfl
    have hlast : Function.update l.prev addr (l.prev head) head = l.prev head := by
      have hne : head ≠ addr := fun heq ↦ hnot (heq ▸ List.mem_cons_self)
      exact Function.update_of_ne hne ..
    dsimp only
    rw [hlast]
    exact hcycle.insert hold hnot

/-- The same new fiber, and links that go with the list. -/
def SameStarted : ℕ × Linked → ℕ × State → Prop
  | (addr, l), (addr', t) => addr = addr' ∧ Simulates l t

theorem Refines.poolInit (h : Refines l s) (fn args : ℕ) :
    Refines { l with state := poolInit l.state fn args } (poolInit s fn args) := by
  rw [h.state, Fibers.poolInit, Fibers.poolInit]
  split
  · refine ⟨rfl, h.cycle, h.current, h.acquired, ?_, ?_⟩
    · rw [List.append_nil]
      exact (List.nodup_append.mp h.nodup).1
    · rw [List.append_nil]
      exact fun addr hmem ↦ h.allocated addr (List.mem_append_left _ hmem)
  · rw [← h.state]
    exact h

theorem Simulates.related_fiberStart (h : Simulates l s) (fn args fresh : ℕ) :
    Related SameStarted (fiberStart l fn args fresh) (Fibers.fiberStart s fn args fresh) := by
  have hinit := h.refines.poolInit fn args
  have hbounded : Bounded (Fibers.poolInit s fn args) := by
    rw [Fibers.poolInit]
    split
    · exact h.bounded
    · exact h.bounded
  refine (hinit.related_fiberAlloc fresh).bind ?_
  rintro ⟨addr, l'⟩ ⟨_, t⟩ ⟨rfl, ht, hid, hlength⟩
  dsimp only
  rw [ht.state]
  refine (related_fiberAt t addr).bind ?_
  rintro fiber _ ⟨rfl, hfiber⟩
  have hput := @SameShape.put _ _ (SameShape.refl t) _ _ (startFields fiber t.id fn args) hfiber
  have hshape := ht.shape hput
  refine ⟨rfl, ⟨rfl, hshape.cycle, hshape.current, hshape.acquired, hshape.nodup,
    hshape.allocated⟩, ?_⟩
  change t.ring.length ≤ t.id + 1
  rw [hlength, hid]
  exact Nat.succ_le_succ hbounded

theorem Simulates.related_fiberStartIdle (h : Simulates l s) (fn args fresh : ℕ) :
    Related SameStarted (fiberStartIdle l fn args fresh)
      (Fibers.fiberStartIdle s fn args fresh) := by
  refine (h.related_fiberStart fn args fresh).bind ?_
  rintro ⟨addr, l'⟩ ⟨_, t⟩ ⟨rfl, ht⟩
  dsimp only
  rw [ht.refines.state]
  refine (related_fiberAt t addr).bind ?_
  rintro fiber _ ⟨rfl, hfiber⟩
  exact ⟨rfl, ht.shape ((SameShape.refl t).put hfiber)⟩

theorem Simulates.related_fiberStartAndForget (h : Simulates l s) (fn args fresh : ℕ) :
    Related Simulates (fiberStartAndForget l fn args fresh)
      (Fibers.fiberStartAndForget s fn args fresh) := by
  refine (h.related_fiberStart fn args fresh).bind ?_
  rintro ⟨addr, l'⟩ ⟨_, t⟩ ⟨rfl, ht⟩
  dsimp only
  rw [ht.refines.state]
  refine (related_fiberAt t addr).bind ?_
  rintro fiber _ ⟨rfl, hfiber⟩
  exact ht.shape (((SameShape.refl t).put hfiber).putLife _ _)

/-- The executing fiber changes its own structure and yields. -/
theorem Simulates.related_yieldWith (h : Simulates l s) (hshape : SameShape s t)
    (polls : List Poll) :
    Related Simulates (fiberYield { l with state := clear t } polls) (Fibers.fiberYield t polls) :=
  (h.shape hshape).related_fiberYield polls

theorem Simulates.related_yieldSelf (h : Simulates l s) (polls : List Poll) :
    Related Simulates (yieldSelf l polls) (Fibers.yieldSelf s polls) := by
  refine h.refines.related_current.bind ?_
  rintro self _ ⟨rfl, -⟩
  rw [h.refines.state]
  refine (related_fiberAt s self).bind ?_
  rintro fiber _ ⟨rfl, hfiber⟩
  exact h.related_yieldWith ((SameShape.refl s).put hfiber) polls

theorem Simulates.related_fiberBlock (h : Simulates l s) (blocker : FiberBlocker)
    (ctx : FibersContext) (polls : List Poll) :
    Related Simulates (fiberBlock l blocker ctx polls) (Fibers.fiberBlock s blocker ctx polls) := by
  refine h.refines.related_current.bind ?_
  rintro self _ ⟨rfl, -⟩
  rw [h.refines.state]
  refine (related_fiberAt s self).bind ?_
  rintro fiber _ ⟨rfl, hfiber⟩
  exact h.related_yieldWith ((SameShape.refl s).put hfiber) polls

theorem Simulates.related_fiberRet (h : Simulates l s) (ret : ℕ) (polls : List Poll) :
    Related Simulates (fiberRet l ret polls) (Fibers.fiberRet s ret polls) := by
  refine h.refines.related_current.bind ?_
  rintro self _ ⟨rfl, -⟩
  rw [h.refines.state]
  refine (related_fiberAt s self).bind ?_
  rintro fiber _ ⟨rfl, hfiber⟩
  dsimp only
  simp only [put_lives, clear_lives]
  cases s.lives fiber.id with
  | none => exact h.related_yieldWith ((SameShape.refl s).put hfiber) polls
  | some life => exact h.related_yieldWith (((SameShape.refl s).put hfiber).putLife _ _) polls

theorem Simulates.related_fiberAwait (h : Simulates l s) (addr : ℕ) (polls : List Poll) :
    Related Simulates (fiberAwait l addr polls) (Fibers.fiberAwait s addr polls) := by
  refine h.refines.related_current.bind ?_
  rintro self _ ⟨rfl, -⟩
  rw [h.refines.state]
  refine (related_fiberAt s addr).bind ?_
  rintro fiber _ ⟨rfl, hfiber⟩
  dsimp only
  simp only [clear_lives]
  cases s.lives fiber.id with
  | none => exact h.related_fiberBlock _ _ polls
  | some life =>
    exact (h.shape ((SameShape.refl s).putLife fiber.id
      { life with awaiter := some self })).related_fiberBlock _ _ polls

/-- With the links every action does what it does with the list. -/
theorem Simulates.related_step (h : Simulates l s) (action : Action) :
    Related Simulates (fiberNextState l action) (Fibers.fiberNextState s action) := by
  cases action with
  | start fn args fresh =>
    refine (h.related_fiberStart fn args fresh).bind ?_
    rintro ⟨addr, l'⟩ ⟨_, t⟩ ⟨rfl, ht⟩
    exact ht
  | startIdle fn args fresh =>
    refine (h.related_fiberStartIdle fn args fresh).bind ?_
    rintro ⟨addr, l'⟩ ⟨_, t⟩ ⟨rfl, ht⟩
    exact ht
  | startAndForget fn args fresh => exact h.related_fiberStartAndForget fn args fresh
  | yield polls => exact h.related_yieldSelf polls
  | block hasFunction deadline polls => exact h.related_fiberBlock _ _ polls
  | await addr polls => exact h.related_fiberAwait addr polls
  | ret value polls => exact h.related_fiberRet value polls

theorem Simulates.zeroed : Simulates zeroed Fibers.zeroed := by
  refine ⟨⟨rfl, trivial, rfl, fun _ ↦ ?_, List.nodup_nil, fun _ hmem ↦ ?_⟩, Nat.le_refl 0⟩
  · exact iff_of_false Bool.false_ne_true List.not_mem_nil
  · exact absurd hmem List.not_mem_nil

/-- Every run over the links is one over the list. -/
theorem fibersRun_simulates {actions : List Action} {l : Linked}
    (hrun : Run (Succeeds fiberNextState) zeroed actions l) :
    ∃ s, Run (Succeeds Fibers.fiberNextState) Fibers.zeroed actions s ∧ Simulates l s := by
  refine Run.history (motive := fun actions l ↦ ∃ s,
    Run (Succeeds Fibers.fiberNextState) Fibers.zeroed actions s ∧ Simulates l s)
    ⟨Fibers.zeroed, .nil _, Simulates.zeroed⟩ ?_ hrun
  rintro actions l action l' ⟨s, hs, hsimulates⟩ hstep
  obtain ⟨t, ht, hnext⟩ := (hsimulates.related_step action).of_ok hstep
  exact ⟨t, hs.append (.cons ht (.nil t)), hnext⟩

/-- What can be reached from `_current` over the links. -/
inductive Reaches (l : Linked) : ℕ → Prop where
  | current {addr : ℕ} (h : l.current = some addr) : Reaches l addr
  | next {addr : ℕ} (h : Reaches l addr) : Reaches l (l.next addr)
  | prev {addr : ℕ} (h : Reaches l addr) : Reaches l (l.prev addr)

/-- The links form one cycle from `_current` with every fiber that was acquired and not released,
each once, and no pooled structure can be reached. -/
structure RingIntact (l : Linked) : Prop where
  cycle : ∃ ring : List ℕ, IsCycle l.next l.prev ring ∧ ring.head? = l.current ∧ ring.Nodup ∧
    ∀ addr, addr ∈ ring ↔ l.acquired addr = true
  pool : ∀ addr, Reaches l addr → addr ∉ l.state.pool

theorem Refines.reaches_mem (h : Refines l s) {addr : ℕ} (hreaches : Reaches l addr) :
    addr ∈ s.ring := by
  induction hreaches with
  | current hcurrent => exact List.mem_of_head? (h.current.symm.trans hcurrent)
  | next _ ih => exact h.cycle.next_mem ih
  | prev _ ih => exact h.cycle.prev_mem ih

theorem Refines.ringIntact (h : Refines l s) : RingIntact l := by
  obtain ⟨hring, -, hapart⟩ := List.nodup_append.mp h.nodup
  refine ⟨⟨s.ring, h.cycle, h.current.symm, hring, fun addr ↦ (h.acquired addr).symm⟩, ?_⟩
  intro addr hreaches hpooled
  rw [h.state] at hpooled
  exact hapart addr (h.reaches_mem hreaches) addr hpooled rfl

/-- Whatever the fibers call, the ring stays intact. -/
theorem fibersRun_ringIntact {actions : List Action} {l : Linked}
    (hrun : Run (Succeeds fiberNextState) zeroed actions l) : RingIntact l := by
  obtain ⟨s, -, hsimulates⟩ := fibersRun_simulates hrun
  exact hsimulates.refines.ringIntact

/-- Three fibers, of which one returns and is freed while the ring is walked. -/
theorem fibersRun_ringIntact_ret :
    ∃ l, Run (Succeeds fiberNextState) zeroed
      [.start 0 0 10, .startAndForget 1 0 11, .start 2 0 12, .yield [⟨false, 0⟩],
        .ret 0 [⟨false, 0⟩], .yield [⟨false, 0⟩]] l ∧ l.current = some 10 ∧
      l.state.pool = [11] ∧ RingIntact l := by
  obtain ⟨l, hrun, hcurrent, hpool⟩ : ∃ l,
      [.start 0 0 10, .startAndForget 1 0 11, .start 2 0 12, .yield [⟨false, 0⟩],
        .ret 0 [⟨false, 0⟩], .yield [⟨false, 0⟩]].foldlM fiberNextState zeroed = .ok l ∧
          l.current = some 10 ∧ l.state.pool = [11] := ⟨_, rfl, rfl, rfl⟩
  exact ⟨l, Run.ofFold hrun, hcurrent, hpool, fibersRun_ringIntact (Run.ofFold hrun)⟩

end Brutal.Fibers.Links
