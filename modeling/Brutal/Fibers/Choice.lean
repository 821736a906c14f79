import Brutal.Fibers.Lifetime

/-!
# Which fiber is next

`fiber_yield` looks for a running fiber, then for an idle one, and then polls until a fiber can go
on.  All three searches start behind `_current`.  If the unblocking tests of one call answer for
one moment, they find the first fiber that runs, is idle or can be unblocked; an idle fiber that is
in front of a running one is chosen all the same.
-/

namespace Brutal.Fibers

open Lib

/-- What the functions of the blockers answer at one moment, and `tick_now()` then. -/
structure Moment where
  answer : ℕ → Bool
  now : ℕ

def Moment.poll (moment : Moment) (addr : ℕ) : Poll := ⟨moment.answer addr, moment.now⟩

/-- The state in which `fiber_try_unblock` leaves a fiber. -/
def tested (s : State) (moment : Moment) (addr : ℕ) : Except Fault (FiberState × State) := do
  let (_, s) ← fiberTryUnblock s addr (moment.poll addr)
  let fiber ← fiberAt s addr
  return (fiber.state, s)

/-- The fiber is running or can be unblocked. -/
def Ready (s : State) (moment : Moment) (addr : ℕ) : Prop :=
  ∃ t, tested s moment addr = .ok (.running, t)

def Idle (s : State) (addr : ℕ) : Prop :=
  ∃ fiber, s.fibers addr = some fiber ∧ fiber.state = .idle

/-- The fiber is neither ready nor idle. -/
def Passed (s : State) (moment : Moment) (addr : ℕ) : Prop :=
  ∃ state t, tested s moment addr = .ok (state, t) ∧ ¬ (state = .running ∨ state = .idle)

/-- The fibers of the ring in the order in which they are looked at. -/
def walk (s : State) : List ℕ := s.ring.tail ++ s.ring.take 1

/-- The test of the fiber fails. -/
def stuck (s : State) (moment : Moment) (addr : ℕ) : Bool :=
  match fiberTryUnblock s addr (moment.poll addr) with
  | .ok (false, _) => true
  | _ => false

/-- The fibers that `fiber_next` tests. -/
def searched (s : State) (moment : Moment) (others : List ℕ) : List ℕ :=
  others.take ((others.takeWhile (stuck s moment)).length + 1)

/-- The answers that one `fiber_yield` gets at a moment: each of its calls of `fiber_next` tests
the same fibers, and `fiber_wait_unblocked` goes round the ring. -/
def momentPolls (s : State) (moment : Moment) : List Poll :=
  (searched s moment s.ring.tail).map moment.poll ++
    ((searched s moment s.ring.tail).map moment.poll ++ (walk s).map moment.poll)

/-- Wherever an idle fiber comes before every ready one, no fiber is ready. -/
def WorkAhead (s : State) (moment : Moment) : Prop :=
  ∀ before idle after, walk s = before ++ idle :: after →
    (∀ addr ∈ before, Passed s moment addr) → Idle s idle → ∀ addr ∈ after, ¬ Ready s moment addr

/-- The first fiber that is running, idle or can be unblocked. -/
def firstChoice (s : State) (moment : Moment) : List ℕ → Except Fault (ℕ × State)
  | [] => .error .waiting
  | next :: rest => do
    let (state, t) ← tested s moment next
    if state = .running ∨ state = .idle then
      return (next, t)
    firstChoice s moment rest

variable {s t : State} {addr next : ℕ} {poll : Poll} {moment : Moment}

theorem waitFiber_false {self fiber life : ℕ} (h : waitFiber s self fiber life = .ok (false, t)) :
    t = s := by
  obtain ⟨target, -, h⟩ := bind_eq_ok.mp h
  split at h
  · cases h
    rfl
  · obtain ⟨waiting, -, h⟩ := bind_eq_ok.mp h
    dsimp only at h
    split at h <;> cases h

theorem blockerFunction_false {blocker : FiberBlocker}
    (h : blockerFunction s addr blocker poll = .ok (false, t)) : t = s := by
  unfold blockerFunction at h
  split at h
  · cases h
    rfl
  · exact (congrArg Prod.snd (Except.ok.inj h)).symm
  · exact waitFiber_false h

theorem unblock_eq_ok {result : FiberBlockResult} {unblocked : Bool}
    (h : unblock s addr result = .ok (unblocked, t)) :
    unblocked = true ∧ ∃ fiber, t.fibers addr = some fiber ∧ fiber.state = .running := by
  obtain ⟨fiber, -, h⟩ := bind_eq_ok.mp h
  cases h
  exact ⟨rfl, _, Function.update_self .., rfl⟩

/-- A failed test leaves everything as it was; one that succeeds finds a fiber that is not blocked,
or makes the fiber run. -/
theorem fiberTryUnblock_cases {unblocked : Bool}
    (h : fiberTryUnblock s addr poll = .ok (unblocked, t)) :
    (unblocked = false ∧ t = s ∧ ∃ fiber, s.fibers addr = some fiber ∧ fiber.state = .blocked) ∨
      unblocked = true ∧
        ((t = s ∧ ∃ fiber, s.fibers addr = some fiber ∧ fiber.state ≠ .blocked) ∨
          ∃ fiber, t.fibers addr = some fiber ∧ fiber.state = .running) := by
  obtain ⟨fiber, hfiber, h⟩ := bind_eq_ok.mp h
  rw [fiberAt_eq_ok] at hfiber
  split at h
  next hstate =>
    cases h
    exact Or.inr ⟨rfl, Or.inl ⟨rfl, fiber, hfiber, hstate⟩⟩
  next hstate =>
    obtain ⟨⟨answer, u⟩, hanswer, h⟩ := bind_eq_ok.mp h
    dsimp only at h
    split at h
    next =>
      obtain ⟨rfl, hrunning⟩ := unblock_eq_ok h
      exact Or.inr ⟨rfl, Or.inr hrunning⟩
    next hfalse =>
      split at h
      next =>
        obtain ⟨rfl, hrunning⟩ := unblock_eq_ok h
        exact Or.inr ⟨rfl, Or.inr hrunning⟩
      next =>
        cases h
        rw [Bool.not_eq_true] at hfalse
        subst hfalse
        exact Or.inl ⟨rfl, blockerFunction_false hanswer, fiber, hfiber, not_not.mp hstate⟩

/-- A test that does not make the fiber run changes nothing. -/
theorem tested_eq_ok {state : FiberState} (h : tested s moment addr = .ok (state, t)) :
    (∃ fiber, t.fibers addr = some fiber ∧ fiber.state = state) ∧ (state ≠ .running → t = s) := by
  obtain ⟨⟨unblocked, u⟩, htry, h⟩ := bind_eq_ok.mp h
  obtain ⟨fiber, hfiber, h⟩ := bind_eq_ok.mp h
  rw [fiberAt_eq_ok] at hfiber
  cases h
  refine ⟨⟨fiber, hfiber, rfl⟩, fun hstate ↦ ?_⟩
  rcases fiberTryUnblock_cases htry with ⟨-, hsame, -⟩ | ⟨-, ⟨hsame, -⟩ | ⟨other, hother, hrunning⟩⟩
  · exact hsame
  · exact hsame
  · rw [hfiber] at hother
    cases hother
    exact absurd hrunning hstate

theorem tested_stuck (h : stuck s moment addr = true) :
    fiberTryUnblock s addr (moment.poll addr) = .ok (false, s) ∧
      (∃ fiber, s.fibers addr = some fiber ∧ fiber.state = .blocked) ∧
      tested s moment addr = .ok (.blocked, s) := by
  unfold stuck at h
  split at h
  next u htry =>
    obtain ⟨-, rfl, fiber, hfiber, hblocked⟩ | ⟨hfalse, -⟩ := fiberTryUnblock_cases htry
    · refine ⟨htry, ⟨fiber, hfiber, hblocked⟩, ?_⟩
      rw [tested, htry, ok_bind]
      dsimp only
      rw [fiberAt_eq_ok.mpr hfiber, ok_bind, hblocked]
      rfl
    · cases hfalse
  next => cases h

theorem tested_of_not_blocked {fiber : Fiber} (hfiber : s.fibers addr = some fiber)
    (hstate : fiber.state ≠ .blocked) : tested s moment addr = .ok (fiber.state, s) := by
  rw [tested, fiberTryUnblock, fiberAt_eq_ok.mpr hfiber, ok_bind, if_pos hstate]
  change (fiberAt s addr >>= fun fiber ↦ pure (fiber.state, s)) = _
  rw [fiberAt_eq_ok.mpr hfiber, ok_bind]
  rfl

/-- Where `fiber_next` stops, and in which state it finds the fiber there. -/
def stopAt (s : State) (moment : Moment) (current : ℕ) (others : List ℕ) :
    Except Fault (ℕ × FiberState × State) :=
  match others.dropWhile (stuck s moment) with
  | [] => do
    let fiber ← fiberAt s current
    return (current, fiber.state, s)
  | next :: _ => do
    let (state, t) ← tested s moment next
    return (next, state, t)

theorem fiberNextLoop_moment {expected : FiberState} (hexpected : expected ≠ .blocked)
    (current : ℕ) (polls : List Poll) (others : List ℕ) :
    fiberNextLoop expected current others ((searched s moment others).map moment.poll ++ polls) s =
      match others.dropWhile (stuck s moment) with
      | [] => .ok (current, polls, s)
      | next :: _ => do
        let (_, t) ← fiberTryUnblock s next (moment.poll next)
        return (next, polls, t) := by
  induction others with
  | nil => rfl
  | cons addr rest ih =>
    rw [searched] at ih ⊢
    cases hstuck : stuck s moment addr with
    | true =>
      obtain ⟨htry, ⟨fiber, hfiber, hblocked⟩, -⟩ := tested_stuck hstuck
      rw [List.takeWhile_cons_of_pos hstuck, List.dropWhile_cons_of_pos hstuck, List.length_cons,
        List.take_succ_cons, List.map_cons, List.cons_append, fiberNextLoop, htry, ok_bind]
      dsimp only
      rw [if_neg Bool.false_ne_true, fiberAt_eq_ok.mpr hfiber, ok_bind,
        if_neg (fun heq ↦ hexpected (heq.symm.trans hblocked))]
      exact ih
    | false =>
      have hnot : ¬ stuck s moment addr = true := Bool.not_eq_true _ ▸ hstuck
      rw [List.takeWhile_cons_of_neg hnot, List.dropWhile_cons_of_neg hnot, List.length_nil,
        List.take_succ_cons, List.take_zero, List.map_singleton, List.singleton_append,
        fiberNextLoop]
      dsimp only
      cases htry : fiberTryUnblock s addr (moment.poll addr) with
      | error fault => rfl
      | ok result =>
        obtain ⟨unblocked, t⟩ := result
        cases unblocked with
        | false =>
          rw [stuck, htry] at hstuck
          cases hstuck
        | true => rfl

theorem fiberNext_moment {expected : FiberState} (hexpected : expected ≠ .blocked)
    {current : ℕ} {others : List ℕ} (hring : s.ring = current :: others) (polls : List Poll) :
    fiberNext expected ((searched s moment others).map moment.poll ++ polls) s = do
      let (next, state, t) ← stopAt s moment current others
      if state = expected then
        return (some next, polls, t)
      else
        return (none, polls, t) := by
  have hflip : ∀ (state : FiberState) (found : ℕ) (t : State),
      (if state ≠ expected then pure (none, polls, t) else pure (some found, polls, t) :
        Except Fault (Option ℕ × List Poll × State)) =
      if state = expected then pure (some found, polls, t) else pure (none, polls, t) := by
    intro state found t
    rw [ite_not]
  rw [fiberNext, hring]
  dsimp only
  rw [fiberNextLoop_moment hexpected, stopAt]
  cases others.dropWhile (stuck s moment) with
  | nil =>
    dsimp only
    rw [ok_bind]
    dsimp only
    cases hcurrent : fiberAt s current with
    | error fault => rfl
    | ok fiber => exact hflip fiber.state current s
  | cons next rest =>
    dsimp only
    rw [tested]
    cases htry : fiberTryUnblock s next (moment.poll next) with
    | error fault => rfl
    | ok result =>
      obtain ⟨unblocked, t⟩ := result
      change (fiberAt t next >>= _) = ((fiberAt t next >>= _) >>= _) >>= _
      cases hnext : fiberAt t next with
      | error fault => rfl
      | ok fiber => exact hflip fiber.state next t

theorem stopAt_eq_ok {current : ℕ} {others : List ℕ} {state : FiberState}
    (h : stopAt s moment current others = .ok (next, state, t)) :
    state ≠ .running → t = s := by
  unfold stopAt at h
  split at h
  · obtain ⟨fiber, -, h⟩ := bind_eq_ok.mp h
    cases h
    exact fun _ ↦ rfl
  · obtain ⟨⟨found, u⟩, htested, h⟩ := bind_eq_ok.mp h
    cases h
    exact (tested_eq_ok htested).2

/-- The first choice is where `fiber_next` stops, or it is looked for from the start. -/
theorem firstChoice_stopAt (current : ℕ) (others : List ℕ) :
    firstChoice s moment (others ++ [current]) =
      stopAt s moment current others >>= fun (next, state, t) ↦
        if state = .running ∨ state = .idle then .ok (next, t)
        else firstChoice s moment (others ++ [current]) := by
  have hskip : ∀ rest : List ℕ, firstChoice s moment (others.takeWhile (stuck s moment) ++ rest) =
      firstChoice s moment rest := by
    intro rest
    have hstuck : ∀ addr ∈ others.takeWhile (stuck s moment), stuck s moment addr = true :=
      List.all_eq_true.mp List.all_takeWhile
    revert hstuck
    induction others.takeWhile (stuck s moment) with
    | nil => exact fun _ ↦ rfl
    | cons addr before ih =>
      intro hstuck
      rw [List.forall_mem_cons] at hstuck
      rw [List.cons_append, firstChoice, (tested_stuck hstuck.1).2.2, ok_bind]
      exact ih hstuck.2
  cases hdrop : others.dropWhile (stuck s moment) with
  | nil =>
    have hall : others.takeWhile (stuck s moment) = others := by
      conv_rhs => rw [← List.takeWhile_append_dropWhile (p := stuck s moment) (l := others), hdrop,
        List.append_nil]
    rw [hall] at hskip
    rw [hskip, stopAt, hdrop]
    dsimp only
    cases hcurrent : s.fibers current with
    | none =>
      have hfault : fiberAt s current = .error .freedMemory := by rw [fiberAt, hcurrent]
      rw [hfault, firstChoice, tested, fiberTryUnblock, hfault]
      rfl
    | some fiber =>
      rw [fiberAt_eq_ok.mpr hcurrent, ok_bind]
      by_cases hblocked : fiber.state = .blocked
      · rw [hblocked]
        rfl
      · rw [firstChoice, tested_of_not_blocked hcurrent hblocked, ok_bind]
        dsimp only [pure, Except.pure]
        rw [ok_bind]
        dsimp only
        split <;> rfl
  | cons next rest =>
    have hsplit : others ++ [current] =
        others.takeWhile (stuck s moment) ++ next :: (rest ++ [current]) := by
      conv_lhs => rw [← List.takeWhile_append_dropWhile (p := stuck s moment) (l := others), hdrop,
        List.append_assoc, List.cons_append]
    rw [stopAt, hdrop]
    dsimp only
    rw [hsplit, hskip, firstChoice]
    cases htested : tested s moment next with
    | error fault => rfl
    | ok result =>
      obtain ⟨state, t⟩ := result
      rw [ok_bind]
      dsimp only [pure, Except.pure]
      rw [ok_bind, ok_bind]
      dsimp only
      split <;> rfl

theorem fiberWaitUnblocked_moment (passed : List ℕ) (order : List ℕ) :
    fiberWaitUnblocked (order ++ passed) (order.map moment.poll) s =
      firstChoice s moment order := by
  induction order generalizing passed with
  | nil => cases passed <;> rfl
  | cons addr rest ih =>
    rw [List.cons_append, List.map_cons, fiberWaitUnblocked, firstChoice, tested]
    cases htry : fiberTryUnblock s addr (moment.poll addr) with
    | error fault => rfl
    | ok result =>
      obtain ⟨unblocked, t⟩ := result
      rw [ok_bind, ok_bind]
      dsimp only
      cases hfiber : fiberAt t addr with
      | error fault => rfl
      | ok fiber =>
        rw [ok_bind, ok_bind]
        dsimp only [pure, Except.pure]
        rw [ok_bind]
        dsimp only
        have hpassed : ¬ (fiber.state = .running ∨ fiber.state = .idle) →
            fiberWaitUnblocked (rest ++ passed ++ [addr]) (rest.map moment.poll) t =
              firstChoice s moment rest := by
          intro hstate
          have htested : tested s moment addr = .ok (fiber.state, t) := by
            rw [tested, htry, ok_bind]
            dsimp only
            rw [hfiber]
            rfl
          rw [(tested_eq_ok htested).2 fun hrunning ↦ hstate (Or.inl hrunning), List.append_assoc]
          exact ih (passed ++ [addr])
        by_cases hstate : fiber.state = .running ∨ fiber.state = .idle
        · have hunblocked : unblocked = true := by
            rcases fiberTryUnblock_cases htry with ⟨-, rfl, other, hother, hblocked⟩ | ⟨htrue, -⟩
            · rw [fiberAt_eq_ok.mp hfiber] at hother
              cases hother
              rw [hblocked] at hstate
              rcases hstate with hrunning | hidle <;> contradiction
            · exact htrue
          rw [if_pos ⟨hunblocked, hstate⟩, if_pos hstate]
        · rw [if_neg fun h ↦ hstate h.2, if_neg hstate]
          exact hpassed hstate

/-- The three searches of `fiber_yield` at one moment make the first choice. -/
theorem chooseNext_moment {current : ℕ} {others : List ℕ} (hring : s.ring = current :: others) :
    chooseNext s (momentPolls s moment) = firstChoice s moment (walk s) := by
  have hwalk : walk s = others ++ [current] := by rw [walk, hring]; rfl
  have htail : s.ring.tail = others := by rw [hring]; rfl
  have hnext := fun {expected : FiberState} (hexpected : expected ≠ .blocked) ↦
    @fiberNext_moment _ moment _ hexpected _ _ hring
  rw [chooseNext, momentPolls, htail, hnext (show FiberState.running ≠ .blocked from nofun), hwalk,
    firstChoice_stopAt]
  cases hstop : stopAt s moment current others with
  | error fault => rfl
  | ok stop =>
    obtain ⟨next, state, t⟩ := stop
    have hsame := stopAt_eq_ok hstop
    rw [ok_bind, ok_bind]
    dsimp only
    by_cases hrunning : state = .running
    · rw [if_pos hrunning, if_pos (Or.inl hrunning)]
      rfl
    · have hs := hsame hrunning
      subst hs
      rw [if_neg hrunning]
      dsimp only [pure, Except.pure]
      rw [ok_bind]
      dsimp only
      rw [hnext (show FiberState.idle ≠ .blocked from nofun), hstop, ok_bind]
      dsimp only [pure, Except.pure]
      by_cases hidle : state = .idle
      · rw [if_pos hidle, if_pos (Or.inr hidle)]
        rfl
      · rw [if_neg hidle, if_neg fun h ↦ h.elim hrunning hidle, ok_bind]
        dsimp only
        rw [← hwalk]
        have hwait := @fiberWaitUnblocked_moment t moment [] (walk t)
        rw [List.append_nil] at hwait
        exact hwait

theorem firstChoice_eq_ok {order : List ℕ} :
    firstChoice s moment order = .ok (next, t) ↔
      ∃ before after state, order = before ++ next :: after ∧
        (∀ addr ∈ before, Passed s moment addr) ∧ tested s moment next = .ok (state, t) ∧
        (state = .running ∨ state = .idle) := by
  induction order with
  | nil =>
    constructor
    · intro h
      cases h
    · rintro ⟨before, after, state, heq, -⟩
      cases before <;> cases heq
  | cons addr rest ih =>
    rw [firstChoice, bind_eq_ok]
    constructor
    · rintro ⟨⟨state, u⟩, htested, h⟩
      dsimp only at h
      split at h
      next hchosen =>
        cases h
        exact ⟨[], rest, state, rfl, fun _ hmem ↦ absurd hmem List.not_mem_nil, htested, hchosen⟩
      next hpassed =>
        obtain ⟨before, after, chosen, heq, hbefore, hnext⟩ := ih.mp h
        refine ⟨addr :: before, after, chosen, by rw [heq, List.cons_append], ?_, hnext⟩
        rw [List.forall_mem_cons]
        exact ⟨⟨state, u, htested, hpassed⟩, hbefore⟩
    · rintro ⟨before, after, state, heq, hbefore, htested, hchosen⟩
      cases before with
      | nil =>
        cases heq
        exact ⟨(state, t), htested, if_pos hchosen⟩
      | cons first before =>
        cases heq
        rw [List.forall_mem_cons] at hbefore
        obtain ⟨other, u, hfirst, hpassed⟩ := hbefore.1
        exact ⟨(other, u), hfirst, (if_neg hpassed).trans
          (ih.mpr ⟨before, after, state, rfl, hbefore.2, htested, hchosen⟩)⟩

/-! ## Whatever the tests answer -/

theorem waitFiber_ring {self fiber life : ℕ} {answer : Bool}
    (h : waitFiber s self fiber life = .ok (answer, t)) : t.ring = s.ring := by
  obtain ⟨target, -, h⟩ := bind_eq_ok.mp h
  dsimp only at h
  split at h
  · cases h
    rfl
  · obtain ⟨waiting, -, h⟩ := bind_eq_ok.mp h
    split at h <;> cases h <;> rfl

theorem blockerFunction_ring {blocker : FiberBlocker} {answer : Bool}
    (h : blockerFunction s addr blocker poll = .ok (answer, t)) : t.ring = s.ring := by
  unfold blockerFunction at h
  split at h
  · cases h
    rfl
  · cases h
    rfl
  · exact waitFiber_ring h

theorem unblock_ring {result : FiberBlockResult} {unblocked : Bool}
    (h : unblock s addr result = .ok (unblocked, t)) : t.ring = s.ring := by
  obtain ⟨fiber, -, h⟩ := bind_eq_ok.mp h
  cases h
  rfl

theorem fiberTryUnblock_ring {unblocked : Bool}
    (h : fiberTryUnblock s addr poll = .ok (unblocked, t)) : t.ring = s.ring := by
  obtain ⟨fiber, -, h⟩ := bind_eq_ok.mp h
  split at h
  · cases h
    rfl
  · obtain ⟨⟨answer, u⟩, hanswer, h⟩ := bind_eq_ok.mp h
    have hring := blockerFunction_ring hanswer
    dsimp only at h
    split at h
    · exact (unblock_ring h).trans hring
    · split at h
      · exact (unblock_ring h).trans hring
      · cases h
        exact hring

theorem fiberNextLoop_mem {expected : FiberState} {current : ℕ} {others : List ℕ}
    {polls left : List Poll}
    (h : fiberNextLoop expected current others polls s = .ok (next, left, t)) :
    t.ring = s.ring ∧ next ∈ current :: others := by
  induction others generalizing polls s with
  | nil =>
    cases h
    exact ⟨rfl, List.mem_cons_self⟩
  | cons addr rest ih =>
    cases polls with
    | nil => cases h
    | cons poll polls =>
      have haddr : addr ∈ current :: addr :: rest := List.mem_cons_of_mem _ List.mem_cons_self
      have hsub : current :: rest ⊆ current :: addr :: rest :=
        List.cons_subset_cons _ (List.subset_cons_self _ _)
      obtain ⟨⟨unblocked, u⟩, htry, h⟩ := bind_eq_ok.mp h
      have hring := fiberTryUnblock_ring htry
      dsimp only at h
      split at h
      · cases h
        exact ⟨hring, haddr⟩
      · obtain ⟨fiber, -, h⟩ := bind_eq_ok.mp h
        split at h
        · cases h
          exact ⟨hring, haddr⟩
        · obtain ⟨hrest, hmem⟩ := ih h
          exact ⟨hrest.trans hring, hsub hmem⟩

theorem fiberNext_eligible {expected : FiberState}
    (hexpected : expected = .running ∨ expected = .idle) {found : Option ℕ}
    {polls left : List Poll} (h : fiberNext expected polls s = .ok (found, left, t)) :
    t.ring = s.ring ∧ ∀ addr, found = some addr → Eligible t addr := by
  unfold fiberNext at h
  cases hring : s.ring with
  | nil =>
    rw [hring] at h
    cases h
  | cons head others =>
    rw [hring] at h
    obtain ⟨⟨addr, polls', u⟩, hloop, h⟩ := bind_eq_ok.mp h
    obtain ⟨hsame, hmem⟩ := fiberNextLoop_mem hloop
    obtain ⟨fiber, hfiber, h⟩ := bind_eq_ok.mp h
    rw [fiberAt_eq_ok] at hfiber
    split at h
    next =>
      cases h
      exact ⟨hsame.trans hring, nofun⟩
    next hstate =>
      cases h
      refine ⟨hsame.trans hring, ?_⟩
      rintro _ ⟨⟩
      refine ⟨by rw [hsame, hring]; exact hmem, fiber, hfiber, ?_⟩
      rw [not_not.mp hstate]
      exact hexpected

theorem fiberWaitUnblocked_eligible {order : List ℕ} {polls : List Poll} (horder : order ⊆ s.ring)
    (h : fiberWaitUnblocked order polls s = .ok (next, t)) :
    t.ring = s.ring ∧ Eligible t next := by
  induction polls generalizing order s with
  | nil => cases order <;> cases h
  | cons poll polls ih =>
    cases order with
    | nil => cases h
    | cons addr rest =>
      unfold fiberWaitUnblocked at h
      obtain ⟨⟨unblocked, u⟩, htry, h⟩ := bind_eq_ok.mp h
      have hring := fiberTryUnblock_ring htry
      obtain ⟨fiber, hfiber, h⟩ := bind_eq_ok.mp h
      rw [fiberAt_eq_ok] at hfiber
      split at h
      next hstate =>
        cases h
        exact ⟨hring, hring ▸ horder List.mem_cons_self, fiber, hfiber, hstate.2⟩
      next =>
        have hrotated : rest ++ [addr] ⊆ u.ring := by
          rw [hring]
          intro other hother
          apply horder
          rcases List.mem_append.mp hother with hrest | hlast
          · exact List.mem_cons_of_mem _ hrest
          · rw [List.mem_singleton.mp hlast]
            exact List.mem_cons_self
        obtain ⟨hsame, heligible⟩ := ih hrotated h
        exact ⟨hsame.trans hring, heligible⟩

theorem mem_walk : addr ∈ walk s ↔ addr ∈ s.ring := by
  rw [walk]
  cases s.ring with
  | nil => exact Iff.rfl
  | cons head others =>
    rw [List.tail_cons, List.take_succ_cons, List.take_zero, List.mem_append, List.mem_singleton,
      List.mem_cons, or_comm]

/-- The chosen fiber is in the ring, and it is running or idle. -/
theorem chooseNext_eligible {polls : List Poll} (h : chooseNext s polls = .ok (next, t)) :
    t.ring = s.ring ∧ Eligible t next := by
  obtain ⟨⟨running, left, u⟩, hrunning, h⟩ := bind_eq_ok.mp h
  obtain ⟨hring, heligible⟩ := fiberNext_eligible (Or.inl rfl) hrunning
  cases running with
  | some addr =>
    cases h
    exact ⟨hring, heligible next rfl⟩
  | none =>
    obtain ⟨⟨idle, left', u'⟩, hidle, h⟩ := bind_eq_ok.mp h
    obtain ⟨hring', heligible'⟩ := fiberNext_eligible (Or.inr rfl) hidle
    cases idle with
    | some addr =>
      cases h
      exact ⟨hring'.trans hring, heligible' next rfl⟩
    | none =>
      obtain ⟨hwait, hnext⟩ :=
        fiberWaitUnblocked_eligible (fun _ hmem ↦ mem_walk.mp hmem) h
      exact ⟨hwait.trans (hring'.trans hring), hnext⟩

/-- Freeing the canceled fibers leaves the current one. -/
theorem fiberFreeCanceled_head {rest : List ℕ} {fiber : Fiber}
    (hhead : s.ring.head? = some addr) (hfiber : s.fibers addr = some fiber)
    (hstate : fiber.state ≠ .canceled) (h : fiberFreeCanceled rest s = .ok t) :
    t.ring.head? = some addr ∧ t.fibers addr = some fiber := by
  induction rest generalizing s with
  | nil =>
    cases h
    exact ⟨hhead, hfiber⟩
  | cons curr rest ih =>
    obtain ⟨other, hother, h⟩ := bind_eq_ok.mp h
    rw [fiberAt_eq_ok] at hother
    split at h
    next hcanceled =>
      have hne : addr ≠ curr := by
        rintro rfl
        rw [hfiber] at hother
        cases hother
        exact hstate hcanceled
      refine ih ?_ ((fiberFree_fibers hne).trans hfiber) h
      obtain ⟨others, hring⟩ := List.head?_eq_some_iff.mp hhead
      rw [fiberFree_ring, hring, List.erase_cons_tail (by simpa using hne)]
      rfl
    next => exact ih hhead hfiber h

theorem continueCurrent_head {fiber : Fiber} (hfiber : s.fibers addr = some fiber)
    (h : continueCurrent s addr = .ok t) :
    t.ring = s.ring ∧ ∃ fiber', t.fibers addr = some fiber' ∧ fiber'.state = fiber.state := by
  obtain ⟨found, hfound, h⟩ := bind_eq_ok.mp h
  rw [fiberAt_eq_ok, hfiber] at hfound
  cases hfound
  dsimp only at h
  split at h <;> cases h <;> exact ⟨rfl, _, Function.update_self .., rfl⟩

/-- After a switch the current fiber is the chosen one, in the state in which it was chosen. -/
theorem fiberYield_head {polls : List Poll} (h : fiberYield s polls = .ok t) :
    ∃ next u fiber fiber', chooseNext s polls = .ok (next, u) ∧ u.fibers next = some fiber ∧
      t.ring.head? = some next ∧ t.fibers next = some fiber' ∧ fiber'.state = fiber.state := by
  obtain ⟨prev, hprev, h⟩ := bind_eq_ok.mp h
  rw [current_eq_ok] at hprev
  obtain ⟨⟨next, u⟩, hchoose, h⟩ := bind_eq_ok.mp h
  obtain ⟨hring, hmem, fiber, hfiber, heligible⟩ := chooseNext_eligible hchoose
  dsimp only at h
  split at h
  next hsame =>
    subst hsame
    obtain ⟨hcontinue, fiber', hfiber', hstate⟩ := continueCurrent_head hfiber h
    exact ⟨next, u, fiber, fiber', hchoose, hfiber, by rw [hcontinue, hring, hprev], hfiber',
      hstate⟩
  next =>
    obtain ⟨v, hswitch, h⟩ := bind_eq_ok.mp h
    have hnot : fiber.state ≠ .canceled := by
      rcases heligible with hrunning | hidle
      · rw [hrunning]
        nofun
      · rw [hidle]
        nofun
    have hhead : (rotateTo next u.ring).head? = some next := by
      obtain ⟨others, hothers⟩ := rotateTo_head hmem
      rw [hothers]
      rfl
    have hv : v.ring.head? = some next ∧ v.fibers next = some fiber := by
      obtain ⟨found, -, hswitch⟩ := bind_eq_ok.mp hswitch
      split at hswitch
      · cases hswitch
      · cases hswitch
        exact ⟨hhead, hfiber⟩
      · exact fiberFreeCanceled_head (s := { u with ring := rotateTo next u.ring }) hhead hfiber
          hnot
          hswitch
    obtain ⟨hcontinue, fiber', hfiber', hstate⟩ := continueCurrent_head hv.2 h
    exact ⟨next, u, fiber, fiber', hchoose, hfiber, by rw [hcontinue, hv.1], hfiber', hstate⟩

theorem Idle.tested (h : Idle s addr) : tested s moment addr = .ok (.idle, s) := by
  obtain ⟨fiber, hfiber, hidle⟩ := h
  rw [tested_of_not_blocked hfiber (by rw [hidle]; nofun), hidle]

theorem Passed.not_ready (h : Passed s moment addr) : ¬ Ready s moment addr := by
  obtain ⟨state, t, htested, hpassed⟩ := h
  rintro ⟨u, hready⟩
  rw [htested] at hready
  cases hready
  exact hpassed (Or.inl rfl)

theorem Idle.not_ready (h : Idle s addr) : ¬ Ready s moment addr := by
  rintro ⟨u, hready⟩
  rw [h.tested] at hready
  cases hready

/-- An idle fiber is chosen without any change. -/
theorem chooseNext_idle {current : ℕ} {others : List ℕ} (hring : s.ring = current :: others) :
    (chooseNext s (momentPolls s moment) = .ok (next, t) ∧ Idle t next) ↔
      t = s ∧ Idle s next ∧ ∃ before after, walk s = before ++ next :: after ∧
        ∀ addr ∈ before, Passed s moment addr := by
  rw [chooseNext_moment hring, firstChoice_eq_ok]
  constructor
  · rintro ⟨⟨before, after, state, hwalk, hbefore, htested, -⟩, fiber, hfiber, hidle⟩
    obtain ⟨⟨found, hfound, hstate⟩, hsame⟩ := tested_eq_ok htested
    rw [hfiber] at hfound
    cases hfound
    obtain rfl := hsame (by rw [← hstate, hidle]; nofun)
    exact ⟨rfl, ⟨fiber, hfiber, hidle⟩, before, after, hwalk, hbefore⟩
  · rintro ⟨rfl, hidle, before, after, hwalk, hbefore⟩
    exact ⟨⟨before, after, .idle, hwalk, hbefore, hidle.tested, Or.inr rfl⟩, hidle⟩

/-- Every yield ends in a fiber that is running or idle; and it chooses an idle fiber only when no
other one is ready, exactly when no idle fiber is ahead of a ready one. -/
theorem fiberYield_choice_iff (s : State) (moment : Moment) :
    (∀ polls t, fiberYield s polls = .ok t →
      ∃ next fiber, t.ring.head? = some next ∧ t.fibers next = some fiber ∧
        (fiber.state = .running ∨ fiber.state = .idle)) ∧
      ((∀ next t, chooseNext s (momentPolls s moment) = .ok (next, t) → Idle t next →
        ∀ other ∈ s.ring, ¬ Ready t moment other) ↔ WorkAhead s moment) := by
  refine ⟨fun polls t hyield ↦ ?_, ?_⟩
  · obtain ⟨next, u, fiber, fiber', hchoose, hfiber, hhead, hfiber', hstate⟩ :=
      fiberYield_head hyield
    obtain ⟨-, -, found, hfound, heligible⟩ := chooseNext_eligible hchoose
    rw [hfiber] at hfound
    cases hfound
    exact ⟨next, fiber', hhead, hfiber', hstate ▸ heligible⟩
  · cases hring : s.ring with
    | nil =>
      refine ⟨fun _ before idle after hwalk ↦ ?_,
        fun _ _ _ _ _ _ hmem ↦ absurd hmem List.not_mem_nil⟩
      rw [walk, hring] at hwalk
      cases before <;> cases hwalk
    | cons current others =>
      rw [← hring]
      constructor
      · intro hchoice before idle after hwalk hbefore hidle other hother
        have hchosen := (@chooseNext_idle _ _ _ moment _ _ hring).mpr
          ⟨rfl, hidle, before, after, hwalk, hbefore⟩
        apply hchoice idle s hchosen.1 hchosen.2 other
        rw [← mem_walk, hwalk]
        exact List.mem_append_right _ (List.mem_cons_of_mem _ hother)
      · intro hahead next t hchoose hidle other hother
        obtain ⟨rfl, hidle, before, after, hwalk, hbefore⟩ :=
          (chooseNext_idle hring).mp ⟨hchoose, hidle⟩
        rw [← mem_walk, hwalk, List.mem_append, List.mem_cons] at hother
        rcases hother with hmem | rfl | hmem
        · exact (hbefore other hmem).not_ready
        · exact hidle.not_ready
        · exact hahead before next after hwalk hbefore hidle other hmem

/-- A blocked fiber that is followed by an idle one and then by one that is running. -/
def idleInFront : State :=
  { zeroed with
    fibers := fun addr ↦
      match addr with
      | 0 => some { fiberCtor with state := .blocked, blocker := ⟨.null, none, .success⟩ }
      | 1 => some { fiberCtor with id := 1, state := .idle, ctx := .inYield }
      | 2 => some { fiberCtor with id := 2, state := .running, ctx := .inYield }
      | _ => none
    ring := [0, 1, 2]
    poolInit := true
    id := 3 }

/-- The idle fiber is chosen although the one behind it is running. -/
theorem fiberYield_choice_fails :
    ¬ ∀ next t,
      chooseNext idleInFront (momentPolls idleInFront ⟨fun _ ↦ false, 0⟩) = .ok (next, t) →
      Idle t next → ∀ other ∈ idleInFront.ring, ¬ Ready t ⟨fun _ ↦ false, 0⟩ other := by
  intro hchoice
  exact hchoice 1 idleInFront rfl ⟨_, rfl, rfl⟩ 2 (by decide) ⟨idleInFront, rfl⟩

end Brutal.Fibers
