import Brutal.Lib.Outcome
import Mathlib.Data.Nat.Notation

/-!
# Loops

A loop runs its body until the body leaves it or stops.  The loop as a function has a number of
turns that it may take, and stops with `out` when they are used up; the states that it goes through
do not depend on that number.
-/

namespace Brutal.Lib

universe u v

variable {Stop : Type u} {State Result : Type v}

/-- Run the body, at most as often as given, until it leaves the loop. -/
def loop (body : State → Except Stop (State ⊕ Result)) (out : Stop) :
    ℕ → State → Except Stop Result
  | 0, _ => .error out
  | turns + 1, s => do
    match ← body s with
    | .inl t => loop body out turns t
    | .inr result => .ok result

attribute [local grind =] loop

/-- The states at the start of some turn. -/
inductive Reached (body : State → Except Stop (State ⊕ Result)) : State → State → Prop where
  | refl (s : State) : Reached body s s
  | turn {s t u : State} (head : body s = .ok (.inl t)) (tail : Reached body t u) :
      Reached body s u

variable {body : State → Except Stop (State ⊕ Result)} {out : Stop}

theorem loop_leave {s : State} {result : Result} (h : body s = .ok (.inr result)) (turns : ℕ) :
    loop body out (turns + 1) s = .ok result := by
  rw [loop, h]
  rfl

/-- A body that does nothing but leave the loop decides its result. -/
theorem eq_of_loop_leaves {turns : ℕ} {s : State} {left result : Result}
    (h : loop body out turns s = .ok result)
    (hleaves : ∀ next, body s = .ok next → next = .inr left) : result = left := by
  cases turns with
  | zero => cases h
  | succ turns =>
    rw [loop, bind_eq_ok] at h
    obtain ⟨next, hnext, h⟩ := h
    obtain rfl := hleaves next hnext
    cases h
    rfl

theorem loop_turn {s t : State} (h : body s = .ok (.inl t)) (turns : ℕ) :
    loop body out (turns + 1) s = loop body out turns t := by
  grind [ok_bind]

theorem loop_stop {s : State} {stop : Stop} (h : body s = .error stop) (turns : ℕ) :
    loop body out (turns + 1) s = .error stop := by
  rw [loop, h]
  rfl

/-- A property of the first state that every turn keeps is one of all states reached. -/
theorem Reached.invariant (inv : State → Prop)
    (hturn : ∀ s t, inv s → body s = .ok (.inl t) → inv t) {s t : State} (h : Reached body s t)
    (hs : inv s) : inv t := by
  induction h with
  | refl s => exact hs
  | turn head _ ih => exact ih (hturn _ _ hs head)

theorem Reached.mono {body' : State → Except Stop (State ⊕ Result)}
    (hbody : ∀ s t, body s = .ok (.inl t) → body' s = .ok (.inl t)) {s t : State}
    (h : Reached body s t) : Reached body' s t := by
  induction h with
  | refl s => exact .refl s
  | turn head _ ih => exact .turn (hbody _ _ head) ih

/-- A loop with a result leaves it at a state that it reached. -/
theorem loop_ok {turns : ℕ} {s : State} {result : Result}
    (h : loop body out turns s = .ok result) :
    ∃ t, Reached body s t ∧ body t = .ok (.inr result) := by
  induction turns generalizing s with
  | zero => cases h
  | succ turns ih =>
    cases hbody : body s with
    | error e =>
      rw [loop_stop hbody] at h
      cases h
    | ok next =>
      cases next with
      | inl t =>
        rw [loop_turn hbody] at h
        obtain ⟨u, hreached, hu⟩ := ih h
        exact ⟨u, .turn hbody hreached, hu⟩
      | inr result' =>
        rw [loop_leave hbody] at h
        cases h
        exact ⟨s, .refl s, hbody⟩

/-- A loop over states that were carried over to another type has the result of the loop over the
original ones, carried over. -/
theorem loop_carried {State' Result' : Type v} {body' : State' → Except Stop (State' ⊕ Result')}
    {f : State → State'} {g : Result → Result'}
    (hbody : ∀ s, body' (f s) = Sum.map f g <$> body s) (out : Stop) (turns : ℕ) (s : State) :
    loop body' out turns (f s) = g <$> loop body out turns s := by
  induction turns generalizing s with
  | zero => rfl
  | succ turns ih =>
    rw [loop, loop, hbody, bind_map_left, map_bind]
    apply bind_congr
    intro next
    cases next with
    | inl t => exact ih t
    | inr result => rfl

theorem Reached.carried {State' Result' : Type v} {body' : State' → Except Stop (State' ⊕ Result')}
    {f : State → State'} {g : Result → Result'}
    (hbody : ∀ s, body' (f s) = Sum.map f g <$> body s) {s t : State} (h : Reached body s t) :
    Reached body' (f s) (f t) := by
  induction h with
  | refl s => exact .refl (f s)
  | turn head _ ih =>
    apply Reached.turn _ ih
    rw [hbody, head]
    rfl

end Brutal.Lib
