import Brutal.Lib.Outcome

/-!
# Computations that agree

Two computations agree if they stop with the same fault or return related values.  A simulation
between two programs with the same structure is proved bind by bind.
-/

namespace Brutal.Lib

universe u v

variable {Fault : Type u} {Value Value' Result Result' : Type v}

/-- The same fault, or values that are related. -/
def Related (rel : Value → Value' → Prop) : Except Fault Value → Except Fault Value' → Prop
  | .ok value, .ok value' => rel value value'
  | .error fault, .error fault' => fault = fault'
  | _, _ => False

variable {rel : Value → Value' → Prop} {first : Except Fault Value} {first' : Except Fault Value'}

theorem Related.bind {rel' : Result → Result' → Prop} {next : Value → Except Fault Result}
    {next' : Value' → Except Fault Result'} (h : Related rel first first')
    (hnext : ∀ value value', rel value value' → Related rel' (next value) (next' value')) :
    Related rel' (first >>= next) (first' >>= next') := by
  cases first with
  | error fault =>
    cases first' with
    | error fault' => exact h
    | ok value' => exact h.elim
  | ok value =>
    cases first' with
    | error fault' => exact h.elim
    | ok value' => exact hnext value value' h

theorem Related.self {rel : Value → Value → Prop}
    (h : ∀ value, first = .ok value → rel value value) : Related rel first first := by
  cases first with
  | error fault => exact rfl
  | ok value => exact h value rfl

theorem Related.mono {rel' : Value → Value' → Prop} (h : Related rel first first')
    (himp : ∀ value value', rel value value' → rel' value value') : Related rel' first first' := by
  cases first with
  | error fault =>
    cases first' with
    | error fault' => exact h
    | ok value' => exact h.elim
  | ok value =>
    cases first' with
    | error fault' => exact h.elim
    | ok value' => exact himp value value' h

/-- Related values are what the two computations return. -/
theorem Related.returned (h : Related rel first first') :
    Related (fun value value' ↦ rel value value' ∧ first = .ok value ∧ first' = .ok value') first
      first' := by
  cases first with
  | error fault =>
    cases first' with
    | error fault' => exact h
    | ok value' => exact h.elim
  | ok value =>
    cases first' with
    | error fault' => exact h.elim
    | ok value' => exact ⟨h, rfl, rfl⟩

/-- What the first computation returns, the second one does too. -/
theorem Related.of_ok {value : Value} (h : Related rel first first') (hfirst : first = .ok value) :
    ∃ value', first' = .ok value' ∧ rel value value' := by
  subst hfirst
  cases first' with
  | error fault' => exact h.elim
  | ok value' => exact ⟨value', rfl, h⟩

end Brutal.Lib
