import Brutal.Lib.Outcome

/-!
# Ways the kernel stops

`panic$` never returns, and neither do the `assert_*` checks when they fail.  Reading or writing
outside an array has no meaning in C, and neither has overflow of a signed counter; the model
stops there with a fault of its own instead of inventing a value.
-/

namespace Brutal.Base

/-- Why an operation did not return. -/
inductive Fault where
  /-- A `panic$`, or an `assert_*` that failed. -/
  | panic
  /-- An access outside the memory it was meant for. -/
  | outOfBounds
  /-- Signed integer overflow. -/
  | overflow
  /-- An access to memory that was given back. -/
  | freed
  /-- A recursion that was not given enough depth to finish. -/
  | depth
deriving DecidableEq, Repr

/-- `assert_truth` -/
def assertTruth (condition : Bool) : Except Fault Unit :=
  if condition then .ok () else .error .panic

@[simp]
theorem assertTruth_eq_ok {condition : Bool} {u : Unit} :
    assertTruth condition = .ok u ↔ condition = true := by
  cases condition <;> simp [assertTruth]

end Brutal.Base
