import Brutal.Lib.Outcome

/-!
# Computations that succeed

Whether a computation succeeds, without its value: a sequence succeeds if and only if its parts do
where the values between the parts have no say in it.
-/

namespace Brutal.Lib

universe u v

variable {Fault : Type u} {Value Result : Type v}

/-- The computation succeeds. -/
def Defined (outcome : Except Fault Value) : Prop := ∃ value, outcome = .ok value

theorem defined_ok (value : Value) : Defined (.ok value : Except Fault Value) := ⟨value, rfl⟩

theorem not_defined_error (fault : Fault) : ¬ Defined (.error fault : Except Fault Value) := nofun

theorem defined_bind {first : Except Fault Value} {next : Value → Except Fault Result} :
    Defined (first >>= next) ↔ ∃ value, first = .ok value ∧ Defined (next value) := by
  constructor
  · rintro ⟨result, h⟩
    obtain ⟨value, hfirst, hnext⟩ := bind_eq_ok.mp h
    exact ⟨value, hfirst, result, hnext⟩
  · rintro ⟨value, hfirst, result, hnext⟩
    exact ⟨result, bind_eq_ok.mpr ⟨value, hfirst, hnext⟩⟩

/-- A sequence whose second part succeeds with any value of the first one. -/
theorem defined_bind_of_forall {first : Except Fault Value} {next : Value → Except Fault Result}
    {p : Prop} (h : ∀ value, first = .ok value → (Defined (next value) ↔ p)) :
    Defined (first >>= next) ↔ Defined first ∧ p := by
  rw [defined_bind]
  constructor
  · rintro ⟨value, hfirst, hnext⟩
    exact ⟨⟨value, hfirst⟩, (h value hfirst).mp hnext⟩
  · rintro ⟨⟨value, hfirst⟩, hp⟩
    exact ⟨value, hfirst, (h value hfirst).mpr hp⟩

/-- A computation whose value is changed in the end. -/
theorem defined_bind_pure {first : Except Fault Value} (change : Value → Result) :
    Defined (first >>= fun value ↦ pure (change value)) ↔ Defined first := by
  have hlast (value : Value) (_ : first = .ok value) :
      Defined (pure (change value) : Except Fault Result) ↔ True :=
    iff_true_intro (defined_ok (change value))
  rw [defined_bind_of_forall hlast, and_true]

end Brutal.Lib
