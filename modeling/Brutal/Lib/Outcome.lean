import Mathlib.Algebra.Group.Int.Defs
import Mathlib.Algebra.Group.Nat.Defs
import Mathlib.Logic.Basic

/-!
# Computations that may stop with a fault

Inversion rules for `Except`.  A proof about a successful computation peels one bind at a time
with `bind_eq_ok` and never unfolds the monad.
-/

namespace Brutal.Lib

universe u v

variable {Fault : Type u} {Value Result : Type v}

/-- A bind succeeds exactly when both of its parts do. -/
theorem bind_eq_ok {first : Except Fault Value} {next : Value → Except Fault Result}
    {result : Result} :
    first >>= next = .ok result ↔ ∃ value, first = .ok value ∧ next value = .ok result := by
  cases first with
  | error fault =>
    constructor
    · intro h
      cases h
    · rintro ⟨value, h, _⟩
      cases h
  | ok value =>
    constructor
    · intro h
      exact ⟨value, rfl, h⟩
    · rintro ⟨value', h, hnext⟩
      cases h
      exact hnext

/-- A bind stops with a fault of its first part or of its second. -/
theorem bind_eq_error {first : Except Fault Value} {next : Value → Except Fault Result}
    {fault : Fault} :
    first >>= next = .error fault ↔
      first = .error fault ∨ ∃ value, first = .ok value ∧ next value = .error fault := by
  cases first with
  | error other =>
    constructor
    · intro h
      cases h
      exact Or.inl rfl
    · rintro (h | ⟨value, h, _⟩) <;> cases h
      rfl
  | ok value =>
    constructor
    · intro h
      exact Or.inr ⟨value, rfl, h⟩
    · rintro (h | ⟨value', h, hnext⟩) <;> cases h
      exact hnext

theorem ok_bind (value : Value) (next : Value → Except Fault Result) :
    (.ok value : Except Fault Value) >>= next = next value := rfl

@[simp]
theorem pure_eq_ok {value result : Value} :
    (pure value : Except Fault Value) = .ok result ↔ value = result := by
  constructor
  · intro h
    cases h
    rfl
  · rintro rfl
    rfl

/-- A conditional computation whose other branch is a fault succeeds only through its guard. -/
theorem ite_error_eq_ok {guard : Prop} [Decidable guard] {fault : Fault}
    {next : Except Fault Value} {result : Value} :
    (if guard then .error fault else next) = .ok result ↔ ¬ guard ∧ next = .ok result := by
  by_cases h : guard <;> simp [h]

/-- What a computation returns can be tested by running it. -/
instance decidableExistsOk {first : Except Fault Value} {p : Value → Prop} [DecidablePred p] :
    Decidable (∃ value, first = .ok value ∧ p value) :=
  match first with
  | .ok value =>
    decidable_of_iff (p value) ⟨fun h ↦ ⟨value, rfl, h⟩, fun ⟨_, hvalue, h⟩ ↦ by
      cases hvalue
      exact h⟩
  | .error _ => isFalse fun ⟨_, hvalue, _⟩ ↦ nomatch hvalue

/-- Two loops whose bodies agree on the states that the first one goes through. -/
theorem foldlM_congr {State Item : Type v} {first second : State → Item → Except Fault State}
    {inv : State → Prop} (heq : ∀ s item, inv s → first s item = second s item)
    (hkeep : ∀ s item t, inv s → first s item = .ok t → inv t) {s : State} (hs : inv s)
    (items : List Item) : items.foldlM first s = items.foldlM second s := by
  induction items generalizing s with
  | nil => rfl
  | cons item rest ih =>
    rw [List.foldlM_cons, List.foldlM_cons, ← heq s item hs]
    cases hfirst : first s item with
    | error fault => rfl
    | ok t => exact ih (hkeep s item t hs hfirst)

/-- A loop over states that were carried over to another type ends in the state that the loop over
the original ones ends in, carried over. -/
theorem foldlM_carried {State State' Item : Type v} {body : State → Item → Except Fault State}
    {body' : State' → Item → Except Fault State'} {f : State → State'}
    (hbody : ∀ s item, body' (f s) item = f <$> body s item) (s : State) (items : List Item) :
    items.foldlM body' (f s) = f <$> items.foldlM body s := by
  induction items generalizing s with
  | nil => rfl
  | cons item rest ih =>
    rw [List.foldlM_cons, List.foldlM_cons, hbody, bind_map_left, map_bind]
    exact bind_congr ih

section TryBind

variable {Err : Type*} {State First Second : Type v}

/-- `TRY`: go on with the value of a computation that succeeded, and pass on its error. -/
def tryBind (first : Except Fault (Except Err First × State))
    (next : First → State → Except Fault (Except Err Second × State)) :
    Except Fault (Except Err Second × State) := do
  let (result, state) ← first
  match result with
  | .ok value => next value state
  | .error err => pure (.error err, state)

theorem tryBind_eq_ok {first : Except Fault (Except Err First × State)}
    {next : First → State → Except Fault (Except Err Second × State)}
    {result : Except Err Second} {final : State} :
    tryBind first next = .ok (result, final) ↔
      (∃ err, first = .ok (.error err, final) ∧ result = .error err) ∨
        ∃ value state, first = .ok (.ok value, state) ∧ next value state = .ok (result, final) := by
  simp only [tryBind, bind_eq_ok]
  constructor
  · rintro ⟨⟨outcome, state⟩, hfirst, hnext⟩
    cases outcome with
    | ok value => exact Or.inr ⟨value, state, hfirst, hnext⟩
    | error err =>
      cases hnext
      exact Or.inl ⟨err, hfirst, rfl⟩
  · rintro (⟨err, hfirst, rfl⟩ | ⟨value, state, hfirst, hnext⟩)
    · exact ⟨_, hfirst, rfl⟩
    · exact ⟨_, hfirst, hnext⟩

end TryBind

end Brutal.Lib
