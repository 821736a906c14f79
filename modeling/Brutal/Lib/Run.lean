import Mathlib.Data.List.Basic
import Mathlib.Logic.Basic

/-!
# Runs of a labelled step relation

A run is a finite sequence of labelled steps from one state to another.  The rules here are the
only inductions over runs used elsewhere: an invariant is proved for one step and lifted by
`Run.invariant`, and a run is cut at a chosen action by `Run.split`.

Executable systems give their step as a function into `Except`.  `Run.ofFold` turns a successful
evaluation of such a function over a list of actions into a run, so that a concrete trace can be
checked by evaluation.
-/

namespace Brutal.Lib

variable {State Action Fault : Type*}

/-- `Run step s actions t`: the actions lead from `s` to `t`, one step for each. -/
inductive Run (step : State → Action → State → Prop) : State → List Action → State → Prop where
  | nil (s : State) : Run step s [] s
  | cons {s t u : State} {action : Action} {rest : List Action}
      (head : step s action t) (tail : Run step t rest u) : Run step s (action :: rest) u

/-- The step relation of a function that may stop with a fault. -/
def Succeeds (next : State → Action → Except Fault State) (s : State) (action : Action)
    (t : State) : Prop :=
  next s action = .ok t

/-- A step taken only where a condition on the state before it and on its label holds. -/
def Guarded (step : State → Action → State → Prop) (guard : State → Action → Prop)
    (s : State) (action : Action) (t : State) : Prop :=
  guard s action ∧ step s action t

namespace Run

variable {step : State → Action → State → Prop}

/-- What every step preserves, every run preserves. -/
theorem invariant {inv : State → Prop}
    (hstep : ∀ s action t, inv s → step s action t → inv t)
    {s t : State} {actions : List Action} (hrun : Run step s actions t) (hs : inv s) : inv t := by
  induction hrun with
  | nil s => exact hs
  | cons head _ ih => exact ih (hstep _ _ _ hs head)

/-- What holds before any step and is kept when a step is added at the end holds of every run,
together with the actions that led there. -/
theorem history {start : State} {motive : List Action → State → Prop} (hnil : motive [] start)
    (hsnoc : ∀ actions s action t, motive actions s → step s action t →
      motive (actions ++ [action]) t)
    {actions : List Action} {t : State} (hrun : Run step start actions t) : motive actions t := by
  have hcarry : ∀ {s u : State} {rest : List Action}, Run step s rest u →
      ∀ done, motive done s → motive (done ++ rest) u := by
    intro s u rest hrest
    induction hrest with
    | nil s =>
      intro done hdone
      rwa [List.append_nil]
    | @cons s u v action rest head _ ih =>
      intro done hdone
      rw [List.append_cons]
      exact ih (done ++ [action]) (hsnoc done s action u hdone head)
  exact hcarry hrun [] hnil

/-- A reflexive and transitive relation between the ends of every step relates the ends of every
run. -/
theorem relates {rel : State → State → Prop} (hrefl : ∀ s, rel s s)
    (htrans : ∀ s t u, rel s t → rel t u → rel s u)
    (hstep : ∀ s action t, step s action t → rel s t)
    {s t : State} {actions : List Action} (hrun : Run step s actions t) : rel s t := by
  induction hrun with
  | nil s => exact hrefl s
  | cons head _ ih => exact htrans _ _ _ (hstep _ _ _ head) ih

theorem mono {step' : State → Action → State → Prop}
    (himp : ∀ s action t, step s action t → step' s action t)
    {s t : State} {actions : List Action} (hrun : Run step s actions t) :
    Run step' s actions t := by
  induction hrun with
  | nil s => exact .nil s
  | cons head _ ih => exact .cons (himp _ _ _ head) ih

theorem append {s t u : State} {first second : List Action} (hfirst : Run step s first t)
    (hsecond : Run step t second u) : Run step s (first ++ second) u := by
  induction hfirst with
  | nil s => exact hsecond
  | cons head _ ih => exact .cons head (ih hsecond)

/-- A run over a concatenation passes through a state between the two parts. -/
theorem split {s u : State} {first second : List Action}
    (hrun : Run step s (first ++ second) u) :
    ∃ t, Run step s first t ∧ Run step t second u := by
  induction first generalizing s with
  | nil => exact ⟨s, .nil s, hrun⟩
  | cons action rest ih =>
    cases hrun with
    | cons head tail =>
      obtain ⟨t, hfirst, hsecond⟩ := ih tail
      exact ⟨t, .cons head hfirst, hsecond⟩

/-- A trace that evaluates without a fault is a run. -/
theorem ofFold {next : State → Action → Except Fault State} {s t : State}
    {actions : List Action} (h : actions.foldlM next s = .ok t) :
    Run (Succeeds next) s actions t := by
  induction actions generalizing s with
  | nil =>
    cases h
    exact .nil _
  | cons action rest ih =>
    rw [List.foldlM_cons] at h
    cases hnext : next s action with
    | error fault => rw [hnext] at h; cases h
    | ok u =>
      rw [hnext] at h
      exact .cons hnext (ih h)

end Run

end Brutal.Lib
