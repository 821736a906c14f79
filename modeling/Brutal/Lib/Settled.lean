import Brutal.Lib.Outcome
import Mathlib.Order.Filter.AtTopBot.Basic

/-!
# Computations with enough depth

A recursion that is given a depth stops with a fault where the depth is used up.  It settles if it
comes to an end at every depth from some one on, always to the same one.  Computations that follow
each other settle when each of them does, and a computation that stops at a fault of its own agrees
with another one up to there.
-/

namespace Brutal.Lib

open Filter

universe u v

variable {Fault : Type u} {Value Result State Item : Type v}

/-- From some depth on, the computation comes to the same end, which is not the lack of depth. -/
def Settled (exhausted : Fault) (f : ℕ → Except Fault Value) : Prop :=
  ∃ outcome, outcome ≠ .error exhausted ∧ ∀ᶠ depth in atTop, f depth = outcome

variable {exhausted : Fault}

theorem Settled.const {outcome : Except Fault Value} (h : outcome ≠ .error exhausted) :
    Settled exhausted fun _ ↦ outcome :=
  ⟨outcome, h, Eventually.of_forall fun _ ↦ rfl⟩

theorem Settled.congr {f g : ℕ → Except Fault Value} (h : Settled exhausted f)
    (hfg : ∀ depth, g depth = f depth) : Settled exhausted g := by
  obtain ⟨outcome, hne, hf⟩ := h
  exact ⟨outcome, hne, hf.mono fun depth hdepth ↦ (hfg depth).trans hdepth⟩

/-- A computation that hands its depth on, less one, settles with what it hands it to. -/
theorem Settled.of_succ {f g : ℕ → Except Fault Value} (h : Settled exhausted f)
    (hfg : ∀ depth, g (depth + 1) = f depth) : Settled exhausted g := by
  obtain ⟨outcome, hne, hf⟩ := h
  refine ⟨outcome, hne, ?_⟩
  rw [← map_add_atTop_eq_nat 1, eventually_map]
  exact hf.mono fun depth hdepth ↦ (hfg depth).trans hdepth

theorem Settled.bind {f : ℕ → Except Fault Value} {g : ℕ → Value → Except Fault Result}
    (h : Settled exhausted f)
    (hg : ∀ value depth, f depth = .ok value → Settled exhausted fun depth ↦ g depth value) :
    Settled exhausted fun depth ↦ f depth >>= g depth := by
  obtain ⟨outcome, hne, hf⟩ := h
  cases outcome with
  | error fault =>
    refine ⟨.error fault, fun hsame ↦ hne (congrArg _ (Except.error.inj hsame)), ?_⟩
    filter_upwards [hf] with depth hdepth
    rw [hdepth]
    rfl
  | ok value =>
    obtain ⟨depth, hdepth⟩ := hf.exists
    obtain ⟨outcome, hne, hnext⟩ := hg value depth hdepth
    refine ⟨outcome, hne, ?_⟩
    filter_upwards [hf, hnext] with depth hdepth hnext
    rw [hdepth, ok_bind, hnext]

/-- A loop settles if its body does, in the states that the loop goes through. -/
theorem Settled.foldlM {body : ℕ → State → Item → Except Fault State} {inv : State → Prop}
    {items : List Item}
    (hbody : ∀ s, ∀ item ∈ items, inv s → Settled exhausted fun depth ↦ body depth s item)
    (hkeep : ∀ depth s item t, inv s → body depth s item = .ok t → inv t) {s : State} (hs : inv s) :
    Settled exhausted fun depth ↦ items.foldlM (body depth) s := by
  induction items generalizing s with
  | nil => exact .const nofun
  | cons item items ih =>
    simp only [List.foldlM_cons]
    apply Settled.bind (hbody s item List.mem_cons_self hs)
    intro t depth hdepth
    exact ih (fun s item hmem ↦ hbody s item (List.mem_cons_of_mem _ hmem))
      (hkeep depth s item t hs hdepth)

/-- The second computation does what the first one does, unless that stops with the fault. -/
def AgreesUpTo (stop : Fault) (first second : Except Fault Value) : Prop :=
  first = .error stop ∨ second = first

variable {stop : Fault} {first second : Except Fault Value}

theorem AgreesUpTo.refl (first : Except Fault Value) : AgreesUpTo stop first first := .inr rfl

theorem AgreesUpTo.bind {next next' : Value → Except Fault Result}
    (h : AgreesUpTo stop first second)
    (hnext : ∀ value, AgreesUpTo stop (next value) (next' value)) :
    AgreesUpTo stop (first >>= next) (second >>= next') := by
  rcases h with rfl | rfl
  · exact .inl rfl
  · cases second with
    | error fault => exact .refl _
    | ok value => exact hnext value

/-- A computation that returns the value, up to the fault, is followed by what that leads to. -/
theorem AgreesUpTo.ok_bind {value : Value} {next : Value → Except Fault Result}
    {result : Except Fault Result} (h : AgreesUpTo stop first (.ok value))
    (hnext : AgreesUpTo stop (next value) result) : AgreesUpTo stop (first >>= next) result := by
  rcases h with rfl | rfl
  · exact .inl rfl
  · exact hnext

theorem AgreesUpTo.error_bind {fault : Fault} (h : AgreesUpTo stop first (.error fault))
    (next : Value → Except Fault Result) : AgreesUpTo stop (first >>= next) (.error fault) := by
  rcases h with rfl | rfl
  · exact .inl rfl
  · exact .inr rfl

theorem AgreesUpTo.foldlM {body body' : State → Item → Except Fault State}
    (h : ∀ s item, AgreesUpTo stop (body s item) (body' s item)) (s : State) (items : List Item) :
    AgreesUpTo stop (items.foldlM body s) (items.foldlM body' s) := by
  induction items generalizing s with
  | nil => exact .refl _
  | cons item items ih =>
    rw [List.foldlM_cons, List.foldlM_cons]
    exact (h s item).bind ih

end Brutal.Lib
