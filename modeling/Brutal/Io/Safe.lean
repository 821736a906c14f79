import Brutal.Io.Cells

/-!
# Computations without undefined behaviour

A computation is safe when it does not fail an assertion and does not touch an array where it must
not, and its loops have turns enough.  An error result is safe.  The safety of a computation is put
together from that of its parts.
-/

namespace Brutal.Io

open Lib

variable {α β σ ι : Type}

/-- The ways to stop that malformed data must not lead to. -/
def Faulty : Stop → Prop
  | .panic | .outOfBounds | .uninitialised | .fuel => True
  | .error _ => False

def Safe (result : Except Stop α) : Prop := ∀ stop, result = .error stop → ¬ Faulty stop

@[simp] theorem safe_ok (value : α) : Safe (.ok value : Except Stop α) := nofun

@[simp] theorem safe_pure (value : α) : Safe (pure value : Except Stop α) := safe_ok value

@[simp] theorem safe_error {stop : Stop} : Safe (.error stop : Except Stop α) ↔ ¬ Faulty stop := by
  constructor
  · exact fun h ↦ h stop rfl
  · rintro h _ ⟨⟩
    exact h

@[simp] theorem safe_throw {stop : Stop} : Safe (throw stop : Except Stop α) ↔ ¬ Faulty stop :=
  safe_error

theorem safe_bind {first : Except Stop α} {next : α → Except Stop β} :
    Safe (first >>= next) ↔ Safe first ∧ ∀ value, first = .ok value → Safe (next value) := by
  cases first with
  | error stop =>
    constructor
    · intro h
      exact ⟨fun _ hstop ↦ by cases hstop; exact h stop rfl, nofun⟩
    · rintro ⟨h, -⟩ _ ⟨⟩
      exact h stop rfl
  | ok value =>
    constructor
    · intro h
      exact ⟨safe_ok value, fun _ heq ↦ by cases heq; exact h⟩
    · exact fun h ↦ h.2 value rfl

/-- A loop over a list is safe when each turn is, from the states that come up. -/
theorem safe_foldlM {step : σ → ι → Except Stop σ} (inv : ℕ → σ → Prop) {items : List ι} {s : σ}
    (hs : inv 0 s)
    (hstep : ∀ n (hn : n < items.length) s, inv n s → Safe (step s items[n]) ∧
      ∀ t, step s items[n] = .ok t → inv (n + 1) t) :
    Safe (items.foldlM step s) ∧ ∀ t, items.foldlM step s = .ok t → inv items.length t := by
  induction items generalizing s inv with
  | nil =>
    refine ⟨safe_ok s, ?_⟩
    rintro _ ⟨⟩
    exact hs
  | cons item items ih =>
    have hhead := hstep 0 (Nat.zero_lt_succ _) s hs
    rw [List.foldlM_cons, safe_bind]
    have htail : ∀ t, step s item = .ok t → Safe (items.foldlM step t) ∧
        ∀ u, items.foldlM step t = .ok u → inv (items.length + 1) u := by
      intro t ht
      apply ih (fun n ↦ inv (n + 1)) (hhead.2 t ht)
      intro n hn s hs
      exact hstep (n + 1) (Nat.succ_lt_succ hn) s hs
    refine ⟨⟨hhead.1, fun t ht ↦ (htail t ht).1⟩, ?_⟩
    intro u hu
    obtain ⟨t, ht, hu⟩ := bind_eq_ok.mp hu
    exact (htail t ht).2 u hu

/-- The same for a loop that counts up. -/
theorem safe_range {step : σ → ℕ → Except Stop σ} (inv : ℕ → σ → Prop) {count : ℕ} {s : σ}
    (hs : inv 0 s)
    (hstep : ∀ i < count, ∀ s, inv i s → Safe (step s i) ∧ ∀ t, step s i = .ok t → inv (i + 1) t) :
    Safe ((List.range count).foldlM step s) ∧
      ∀ t, (List.range count).foldlM step s = .ok t → inv count t := by
  have hitems : ∀ n (hn : n < (List.range count).length) s, inv n s →
      Safe (step s (List.range count)[n]) ∧
        ∀ t, step s (List.range count)[n] = .ok t → inv (n + 1) t := by
    intro n hn s hinv
    rw [List.getElem_range]
    exact hstep n (by simpa using hn) s hinv
  have h := safe_foldlM inv hs hitems
  rwa [List.length_range] at h

/-- A loop that counts up and goes wrong at the first item that is not a good one. -/
theorem safe_range_iff {step : σ → ℕ → Except Stop σ} (inv : ℕ → σ → Prop) (good : ℕ → Prop)
    {count : ℕ} {s : σ} (hs : inv 0 s)
    (hgood : ∀ i < count, ∀ s, inv i s → good i → ∃ t, step s i = .ok t ∧ inv (i + 1) t)
    (hbad : ∀ i < count, ∀ s, inv i s → ¬ good i → ¬ Safe (step s i)) :
    (Safe ((List.range count).foldlM step s) ↔ ∀ i < count, good i) ∧
      ((∀ i < count, good i) → ∃ t, (List.range count).foldlM step s = .ok t ∧ inv count t) := by
  induction count with
  | zero => exact ⟨⟨fun _ _ hi ↦ absurd hi (Nat.not_lt_zero _), fun _ ↦ safe_ok s⟩,
      fun _ ↦ ⟨s, rfl, hs⟩⟩
  | succ count ih =>
    obtain ⟨hiff, hok⟩ := ih (fun i hi ↦ hgood i (Nat.lt_succ_of_lt hi))
      (fun i hi ↦ hbad i (Nat.lt_succ_of_lt hi))
    have hlast : (∀ i < count + 1, good i) ↔ (∀ i < count, good i) ∧ good count := by
      constructor
      · exact fun h ↦ ⟨fun i hi ↦ h i (Nat.lt_succ_of_lt hi), h count (Nat.lt_succ_self count)⟩
      · intro h i hi
        cases Nat.lt_succ_iff_lt_or_eq.mp hi with
        | inl hlt => exact h.1 i hlt
        | inr heq => exact heq ▸ h.2
    rw [List.range_succ, List.foldlM_append, hlast]
    by_cases hall : ∀ i < count, good i
    · obtain ⟨t, ht, hinv⟩ := hok hall
      rw [ht, ok_bind, List.foldlM_cons, safe_bind]
      by_cases hcount : good count
      · obtain ⟨u, hu, hinv'⟩ := hgood count (Nat.lt_succ_self count) t hinv hcount
        rw [hu, ok_bind]
        refine ⟨⟨fun _ ↦ ⟨hall, hcount⟩, fun _ ↦ ⟨safe_ok u, fun _ _ ↦ safe_pure _⟩⟩, ?_⟩
        exact fun _ ↦ ⟨u, rfl, hinv'⟩
      · have hunsafe := hbad count (Nat.lt_succ_self count) t hinv hcount
        exact ⟨⟨fun h ↦ absurd h.1 hunsafe, fun h ↦ absurd h.2 hcount⟩,
          fun h ↦ absurd h.2 hcount⟩
    · refine ⟨⟨fun h ↦ ?_, fun h ↦ absurd h.1 hall⟩, fun h ↦ absurd h.1 hall⟩
      rw [safe_bind] at h
      exact absurd (hiff.mp h.1) hall

/-- A loop that counts up and always goes on. -/
theorem range_ok {step : σ → ℕ → Except Stop σ} (inv : ℕ → σ → Prop) {count : ℕ} {s : σ}
    (hs : inv 0 s)
    (hstep : ∀ i < count, ∀ s, inv i s → ∃ t, step s i = .ok t ∧ inv (i + 1) t) :
    ∃ t, (List.range count).foldlM step s = .ok t ∧ inv count t :=
  (safe_range_iff inv (fun _ ↦ True) hs (fun i hi s hinv _ ↦ hstep i hi s hinv)
    (fun _ _ _ _ hfalse ↦ absurd trivial hfalse)).2 fun _ _ ↦ trivial

end Brutal.Io
