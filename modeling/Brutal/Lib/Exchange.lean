import Mathlib.Data.List.Nodup
import Mathlib.Data.List.Perm.Basic
import Mathlib.Data.List.Range
import Mathlib.Logic.Equiv.Basic

/-!
# Sorting by exchanges

Every place is compared with all later ones, and the two are exchanged when they are out of order.
After the turns of a place, what stands there is in order with everything behind it.
-/

namespace Brutal.Lib

/-- A property that every turn of a counting loop hands on holds when the counter is at its end. -/
theorem foldl_range'_invariant {σ : Type*} {turn : σ → ℕ → σ} (inv : ℕ → σ → Prop)
    {start count : ℕ} {s : σ} (hstart : inv start s)
    (hturn : ∀ k, start ≤ k → k < start + count → ∀ s, inv k s → inv (k + 1) (turn s k)) :
    inv (start + count) ((List.range' start count).foldl turn s) := by
  induction count generalizing start s with
  | zero => exact hstart
  | succ count ih =>
    rw [List.range'_succ, List.foldl_cons, show start + (count + 1) = start + 1 + count by omega]
    apply ih (hturn start (Nat.le_refl start) (by omega) s hstart)
    intro k hle hlt
    exact hturn k (by omega) (by omega)

variable {α : Type*} (le : α → α → Prop) [DecidableRel le]

/-- Put two places in order. -/
def exchange (i j : ℕ) (f : ℕ → α) : ℕ → α :=
  if le (f i) (f j) then f else f ∘ Equiv.swap i j

/-- The turns of one place. -/
def exchangeRow (n i : ℕ) (f : ℕ → α) : ℕ → α :=
  (List.range' (i + 1) (n - (i + 1))).foldl (fun f j ↦ exchange le i j f) f

def exchangeSort (n : ℕ) (f : ℕ → α) : ℕ → α :=
  (List.range (n - 1)).foldl (fun f i ↦ exchangeRow le n i f) f

/-- Exchanging two places of a list changes its order only. -/
theorem swap_perm {n i j : ℕ} (hi : i < n) (hj : j < n) (f : ℕ → α) :
    ((List.range n).map (f ∘ Equiv.swap i j)).Perm ((List.range n).map f) := by
  have hplaces : ((List.range n).map (Equiv.swap i j)).Perm (List.range n) := by
    rw [List.perm_ext_iff_of_nodup (List.Nodup.map (Equiv.swap i j).injective List.nodup_range)
      List.nodup_range]
    intro k
    have hmem : k ∈ (List.range n).map (Equiv.swap i j) ↔ Equiv.swap i j k ∈ List.range n := by
      constructor
      · intro h
        obtain ⟨k, hk, rfl⟩ := List.mem_map.mp h
        rwa [Equiv.swap_apply_self]
      · intro h
        exact List.mem_map.mpr ⟨_, h, Equiv.swap_apply_self i j k⟩
    rw [hmem, List.mem_range, List.mem_range, Equiv.swap_apply_def]
    split
    next h => exact iff_of_true hj (h ▸ hi)
    next =>
      split
      next h => exact iff_of_true hi (h ▸ hj)
      next => rfl
  rw [← List.map_map]
  exact hplaces.map f

theorem exchange_perm {n i j : ℕ} (hi : i < n) (hj : j < n) (f : ℕ → α) :
    ((List.range n).map (exchange le i j f)).Perm ((List.range n).map f) := by
  unfold exchange
  split
  next => exact List.Perm.refl _
  next => exact swap_perm hi hj f

theorem exchangeRow_perm {n i : ℕ} (hi : i < n) (f : ℕ → α) :
    ((List.range n).map (exchangeRow le n i f)).Perm ((List.range n).map f) := by
  apply foldl_range'_invariant fun _ g ↦ ((List.range n).map g).Perm ((List.range n).map f)
  · exact List.Perm.refl _
  · intro j _ hj g hg
    exact (exchange_perm le hi (by omega) g).trans hg

theorem exchangeSort_perm (n : ℕ) (f : ℕ → α) :
    ((List.range n).map (exchangeSort le n f)).Perm ((List.range n).map f) := by
  rw [exchangeSort, List.range_eq_range']
  apply foldl_range'_invariant fun _ g ↦ ((List.range n).map g).Perm ((List.range n).map f)
  · exact List.Perm.refl _
  · intro i _ hi g hg
    exact (exchangeRow_perm le (by omega) g).trans hg

/-- The first `i` places are in order with everything behind them. -/
def SortedUpTo (n i : ℕ) (f : ℕ → α) : Prop :=
  ∀ p < i, ∀ q, p < q → q < n → le (f p) (f q)

/-- One place is in order with those up to another one. -/
def LeastUpTo (i j : ℕ) (f : ℕ → α) : Prop :=
  ∀ k, i < k → k < j → le (f i) (f k)

variable {le} {n i j : ℕ} {f : ℕ → α}

/-- What is exchanged behind a place was in order with it before. -/
theorem SortedUpTo.exchange (h : SortedUpTo le n i f) (hj : i < j) (hn : j < n) :
    SortedUpTo le n i (exchange le i j f) := by
  unfold Lib.exchange
  split
  next => exact h
  next =>
    intro p hp q hq hqn
    have hstays : Equiv.swap i j p = p :=
      Equiv.swap_apply_of_ne_of_ne (Nat.ne_of_lt hp) (Nat.ne_of_lt (hp.trans hj))
    have hmoved : p < Equiv.swap i j q ∧ Equiv.swap i j q < n := by
      rw [Equiv.swap_apply_def]
      split
      next => exact ⟨hp.trans hj, hn⟩
      next =>
        split
        next => exact ⟨hp, hj.trans hn⟩
        next => exact ⟨hq, hqn⟩
    rw [Function.comp_apply, Function.comp_apply, hstays]
    exact h p hp _ hmoved.1 hmoved.2

section Order

variable (htotal : ∀ a b, le a b ∨ le b a) (htrans : ∀ a b c, le a b → le b c → le a c)

include htotal htrans

/-- After its turn, a place is in order with one more. -/
theorem LeastUpTo.exchange (h : LeastUpTo le i j f) (hj : i < j) :
    LeastUpTo le i (j + 1) (exchange le i j f) := by
  unfold Lib.exchange
  split
  next hle =>
    intro k hk hkj
    rcases Nat.lt_succ_iff_lt_or_eq.mp hkj with hlt | rfl
    · exact h k hk hlt
    · exact hle
  next hnle =>
    have hle : le (f j) (f i) := (htotal (f i) (f j)).resolve_left hnle
    intro k hk hkj
    rw [Function.comp_apply, Function.comp_apply, Equiv.swap_apply_left]
    rcases Nat.lt_succ_iff_lt_or_eq.mp hkj with hlt | rfl
    · rw [Equiv.swap_apply_of_ne_of_ne (Nat.ne_of_gt hk) (Nat.ne_of_lt hlt)]
      exact htrans _ _ _ hle (h k hk hlt)
    · rwa [Equiv.swap_apply_right]

theorem SortedUpTo.exchangeRow (h : SortedUpTo le n i f) (hi : i < n) :
    SortedUpTo le n (i + 1) (exchangeRow le n i f) := by
  have hrow : SortedUpTo le n i (Lib.exchangeRow le n i f) ∧
      LeastUpTo le i (i + 1 + (n - (i + 1))) (Lib.exchangeRow le n i f) := by
    apply foldl_range'_invariant fun j g ↦ SortedUpTo le n i g ∧ LeastUpTo le i j g
    · exact ⟨h, fun k hk hki ↦ absurd hk (by omega)⟩
    · intro j hij hjn g hg
      exact ⟨hg.1.exchange hij (by omega), hg.2.exchange htotal htrans hij⟩
  rw [Nat.add_sub_cancel' hi] at hrow
  intro p hp q hq hqn
  rcases Nat.lt_succ_iff_lt_or_eq.mp hp with hlt | rfl
  · exact hrow.1 p hlt q hq hqn
  · exact hrow.2 q hq hqn

theorem exchangeSort_sorted (n : ℕ) (f : ℕ → α) {p q : ℕ} (hpq : p < q) (hq : q < n) :
    le (exchangeSort le n f p) (exchangeSort le n f q) := by
  have hsorted : SortedUpTo le n (0 + (n - 1)) (exchangeSort le n f) := by
    rw [exchangeSort, List.range_eq_range']
    apply foldl_range'_invariant (SortedUpTo le n)
    · exact fun p hp ↦ absurd hp (Nat.not_lt_zero p)
    · intro i _ hi g hg
      exact hg.exchangeRow htotal htrans (by omega)
  exact hsorted p (by omega) q hpq hq

end Order

end Brutal.Lib
