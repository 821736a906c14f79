import Mathlib.Algebra.BigOperators.Group.List.Basic
import Mathlib.Algebra.GroupWithZero.Nat
import Mathlib.Data.List.AList
import Mathlib.Logic.Function.Basic

/-!
# Reference counting

Values are kept under numbers in an association list, and hold references to each other.  Two
kinds of quantity are tracked: a count for each number, and the total over all values of a weight
such as the number of their references to a given number.

Releasing a reference lowers a count.  The value whose last reference goes is destroyed, and gives
up references of its own in turn; `release` says which values a release destroys, and
`release_conserves` that every reference that is given up lowers a count by one.
-/

namespace Brutal.Lib

variable {β : Type*}
variable {s : AList fun _ : ℕ ↦ β} {key : ℕ} {value : β}

/-- The sum of a weight over the values. -/
def total (weight : β → ℕ) (s : AList fun _ : ℕ ↦ β) : ℕ :=
  (s.entries.map fun entry ↦ weight entry.2).sum

theorem entries_perm_erase (h : s.lookup key = some value) :
    s.entries.Perm (⟨key, value⟩ :: (s.erase key).entries) := by
  have hmem : key ∈ s.entries.keys := AList.lookup_isSome.1 (by rw [h]; rfl)
  obtain ⟨other, before, after, _, hentries, herase⟩ := List.exists_of_kerase hmem
  have hother : s.lookup key = some other := by
    apply AList.mem_lookup_iff.2
    rw [hentries]
    exact List.mem_append_right _ List.mem_cons_self
  rw [h] at hother
  cases hother
  have hrest : (s.erase key).entries = before ++ after := herase
  rw [hentries, hrest]
  exact List.perm_middle

theorem lookup_insert_cases {key other : ℕ} {new value : β}
    (h : (s.insert key new).lookup other = some value) :
    (other = key ∧ value = new) ∨ s.lookup other = some value := by
  by_cases hother : other = key
  · rw [hother, AList.lookup_insert] at h
    exact Or.inl ⟨hother, (Option.some.inj h).symm⟩
  · rw [AList.lookup_insert_ne hother] at h
    exact Or.inr h

theorem lookup_of_erase {key other : ℕ} (h : (s.erase key).lookup other = some value) :
    s.lookup other = some value := by
  by_cases hother : other = key
  · rw [hother, AList.lookup_erase] at h
    cases h
  · rwa [AList.lookup_erase_ne hother] at h

/-- A value that goes takes its weight along. -/
theorem total_erase (weight : β → ℕ) (h : s.lookup key = some value) :
    total weight (s.erase key) + weight value = total weight s := by
  have hsum := ((entries_perm_erase h).map fun entry ↦ weight entry.2).sum_eq
  rw [List.map_cons, List.sum_cons] at hsum
  rw [total, total, hsum, Nat.add_comm]

theorem total_insert (weight : β → ℕ) (s : AList fun _ : ℕ ↦ β) (key : ℕ) (value : β) :
    total weight (s.insert key value) = total weight (s.erase key) + weight value := by
  rw [total, AList.entries_insert, List.map_cons, List.sum_cons, Nat.add_comm]
  rfl

/-- A value that is replaced leaves its weight for that of the new one. -/
theorem total_replace (weight : β → ℕ) {old : β} (new : β) (h : s.lookup key = some old) :
    total weight (s.insert key new) + weight old = total weight s + weight new := by
  rw [total_insert, ← total_erase weight h]
  omega

/-- A new value adds its weight. -/
theorem total_add (weight : β → ℕ) (value : β) (h : s.lookup key = none) :
    total weight (s.insert key value) = total weight s + weight value := by
  have hkey : key ∉ s := AList.lookup_eq_none.1 h
  rw [total, AList.entries_insert_of_notMem hkey, List.map_cons, List.sum_cons, Nat.add_comm]
  rfl

theorem total_one (s : AList fun _ : ℕ ↦ β) : total (fun _ ↦ 1) s = s.entries.length := by
  simp [total]

/-- What is left of the counts, and the values that were destroyed, in order. -/
abbrev Cascade := List ℕ × (ℕ → ℕ)

/-- Release references one after the other. -/
def releaseAll (release : (ℕ → ℕ) → ℕ → Option Cascade) :
    List ℕ → (ℕ → ℕ) → Option Cascade
  | [], count => some ([], count)
  | node :: rest, count => do
    let (first, count) ← release count node
    let (second, count) ← releaseAll release rest count
    pure (first ++ second, count)

/-- Release one reference, where the value under a number gives up the references `drops` when it
is destroyed. -/
def release (drops : ℕ → List ℕ) : ℕ → (ℕ → ℕ) → ℕ → Option Cascade
  | 0, _, _ => none
  | depth + 1, count, node =>
    if count node = 0 then none
    else if count node = 1 then do
      let (destroyed, count) ← releaseAll (release drops depth) (drops node)
        (Function.update count node 0)
      pure (node :: destroyed, count)
    else some ([], Function.update count node (count node - 1))

/-- The references that are given up lower the counts. -/
def Conserves (drops : ℕ → List ℕ) (released : List ℕ) (before : ℕ → ℕ) (after : Cascade) :
    Prop :=
  ∀ node, after.2 node + released.count node + (after.1.flatMap drops).count node = before node

theorem releaseAll_conserves {drops : ℕ → List ℕ} {step : (ℕ → ℕ) → ℕ → Option Cascade}
    (hstep : ∀ count node after, step count node = some after →
      Conserves drops [node] count after)
    {nodes : List ℕ} {count : ℕ → ℕ} {after : Cascade}
    (h : releaseAll step nodes count = some after) : Conserves drops nodes count after := by
  induction nodes generalizing count after with
  | nil =>
    cases h
    intro node
    rfl
  | cons node rest ih =>
    simp only [releaseAll, Option.bind_eq_bind, Option.bind_eq_some_iff, Option.pure_def,
      Option.some.injEq, Prod.exists] at h
    obtain ⟨first, between, hfirst, second, final, hsecond, rfl⟩ := h
    have hhead := hstep count node _ hfirst
    have htail := ih hsecond
    intro x
    have hx := hhead x
    have hy := htail x
    simp only [List.flatMap_append, List.count_append] at hx hy ⊢
    rw [List.count_cons, Nat.add_comm (List.count x rest)]
    rw [List.count_singleton] at hx
    omega

/-- Every reference that is given up in a cascade lowers a count by one. -/
theorem release_conserves {drops : ℕ → List ℕ} {depth : ℕ} {count : ℕ → ℕ} {node : ℕ}
    {after : Cascade} (h : release drops depth count node = some after) :
    Conserves drops [node] count after := by
  induction depth generalizing count node after with
  | zero => cases h
  | succ depth ih =>
    rw [release] at h
    split at h
    next => cases h
    next hpos =>
      split at h
      next hlast =>
        simp only [Option.bind_eq_bind, Option.bind_eq_some_iff, Option.pure_def,
          Option.some.injEq, Prod.exists] at h
        obtain ⟨destroyed, final, hall, rfl⟩ := h
        have hdrops := releaseAll_conserves (fun _ _ _ hrelease ↦ ih hrelease) hall
        intro x
        have hx := hdrops x
        simp only [List.flatMap_cons, List.count_append, List.count_singleton] at hx ⊢
        by_cases hxnode : x = node
        · rw [hxnode, Function.update_self] at hx
          rw [hxnode, hlast, beq_self_eq_true, if_pos rfl]
          omega
        · rw [Function.update_of_ne hxnode] at hx
          rw [if_neg (by simpa using Ne.symm hxnode)]
          omega
      next hmany =>
        cases h
        intro x
        simp only [List.flatMap_nil, List.count_nil, List.count_singleton]
        by_cases hxnode : x = node
        · rw [hxnode, Function.update_self, beq_self_eq_true, if_pos rfl]
          omega
        · rw [Function.update_of_ne hxnode, if_neg (by simpa using Ne.symm hxnode), Nat.add_zero]

end Brutal.Lib
