import Brutal.Base.Debug
import Brutal.Lib.Memory
import Brutal.Lib.Outcome

/-!
# Insertion into a vector

`vec_insert` of `brutal-ds/vec.h` and the functions of `brutal-ds/vec.c` behind it.
`vec_expand_impl` says `true` when there is room; `vec_insert_impl` takes that for an error and
returns before it moves the elements, and `vec_insert` stores the new element when it hears `true`.
-/

namespace Brutal.Ds.Insertion

open Base Lib

/-- `VecImpl`; `data` holds one value for each slot of the array, of which the first `len` are
elements. -/
structure VecImpl (α : Type) where
  data : Option (ℕ → α)
  len : ℕ
  dataSize : ℕ
  capacity : ℕ

/-- `INT_MAX` -/
def intMax : ℕ := 2 ^ 31 - 1

/-- The product of two numbers of type `int`, which must not overflow. -/
def mulInt (a b : ℕ) : Except Fault ℕ :=
  if a * b ≤ intMax then .ok (a * b) else .error .overflow

section Code

variable {α : Type} (alloc : ℕ → Option (ℕ → α))

/-- `vec_realloc_impl`; `alloc` is `alloc_acquire`, which takes a number of bytes and returns a
block with whatever its slots hold. -/
def vecReallocImpl (impl : VecImpl α) (newLen : ℕ) : Except Fault (Bool × VecImpl α) := do
  let bytes ← mulInt newLen impl.dataSize
  match alloc bytes with
  | none => return (false, impl)
  | some ptr =>
    let data := match impl.data with
      | none => ptr
      | some old => fun slot ↦ if slot < min impl.len newLen then old slot else ptr slot
    return (true, { impl with data := some data, capacity := newLen })

/-- `(impl->capacity == 0) ? 1 : impl->capacity * 2` -/
def nextCapacity (capacity : ℕ) : Except Fault ℕ :=
  if capacity = 0 then .ok 1 else mulInt capacity 2

/-- `vec_expand_impl` -/
def vecExpandImpl (impl : VecImpl α) : Except Fault (Bool × VecImpl α) :=
  if impl.len + 1 > impl.capacity then do
    let n ← nextCapacity impl.capacity
    vecReallocImpl alloc impl n
  else .ok (true, impl)

/-- `mem_move` of `count` slots. -/
def memMove (impl : VecImpl α) (dest src count : ℕ) : Except Fault (VecImpl α) :=
  if count = 0 then .ok impl
  else
    match impl.data with
    | none => .error .outOfBounds
    | some data =>
      if dest + count ≤ impl.capacity ∧ src + count ≤ impl.capacity then
        let moved slot := if dest ≤ slot ∧ slot < dest + count then data (src + (slot - dest))
          else data slot
        .ok { impl with data := some moved }
      else .error .outOfBounds

/-- `vec_insert_impl` -/
def vecInsertImpl (impl : VecImpl α) (idx : ℕ) : Except Fault (Bool × VecImpl α) := do
  let (err, impl) ← vecExpandImpl alloc impl
  if err then return (err, impl)
  let impl ← memMove impl (idx + 1) idx (impl.len - idx)
  return (false, impl)

/-- `vec_at(v, idx) = val` -/
def vecStore (v : VecImpl α) (idx : ℕ) (val : α) : Except Fault (VecImpl α) :=
  match v.data with
  | none => .error .outOfBounds
  | some data =>
    if idx < v.capacity then .ok { v with data := some (Function.update data idx val) }
    else .error .outOfBounds

/-- `vec_insert` -/
def vecInsert (v : VecImpl α) (idx : ℕ) (val : α) : Except Fault (Bool × VecImpl α) := do
  let (result, v) ← vecInsertImpl alloc v idx
  if result then
    let v ← vecStore v idx val
    return (result, { v with len := v.len + 1 })
  return (result, v)

end Code

namespace VecImpl

variable {α : Type}

/-- A vector that was made by `vec_init` and the operations on it. -/
structure Valid (v : VecImpl α) : Prop where
  len_le : v.len ≤ v.capacity
  data : v.data = none → v.capacity = 0

/-- The elements of a vector. -/
def contents (v : VecImpl α) : List α :=
  match v.data with
  | none => []
  | some data => readAt data 0 v.len

/-- The capacity after a growth. -/
def grown (v : VecImpl α) : ℕ := if v.capacity = 0 then 1 else v.capacity * 2

/-- If the vector has to grow, the new size in bytes is an `int`, and so is the new capacity. -/
def Growable (v : VecImpl α) : Prop :=
  v.len < v.capacity ∨ v.grown ≤ intMax ∧ v.grown * v.dataSize ≤ intMax

end VecImpl

section Proofs

variable {α : Type} {alloc : ℕ → Option (ℕ → α)} {v : VecImpl α}

/-- What the slots hold when there is room for another element: the vector's own array, or a new
block behind the elements. -/
def slots (alloc : ℕ → Option (ℕ → α)) (v : VecImpl α) (slot : ℕ) : Option α :=
  if v.len < v.capacity ∨ slot < v.len then v.data.map (· slot)
  else (alloc (v.grown * v.dataSize)).map (· slot)

/-- `vec_insert` puts the value between the first `idx` elements and the others. -/
def Inserts (alloc : ℕ → Option (ℕ → α)) (v : VecImpl α) (idx : ℕ) (val : α) : Prop :=
  ∃ v', vecInsert alloc v idx val = .ok (true, v') ∧
    v'.contents = v.contents.take idx ++ val :: v.contents.drop idx ∧ v'.len = v.len + 1

theorem mulInt_eq_ok {a b n : ℕ} : mulInt a b = .ok n ↔ a * b ≤ intMax ∧ a * b = n := by
  unfold mulInt
  split
  next h => simp [h]
  next h => simp [h]

theorem contents_eq {data : ℕ → α} (hv : v.Valid)
    (h : ∀ slot < v.len, v.data.map (· slot) = some (data slot)) :
    v.contents = readAt data 0 v.len := by
  unfold VecImpl.contents
  cases hdata : v.data with
  | none =>
    have hzero : v.len = 0 := Nat.le_zero.mp (hv.data hdata ▸ hv.len_le)
    rw [hzero]
    rfl
  | some old =>
    apply readAt_congr
    intro i hi
    have hi' := h i hi
    rw [hdata] at hi'
    rw [Nat.zero_add]
    exact Option.some.inj hi'

/-- After a growth the vector has its elements and room for another one. -/
theorem vecExpandImpl_grows (hv : v.Valid) (halloc : ∀ bytes, alloc bytes ≠ none)
    (hgrow : v.Growable) : ∃ data capacity,
      vecExpandImpl alloc v = .ok (true, { v with data := some data, capacity := capacity }) ∧
      v.len < capacity ∧ ∀ slot ≤ v.len, slots alloc v slot = some (data slot) := by
  by_cases hroom : v.len < v.capacity
  · obtain ⟨data, hdata⟩ : ∃ data, v.data = some data := by
      cases hdata : v.data with
      | none =>
        have hzero := hv.data hdata
        omega
      | some data => exact ⟨data, rfl⟩
    refine ⟨data, v.capacity, ?_, hroom, ?_⟩
    · rw [vecExpandImpl, if_neg (by omega), ← hdata]
    · intro slot _
      rw [slots, if_pos (Or.inl hroom), hdata]
      rfl
  · obtain ⟨hint, hbytes⟩ := hgrow.resolve_left hroom
    have hfull : v.len = v.capacity := Nat.le_antisymm hv.len_le (Nat.le_of_not_lt hroom)
    obtain ⟨ptr, hptr⟩ := Option.ne_none_iff_exists'.mp (halloc (v.grown * v.dataSize))
    have hgrown : nextCapacity v.capacity = .ok v.grown := by
      rw [VecImpl.grown, nextCapacity]
      rw [VecImpl.grown] at hint
      split at hint
      next h => rw [if_pos h, if_pos h]
      next h => rw [if_neg h, if_neg h, mulInt, if_pos hint]
    have hmore : v.len < v.grown := by
      unfold VecImpl.grown
      split <;> omega
    have hrealloc : mulInt v.grown v.dataSize = .ok (v.grown * v.dataSize) :=
      mulInt_eq_ok.mpr ⟨hbytes, rfl⟩
    rw [vecExpandImpl, if_pos (by omega), hgrown, ok_bind, vecReallocImpl, hrealloc, ok_bind, hptr]
    refine ⟨_, _, rfl, hmore, ?_⟩
    intro slot hslot
    cases hdata : v.data with
    | none =>
      have hzero := hv.data hdata
      rw [slots, if_neg (by omega), hptr]
      rfl
    | some old =>
      dsimp only
      by_cases hold : slot < v.len
      · rw [slots, if_pos (Or.inr hold), hdata, if_pos (by omega)]
        rfl
      · rw [slots, if_neg (by omega), hptr, if_neg (by omega)]
        rfl

/-- A growth past what an `int` can say overflows. -/
theorem vecExpandImpl_overflows (hgrow : ¬ v.Growable) (hv : v.Valid) :
    vecExpandImpl alloc v = .error .overflow := by
  rw [VecImpl.Growable, not_or, not_and_or] at hgrow
  obtain ⟨hroom, hgrow⟩ := hgrow
  have hlen := hv.len_le
  have hrealloc : ∀ n, ¬ n * v.dataSize ≤ intMax →
      vecReallocImpl alloc v n = .error .overflow := by
    intro n hn
    have hmul : mulInt n v.dataSize = .error .overflow := if_neg hn
    rw [vecReallocImpl, hmul]
    rfl
  rw [vecExpandImpl, if_pos (by omega), nextCapacity]
  unfold VecImpl.grown at hgrow
  split
  next h =>
    rw [if_pos h] at hgrow
    exact hrealloc 1 (hgrow.resolve_left (not_not.mpr (by decide)))
  next h =>
    rw [if_neg h] at hgrow
    by_cases hint : v.capacity * 2 ≤ intMax
    · rw [mulInt, if_pos hint, ok_bind]
      exact hrealloc _ (hgrow.resolve_left (not_not.mpr hint))
    · rw [mulInt, if_neg hint]
      rfl

/-- With room, the value is stored over the element that stands at its index. -/
theorem vecInsert_of_expanded {data : ℕ → α} {capacity idx : ℕ} {val : α}
    (hexpand : vecExpandImpl alloc v =
      .ok (true, { v with data := some data, capacity := capacity }))
    (hroom : v.len < capacity) (hidx : idx ≤ v.len) :
    vecInsert alloc v idx val = .ok (true, { v with
      data := some (Function.update data idx val), capacity := capacity, len := v.len + 1 }) := by
  have himpl : vecInsertImpl alloc v idx =
      .ok (true, { v with data := some data, capacity := capacity }) := by
    rw [vecInsertImpl, hexpand]
    rfl
  have hstore : vecStore { v with data := some data, capacity := capacity } idx val =
      .ok { v with data := some (Function.update data idx val), capacity := capacity } :=
    if_pos (Nat.lt_of_le_of_lt hidx hroom)
  rw [vecInsert, himpl, ok_bind]
  dsimp only
  rw [if_pos rfl, hstore]
  rfl

/-- A value stored over an element is inserted in front of it exactly when all elements from there
on are the same as the ones behind them. -/
theorem stored_eq_inserted_iff {data : ℕ → α} {elements : List α} {idx : ℕ} (val : α)
    (hidx : idx ≤ elements.length) (helements : elements = readAt data 0 elements.length) :
    readAt (Function.update data idx val) 0 (elements.length + 1) =
        elements.take idx ++ val :: elements.drop idx ↔
      ∀ k, idx ≤ k → k < elements.length → data (k + 1) = data k := by
  have hold : ∀ k < elements.length, elements[k]? = some (data k) := by
    intro k hk
    rw [helements, getElem?_readAt hk, Nat.zero_add]
  have hnew : ∀ k < elements.length + 1,
      (readAt (Function.update data idx val) 0 (elements.length + 1))[k]? =
        some (Function.update data idx val k) := by
    intro k hk
    rw [getElem?_readAt hk, Nat.zero_add]
  have hlen : (elements.take idx).length = idx := List.length_take_of_le hidx
  have hbehind : ∀ k, (elements.take idx ++ val :: elements.drop idx)[idx + 1 + k]? =
      elements[idx + k]? := by
    intro k
    rw [List.getElem?_append_right (by omega), hlen, Nat.add_assoc, Nat.add_sub_cancel_left,
      Nat.add_comm 1 k, List.getElem?_cons_succ, List.getElem?_drop]
  constructor
  · intro h k hle hlt
    obtain ⟨k, rfl⟩ := Nat.exists_eq_add_of_le hle
    have hk := hnew (idx + k + 1) (by omega)
    rw [h, Nat.add_right_comm, hbehind, hold _ hlt, Option.some.injEq,
      Function.update_of_ne (by omega)] at hk
    rw [Nat.add_right_comm]
    exact hk.symm
  · intro h
    apply List.ext_getElem?
    intro k
    rcases Nat.lt_or_ge elements.length k with hout | hin
    · rw [List.getElem?_eq_none (by rw [length_readAt]; omega), List.getElem?_eq_none]
      simp only [List.length_append, List.length_cons, List.length_take, List.length_drop]
      omega
    · rw [hnew k (by omega)]
      rcases Nat.lt_trichotomy k idx with hlt | rfl | hgt
      · rw [Function.update_of_ne (by omega), List.getElem?_append_left (by omega),
          List.getElem?_take_of_lt hlt, hold k (by omega)]
      · rw [Function.update_self, List.getElem?_append_right (by omega), hlen, Nat.sub_self]
        rfl
      · obtain ⟨k, rfl⟩ := Nat.exists_eq_add_of_lt hgt
        have hnext := h (idx + k) (by omega) (by omega)
        rw [Function.update_of_ne (by omega), hnext, Nat.add_right_comm, hbehind,
          hold _ (by omega)]

/-- `vec_insert` inserts exactly when the vector can grow and all slots from the index on, up to the
one behind the last element, hold the same value; at the end of the vector it always does. -/
theorem vecInsert_inserts_iff (hv : v.Valid) (halloc : ∀ bytes, alloc bytes ≠ none) {idx : ℕ}
    (hidx : idx ≤ v.len) (val : α) :
    Inserts alloc v idx val ↔ v.Growable ∧
      ∀ k, idx ≤ k → k < v.len → slots alloc v (k + 1) = slots alloc v k := by
  by_cases hgrow : v.Growable
  · obtain ⟨data, capacity, hexpand, hroom, hslots⟩ := vecExpandImpl_grows hv halloc hgrow
    have hinsert : vecInsert alloc v idx val = _ := vecInsert_of_expanded hexpand hroom hidx
    have hcontents : v.contents = readAt data 0 v.len := contents_eq hv fun slot hslot ↦ by
      rw [← hslots slot (Nat.le_of_lt hslot), slots, if_pos (Or.inr hslot)]
    have hlen : v.contents.length = v.len := by rw [hcontents, length_readAt]
    have hstored := stored_eq_inserted_iff val (hlen ▸ hidx) (by rw [hlen, ← hcontents])
    rw [hlen] at hstored
    have hsame : (∀ k, idx ≤ k → k < v.len → slots alloc v (k + 1) = slots alloc v k) ↔
        ∀ k, idx ≤ k → k < v.len → data (k + 1) = data k := by
      apply forall₃_congr
      intro k _ hk
      rw [hslots k (Nat.le_of_lt hk), hslots (k + 1) hk, Option.some.injEq]
    rw [hsame, ← hstored, and_iff_right hgrow]
    constructor
    · rintro ⟨v', hv', hafter, -⟩
      rw [hinsert] at hv'
      cases hv'
      exact hafter
    · intro hafter
      exact ⟨_, hinsert, hafter, rfl⟩
  · constructor
    · rintro ⟨v', hinsert, -⟩
      rw [vecInsert, vecInsertImpl, vecExpandImpl_overflows hgrow hv] at hinsert
      cases hinsert
    · intro h
      exact absurd h.1 hgrow

end Proofs

/-- A 7 is inserted in front of the second of two equal elements, with a third one of the same value
in the free slot, and is not inserted in front of the 1 of the elements 1 and 2. -/
theorem vecInsert_inserts_between :
    Inserts (fun _ ↦ some fun _ ↦ 0) ⟨some fun slot ↦ if slot = 0 then 1 else 2, 2, 4, 4⟩ 1 7 ∧
      ¬ Inserts (fun _ ↦ some fun _ ↦ 0) ⟨some fun slot ↦ if slot = 0 then 1 else 2, 2, 4, 4⟩ 0
        7 := by
  have hvalid : (⟨some fun slot ↦ if slot = 0 then 1 else 2, 2, 4, 4⟩ : VecImpl ℕ).Valid :=
    ⟨by decide, nofun⟩
  have hiff := fun idx hidx ↦
    @vecInsert_inserts_iff _ _ _ hvalid (fun _ ↦ Option.some_ne_none fun _ ↦ 0) idx hidx 7
  refine ⟨(hiff 1 (by decide)).mpr ⟨.inl (by decide), ?_⟩, fun h ↦ ?_⟩
  · intro k hk hlt
    obtain rfl : k = 1 := by
      dsimp only at hlt
      omega
    rfl
  · exact absurd (((hiff 0 (by decide)).mp h).2 0 (Nat.le_refl 0) (by decide)) (by decide)

/-- A vector of the elements 1 and 2 with room for two more: a 7 inserted in front replaces the 1,
and what stood behind the 2 becomes an element. -/
theorem vecInsert_fails :
    (vecInsert (fun _ ↦ some fun _ ↦ 0) ⟨some fun slot ↦ (slot + 1) % 3, 2, 4, 4⟩ 0 7).map
        (fun result ↦ result.2.contents) = .ok [7, 2, 0] ∧
      ¬ Inserts (fun _ ↦ some fun _ ↦ 0) ⟨some fun slot ↦ (slot + 1) % 3, 2, 4, 4⟩ 0 7 := by
  refine ⟨rfl, ?_⟩
  rintro ⟨v', hinsert, hcontents, -⟩
  cases hinsert
  exact absurd hcontents (by decide)

end Brutal.Ds.Insertion
