import Brutal.Ds.RangeAlloc
import Brutal.Ds.VecInsert
import Mathlib.Data.Nat.Log

/-!
# Vectors that grow

`vec_push` of `brutal-ds/vec.h`.  `vec_expand_impl` doubles the array and `vec_realloc_impl` counts
its bytes in an `int`, so a vector takes no more elements than a power of two for which this product
is an `int`.  The first product that is not one is negative and no block is that large:
`vec_push` answers `false`, and the callers modelled here drop this answer.
-/

namespace Brutal.Ds.Growth

open Base Lib Insertion

/-- How many elements of a size a vector can take. -/
def vecRoom (dataSize : ℕ) : ℕ := 2 ^ Nat.log 2 (intMax / dataSize)

/-- `vec_push` on the elements of a vector, by a caller that drops its answer. -/
def vecPush {α : Type*} (dataSize : ℕ) (elements : List α) (val : α) : List α :=
  if elements.length < vecRoom dataSize then elements ++ [val] else elements

theorem vecRoom_eq {dataSize k : ℕ} (hfits : 2 ^ k * dataSize ≤ intMax)
    (hnot : intMax < 2 ^ (k + 1) * dataSize) : vecRoom dataSize = 2 ^ k := by
  have hsize : 0 < dataSize := by
    apply Nat.pos_of_ne_zero
    rintro rfl
    exact absurd hnot (Nat.not_lt_zero _)
  rw [vecRoom, Nat.log_eq_of_pow_le_of_lt_pow ((Nat.le_div_iff_mul_le hsize).mpr hfits)
    ((Nat.div_lt_iff_lt_mul hsize).mpr hnot)]

section Elements

variable {α : Type*} {dataSize : ℕ} {elements vals : List α} {val : α}

theorem vecPush_of_lt (h : elements.length < vecRoom dataSize) :
    vecPush dataSize elements val = elements ++ [val] := if_pos h

theorem vecPush_of_le (h : vecRoom dataSize ≤ elements.length) :
    vecPush dataSize elements val = elements := if_neg (Nat.not_lt.mpr h)

/-- Of the values that are pushed, a vector takes those that it has room for. -/
theorem foldl_vecPush (dataSize : ℕ) (elements vals : List α) :
    vals.foldl (vecPush dataSize) elements =
      elements ++ vals.take (vecRoom dataSize - elements.length) := by
  induction vals generalizing elements with
  | nil => rw [List.foldl_nil, List.take_nil, List.append_nil]
  | cons val vals ih =>
    rw [List.foldl_cons, ih]
    by_cases hroom : elements.length < vecRoom dataSize
    · obtain ⟨left, hleft⟩ := Nat.exists_eq_add_of_lt hroom
      rw [vecPush_of_lt hroom, List.length_append, List.length_singleton, List.append_assoc,
        hleft, Nat.add_assoc, Nat.add_sub_cancel_left, List.take_succ_cons, List.singleton_append,
        Nat.add_comm left, ← Nat.add_assoc, Nat.add_sub_cancel_left]
    · have hfull := Nat.not_lt.mp hroom
      rw [vecPush_of_le hfull, Nat.sub_eq_zero_of_le hfull, List.take_zero, List.take_zero]

/-- With room for all of the values, all of them are elements. -/
theorem foldl_vecPush_of_le (h : elements.length + vals.length ≤ vecRoom dataSize) :
    vals.foldl (vecPush dataSize) elements = elements ++ vals := by
  rw [foldl_vecPush, List.take_of_length_le (Nat.le_sub_of_add_le' h)]

end Elements

/-- Whether sizes are an `int`, as in the program, or have no limit. -/
inductive Sizes where
  | int
  | any
deriving DecidableEq, Repr

namespace Sizes

/-- A length that is kept. -/
def Fits : Sizes → ℕ → Prop
  | .int, length => length < 2 ^ 31
  | .any, _ => True

/-- A vector takes so many elements. -/
def HasRoom : Sizes → ℕ → ℕ → Prop
  | .int, dataSize, count => count ≤ vecRoom dataSize
  | .any, _, _ => True

instance decidableFits : (sizes : Sizes) → (length : ℕ) → Decidable (sizes.Fits length)
  | .int, length => inferInstanceAs (Decidable (length < 2 ^ 31))
  | .any, _ => inferInstanceAs (Decidable True)

instance decidableHasRoom : (sizes : Sizes) → (dataSize count : ℕ) →
    Decidable (sizes.HasRoom dataSize count)
  | .int, dataSize, count => inferInstanceAs (Decidable (count ≤ vecRoom dataSize))
  | .any, _, _ => inferInstanceAs (Decidable True)

/-- `vec_push` by a caller that drops its answer. -/
def push {α : Type*} (sizes : Sizes) (dataSize : ℕ) (elements : List α) (val : α) : List α :=
  if sizes.HasRoom dataSize (elements.length + 1) then elements ++ [val] else elements

variable {α : Type*} {sizes : Sizes} {dataSize count count' : ℕ} {elements vals : List α} {val : α}

theorem HasRoom.mono (h : sizes.HasRoom dataSize count) (hle : count' ≤ count) :
    sizes.HasRoom dataSize count' := by
  cases sizes with
  | int => exact Nat.le_trans hle h
  | any => trivial

theorem hasRoom_zero (sizes : Sizes) (dataSize : ℕ) : sizes.HasRoom dataSize 0 := by
  cases sizes with
  | int => exact Nat.zero_le _
  | any => trivial

theorem push_of_room (h : sizes.HasRoom dataSize (elements.length + 1)) :
    sizes.push dataSize elements val = elements ++ [val] := if_pos h

/-- What is pushed and finds no room is left out. -/
theorem foldl_push (sizes : Sizes) (dataSize : ℕ) (elements vals : List α) :
    ∃ front, front <+: vals ∧ vals.foldl (sizes.push dataSize) elements = elements ++ front := by
  cases sizes with
  | int => exact ⟨_, List.take_prefix _ _, foldl_vecPush _ _ _⟩
  | any =>
    refine ⟨vals, List.prefix_refl _, ?_⟩
    induction vals generalizing elements with
    | nil => rw [List.foldl_nil, List.append_nil]
    | cons val vals ih =>
      rw [List.foldl_cons, ih, @push_of_room _ .any _ _ _ trivial, List.append_assoc,
        List.singleton_append]

theorem foldl_push_of_room (h : sizes.HasRoom dataSize (elements.length + vals.length)) :
    vals.foldl (sizes.push dataSize) elements = elements ++ vals := by
  induction vals generalizing elements with
  | nil => rw [List.foldl_nil, List.append_nil]
  | cons val vals ih =>
    have hfirst : sizes.HasRoom dataSize (elements.length + 1) :=
      h.mono (Nat.add_le_add_left (Nat.le_add_left 1 _) _)
    have hrest : sizes.HasRoom dataSize ((elements ++ [val]).length + vals.length) := by
      rw [List.length_append, List.length_singleton, Nat.add_assoc, Nat.add_comm 1]
      exact h
    rw [List.foldl_cons, push_of_room hfirst, ih hrest, List.append_assoc, List.singleton_append]

/-- There are never more elements than there is room for, or than there were before. -/
theorem length_push_int_le (hcount : elements.length ≤ count) (hroom : vecRoom dataSize ≤ count)
    (val : α) : (Sizes.int.push dataSize elements val).length ≤ count := by
  rw [push]
  split
  next h =>
    rw [List.length_append, List.length_singleton]
    exact Nat.le_trans h hroom
  next => exact hcount

end Sizes

/-- The capacity of a vector that was made by `vec_init` and only grew by `vec_push`. -/
def vecCapacity (len : ℕ) : ℕ := if len = 0 then 0 else 2 ^ Nat.clog 2 len

/-- The array is doubled when it is full. -/
theorem vecCapacity_succ (len : ℕ) : vecCapacity (len + 1) =
    if len < vecCapacity len then vecCapacity len
    else if vecCapacity len = 0 then 1 else vecCapacity len * 2 := by
  rcases Nat.eq_zero_or_pos len with rfl | hpos
  · rfl
  have hle := Nat.le_pow_clog (Nat.lt_succ_self 1) len
  rw [vecCapacity, vecCapacity, if_neg hpos.ne', if_neg (Nat.succ_ne_zero len)]
  rcases hle.lt_or_eq with hroom | hfull
  · rw [if_pos hroom, (Nat.clog_eq_clog_succ_iff (Nat.lt_succ_self 1)).mpr hroom.ne']
  · have hclog : Nat.clog 2 (len + 1) = Nat.clog 2 len + 1 := by
      apply le_antisymm
      · apply Nat.clog_le_of_le_pow
        rw [Nat.pow_succ, ← hfull]
        omega
      · exact (Nat.clog_lt_clog_succ_iff (Nat.lt_succ_self 1)).mpr hfull.symm
    rw [if_neg (Nat.not_lt.mpr hfull.ge), if_neg (Nat.two_pow_pos _).ne', hclog, Nat.pow_succ]

section Arrays

variable {α : Type} {alloc : ℕ → Option (ℕ → α)} {v : VecImpl α} {val : α}

/-- `vec_push` on the array. -/
def vecPushImpl (alloc : ℕ → Option (ℕ → α)) (v : VecImpl α) (val : α) :
    Except Fault (Bool × VecImpl α) := do
  let (result, v) ← vecExpandImpl alloc v
  if result then
    let v ← vecStore v v.len val
    return (true, { v with len := v.len + 1 })
  return (false, v)

/-- A vector that was made by `vec_init` and only grew by `vec_expand_impl`. -/
structure Doubled (v : VecImpl α) : Prop where
  valid : v.Valid
  size : 0 < v.dataSize
  size_le : v.dataSize ≤ intMax
  capacity : v.capacity = 0 ∨ ∃ k ≤ Nat.log 2 (intMax / v.dataSize), v.capacity = 2 ^ k

theorem pow_le_iff {dataSize k : ℕ} (hsize : 0 < dataSize) (hle : dataSize ≤ intMax) :
    k ≤ Nat.log 2 (intMax / dataSize) ↔ 2 ^ k * dataSize ≤ intMax := by
  rw [Nat.le_log_iff_pow_le (Nat.lt_succ_self 1) (Nat.div_pos hle hsize).ne',
    Nat.le_div_iff_mul_le hsize]

/-- A doubled vector can grow exactly as long as it has less elements than it has room for. -/
theorem growable_iff (hv : Doubled v) : v.Growable ↔ v.len < vecRoom v.dataSize := by
  have hlen := hv.valid.len_le
  have hpow := fun k ↦ @pow_le_iff _ k hv.size hv.size_le
  rw [VecImpl.Growable, VecImpl.grown, vecRoom]
  rcases hv.capacity with hzero | ⟨k, hk, hcapacity⟩
  · rw [if_pos hzero, Nat.one_mul]
    refine iff_of_true (.inr ⟨by decide, hv.size_le⟩) ?_
    have hlog := Nat.two_pow_pos (Nat.log 2 (intMax / v.dataSize))
    omega
  · rw [if_neg (hcapacity ▸ (Nat.two_pow_pos k).ne'), hcapacity, ← Nat.pow_succ, ← hpow]
    rw [hcapacity] at hlen
    have hmono := Nat.pow_le_pow_right (Nat.lt_succ_self 1).le hk
    constructor
    · rintro (hroom | ⟨-, hmore⟩)
      · exact Nat.lt_of_lt_of_le hroom hmono
      · exact Nat.lt_of_le_of_lt hlen
          (Nat.pow_lt_pow_right (Nat.lt_succ_self 1)
            (Nat.lt_of_lt_of_le (Nat.lt_succ_self k) hmore))
    · intro hroom
      rcases Nat.lt_or_ge v.len (2 ^ k) with hlt | hge
      · exact .inl hlt
      · have hmore : k + 1 ≤ Nat.log 2 (intMax / v.dataSize) :=
          (Nat.pow_lt_pow_iff_right (Nat.lt_succ_self 1)).mp (Nat.lt_of_le_of_lt hge hroom)
        have hbytes := (hpow (k + 1)).mp hmore
        exact .inr ⟨Nat.le_trans (Nat.le_mul_of_pos_right _ hv.size) hbytes, hmore⟩

theorem vecPushImpl_of_expanded {data : ℕ → α} {capacity : ℕ}
    (hexpand : vecExpandImpl alloc v =
      .ok (true, { v with data := some data, capacity := capacity }))
    (hroom : v.len < capacity) :
    vecPushImpl alloc v val = .ok (true, { v with
      data := some (Function.update data v.len val), capacity := capacity,
      len := v.len + 1 }) := by
  have hstore : vecStore { v with data := some data, capacity := capacity } v.len val =
      .ok { v with data := some (Function.update data v.len val), capacity := capacity } :=
    if_pos hroom
  rw [vecPushImpl, hexpand, ok_bind]
  dsimp only
  rw [if_pos rfl, hstore]
  rfl

theorem length_contents (hv : v.Valid) : v.contents.length = v.len := by
  unfold VecImpl.contents
  cases hdata : v.data with
  | none => exact (Nat.le_zero.mp (hv.data hdata ▸ hv.len_le)).symm
  | some data => exact length_readAt data 0 v.len

theorem vecExpandImpl_capacity {v' : VecImpl α} (h : vecExpandImpl alloc v = .ok (true, v')) :
    v'.capacity = if v.len < v.capacity then v.capacity else v.grown := by
  rw [vecExpandImpl] at h
  split at h
  next hfull =>
    rw [if_neg (by omega)]
    obtain ⟨n, hn, h⟩ := bind_eq_ok.mp h
    have hgrown : n = v.grown := by
      rw [nextCapacity] at hn
      rw [VecImpl.grown]
      split at hn
      next hzero =>
        rw [if_pos hzero]
        cases hn
        rfl
      next hzero =>
        rw [if_neg hzero]
        exact (mulInt_eq_ok.mp hn).2.symm
    obtain ⟨bytes, -, h⟩ := bind_eq_ok.mp h
    cases hptr : alloc bytes with
    | none =>
      rw [hptr] at h
      cases h
    | some ptr =>
      rw [hptr] at h
      cases h
      exact hgrown
  next hroom =>
    cases h
    rw [if_pos (by omega)]

theorem vecExpandImpl_len {v' : VecImpl α} (h : vecExpandImpl alloc v = .ok (true, v')) :
    v'.len = v.len := by
  rw [vecExpandImpl] at h
  split at h
  · obtain ⟨n, -, h⟩ := bind_eq_ok.mp h
    obtain ⟨bytes, -, h⟩ := bind_eq_ok.mp h
    cases hptr : alloc bytes with
    | none =>
      rw [hptr] at h
      cases h
    | some ptr =>
      rw [hptr] at h
      cases h
      rfl
  · cases h
    rfl

/-- Every element that is pushed keeps the capacity that there is for so many. -/
theorem vecPushImpl_capacity {v' : VecImpl α} (hv : v.capacity = vecCapacity v.len)
    (h : vecPushImpl alloc v val = .ok (true, v')) : v'.capacity = vecCapacity v'.len := by
  rw [vecPushImpl] at h
  obtain ⟨⟨result, grown⟩, hexpand, h⟩ := bind_eq_ok.mp h
  cases result with
  | false => cases h
  | true =>
    obtain ⟨stored, hstore, h⟩ := bind_eq_ok.mp h
    cases h
    have hcapacity := vecExpandImpl_capacity hexpand
    have hlen := vecExpandImpl_len hexpand
    have hkept : stored.capacity = grown.capacity ∧ stored.len = grown.len := by
      rw [vecStore] at hstore
      split at hstore
      · cases hstore
      · split at hstore
        · cases hstore
          exact ⟨rfl, rfl⟩
        · cases hstore
    calc
      stored.capacity = if v.len < v.capacity then v.capacity else v.grown :=
        hkept.1.trans hcapacity
      _ = vecCapacity (v.len + 1) := by rw [vecCapacity_succ, VecImpl.grown, hv]
      _ = vecCapacity (stored.len + 1) := by rw [hkept.2, hlen]

theorem Doubled.grown_capacity (hv : Doubled v) (hroom : v.len < vecRoom v.dataSize) :
    ∃ k ≤ Nat.log 2 (intMax / v.dataSize),
      (if v.len < v.capacity then v.capacity else v.grown) = 2 ^ k := by
  rcases hv.capacity with hzero | ⟨k, hk, hcapacity⟩
  · refine ⟨0, Nat.zero_le _, ?_⟩
    rw [if_neg (hzero ▸ Nat.not_lt_zero _), VecImpl.grown, if_pos hzero]
    rfl
  · split
    next => exact ⟨k, hk, hcapacity⟩
    next hfull =>
      refine ⟨k + 1, ?_, ?_⟩
      · apply (Nat.pow_lt_pow_iff_right (Nat.lt_succ_self 1)).mp
        exact Nat.lt_of_le_of_lt (hcapacity ▸ Nat.not_lt.mp hfull) hroom
      · rw [VecImpl.grown, if_neg (hcapacity ▸ (Nat.two_pow_pos k).ne'), hcapacity, Nat.pow_succ]

/-- With room, the array does what `vecPush` says of its elements. -/
theorem vecPushImpl_ok (hv : Doubled v) (halloc : ∀ bytes, alloc bytes ≠ none) (val : α)
    (hroom : v.len < vecRoom v.dataSize) :
    ∃ v', vecPushImpl alloc v val = .ok (true, v') ∧ Doubled v' ∧ v'.dataSize = v.dataSize ∧
      v'.contents = vecPush v.dataSize v.contents val := by
  obtain ⟨data, capacity, hexpand, hcapacity, hslots⟩ :=
    vecExpandImpl_grows hv.valid halloc ((growable_iff hv).mpr hroom)
  have hgrown : capacity = _ := vecExpandImpl_capacity hexpand
  have hcontents : v.contents = readAt data 0 v.len := contents_eq hv.valid fun slot hslot ↦ by
    rw [← hslots slot (Nat.le_of_lt hslot), slots, if_pos (Or.inr hslot)]
  have hvalid : VecImpl.Valid { v with
      data := some (Function.update data v.len val), capacity := capacity, len := v.len + 1 } :=
    ⟨hcapacity, fun h ↦ absurd h (Option.some_ne_none _)⟩
  refine ⟨_, vecPushImpl_of_expanded hexpand hcapacity, ⟨hvalid, hv.size, hv.size_le,
    .inr (hgrown ▸ hv.grown_capacity hroom)⟩, rfl, ?_⟩
  rw [hcontents, vecPush_of_lt (by rwa [length_readAt])]
  change readAt (Function.update data v.len val) 0 (v.len + 1) = readAt data 0 v.len ++ [val]
  rw [readAt_add, Nat.zero_add]
  congr 1
  · apply readAt_congr
    intro i hi
    rw [Nat.zero_add, Function.update_of_ne (by omega)]
  · rw [readAt, List.range_one, List.map_singleton, Nat.add_zero, Function.update_self]

/-- Without room, the product overflows and the elements stay. -/
theorem vecPushImpl_overflows (hv : Doubled v) (val : α) (hfull : vecRoom v.dataSize ≤ v.len) :
    vecPushImpl alloc v val = .error .overflow ∧
      vecPush v.dataSize v.contents val = v.contents := by
  have hgrow := fun h ↦ Nat.not_lt.mpr hfull ((growable_iff hv).mp h)
  constructor
  · rw [vecPushImpl, vecExpandImpl_overflows hgrow hv.valid]
    rfl
  · exact vecPush_of_le (by rwa [length_contents hv.valid])

/-- The vectors of the range allocator, which grow without an end, are the array. -/
theorem vecInsert_rangeAlloc {self : Vec α} {capacity idx : ℕ}
    (hexpand : vecExpandImpl alloc v =
      .ok (true, { v with data := some self.data, capacity := capacity }))
    (hroom : v.len < capacity) (hlen : v.len = self.len) (hidx : idx ≤ v.len) :
    Insertion.vecInsert alloc v idx val = .ok (true, { v with
      data := some (Ds.vecInsert self idx val).data, capacity := capacity,
      len := (Ds.vecInsert self idx val).len }) := by
  rw [vecInsert_of_expanded hexpand hroom hidx, hlen]
  rfl

end Arrays

end Brutal.Ds.Growth
