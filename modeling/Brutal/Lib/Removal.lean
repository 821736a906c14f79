import Mathlib.Data.List.Chain
import Mathlib.Data.List.Infix

/-!
# Loops that remove elements from the vector that they index

A loop over the indices of a vector that removes some of its elements has to stay where it is after
a removal, since the next element moves into the gap.  A loop that goes on to the next index all the
same passes over that element.  Both loops are stated as they run, on an index and what is left of
the vector, and then by recursion on the part that they have not come to.
-/

namespace Brutal.Lib

variable {α : Type*} (p : α → Bool)

/-- The loop from index `i` on, with the elements that it has removed so far.  After a removal it
goes on to the next index, or stays. -/
def removeLoop (stays : Bool) (i : ℕ) (removed items : List α) : List α × List α :=
  if h : i < items.length then
    if p items[i] then
      removeLoop stays (bif stays then i else i + 1) (removed ++ [items[i]]) (items.eraseIdx i)
    else removeLoop stays (i + 1) removed items
  else (removed, items)
termination_by items.length - i
decreasing_by
  · rw [List.length_eraseIdx_of_lt h]
    cases stays <;> simp only [cond_true, cond_false] <;> omega
  · omega

/-- The elements that a loop which does not stay removes. -/
def removedStepping : List α → List α
  | [] => []
  | item :: rest =>
    if p item then
      match rest with
      | [] => [item]
      | _ :: rest => item :: removedStepping rest
    else removedStepping rest

/-- The elements that a loop which does not stay leaves. -/
def keptStepping : List α → List α
  | [] => []
  | item :: rest =>
    if p item then
      match rest with
      | [] => []
      | next :: rest => next :: keptStepping rest
    else item :: keptStepping rest

variable {p}

theorem drop_eraseIdx_self {items : List α} {i : ℕ} (h : i < items.length) :
    (items.eraseIdx i).drop i = items.drop (i + 1) := by
  have htake : (items.take i).length = i := List.length_take_of_le (le_of_lt h)
  rw [List.eraseIdx_eq_take_drop_succ, List.drop_append_of_le_length htake.ge,
    List.drop_of_length_le htake.le, List.nil_append]

theorem take_eraseIdx_self {items : List α} {i : ℕ} (h : i < items.length) :
    (items.eraseIdx i).take i = items.take i := by
  have htake : (items.take i).length = i := List.length_take_of_le (le_of_lt h)
  rw [List.eraseIdx_eq_take_drop_succ, List.take_append_of_le_length htake.ge,
    List.take_of_length_le htake.le]

/-- A loop that stays removes the elements it is to remove, in their order. -/
theorem removeLoop_stays (i : ℕ) (removed items : List α) :
    removeLoop p true i removed items =
      (removed ++ (items.drop i).filter p,
        items.take i ++ (items.drop i).filter fun item ↦ !p item) := by
  fun_induction removeLoop p true i removed items with
  | case1 i removed items h hp ih =>
    simp only [cond_true] at ih ⊢
    rw [ih, drop_eraseIdx_self h, take_eraseIdx_self h, List.drop_eq_getElem_cons h,
      List.filter_cons_of_pos hp, List.filter_cons_of_neg (by simp [hp]), List.append_assoc,
      List.singleton_append]
  | case2 i removed items h hp ih =>
    rw [ih, List.drop_eq_getElem_cons h, List.filter_cons_of_neg hp,
      List.filter_cons_of_pos (by simp [hp]), ← List.take_concat_get' items i h,
      List.append_assoc, List.singleton_append]
  | case3 i removed items h =>
    rw [List.drop_eq_nil_of_le (by omega), List.take_of_length_le (by omega)]
    simp

theorem removedStepping_cons_of_pos {item : α} (h : p item = true) (rest : List α) :
    removedStepping p (item :: rest) = item :: removedStepping p rest.tail := by
  cases rest <;> simp [removedStepping, h]

theorem keptStepping_cons_of_pos {item : α} (h : p item = true) (rest : List α) :
    keptStepping p (item :: rest) = rest.head?.toList ++ keptStepping p rest.tail := by
  cases rest <;> simp [keptStepping, h]

theorem removedStepping_cons_of_neg {item : α} (h : ¬ p item = true) (rest : List α) :
    removedStepping p (item :: rest) = removedStepping p rest := by
  cases rest <;> simp [removedStepping, h]

theorem keptStepping_cons_of_neg {item : α} (h : ¬ p item = true) (rest : List α) :
    keptStepping p (item :: rest) = item :: keptStepping p rest := by
  cases rest <;> simp [keptStepping, h]

/-- A loop that does not stay passes over the element behind each one that it removes. -/
theorem removeLoop_steps (i : ℕ) (removed items : List α) :
    removeLoop p false i removed items =
      (removed ++ removedStepping p (items.drop i),
        items.take i ++ keptStepping p (items.drop i)) := by
  fun_induction removeLoop p false i removed items with
  | case1 i removed items h hp ih =>
    simp only [cond_false] at ih ⊢
    have hgap : (items.eraseIdx i).drop (i + 1) = (items.drop (i + 1)).tail := by
      rw [← List.tail_drop, drop_eraseIdx_self h]
    have hkept : (items.eraseIdx i).take (i + 1) =
        items.take i ++ (items.drop (i + 1)).head?.toList := by
      rw [List.take_add_one, take_eraseIdx_self h, ← List.head?_drop, drop_eraseIdx_self h]
    rw [ih, hgap, hkept, List.drop_eq_getElem_cons h, removedStepping_cons_of_pos hp,
      keptStepping_cons_of_pos hp]
    simp only [List.append_assoc, List.singleton_append]
  | case2 i removed items h hp ih =>
    rw [ih, List.drop_eq_getElem_cons h, removedStepping_cons_of_neg hp,
      keptStepping_cons_of_neg hp, ← List.take_concat_get' items i h, List.append_assoc,
      List.singleton_append]
  | case3 i removed items h =>
    rw [List.drop_eq_nil_of_le (by omega), List.take_of_length_le (by omega)]
    simp [removedStepping, keptStepping]

/-- Where no two neighbours are to be removed, both loops do the same; elsewhere one is left. -/
theorem keptStepping_eq_filter_iff {items : List α} :
    keptStepping p items = items.filter (fun item ↦ !p item) ↔
      items.IsChain fun item next ↦ ¬ (p item = true ∧ p next = true) := by
  fun_induction keptStepping p items with
  | case1 => simp
  | case2 item hp => simp [hp]
  | case3 item hp next rest ih =>
    by_cases hnext : p next = true
    · have hfilter : (item :: next :: rest).filter (fun item ↦ !p item) =
          rest.filter fun item ↦ !p item := by
        simp [hp, hnext]
      rw [hfilter, List.isChain_cons_cons]
      constructor
      · intro heq
        have hmem : next ∈ rest.filter fun item ↦ !p item := by
          rw [← heq]
          exact List.mem_cons_self
        simpa [hnext] using (List.mem_filter.1 hmem).2
      · intro hchain
        exact absurd ⟨hp, hnext⟩ hchain.1
    · have hfilter : (item :: next :: rest).filter (fun item ↦ !p item) =
          next :: rest.filter fun item ↦ !p item := by
        simp [hp, hnext]
      rw [hfilter, List.cons_inj_right, ih, List.isChain_cons_cons, List.isChain_cons]
      constructor
      · intro hchain
        exact ⟨fun hboth ↦ hnext hboth.2, fun _ _ hboth ↦ hnext hboth.1, hchain⟩
      · intro hchain
        exact hchain.2.2
  | case4 item rest hp ih =>
    rw [List.filter_cons_of_pos (by simp [hp]), List.cons_inj_right, ih, List.isChain_cons]
    constructor
    · intro hchain
      exact ⟨fun _ _ hboth ↦ hp hboth.1, hchain⟩
    · intro hchain
      exact hchain.2

end Brutal.Lib
