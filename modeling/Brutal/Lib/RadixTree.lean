import Mathlib.Algebra.Group.Int.Defs
import Mathlib.Algebra.Group.Nat.Defs
import Mathlib.Algebra.Order.Group.Nat
import Mathlib.Data.List.Basic
import Mathlib.Data.Nat.Basic

/-!
# Trees of a fixed fan-out

A tree of nodes with `p` children each, whose leaves are numbered from left to right.  `leafAt` and
`pathTo` follow the digits of a number in base `p`.  `readLeaves` goes down the tree in the order of
the leaves and rounds a bound on their number up at each level; it finds the first `m` leaves
exactly when `m` is a multiple of the power of `p` that is next below it.
-/

namespace Brutal.Lib.RadixTree

variable {α : Type*} (child : α → ℕ → α) (p : ℕ)

/-- The leaf with number `i` below a node at a height. -/
def leafAt : ℕ → α → ℕ → α
  | 0, node, _ => node
  | height + 1, node, i => leafAt height (child node (i / p ^ height)) (i % p ^ height)

/-- The inner nodes from a node to the leaf with number `i`. -/
def pathTo : ℕ → α → ℕ → List α
  | 0, _, _ => []
  | height + 1, node, i =>
    node :: pathTo height (child node (i / p ^ height)) (i % p ^ height)

/-- The number of subtrees of a height that have `m` leaves together, if there are so many. -/
def kids (m height : ℕ) : ℕ := min ((m + p ^ height - 1) / p ^ height) p

/-- The leaves that are read for the bound `m`. -/
def readLeaves (m : ℕ) : ℕ → α → List α
  | 0, node => [node]
  | height + 1, node =>
    (List.range (kids p m height)).flatMap fun k ↦ readLeaves m height (child node k)

/-- The inner nodes that are read for the bound `m`. -/
def readNodes (m : ℕ) : ℕ → α → List α
  | 0, _ => []
  | height + 1, node =>
    node :: (List.range (kids p m height)).flatMap fun k ↦ readNodes m height (child node k)

/-- The number of leaves that are read. -/
def readCount (m : ℕ) : ℕ → ℕ
  | 0 => 1
  | height + 1 => kids p m height * readCount m height

/-- The bound fills at most `p` subtrees of one height. -/
def EvenlyFilled (height m : ℕ) : Prop := ∃ j < height, p ^ j ∣ m ∧ m ≤ p ^ (j + 1)

instance (height m : ℕ) : Decidable (EvenlyFilled p height m) :=
  inferInstanceAs (Decidable (∃ j < height, p ^ j ∣ m ∧ m ≤ p ^ (j + 1)))

variable {child p} {m height : ℕ} {node : α}

/-- Rows of the same length, one after another. -/
theorem flatMap_range (rows : ℕ) {width : ℕ} (hwidth : 0 < width) (f : ℕ → ℕ → α) :
    (List.range rows).flatMap (fun k ↦ (List.range width).map (f k)) =
      (List.range (rows * width)).map fun i ↦ f (i / width) (i % width) := by
  induction rows with
  | zero => rw [Nat.zero_mul]; rfl
  | succ rows ih =>
    rw [List.range_succ, List.flatMap_append, List.flatMap_singleton, ih, Nat.succ_mul,
      List.range_add, List.map_append, List.map_map]
    congr 1
    apply List.map_congr_left
    intro i hi
    rw [List.mem_range] at hi
    rw [Function.comp_apply, Nat.mul_comm rows width, Nat.mul_add_div hwidth,
      Nat.div_eq_of_lt hi, Nat.mul_add_mod, Nat.mod_eq_of_lt hi, Nat.add_zero]

theorem length_readLeaves (m : ℕ) (height : ℕ) (node : α) :
    (readLeaves child p m height node).length = readCount p m height := by
  induction height generalizing node with
  | zero => rfl
  | succ height ih =>
    rw [readLeaves, List.length_flatMap, readCount]
    rw [List.map_congr_left fun k _ ↦ ih (child node k), List.map_const',
    List.sum_replicate_nat, List.length_range]

theorem leafAt_first {i : ℕ} (hi : i < p ^ height) (node : α) :
    leafAt child p (height + 1) node i = leafAt child p height (child node 0) i := by
  rw [leafAt, Nat.div_eq_of_lt hi, Nat.mod_eq_of_lt hi]

theorem pathTo_first {i : ℕ} (hi : i < p ^ height) (node : α) :
    pathTo child p (height + 1) node i = node :: pathTo child p height (child node 0) i := by
  rw [pathTo, Nat.div_eq_of_lt hi, Nat.mod_eq_of_lt hi]

theorem EvenlyFilled.of_succ (h : EvenlyFilled p (height + 2) m) (hpos : 0 < m)
    (hm : m ≤ p ^ (height + 1)) : EvenlyFilled p (height + 1) m := by
  obtain ⟨j, hj, hdvd, hle⟩ := h
  rcases Nat.lt_or_eq_of_le (Nat.le_of_lt_succ hj) with hlt | rfl
  · exact ⟨j, hlt, hdvd, hle⟩
  · have heq : m = p ^ (height + 1) := Nat.le_antisymm hm (Nat.le_of_dvd hpos hdvd)
    exact ⟨height, Nat.lt_succ_self _, heq ▸ Nat.pow_dvd_pow p (Nat.le_succ height), hm⟩

section Positive

variable (hp : 0 < p)

include hp

theorem roundUp_le_iff {k : ℕ} : (m + p ^ height - 1) / p ^ height ≤ k ↔ m ≤ k * p ^ height := by
  have hpos : 0 < p ^ height := Nat.pow_pos hp
  rw [Nat.div_le_iff_le_mul_add_pred hpos, Nat.mul_comm (p ^ height) k]
  omega

theorem kids_full (hm : p ^ (height + 1) ≤ m) : kids p m height = p := by
  apply Nat.min_eq_right
  by_contra hlt
  have hle := (roundUp_le_iff hp).mp (Nat.le_pred_of_lt (Nat.lt_of_not_le hlt))
  have hpos : 0 < p ^ height := Nat.pow_pos hp
  rw [Nat.pow_succ] at hm
  have hpred : (p - 1) * p ^ height + p ^ height = p ^ height * p := by
    rw [← Nat.succ_mul, Nat.succ_eq_add_one, Nat.sub_add_cancel hp, Nat.mul_comm]
  have hsame : p.pred = p - 1 := rfl
  rw [hsame] at hle
  omega

theorem kids_one (hpos : 0 < m) (hm : m ≤ p ^ height) : kids p m height = 1 := by
  have hupper : (m + p ^ height - 1) / p ^ height ≤ 1 := by
    rw [roundUp_le_iff hp, Nat.one_mul]
    exact hm
  have hlower : ¬ (m + p ^ height - 1) / p ^ height ≤ 0 := by
    rw [roundUp_le_iff hp, Nat.zero_mul]
    omega
  rw [kids]
  omega

theorem kids_mul {q : ℕ} (hq : q ≤ p) (hm : m = q * p ^ height) : kids p m height = q := by
  have hpos : 0 < p ^ height := Nat.pow_pos hp
  have hround : (m + p ^ height - 1) / p ^ height = q := by
    apply Nat.le_antisymm
    · exact (roundUp_le_iff hp).mpr (Nat.le_of_eq hm)
    · rw [Nat.le_div_iff_mul_le hpos]
      omega
  rw [kids, hround]
  exact Nat.min_eq_left hq

/-- A subtree that the bound covers is read as a whole. -/
theorem readLeaves_full (hm : p ^ height ≤ m) (node : α) :
    readLeaves child p m height node =
      (List.range (p ^ height)).map (leafAt child p height node) := by
  induction height generalizing node with
  | zero => rfl
  | succ height ih =>
    have hpos : 0 < p ^ height := Nat.pow_pos hp
    have hchild : p ^ height ≤ m :=
      Nat.le_trans (Nat.pow_le_pow_right hp (Nat.le_succ height)) hm
    have hrows := flatMap_range p hpos fun k ↦ leafAt child p height (child node k)
    calc
      readLeaves child p m (height + 1) node
        = (List.range p).flatMap fun k ↦ readLeaves child p m height (child node k) := by
          rw [readLeaves, kids_full hp hm]
      _ = (List.range p).flatMap fun k ↦
            (List.range (p ^ height)).map (leafAt child p height (child node k)) := by
          simp only [ih hchild]
      _ = (List.range (p ^ (height + 1))).map (leafAt child p (height + 1) node) := by
          rw [hrows, Nat.mul_comm, ← Nat.pow_succ]
          rfl

/-- The bound is a number of whole subtrees, or it lies in the first one. -/
theorem EvenlyFilled.cases (h : EvenlyFilled p (height + 1) m) (hpos : 0 < m) :
    (m ≤ p ^ height ∧ (height = 0 ∨ EvenlyFilled p height m)) ∨
      ∃ q, 1 < q ∧ q ≤ p ∧ m = q * p ^ height := by
  by_cases hm : m ≤ p ^ height
  · cases height with
    | zero => exact Or.inl ⟨hm, Or.inl rfl⟩
    | succ height => exact Or.inl ⟨hm, Or.inr (h.of_succ hpos hm)⟩
  · obtain ⟨j, hj, hdvd, hle⟩ := h
    have heq : j = height := by
      by_contra hne
      have hlt : j + 1 ≤ height := by omega
      exact hm (Nat.le_trans hle (Nat.pow_le_pow_right hp hlt))
    subst heq
    obtain ⟨q, rfl⟩ := hdvd
    have hpower : 0 < p ^ j := Nat.pow_pos hp
    refine Or.inr ⟨q, ?_, ?_, Nat.mul_comm _ _⟩
    · by_contra hq
      exact hm (Nat.le_trans (Nat.mul_le_mul_left _ (Nat.le_of_not_lt hq)) (Nat.mul_one _).le)
    · rw [Nat.pow_succ] at hle
      exact Nat.le_of_mul_le_mul_left hle hpower

/-- Evenly filled subtrees are read exactly. -/
theorem readLeaves_exact (h : EvenlyFilled p height m) (hpos : 0 < m) (node : α) :
    readLeaves child p m height node = (List.range m).map (leafAt child p height node) := by
  induction height generalizing node with
  | zero =>
    obtain ⟨j, hj, -⟩ := h
    exact absurd hj (Nat.not_lt_zero j)
  | succ height ih =>
    rcases h.cases hp hpos with ⟨hm, hlower⟩ | ⟨q, hone, hq, hmul⟩
    · have hfirst : readLeaves child p m height (child node 0) =
          (List.range m).map (leafAt child p height (child node 0)) := by
        rcases hlower with rfl | heven
        · have hone : m = 1 := Nat.le_antisymm hm hpos
          rw [hone]
          rfl
        · exact ih heven (child node 0)
      rw [readLeaves, kids_one hp hpos hm, List.range_one, List.flatMap_singleton, hfirst]
      apply List.map_congr_left
      intro i hi
      rw [leafAt_first (Nat.lt_of_lt_of_le (List.mem_range.mp hi) hm)]
    · have hpower : 0 < p ^ height := Nat.pow_pos hp
      have hchild : p ^ height ≤ m := by
        rw [hmul]
        exact Nat.le_mul_of_pos_left _ (by omega)
      have hrows := flatMap_range q hpower fun k ↦ leafAt child p height (child node k)
      rw [readLeaves, kids_mul hp hq hmul]
      simp only [readLeaves_full hp hchild]
      rw [hrows, ← hmul]
      rfl

theorem readCount_full (hm : p ^ height ≤ m) : readCount p m height = p ^ height := by
  induction height with
  | zero => rfl
  | succ height ih =>
    have hchild : p ^ height ≤ m :=
      Nat.le_trans (Nat.pow_le_pow_right hp (Nat.le_succ height)) hm
    rw [readCount, kids_full hp hm, ih hchild, Nat.mul_comm, ← Nat.pow_succ]

/-- Only evenly filled subtrees are read exactly. -/
theorem evenlyFilled_of_readCount (hpos : 0 < m) (hm : m ≤ p ^ (height + 1))
    (hcount : readCount p m (height + 1) = m) : EvenlyFilled p (height + 1) m := by
  induction height with
  | zero => exact ⟨0, Nat.zero_lt_one, Nat.one_dvd m, hm⟩
  | succ height ih =>
    by_cases hsmall : m ≤ p ^ (height + 1)
    · rw [readCount, kids_one hp hpos hsmall, Nat.one_mul] at hcount
      obtain ⟨j, hj, hfilled⟩ := ih hsmall hcount
      exact ⟨j, Nat.lt_succ_of_lt hj, hfilled⟩
    · rw [readCount, readCount_full hp (Nat.le_of_not_le hsmall)] at hcount
      exact ⟨height + 1, Nat.lt_succ_self _, ⟨_, (Nat.mul_comm _ _).trans hcount |>.symm⟩, hm⟩

/-- The nodes on the way to the leaves of some of the subtrees. -/
theorem exists_mem_pathTo {q : ℕ} (hq : 0 < q) {node other : α} :
    (∃ i < q * p ^ height, other ∈ pathTo child p (height + 1) node i) ↔
      other = node ∨ ∃ k < q, ∃ i < p ^ height, other ∈ pathTo child p height (child node k) i := by
  have hpower : 0 < p ^ height := Nat.pow_pos hp
  constructor
  · rintro ⟨i, hi, hmem⟩
    rcases List.mem_cons.mp hmem with heq | hpath
    · exact Or.inl heq
    · exact Or.inr ⟨i / p ^ height, (Nat.div_lt_iff_lt_mul hpower).mpr hi, i % p ^ height,
        Nat.mod_lt i hpower, hpath⟩
  · rintro (rfl | ⟨k, hk, i, hi, hpath⟩)
    · exact ⟨0, Nat.mul_pos hq hpower, List.mem_cons_self⟩
    · refine ⟨p ^ height * k + i, ?_, List.mem_cons_of_mem _ ?_⟩
      · have hrow : p ^ height * (k + 1) ≤ p ^ height * q := Nat.mul_le_mul_left _ hk
        rw [Nat.mul_succ] at hrow
        rw [Nat.mul_comm q]
        omega
      · rw [Nat.mul_add_div hpower, Nat.div_eq_of_lt hi, Nat.mul_add_mod, Nat.mod_eq_of_lt hi]
        exact hpath

/-- In a subtree that the bound covers, the nodes on the way to a leaf are read, and no others. -/
theorem mem_readNodes_full (hm : p ^ height ≤ m) {node other : α} :
    other ∈ readNodes child p m height node ↔
      ∃ i < p ^ height, other ∈ pathTo child p height node i := by
  induction height generalizing node with
  | zero =>
    refine iff_of_false List.not_mem_nil ?_
    rintro ⟨i, -, hmem⟩
    exact List.not_mem_nil hmem
  | succ height ih =>
    have hchild : p ^ height ≤ m :=
      Nat.le_trans (Nat.pow_le_pow_right hp (Nat.le_succ height)) hm
    rw [readNodes, kids_full hp hm, List.mem_cons, List.mem_flatMap, Nat.pow_succ, Nat.mul_comm,
      exists_mem_pathTo hp hp]
    simp only [List.mem_range, ih hchild]

/-- In evenly filled subtrees the nodes on the way to one of the leaves are read, and no others. -/
theorem mem_readNodes_exact (h : EvenlyFilled p height m) (hpos : 0 < m) {node other : α} :
    other ∈ readNodes child p m height node ↔
      ∃ i < m, other ∈ pathTo child p height node i := by
  induction height generalizing node with
  | zero =>
    obtain ⟨j, hj, -⟩ := h
    exact absurd hj (Nat.not_lt_zero j)
  | succ height ih =>
    rcases h.cases hp hpos with ⟨hm, hlower⟩ | ⟨q, hone, hq, hmul⟩
    · have hfirst : other ∈ readNodes child p m height (child node 0) ↔
          ∃ i < m, other ∈ pathTo child p height (child node 0) i := by
        rcases hlower with rfl | heven
        · refine iff_of_false List.not_mem_nil ?_
          rintro ⟨i, -, hmem⟩
          exact List.not_mem_nil hmem
        · exact ih heven
      rw [readNodes, kids_one hp hpos hm, List.range_one, List.flatMap_singleton, List.mem_cons,
        hfirst]
      constructor
      · rintro (rfl | ⟨i, hi, hmem⟩)
        · exact ⟨0, hpos, List.mem_cons_self⟩
        · refine ⟨i, hi, ?_⟩
          rw [pathTo_first (Nat.lt_of_lt_of_le hi hm)]
          exact List.mem_cons_of_mem _ hmem
      · rintro ⟨i, hi, hmem⟩
        rw [pathTo_first (Nat.lt_of_lt_of_le hi hm)] at hmem
        rcases List.mem_cons.mp hmem with heq | hpath
        · exact Or.inl heq
        · exact Or.inr ⟨i, hi, hpath⟩
    · have hsome : 0 < q := Nat.lt_of_succ_lt hone
      have hchild : p ^ height ≤ m := by
        rw [hmul]
        exact Nat.le_mul_of_pos_left _ hsome
      rw [readNodes, kids_mul hp hq hmul, List.mem_cons, List.mem_flatMap]
      simp only [List.mem_range, mem_readNodes_full hp hchild]
      rw [hmul, exists_mem_pathTo hp hsome]

end Positive

end Brutal.Lib.RadixTree
