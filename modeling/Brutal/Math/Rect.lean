import Mathlib.Algebra.Order.Group.Int
import Mathlib.Data.Set.Lattice
import Mathlib.Order.CompletePartialOrder
import Mathlib.Tactic.Common

/-!
# Rectangles

`libs/brutal-math/rect.h` and the vectors of `vec2.h`.  The coordinates are a parameter where a
function only adds and compares them; where it takes rectangles apart they are integers, on which
the arithmetic of the source is exact.
-/

namespace Brutal.Math

/-- `MVec2f` -/
@[ext]
structure MVec2f (κ : Type) where
  x : κ
  y : κ
deriving DecidableEq, Repr

/-- `MRectf` -/
@[ext]
structure MRectf (κ : Type) where
  x : κ
  y : κ
  width : κ
  height : κ
deriving DecidableEq, Repr

section Coordinates

variable {κ : Type}

def MRectf.pos (rect : MRectf κ) : MVec2f κ := ⟨rect.x, rect.y⟩

/-- `m_vec2f_add` -/
def mVec2fAdd [Add κ] (a b : MVec2f κ) : MVec2f κ := ⟨a.x + b.x, a.y + b.y⟩

/-- `m_vec2f_sub` -/
def mVec2fSub [Sub κ] (a b : MVec2f κ) : MVec2f κ := ⟨a.x - b.x, a.y - b.y⟩

/-- `m_vec2f_len_squared` -/
def mVec2fLenSquared [Add κ] [Mul κ] (vec : MVec2f κ) : κ := vec.x * vec.x + vec.y * vec.y

/-- `m_rectf_collide_point` -/
def mRectfCollidePoint [Add κ] [LE κ] [LT κ] (rect : MRectf κ) (p : MVec2f κ) : Prop :=
  rect.x + rect.width > p.x ∧ rect.x ≤ p.x ∧ rect.y + rect.height > p.y ∧ rect.y ≤ p.y

instance [Add κ] [LE κ] [LT κ] [DecidableLE κ] [DecidableLT κ] (rect : MRectf κ) (p : MVec2f κ) :
    Decidable (mRectfCollidePoint rect p) :=
  inferInstanceAs (Decidable (_ ∧ _))

end Coordinates

/-- `m_rectf_empty` -/
def mRectfEmpty (rect : MRectf ℤ) : Prop := rect.width = 0 ∨ rect.height = 0

instance (rect : MRectf ℤ) : Decidable (mRectfEmpty rect) := inferInstanceAs (Decidable (_ ∨ _))

/-- `m_rectf_collide_rect` -/
def mRectfCollideRect (recta rectb : MRectf ℤ) : Prop :=
  recta.x < rectb.x + rectb.width ∧ recta.x + recta.width > rectb.x ∧
    recta.y < rectb.y + rectb.height ∧ recta.height + recta.y > rectb.y

instance (recta rectb : MRectf ℤ) : Decidable (mRectfCollideRect recta rectb) :=
  inferInstanceAs (Decidable (_ ∧ _))

/-- `m_rectf_from_points` -/
def mRectfFromPoints (a b : MVec2f ℤ) : MRectf ℤ :=
  ⟨min a.x b.x, min a.y b.y, max a.x b.x - min a.x b.x, max a.y b.y - min a.y b.y⟩

/-- `m_rectf_clip_rect` -/
def mRectfClipRect (recta rectb : MRectf ℤ) : MRectf ℤ :=
  if mRectfCollideRect recta rectb then
    let p0 : MVec2f ℤ := ⟨max recta.x rectb.x, max recta.y rectb.y⟩
    let p1 : MVec2f ℤ := ⟨min (recta.x + recta.width) (rectb.x + rectb.width),
      min (recta.y + recta.height) (rectb.y + rectb.height)⟩
    mRectfFromPoints p0 p1
  else ⟨0, 0, 0, 0⟩

/-- `m_rectf_substract` -/
def mRectfSubstract (rect sub : MRectf ℤ) : List (MRectf ℤ) :=
  if mRectfCollideRect rect sub then
    let sub := mRectfClipRect rect sub
    let t0 : MRectf ℤ := ⟨rect.x, rect.y, sub.x - rect.x, rect.height⟩
    let t1 : MRectf ℤ :=
      ⟨sub.x + sub.width, rect.y, rect.x + rect.width - sub.x - sub.width, rect.height⟩
    let t2 : MRectf ℤ := ⟨t0.x + t0.width, rect.y, t1.x - t0.x - t0.width, sub.y - rect.y⟩
    let t3 : MRectf ℤ := ⟨t0.x + t0.width, sub.y + sub.height, t1.x - t0.x - t0.width,
      rect.y + rect.height - sub.y - sub.height⟩
    [t0, t1, t2, t3]
  else [rect, ⟨0, 0, 0, 0⟩, ⟨0, 0, 0, 0⟩, ⟨0, 0, 0, 0⟩]

/-- `m_rectf_clamp_vec2` -/
def mRectfClampVec2 (rect : MRectf ℤ) (vec : MVec2f ℤ) : MVec2f ℤ :=
  ⟨min (rect.x + rect.width) (max rect.x vec.x), min (rect.y + rect.height) (max rect.y vec.y)⟩

/-- The pixels of a rectangle. -/
def MRectf.pixels (rect : MRectf ℤ) : Set (ℤ × ℤ) :=
  {p | rect.x ≤ p.1 ∧ p.1 < rect.x + rect.width ∧ rect.y ≤ p.2 ∧ p.2 < rect.y + rect.height}

/-- The rectangle has no negative size. -/
structure Sized (rect : MRectf ℤ) : Prop where
  width : 0 ≤ rect.width
  height : 0 ≤ rect.height

variable {rect sub : MRectf ℤ}

theorem mRectfCollideRect_comm {recta rectb : MRectf ℤ} :
    mRectfCollideRect recta rectb ↔ mRectfCollideRect rectb recta := by
  simp only [mRectfCollideRect]
  omega

/-- Rectangles that do not collide have no pixel in common. -/
theorem disjoint_pixels {recta rectb : MRectf ℤ} (h : ¬ mRectfCollideRect recta rectb) :
    Disjoint recta.pixels rectb.pixels := by
  rw [Set.disjoint_left]
  intro p ha hb
  apply h
  obtain ⟨hx, hx', hy, hy'⟩ := ha
  obtain ⟨hbx, hbx', hby, hby'⟩ := hb
  exact ⟨by omega, by omega, by omega, by omega⟩

theorem pixels_of_empty (h : mRectfEmpty rect) : rect.pixels = ∅ := by
  apply Set.eq_empty_of_forall_notMem
  rintro p ⟨hx, hx', hy, hy'⟩
  rcases h with h | h <;> omega

/-- The common part of two rectangles that collide. -/
theorem clipRect_of_collide (hrect : Sized rect) (hsub : Sized sub)
    (h : mRectfCollideRect rect sub) :
    mRectfClipRect rect sub = ⟨max rect.x sub.x, max rect.y sub.y,
      min (rect.x + rect.width) (sub.x + sub.width) - max rect.x sub.x,
      min (rect.y + rect.height) (sub.y + sub.height) - max rect.y sub.y⟩ := by
  obtain ⟨hwidth, hheight⟩ := hrect
  obtain ⟨hwidth', hheight'⟩ := hsub
  obtain ⟨hx, hx', hy, hy'⟩ := h
  have hlex : max rect.x sub.x ≤ min (rect.x + rect.width) (sub.x + sub.width) := by omega
  have hley : max rect.y sub.y ≤ min (rect.y + rect.height) (sub.y + sub.height) := by omega
  rw [mRectfClipRect, if_pos ⟨hx, hx', hy, hy'⟩]
  dsimp only
  rw [mRectfFromPoints, min_eq_left hlex, min_eq_left hley, max_eq_right hlex, max_eq_right hley]

/-- What is left of a rectangle, to the left, to the right, above and below of the other one. -/
theorem substract_of_collide (hrect : Sized rect) (hsub : Sized sub)
    (h : mRectfCollideRect rect sub) :
    ∃ left right top bottom, mRectfSubstract rect sub =
        [⟨rect.x, rect.y, left - rect.x, rect.height⟩,
          ⟨right, rect.y, rect.x + rect.width - right, rect.height⟩,
          ⟨left, rect.y, right - left, top - rect.y⟩,
          ⟨left, bottom, right - left, rect.y + rect.height - bottom⟩] ∧
      left = max rect.x sub.x ∧ right = min (rect.x + rect.width) (sub.x + sub.width) ∧
        top = max rect.y sub.y ∧ bottom = min (rect.y + rect.height) (sub.y + sub.height) := by
  refine ⟨_, _, _, _, ?_, rfl, rfl, rfl, rfl⟩
  rw [mRectfSubstract, if_pos h, clipRect_of_collide hrect hsub h]
  simp only [List.cons.injEq, MRectf.mk.injEq, true_and, and_true]
  omega

/-- A piece that is not empty is smaller than the rectangle that was taken apart. -/
theorem sized_of_mem_substract (hrect : Sized rect) (hsub : Sized sub)
    (h : mRectfCollideRect rect sub) {piece : MRectf ℤ}
    (hpiece : piece ∈ mRectfSubstract rect sub) :
    Sized piece ∧
      (¬ mRectfEmpty piece → piece.width + piece.height < rect.width + rect.height) := by
  obtain ⟨left, right, top, bottom, heq, hleft, hright, htop, hbottom⟩ :=
    substract_of_collide hrect hsub h
  obtain ⟨hwidth, hheight⟩ := hrect
  obtain ⟨hwidth', hheight'⟩ := hsub
  obtain ⟨hx, hx', hy, hy'⟩ := h
  rw [heq] at hpiece
  simp only [List.mem_cons, List.not_mem_nil, or_false] at hpiece
  simp only [mRectfEmpty, not_or]
  rcases hpiece with rfl | rfl | rfl | rfl
  · exact ⟨⟨by dsimp only; omega, by dsimp only; omega⟩, by dsimp only; omega⟩
  · exact ⟨⟨by dsimp only; omega, by dsimp only; omega⟩, by dsimp only; omega⟩
  · exact ⟨⟨by dsimp only; omega, by dsimp only; omega⟩, by dsimp only; omega⟩
  · exact ⟨⟨by dsimp only; omega, by dsimp only; omega⟩, by dsimp only; omega⟩

/-- The pieces have the pixels of the rectangle that the other one does not have. -/
theorem pixels_substract (hrect : Sized rect) (hsub : Sized sub) (h : mRectfCollideRect rect sub) :
    ⋃ piece ∈ mRectfSubstract rect sub, piece.pixels = rect.pixels \ sub.pixels := by
  obtain ⟨left, right, top, bottom, heq, hleft, hright, htop, hbottom⟩ :=
    substract_of_collide hrect hsub h
  obtain ⟨hwidth, hheight⟩ := hrect
  obtain ⟨hwidth', hheight'⟩ := hsub
  obtain ⟨hx, hx', hy, hy'⟩ := h
  ext ⟨x, y⟩
  rw [heq]
  simp only [Set.mem_iUnion, List.mem_cons, List.not_mem_nil, or_false, exists_prop,
    exists_eq_or_imp, exists_eq_left, MRectf.pixels, Set.mem_sdiff, Set.mem_ofPred_eq]
  omega

/-- The first rectangle is a part of the second. -/
structure Within (piece rect : MRectf ℤ) : Prop where
  left : rect.x ≤ piece.x
  right : piece.x + piece.width ≤ rect.x + rect.width
  top : rect.y ≤ piece.y
  bottom : piece.y + piece.height ≤ rect.y + rect.height

theorem Within.refl (rect : MRectf ℤ) : Within rect rect :=
  ⟨Int.le_refl _, Int.le_refl _, Int.le_refl _, Int.le_refl _⟩

theorem Within.trans {first second third : MRectf ℤ} (h : Within first second)
    (h' : Within second third) : Within first third :=
  ⟨h'.left.trans h.left, h.right.trans h'.right, h'.top.trans h.top, h.bottom.trans h'.bottom⟩

/-- What meets a part meets the whole. -/
theorem Within.collide {piece other : MRectf ℤ} (h : Within piece rect)
    (hcollide : mRectfCollideRect other piece) : mRectfCollideRect other rect := by
  obtain ⟨hleft, hright, htop, hbottom⟩ := h
  obtain ⟨hx, hx', hy, hy'⟩ := hcollide
  exact ⟨by omega, by omega, by omega, by omega⟩

/-- The corner of a rectangle that is not empty. -/
theorem corner_mem_pixels (hrect : Sized rect) (h : ¬ mRectfEmpty rect) :
    (rect.x, rect.y) ∈ rect.pixels := by
  obtain ⟨hwidth, hheight⟩ := hrect
  obtain ⟨hwidth', hheight'⟩ := not_or.mp h
  refine ⟨Int.le_refl _, ?_, Int.le_refl _, ?_⟩
  · dsimp only
    omega
  · dsimp only
    omega

/-- A piece that is not empty is a part of the rectangle and does not meet the other one. -/
theorem within_of_mem_substract (hrect : Sized rect) (hsub : Sized sub)
    (h : mRectfCollideRect rect sub) {piece : MRectf ℤ}
    (hpiece : piece ∈ mRectfSubstract rect sub) :
    Within piece rect ∧ (¬ mRectfEmpty piece → ¬ mRectfCollideRect sub piece) := by
  obtain ⟨left, right, top, bottom, heq, hleft, hright, htop, hbottom⟩ :=
    substract_of_collide hrect hsub h
  obtain ⟨hwidth, hheight⟩ := hrect
  obtain ⟨hwidth', hheight'⟩ := hsub
  obtain ⟨hx, hx', hy, hy'⟩ := h
  rw [heq] at hpiece
  simp only [List.mem_cons, List.not_mem_nil, or_false] at hpiece
  simp only [mRectfEmpty, mRectfCollideRect, not_or]
  rcases hpiece with rfl | rfl | rfl | rfl
  · refine ⟨⟨?_, ?_, ?_, ?_⟩, ?_⟩ <;> dsimp only <;> omega
  · refine ⟨⟨?_, ?_, ?_, ?_⟩, ?_⟩ <;> dsimp only <;> omega
  · refine ⟨⟨?_, ?_, ?_, ?_⟩, ?_⟩ <;> dsimp only <;> omega
  · refine ⟨⟨?_, ?_, ?_, ?_⟩, ?_⟩ <;> dsimp only <;> omega

/-- The pieces do not meet one another. -/
theorem pairwise_substract (hrect : Sized rect) (hsub : Sized sub)
    (h : mRectfCollideRect rect sub) :
    (mRectfSubstract rect sub).Pairwise fun piece other ↦ ¬ mRectfCollideRect piece other := by
  obtain ⟨left, right, top, bottom, heq, hleft, hright, htop, hbottom⟩ :=
    substract_of_collide hrect hsub h
  obtain ⟨hwidth, hheight⟩ := hrect
  obtain ⟨hwidth', hheight'⟩ := hsub
  obtain ⟨hx, hx', hy, hy'⟩ := h
  rw [heq]
  simp only [List.pairwise_cons, List.mem_cons, List.not_mem_nil, or_false, forall_eq_or_imp,
    forall_eq, mRectfCollideRect]
  refine ⟨⟨?_, ?_, ?_⟩, ⟨?_, ?_⟩, ?_, fun _ h ↦ h.elim, List.Pairwise.nil⟩ <;>
    omega

end Brutal.Math
