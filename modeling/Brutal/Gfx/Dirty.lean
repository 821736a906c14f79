import Brutal.Ds.VecPush
import Brutal.Lib.Run
import Brutal.Math.Rect

/-!
# The damaged part of the screen

`libs/brutal-gfx/dirty.c`.  A rectangle that meets one of the list is taken apart around it, and the
pieces are added one after the other.  Every piece that is not empty is smaller than the rectangle
that it comes from, so that the recursion ends.  A full list drops what is pushed.
-/

namespace Brutal.Gfx

open Base Lib Math Ds.Growth

/-- `GfxDirty` -/
abbrev GfxDirty := List (MRectf ℤ)

/-- The bytes of a rectangle of the source. -/
def rectSize : ℕ := 16

/-- `gfx_dirty_rect`, with a bound on the depth of the recursion. -/
def gfxDirtyRect : ℕ → GfxDirty → MRectf ℤ → Except Fault GfxDirty
  | 0, _, _ => .error .depth
  | depth + 1, self, rect =>
    match self.find? fun dirty ↦ mRectfCollideRect dirty rect with
    | some dirty => (mRectfSubstract rect dirty).foldlM (fun self piece ↦
        if ¬ mRectfEmpty piece then gfxDirtyRect depth self piece else .ok self) self
    | none => .ok (vecPush rectSize self rect)

/-- A depth that is enough for a rectangle. -/
def depthOf (rect : MRectf ℤ) : ℕ := (rect.width + rect.height).toNat + 1

/-- The pixels of the listed rectangles. -/
def covered (self : List (MRectf ℤ)) : Set (ℤ × ℤ) := ⋃ rect ∈ self, rect.pixels

/-- The listed rectangles have no negative sizes and do not collide. -/
structure Separate (rects : GfxDirty) : Prop where
  sized : ∀ rect ∈ rects, Sized rect
  apart : rects.Pairwise fun recta rectb ↦ ¬ mRectfCollideRect recta rectb

variable {self : GfxDirty} {rect : MRectf ℤ} {depth : ℕ}

theorem covered_append (first second : List (MRectf ℤ)) :
    covered (first ++ second) = covered first ∪ covered second := by
  ext p
  simp only [covered, Set.mem_iUnion, List.mem_append, exists_prop, Set.mem_union, or_and_right,
    exists_or]

theorem covered_cons (rect : MRectf ℤ) (rest : List (MRectf ℤ)) :
    covered (rect :: rest) = rect.pixels ∪ covered rest := by
  ext p
  simp only [covered, Set.mem_iUnion, List.mem_cons, exists_prop, Set.mem_union, exists_eq_or_imp]

theorem covered_nil : covered [] = ∅ := by
  ext p
  simp only [covered, Set.mem_iUnion, List.not_mem_nil, exists_prop, false_and, exists_false,
    Set.mem_empty_iff_false]

theorem pixels_subset_covered (h : rect ∈ self) : rect.pixels ⊆ covered self :=
  Set.subset_biUnion_of_mem h

/-- The pieces that are pushed for a rectangle: what is left of it outside of the listed ones. -/
def outside : GfxDirty → MRectf ℤ → List (MRectf ℤ)
  | [], rect => [rect]
  | dirty :: rest, rect =>
    if mRectfCollideRect dirty rect then
      ((mRectfSubstract rect dirty).filter (¬ mRectfEmpty ·)).flatMap (outside rest)
    else outside rest rect

/-- What is left of a rectangle is a part of it. -/
theorem within_of_mem_outside (hself : ∀ dirty ∈ self, Sized dirty) (hrect : Sized rect)
    {piece : MRectf ℤ} (hpiece : piece ∈ outside self rect) : Sized piece ∧ Within piece rect := by
  induction self generalizing rect with
  | nil =>
    rw [outside, List.mem_singleton] at hpiece
    rw [hpiece]
    exact ⟨hrect, Within.refl rect⟩
  | cons dirty rest ih =>
    have hrest := fun other hother ↦ hself other (List.mem_cons_of_mem dirty hother)
    rw [outside] at hpiece
    split at hpiece
    next hcollide =>
      obtain ⟨first, hfirst, hpiece⟩ := List.mem_flatMap.mp hpiece
      obtain ⟨hfirst, -⟩ := List.mem_filter.mp hfirst
      have hmeet := mRectfCollideRect_comm.mp hcollide
      have hdirty := hself dirty List.mem_cons_self
      obtain ⟨hsized, -⟩ := sized_of_mem_substract hrect hdirty hmeet hfirst
      obtain ⟨hwithin, -⟩ := within_of_mem_substract hrect hdirty hmeet hfirst
      obtain ⟨hpiece, hpart⟩ := ih hrest hsized hpiece
      exact ⟨hpiece, hpart.trans hwithin⟩
    next => exact ih hrest hrect hpiece

/-- What is left of a rectangle meets none of the listed ones. -/
theorem not_collide_of_mem_outside (hself : ∀ dirty ∈ self, Sized dirty) (hrect : Sized rect)
    {piece : MRectf ℤ} (hpiece : piece ∈ outside self rect) :
    ∀ dirty ∈ self, ¬ mRectfCollideRect dirty piece := by
  induction self generalizing rect with
  | nil => exact fun dirty hdirty ↦ absurd hdirty List.not_mem_nil
  | cons dirty rest ih =>
    have hrest := fun other hother ↦ hself other (List.mem_cons_of_mem dirty hother)
    rw [List.forall_mem_cons]
    rw [outside] at hpiece
    split at hpiece
    next hcollide =>
      obtain ⟨first, hfirst, hpiece⟩ := List.mem_flatMap.mp hpiece
      obtain ⟨hfirst, hempty⟩ := List.mem_filter.mp hfirst
      have hmeet := mRectfCollideRect_comm.mp hcollide
      have hdirty := hself dirty List.mem_cons_self
      obtain ⟨hsized, -⟩ := sized_of_mem_substract hrect hdirty hmeet hfirst
      obtain ⟨-, happart⟩ := within_of_mem_substract hrect hdirty hmeet hfirst
      obtain ⟨-, hpart⟩ := within_of_mem_outside hrest hsized hpiece
      exact ⟨fun h ↦ happart (of_decide_eq_true hempty) (hpart.collide h), ih hrest hsized hpiece⟩
    next hfree =>
      obtain ⟨-, hpart⟩ := within_of_mem_outside hrest hrect hpiece
      exact ⟨fun h ↦ hfree (hpart.collide h), ih hrest hrect hpiece⟩

/-- What is left of the pieces of a rectangle does not collide when the pieces do not. -/
theorem pairwise_flatMap_outside (hself : ∀ dirty ∈ self, Sized dirty)
    (hone : ∀ rect, Sized rect →
      (outside self rect).Pairwise fun recta rectb ↦ ¬ mRectfCollideRect recta rectb)
    {pieces : List (MRectf ℤ)} (hpieces : Separate pieces) :
    (pieces.flatMap (outside self)).Pairwise fun recta rectb ↦ ¬ mRectfCollideRect recta rectb := by
  rw [List.pairwise_flatMap]
  refine ⟨fun piece hpiece ↦ hone piece (hpieces.sized piece hpiece), ?_⟩
  refine hpieces.apart.imp_of_mem fun {first second} hfirst hsecond h recta hrecta rectb hrectb ↦ ?_
  obtain ⟨-, hparta⟩ := within_of_mem_outside hself (hpieces.sized first hfirst) hrecta
  obtain ⟨-, hpartb⟩ := within_of_mem_outside hself (hpieces.sized second hsecond) hrectb
  intro hcollide
  exact h (mRectfCollideRect_comm.mp (hparta.collide
    (mRectfCollideRect_comm.mp (hpartb.collide hcollide))))

theorem separate_substract {dirty : MRectf ℤ} (hrect : Sized rect) (hdirty : Sized dirty)
    (hmeet : mRectfCollideRect rect dirty) (keep : MRectf ℤ → Bool) :
    Separate ((mRectfSubstract rect dirty).filter keep) :=
  ⟨fun _ hpiece ↦
    (sized_of_mem_substract hrect hdirty hmeet (List.mem_filter.mp hpiece).1).1,
    (pairwise_substract hrect hdirty hmeet).filter keep⟩

theorem pairwise_outside (hself : ∀ dirty ∈ self, Sized dirty) (hrect : Sized rect) :
    (outside self rect).Pairwise fun recta rectb ↦ ¬ mRectfCollideRect recta rectb := by
  induction self generalizing rect with
  | nil => exact List.pairwise_singleton _ _
  | cons dirty rest ih =>
    have hrest := fun other hother ↦ hself other (List.mem_cons_of_mem dirty hother)
    rw [outside]
    split
    next hcollide =>
      exact pairwise_flatMap_outside hrest (fun rect hrect ↦ ih hrest hrect)
        (separate_substract hrect (hself dirty List.mem_cons_self)
          (mRectfCollideRect_comm.mp hcollide) _)
    next => exact ih hrest hrect

/-- The pieces that are not empty have all of the pixels. -/
theorem covered_filter (pieces : List (MRectf ℤ)) :
    covered (pieces.filter (¬ mRectfEmpty ·)) = covered pieces := by
  induction pieces with
  | nil => rfl
  | cons piece rest ih =>
    rw [List.filter_cons, covered_cons, ← ih]
    split
    next => rw [covered_cons]
    next h =>
      rw [pixels_of_empty (not_not.mp fun hempty ↦ h (decide_eq_true hempty)), Set.empty_union]

/-- What is left of a rectangle has its pixels that are not covered. -/
theorem covered_outside (hself : ∀ dirty ∈ self, Sized dirty) (hrect : Sized rect) :
    covered (outside self rect) = rect.pixels \ covered self := by
  induction self generalizing rect with
  | nil => rw [outside, covered_cons, covered_nil, Set.union_empty, Set.sdiff_empty]
  | cons dirty rest ih =>
    have hrest := fun other hother ↦ hself other (List.mem_cons_of_mem dirty hother)
    have hdirty := hself dirty List.mem_cons_self
    rw [outside, covered_cons]
    split
    next hcollide =>
      have hmeet := mRectfCollideRect_comm.mp hcollide
      have hpieces : ∀ pieces : List (MRectf ℤ), (∀ piece ∈ pieces, Sized piece) →
          covered (pieces.flatMap (outside rest)) = covered pieces \ covered rest := by
        intro pieces hsized
        induction pieces with
        | nil => rw [List.flatMap_nil, covered_nil, Set.empty_sdiff]
        | cons piece pieces ih' =>
          rw [List.forall_mem_cons] at hsized
          rw [List.flatMap_cons, covered_append, covered_cons, ih hrest hsized.1, ih' hsized.2,
            Set.union_sdiff_distrib]
      rw [hpieces _ (separate_substract hrect hdirty hmeet _).sized, covered_filter,
        show covered (mRectfSubstract rect dirty) = _ from pixels_substract hrect hdirty hmeet,
        Set.sdiff_sdiff]
    next hfree =>
      have hapart := (disjoint_pixels hfree).symm.sdiff_eq_left
      rw [ih hrest hrect, ← Set.sdiff_sdiff, hapart]

theorem not_empty_of_mem_outside (hrect : ¬ mRectfEmpty rect) {piece : MRectf ℤ}
    (hpiece : piece ∈ outside self rect) : ¬ mRectfEmpty piece := by
  induction self generalizing rect with
  | nil =>
    rw [outside, List.mem_singleton] at hpiece
    rwa [hpiece]
  | cons dirty rest ih =>
    rw [outside] at hpiece
    split at hpiece
    next =>
      obtain ⟨first, hfirst, hpiece⟩ := List.mem_flatMap.mp hpiece
      exact ih (of_decide_eq_true (List.mem_filter.mp hfirst).2) hpiece
    next => exact ih hrect hpiece

/-- The pieces of a rectangle are added one after the other, each behind what was pushed for the
ones before it. -/
theorem foldlM_pieces {keep rest after : GfxDirty} (hrest : ∀ dirty ∈ rest, Sized dirty)
    {pieces : List (MRectf ℤ)} (hpieces : Separate pieces)
    (hkeep : ∀ piece ∈ pieces, ∀ dirty ∈ keep ++ after, ¬ mRectfCollideRect dirty piece)
    (hadd : ∀ piece ∈ pieces, ∀ after',
      (∀ dirty ∈ keep ++ after', ¬ mRectfCollideRect dirty piece) →
      gfxDirtyRect depth (keep ++ rest ++ after') piece =
        .ok ((outside rest piece).foldl (vecPush rectSize) (keep ++ rest ++ after'))) :
    pieces.foldlM (gfxDirtyRect depth) (keep ++ rest ++ after) =
      .ok ((pieces.flatMap (outside rest)).foldl (vecPush rectSize) (keep ++ rest ++ after)) := by
  induction pieces generalizing after with
  | nil => rfl
  | cons piece pieces ih =>
    have hsized := List.forall_mem_cons.mp hpieces.sized
    have hapart := List.pairwise_cons.mp hpieces.apart
    rw [List.forall_mem_cons] at hkeep hadd
    rw [List.foldlM_cons, hadd.1 after hkeep.1, ok_bind, List.flatMap_cons, List.foldl_append]
    rw [foldl_vecPush, List.append_assoc (keep ++ rest)]
    apply ih ⟨hsized.2, hapart.2⟩ _ hadd.2
    intro other hother dirty hdirty hcollide
    rw [← List.append_assoc] at hdirty
    rcases List.mem_append.mp hdirty with hold | hnew
    · exact hkeep.2 other hother dirty hold hcollide
    · obtain ⟨-, hpart⟩ := within_of_mem_outside hrest hsized.1 (List.mem_of_mem_take hnew)
      exact hapart.1 other hother (mRectfCollideRect_comm.mp
        (hpart.collide (mRectfCollideRect_comm.mp hcollide)))

/-- The empty pieces are left out. -/
theorem foldlM_filter (add : GfxDirty → MRectf ℤ → Except Fault GfxDirty)
    (pieces : List (MRectf ℤ)) (self : GfxDirty) :
    pieces.foldlM (fun self piece ↦ if ¬ mRectfEmpty piece then add self piece else .ok self) self =
      (pieces.filter (¬ mRectfEmpty ·)).foldlM add self := by
  induction pieces generalizing self with
  | nil => rfl
  | cons piece pieces ih =>
    rw [List.foldlM_cons, List.filter_cons]
    by_cases hempty : mRectfEmpty piece
    · rw [if_neg (not_not.mpr hempty), if_neg (by simpa using hempty), ok_bind, ih]
    · rw [if_pos hempty, if_pos (by simpa using hempty), List.foldlM_cons]
      exact congrArg _ (funext ih)

/-- A piece that is pushed instead of a rectangle is a smaller part of it. -/
theorem substract_piece {dirty piece : MRectf ℤ} (hrect : Sized rect) (hdirty : Sized dirty)
    (hmeet : mRectfCollideRect rect dirty) (hdepth : depthOf rect ≤ depth + 1)
    (hpiece : piece ∈ (mRectfSubstract rect dirty).filter (¬ mRectfEmpty ·)) :
    ¬ mRectfCollideRect dirty piece ∧ Within piece rect ∧ Sized piece ∧ depthOf piece ≤ depth := by
  obtain ⟨hpiece, hempty⟩ := List.mem_filter.mp hpiece
  have hempty := of_decide_eq_true hempty
  obtain ⟨hwithin, hfree⟩ := within_of_mem_substract hrect hdirty hmeet hpiece
  obtain ⟨hsized, hsmaller⟩ := sized_of_mem_substract hrect hdirty hmeet hpiece
  have hless := hsmaller hempty
  have hpos := hsized.width
  have hpos' := hsized.height
  refine ⟨hfree hempty, hwithin, hsized, ?_⟩
  rw [depthOf] at hdepth ⊢
  omega

/-- A listed rectangle that a piece does not meet may stand between those that it does not meet. -/
theorem not_collide_middle {keep after : GfxDirty} {dirty piece : MRectf ℤ}
    (hfree : ¬ mRectfCollideRect dirty piece)
    (hothers : ∀ other ∈ keep ++ after, ¬ mRectfCollideRect other piece) :
    ∀ other ∈ keep ++ [dirty] ++ after, ¬ mRectfCollideRect other piece := by
  intro other hother
  rw [List.mem_append, List.mem_append, List.mem_singleton] at hother
  rcases hother with (hother | rfl) | hother
  · exact hothers other (List.mem_append_left after hother)
  · exact hfree
  · exact hothers other (List.mem_append_right keep hother)

/-- A rectangle that meets none of the listed ones but those of the middle is pushed as what is left
of it outside of these. -/
theorem gfxDirtyRect_middle {keep rest after : GfxDirty} (hrest : ∀ dirty ∈ rest, Sized dirty)
    (hrect : Sized rect) (hkeep : ∀ dirty ∈ keep ++ after, ¬ mRectfCollideRect dirty rect)
    (hdepth : depthOf rect ≤ depth) :
    gfxDirtyRect depth (keep ++ rest ++ after) rect =
      .ok ((outside rest rect).foldl (vecPush rectSize) (keep ++ rest ++ after)) := by
  induction rest generalizing keep after rect depth with
  | nil =>
    obtain ⟨depth, rfl⟩ := Nat.exists_eq_succ_of_ne_zero (Nat.ne_of_gt (Nat.lt_of_lt_of_le
      (Nat.succ_pos _) hdepth))
    have hnone : (keep ++ [] ++ after).find? (fun dirty ↦ mRectfCollideRect dirty rect) = none := by
      rw [List.append_nil]
      exact List.find?_eq_none.mpr fun dirty hdirty h ↦ hkeep dirty hdirty (of_decide_eq_true h)
    rw [gfxDirtyRect, hnone]
    rfl
  | cons dirty rest ih =>
    have hdirty := List.forall_mem_cons.mp hrest
    have hmove : keep ++ dirty :: rest = keep ++ [dirty] ++ rest := List.append_cons ..
    rw [outside, hmove]
    by_cases hcollide : mRectfCollideRect dirty rect
    · rw [if_pos hcollide]
      obtain ⟨depth, rfl⟩ := Nat.exists_eq_succ_of_ne_zero (Nat.ne_of_gt (Nat.lt_of_lt_of_le
        (Nat.succ_pos _) hdepth))
      have hmeet := mRectfCollideRect_comm.mp hcollide
      have hfirst : (keep ++ [dirty] ++ rest ++ after).find?
          (fun dirty ↦ mRectfCollideRect dirty rect) = some dirty := by
        have hnone : keep.find? (fun dirty ↦ mRectfCollideRect dirty rect) = none :=
          List.find?_eq_none.mpr fun other hother h ↦
            hkeep other (List.mem_append_left after hother) (of_decide_eq_true h)
        simp only [List.append_assoc, List.find?_append, hnone, List.find?_singleton, hcollide,
          decide_true, if_pos, Option.none_or, Option.some_or]
      rw [gfxDirtyRect, hfirst]
      dsimp only
      rw [foldlM_filter]
      apply foldlM_pieces hdirty.2 (separate_substract hrect hdirty.1 hmeet _)
      · intro piece hmem
        obtain ⟨hfree, hwithin, -⟩ := substract_piece hrect hdirty.1 hmeet hdepth hmem
        exact not_collide_middle hfree fun other hother h ↦ hkeep other hother (hwithin.collide h)
      · intro piece hmem after' hothers
        obtain ⟨-, -, hsized, hdepth⟩ := substract_piece hrect hdirty.1 hmeet hdepth hmem
        exact ih hdirty.2 hsized hothers hdepth
    · rw [if_neg hcollide]
      exact ih hdirty.2 hrect (not_collide_middle hcollide hkeep) hdepth

/-- Adding a rectangle ends, and pushes what is left of it outside of the listed ones. -/
theorem gfxDirtyRect_eq (hself : ∀ dirty ∈ self, Sized dirty) (hrect : Sized rect) :
    gfxDirtyRect (depthOf rect) self rect =
      .ok ((outside self rect).foldl (vecPush rectSize) self) := by
  have h := @gfxDirtyRect_middle rect (depthOf rect) [] self [] hself hrect
    (fun dirty hdirty ↦ absurd hdirty List.not_mem_nil) (Nat.le_refl _)
  rwa [List.nil_append, List.append_nil] at h

inductive DirtyAction where
  | rect (rect : MRectf ℤ)
  | clear

/-- The list together with the rectangles that were passed in since it was last cleared. -/
structure Damage where
  dirty : GfxDirty
  passed : List (MRectf ℤ)

def Damage.next (s : Damage) : DirtyAction → Except Fault Damage
  | .rect rect => do
    let dirty ← gfxDirtyRect (depthOf rect) s.dirty rect
    return ⟨dirty, s.passed ++ [rect]⟩
  | .clear => .ok ⟨[], []⟩

/-- A rectangle has no negative size, and the list has room for what is left of it. -/
def HasRoom (s : Damage) : DirtyAction → Prop
  | .rect rect => Sized rect ∧ s.dirty.length + (outside s.dirty rect).length ≤ vecRoom rectSize
  | .clear => True

/-- The listed rectangles have no pixel in common, and have the pixels of the ones passed in. -/
structure Covers (s : Damage) : Prop where
  apart : s.dirty.Pairwise fun recta rectb ↦ Disjoint recta.pixels rectb.pixels
  pixels : ⋃ rect ∈ s.dirty, rect.pixels = ⋃ rect ∈ s.passed, rect.pixels

/-- The listed rectangles do not collide, and have the pixels of the ones passed in. -/
structure Tracks (s : Damage) : Prop where
  room : s.dirty.length ≤ vecRoom rectSize
  separate : Separate s.dirty
  covered : covered s.dirty = covered s.passed

variable {s : Damage}

theorem Tracks.covers (h : Tracks s) : Covers s :=
  ⟨h.separate.apart.imp fun hapart ↦ disjoint_pixels hapart, h.covered⟩

theorem Damage.next_rect (h : Separate s.dirty) (hrect : Sized rect) :
    s.next (.rect rect) =
      .ok ⟨(outside s.dirty rect).foldl (vecPush rectSize) s.dirty, s.passed ++ [rect]⟩ := by
  rw [Damage.next, gfxDirtyRect_eq h.sized hrect]
  rfl

theorem Damage.next_of_room (h : Separate s.dirty) (hroom : HasRoom s (.rect rect)) :
    s.next (.rect rect) = .ok ⟨s.dirty ++ outside s.dirty rect, s.passed ++ [rect]⟩ := by
  rw [Damage.next_rect h hroom.1, foldl_vecPush_of_le hroom.2]

theorem tracks_nil : Tracks ⟨[], []⟩ :=
  ⟨Nat.zero_le _, ⟨fun _ hdirty ↦ absurd hdirty List.not_mem_nil, List.Pairwise.nil⟩, rfl⟩

theorem Tracks.push (h : Tracks s) (hroom : HasRoom s (.rect rect)) :
    Tracks ⟨s.dirty ++ outside s.dirty rect, s.passed ++ [rect]⟩ := by
  have hsized := h.separate.sized
  obtain ⟨hrect, hroom⟩ := hroom
  refine ⟨by rwa [List.length_append], ⟨?_, ?_⟩, ?_⟩
  · intro dirty hdirty
    rcases List.mem_append.mp hdirty with hdirty | hdirty
    · exact hsized dirty hdirty
    · exact (within_of_mem_outside hsized hrect hdirty).1
  · exact List.pairwise_append.mpr ⟨h.separate.apart, pairwise_outside hsized hrect,
      fun dirty hdirty piece hpiece ↦ not_collide_of_mem_outside hsized hrect hpiece dirty hdirty⟩
  · rw [covered_append, covered_outside hsized hrect, h.covered, covered_append, covered_cons,
      covered_nil, Set.union_empty, Set.union_sdiff_self]

theorem Tracks.next {action : DirtyAction} {t : Damage} (h : Tracks s)
    (hstep : Guarded (Succeeds Damage.next) HasRoom s action t) : Tracks t := by
  obtain ⟨hroom, hnext⟩ := hstep
  cases action with
  | clear =>
    cases hnext
    exact tracks_nil
  | rect rect =>
    have heq := hnext.symm.trans (Damage.next_of_room h.separate hroom)
    cases heq
    exact h.push hroom

/-- Without room, a piece is lost, and its corner is covered by no listed rectangle. -/
theorem Tracks.not_covers (h : Tracks s) (hrect : Sized rect) (hempty : ¬ mRectfEmpty rect)
    (hroom : vecRoom rectSize < s.dirty.length + (outside s.dirty rect).length) :
    ¬ Covers ⟨(outside s.dirty rect).foldl (vecPush rectSize) s.dirty, s.passed ++ [rect]⟩ := by
  have hsized := h.separate.sized
  rw [foldl_vecPush]
  have hlength := h.room
  generalize hkept : vecRoom rectSize - s.dirty.length = kept
  have hlost : (outside s.dirty rect).drop kept ≠ [] := by
    rw [Ne, List.drop_eq_nil_iff]
    omega
  obtain ⟨piece, hlost⟩ := List.exists_mem_of_ne_nil _ hlost
  have hpiece := List.mem_of_mem_drop hlost
  have hapart := pairwise_outside hsized hrect
  rw [← List.take_append_drop kept (outside s.dirty rect), List.pairwise_append] at hapart
  have hcorner := corner_mem_pixels (within_of_mem_outside hsized hrect hpiece).1
    (not_empty_of_mem_outside hempty hpiece)
  have hmiss : ∀ other ∈ s.dirty ++ (outside s.dirty rect).take kept,
      (piece.x, piece.y) ∉ other.pixels := by
    intro other hother hmem
    refine Set.disjoint_left.mp (disjoint_pixels ?_) hmem hcorner
    rcases List.mem_append.mp hother with hother | hother
    · exact not_collide_of_mem_outside hsized hrect hpiece other hother
    · exact hapart.2.2 other hother piece hlost
  intro hcovers
  have hpassed : (piece.x, piece.y) ∈ Gfx.covered (s.passed ++ [rect]) := by
    have hleft := pixels_subset_covered hpiece hcorner
    rw [covered_outside hsized hrect] at hleft
    rw [covered_append, covered_cons]
    exact .inr (.inl hleft.1)
  rw [Gfx.covered, ← hcovers.pixels] at hpassed
  obtain ⟨other, hother, hmem⟩ := Set.mem_iUnion₂.mp hpassed
  exact hmiss other hother hmem

/-- In every run in which the list has room for what it is given, the listed rectangles have no
pixel in common and have the pixels of the ones passed in since the last clear.  Every further call
ends, and if its rectangle is not empty this stays so exactly when there is room. -/
theorem gfxDirty_covers {actions : List DirtyAction}
    (hrun : Run (Guarded (Succeeds Damage.next) HasRoom) ⟨[], []⟩ actions s) :
    Covers s ∧ ∀ rect, Sized rect → ∃ t, s.next (.rect rect) = .ok t ∧
      (¬ mRectfEmpty rect → (Covers t ↔ HasRoom s (.rect rect))) := by
  have htracks : Tracks s := hrun.invariant (fun _ _ _ h hstep ↦ h.next hstep) tracks_nil
  refine ⟨htracks.covers, fun rect hrect ↦
    ⟨_, Damage.next_rect htracks.separate hrect, fun hempty ↦ ?_⟩⟩
  by_cases hroom : s.dirty.length + (outside s.dirty rect).length ≤ vecRoom rectSize
  · rw [foldl_vecPush_of_le hroom]
    exact iff_of_true (htracks.push ⟨hrect, hroom⟩).covers ⟨hrect, hroom⟩
  · exact iff_of_false (htracks.not_covers hrect hempty (Nat.lt_of_not_le hroom))
      fun h ↦ hroom h.2

theorem vecRoom_rectSize : vecRoom rectSize = 2 ^ 26 := vecRoom_eq (by decide) (by decide)

/-- A rectangle that crosses another one. -/
theorem gfxDirty_covers_crossing :
    Covers ⟨[⟨0, 4, 12, 2⟩, ⟨4, 0, 2, 4⟩, ⟨4, 6, 2, 6⟩], [⟨0, 4, 12, 2⟩, ⟨4, 0, 2, 12⟩]⟩ := by
  have hroom : HasRoom ⟨[], []⟩ (.rect ⟨0, 4, 12, 2⟩) :=
    ⟨⟨by decide, by decide⟩, vecRoom_rectSize ▸ by decide⟩
  have htracks := tracks_nil.push hroom
  have hroom' : HasRoom ⟨[⟨0, 4, 12, 2⟩], [⟨0, 4, 12, 2⟩]⟩ (.rect ⟨4, 0, 2, 12⟩) :=
    ⟨⟨by decide, by decide⟩, vecRoom_rectSize ▸ by decide⟩
  have hrun : Run (Guarded (Succeeds Damage.next) HasRoom) ⟨[], []⟩
      [.rect ⟨0, 4, 12, 2⟩, .rect ⟨4, 0, 2, 12⟩] _ :=
    .cons ⟨hroom, Damage.next_of_room tracks_nil.separate hroom⟩
      (.cons ⟨hroom', Damage.next_of_room htracks.separate hroom'⟩ (.nil _))
  exact (gfxDirty_covers hrun).1

theorem outside_of_free (h : ∀ dirty ∈ self, ¬ mRectfCollideRect dirty rect) :
    outside self rect = [rect] := by
  induction self with
  | nil => rfl
  | cons dirty rest ih =>
    rw [List.forall_mem_cons] at h
    rw [outside, if_neg h.1, ih h.2]

/-- The unit rectangles of the first places of a grid with 2 ^ 14 columns. -/
def tile (place : ℕ) : MRectf ℤ := ⟨(place % 2 ^ 14 : ℕ), (place / 2 ^ 14 : ℕ), 1, 1⟩

def tiles (count : ℕ) : List (MRectf ℤ) := (List.range count).map tile

theorem outside_tiles (count : ℕ) : outside (tiles count) (tile count) = [tile count] := by
  apply outside_of_free
  intro dirty hdirty
  obtain ⟨place, hplace, rfl⟩ := List.mem_map.mp hdirty
  have hlt := List.mem_range.mp hplace
  simp only [tile, mRectfCollideRect]
  omega

theorem tiles_run {count : ℕ} (hcount : count ≤ vecRoom rectSize) :
    Run (Guarded (Succeeds Damage.next) HasRoom) ⟨[], []⟩ ((tiles count).map .rect)
      ⟨tiles count, tiles count⟩ := by
  induction count with
  | zero => exact .nil _
  | succ count ih =>
    have hrun := ih (Nat.le_of_succ_le hcount)
    have htracks : Tracks ⟨tiles count, tiles count⟩ :=
      hrun.invariant (fun _ _ _ h hstep ↦ h.next hstep) tracks_nil
    have hroom : HasRoom ⟨tiles count, tiles count⟩ (.rect (tile count)) := by
      refine ⟨⟨Int.one_nonneg, Int.one_nonneg⟩, ?_⟩
      rw [outside_tiles, tiles, List.length_map, List.length_range]
      exact hcount
    have hnext := Damage.next_of_room htracks.separate hroom
    rw [outside_tiles] at hnext
    have hmore : tiles (count + 1) = tiles count ++ [tile count] := by
      rw [tiles, List.range_succ, List.map_append]
      rfl
    rw [hmore, List.map_append]
    exact hrun.append (.cons ⟨hroom, hnext⟩ (.nil _))

theorem tiles_lost {count : ℕ} (hcount : count = vecRoom rectSize) :
    ∃ s, Run (Succeeds Damage.next) ⟨[], []⟩ ((tiles count ++ [tile count]).map .rect) s ∧
      ¬ Covers s := by
  have hrun := tiles_run (Nat.le_of_eq hcount)
  have htracks : Tracks ⟨tiles count, tiles count⟩ :=
    hrun.invariant (fun _ _ _ h hstep ↦ h.next hstep) tracks_nil
  have htile : Sized (tile count) := ⟨Int.one_nonneg, Int.one_nonneg⟩
  have hempty : ¬ mRectfEmpty (tile count) := not_or.mpr ⟨Int.one_ne_zero, Int.one_ne_zero⟩
  have hnext := Damage.next_rect htracks.separate htile
  refine ⟨_, ?_, htracks.not_covers htile hempty ?_⟩
  · rw [List.map_append]
    exact (hrun.mono fun _ _ _ h ↦ h.2).append (.cons hnext (.nil _))
  · rw [outside_tiles, tiles, List.length_map, List.length_range, ← hcount]
    exact Nat.lt_succ_self count

/-- The last of 2 ^ 26 + 1 unit rectangles is dropped. -/
theorem gfxDirty_fails :
    (∀ rect ∈ tiles (2 ^ 26) ++ [tile (2 ^ 26)],
      Sized rect ∧ 0 ≤ rect.x ∧ rect.x < 2 ^ 20 ∧ 0 ≤ rect.y ∧ rect.y < 2 ^ 20) ∧
    ∃ s, Run (Succeeds Damage.next) ⟨[], []⟩ ((tiles (2 ^ 26) ++ [tile (2 ^ 26)]).map .rect) s ∧
      ¬ Covers s := by
  refine ⟨fun rect hrect ↦ ?_, tiles_lost vecRoom_rectSize.symm⟩
  obtain ⟨place, hplace, rfl⟩ : ∃ place ≤ 2 ^ 26, rect = tile place := by
    rcases List.mem_append.mp hrect with hrect | hrect
    · obtain ⟨place, hplace, rfl⟩ := List.mem_map.mp hrect
      exact ⟨place, Nat.le_of_lt (List.mem_range.mp hplace), rfl⟩
    · exact ⟨2 ^ 26, Nat.le_refl _, List.mem_singleton.mp hrect⟩
  refine ⟨⟨Int.one_nonneg, Int.one_nonneg⟩, ?_⟩
  simp only [tile]
  omega

end Brutal.Gfx
