import Mathlib.Data.List.Chain
import Mathlib.Data.List.Nodup
import Mathlib.Logic.Function.Basic

/-!
# Doubly linked cycles

Nodes with a link to the next and one to the previous node.  A cycle is given by the list of its
nodes from any of them; it is made of segments, whose ends are linked to what comes before and
after.  Nodes are added in front of the first one and taken out anywhere else.
-/

namespace Brutal.Lib

variable {α : Type*}

/-- Two nodes that are linked to each other. -/
def Link (next prev : α → α) (a b : α) : Prop := next a = b ∧ prev b = a

/-- The nodes from `a` through those of the list to `b` are linked one after another. -/
def Segment (next prev : α → α) (a : α) (nodes : List α) (b : α) : Prop :=
  (a :: (nodes ++ [b])).IsChain (Link next prev)

/-- The nodes are linked one after another, and the last one to the first. -/
def IsCycle (next prev : α → α) : List α → Prop
  | [] => True
  | head :: rest => Segment next prev head rest head

variable {next prev next' prev' : α → α} {a b c : α} {nodes before after : List α}

theorem segment_nil : Segment next prev a [] b ↔ Link next prev a b := by
  rw [Segment, List.nil_append, List.isChain_cons_cons]
  exact and_iff_left (List.IsChain.singleton b)

theorem segment_append : Segment next prev a (before ++ c :: after) b ↔
    Segment next prev a before c ∧ Segment next prev c after b := by
  rw [Segment, Segment, Segment, List.append_assoc, List.cons_append, List.isChain_cons_split]

theorem segment_cons : Segment next prev a (c :: after) b ↔
    Link next prev a c ∧ Segment next prev c after b := by
  rw [← segment_nil]
  exact @segment_append _ _ _ _ _ _ [] _

/-- A segment depends on the links to the next node of all nodes but its last one, and on the links
to the previous node of all nodes but its first one. -/
theorem Segment.congr (h : Segment next prev a nodes b)
    (hnext : ∀ node ∈ a :: nodes, next' node = next node)
    (hprev : ∀ node ∈ nodes ++ [b], prev' node = prev node) : Segment next' prev' a nodes b := by
  induction nodes generalizing a with
  | nil =>
    rw [segment_nil] at h ⊢
    exact ⟨(hnext a List.mem_cons_self).trans h.1, (hprev b List.mem_cons_self).trans h.2⟩
  | cons node rest ih =>
    rw [segment_cons] at h ⊢
    refine ⟨⟨(hnext a List.mem_cons_self).trans h.1.1,
      (hprev node List.mem_cons_self).trans h.1.2⟩, ih h.2 ?_ ?_⟩
    · exact fun other hmem ↦ hnext other (List.mem_cons_of_mem _ hmem)
    · exact fun other hmem ↦ hprev other (List.mem_cons_of_mem _ hmem)

/-- The last node of a segment is linked to another one. -/
theorem Segment.retarget (h : Segment next prev a nodes b) (hnodup : (a :: nodes).Nodup)
    (hnext : ∀ node ∈ a :: nodes, node ≠ prev b → next' node = next node)
    (hlast : next' (prev b) = c) (hprev : ∀ node ∈ nodes, prev' node = prev node)
    (hc : prev' c = prev b) : Segment next' prev' a nodes c := by
  rcases List.eq_nil_or_concat nodes with rfl | ⟨front, last, rfl⟩
  · rw [segment_nil] at h ⊢
    rw [h.2] at hlast hc
    exact ⟨hlast, hc⟩
  · rw [List.concat_eq_append] at h hnodup hnext hprev ⊢
    rw [segment_append, segment_nil] at h ⊢
    obtain ⟨hfront, -, hlink⟩ := h
    rw [hlink] at hlast hc hnext
    have hfresh : last ∉ a :: front := by
      rw [← List.cons_append] at hnodup
      exact fun hmem ↦ (List.nodup_append.mp hnodup).2.2 last hmem last List.mem_cons_self rfl
    refine ⟨hfront.congr (fun node hmem ↦ ?_) hprev, hlast, hc⟩
    apply hnext node
    · rw [← List.cons_append]
      exact List.mem_append_left _ hmem
    · rintro rfl
      exact hfresh hmem

/-- The end of a segment is linked back to a node of it. -/
theorem Segment.prev_mem (h : Segment next prev a nodes b) : prev b ∈ a :: nodes := by
  rcases List.eq_nil_or_concat nodes with rfl | ⟨front, last, rfl⟩
  · rw [segment_nil] at h
    rw [h.2]
    exact List.mem_cons_self
  · rw [List.concat_eq_append] at h ⊢
    rw [segment_append, segment_nil] at h
    rw [h.2.2, ← List.cons_append]
    exact List.mem_append_right _ List.mem_cons_self

/-- The first node of a segment is linked to what comes behind it. -/
theorem Segment.head_eq (h : Segment next prev a nodes b) :
    (nodes ++ [b]).head? = some (next a) := by
  cases nodes with
  | nil => exact congrArg some (segment_nil.mp h).1.symm
  | cons node rest => exact congrArg some (segment_cons.mp h).1.1.symm

theorem IsCycle.rotate (h : IsCycle next prev (before ++ a :: after)) :
    IsCycle next prev (a :: (after ++ before)) := by
  cases before with
  | nil => rwa [List.append_nil]
  | cons head rest =>
    have hsplit := segment_append.mp h
    exact segment_append.mpr ⟨hsplit.2, hsplit.1⟩

/-- The cycle from the second node on. -/
theorem IsCycle.behind {head : α} {rest : List α} (h : IsCycle next prev (head :: rest))
    (hsplit : rest ++ [head] = a :: after) : IsCycle next prev (a :: after) := by
  cases rest with
  | nil =>
    cases hsplit
    exact h
  | cons node rest =>
    cases hsplit
    exact IsCycle.rotate (show IsCycle next prev ([head] ++ a :: rest) from h)

/-- What comes behind a node of a cycle, the first one at the end. -/
theorem IsCycle.head_eq {head : α} {rest : List α} (h : IsCycle next prev (head :: rest))
    (hsplit : head :: rest = before ++ a :: after) :
    (after ++ [head]).head? = some (next a) := by
  cases before with
  | nil =>
    cases hsplit
    exact Segment.head_eq h
  | cons first front =>
    cases hsplit
    exact Segment.head_eq (segment_append.mp h).2

theorem IsCycle.next_mem (h : IsCycle next prev nodes) (ha : a ∈ nodes) : next a ∈ nodes := by
  obtain ⟨before, after, rfl⟩ := List.append_of_mem ha
  have hrotated : Segment next prev a (after ++ before) a := h.rotate
  have hmem := List.mem_of_head? hrotated.head_eq
  rcases List.mem_append.mp hmem with hother | hself
  · rcases List.mem_append.mp hother with hafter | hbefore
    · exact List.mem_append_right _ (List.mem_cons_of_mem _ hafter)
    · exact List.mem_append_left _ hbefore
  · rw [List.mem_singleton.mp hself]
    exact ha

theorem IsCycle.prev_mem (h : IsCycle next prev nodes) (ha : a ∈ nodes) : prev a ∈ nodes := by
  obtain ⟨before, after, rfl⟩ := List.append_of_mem ha
  have hrotated : Segment next prev a (after ++ before) a := h.rotate
  rcases List.mem_cons.mp hrotated.prev_mem with hself | hother
  · rw [hself]
    exact ha
  · rcases List.mem_append.mp hother with hafter | hbefore
    · exact List.mem_append_right _ (List.mem_cons_of_mem _ hafter)
    · exact List.mem_append_left _ hbefore

variable [DecidableEq α]

theorem isCycle_singleton (a : α) :
    IsCycle (Function.update next a a) (Function.update prev a a) [a] :=
  segment_nil.mpr ⟨Function.update_self .., Function.update_self ..⟩

/-- A new node in front of the first one comes last. -/
theorem IsCycle.insert {head : α} {rest : List α} (h : IsCycle next prev (head :: rest))
    (hnodup : (head :: rest).Nodup) (ha : a ∉ head :: rest) :
    IsCycle (Function.update (Function.update next a head) (prev head) a)
      (Function.update (Function.update prev a (prev head)) head a) (head :: (rest ++ [a])) := by
  have hhead : a ≠ head := fun heq ↦ ha (heq ▸ List.mem_cons_self)
  have hlast : prev head ∈ head :: rest := Segment.prev_mem h
  have hne : a ≠ prev head := fun heq ↦ ha (heq ▸ hlast)
  rw [List.nodup_cons] at hnodup
  refine segment_append.mpr ⟨Segment.retarget h (List.nodup_cons.mpr hnodup) ?_ ?_ ?_ ?_,
    segment_nil.mpr ⟨?_, ?_⟩⟩
  · intro node hmem hnode
    have hold : node ≠ a := fun heq ↦ ha (heq ▸ hmem)
    rw [Function.update_of_ne hnode, Function.update_of_ne hold]
  · exact Function.update_self ..
  · intro node hmem
    have hrest : node ≠ head := fun heq ↦ hnodup.1 (heq ▸ hmem)
    have hold : node ≠ a := fun heq ↦ ha (heq ▸ List.mem_cons_of_mem _ hmem)
    rw [Function.update_of_ne hrest, Function.update_of_ne hold]
  · rw [Function.update_of_ne hhead, Function.update_self]
  · rw [Function.update_of_ne hne, Function.update_self]
  · exact Function.update_self ..

/-- A node other than the first one is taken out. -/
theorem IsCycle.remove {head : α} (h : IsCycle next prev (head :: (before ++ a :: after)))
    (hnodup : (head :: (before ++ a :: after)).Nodup) :
    IsCycle (Function.update next (prev a) (next a)) (Function.update prev (next a) (prev a))
      (head :: (before ++ after)) := by
  obtain ⟨hbefore, hafter⟩ := segment_append.mp h
  rw [← List.cons_append] at hnodup
  obtain ⟨hfront, hback, hapart⟩ := List.nodup_append.mp hnodup
  have hprev : prev a ∈ head :: before := hbefore.prev_mem
  cases after with
  | nil =>
    obtain ⟨hnext, -⟩ := segment_nil.mp hafter
    rw [List.append_nil, hnext]
    refine Segment.retarget hbefore hfront ?_ (Function.update_self ..) ?_ (Function.update_self ..)
    · exact fun node _ hnode ↦ Function.update_of_ne hnode ..
    · intro node hmem
      have hne : node ≠ head := fun heq ↦ (List.nodup_cons.mp hfront).1 (heq ▸ hmem)
      exact Function.update_of_ne hne ..
  | cons first rest =>
    obtain ⟨⟨hnext, -⟩, hrest⟩ := segment_cons.mp hafter
    rw [hnext]
    have hfirst : ∀ node ∈ head :: before, node ≠ first := fun node hmem ↦
      hapart node hmem first (List.mem_cons_of_mem _ List.mem_cons_self)
    have htail : (first :: rest).Nodup := (List.nodup_cons.mp hback).2
    refine segment_append.mpr ⟨Segment.retarget hbefore hfront ?_ (Function.update_self ..) ?_
      (Function.update_self ..), hrest.congr ?_ ?_⟩
    · exact fun node _ hnode ↦ Function.update_of_ne hnode ..
    · exact fun node hmem ↦ Function.update_of_ne (hfirst node (List.mem_cons_of_mem _ hmem)) ..
    · intro node hmem
      have hne : prev a ≠ node := hapart (prev a) hprev node (List.mem_cons_of_mem _ hmem)
      exact Function.update_of_ne hne.symm ..
    · intro node hmem
      rcases List.mem_append.mp hmem with hin | hlast
      · have hne : node ≠ first := fun heq ↦ (List.nodup_cons.mp htail).1 (heq ▸ hin)
        exact Function.update_of_ne hne ..
      · rw [List.mem_singleton.mp hlast]
        exact Function.update_of_ne (hfirst head List.mem_cons_self) ..

end Brutal.Lib
