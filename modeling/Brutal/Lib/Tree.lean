import Mathlib.Logic.Relation

/-!
# Trees given by a relation

What is reached from a root over a relation is a tree when nothing leads back to the root and
everything else is led to from one node only.  There are no cycles then, and what is below two
different children of a node is apart.
-/

namespace Brutal.Lib

open Relation

variable {α : Type*} {child : α → α → Prop} {root a b c x : α}

/-- The nodes reached from the root form a tree. -/
structure IsTree (child : α → α → Prop) (root : α) : Prop where
  top : ∀ a, ReflTransGen child root a → ¬ child a root
  parent : ∀ a b c, ReflTransGen child root a → ReflTransGen child root b →
    child a c → child b c → a = b

namespace IsTree

/-- Nothing is below itself. -/
theorem acyclic (h : IsTree child root) (ha : ReflTransGen child root a) :
    ¬ TransGen child a a := by
  induction ha with
  | refl =>
    intro hcycle
    obtain ⟨b, hb, hlast⟩ := TransGen.tail'_iff.mp hcycle
    exact h.top b hb hlast
  | @tail b c hb hstep ih =>
    intro hcycle
    obtain ⟨d, hd, hlast⟩ := TransGen.tail'_iff.mp hcycle
    have hdb : d = b := h.parent d b c ((hb.tail hstep).trans hd) hb hlast hstep
    subst hdb
    exact ih (TransGen.head' hstep hd)

/-- Of two nodes above a third one, one is above the other. -/
theorem total (h : IsTree child root) (hb : ReflTransGen child root b)
    (hc : ReflTransGen child root c) (hbx : ReflTransGen child b x) (hcx : ReflTransGen child c x) :
    ReflTransGen child b c ∨ ReflTransGen child c b := by
  induction hbx generalizing c with
  | refl => exact Or.inr hcx
  | @tail d e hbd hstep ih =>
    rcases ReflTransGen.cases_tail hcx with rfl | ⟨d', hcd', hstep'⟩
    · exact Or.inl (hbd.tail hstep)
    · have hd : d' = d := h.parent d' d e (hc.trans hcd') (hb.trans hbd) hstep' hstep
      subst hd
      exact ih hc hcd'

/-- What is below two different children of a node is apart. -/
theorem siblings (h : IsTree child root) (ha : ReflTransGen child root a) (hab : child a b)
    (hac : child a c) (hbx : ReflTransGen child b x) (hcx : ReflTransGen child c x) : b = c := by
  have hbelow : ∀ {b c : α}, child a b → child a c → ReflTransGen child b c → b = c := by
    intro b c hab hac hbc
    rcases ReflTransGen.cases_tail hbc with rfl | ⟨d, hbd, hstep⟩
    · rfl
    · have hd : d = a := h.parent d a c ((ha.tail hab).trans hbd) ha hstep hac
      subst hd
      exact absurd (TransGen.head' hab hbd) (h.acyclic ha)
  rcases h.total (ha.tail hab) (ha.tail hac) hbx hcx with hbc | hcb
  · exact hbelow hab hac hbc
  · exact (hbelow hac hab hcb).symm

end IsTree

end Brutal.Lib
