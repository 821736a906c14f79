import Mathlib.Data.List.Induction
import Mathlib.Data.List.Nodup
import Mathlib.Tactic.Common

/-!
# Doubly linked lists

A list of nodes is linked in a memory when each node has there the addresses of its two
neighbours.  What it means for a node to have them is a parameter `link`, so that the rules below
hold for any record with two pointers in it.  A change of the memory turns one `link` into another;
the rules say which nodes have to be looked at when a node is put in or taken out.
-/

namespace Brutal.Lib

variable {Node Addr : Type*} {addr : Node → Addr}

/-- The address of the first node, and what comes after an empty list. -/
def firstOr (addr : Node → Addr) (nodes : List Node) (after : Option Addr) : Option Addr :=
  match nodes with
  | [] => after
  | node :: _ => some (addr node)

/-- The address of the last node, and what comes before an empty list. -/
def lastOr (addr : Node → Addr) (before : Option Addr) : List Node → Option Addr
  | [] => before
  | node :: rest => lastOr addr (some (addr node)) rest

/-- Every node is linked to the one before it and to the one after it. -/
def Linked (addr : Node → Addr) (link : Option Addr → Node → Option Addr → Prop) :
    Option Addr → List Node → Option Addr → Prop
  | _, [], _ => True
  | before, node :: rest, after =>
    link before node (firstOr addr rest after) ∧ Linked addr link (some (addr node)) rest after

@[simp]
theorem firstOr_nil (after : Option Addr) : firstOr addr [] after = after := rfl

@[simp]
theorem firstOr_cons (node : Node) (rest : List Node) (after : Option Addr) :
    firstOr addr (node :: rest) after = some (addr node) := rfl

@[simp]
theorem lastOr_nil (before : Option Addr) : lastOr addr before [] = before := rfl

@[simp]
theorem lastOr_cons (before : Option Addr) (node : Node) (rest : List Node) :
    lastOr addr before (node :: rest) = lastOr addr (some (addr node)) rest := rfl

theorem firstOr_append (first second : List Node) (after : Option Addr) :
    firstOr addr (first ++ second) after = firstOr addr first (firstOr addr second after) := by
  cases first with
  | nil => rfl
  | cons node rest => rfl

@[simp]
theorem lastOr_append (before : Option Addr) (first second : List Node) :
    lastOr addr before (first ++ second) = lastOr addr (lastOr addr before first) second := by
  induction first generalizing before with
  | nil => rfl
  | cons node rest ih => exact ih (some (addr node))

theorem lastOr_some_ne_none (address : Addr) (nodes : List Node) :
    lastOr addr (some address) nodes ≠ none := by
  induction nodes generalizing address with
  | nil => exact nofun
  | cons node rest ih => exact ih (addr node)

theorem exists_of_firstOr {nodes : List Node} {address : Addr}
    (h : firstOr addr nodes none = some address) : ∃ node ∈ nodes, addr node = address := by
  cases nodes with
  | nil => cases h
  | cons node rest => exact ⟨node, List.mem_cons_self, Option.some.inj h⟩

theorem exists_of_lastOr {nodes : List Node} {address : Addr}
    (h : lastOr addr none nodes = some address) : ∃ node ∈ nodes, addr node = address := by
  cases nodes using List.reverseRecOn with
  | nil => cases h
  | append_singleton init last _ =>
    rw [lastOr_append] at h
    exact ⟨last, List.mem_append_right _ List.mem_cons_self, Option.some.inj h⟩

variable {link link' : Option Addr → Node → Option Addr → Prop} {before after : Option Addr}
  {first second : List Node} {node : Node}

@[simp]
theorem linked_nil : Linked addr link before [] after := trivial

@[simp]
theorem linked_cons :
    Linked addr link before (node :: second) after ↔
      link before node (firstOr addr second after) ∧
        Linked addr link (some (addr node)) second after := Iff.rfl

theorem linked_append :
    Linked addr link before (first ++ second) after ↔
      Linked addr link before first (firstOr addr second after) ∧
        Linked addr link (lastOr addr before first) second after := by
  induction first generalizing before with
  | nil => simp
  | cons node rest ih =>
    rw [List.cons_append, linked_cons, linked_cons, ih, firstOr_append, lastOr_cons, and_assoc]

/-- The links of one node. -/
theorem Linked.link_of_append (h : Linked addr link before (first ++ node :: second) after) :
    link (lastOr addr before first) node (firstOr addr second after) :=
  (linked_cons.mp (linked_append.mp h).2).1

theorem Linked.imp (h : Linked addr link before first after)
    (hlink : ∀ prev node next, node ∈ first → link prev node next → link' prev node next) :
    Linked addr link' before first after := by
  induction first generalizing before with
  | nil => trivial
  | cons node rest ih =>
    have hrest := ih (linked_cons.mp h).2 fun prev node next hnode ↦
      hlink prev node next (List.mem_cons_of_mem _ hnode)
    exact ⟨hlink _ _ _ List.mem_cons_self (linked_cons.mp h).1, hrest⟩

/-- Another neighbour after the list: only the last node is looked at. -/
theorem Linked.relinkLast {after' : Option Addr} (h : Linked addr link before first after)
    (hnodup : (first.map addr).Nodup)
    (hkeep : ∀ prev node next, node ∈ first → lastOr addr none first ≠ some (addr node) →
      link prev node next → link' prev node next)
    (hlast : ∀ prev node, node ∈ first → lastOr addr none first = some (addr node) →
      link prev node after → link' prev node after') :
    Linked addr link' before first after' := by
  cases first using List.reverseRecOn with
  | nil => trivial
  | append_singleton init last _ =>
    rw [linked_append] at h ⊢
    have hends : lastOr addr none (init ++ [last]) = some (addr last) := by simp
    rw [List.map_append, List.nodup_append] at hnodup
    constructor
    · apply h.1.imp
      intro prev node next hnode hlink
      apply hkeep prev node next (List.mem_append_left _ hnode) _ hlink
      rw [hends]
      intro heq
      exact hnodup.2.2 (addr node) (List.mem_map_of_mem hnode) (addr last) (by simp)
        (Option.some.inj heq).symm
    · exact ⟨hlast _ last (by simp) hends h.2.1, trivial⟩

/-- Another neighbour before the list: only the first node is looked at. -/
theorem Linked.relinkFirst {before' : Option Addr} (h : Linked addr link before second after)
    (hnodup : (second.map addr).Nodup)
    (hkeep : ∀ prev node next, node ∈ second → firstOr addr second none ≠ some (addr node) →
      link prev node next → link' prev node next)
    (hfirst : ∀ node next, node ∈ second → firstOr addr second none = some (addr node) →
      link before node next → link' before' node next) :
    Linked addr link' before' second after := by
  cases second with
  | nil => trivial
  | cons node rest =>
    rw [List.map_cons, List.nodup_cons] at hnodup
    constructor
    · exact hfirst node _ List.mem_cons_self rfl h.1
    · apply h.2.imp
      intro prev other next hother hlink
      apply hkeep prev other next (List.mem_cons_of_mem _ hother) _ hlink
      intro heq
      apply hnodup.1
      rw [Option.some.inj heq]
      exact List.mem_map_of_mem hother

/-- A node of one part of a list without repetitions is not the first one of the other part. -/
theorem firstOr_ne (hparts : ∀ a ∈ first.map addr, ∀ b ∈ second.map addr, a ≠ b)
    (hnode : node ∈ first) : firstOr addr second none ≠ some (addr node) := by
  intro heq
  cases second with
  | nil => cases heq
  | cons head rest =>
    exact hparts (addr node) (List.mem_map_of_mem hnode) (addr head) (by simp)
      (Option.some.inj heq).symm

/-- A node of one part of a list without repetitions is not the last one of the other part. -/
theorem lastOr_ne (hparts : ∀ a ∈ first.map addr, ∀ b ∈ second.map addr, a ≠ b)
    (hnode : node ∈ second) : lastOr addr none first ≠ some (addr node) := by
  intro heq
  cases first using List.reverseRecOn with
  | nil => cases heq
  | append_singleton init last _ =>
    rw [lastOr_append] at heq
    exact hparts (addr last) (by simp) (addr node) (List.mem_map_of_mem hnode)
      (Option.some.inj heq)

/-- A node is put in between two parts of the list: its two neighbours are linked to it. -/
theorem Linked.insert {new : Node} (h : Linked addr link before (first ++ second) after)
    (hnodup : ((first ++ second).map addr).Nodup)
    (hkeep : ∀ prev node next, node ∈ first ++ second → lastOr addr none first ≠ some (addr node) →
      firstOr addr second none ≠ some (addr node) → link prev node next → link' prev node next)
    (hlast : ∀ prev node, node ∈ first → lastOr addr none first = some (addr node) →
      link prev node (firstOr addr second after) → link' prev node (some (addr new)))
    (hfirst : ∀ node next, node ∈ second → firstOr addr second none = some (addr node) →
      link (lastOr addr before first) node next → link' (some (addr new)) node next)
    (hnew : link' (lastOr addr before first) new (firstOr addr second after)) :
    Linked addr link' before (first ++ new :: second) after := by
  rw [List.map_append, List.nodup_append] at hnodup
  rw [linked_append] at h ⊢
  refine ⟨h.1.relinkLast hnodup.1 ?_ hlast, hnew, h.2.relinkFirst hnodup.2.1 ?_ hfirst⟩
  · intro prev node next hnode hends
    exact hkeep prev node next (List.mem_append_left _ hnode) hends (firstOr_ne hnodup.2.2 hnode)
  · intro prev node next hnode
    exact hkeep prev node next (List.mem_append_right _ hnode) (lastOr_ne hnodup.2.2 hnode)

/-- A node is taken out: its two neighbours are linked to each other. -/
theorem Linked.remove (h : Linked addr link before (first ++ node :: second) after)
    (hnodup : ((first ++ second).map addr).Nodup)
    (hkeep : ∀ prev other next, other ∈ first ++ second →
      lastOr addr none first ≠ some (addr other) → firstOr addr second none ≠ some (addr other) →
      link prev other next → link' prev other next)
    (hlast : ∀ prev other, other ∈ first → lastOr addr none first = some (addr other) →
      link prev other (some (addr node)) → link' prev other (firstOr addr second after))
    (hfirst : ∀ other next, other ∈ second → firstOr addr second none = some (addr other) →
      link (some (addr node)) other next → link' (lastOr addr before first) other next) :
    Linked addr link' before (first ++ second) after := by
  rw [List.map_append, List.nodup_append] at hnodup
  rw [linked_append] at h ⊢
  refine ⟨h.1.relinkLast hnodup.1 ?_ hlast, h.2.2.relinkFirst hnodup.2.1 ?_ hfirst⟩
  · intro prev node next hnode hends
    exact hkeep prev node next (List.mem_append_left _ hnode) hends (firstOr_ne hnodup.2.2 hnode)
  · intro prev node next hnode
    exact hkeep prev node next (List.mem_append_right _ hnode) (lastOr_ne hnodup.2.2 hnode)

end Brutal.Lib
