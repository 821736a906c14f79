import Brutal.Hw.FdtWalk
import Mathlib.Data.List.Nodup

/-!
# Searching a device tree for a path

A path names a node by the names of its ancestors and its own one.  The first node in document order
that a path names is found by going down to the first child that matches, each time; a search that
shares what is left of the path between siblings goes the same way, and goes on differently where it
gets stuck.
-/

namespace Brutal.Hw

open Base Lib

variable {items rest : DtItems} {part name pad : List UInt8} {more : List (List UInt8)}

/-- The parts between the separators. -/
def partsOf (path : List UInt8) : List (List UInt8) := path.splitOn 47

/-- A part that ends in `@` matches the names that begin with it, where it is the first one. -/
def PartMatches (part name : List UInt8) : Prop :=
  if part.getLast? = some 64 then part <+: name ∧ 64 ∉ part.dropLast else part = name

instance (part name : List UInt8) : Decidable (PartMatches part name) :=
  inferInstanceAs (Decidable (if part.getLast? = some 64 then
    part <+: name ∧ 64 ∉ part.dropLast else part = name))

/-- The names from the root on match the path part by part. -/
def ChainMatches (parts names : List (List UInt8)) : Prop := List.Forall₂ PartMatches parts names

instance : DecidableRel ChainMatches :=
  inferInstanceAs (DecidableRel (List.Forall₂ PartMatches))

namespace DtItems

/-- The nodes in document order, each with the names of its ancestors and its own one. -/
def chains (cur : ℕ) : DtItems → List (List (List UInt8) × FdtNode)
  | nil => []
  | nop rest => rest.chains (cur + 4)
  | prop entry rest => rest.chains (cur + 12 + entry.value.length + entry.pad.length)
  | node name pad items rest =>
    let close := inner cur name pad + items.bytes.length
    ([name], ⟨name, inner cur name pad, some (close + 4)⟩) ::
      ((items.chains (inner cur name pad)).map fun entry ↦ (name :: entry.1, entry.2)) ++
        rest.chains (close + 4)

/-- Going down from the siblings, each time to the first one that matches, reaches the last part. -/
def FirstChain : DtItems → List (List UInt8) → Prop
  | nil, _ => False
  | nop rest, parts => rest.FirstChain parts
  | prop _ rest, parts => rest.FirstChain parts
  | node _ _ _ _, [] => False
  | node name _ items rest, part :: more =>
    if PartMatches part name then more = [] ∨ items.FirstChain more
    else rest.FirstChain (part :: more)

/-- The parts that are left when the siblings were gone over: a sibling that matches the next part
takes it, its children go on with the parts behind it, and the siblings after it with what the
children left.  There is nothing left when the last part was taken. -/
def leftOver : DtItems → List (List UInt8) → Option (List (List UInt8))
  | nil, parts => some parts
  | nop rest, parts => rest.leftOver parts
  | prop _ rest, parts => rest.leftOver parts
  | node _ _ _ rest, [] => rest.leftOver []
  | node name _ items rest, part :: more =>
    if PartMatches part name then
      if more = [] then none else (items.leftOver more).bind rest.leftOver
    else rest.leftOver (part :: more)

/-- The node that takes the last part, or the parts that are left. -/
def search (cur : ℕ) : DtItems → List (List UInt8) → FdtNode ⊕ List (List UInt8)
  | nil, parts => .inr parts
  | nop rest, parts => rest.search (cur + 4) parts
  | prop entry rest, parts => rest.search (cur + 12 + entry.value.length + entry.pad.length) parts
  | node name pad items rest, [] => rest.search (inner cur name pad + items.bytes.length + 4) []
  | node name pad items rest, part :: more =>
    let close := inner cur name pad + items.bytes.length
    if PartMatches part name then
      if more = [] then .inl ⟨name, inner cur name pad, some (close + 4)⟩
      else
        match items.search (inner cur name pad) more with
        | .inl found => .inl found
        | .inr left => rest.search (close + 4) left
    else rest.search (close + 4) (part :: more)

attribute [local grind =] search chains leftOver

theorem search_eq_inr (items : DtItems) (cur : ℕ) {parts left : List (List UInt8)} :
    items.search cur parts = .inr left ↔ items.leftOver parts = some left := by
  induction items generalizing cur parts left with
  | nil =>
    constructor
    · exact fun h ↦ congrArg some (Sum.inr.inj h)
    · exact fun h ↦ congrArg Sum.inr (Option.some.inj h)
  | nop rest ih => exact ih _
  | prop entry rest ih => exact ih _
  | node name pad items rest ihitems ih =>
    cases parts with
    | nil => exact ih _
    | cons part more =>
      rw [search, leftOver]
      by_cases hmatch : PartMatches part name
      · rw [if_pos hmatch, if_pos hmatch]
        by_cases hmore : more = []
        · rw [if_pos hmore, if_pos hmore]
          exact ⟨nofun, nofun⟩
        · rw [if_neg hmore, if_neg hmore, Option.bind_eq_some_iff]
          cases hsearch : items.search (inner cur name pad) more with
          | inl found =>
            refine ⟨nofun, ?_⟩
            rintro ⟨between, hbetween, -⟩
            rw [← ihitems (inner cur name pad), hsearch] at hbetween
            cases hbetween
          | inr between =>
            rw [ihitems] at hsearch
            rw [hsearch]
            dsimp only
            rw [ih]
            simp
      · rw [if_neg hmatch, if_neg hmatch]
        exact ih _

variable {parts : List (List UInt8)} {cur : ℕ}

/-- The places of the nodes grow in document order. -/
theorem chains_sorted (items : DtItems) (cur : ℕ) :
    (items.chains cur).Pairwise (fun first second ↦ first.2.begin < second.2.begin) ∧
      ∀ entry ∈ items.chains cur, cur < entry.2.begin ∧
        entry.2.begin ≤ cur + items.bytes.length := by
  induction items generalizing cur with
  | nil => exact ⟨.nil, nofun⟩
  | nop rest ih =>
    obtain ⟨hsorted, hbounds⟩ := ih (cur + 4)
    rw [length_bytes_nop]
    refine ⟨hsorted, fun entry hentry ↦ ?_⟩
    obtain ⟨hlow, hhigh⟩ := hbounds entry hentry
    omega
  | prop entry rest ih =>
    obtain ⟨hsorted, hbounds⟩ := ih (cur + 12 + entry.value.length + entry.pad.length)
    rw [length_bytes_prop]
    refine ⟨hsorted, fun entry hentry ↦ ?_⟩
    obtain ⟨hlow, hhigh⟩ := hbounds entry hentry
    omega
  | node name pad items rest ihitems ih =>
    have hinner : inner cur name pad = cur + 4 + (name.length + 1) + pad.length := rfl
    obtain ⟨hsorted, hbounds⟩ := ihitems (inner cur name pad)
    obtain ⟨hsorted', hbounds'⟩ := ih (inner cur name pad + items.bytes.length + 4)
    rw [length_bytes_node, chains]
    constructor
    · refine List.pairwise_append.mpr ⟨List.pairwise_cons.mpr ⟨?_, ?_⟩, hsorted', ?_⟩
      · intro entry hentry
        obtain ⟨inside, hinside, rfl⟩ := List.mem_map.mp hentry
        exact (hbounds inside hinside).1
      · exact List.pairwise_map.mpr hsorted
      · intro entry hentry after hafter
        have hlow := (hbounds' after hafter).1
        rcases List.mem_cons.mp hentry with rfl | hentry
        · dsimp only
          omega
        · obtain ⟨inside, hinside, rfl⟩ := List.mem_map.mp hentry
          have hhigh := (hbounds inside hinside).2
          dsimp only
          omega
    · intro entry hentry
      rcases List.mem_append.mp hentry with hentry | hentry
      · rcases List.mem_cons.mp hentry with rfl | hentry
        · dsimp only
          omega
        · obtain ⟨inside, hinside, rfl⟩ := List.mem_map.mp hentry
          obtain ⟨hlow, hhigh⟩ := hbounds inside hinside
          dsimp only
          omega
      · obtain ⟨hlow, hhigh⟩ := hbounds' entry hentry
        omega

/-- A node stands in the list once. -/
theorem chains_unique {first second : List (List UInt8) × FdtNode}
    (hfirst : first ∈ items.chains cur) (hsecond : second ∈ items.chains cur)
    (h : first.2 = second.2) : first = second := by
  have hnodup : ((items.chains cur).map fun entry ↦ entry.2.begin).Nodup :=
    List.pairwise_map.mpr ((items.chains_sorted cur).1.imp Nat.ne_of_lt)
  exact List.inj_on_of_nodup_map hnodup hfirst hsecond (congrArg FdtNode.begin h)

theorem names_ne_nil {entry : List (List UInt8) × FdtNode} (h : entry ∈ items.chains cur) :
    entry.1 ≠ [] := by
  induction items generalizing cur with
  | nil => cases h
  | nop rest ih => exact ih h
  | prop entry rest ih => exact ih h
  | node name pad items rest _ ih =>
    rcases List.mem_append.mp h with h | h
    · rcases List.mem_cons.mp h with rfl | h
      · exact List.cons_ne_nil _ _
      · obtain ⟨inside, -, rfl⟩ := List.mem_map.mp h
        exact List.cons_ne_nil _ _
    · exact ih h

/-- The first node in document order whose names match the path. -/
def firstMatch (items : DtItems) (cur : ℕ) (parts : List (List UInt8)) : Option FdtNode :=
  ((items.chains cur).find? fun entry ↦ decide (ChainMatches parts entry.1)).map (·.2)

attribute [local grind =] firstMatch

theorem chainMatches_cons {more names : List (List UInt8)} :
    ChainMatches (part :: more) (name :: names) ↔ PartMatches part name ∧ ChainMatches more names :=
  List.forall₂_cons

/-- Among the descendants of a node, the first match is the first one with the parts behind. -/
theorem find?_below (items : DtItems) (cur : ℕ) (hmatch : PartMatches part name) :
    (((items.chains cur).map fun entry ↦ (name :: entry.1, entry.2)).find? fun entry ↦
        decide (ChainMatches (part :: more) entry.1)).map (·.2) = items.firstMatch cur more := by
  have hbelow : ((fun entry : List (List UInt8) × FdtNode ↦
      decide (ChainMatches (part :: more) entry.1)) ∘
        fun entry : List (List UInt8) × FdtNode ↦ (name :: entry.1, entry.2)) =
          fun entry ↦ decide (ChainMatches more entry.1) := by
    funext entry
    simp [chainMatches_cons, hmatch]
  rw [List.find?_map, hbelow, Option.map_map]
  rfl

theorem firstMatch_node_of_not (hmatch : ¬ PartMatches part name) :
    (node name pad items rest).firstMatch cur (part :: more) =
      rest.firstMatch (inner cur name pad + items.bytes.length + 4) (part :: more) := by
  have hnone : ((node name pad items rest).chains cur).find? (fun entry ↦
      decide (ChainMatches (part :: more) entry.1)) =
        (rest.chains (inner cur name pad + items.bytes.length + 4)).find? fun entry ↦
          decide (ChainMatches (part :: more) entry.1) := by
    rw [chains, List.find?_append, List.find?_eq_none.mpr]
    · rfl
    · intro entry hentry
      rcases List.mem_cons.mp hentry with rfl | hentry
      · simp [chainMatches_cons, hmatch]
      · obtain ⟨inside, -, rfl⟩ := List.mem_map.mp hentry
        simp [chainMatches_cons, hmatch]
  grind

theorem firstMatch_node_last (hmatch : PartMatches part name) :
    (node name pad items rest).firstMatch cur [part] =
      some ⟨name, inner cur name pad, some (inner cur name pad + items.bytes.length + 4)⟩ := by
  have hchain : ChainMatches [part] [name] := .cons hmatch .nil
  rw [firstMatch, chains, List.cons_append, List.find?_cons_of_pos (by simpa using hchain)]
  rfl

theorem firstMatch_node (hmatch : PartMatches part name) (hmore : more ≠ []) :
    (node name pad items rest).firstMatch cur (part :: more) =
      (items.firstMatch (inner cur name pad) more).or
        (rest.firstMatch (inner cur name pad + items.bytes.length + 4) (part :: more)) := by
  have hself : ¬ ChainMatches (part :: more) [name] := fun h ↦
    hmore (List.forall₂_nil_right_iff.mp (chainMatches_cons.mp h).2)
  rw [firstMatch, chains, List.cons_append, List.find?_cons_of_neg (by simpa using hself),
    List.find?_append, Option.map_or, find?_below items _ hmatch]
  rfl

/-- The chain of first matches leads to the first match, and the search goes along it. -/
theorem search_of_firstChain (h : items.FirstChain parts) :
    ∃ found, items.search cur parts = .inl found ∧ items.firstMatch cur parts = some found := by
  induction items generalizing cur parts with
  | nil => cases h
  | nop rest ih => exact ih h
  | prop entry rest ih => exact ih h
  | node name pad items rest ihitems ih =>
    cases parts with
    | nil => cases h
    | cons part more =>
      rw [FirstChain] at h
      rw [search]
      by_cases hmatch : PartMatches part name
      · rw [if_pos hmatch] at h
        rw [if_pos hmatch]
        by_cases hmore : more = []
        · subst hmore
          exact ⟨_, rfl, firstMatch_node_last hmatch⟩
        · obtain ⟨found, hsearch, hfirst⟩ :=
            @ihitems more (inner cur name pad) (h.resolve_left hmore)
          refine ⟨found, ?_, ?_⟩
          · rw [if_neg hmore, hsearch]
          · rw [firstMatch_node hmatch hmore, hfirst]
            rfl
      · rw [if_neg hmatch] at h
        rw [if_neg hmatch, firstMatch_node_of_not hmatch]
        exact ih h

theorem length_leftOver {left : List (List UInt8)} (h : items.leftOver parts = some left) :
    left.length ≤ parts.length := by
  induction items generalizing parts left with
  | nil =>
    cases h
    exact Nat.le_refl _
  | nop rest ih => exact ih h
  | prop entry rest ih => exact ih h
  | node name pad items rest ihitems ih =>
    cases parts with
    | nil => exact ih h
    | cons part more =>
      rw [leftOver] at h
      split at h
      · split at h
        · cases h
        · obtain ⟨between, hbetween, hleft⟩ := Option.bind_eq_some_iff.mp h
          have hle := ihitems hbetween
          have hle' := ih hleft
          rw [List.length_cons]
          omega
      · exact ih h

/-- The search finds a node that stands no deeper than the path is long. -/
theorem search_mem {found : FdtNode} (h : items.search cur parts = .inl found) :
    ∃ names, (names, found) ∈ items.chains cur ∧ names.length ≤ parts.length := by
  induction items generalizing cur parts with
  | nil => cases h
  | nop rest ih => exact ih h
  | prop entry rest ih => exact ih h
  | node name pad items rest ihitems ih =>
    have hrest : ∀ {parts'}, parts'.length ≤ parts.length →
        rest.search (inner cur name pad + items.bytes.length + 4) parts' = .inl found →
          ∃ names, (names, found) ∈ (node name pad items rest).chains cur ∧
            names.length ≤ parts.length := by
      intro parts' hle hsearch
      obtain ⟨names, hmem, hnames⟩ := ih hsearch
      exact ⟨names, List.mem_append_right _ hmem, hnames.trans hle⟩
    cases parts with
    | nil => exact hrest (Nat.le_refl _) h
    | cons part more =>
      rw [search] at h
      split at h
      · split at h
        · cases h
          exact ⟨[name], List.mem_append_left _ List.mem_cons_self,
            Nat.succ_le_succ (Nat.zero_le _)⟩
        · cases hsearch : items.search (inner cur name pad) more with
          | inl inside =>
            rw [hsearch] at h
            cases h
            obtain ⟨names, hmem, hnames⟩ := ihitems hsearch
            refine ⟨name :: names, List.mem_append_left _ (List.mem_cons_of_mem _ ?_),
              Nat.succ_le_succ hnames⟩
            exact List.mem_map.mpr ⟨_, hmem, rfl⟩
          | inr left =>
            rw [hsearch] at h
            have hle := length_leftOver ((search_eq_inr _ _).mp hsearch)
            exact hrest (hle.trans (Nat.le_succ _)) h
      · exact hrest (Nat.le_refl _) h

/-- Off the chain of first matches, it finds a node that does not stand as deep. -/
theorem search_of_not_firstChain {found : FdtNode} (hchain : ¬ items.FirstChain parts)
    (h : items.search cur parts = .inl found) :
    ∃ names, (names, found) ∈ items.chains cur ∧ names.length < parts.length := by
  induction items generalizing cur parts with
  | nil => cases h
  | nop rest ih => exact ih hchain h
  | prop entry rest ih => exact ih hchain h
  | node name pad items rest ihitems ih =>
    have hrest : ∀ {names},
        (names, found) ∈ rest.chains (inner cur name pad + items.bytes.length + 4) →
        (names, found) ∈ (node name pad items rest).chains cur := fun hmem ↦
      List.mem_append_right _ hmem
    cases parts with
    | nil =>
      obtain ⟨names, hmem, hnames⟩ := search_mem h
      exact absurd (List.length_eq_zero_iff.mp (Nat.le_zero.mp hnames)) (names_ne_nil hmem)
    | cons part more =>
      rw [search] at h
      rw [FirstChain] at hchain
      by_cases hmatch : PartMatches part name
      · rw [if_pos hmatch] at h hchain
        obtain ⟨hmore, hbelow⟩ := not_or.mp hchain
        rw [if_neg hmore] at h
        cases hsearch : items.search (inner cur name pad) more with
        | inl inside =>
          rw [hsearch] at h
          cases h
          obtain ⟨names, hmem, hnames⟩ := ihitems hbelow hsearch
          refine ⟨name :: names, List.mem_append_left _ (List.mem_cons_of_mem _ ?_),
            Nat.succ_lt_succ hnames⟩
          exact List.mem_map.mpr ⟨_, hmem, rfl⟩
        | inr left =>
          rw [hsearch] at h
          have hle := length_leftOver ((search_eq_inr _ _).mp hsearch)
          obtain ⟨names, hmem, hnames⟩ := search_mem h
          exact ⟨names, hrest hmem, Nat.lt_succ_of_le (hnames.trans hle)⟩
      · rw [if_neg hmatch] at h hchain
        obtain ⟨names, hmem, hnames⟩ := ih hchain h
        exact ⟨names, hrest hmem, hnames⟩

end DtItems

end Brutal.Hw
