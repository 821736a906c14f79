import Brutal.Alloc.HeapPlace

/-!
# Finding a major for a block

The loop of `heap_alloc_acquire` over the majors starts at the best bet, goes on at the root when
it has come to the end, and appends a major when no one has room.  A major that is appended has
room, so every call appends one at most.
-/

namespace Brutal.Alloc

open Brutal.Lib

/-- All blocks of the heap. -/
def allBlocks (chunks : List Chunk) : List Block := chunks.flatMap Chunk.blocks

/-- What `heap_alloc_acquire` does when it returns: there is one block more, and no chunk without
blocks. -/
def Acquired (h : Heap) (blocks : List Block) (size pointer : ℕ) (h' : Heap) : Prop :=
  ∃ (chunks : List Chunk) (new : Block), Represents h' chunks ∧
    (∀ chunk ∈ chunks, chunk.blocks ≠ []) ∧ (allBlocks chunks).Perm (new :: blocks) ∧
    new.pointer = pointer ∧ new.size = size ∧ h'.bytes = h.bytes

variable {h : Heap} {chunks before after : List Chunk} {chunk : Chunk} {size base : ℕ}

theorem Placed.acquired {h₀ : Heap} {pointer : ℕ} {h' : Heap}
    (hplaced : Placed h before chunk after size pointer h')
    (hothers : ∀ other ∈ before ++ after, other.blocks ≠ []) (hbytes : h.bytes = h₀.bytes) :
    Acquired h₀ (allBlocks (before ++ chunk :: after)) size pointer h' := by
  obtain ⟨chunk', first, second, new, hr, hblocks, hblocks', hpointer, hsize, hbytes', _⟩ := hplaced
  refine ⟨before ++ chunk' :: after, new, hr, ?_, ?_, hpointer, hsize, hbytes'.trans hbytes⟩
  · intro other hother
    rw [List.mem_append, List.mem_cons, or_left_comm, ← List.mem_append] at hother
    rcases hother with rfl | hother
    · rw [hblocks']
      simp
    · exact hothers other hother
  · simp only [allBlocks, List.flatMap_append, List.flatMap_cons, hblocks, hblocks',
      List.append_assoc, List.cons_append]
    exact (List.perm_middle.append_left _).trans (by simp)

section Create

theorem majorPages_spec (hsmall : size ≤ 2 ^ 64 - 4224) (nodeSize : NodeSize) :
    size + majorBlockHeaderSize + minorBlockHeaderSize ≤ majorPages size nodeSize * pageSize ∧
      majorPages size nodeSize * pageSize < 2 ^ 64 := by
  have hnode : nodeSize.bytes / pageSize ≤ 32 := by
    cases nodeSize <;> decide
  rw [majorPages, majorBlockHeaderSize, minorBlockHeaderSize, pageSize] at *
  rw [add_eq (by omega : size + 64 < 2 ^ 64), add_eq (by omega)]
  split <;> omega

/-- `major_block_create` returns a chunk without blocks, which has room for the block, unless the
system has no such area. -/
theorem majorBlockCreate_spec (h : Heap) (hsmall : size ≤ 2 ^ 64 - 4224) (base : ℕ) :
    (¬ Fresh h ⟨base, majorPages size h.size * pageSize⟩ ∧
      majorBlockCreate h size base = .error .outOfMemory) ∨
    ∃ new : Chunk, new.addr = base ∧ new.blocks = [] ∧
      size + majorBlockHeaderSize + minorBlockHeaderSize ≤ new.size ∧
      (∀ other ∈ h.held, new.area.Disjoint other) ∧
      majorBlockCreate h size base = .ok { h with
        majors := Function.update h.majors new.addr (some (new.header none none))
        held := new.area :: h.held
        acquired := new.area :: h.acquired } := by
  have hpages := majorPages_spec hsmall h.size
  have hmul : mul (majorPages size h.size) pageSize = majorPages size h.size * pageSize :=
    Nat.mod_eq_of_lt hpages.2
  by_cases hfresh : Fresh h ⟨base, majorPages size h.size * pageSize⟩
  · let new : Chunk :=
      { addr := base
        pages := majorPages size h.size
        blocks := []
        nonnull := hfresh.1
        bounded := hfresh.2.1
        laid := by
          rw [laid_nil]
          omega
        requested := nofun }
    refine Or.inr ⟨new, rfl, rfl, hpages.1, hfresh.2.2, ?_⟩
    have hacquire : embedMemAcquire h (majorPages size h.size * pageSize) base =
        .ok { h with held := new.area :: h.held, acquired := new.area :: h.acquired } :=
      if_pos hfresh
    have hmapped : Mapped { h with held := new.area :: h.held,
                                   acquired := new.area :: h.acquired } base := by
      refine ⟨new.area, List.mem_cons_self, Nat.le_refl _, ?_⟩
      change base + 48 ≤ base + majorPages size h.size * pageSize
      rw [majorBlockHeaderSize] at hpages
      omega
    rw [majorBlockCreate, hmul, hacquire, ok_bind, setMajor_ok hmapped]
    rfl
  · left
    refine ⟨hfresh, ?_⟩
    have hacquire : embedMemAcquire h (majorPages size h.size * pageSize) base =
        .error .outOfMemory := if_neg hfresh
    rw [majorBlockCreate, hmul, hacquire]
    rfl

theorem Mapped.mono {h' : Heap} {address : ℕ} (hmapped : Mapped h address)
    (hheld : ∀ area ∈ h.held, area ∈ h'.held) : Mapped h' address := by
  obtain ⟨area, harea, hbounds⟩ := hmapped
  exact ⟨area, hheld area harea, hbounds⟩

/-- The first major. -/
theorem createRoot_spec (hr : Represents h []) (hsmall : size ≤ 2 ^ 64 - 4224) (base : ℕ) :
    (¬ Fresh h ⟨base, majorPages size h.size * pageSize⟩ ∧
      majorBlockCreate h size base = .error .outOfMemory) ∨
    ∃ (new : Chunk) (h' : Heap), new.addr = base ∧ new.blocks = [] ∧
      size + majorBlockHeaderSize + minorBlockHeaderSize ≤ new.size ∧
      majorBlockCreate h size base = .ok h' ∧ Represents { h' with root := some base } [new] ∧
      h'.bytes = h.bytes ∧ h'.size = h.size := by
  rcases majorBlockCreate_spec h hsmall base with hfail | ⟨new, rfl, hblocks, hsize, hfresh, hrun⟩
  · exact Or.inl hfail
  · refine Or.inr ⟨new, _, rfl, hblocks, hsize, hrun, ?_, rfl, rfl⟩
    apply hr.appendChunk hblocks hfresh rfl
    · exact Function.update_self ..
    · nofun
    · intro address haddress _
      exact Function.update_of_ne haddress ..

/-- A major behind the last one. -/
theorem appendMajor_spec {last : Chunk} (hr : Represents h (before ++ [last]))
    (hsmall : size ≤ 2 ^ 64 - 4224) (base : ℕ) :
    (¬ Fresh h ⟨base, majorPages size h.size * pageSize⟩ ∧
      appendMajor h last.addr size base = .error .outOfMemory) ∨
    ∃ (new : Chunk) (h' : Heap), new.addr = base ∧ new.blocks = [] ∧
      size + majorBlockHeaderSize + minorBlockHeaderSize ≤ new.size ∧
      appendMajor h last.addr size base = .ok h' ∧ Represents h' (before ++ [last] ++ [new]) ∧
      h'.bytes = h.bytes ∧ h'.size = h.size := by
  rcases majorBlockCreate_spec h hsmall base with hfail | ⟨new, rfl, hblocks, hsize, hfresh, hrun⟩
  · left
    refine ⟨hfail.1, ?_⟩
    rw [appendMajor, hfail.2]
    rfl
  · have hlast : last ∈ before ++ [last] := by simp
    have hne : last.addr ≠ new.addr := by
      have hsize := last.header_size_le
      have hsize' := new.header_size_le
      rw [majorBlockHeaderSize] at hsize hsize'
      have houtside := Represents.addr_outside (hfresh last.area (hr.area_mem hlast))
        (Nat.le_refl last.addr) (by omega)
      omega
    let majors := Function.update h.majors new.addr (some (new.header none none))
    let majors' := Function.update majors last.addr (some { last.header
      (lastOr Chunk.addr none before) none with next := some new.addr })
    let majors'' := Function.update majors' new.addr (some { new.header none none with
      prev := some last.addr })
    let h₁ : Heap := { h with majors, held := new.area :: h.held,
                              acquired := new.area :: h.acquired }
    have hheader : majors last.addr = some (last.header (lastOr Chunk.addr none before) none) :=
      (Function.update_of_ne hne ..).trans hr.majors_eq
    have hmapped : Mapped h₁ last.addr :=
      (hr.mapped_major hlast).mono fun _ ↦ List.mem_cons_of_mem _
    have hmapped' : Mapped h₁ new.addr := by
      have hsize := new.header_size_le
      rw [majorBlockHeaderSize] at hsize
      refine ⟨new.area, List.mem_cons_self, Nat.le_refl _, ?_⟩
      change new.addr + 48 ≤ new.addr + new.size
      omega
    have hnext : updateMajor h₁ last.addr (fun major ↦ { major with next := some new.addr }) =
        .ok { h₁ with majors := majors' } :=
      updateMajor_ok hheader hmapped _
    have hprev : updateMajor { h₁ with majors := majors' } new.addr
        (fun major ↦ { major with prev := some last.addr }) = .ok { h₁ with majors := majors'' } :=
      updateMajor_ok (h := { h₁ with majors := majors' })
        ((Function.update_of_ne hne.symm ..).trans (Function.update_self ..)) hmapped' _
    refine Or.inr ⟨new, { h₁ with majors := majors'' }, rfl, hblocks, hsize, ?_, ?_, rfl, rfl⟩
    · rw [appendMajor, hrun, ok_bind]
      simp only [hnext, ok_bind, hprev, h₁, majors]
    · have hends : lastOr Chunk.addr none (before ++ [last]) = some last.addr := by simp
      apply hr.appendChunk hblocks hfresh
      · rw [hr.root, firstOr_append, firstOr_append, firstOr_append]
        rfl
      · rw [hends]
        exact Function.update_self ..
      · intro address major haddress haddress' hmajor
        rw [hends] at haddress
        cases haddress
        rw [hr.majors_eq] at hmajor
        cases hmajor
        exact (Function.update_of_ne hne ..).trans (Function.update_self ..)
      · intro address haddress haddress'
        have hother : address ≠ last.addr := fun heq ↦ haddress' (by rw [hends, heq])
        exact (Function.update_of_ne haddress ..).trans ((Function.update_of_ne hother ..).trans
          (Function.update_of_ne haddress ..))

end Create

theorem Represents.setBest (hr : Represents h chunks) (hchunk : chunk ∈ chunks) :
    Represents { h with best := some chunk.addr } chunks where
  root := hr.root
  best := by
    intro best hbest
    cases hbest
    exact ⟨chunk, hchunk, rfl⟩
  majors := hr.majors
  minors := hr.minors
  disjoint := hr.disjoint
  held := hr.held
  balanced := hr.balanced

/-- The search is at a chunk.  Only that chunk can be without blocks, and then it is the one that
was created for the block; otherwise no area has been acquired since the search began. -/
structure Searching (h₀ : Heap) (blocks : List Block) (size : ℕ) (s : Search)
    (before : List Chunk) (chunk : Chunk) (after : List Chunk) : Prop where
  represents : Represents s.heap (before ++ chunk :: after)
  maj : s.maj = chunk.addr
  others : ∀ other ∈ before ++ after, other.blocks ≠ []
  room : chunk.blocks = [] → size + majorBlockHeaderSize + minorBlockHeaderSize ≤ chunk.size
  same : allBlocks (before ++ chunk :: after) = blocks
  bytes : s.heap.bytes = h₀.bytes
  node : s.heap.size = h₀.size
  fresh : chunk.blocks ≠ [] → s.heap.held = h₀.held

/-- The turns that the search can still take. -/
def turnsLeft (started : Bool) (before : List Chunk) (chunk : Chunk) (after : List Chunk) : ℕ :=
  if chunk.blocks = [] then 0
  else 1 + after.length + if started then (before ++ chunk :: after).length else 0

/-- What one turn of the search does. -/
def TurnDone (h₀ : Heap) (blocks : List Block) (size base left : ℕ)
    (result : Except HeapFault (Search ⊕ (Option ℕ × Heap))) : Prop :=
  (¬ Fresh h₀ ⟨base, majorPages size h₀.size * pageSize⟩ ∧ result = .error .outOfMemory) ∨
  (∃ pointer h', result = .ok (.inr (some pointer, h')) ∧ Acquired h₀ blocks size pointer h') ∨
  ∃ (s : Search) (before : List Chunk) (chunk : Chunk) (after : List Chunk),
    result = .ok (.inl s) ∧ Searching h₀ blocks size s before chunk after ∧
      turnsLeft s.startedWithBestbet before chunk after < left

section Turn

variable {h₀ : Heap} {blocks : List Block} {s : Search}
  (hs : Searching h₀ blocks size s before chunk after) (hpos : 0 < size)
  (hsmall : size ≤ 2 ^ 64 - 4224)
include hs

theorem Searching.all_nonempty (hblocks : chunk.blocks ≠ []) :
    ∀ other ∈ before ++ chunk :: after, other.blocks ≠ [] := by
  intro other hother
  rw [List.mem_append, List.mem_cons, or_left_comm, ← List.mem_append] at hother
  rcases hother with rfl | hother
  · exact hblocks
  · exact hs.others other hother

/-- The search moves to another chunk of the same heap. -/
theorem Searching.move (hblocks : chunk.blocks ≠ []) {before' after' : List Chunk} {chunk' : Chunk}
    (hchunks : before ++ chunk :: after = before' ++ chunk' :: after') (started : Bool) :
    Searching h₀ blocks size
        { s with maj := chunk'.addr, startedWithBestbet := started } before' chunk' after' where
  represents := hchunks ▸ hs.represents
  maj := rfl
  others := by
    intro other hother
    apply hs.all_nonempty hblocks
    rw [hchunks, List.mem_append, List.mem_cons, or_left_comm, ← List.mem_append]
    exact Or.inr hother
  room := by
    intro hnil
    have hmem : chunk' ∈ before ++ chunk :: after := by
      rw [hchunks]
      simp
    exact absurd hnil (hs.all_nonempty hblocks chunk' hmem)
  same := hchunks ▸ hs.same
  bytes := hs.bytes
  node := hs.node
  fresh := fun _ ↦ hs.fresh hblocks

/-- There is a next major. -/
theorem turnDone_next (hblocks : chunk.blocks ≠ []) {next : Chunk} {rest : List Chunk}
    (hafter : after = next :: rest) (base : ℕ) :
    TurnDone h₀ blocks size base (turnsLeft s.startedWithBestbet before chunk after)
      (.ok (.inl { s with maj := next.addr })) := by
  have hchunks : before ++ chunk :: after = (before ++ [chunk]) ++ next :: rest := by
    rw [hafter, List.append_cons]
  have hnext : next.blocks ≠ [] := hs.others next (by simp [hafter])
  refine Or.inr (Or.inr ⟨_, before ++ [chunk], next, rest, rfl,
    hs.move hblocks hchunks s.startedWithBestbet, ?_⟩)
  rw [turnsLeft, turnsLeft, if_neg hnext, if_neg hblocks, ← hchunks, hafter, List.length_cons]
  exact Nat.add_lt_add_right (by omega) _

/-- The search starts again at the root. -/
theorem turnDone_restart (hblocks : chunk.blocks ≠ []) (hafter : after = [])
    (hstarted : s.startedWithBestbet = true) (base : ℕ) :
    TurnDone h₀ blocks size base (turnsLeft s.startedWithBestbet before chunk after)
      (.ok (restart s)) := by
  obtain ⟨root, rest, hchunks⟩ :
      ∃ root rest, before ++ chunk :: after = [] ++ root :: rest := by
    cases before with
    | nil => exact ⟨chunk, after, rfl⟩
    | cons root rest => exact ⟨root, rest ++ chunk :: after, rfl⟩
  have hroot : s.heap.root = some root.addr := by
    rw [hs.represents.root, hchunks]
    rfl
  have hnonempty : root.blocks ≠ [] := by
    apply hs.all_nonempty hblocks
    rw [hchunks]
    simp
  refine Or.inr (Or.inr ⟨_, [], root, rest, ?_, hs.move hblocks hchunks false, ?_⟩)
  · rw [restart, hroot]
  · rw [turnsLeft, turnsLeft, if_neg hnonempty, if_neg hblocks, hchunks, hstarted, hafter]
    simp

/-- A major is appended, and the search is at it. -/
theorem searching_append (hblocks : chunk.blocks ≠ []) (hafter : after = [])
    (hsmall : size ≤ 2 ^ 64 - 4224) (base : ℕ) :
    (¬ Fresh h₀ ⟨base, majorPages size h₀.size * pageSize⟩ ∧
      appendMajor s.heap s.maj size base = .error .outOfMemory) ∨
    ∃ (new : Chunk) (h' : Heap), new.blocks = [] ∧
      appendMajor s.heap s.maj size base = .ok h' ∧
      Searching h₀ blocks size { s with heap := h', maj := base } (before ++ [chunk]) new [] := by
  have hr := hs.represents
  rw [hafter] at hr
  rw [hs.maj]
  rcases appendMajor_spec hr hsmall base with ⟨hfresh, hfail⟩ |
    ⟨new, h', haddr, hnew, hsize, hrun, hr', hbytes, hnode⟩
  · left
    refine ⟨?_, hfail⟩
    intro hfresh'
    apply hfresh
    rw [Fresh, hs.fresh hblocks, hs.node]
    exact hfresh'
  · refine Or.inr ⟨new, h', hnew, hrun, hr', haddr.symm, ?_, fun _ ↦ hsize, ?_,
      hbytes.trans hs.bytes, hnode.trans hs.node, fun hne ↦ absurd hnew hne⟩
    · rw [List.append_nil, ← hafter]
      exact hs.all_nonempty hblocks
    · rw [← hs.same, hafter]
      simp [allBlocks, hnew]

/-- CASE 5: no gap of the major is large enough. -/
theorem fillMajor_full (hblocks : chunk.blocks ≠ [])
    (hplace : placeBlock s.heap s.maj size = .ok (none, s.heap)) (hsmall : size ≤ 2 ^ 64 - 4224)
    (base : ℕ) :
    TurnDone h₀ blocks size base (turnsLeft s.startedWithBestbet before chunk after)
      (fillMajor size base s) := by
  have hmajor := hs.represents.getMajor_eq
  rw [← hs.maj] at hmajor
  rw [fillMajor, hplace, ok_bind]
  simp only [hmajor, ok_bind, Chunk.header]
  cases after with
  | cons next rest => exact turnDone_next hs hblocks rfl base
  | nil =>
    rw [firstOr_nil]
    by_cases hstarted : s.startedWithBestbet = true
    · simp only [if_pos hstarted]
      exact turnDone_restart hs hblocks rfl hstarted base
    · simp only [if_neg hstarted]
      rcases searching_append hs hblocks rfl hsmall base with ⟨hfresh, hfail⟩ |
        ⟨new, h', hnew, hrun, hnext⟩
      · left
        refine ⟨hfresh, ?_⟩
        rw [hfail]
        rfl
      · refine Or.inr (Or.inr ⟨_, before ++ [chunk], new, [], ?_, hnext, ?_⟩)
        · rw [hrun]
          rfl
        · rw [turnsLeft, turnsLeft, if_pos hnew, if_neg hblocks]
          omega

/-- CASES 2 to 5.  In a chunk without blocks there is a place. -/
theorem fillMajor_spec (hpos : 0 < size) (hsmall : size ≤ 2 ^ 64 - 4224) (base : ℕ) :
    (chunk.blocks ≠ [] ∧ TurnDone h₀ blocks size base
        (turnsLeft s.startedWithBestbet before chunk after) (fillMajor size base s)) ∨
      ∃ pointer h', fillMajor size base s = .ok (.inr (some pointer, h')) ∧
        Acquired h₀ blocks size pointer h' := by
  have hsum : size + minorBlockHeaderSize < 2 ^ 64 := by
    rw [minorBlockHeaderSize]
    omega
  have hplace := placeBlock_spec hs.represents hsum hpos hs.room
  rw [← hs.maj] at hplace
  rcases hplace with ⟨hblocks, hplace⟩ | ⟨pointer, h', hplace, hplaced⟩
  · exact Or.inl ⟨hblocks, fillMajor_full hs hblocks hplace hsmall base⟩
  · refine Or.inr ⟨pointer, h', ?_, ?_⟩
    · rw [fillMajor, hplace, ok_bind]
      rfl
    · rw [← hs.same]
      exact hplaced.acquired hs.others hs.bytes

end Turn

/-- The best bet may change. -/
theorem Searching.rememberBest {h₀ : Heap} {blocks : List Block} {s : Search}
    (hs : Searching h₀ blocks size s before chunk after) (majDiff : ℕ) :
    Searching h₀ blocks size (rememberBest s majDiff) before chunk after := by
  rw [Alloc.rememberBest]
  split
  · constructor
    · rw [hs.maj]
      exact hs.represents.setBest (by simp)
    · exact hs.maj
    · exact hs.others
    · exact hs.room
    · exact hs.same
    · exact hs.bytes
    · exact hs.node
    · exact hs.fresh
  · exact hs

theorem rememberBest_started (s : Search) (majDiff : ℕ) :
    (rememberBest s majDiff).startedWithBestbet = s.startedWithBestbet := by
  rw [rememberBest]
  split <;> rfl

/-- CASES 1 to 5. -/
theorem tryMajor_spec {h₀ : Heap} {blocks : List Block} {s : Search}
    (hs : Searching h₀ blocks size s before chunk after) (hpos : 0 < size)
    (hsmall : size ≤ 2 ^ 64 - 4224) (base : ℕ) :
    TurnDone h₀ blocks size base (turnsLeft s.startedWithBestbet before chunk after)
      (tryMajor size base (chunk.size - chunk.usage) (firstOr Chunk.addr after none) s) := by
  have hneed : add size minorBlockHeaderSize = size + minorBlockHeaderSize := add_eq (by
    rw [minorBlockHeaderSize]
    omega)
  unfold tryMajor
  rw [hneed]
  by_cases hfew : chunk.size - chunk.usage < size + minorBlockHeaderSize
  · rw [if_pos hfew]
    have hblocks : chunk.blocks ≠ [] := by
      intro hnil
      have hroom := hs.room hnil
      rw [Chunk.usage, hnil, List.map_nil, List.sum_nil] at hfew
      omega
    cases after with
    | cons next rest => exact turnDone_next hs hblocks rfl base
    | nil =>
      rw [firstOr_nil]
      by_cases hstarted : s.startedWithBestbet = true
      · simp only [if_pos hstarted]
        exact turnDone_restart hs hblocks rfl hstarted base
      · simp only [if_neg hstarted]
        rcases searching_append hs hblocks rfl hsmall base with ⟨hfresh, hfail⟩ |
          ⟨new, h', hnew, hrun, hnext⟩
        · left
          refine ⟨hfresh, ?_⟩
          rw [hfail]
          rfl
        · rw [hrun, ok_bind]
          rcases fillMajor_spec hnext hpos hsmall base with ⟨hne, _⟩ | hdone
          · exact absurd hnew hne
          · exact Or.inr (Or.inl hdone)
  · rw [if_neg hfew]
    rcases fillMajor_spec hs hpos hsmall base with ⟨_, hdone⟩ | hdone
    · exact hdone
    · exact Or.inr (Or.inl hdone)

/-- One turn of the loop. -/
theorem searchBody_spec {h₀ : Heap} {blocks : List Block} {s : Search}
    (hs : Searching h₀ blocks size s before chunk after) (hpos : 0 < size)
    (hsmall : size ≤ 2 ^ 64 - 4224) (base : ℕ) :
    TurnDone h₀ blocks size base (turnsLeft s.startedWithBestbet before chunk after)
      (searchBody size base s) := by
  have hmajor := hs.represents.getMajor_eq
  rw [← hs.maj] at hmajor
  have hdiff : sub chunk.size chunk.usage = chunk.size - chunk.usage :=
    sub_eq chunk.usage_le chunk.size_lt
  have hrun : searchBody size base s = tryMajor size base (chunk.size - chunk.usage)
      (firstOr Chunk.addr after none) (rememberBest s (chunk.size - chunk.usage)) := by
    rw [searchBody, hmajor, ok_bind, ← hdiff]
    rfl
  have htry := tryMajor_spec (hs.rememberBest (chunk.size - chunk.usage)) hpos hsmall base
  rw [rememberBest_started] at htry
  rw [hrun]
  exact htry

/-- The whole search. -/
theorem searchLoop {h₀ : Heap} {blocks : List Block} {s : Search}
    (hs : Searching h₀ blocks size s before chunk after) (hpos : 0 < size)
    (hsmall : size ≤ 2 ^ 64 - 4224)
    (base : ℕ) {turns : ℕ} (hturns : turnsLeft s.startedWithBestbet before chunk after < turns) :
    (¬ Fresh h₀ ⟨base, majorPages size h₀.size * pageSize⟩ ∧
      loop (searchBody size base) .turns turns s = .error .outOfMemory) ∨
    ∃ pointer h', loop (searchBody size base) .turns turns s = .ok (some pointer, h') ∧
      Acquired h₀ blocks size pointer h' := by
  induction turns generalizing s before chunk after with
  | zero => exact absurd hturns (Nat.not_lt_zero _)
  | succ turns ih =>
    rcases searchBody_spec hs hpos hsmall base with ⟨hfresh, hbody⟩ |
      ⟨pointer, h', hbody, hdone⟩ | ⟨s', before', chunk', after', hbody, hs', hless⟩
    · exact Or.inl ⟨hfresh, loop_stop hbody _⟩
    · exact Or.inr ⟨pointer, h', loop_leave hbody _, hdone⟩
    · rw [loop_turn hbody]
      exact ih hs' (by omega)

/-- The search starts at a chunk of the heap. -/
theorem searchStart_spec {h₀ : Heap} {blocks : List Block} {root : Chunk} {rest : List Chunk}
    (hr : Represents h (root :: rest))
    (hat : ∀ before chunk after bestSize started, root :: rest = before ++ chunk :: after →
      Searching h₀ blocks size ⟨h, chunk.addr, bestSize, started⟩ before chunk after) :
    ∃ (s : Search) (before : List Chunk) (chunk : Chunk) (after : List Chunk),
      searchStart h size root.addr = .ok s ∧
        Searching h₀ blocks size s before chunk after ∧
        turnsLeft s.startedWithBestbet before chunk after ≤ 2 * (root :: rest).length := by
  have hroot : ∀ bestSize, ∃ (s : Search) (before : List Chunk) (chunk : Chunk)
      (after : List Chunk), (⟨h, root.addr, bestSize, false⟩ : Search) = s ∧
        Searching h₀ blocks size s before chunk after ∧
        turnsLeft s.startedWithBestbet before chunk after ≤ 2 * (root :: rest).length := by
    intro bestSize
    refine ⟨_, [], root, rest, rfl, hat [] root rest bestSize false rfl, ?_⟩
    rw [turnsLeft, List.length_cons]
    split
    · omega
    · simp only [Bool.false_eq_true, if_false]
      omega
  cases hbest : h.best with
  | none =>
    obtain ⟨s, before, chunk, after, rfl, hs⟩ := hroot 0
    refine ⟨_, before, chunk, after, ?_, hs⟩
    rw [searchStart, hbest]
    rfl
  | some best =>
    obtain ⟨chunk, hchunk, rfl⟩ := hr.best best hbest
    obtain ⟨before, after, hchunks⟩ := List.append_of_mem hchunk
    have hmajor := (hchunks ▸ hr).getMajor_eq
    have hstart : searchStart h size root.addr =
        if sub chunk.size chunk.usage > add size minorBlockHeaderSize then
          .ok ⟨h, chunk.addr, sub chunk.size chunk.usage, true⟩
        else .ok ⟨h, root.addr, sub chunk.size chunk.usage, false⟩ := by
      rw [searchStart, hbest]
      simp only [hmajor, ok_bind]
      rfl
    rw [hstart]
    split
    · refine ⟨_, before, chunk, after, rfl, hat before chunk after _ true hchunks, ?_⟩
      rw [turnsLeft, hchunks, List.length_append, List.length_cons]
      split
      · omega
      · rw [if_pos rfl]
        omega
    · obtain ⟨s, before, chunk, after, rfl, hs⟩ := hroot (sub chunk.size chunk.usage)
      exact ⟨_, before, chunk, after, rfl, hs⟩

/-- `heap_alloc_acquire` returns a new block, unless the system has no area for it. -/
theorem acquireAligned_spec (hr : Represents h chunks)
    (hnonempty : ∀ chunk ∈ chunks, chunk.blocks ≠ []) (hpos : 0 < size)
    (hsmall : size ≤ 2 ^ 64 - 4224) (base : ℕ) :
    (¬ Fresh h ⟨base, majorPages size h.size * pageSize⟩ ∧
      acquireAligned h size base = .error .outOfMemory) ∨
    ∃ pointer h', acquireAligned h size base = .ok (some pointer, h') ∧
      Acquired h (allBlocks chunks) size pointer h' := by
  cases chunks with
  | nil =>
    have hroot : h.root = none := hr.root
    rcases createRoot_spec hr hsmall base with ⟨hfresh, hfail⟩ |
      ⟨new, h', haddr, hnew, hsize, hrun, hr', hbytes, hnode⟩
    · left
      refine ⟨hfresh, ?_⟩
      rw [acquireAligned, hroot]
      simp only [hfail]
      rfl
    · have hat : ∀ before chunk after bestSize started, [new] = before ++ chunk :: after →
          Searching h (allBlocks []) size
            ⟨{ h' with root := some base }, chunk.addr, bestSize, started⟩ before chunk after := by
        intro before chunk after bestSize started hchunks
        obtain ⟨rfl, rfl, rfl⟩ : before = [] ∧ chunk = new ∧ after = [] := by
          simpa [List.singleton_eq_append_iff] using hchunks
        refine ⟨hr', rfl, nofun, fun _ ↦ hsize, ?_, hbytes, hnode, fun hne ↦ absurd hnew hne⟩
        simp [allBlocks, hnew]
      have hstarted := searchStart_spec hr' hat
      rw [haddr] at hstarted
      obtain ⟨s, before, chunk, after, hstart, hs, hturns⟩ := hstarted
      have hlength := hr'.held.length_eq
      rw [List.length_map] at hlength
      have hloop : acquireAligned h size base =
          loop (searchBody size base) .turns (2 * h'.held.length + 2) s := by
        rw [acquireAligned, hroot]
        simp only [hrun, ok_bind, pure_bind, hstart]
      rw [hloop]
      exact searchLoop hs hpos hsmall base (by
        change _ < 2 * ({ h' with root := some base } : Heap).held.length + 2
        omega)
  | cons root rest =>
    have hroot : h.root = some root.addr := hr.root
    have hat : ∀ before chunk after bestSize started, root :: rest = before ++ chunk :: after →
        Searching h (allBlocks (root :: rest)) size ⟨h, chunk.addr, bestSize, started⟩
          before chunk after := by
      intro before chunk after bestSize started hchunks
      have hmem : chunk ∈ root :: rest := by
        rw [hchunks]
        simp
      refine ⟨hchunks ▸ hr, rfl, ?_, fun hnil ↦ absurd hnil (hnonempty chunk hmem), ?_, rfl, rfl,
        fun _ ↦ rfl⟩
      · intro other hother
        apply hnonempty
        rw [hchunks, List.mem_append, List.mem_cons, or_left_comm, ← List.mem_append]
        exact Or.inr hother
      · rw [hchunks]
    obtain ⟨s, before, chunk, after, hstart, hs, hturns⟩ := searchStart_spec hr hat
    have hlength := hr.held.length_eq
    rw [List.length_map] at hlength
    have hloop : acquireAligned h size base =
        loop (searchBody size base) .turns (2 * h.held.length + 2) s := by
      rw [acquireAligned, hroot]
      simp only [pure_bind, hstart, ok_bind]
    rw [hloop]
    exact searchLoop hs hpos hsmall base (by omega)

/-- What was asked for, as `heap_alloc_acquire` rounds it. -/
def blockSize (requested : ℕ) : ℕ :=
  if heapAlign requested = 0 then heapAlign 1 else heapAlign requested

theorem heapAllocAcquire_eq (h : Heap) (requested base : ℕ) :
    heapAllocAcquire h requested base = acquireAligned h (blockSize requested) base := by
  rw [heapAllocAcquire, blockSize]
  split <;> rfl

theorem blockSize_bounds {requested : ℕ} (hrequested : requested ≤ 2 ^ 64 - 4224) :
    0 < blockSize requested ∧ blockSize requested ≤ 2 ^ 64 - 4224 ∧
      heapAlign requested ≤ blockSize requested := by
  have halign := heapAlign_eq (hrequested.trans (by decide))
  have hone : heapAlign 1 = 64 := rfl
  rw [blockSize, hone]
  split <;> omega

end Brutal.Alloc
