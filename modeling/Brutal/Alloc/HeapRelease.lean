import Brutal.Alloc.HeapSearch

/-!
# Releasing a block

`heap_alloc_release` unlinks the minor from its major and gives the major back to the system when
it was the last one.
-/

namespace Brutal.Alloc

open Brutal.Lib

/-- The chunk with one block less. -/
def Chunk.withoutBlock (chunk : Chunk) (first : List Block) (block : Block) (second : List Block)
    (hblocks : chunk.blocks = first ++ block :: second) : Chunk :=
  { chunk with
    blocks := first ++ second
    laid := by
      have hlaid := chunk.laid
      rw [hblocks] at hlaid
      exact hlaid.remove
    requested := by
      intro other hother
      apply chunk.requested
      rw [hblocks, List.mem_append, List.mem_cons, or_left_comm, ← List.mem_append]
      exact Or.inr hother }

variable {h : Heap} {chunks before after : List Chunk} {chunk : Chunk} {first second : List Block}
  {block : Block}

/-- A table in which the node at a pointer, if there is one, is changed. -/
def changeAt {Node : Type} (table : ℕ → Option Node) (pointer : Option ℕ) (change : Node → Node) :
    ℕ → Option Node :=
  fun address ↦ if pointer = some address then (table address).map change else table address

section ChangeAt

variable {Node : Type} {table : ℕ → Option Node} {pointer : Option ℕ} {address : ℕ} {node : Node}

theorem changeAt_of_ne (h : pointer ≠ some address) (change : Node → Node) :
    changeAt table pointer change address = table address := if_neg h

theorem changeAt_of_eq (h : pointer = some address) (hnode : table address = some node)
    (change : Node → Node) : changeAt table pointer change address = some (change node) := by
  rw [changeAt, if_pos h, hnode, Option.map_some]

theorem exists_changeAt (h : ∃ node, table address = some node) (change : Node → Node) :
    ∃ node, changeAt table pointer change address = some node := by
  obtain ⟨node, hnode⟩ := h
  by_cases hpointer : pointer = some address
  · exact ⟨_, changeAt_of_eq hpointer hnode change⟩
  · exact ⟨node, (changeAt_of_ne hpointer change).trans hnode⟩

theorem changeAt_none (change : Node → Node) : changeAt table none change = table := by
  funext address
  exact changeAt_of_ne (Option.some_ne_none address).symm change

theorem changeAt_some (hnode : table address = some node) (change : Node → Node) :
    changeAt table (some address) change = Function.update table address (some (change node)) := by
  funext other
  by_cases hother : other = address
  · rw [hother, Function.update_self, changeAt_of_eq rfl hnode]
  · rw [Function.update_of_ne hother]
    exact changeAt_of_ne (fun heq ↦ hother (Option.some.inj heq).symm) change

end ChangeAt

/-- A write behind a test for `nullptr`. -/
theorem updateMinorAt_ok {pointer : Option ℕ} (change : HeapMinor → HeapMinor)
    (hminor : ∀ address, pointer = some address → ∃ minor, h.minors address = some minor)
    (hmapped : ∀ address, pointer = some address → Mapped h address) :
    updateMinorAt h pointer change = .ok { h with minors := changeAt h.minors pointer change } := by
  cases pointer with
  | none => rw [changeAt_none, updateMinorAt]
  | some address =>
    obtain ⟨minor, hminor⟩ := hminor address rfl
    rw [changeAt_some hminor, updateMinorAt, updateMinor_ok hminor (hmapped address rfl)]

theorem updateMajorAt_ok {pointer : Option ℕ} (change : HeapMajor → HeapMajor)
    (hmajor : ∀ address, pointer = some address → ∃ major, h.majors address = some major)
    (hmapped : ∀ address, pointer = some address → Mapped h address) :
    updateMajorAt h pointer change = .ok { h with majors := changeAt h.majors pointer change } := by
  cases pointer with
  | none => rw [changeAt_none, updateMajorAt]
  | some address =>
    obtain ⟨major, hmajor⟩ := hmajor address rfl
    rw [changeAt_some hmajor, updateMajorAt, updateMajor_ok hmajor (hmapped address rfl)]

/-- The usage no longer counts the block. -/
theorem usage_remove {chunk' : Chunk} (hblocks : chunk.blocks = first ++ block :: second)
    (hblocks' : chunk'.blocks = first ++ second) :
    sub chunk.usage (add block.size minorBlockHeaderSize) = chunk'.usage := by
  have husage := usage_insert hblocks' hblocks
  have hle := chunk.usage_le
  have hlt := chunk.size_lt
  rw [minorBlockHeaderSize] at husage
  rw [minorBlockHeaderSize, add_eq (by omega), sub_eq (by omega) (by omega)]
  omega

/-- A block that is the neighbour of another one is linked. -/
theorem Represents.exists_minor (hr : Represents h chunks) (hchunk : chunk ∈ chunks)
    (hblock : block ∈ chunk.blocks) : ∃ minor, h.minors block.addr = some minor := by
  obtain ⟨first, second, hblocks⟩ := List.append_of_mem hblock
  exact ⟨_, hr.minors_eq hchunk hblocks⟩

/-- The neighbours of a block are linked, and they are other blocks. -/
theorem Represents.neighbour_block (hr : Represents h chunks) (hchunk : chunk ∈ chunks)
    (hblocks : chunk.blocks = first ++ block :: second) {address : ℕ}
    (haddress : lastOr Block.addr none first = some address ∨
      firstOr Block.addr second none = some address) :
    address ≠ block.addr ∧ (∃ minor, h.minors address = some minor) ∧ Mapped h address := by
  have hnodup := chunk.blocks_nodup
  rw [hblocks, List.map_append, List.map_cons] at hnodup
  have hout := (List.nodup_cons.mp (List.nodup_middle.mp hnodup)).1
  rw [← List.map_append] at hout
  obtain ⟨other, hother, rfl⟩ : ∃ other ∈ first ++ second, other.addr = address := by
    cases haddress with
    | inl hlast =>
      obtain ⟨other, hother, heq⟩ := exists_of_lastOr hlast
      exact ⟨other, List.mem_append_left _ hother, heq⟩
    | inr hfirst =>
      obtain ⟨other, hother, heq⟩ := exists_of_firstOr hfirst
      exact ⟨other, List.mem_append_right _ hother, heq⟩
  have hother' : other ∈ chunk.blocks := by
    rw [hblocks, List.mem_append, List.mem_cons, or_left_comm, ← List.mem_append]
    exact Or.inr hother
  refine ⟨?_, hr.exists_minor hchunk hother', hr.mapped_minor hchunk hother'⟩
  intro heq
  apply hout
  rw [← heq]
  exact List.mem_map_of_mem hother

/-- The minors when a block is dead and its neighbours are linked to each other. -/
def unlinkedMinors (h : Heap) (chunk : Chunk) (first : List Block) (block : Block)
    (second : List Block) : ℕ → Option HeapMinor :=
  let prev := lastOr Block.addr none first
  let next := firstOr Block.addr second none
  changeAt (changeAt (Function.update h.minors block.addr
      (some { block.header chunk.addr prev next with magic := allocHeapDead })) next
        fun minor ↦ { minor with prev := prev }) prev fun minor ↦ { minor with next := next }

/-- The major when it no longer counts the block. -/
def unlinkedMajors (h : Heap) (before : List Chunk) (chunk : Chunk) (after : List Chunk)
    (block : Block) : ℕ → Option HeapMajor :=
  let header := chunk.header (lastOr Chunk.addr none before) (firstOr Chunk.addr after none)
  Function.update h.majors chunk.addr (some { header with
    usage := sub header.usage (add block.size minorBlockHeaderSize) })

theorem unlinkMinor_eq (hr : Represents h (before ++ chunk :: after))
    (hblocks : chunk.blocks = first ++ block :: second) :
    unlinkMinor h block.addr (block.header chunk.addr (lastOr Block.addr none first)
        (firstOr Block.addr second none)) =
      if lastOr Block.addr none first = none then
        updateMajor { h with
          majors := unlinkedMajors h before chunk after block
          minors := unlinkedMinors h chunk first block second } chunk.addr
          fun major ↦ { major with first := firstOr Block.addr second none }
      else .ok { h with
        majors := unlinkedMajors h before chunk after block
        minors := unlinkedMinors h chunk first block second } := by
  let prev := lastOr Block.addr none first
  let next := firstOr Block.addr second none
  let majors := unlinkedMajors h before chunk after block
  let minors₁ := Function.update h.minors block.addr (some { block.header chunk.addr prev next with
    magic := allocHeapDead })
  let minors₂ := changeAt minors₁ next fun minor ↦ { minor with prev := prev }
  have hmem : chunk ∈ before ++ chunk :: after := List.mem_append_right before List.mem_cons_self
  have hblock : block ∈ chunk.blocks := by
    rw [hblocks]
    exact List.mem_append_right first List.mem_cons_self
  have hkept : ∀ address, prev = some address ∨ next = some address →
      ∃ minor, minors₁ address = some minor := by
    intro address haddress
    obtain ⟨hne, ⟨minor, hminor⟩, _⟩ := hr.neighbour_block hmem hblocks haddress
    exact ⟨minor, (Function.update_of_ne hne ..).trans hminor⟩
  have husage : updateMajor h chunk.addr (fun major ↦ { major with
      usage := sub major.usage (add block.size minorBlockHeaderSize) }) = .ok { h with majors } :=
    updateMajor_ok hr.majors_eq (hr.mapped_major hmem) _
  have hdead : updateMinor { h with majors } block.addr
      (fun minor ↦ { minor with magic := allocHeapDead }) =
        .ok { h with majors, minors := minors₁ } :=
    updateMinor_ok (h := { h with majors }) (hr.minors_eq hmem hblocks)
      (hr.mapped_minor hmem hblock) _
  have hnext : updateMinorAt { h with majors, minors := minors₁ } next
      (fun minor ↦ { minor with prev := prev }) = .ok { h with majors, minors := minors₂ } :=
    updateMinorAt_ok (h := { h with majors, minors := minors₁ }) _
      (fun address haddress ↦ hkept address (Or.inr haddress))
      fun address haddress ↦ (hr.neighbour_block hmem hblocks (Or.inr haddress)).2.2
  have hprev : updateMinorAt { h with majors, minors := minors₂ } prev
      (fun minor ↦ { minor with next := next }) = .ok { h with
        majors, minors := unlinkedMinors h chunk first block second } :=
    updateMinorAt_ok (h := { h with majors, minors := minors₂ }) _
      (fun address haddress ↦ exists_changeAt (hkept address (Or.inl haddress)) _)
      fun address haddress ↦ (hr.neighbour_block hmem hblocks (Or.inl haddress)).2.2
  simp only [prev, next] at hnext hprev
  simp only [unlinkMinor, Block.header, husage, ok_bind, hdead, hnext, hprev]
  rfl

/-- Behind the two neighbours, the list of blocks has one block less. -/
theorem Represents.unlinked (hr : Represents h (before ++ chunk :: after))
    (hblocks : chunk.blocks = first ++ block :: second) {majors : ℕ → Option HeapMajor}
    (hmajor : majors chunk.addr = some ((chunk.withoutBlock first block second hblocks).header
      (lastOr Chunk.addr none before) (firstOr Chunk.addr after none)))
    (hmajors : ∀ address, address ≠ chunk.addr → majors address = h.majors address) :
    Represents { h with majors, minors := unlinkedMinors h chunk first block second }
      (before ++ chunk.withoutBlock first block second hblocks :: after) := by
  let chunk' := chunk.withoutBlock first block second hblocks
  have haddr : chunk'.addr = chunk.addr := rfl
  have hpages : chunk'.pages = chunk.pages := rfl
  have hblocks' : chunk'.blocks = first ++ second := rfl
  apply hr.removeBlock hblocks haddr hpages hblocks' hmajor hmajors
  · intro address minor hlast hne hfirst hminor
    apply changeAt_of_eq hlast
    rw [changeAt_of_ne hfirst]
    exact (Function.update_of_ne hne ..).trans hminor
  · intro address minor hfirst hne hlast hminor
    rw [unlinkedMinors, changeAt_of_ne hlast]
    exact changeAt_of_eq hfirst ((Function.update_of_ne hne ..).trans hminor) _
  · intro address hne hlast hfirst
    rw [unlinkedMinors, changeAt_of_ne hlast, changeAt_of_ne hfirst]
    exact Function.update_of_ne hne ..

theorem unlinkMinor_spec (hr : Represents h (before ++ chunk :: after))
    (hblocks : chunk.blocks = first ++ block :: second) :
    ∃ h', unlinkMinor h block.addr (block.header chunk.addr (lastOr Block.addr none first)
        (firstOr Block.addr second none)) = .ok h' ∧
      Represents h' (before ++ chunk.withoutBlock first block second hblocks :: after) ∧
      h'.bytes = h.bytes := by
  let chunk' := chunk.withoutBlock first block second hblocks
  let majors := unlinkedMajors h before chunk after block
  let minors := unlinkedMinors h chunk first block second
  have hblocks' : chunk'.blocks = first ++ second := rfl
  have hmem : chunk ∈ before ++ chunk :: after := List.mem_append_right before List.mem_cons_self
  have hcount := usage_remove hblocks hblocks'
  have hrun := unlinkMinor_eq hr hblocks
  cases first with
  | nil =>
    let majors' := Function.update majors chunk.addr (some (chunk'.header
      (lastOr Chunk.addr none before) (firstOr Chunk.addr after none)))
    have hfirst : updateMajor { h with majors, minors } chunk.addr
        (fun major ↦ { major with first := firstOr Block.addr second none }) =
          .ok { h with majors := majors', minors } := by
      have hupdate := updateMajor_ok (h := { h with majors, minors })
        (Function.update_self ..) (hr.mapped_major hmem) fun major ↦
          { major with first := firstOr Block.addr second none }
      rw [hupdate]
      simp only [Chunk.header, hcount, majors']
      rfl
    have hmajor : majors' chunk.addr = some (chunk'.header
        (lastOr Chunk.addr none before) (firstOr Chunk.addr after none)) :=
      Function.update_self ..
    have hmajors : ∀ address, address ≠ chunk.addr → majors' address = h.majors address :=
      fun address hne ↦ (Function.update_of_ne hne ..).trans (Function.update_of_ne hne ..)
    exact ⟨_, by rw [hrun, if_pos (lastOr_nil none), hfirst], hr.unlinked hblocks hmajor hmajors,
      rfl⟩
  | cons head rest =>
    have hsome : lastOr Block.addr none (head :: rest) ≠ none := lastOr_some_ne_none head.addr rest
    have hmajor : majors chunk.addr = some (chunk'.header
        (lastOr Chunk.addr none before) (firstOr Chunk.addr after none)) := by
      simp only [majors, unlinkedMajors, Function.update_self, Chunk.header, hcount, hblocks]
      rfl
    have hmajors : ∀ address, address ≠ chunk.addr → majors address = h.majors address :=
      fun address hne ↦ Function.update_of_ne hne ..
    exact ⟨_, by rw [hrun, if_neg hsome], hr.unlinked hblocks hmajor hmajors, rfl⟩

/-- The neighbours of a chunk are linked. -/
theorem Represents.neighbour_chunk (hr : Represents h (before ++ chunk :: after)) {address : ℕ}
    (haddress : lastOr Chunk.addr none before = some address ∨
      firstOr Chunk.addr after none = some address) :
    (∃ major, h.majors address = some major) ∧ Mapped h address := by
  obtain ⟨other, hother, rfl⟩ : ∃ other ∈ before ++ chunk :: after, other.addr = address := by
    cases haddress with
    | inl hlast =>
      obtain ⟨other, hother, heq⟩ := exists_of_lastOr hlast
      exact ⟨other, List.mem_append_left _ hother, heq⟩
    | inr hfirst =>
      obtain ⟨other, hother, heq⟩ := exists_of_firstOr hfirst
      exact ⟨other, List.mem_append_right _ (List.mem_cons_of_mem _ hother), heq⟩
  refine ⟨?_, hr.mapped_major hother⟩
  obtain ⟨front, back, hchunks⟩ := List.append_of_mem hother
  exact ⟨_, (hchunks ▸ hr).majors_eq⟩

/-- The area of a chunk is given back. -/
theorem dropMajor_spec (hr : Represents h (before ++ chunk :: after)) :
    ∃ h', dropMajor h chunk.addr (chunk.header (lastOr Chunk.addr none before)
        (firstOr Chunk.addr after none)) = .ok h' ∧
      Represents h' (before ++ after) ∧ h'.bytes = h.bytes := by
  let prev := lastOr Chunk.addr none before
  let next := firstOr Chunk.addr after none
  let root := if h.root = some chunk.addr then next else h.root
  let best := if h.best = some chunk.addr then none else h.best
  let majors₁ := changeAt h.majors prev fun major ↦ { major with next := next }
  let majors₂ := changeAt majors₁ next fun major ↦ { major with prev := prev }
  have hprev : updateMajorAt { h with root, best } prev
      (fun major ↦ { major with next := next }) = .ok { h with root, best, majors := majors₁ } :=
    updateMajorAt_ok (h := { h with root, best }) _
      (fun address haddress ↦ (hr.neighbour_chunk (Or.inl haddress)).1)
      (fun address haddress ↦ (hr.neighbour_chunk (Or.inl haddress)).2)
  have hnext : updateMajorAt { h with root, best, majors := majors₁ } next
      (fun major ↦ { major with prev := prev }) = .ok { h with root, best, majors := majors₂ } :=
    updateMajorAt_ok (h := { h with root, best, majors := majors₁ }) _
      (fun address haddress ↦ exists_changeAt (hr.neighbour_chunk (Or.inr haddress)).1 _)
      (fun address haddress ↦ (hr.neighbour_chunk (Or.inr haddress)).2)
  have hpages : mul chunk.pages pageSize = chunk.size := Nat.mod_eq_of_lt chunk.size_lt
  have harea : chunk.area ∈ h.held :=
    hr.area_mem (List.mem_append_right before List.mem_cons_self)
  let majors₃ := fun address ↦
    if chunk.addr ≤ address ∧ address < chunk.addr + chunk.size then none else majors₂ address
  let minors := fun address ↦
    if chunk.addr ≤ address ∧ address < chunk.addr + chunk.size then none else h.minors address
  let h' : Heap := { h with root, best, majors := majors₃, minors, held := h.held.erase chunk.area,
                            released := chunk.area :: h.released }
  have hfree : embedMemRelease { h with root, best, majors := majors₂ } chunk.addr chunk.size =
      .ok h' := if_pos harea
  have hkept : ∀ address, address < chunk.addr ∨ chunk.addr + chunk.size ≤ address →
      majors₃ address = majors₂ address ∧ minors address = h.minors address := by
    intro address houtside
    have hnot : ¬ (chunk.addr ≤ address ∧ address < chunk.addr + chunk.size) := by omega
    exact ⟨if_neg hnot, if_neg hnot⟩
  refine ⟨h', ?_, ?_, rfl⟩
  · simp only [prev, next, root, best] at hprev hnext hfree
    simp only [dropMajor, Chunk.header, hpages, hprev, ok_bind, hnext, hfree]
  · apply hr.dropChunk
    · cases before with
      | nil =>
        simp only [root]
        exact if_pos hr.root
      | cons head rest =>
        have hne : head.addr ≠ chunk.addr := hr.others_ne (by simp)
        have hroot : h.root = some head.addr := hr.root
        have hother : h.root ≠ some chunk.addr := by
          rw [hroot]
          exact fun heq ↦ hne (Option.some.inj heq)
        simp only [root, if_neg hother]
        exact hroot
    · intro address haddress
      by_cases hbest : h.best = some chunk.addr
      · simp only [best, if_pos hbest] at haddress
        cases haddress
      · simp only [best, if_neg hbest] at haddress
        exact ⟨haddress, fun heq ↦ hbest (by rw [haddress, heq])⟩
    · intro address major hlast houtside hfirst hmajor
      exact (hkept address houtside).1.trans
        ((changeAt_of_ne hfirst _).trans (changeAt_of_eq hlast hmajor _))
    · intro address major hfirst houtside hlast hmajor
      exact (hkept address houtside).1.trans
        (changeAt_of_eq hfirst ((changeAt_of_ne hlast _).trans hmajor) _)
    · intro address houtside hlast hfirst
      exact (hkept address houtside).1.trans
        ((changeAt_of_ne hfirst _).trans (changeAt_of_ne hlast _))
    · intro address houtside
      exact (hkept address houtside).2

/-- The chunk may become the best bet. -/
theorem improveBest_spec (hr : Represents h chunks) (hchunk : chunk ∈ chunks) (major : HeapMajor) :
    ∃ h', improveBest h chunk.addr major = .ok h' ∧ Represents h' chunks ∧
      h'.bytes = h.bytes := by
  cases hbest : h.best with
  | none =>
    refine ⟨h, ?_, hr, rfl⟩
    rw [improveBest, hbest]
    rfl
  | some best =>
    obtain ⟨other, hother, rfl⟩ := hr.best best hbest
    obtain ⟨prev, next, hmajor⟩ := hr.exists_getMajor hother
    rw [improveBest, hbest]
    dsimp only
    rw [hmajor, ok_bind]
    split
    · exact ⟨_, rfl, hr.setBest hchunk, rfl⟩
    · exact ⟨_, rfl, hr, rfl⟩

/-- What `heap_alloc_release` does: there is one block less, and no chunk without blocks. -/
def Released (h : Heap) (blocks : List Block) (block : Block) (h' : Heap) : Prop :=
  ∃ chunks : List Chunk, Represents h' chunks ∧ (∀ chunk ∈ chunks, chunk.blocks ≠ []) ∧
    blocks.Perm (block :: allBlocks chunks) ∧ h'.bytes = h.bytes

theorem allBlocks_remove (before after : List Chunk) {chunk' : Chunk}
    (hblocks : chunk.blocks = first ++ block :: second)
    (hblocks' : chunk'.blocks = first ++ second) :
    (allBlocks (before ++ chunk :: after)).Perm
      (block :: allBlocks (before ++ chunk' :: after)) := by
  simp only [allBlocks, List.flatMap_append, List.flatMap_cons, hblocks, hblocks',
    List.append_assoc, List.cons_append]
  exact (List.perm_middle.append_left _).trans (by simp)

/-- The pointer that the caller has leads to the header. -/
theorem sub_pointer (hblock : block ∈ chunk.blocks) :
    sub block.pointer minorBlockHeaderSize = block.addr := by
  have hbounds := (Chunk.bounds hblock).2
  have hbounded := chunk.bounded
  rw [← Chunk.size] at hbounded
  rw [Block.stop, minorBlockHeaderSize] at hbounds
  rw [Block.pointer, sub, minorBlockHeaderSize]
  omega

theorem heapAllocRelease_spec (hr : Represents h chunks)
    (hnonempty : ∀ chunk ∈ chunks, chunk.blocks ≠ []) (hchunk : chunk ∈ chunks)
    (hblock : block ∈ chunk.blocks) :
    ∃ h', heapAllocRelease h (some block.pointer) = .ok h' ∧
      Released h (allBlocks chunks) block h' := by
  obtain ⟨before, after, rfl⟩ := List.append_of_mem hchunk
  obtain ⟨first, second, hblocks⟩ := List.append_of_mem hblock
  obtain ⟨h₁, hunlink, hr₁, hbytes₁⟩ := unlinkMinor_spec hr hblocks
  let chunk' := chunk.withoutBlock first block second hblocks
  have hblocks' : chunk'.blocks = first ++ second := rfl
  have hothers : ∀ other ∈ before ++ after, other.blocks ≠ [] := by
    intro other hother
    apply hnonempty
    rw [List.mem_append, List.mem_cons, or_left_comm, ← List.mem_append]
    exact Or.inr hother
  have hperm := allBlocks_remove before after hblocks hblocks'
  have hrun : heapAllocRelease h (some block.pointer) =
      if firstOr Block.addr chunk'.blocks none = none then
        dropMajor h₁ chunk.addr (chunk'.header (lastOr Chunk.addr none before)
          (firstOr Chunk.addr after none))
      else improveBest h₁ chunk.addr (chunk'.header (lastOr Chunk.addr none before)
          (firstOr Chunk.addr after none)) := by
    have hmajor : getMajor h₁ chunk.addr = .ok (chunk'.header (lastOr Chunk.addr none before)
        (firstOr Chunk.addr after none)) := hr₁.getMajor_eq
    have hmagic : ∀ maj prev next, checkMinorMagic (block.header maj prev next) = .ok () :=
      fun _ _ _ ↦ if_pos rfl
    simp only [heapAllocRelease, sub_pointer hblock, hr.getMinor_eq hchunk hblocks, ok_bind, hmagic,
      hunlink]
    rw [Block.header]
    dsimp only
    rw [hmajor, ok_bind]
    rfl
  rw [hrun]
  by_cases hempty : chunk'.blocks = []
  · obtain ⟨h₂, hdrop, hr₂, hbytes₂⟩ := dropMajor_spec hr₁
    refine ⟨h₂, ?_, before ++ after, hr₂, hothers, ?_, hbytes₂.trans hbytes₁⟩
    · rw [hempty, firstOr_nil, if_pos rfl]
      exact hdrop
    · apply hperm.trans
      simp [allBlocks, hempty]
  · have hmem : chunk' ∈ before ++ chunk' :: after := by simp
    obtain ⟨h₂, hbest, hr₂, hbytes₂⟩ := improveBest_spec hr₁ hmem (chunk'.header
      (lastOr Chunk.addr none before) (firstOr Chunk.addr after none))
    refine ⟨h₂, ?_, before ++ chunk' :: after, hr₂, ?_, hperm, hbytes₂.trans hbytes₁⟩
    · have hsome : firstOr Block.addr chunk'.blocks none ≠ none := by
        cases hlist : chunk'.blocks with
        | nil => exact absurd hlist hempty
        | cons head rest => rintro ⟨⟩
      rw [if_neg hsome]
      exact hbest
    · intro other hother
      rw [List.mem_append, List.mem_cons, or_left_comm, ← List.mem_append] at hother
      rcases hother with rfl | hother
      · exact hempty
      · exact hothers other hother

end Brutal.Alloc
