import Brutal.Alloc.Heap
import Brutal.Lib.Layout
import Brutal.Lib.Linked

/-!
# The shape of a heap

A heap is a list of chunks, one for each major, and a chunk is a list of blocks that are laid out
in its area behind the header.  `Represents h chunks` says that the headers in the memory are
those of the chunks and that the system has given out just their areas.  The rules of this module
say what a change of one chunk, a chunk more and a chunk less mean for the memory.
-/

namespace Brutal.Alloc

open Brutal.Lib

/-- A block with its header. -/
structure Block where
  addr : ℕ
  size : ℕ
  reqSize : ℕ
deriving DecidableEq, Repr

/-- The end of a block. -/
def Block.stop (block : Block) : ℕ := block.addr + minorBlockHeaderSize + block.size

/-- The pointer that the caller gets. -/
def Block.pointer (block : Block) : ℕ := block.addr + minorBlockHeaderSize

/-- An area with the blocks in it. -/
structure Chunk where
  addr : ℕ
  pages : ℕ
  blocks : List Block
  nonnull : addr ≠ 0
  bounded : addr + pages * pageSize ≤ 2 ^ 64
  laid : Laid Block.addr Block.stop (addr + majorBlockHeaderSize) blocks (addr + pages * pageSize)
  requested : ∀ block ∈ blocks, block.reqSize ≤ block.size

namespace Chunk

def size (chunk : Chunk) : ℕ := chunk.pages * pageSize

def area (chunk : Chunk) : Area := ⟨chunk.addr, chunk.size⟩

/-- The header and the blocks. -/
def usage (chunk : Chunk) : ℕ :=
  majorBlockHeaderSize + (chunk.blocks.map fun block ↦ minorBlockHeaderSize + block.size).sum

def header (chunk : Chunk) (prev next : Option ℕ) : HeapMajor :=
  { pages := chunk.pages
    size := chunk.size
    usage := chunk.usage
    prev
    next
    first := firstOr Block.addr chunk.blocks none }

theorem header_size_le (chunk : Chunk) : majorBlockHeaderSize ≤ chunk.size := by
  have hlaid := chunk.laid.le
  rw [size]
  omega

/-- The usage of a chunk does not exceed its size. -/
theorem usage_le (chunk : Chunk) : chunk.usage ≤ chunk.size := by
  have hsum := chunk.laid.sum_le
  have heq : (chunk.blocks.map fun block ↦ minorBlockHeaderSize + block.size) =
      chunk.blocks.map fun block ↦ block.stop - block.addr := by
    apply List.map_congr_left
    intro block _
    rw [Block.stop]
    omega
  rw [usage, size, heq]
  omega

theorem size_lt (chunk : Chunk) : chunk.size < 2 ^ 64 := by
  have hbounded := chunk.bounded
  have hnonnull := chunk.nonnull
  rw [size]
  omega

/-- A chunk has fewer blocks than bytes. -/
theorem length_lt_size (chunk : Chunk) : chunk.blocks.length < chunk.size := by
  have husage := chunk.usage_le
  have hlength := List.length_le_sum_of_one_le
    (chunk.blocks.map fun block ↦ minorBlockHeaderSize + block.size) (by
      intro size hsize
      obtain ⟨block, _, rfl⟩ := List.mem_map.mp hsize
      rw [minorBlockHeaderSize]
      omega)
  rw [List.length_map] at hlength
  rw [usage, majorBlockHeaderSize] at husage
  omega

/-- A block lies in its chunk, behind the header. -/
theorem bounds {chunk : Chunk} {block : Block} (hblock : block ∈ chunk.blocks) :
    chunk.addr + majorBlockHeaderSize ≤ block.addr ∧ block.stop ≤ chunk.addr + chunk.size :=
  ⟨(chunk.laid.bounds hblock).1, (chunk.laid.bounds hblock).2.2⟩

theorem blocks_pairwise (chunk : Chunk) :
    chunk.blocks.Pairwise fun earlier later ↦ earlier.stop ≤ later.addr :=
  chunk.laid.pairwise

theorem blocks_sorted (chunk : Chunk) :
    chunk.blocks.Pairwise fun earlier later ↦ earlier.addr < later.addr := by
  apply chunk.blocks_pairwise.imp
  intro earlier later h
  rw [Block.stop, minorBlockHeaderSize] at h
  omega

theorem blocks_nodup (chunk : Chunk) : (chunk.blocks.map Block.addr).Nodup :=
  List.pairwise_map.mpr (chunk.blocks_sorted.imp fun h ↦ Nat.ne_of_lt h)

end Chunk

def Block.header (block : Block) (maj : ℕ) (prev next : Option ℕ) : HeapMinor :=
  { magic := allocHeapMagic
    size := block.size
    reqSize := block.reqSize
    prev
    next
    block := maj }

/-- The minors of a chunk are a doubly linked list of headers. -/
def MinorsLinked (minors : ℕ → Option HeapMinor) (maj : ℕ) (blocks : List Block) : Prop :=
  Linked Block.addr (fun prev block next ↦ minors block.addr = some (block.header maj prev next))
    none blocks none

/-- The majors are a doubly linked list of headers. -/
def MajorsLinked (majors : ℕ → Option HeapMajor) (chunks : List Chunk) : Prop :=
  Linked Chunk.addr (fun prev chunk next ↦ majors chunk.addr = some (chunk.header prev next))
    none chunks none

/-- The memory holds the chunks. -/
structure Represents (h : Heap) (chunks : List Chunk) : Prop where
  root : h.root = firstOr Chunk.addr chunks none
  best : ∀ best, h.best = some best → ∃ chunk ∈ chunks, chunk.addr = best
  majors : MajorsLinked h.majors chunks
  minors : ∀ chunk ∈ chunks, MinorsLinked h.minors chunk.addr chunk.blocks
  disjoint : chunks.Pairwise fun first second ↦ first.area.Disjoint second.area
  held : h.held.Perm (chunks.map Chunk.area)
  balanced : h.acquired.Perm (h.held ++ h.released)

theorem represents_init (size : NodeSize) (bytes : ℕ → UInt8) :
    Represents (heapAllocInit size bytes) [] where
  root := rfl
  best := nofun
  majors := trivial
  minors := nofun
  disjoint := .nil
  held := .refl _
  balanced := .refl _

namespace Represents

variable {h : Heap} {chunks before after : List Chunk} {chunk : Chunk}

theorem getMajor_eq (hr : Represents h (before ++ chunk :: after)) :
    getMajor h chunk.addr =
      .ok (chunk.header (lastOr Chunk.addr none before) (firstOr Chunk.addr after none)) := by
  rw [getMajor, Linked.link_of_append hr.majors]

theorem exists_getMajor (hr : Represents h chunks) (hchunk : chunk ∈ chunks) :
    ∃ prev next, getMajor h chunk.addr = .ok (chunk.header prev next) := by
  obtain ⟨before, after, rfl⟩ := List.append_of_mem hchunk
  exact ⟨_, _, hr.getMajor_eq⟩

theorem getMinor_eq {first second : List Block} {block : Block} (hr : Represents h chunks)
    (hchunk : chunk ∈ chunks) (hblocks : chunk.blocks = first ++ block :: second) :
    getMinor h block.addr = .ok (block.header chunk.addr (lastOr Block.addr none first)
      (firstOr Block.addr second none)) := by
  have hminors := hr.minors chunk hchunk
  rw [hblocks] at hminors
  rw [getMinor, Linked.link_of_append hminors]

/-- The area of a chunk is one that the allocator holds. -/
theorem area_mem (hr : Represents h chunks) (hchunk : chunk ∈ chunks) : chunk.area ∈ h.held :=
  hr.held.mem_iff.mpr (List.mem_map_of_mem hchunk)

theorem mapped (hr : Represents h chunks) (hchunk : chunk ∈ chunks) {address : ℕ}
    (hlow : chunk.addr ≤ address) (hhigh : address + 48 ≤ chunk.addr + chunk.size) :
    Mapped h address :=
  ⟨chunk.area, hr.area_mem hchunk, hlow, hhigh⟩

theorem mapped_major (hr : Represents h chunks) (hchunk : chunk ∈ chunks) :
    Mapped h chunk.addr := by
  have hsize := chunk.header_size_le
  rw [majorBlockHeaderSize] at hsize
  exact hr.mapped hchunk (Nat.le_refl _) (by omega)

theorem mapped_minor (hr : Represents h chunks) (hchunk : chunk ∈ chunks) {block : Block}
    (hblock : block ∈ chunk.blocks) : Mapped h block.addr := by
  have hbounds := Chunk.bounds hblock
  rw [majorBlockHeaderSize, Block.stop, minorBlockHeaderSize] at hbounds
  exact hr.mapped hchunk (by omega) (by omega)

/-- Two chunks of which one comes before the other share no address. -/
theorem addr_outside {first second : Chunk} (hdisjoint : first.area.Disjoint second.area)
    {address : ℕ} (hlow : second.addr ≤ address) (hhigh : address < second.addr + second.size) :
    address < first.addr ∨ first.addr + first.size ≤ address := by
  rcases hdisjoint with h | h
  · right
    exact Nat.le_trans h hlow
  · left
    exact Nat.lt_of_lt_of_le hhigh h

/-- The other chunks lie outside of the area of a chunk. -/
theorem disjoint_others (hr : Represents h (before ++ chunk :: after)) {other : Chunk}
    (hother : other ∈ before ++ after) : chunk.area.Disjoint other.area := by
  have hpairs := List.pairwise_append.mp hr.disjoint
  rcases List.mem_append.mp hother with hbefore | hafter
  · exact (hpairs.2.2 other hbefore chunk List.mem_cons_self).symm
  · exact (List.pairwise_cons.mp hpairs.2.1).1 other hafter

theorem others_outside (hr : Represents h (before ++ chunk :: after)) {other : Chunk}
    (hother : other ∈ before ++ after) :
    other.addr < chunk.addr ∨ chunk.addr + chunk.size ≤ other.addr := by
  have hsize := other.header_size_le
  rw [majorBlockHeaderSize] at hsize
  exact addr_outside (hr.disjoint_others hother) (Nat.le_refl _) (by omega)

theorem blocks_outside (hr : Represents h (before ++ chunk :: after)) {other : Chunk}
    (hother : other ∈ before ++ after) {block : Block} (hblock : block ∈ other.blocks) :
    block.addr < chunk.addr ∨ chunk.addr + chunk.size ≤ block.addr := by
  have hbounds := Chunk.bounds hblock
  rw [majorBlockHeaderSize, Block.stop, minorBlockHeaderSize] at hbounds
  exact addr_outside (hr.disjoint_others hother) (by omega) (by omega)

theorem others_ne (hr : Represents h (before ++ chunk :: after)) {other : Chunk}
    (hother : other ∈ before ++ after) : other.addr ≠ chunk.addr := by
  have hsize := chunk.header_size_le
  rw [majorBlockHeaderSize] at hsize
  have houtside := hr.others_outside hother
  omega

theorem chunks_nodup (hr : Represents h chunks) : (chunks.map Chunk.addr).Nodup := by
  apply List.pairwise_map.mpr
  apply hr.disjoint.imp
  intro first second hdisjoint heq
  have hfirst := first.header_size_le
  have hsecond := second.header_size_le
  rw [majorBlockHeaderSize] at hfirst hsecond
  rcases hdisjoint with h | h
  · simp only [Chunk.area] at h
    omega
  · simp only [Chunk.area] at h
    omega

/-- One chunk has other blocks: its header and the headers of its blocks are written. -/
theorem replace (hr : Represents h (before ++ chunk :: after)) {chunk' : Chunk}
    (haddr : chunk'.addr = chunk.addr) (hpages : chunk'.pages = chunk.pages)
    {majors : ℕ → Option HeapMajor} {minors : ℕ → Option HeapMinor}
    (hmajor : majors chunk.addr = some (chunk'.header (lastOr Chunk.addr none before)
      (firstOr Chunk.addr after none)))
    (hmajors : ∀ address, address ≠ chunk.addr → majors address = h.majors address)
    (hminor : MinorsLinked minors chunk.addr chunk'.blocks)
    (hminors : ∀ address, address < chunk.addr ∨ chunk.addr + chunk.size ≤ address →
      minors address = h.minors address) :
    Represents { h with majors, minors } (before ++ chunk' :: after) := by
  have harea : chunk'.area = chunk.area := by rw [Chunk.area, Chunk.area, Chunk.size, Chunk.size,
    haddr, hpages]
  have hmem : ∀ address, (∃ c ∈ before ++ chunk' :: after, c.addr = address) ↔
      ∃ c ∈ before ++ chunk :: after, c.addr = address := by
    intro address
    simp only [List.mem_append, List.mem_cons, or_and_right, exists_or, exists_eq_left, haddr]
  constructor
  · rw [hr.root, firstOr_append, firstOr_append, firstOr_cons, firstOr_cons, haddr]
  · intro best hbest
    exact (hmem best).mpr (hr.best best hbest)
  · have hlinked := linked_append.mp hr.majors
    apply linked_append.mpr
    rw [firstOr_cons, haddr]
    refine ⟨hlinked.1.imp ?_, ?_, ?_⟩
    · intro prev other next hother hlink
      exact (hmajors _ (hr.others_ne (List.mem_append_left _ hother))).trans hlink
    · change majors chunk'.addr = _
      rw [haddr]
      exact hmajor
    · rw [haddr]
      apply (linked_cons.mp hlinked.2).2.imp
      intro prev other next hother hlink
      exact (hmajors _ (hr.others_ne (List.mem_append_right _ hother))).trans hlink
  · intro other hother
    rw [List.mem_append, List.mem_cons, or_left_comm, ← List.mem_append] at hother
    rcases hother with rfl | hother
    · rw [haddr]
      exact hminor
    · have hold : other ∈ before ++ chunk :: after := by
        rw [List.mem_append, List.mem_cons, or_left_comm, ← List.mem_append]
        exact Or.inr hother
      apply (hr.minors other hold).imp
      intro prev block next hblock hlink
      exact (hminors _ (hr.blocks_outside hother hblock)).trans hlink
  · have hpairs := hr.disjoint
    rw [List.pairwise_append, List.pairwise_cons] at hpairs ⊢
    rw [harea]
    refine ⟨hpairs.1, hpairs.2.1, ?_⟩
    intro first hfirst second hsecond
    rcases List.mem_cons.mp hsecond with rfl | hsecond
    · rw [harea]
      exact hpairs.2.2 first hfirst chunk List.mem_cons_self
    · exact hpairs.2.2 first hfirst second (List.mem_cons_of_mem _ hsecond)
  · have hheld := hr.held
    rw [List.map_append, List.map_cons] at hheld ⊢
    rw [harea]
    exact hheld
  · exact hr.balanced

section Blocks

variable {first second : List Block} {chunk' : Chunk} {majors : ℕ → Option HeapMajor}
  {minors : ℕ → Option HeapMinor}

/-- The neighbours of a place in a chunk lie in the chunk. -/
theorem neighbour_inside (hfirst : ∀ block ∈ first, block ∈ chunk.blocks)
    (hsecond : ∀ block ∈ second, block ∈ chunk.blocks) (address : ℕ)
    (haddress : lastOr Block.addr none first = some address ∨
      firstOr Block.addr second none = some address) :
    chunk.addr ≤ address ∧ address < chunk.addr + chunk.size := by
  have hinside : ∀ block ∈ chunk.blocks,
      chunk.addr ≤ block.addr ∧ block.addr < chunk.addr + chunk.size := by
    intro block hblock
    have hbounds := Chunk.bounds hblock
    rw [majorBlockHeaderSize, Block.stop, minorBlockHeaderSize] at hbounds
    omega
  rcases haddress with h | h
  · obtain ⟨block, hblock, rfl⟩ := exists_of_lastOr h
    exact hinside block (hfirst block hblock)
  · obtain ⟨block, hblock, rfl⟩ := exists_of_firstOr h
    exact hinside block (hsecond block hblock)

/-- A block is put in a chunk. -/
theorem insertBlock {new : Block} (hr : Represents h (before ++ chunk :: after))
    (hblocks : chunk.blocks = first ++ second) (haddr : chunk'.addr = chunk.addr)
    (hpages : chunk'.pages = chunk.pages) (hblocks' : chunk'.blocks = first ++ new :: second)
    (hmajor : majors chunk.addr = some (chunk'.header (lastOr Chunk.addr none before)
      (firstOr Chunk.addr after none)))
    (hmajors : ∀ address, address ≠ chunk.addr → majors address = h.majors address)
    (hnew : minors new.addr = some (new.header chunk.addr (lastOr Block.addr none first)
      (firstOr Block.addr second none)))
    (hlast : ∀ address minor, lastOr Block.addr none first = some address →
      address ≠ new.addr → firstOr Block.addr second none ≠ some address →
      h.minors address = some minor → minors address = some { minor with next := some new.addr })
    (hfirst : ∀ address minor, firstOr Block.addr second none = some address →
      address ≠ new.addr → lastOr Block.addr none first ≠ some address →
      h.minors address = some minor → minors address = some { minor with prev := some new.addr })
    (hkeep : ∀ address, address ≠ new.addr → lastOr Block.addr none first ≠ some address →
      firstOr Block.addr second none ≠ some address → minors address = h.minors address) :
    Represents { h with majors, minors } (before ++ chunk' :: after) := by
  have hnodup := chunk'.blocks_nodup
  rw [hblocks', List.map_append, List.map_cons] at hnodup
  have hother : ∀ block ∈ first ++ second, block.addr ≠ new.addr := by
    intro block hblock heq
    have hout := (List.nodup_cons.mp (List.nodup_middle.mp hnodup)).1
    rw [← List.map_append, ← heq] at hout
    exact hout (List.mem_map_of_mem hblock)
  have hparts := (List.nodup_append.mp ((List.nodup_middle.mp hnodup).of_cons)).2.2
  apply hr.replace haddr hpages hmajor hmajors
  · have hold : MinorsLinked h.minors chunk.addr (first ++ second) := by
      rw [← hblocks]
      exact hr.minors chunk (by simp)
    rw [hblocks']
    apply Linked.insert hold
    · rw [← hblocks]
      exact chunk.blocks_nodup
    · intro prev block next hblock hends hstarts hlink
      exact (hkeep _ (hother block hblock) hends hstarts).trans hlink
    · intro prev block hblock hends hlink
      exact hlast _ _ hends (hother block (List.mem_append_left _ hblock))
        (firstOr_ne hparts hblock) hlink
    · intro block next hblock hstarts hlink
      exact hfirst _ _ hstarts (hother block (List.mem_append_right _ hblock))
        (lastOr_ne hparts hblock) hlink
    · exact hnew
  · intro address houtside
    have hmem : new ∈ chunk'.blocks := by
      rw [hblocks']
      simp
    have hinside := Chunk.bounds hmem
    rw [majorBlockHeaderSize, Block.stop, minorBlockHeaderSize, haddr, Chunk.size, hpages,
      ← Chunk.size] at hinside
    have hneighbour := neighbour_inside
      (fun block hblock ↦ by rw [hblocks]; exact List.mem_append_left _ hblock)
      (fun block hblock ↦ by rw [hblocks]; exact List.mem_append_right _ hblock)
    apply hkeep
    · omega
    · intro heq
      have hbounds := hneighbour address (Or.inl heq)
      omega
    · intro heq
      have hbounds := hneighbour address (Or.inr heq)
      omega

/-- A block is taken out of a chunk.  Its own header may be anything then. -/
theorem removeBlock {block : Block} (hr : Represents h (before ++ chunk :: after))
    (hblocks : chunk.blocks = first ++ block :: second) (haddr : chunk'.addr = chunk.addr)
    (hpages : chunk'.pages = chunk.pages) (hblocks' : chunk'.blocks = first ++ second)
    (hmajor : majors chunk.addr = some (chunk'.header (lastOr Chunk.addr none before)
      (firstOr Chunk.addr after none)))
    (hmajors : ∀ address, address ≠ chunk.addr → majors address = h.majors address)
    (hlast : ∀ address minor, lastOr Block.addr none first = some address →
      address ≠ block.addr → firstOr Block.addr second none ≠ some address →
      h.minors address = some minor →
      minors address = some { minor with next := firstOr Block.addr second none })
    (hfirst : ∀ address minor, firstOr Block.addr second none = some address →
      address ≠ block.addr → lastOr Block.addr none first ≠ some address →
      h.minors address = some minor →
      minors address = some { minor with prev := lastOr Block.addr none first })
    (hkeep : ∀ address, address ≠ block.addr → lastOr Block.addr none first ≠ some address →
      firstOr Block.addr second none ≠ some address → minors address = h.minors address) :
    Represents { h with majors, minors } (before ++ chunk' :: after) := by
  have hnodup := chunk.blocks_nodup
  rw [hblocks, List.map_append, List.map_cons] at hnodup
  have hother : ∀ other ∈ first ++ second, other.addr ≠ block.addr := by
    intro other hmem heq
    have hout := (List.nodup_cons.mp (List.nodup_middle.mp hnodup)).1
    rw [← List.map_append, ← heq] at hout
    exact hout (List.mem_map_of_mem hmem)
  have hparts := (List.nodup_append.mp ((List.nodup_middle.mp hnodup).of_cons)).2.2
  have hmem : block ∈ chunk.blocks := by
    rw [hblocks]
    simp
  apply hr.replace haddr hpages hmajor hmajors
  · have hold : MinorsLinked h.minors chunk.addr (first ++ block :: second) := by
      rw [← hblocks]
      exact hr.minors chunk (by simp)
    rw [hblocks']
    apply Linked.remove hold
    · rw [List.map_append]
      exact (List.nodup_middle.mp hnodup).of_cons
    · intro prev other next hmem hends hstarts hlink
      exact (hkeep _ (hother other hmem) hends hstarts).trans hlink
    · intro prev other hmem hends hlink
      exact hlast _ _ hends (hother other (List.mem_append_left _ hmem))
        (firstOr_ne hparts hmem) hlink
    · intro other next hmem hstarts hlink
      exact hfirst _ _ hstarts (hother other (List.mem_append_right _ hmem))
        (lastOr_ne hparts hmem) hlink
  · intro address houtside
    have hinside := Chunk.bounds hmem
    rw [majorBlockHeaderSize, Block.stop, minorBlockHeaderSize] at hinside
    have hneighbour := neighbour_inside
      (fun block hblock ↦ by rw [hblocks]; exact List.mem_append_left _ hblock)
      (fun block hblock ↦ by
        rw [hblocks]
        exact List.mem_append_right _ (List.mem_cons_of_mem _ hblock))
    apply hkeep
    · omega
    · intro heq
      have hbounds := hneighbour address (Or.inl heq)
      omega
    · intro heq
      have hbounds := hneighbour address (Or.inr heq)
      omega

end Blocks

section Chunks

variable {majors : ℕ → Option HeapMajor} {minors : ℕ → Option HeapMinor} {root best : Option ℕ}

/-- An area that the system has just given out becomes the last chunk. -/
theorem appendChunk (hr : Represents h chunks) (hblocks : chunk.blocks = [])
    (hfresh : ∀ other ∈ h.held, chunk.area.Disjoint other)
    (hroot : root = firstOr Chunk.addr (chunks ++ [chunk]) none)
    (hnew : majors chunk.addr = some (chunk.header (lastOr Chunk.addr none chunks) none))
    (hlast : ∀ address major, lastOr Chunk.addr none chunks = some address →
      address ≠ chunk.addr → h.majors address = some major →
      majors address = some { major with next := some chunk.addr })
    (hkeep : ∀ address, address ≠ chunk.addr → lastOr Chunk.addr none chunks ≠ some address →
      majors address = h.majors address) :
    Represents { h with root, majors, held := chunk.area :: h.held,
                        acquired := chunk.area :: h.acquired } (chunks ++ [chunk]) := by
  have hdisjoint : ∀ other ∈ chunks, other.area.Disjoint chunk.area := by
    intro other hother
    exact (hfresh other.area (hr.area_mem hother)).symm
  have hne : ∀ other ∈ chunks, other.addr ≠ chunk.addr := by
    intro other hother
    have hsize := other.header_size_le
    have hsize' := chunk.header_size_le
    rw [majorBlockHeaderSize] at hsize hsize'
    have houtside := addr_outside (hdisjoint other hother) (Nat.le_refl chunk.addr) (by omega)
    omega
  constructor
  · exact hroot
  · intro address hbest
    obtain ⟨other, hother, haddr⟩ := hr.best address hbest
    exact ⟨other, List.mem_append_left _ hother, haddr⟩
  · have hold := hr.majors
    rw [← List.append_nil chunks] at hold
    apply Linked.insert hold
    · rw [List.append_nil]
      exact hr.chunks_nodup
    · intro prev other next hother hends _ hlink
      rw [List.append_nil] at hother
      exact (hkeep _ (hne other hother) hends).trans hlink
    · intro prev other hother hends hlink
      exact hlast _ _ hends (hne other hother) hlink
    · nofun
    · exact hnew
  · intro other hother
    rcases List.mem_append.mp hother with hother | hother
    · exact hr.minors other hother
    · rw [List.mem_singleton.mp hother, hblocks]
      trivial
  · apply List.pairwise_append.mpr
    refine ⟨hr.disjoint, List.pairwise_singleton _ _, ?_⟩
    intro other hother last hlast
    rw [List.mem_singleton.mp hlast]
    exact hdisjoint other hother
  · rw [List.map_append, List.map_singleton]
    exact (hr.held.cons chunk.area).trans (List.perm_append_singleton _ _).symm
  · exact hr.balanced.cons chunk.area

/-- A chunk is taken out of the list and its area given back. -/
theorem dropChunk (hr : Represents h (before ++ chunk :: after))
    (hroot : root = firstOr Chunk.addr (before ++ after) none)
    (hbest : ∀ address, best = some address → h.best = some address ∧ address ≠ chunk.addr)
    (hlast : ∀ address major, lastOr Chunk.addr none before = some address →
      address < chunk.addr ∨ chunk.addr + chunk.size ≤ address →
      firstOr Chunk.addr after none ≠ some address → h.majors address = some major →
      majors address = some { major with next := firstOr Chunk.addr after none })
    (hfirst : ∀ address major, firstOr Chunk.addr after none = some address →
      address < chunk.addr ∨ chunk.addr + chunk.size ≤ address →
      lastOr Chunk.addr none before ≠ some address → h.majors address = some major →
      majors address = some { major with prev := lastOr Chunk.addr none before })
    (hkeep : ∀ address, address < chunk.addr ∨ chunk.addr + chunk.size ≤ address →
      lastOr Chunk.addr none before ≠ some address → firstOr Chunk.addr after none ≠ some address →
      majors address = h.majors address)
    (hminors : ∀ address, address < chunk.addr ∨ chunk.addr + chunk.size ≤ address →
      minors address = h.minors address) :
    Represents { h with root, best, majors, minors, held := h.held.erase chunk.area,
                        released := chunk.area :: h.released } (before ++ after) := by
  have hnodup := hr.chunks_nodup
  rw [List.map_append, List.map_cons] at hnodup
  have hnodup' := (List.nodup_middle.mp hnodup).of_cons
  have hparts := (List.nodup_append.mp hnodup').2.2
  have hmem : ∀ {other}, other ∈ before ++ after → other ∈ before ++ chunk :: after := by
    intro other hother
    rw [List.mem_append, List.mem_cons, or_left_comm, ← List.mem_append]
    exact Or.inr hother
  constructor
  · exact hroot
  · intro address haddress
    obtain ⟨hold, hne⟩ := hbest address haddress
    obtain ⟨other, hother, rfl⟩ := hr.best address hold
    rw [List.mem_append, List.mem_cons, or_left_comm, ← List.mem_append] at hother
    rcases hother with rfl | hother
    · exact absurd rfl hne
    · exact ⟨other, hother, rfl⟩
  · apply Linked.remove hr.majors
    · rw [List.map_append]
      exact hnodup'
    · intro prev other next hother hends hstarts hlink
      exact (hkeep _ (hr.others_outside hother) hends hstarts).trans hlink
    · intro prev other hother hends hlink
      exact hlast _ _ hends (hr.others_outside (List.mem_append_left _ hother))
        (firstOr_ne hparts hother) hlink
    · intro other next hother hstarts hlink
      exact hfirst _ _ hstarts (hr.others_outside (List.mem_append_right _ hother))
        (lastOr_ne hparts hother) hlink
  · intro other hother
    apply (hr.minors other (hmem hother)).imp
    intro prev block next hblock hlink
    exact (hminors _ (hr.blocks_outside hother hblock)).trans hlink
  · exact hr.disjoint.sublist ((List.sublist_cons_self chunk after).append_left before)
  · have hheld := hr.held
    rw [List.map_append, List.map_cons] at hheld
    rw [List.map_append]
    have herase := (hheld.trans List.perm_middle).erase chunk.area
    rwa [List.erase_cons_head] at herase
  · have harea : chunk.area ∈ h.held :=
      hr.area_mem (List.mem_append_right _ List.mem_cons_self)
    have hheld := (List.perm_cons_erase harea).append_right h.released
    exact hr.balanced.trans (hheld.trans List.perm_middle.symm)

end Chunks

end Represents

end Brutal.Alloc
