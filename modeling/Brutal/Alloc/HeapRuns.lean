import Brutal.Alloc.HeapRelease
import Brutal.Lib.Run

/-!
# Runs of the heap allocator

A client calls the allocator with pointers that it got and has not released.  After every call the
blocks lie in their majors and apart from each other, the lists of majors and minors contain the
blocks and nothing else, and a major is given back as soon as it has no block.
-/

namespace Brutal.Alloc

open Brutal.Lib

variable {block : Block} {h : Heap} {ptr requested size : ℕ}

/-- The allocator, and the pointers that were handed out with the sizes asked for. -/
structure Client where
  heap : Heap
  live : List (ℕ × ℕ)

/-- A call, with the address that `embed_mem_acquire` would return. -/
inductive HeapCall where
  | acquire (size base : ℕ)
  | resize (ptr size base : ℕ)
  | release (ptr : ℕ)
deriving DecidableEq, Repr

/-- The other pointers. -/
def Client.others (client : Client) (ptr : ℕ) : List (ℕ × ℕ) :=
  client.live.filter fun entry ↦ entry.1 != ptr

def heapCall (client : Client) : HeapCall → Except HeapFault Client
  | .acquire size base => do
    let (pointer, heap) ← heapAllocAcquire client.heap size base
    match pointer with
    | some ptr => pure ⟨heap, (ptr, size) :: client.live⟩
    | none => pure ⟨heap, client.live⟩
  | .resize ptr size base => do
    let (pointer, heap) ← heapAllocResize client.heap (some ptr) size base
    match pointer with
    | some ptr' => pure ⟨heap, (ptr', size) :: client.others ptr⟩
    | none => pure ⟨heap, client.others ptr⟩
  | .release ptr => do
    let heap ← heapAllocRelease client.heap (some ptr)
    pure ⟨heap, client.others ptr⟩

/-- The calls that a client may make. -/
def Permitted (client : Client) : HeapCall → Prop
  | .acquire size _ => size ≤ 2 ^ 40
  | .resize ptr size _ => (∃ requested, (ptr, requested) ∈ client.live) ∧ size ≤ 2 ^ 40
  | .release ptr => ∃ requested, (ptr, requested) ∈ client.live

/-- The system has an area at the address for a call that needs one. -/
def Supplied (client : Client) : HeapCall → Prop
  | .acquire size base =>
    Fresh client.heap ⟨base, majorPages (blockSize size) client.heap.size * pageSize⟩
  | .resize _ size base =>
    Fresh client.heap ⟨base, majorPages (blockSize (heapAlign size)) client.heap.size * pageSize⟩
  | .release _ => True

/-- The lists in the memory, and the pointers that the client has. -/
structure Holds (client : Client) (chunks : List Chunk) : Prop where
  represents : Represents client.heap chunks
  used : ∀ chunk ∈ chunks, chunk.blocks ≠ []
  exact : (client.live.map Prod.fst).Perm ((allBlocks chunks).map Block.pointer)
  requested : ∀ ptr requested, (ptr, requested) ∈ client.live →
    ∃ block ∈ allBlocks chunks, block.pointer = ptr ∧ heapAlign requested ≤ block.size

variable {client : Client} {chunks : List Chunk}

theorem mem_allBlocks : block ∈ allBlocks chunks ↔ ∃ chunk ∈ chunks, block ∈ chunk.blocks := by
  simp [allBlocks]

/-- Blocks of one heap lie apart. -/
theorem Represents.blocks_disjoint (hr : Represents h chunks) :
    (allBlocks chunks).Pairwise fun first second ↦
      first.stop ≤ second.addr ∨ second.stop ≤ first.addr := by
  rw [allBlocks, List.pairwise_flatMap]
  constructor
  · intro chunk _
    exact chunk.blocks_pairwise.imp Or.inl
  · apply hr.disjoint.imp
    intro chunk chunk' hdisjoint block hblock block' hblock'
    have hbounds := Chunk.bounds hblock
    have hbounds' := Chunk.bounds hblock'
    rcases hdisjoint with h | h
    · left
      simp only [Chunk.area] at h
      omega
    · right
      simp only [Chunk.area] at h
      omega

/-- A pointer leads to one block only. -/
theorem Represents.pointers_nodup (hr : Represents h chunks) :
    ((allBlocks chunks).map Block.pointer).Nodup := by
  apply List.pairwise_map.mpr
  apply hr.blocks_disjoint.imp
  intro first second h heq
  rw [Block.stop, Block.stop, minorBlockHeaderSize] at h
  rw [Block.pointer, Block.pointer] at heq
  omega

theorem Holds.live_nodup (hc : Holds client chunks) : (client.live.map Prod.fst).Nodup :=
  hc.exact.nodup_iff.mpr hc.represents.pointers_nodup

/-- The block behind a pointer of the client. -/
theorem Holds.exists_block (hc : Holds client chunks) (hlive : (ptr, requested) ∈ client.live) :
    ∃ chunk ∈ chunks, ∃ block ∈ chunk.blocks, block.pointer = ptr := by
  obtain ⟨block, hblock, hpointer, _⟩ := hc.requested ptr requested hlive
  obtain ⟨chunk, hchunk, hmem⟩ := mem_allBlocks.mp hblock
  exact ⟨chunk, hchunk, block, hmem, hpointer⟩

theorem mem_others {entry : ℕ × ℕ} :
    entry ∈ client.others ptr ↔ entry ∈ client.live ∧ entry.1 ≠ ptr := by
  simp [Client.others]

/-- Taking a pointer away leaves the others. -/
theorem Holds.others_perm (hc : Holds client chunks) (hlive : (ptr, requested) ∈ client.live) :
    (client.live.map Prod.fst).Perm (ptr :: (client.others ptr).map Prod.fst) := by
  have hfilter : (client.others ptr).map Prod.fst =
      (client.live.map Prod.fst).filter fun other ↦ other != ptr := by
    rw [Client.others, List.filter_map]
    rfl
  have hmem : ptr ∈ client.live.map Prod.fst := List.mem_map_of_mem hlive
  rw [hfilter, ← hc.live_nodup.erase_eq_filter ptr]
  exact List.perm_cons_erase hmem

theorem Holds.acquired (hc : Holds client chunks) {size given pointer : ℕ} {h' : Heap}
    (hsize : heapAlign size ≤ given)
    (hdone : Acquired client.heap (allBlocks chunks) given pointer h') :
    ∃ chunks', Holds ⟨h', (pointer, size) :: client.live⟩ chunks' := by
  obtain ⟨chunks', new, hr, hused, hblocks, rfl, hnew, _⟩ := hdone
  refine ⟨chunks', hr, hused, ?_, ?_⟩
  · exact (hc.exact.cons new.pointer).trans (hblocks.map Block.pointer).symm
  · intro ptr requested hlive
    rcases List.mem_cons.mp hlive with heq | hlive
    · cases heq
      refine ⟨new, hblocks.mem_iff.mpr List.mem_cons_self, rfl, ?_⟩
      rw [hnew]
      exact hsize
    · obtain ⟨block, hblock, hblock'⟩ := hc.requested ptr requested hlive
      exact ⟨block, hblocks.mem_iff.mpr (List.mem_cons_of_mem _ hblock), hblock'⟩

theorem Holds.released (hc : Holds client chunks) {h' : Heap}
    (hlive : (block.pointer, requested) ∈ client.live)
    (hdone : Released client.heap (allBlocks chunks) block h') :
    ∃ chunks', Holds ⟨h', client.others block.pointer⟩ chunks' := by
  obtain ⟨chunks', hr, hused, hblocks, _⟩ := hdone
  refine ⟨chunks', hr, hused, ?_, ?_⟩
  · have hall : (block.pointer :: (client.others block.pointer).map Prod.fst).Perm
        (block.pointer :: (allBlocks chunks').map Block.pointer) :=
      (hc.others_perm hlive).symm.trans (hc.exact.trans (hblocks.map Block.pointer))
    exact hall.cons_inv
  · intro ptr requested hother
    obtain ⟨hlive, hne⟩ := mem_others.mp hother
    obtain ⟨other, hmem, hpointer, hsize⟩ := hc.requested ptr requested hlive
    refine ⟨other, ?_, hpointer, hsize⟩
    rcases List.mem_cons.mp (hblocks.mem_iff.mp hmem) with rfl | hmem
    · exact absurd hpointer.symm hne
    · exact hmem

/-- What a call does: the client's pointers and the heap stay together, unless the system was out
of memory. -/
def CallDone (client : Client) (call : HeapCall) : Prop :=
  (¬ Supplied client call ∧ heapCall client call = .error .outOfMemory) ∨
    ∃ client' chunks, heapCall client call = .ok client' ∧ Holds client' chunks

/-- A block is handed out, unless the system is out of memory. -/
theorem heapAllocAcquire_spec (hc : Holds client chunks) (hsize : size ≤ 2 ^ 64 - 4224) (base : ℕ) :
    (¬ Supplied client (.acquire size base) ∧
      heapAllocAcquire client.heap size base = .error .outOfMemory) ∨
    ∃ ptr h' chunks', heapAllocAcquire client.heap size base = .ok (some ptr, h') ∧
      Holds ⟨h', (ptr, size) :: client.live⟩ chunks' := by
  obtain ⟨hpos, hsmall, hle⟩ := blockSize_bounds hsize
  rw [heapAllocAcquire_eq]
  rcases acquireAligned_spec hc.represents hc.used hpos hsmall base with ⟨hfresh, hfail⟩ |
    ⟨pointer, h', hrun, hdone⟩
  · exact Or.inl ⟨hfresh, hfail⟩
  · obtain ⟨chunks', hc'⟩ := hc.acquired hle hdone
    exact Or.inr ⟨pointer, h', chunks', hrun, hc'⟩

theorem acquire_done (hc : Holds client chunks) {size base : ℕ} (hsize : size ≤ 2 ^ 64 - 4224) :
    CallDone client (.acquire size base) := by
  rcases heapAllocAcquire_spec hc hsize base with ⟨hfresh, hfail⟩ | ⟨ptr, h', chunks', hrun, hc'⟩
  · left
    refine ⟨hfresh, ?_⟩
    rw [heapCall, hfail]
    rfl
  · refine Or.inr ⟨_, chunks', ?_, hc'⟩
    rw [heapCall, hrun]
    rfl

theorem release_done (hc : Holds client chunks) (hlive : (ptr, requested) ∈ client.live) :
    CallDone client (.release ptr) := by
  obtain ⟨chunk, hchunk, block, hblock, rfl⟩ := hc.exists_block hlive
  obtain ⟨h', hrun, hdone⟩ := heapAllocRelease_spec hc.represents hc.used hchunk hblock
  obtain ⟨chunks', hc'⟩ := hc.released hlive hdone
  refine Or.inr ⟨_, chunks', ?_, hc'⟩
  rw [heapCall, hrun]
  rfl

/-- The chunk with another requested size for one block. -/
def Chunk.withReqSize (chunk : Chunk) (first : List Block) (block : Block) (second : List Block)
    (hblocks : chunk.blocks = first ++ block :: second) (reqSize : ℕ)
    (hsize : reqSize ≤ block.size) : Chunk :=
  { chunk with
    blocks := first ++ { block with reqSize } :: second
    laid := by
      have hlaid := chunk.laid
      rw [hblocks, laid_append_cons] at hlaid
      exact laid_append_cons.mpr hlaid
    requested := by
      intro other hother
      rw [List.mem_append, List.mem_cons, or_left_comm, ← List.mem_append] at hother
      rcases hother with rfl | hother
      · exact hsize
      · apply chunk.requested
        rw [hblocks, List.mem_append, List.mem_cons, or_left_comm, ← List.mem_append]
        exact Or.inr hother }

/-- A block keeps its place when it is made smaller. -/
theorem shrink_spec {before after : List Chunk} {chunk : Chunk} {first second : List Block}
    (hr : Represents h (before ++ chunk :: after))
    (hblocks : chunk.blocks = first ++ block :: second) {reqSize : ℕ}
    (hsize : reqSize ≤ block.size) :
    ∃ h', updateMinor h block.addr (fun minor ↦ { minor with reqSize }) = .ok h' ∧
      Represents h' (before ++ chunk.withReqSize first block second hblocks reqSize hsize ::
        after) := by
  have hmem : chunk ∈ before ++ chunk :: after := List.mem_append_right before List.mem_cons_self
  have hblock : block ∈ chunk.blocks := by
    rw [hblocks]
    simp
  have hnodup := chunk.blocks_nodup
  rw [hblocks, List.map_append, List.map_cons] at hnodup
  have hout := (List.nodup_cons.mp (List.nodup_middle.mp hnodup)).1
  rw [← List.map_append] at hout
  have hother : ∀ other ∈ first ++ second, other.addr ≠ block.addr := by
    intro other hother heq
    apply hout
    rw [← heq]
    exact List.mem_map_of_mem hother
  let chunk' := chunk.withReqSize first block second hblocks reqSize hsize
  let minors := Function.update h.minors block.addr (some { block.header chunk.addr
    (lastOr Block.addr none first) (firstOr Block.addr second none) with reqSize })
  refine ⟨{ h with minors }, updateMinor_ok (hr.minors_eq hmem hblocks)
    (hr.mapped_minor hmem hblock) _, ?_⟩
  have hheader : h.majors chunk.addr = some (chunk'.header (lastOr Chunk.addr none before)
      (firstOr Chunk.addr after none)) := by
    rw [hr.majors_eq]
    simp [Chunk.header, Chunk.usage, Chunk.size, chunk', Chunk.withReqSize, hblocks, firstOr_append]
  apply hr.replace (show chunk'.addr = chunk.addr from rfl)
    (show chunk'.pages = chunk.pages from rfl) hheader (fun _ _ ↦ rfl)
  · have hlinked := hr.minors chunk hmem
    rw [hblocks] at hlinked
    obtain ⟨hfirst, _, hsecond⟩ := linked_append.mp hlinked
    refine linked_append.mpr ⟨hfirst.imp ?_, Function.update_self .., hsecond.imp ?_⟩
    · intro prev other next hmem hlink
      exact (Function.update_of_ne (hother other (List.mem_append_left _ hmem)) ..).trans hlink
    · intro prev other next hmem hlink
      exact (Function.update_of_ne (hother other (List.mem_append_right _ hmem)) ..).trans hlink
  · intro address houtside
    have hbounds := Chunk.bounds hblock
    rw [majorBlockHeaderSize, Block.stop, minorBlockHeaderSize] at hbounds
    exact Function.update_of_ne (by omega) ..

theorem Holds.shrunk (hc : Holds client chunks) {chunk : Chunk} (hchunk : chunk ∈ chunks)
    (hblock : block ∈ chunk.blocks) (hlive : (block.pointer, requested) ∈ client.live)
    (hsize : heapAlign size ≤ block.size) :
    ∃ h' chunks', updateMinor client.heap block.addr
        (fun minor ↦ { minor with reqSize := heapAlign size }) = .ok h' ∧
      Holds ⟨h', (block.pointer, size) :: client.others block.pointer⟩ chunks' := by
  obtain ⟨before, after, rfl⟩ := List.append_of_mem hchunk
  obtain ⟨first, second, hblocks⟩ := List.append_of_mem hblock
  obtain ⟨h', hrun, hr'⟩ := shrink_spec hc.represents hblocks hsize
  let chunk' := chunk.withReqSize first block second hblocks (heapAlign size) hsize
  have hblocks' : chunk'.blocks = first ++ { block with reqSize := heapAlign size } :: second := rfl
  have hpointers : (allBlocks (before ++ chunk' :: after)).map Block.pointer =
      (allBlocks (before ++ chunk :: after)).map Block.pointer := by
    simp [allBlocks, hblocks, hblocks', Block.pointer]
  have hsizes : ∀ other ∈ allBlocks (before ++ chunk :: after),
      ∃ other' ∈ allBlocks (before ++ chunk' :: after), other'.pointer = other.pointer ∧
        other'.size = other.size := by
    intro other hother
    by_cases heq : other = block
    · refine ⟨{ block with reqSize := heapAlign size }, ?_, by rw [heq]; rfl, by rw [heq]⟩
      simp [allBlocks, hblocks']
    · refine ⟨other, ?_, rfl, rfl⟩
      simp only [allBlocks, List.flatMap_append, List.flatMap_cons, hblocks, hblocks',
        List.mem_append, List.mem_cons, heq, false_or] at hother ⊢
      tauto
  refine ⟨h', before ++ chunk' :: after, hrun, hr', ?_, ?_, ?_⟩
  · intro other hother
    rw [List.mem_append, List.mem_cons, or_left_comm, ← List.mem_append] at hother
    rcases hother with rfl | hother
    · rw [hblocks']
      simp
    · apply hc.used
      rw [List.mem_append, List.mem_cons, or_left_comm, ← List.mem_append]
      exact Or.inr hother
  · rw [hpointers]
    exact (hc.others_perm hlive).symm.trans hc.exact
  · intro ptr requested' hentry
    rcases List.mem_cons.mp hentry with heq | hentry
    · cases heq
      refine ⟨{ block with reqSize := heapAlign size }, ?_, rfl, hsize⟩
      simp [allBlocks, hblocks']
    · obtain ⟨other, hother, hpointer, hle⟩ :=
        hc.requested ptr requested' (mem_others.mp hentry).1
      obtain ⟨other', hother', hpointer', hsize'⟩ := hsizes other hother
      exact ⟨other', hother', hpointer'.trans hpointer, by rw [hsize']; exact hle⟩

/-- Copying bytes leaves the lists as they are. -/
theorem Holds.copied (hc : Holds client chunks) (dest src count : ℕ) :
    Holds ⟨memCpy client.heap dest src count, client.live⟩ chunks where
  represents := ⟨hc.represents.root, hc.represents.best, hc.represents.majors,
    hc.represents.minors, hc.represents.disjoint, hc.represents.held, hc.represents.balanced⟩
  used := hc.used
  exact := hc.exact
  requested := hc.requested

/-- A block is moved to another place. -/
theorem Holds.moved (hc : Holds client chunks) (hlive : (block.pointer, requested) ∈ client.live)
    (hsize : heapAlign size ≤ 2 ^ 64 - 4224) (base : ℕ) :
    (¬ Supplied client (.resize block.pointer size base) ∧
      moveBlock client.heap block.pointer block.addr (heapAlign size) base =
        .error .outOfMemory) ∨
    ∃ ptr h' chunks', moveBlock client.heap block.pointer block.addr (heapAlign size) base =
        .ok (some ptr, h') ∧ Holds ⟨h', (ptr, size) :: client.others block.pointer⟩ chunks' := by
  obtain ⟨hpos, hsmall, hle⟩ := blockSize_bounds hsize
  have halign := heapAlign_eq (hsize.trans (by decide))
  rcases acquireAligned_spec hc.represents hc.used hpos hsmall base with ⟨hfresh, hfail⟩ |
    ⟨ptr, h₁, hrun, hdone⟩
  · left
    refine ⟨hfresh, ?_⟩
    rw [moveBlock, heapAllocAcquire_eq, hfail]
    rfl
  · obtain ⟨chunks₁, hc₁⟩ := hc.acquired (show heapAlign size ≤ _ by omega) hdone
    have hlive₁ : (block.pointer, requested) ∈ (ptr, size) :: client.live :=
      List.mem_cons_of_mem _ hlive
    have hne : ptr ≠ block.pointer := by
      intro heq
      have hnodup := hc₁.live_nodup
      rw [List.map_cons, List.nodup_cons] at hnodup
      apply hnodup.1
      change ptr ∈ _
      rw [heq]
      exact List.mem_map_of_mem hlive
    obtain ⟨chunk₁, hchunk₁, block₁, hblock₁, hpointer⟩ := hc₁.exists_block hlive₁
    obtain ⟨first, second, hblocks₁⟩ := List.append_of_mem hblock₁
    have haddr : block₁.addr = block.addr := by
      rw [Block.pointer, Block.pointer] at hpointer
      omega
    have hminor := hc₁.represents.getMinor_eq hchunk₁ hblocks₁
    rw [haddr] at hminor
    have hc₂ := hc₁.copied ptr block.pointer block₁.reqSize
    obtain ⟨h₂, hrelease, hreleased⟩ :=
      heapAllocRelease_spec hc₂.represents hc₂.used hchunk₁ hblock₁
    rw [← hpointer] at hlive₁
    obtain ⟨chunks₂, hc₃⟩ := hc₂.released hlive₁ hreleased
    have hothers : (⟨memCpy h₁ ptr block.pointer block₁.reqSize, (ptr, size) :: client.live⟩ :
        Client).others block.pointer = (ptr, size) :: client.others block.pointer :=
      List.filter_cons_of_pos (by simpa using hne)
    rw [hpointer, hothers] at hc₃
    rw [hpointer] at hrelease
    refine Or.inr ⟨ptr, h₂, chunks₂, ?_, hc₃⟩
    rw [moveBlock, heapAllocAcquire_eq, hrun]
    simp only [ok_bind, hminor, Option.getD_some, Block.header, hrelease]
    rfl

/-- A block is resized, unless the system is out of memory; one of no size is given back. -/
theorem heapAllocResize_spec (hc : Holds client chunks) (hlive : (ptr, requested) ∈ client.live)
    (hsize : size ≤ 2 ^ 64 - 4224) (base : ℕ) :
    (¬ Supplied client (.resize ptr size base) ∧
      heapAllocResize client.heap (some ptr) size base = .error .outOfMemory) ∨
    (heapAlign size = 0 ∧ ∃ h' chunks',
      heapAllocResize client.heap (some ptr) size base = .ok (none, h') ∧
        Holds ⟨h', client.others ptr⟩ chunks') ∨
    ∃ ptr' h' chunks', heapAllocResize client.heap (some ptr) size base = .ok (some ptr', h') ∧
      Holds ⟨h', (ptr', size) :: client.others ptr⟩ chunks' := by
  obtain ⟨chunk, hchunk, block, hblock, rfl⟩ := hc.exists_block hlive
  obtain ⟨first, second, hblocks⟩ := List.append_of_mem hblock
  have hmagic : ∀ maj prev next, checkMinorMagic (block.header maj prev next) = .ok () :=
    fun _ _ _ ↦ if_pos rfl
  have halign := heapAlign_eq (hsize.trans (by decide))
  by_cases hzero : heapAlign size = 0
  · obtain ⟨h', hrun, hdone⟩ := heapAllocRelease_spec hc.represents hc.used hchunk hblock
    obtain ⟨chunks', hc'⟩ := hc.released hlive hdone
    refine Or.inr (Or.inl ⟨hzero, h', chunks', ?_, hc'⟩)
    rw [heapAllocResize, if_pos hzero, hrun]
    rfl
  · have hresize : heapAllocResize client.heap (some block.pointer) size base =
        if block.size ≥ heapAlign size then do
          let h ← updateMinor client.heap block.addr fun minor ↦
            { minor with reqSize := heapAlign size }
          pure (some block.pointer, h)
        else moveBlock client.heap block.pointer block.addr (heapAlign size) base := by
      rw [heapAllocResize, if_neg hzero]
      simp only [sub_pointer hblock, hc.represents.getMinor_eq hchunk hblocks, ok_bind, hmagic]
      rfl
    rw [hresize]
    by_cases hfit : block.size ≥ heapAlign size
    · obtain ⟨h', chunks', hrun, hc'⟩ := hc.shrunk hchunk hblock hlive hfit
      refine Or.inr (Or.inr ⟨block.pointer, h', chunks', ?_, hc'⟩)
      rw [if_pos hfit, hrun]
      rfl
    · have hsmall : heapAlign size ≤ 2 ^ 64 - 4224 := by omega
      rw [if_neg hfit]
      rcases hc.moved hlive hsmall base with hfail | hmoved
      · exact Or.inl hfail
      · exact Or.inr (Or.inr hmoved)

theorem resize_done (hc : Holds client chunks) {ptr requested size base : ℕ}
    (hlive : (ptr, requested) ∈ client.live) (hsize : size ≤ 2 ^ 64 - 4224) :
    CallDone client (.resize ptr size base) := by
  rcases heapAllocResize_spec hc hlive hsize base with ⟨hfresh, hfail⟩ |
    ⟨-, h', chunks', hrun, hc'⟩ | ⟨ptr', h', chunks', hrun, hc'⟩
  · left
    refine ⟨hfresh, ?_⟩
    rw [heapCall, hfail]
    rfl
  · refine Or.inr ⟨_, chunks', ?_, hc'⟩
    rw [heapCall, hrun]
    rfl
  · refine Or.inr ⟨_, chunks', ?_, hc'⟩
    rw [heapCall, hrun]
    rfl

/-- Every call that a client may make keeps the pointers and the heap together. -/
theorem call_done (hc : Holds client chunks) {call : HeapCall} (hcall : Permitted client call) :
    CallDone client call := by
  cases call with
  | acquire size base => exact acquire_done hc (hcall.trans (by decide))
  | resize ptr size base =>
    obtain ⟨⟨requested, hlive⟩, hsize⟩ := hcall
    exact resize_done hc hlive (hsize.trans (by decide))
  | release ptr =>
    obtain ⟨requested, hlive⟩ := hcall
    exact release_done hc hlive

/-- A new allocator, whatever lies in the memory. -/
def newClient (size : NodeSize) (bytes : ℕ → UInt8) : Client := ⟨heapAllocInit size bytes, []⟩

theorem holds_init (size : NodeSize) (bytes : ℕ → UInt8) : Holds (newClient size bytes) [] where
  represents := represents_init size bytes
  used := nofun
  exact := .refl _
  requested := nofun

/-- The calls of a client, one after the other. -/
def Calls : Client → List HeapCall → Client → Prop := Run (Guarded (Succeeds heapCall) Permitted)

theorem holds_run {size : NodeSize} {bytes : ℕ → UInt8} {calls : List HeapCall}
    (hrun : Calls (newClient size bytes) calls client) : ∃ chunks, Holds client chunks := by
  have hinit : ∃ chunks, Holds (newClient size bytes) chunks := ⟨[], holds_init size bytes⟩
  apply Run.invariant _ hrun hinit
  intro s call t hs hstep
  obtain ⟨chunks, hs⟩ := hs
  rcases call_done hs hstep.1 with ⟨_, hfail⟩ | ⟨t', chunks', hcall, ht⟩
  · have hok := hstep.2
    rw [Succeeds, hfail] at hok
    cases hok
  · have hok := hstep.2
    rw [Succeeds, hcall] at hok
    cases hok
    exact ⟨chunks', ht⟩

/-- The state of the heap that the client sees. -/
structure Sound (client : Client) (chunks : List Chunk) : Prop where
  /-- The majors are a doubly linked list from the root on. -/
  majors : client.heap.root = firstOr Chunk.addr chunks none ∧
    MajorsLinked client.heap.majors chunks
  /-- A block that was handed out lies in its major, behind the header. -/
  inside : ∀ ptr requested, (ptr, requested) ∈ client.live → ∃ chunk ∈ chunks,
    ∃ block ∈ chunk.blocks, block.pointer = ptr ∧
      chunk.addr + majorBlockHeaderSize ≤ block.addr ∧ heapAlign requested ≤ block.size ∧
      ptr + heapAlign requested ≤ chunk.addr + chunk.size
  /-- The blocks lie apart from each other, headers included. -/
  apart : (allBlocks chunks).Pairwise fun first second ↦
    first.stop ≤ second.addr ∨ second.stop ≤ first.addr
  /-- The minors of a major are a doubly linked list, sorted by address. -/
  minors : ∀ chunk ∈ chunks, MinorsLinked client.heap.minors chunk.addr chunk.blocks ∧
    chunk.blocks.Pairwise fun first second ↦ first.addr < second.addr
  /-- They are the blocks that were handed out. -/
  exact : (client.live.map Prod.fst).Perm ((allBlocks chunks).map Block.pointer)
  members : ∀ chunk ∈ chunks, ∀ ptr, ptr ∈ chunk.blocks.map Block.pointer ↔
    ptr ∈ client.live.map Prod.fst ∧ chunk.addr < ptr ∧ ptr ≤ chunk.addr + chunk.size
  /-- The usage of a major counts them. -/
  usage : ∀ chunk ∈ chunks, ∃ major, client.heap.majors chunk.addr = some major ∧
    major.first = firstOr Block.addr chunk.blocks none ∧
    major.usage = majorBlockHeaderSize +
      (chunk.blocks.map fun block ↦ minorBlockHeaderSize + block.size).sum
  /-- The best bet is a major of the list. -/
  best : ∀ best, client.heap.best = some best → ∃ chunk ∈ chunks, chunk.addr = best
  /-- Every area that was acquired is a major with a block or was released once. -/
  used : ∀ chunk ∈ chunks, chunk.blocks ≠ []
  returned : client.heap.acquired.Perm (chunks.map Chunk.area ++ client.heap.released)

theorem Holds.sound (hc : Holds client chunks) : Sound client chunks := by
  have hr := hc.represents
  refine ⟨⟨hr.root, hr.majors⟩, ?_, hr.blocks_disjoint, ?_, hc.exact, ?_, ?_, hr.best, hc.used, ?_⟩
  · intro ptr requested hlive
    obtain ⟨block, hblock, hpointer, hsize⟩ := hc.requested ptr requested hlive
    obtain ⟨chunk, hchunk, hmem⟩ := mem_allBlocks.mp hblock
    have hbounds := Chunk.bounds hmem
    refine ⟨chunk, hchunk, block, hmem, hpointer, hbounds.1, hsize, ?_⟩
    rw [← hpointer, Block.pointer]
    rw [Block.stop] at hbounds
    omega
  · intro chunk hchunk
    exact ⟨hr.minors chunk hchunk, chunk.blocks_sorted⟩
  · intro chunk hchunk ptr
    constructor
    · intro hptr
      obtain ⟨block, hblock, rfl⟩ := List.mem_map.mp hptr
      have hbounds := Chunk.bounds hblock
      rw [majorBlockHeaderSize, Block.stop] at hbounds
      refine ⟨hc.exact.mem_iff.mpr (List.mem_map_of_mem
        (mem_allBlocks.mpr ⟨chunk, hchunk, hblock⟩)), ?_, ?_⟩
      · rw [Block.pointer]
        omega
      · rw [Block.pointer]
        omega
    · rintro ⟨hlive, hlow, hhigh⟩
      obtain ⟨block, hblock, rfl⟩ := List.mem_map.mp (hc.exact.mem_iff.mp hlive)
      obtain ⟨other, hother, hmem⟩ := mem_allBlocks.mp hblock
      apply List.mem_map_of_mem
      have hsame : other = chunk := by
        by_contra hne
        have hdisjoint : chunk.area.Disjoint other.area := by
          obtain ⟨before, after, rfl⟩ := List.append_of_mem hchunk
          apply hr.disjoint_others
          rw [List.mem_append, List.mem_cons, or_left_comm, ← List.mem_append] at hother
          exact hother.resolve_left hne
        have hbounds := Chunk.bounds hmem
        rw [majorBlockHeaderSize, Block.stop] at hbounds
        rw [Block.pointer] at hlow hhigh
        rw [Area.Disjoint] at hdisjoint
        simp only [Chunk.area] at hdisjoint
        omega
      rw [← hsame]
      exact hmem
  · intro chunk hchunk
    obtain ⟨before, after, rfl⟩ := List.append_of_mem hchunk
    exact ⟨_, hr.majors_eq, rfl, rfl⟩
  · exact hr.balanced.trans (hr.held.append_right _)

/-- In every run of calls that the client may make, the heap is sound after each call; and the
next call returns, unless it needs memory that the system does not have. -/
theorem heapAlloc_sound {size : NodeSize} {bytes : ℕ → UInt8} {calls : List HeapCall}
    (hrun : Calls (newClient size bytes) calls client) :
    (∃ chunks, Sound client chunks) ∧ ∀ call, Permitted client call →
      (∃ client', heapCall client call = .ok client') ∨
        ¬ Supplied client call ∧ heapCall client call = .error .outOfMemory := by
  obtain ⟨chunks, hc⟩ := holds_run hrun
  refine ⟨⟨chunks, hc.sound⟩, ?_⟩
  intro call hcall
  rcases call_done hc hcall with hfail | ⟨client', _, hok, _⟩
  · exact Or.inr hfail
  · exact Or.inl ⟨client', hok⟩

/-- A block that outgrows its major moves to a new one, and the first major is given back. -/
theorem heapAlloc_sound_move :
    ∃ client, Calls (newClient .small fun _ ↦ 0)
        [.acquire 100 0x10000, .resize 0x10080 5000 0x20000] client ∧
      client.live = [(0x20080, 5000)] ∧ client.heap.released = [⟨0x10000, 0x1000⟩] ∧
      ∃ chunks, Sound client chunks := by
  have hrun : Calls (newClient .small fun _ ↦ 0)
      [.acquire 100 0x10000, .resize 0x10080 5000 0x20000] _ :=
    .cons ⟨show 100 ≤ 2 ^ 40 by decide, rfl⟩ <|
      .cons ⟨⟨⟨100, List.mem_cons_self⟩, show 5000 ≤ 2 ^ 40 by decide⟩, rfl⟩ <| .nil _
  exact ⟨_, hrun, by decide +kernel, by decide +kernel, (heapAlloc_sound hrun).1⟩

end Brutal.Alloc
