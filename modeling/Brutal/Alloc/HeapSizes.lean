import Brutal.Alloc.HeapRuns
import Mathlib.Data.List.Pairwise

/-!
# Sizes near the top of the address space

`heap_alloc_acquire` rounds a size up to a multiple of 64, adds the size of a header to compare it
with what is free, and adds two headers and rounds up to pages for a new major.  Up to a size of
`2 ^ 64 - 4224` bytes none of these sums wraps; beyond it one of them always does.
-/

namespace Brutal.Alloc

open Lib

/-- The largest size for which no sum wraps. -/
def largestSize : ℕ := 2 ^ 64 - 4224

/-- A call fails for want of memory, or returns a block with as many bytes as were asked for, which
lie in an area of the system and belong to no other block.  Null is what a resize to nothing
returns. -/
def Right (others : List (ℕ × ℕ)) (size : ℕ) : Except HeapFault (Option ℕ × Heap) → Prop
  | .error fault => fault = .outOfMemory
  | .ok (none, _) => size = 0
  | .ok (some pointer, h) =>
    (∃ area ∈ h.held, area.base ≤ pointer ∧ pointer + size ≤ area.base + area.size) ∧
      ∀ other ∈ others, pointer + size ≤ other.1 ∨ other.1 + other.2 ≤ pointer

/-- The calls of a client that asks for no size at which a sum wraps. -/
def Within (client : Client) : HeapCall → Prop
  | .acquire size _ => size ≤ largestSize
  | .resize ptr size _ => (∃ requested, (ptr, requested) ∈ client.live) ∧ size ≤ largestSize
  | .release ptr => ∃ requested, (ptr, requested) ∈ client.live

variable {client : Client} {chunks : List Chunk}

theorem le_heapAlign {size : ℕ} (h : size ≤ largestSize) : size ≤ heapAlign size := by
  rw [heapAlign_eq (h.trans (by decide))]
  omega

/-- The blocks of a client whose sizes did not wrap are where they should be. -/
theorem right_of_holds {others : List (ℕ × ℕ)} {h : Heap} {ptr size : ℕ}
    (hc : Holds ⟨h, (ptr, size) :: others⟩ chunks) (hsize : size ≤ largestSize)
    (hothers : ∀ other ∈ others, other.2 ≤ largestSize) :
    Right others size (.ok (some ptr, h)) := by
  obtain ⟨block, hblock, hpointer, hfits⟩ := hc.requested ptr size List.mem_cons_self
  have hlarge := (le_heapAlign hsize).trans hfits
  constructor
  · obtain ⟨chunk, hchunk, hmem⟩ := mem_allBlocks.mp hblock
    have hbounds := Chunk.bounds hmem
    refine ⟨chunk.area, hc.represents.area_mem hchunk, ?_, ?_⟩
    · rw [← hpointer, Block.pointer]
      exact (Nat.le_of_add_right_le hbounds.1).trans (Nat.le_add_right _ _)
    · rw [← hpointer, Block.pointer]
      exact (Nat.add_le_add_left hlarge _).trans hbounds.2
  · rintro ⟨ptr', size'⟩ hother
    obtain ⟨block', hblock', hpointer', hfits'⟩ :=
      hc.requested ptr' size' (List.mem_cons_of_mem _ hother)
    have hlarge' := (le_heapAlign (hothers _ hother)).trans hfits'
    have hne : block ≠ block' := by
      rintro rfl
      have hnodup := hc.live_nodup
      rw [List.map_cons, List.nodup_cons] at hnodup
      apply hnodup.1
      exact List.mem_map.mpr ⟨_, hother, hpointer'.symm.trans hpointer⟩
    have hapart : block.stop ≤ block'.addr ∨ block'.stop ≤ block.addr := by
      have : Std.Symm fun first second : Block ↦
          first.stop ≤ second.addr ∨ second.stop ≤ first.addr := ⟨fun _ _ h ↦ h.symm⟩
      exact hc.represents.blocks_disjoint.forall hblock hblock' hne
    dsimp only at hlarge' ⊢
    rw [← hpointer, ← hpointer']
    unfold Block.pointer
    unfold Block.stop at hapart
    rw [minorBlockHeaderSize] at *
    omega

/-- What a client with such sizes holds, and that its sizes are such. -/
def Sized (client : Client) : Prop :=
  (∃ chunks, Holds client chunks) ∧ ∀ entry ∈ client.live, entry.2 ≤ largestSize

theorem Sized.others (h : Sized client) (ptr : ℕ) :
    ∀ entry ∈ client.others ptr, entry.2 ≤ largestSize :=
  fun entry hentry ↦ h.2 entry (mem_others.mp hentry).1

/-- A call asks for no more than it says. -/
theorem live_of_heapCall {call : HeapCall} {client' : Client} (h : Sized client)
    (hcall : Within client call) (hrun : heapCall client call = .ok client') :
    ∀ entry ∈ client'.live, entry.2 ≤ largestSize := by
  cases call with
  | acquire size base =>
    obtain ⟨⟨pointer, heap⟩, -, hrun⟩ := bind_eq_ok.mp hrun
    cases pointer with
    | none =>
      cases hrun
      exact h.2
    | some ptr =>
      cases hrun
      exact List.forall_mem_cons.mpr ⟨hcall, h.2⟩
  | resize ptr size base =>
    obtain ⟨⟨pointer, heap⟩, -, hrun⟩ := bind_eq_ok.mp hrun
    cases pointer with
    | none =>
      cases hrun
      exact h.others ptr
    | some ptr' =>
      cases hrun
      exact List.forall_mem_cons.mpr ⟨hcall.2, h.others ptr⟩
  | release ptr =>
    obtain ⟨heap, -, hrun⟩ := bind_eq_ok.mp hrun
    cases hrun
    exact h.others ptr

theorem Sized.call {call : HeapCall} {client' : Client} (h : Sized client)
    (hcall : Within client call) (hrun : heapCall client call = .ok client') : Sized client' := by
  refine ⟨?_, live_of_heapCall h hcall hrun⟩
  obtain ⟨chunks, hc⟩ := h.1
  have hdone : CallDone client call := by
    cases call with
    | acquire size base => exact acquire_done hc hcall
    | resize ptr size base =>
      obtain ⟨⟨requested, hlive⟩, hsize⟩ := hcall
      exact resize_done hc hlive hsize
    | release ptr =>
      obtain ⟨requested, hlive⟩ := hcall
      exact release_done hc hlive
  rcases hdone with ⟨-, hfail⟩ | ⟨client₁, chunks', hok, hc'⟩
  · rw [hfail] at hrun
    cases hrun
  · rw [hok] at hrun
    cases hrun
    exact ⟨chunks', hc'⟩

theorem sized_run {size : NodeSize} {bytes : ℕ → UInt8} {calls : List HeapCall}
    (hrun : Run (Guarded (Succeeds heapCall) Within) (newClient size bytes) calls client) :
    Sized client := by
  have hinit : Sized (newClient size bytes) := ⟨⟨[], holds_init size bytes⟩, nofun⟩
  apply Run.invariant _ hrun hinit
  intro s call t hs hstep
  exact hs.call hstep.1 hstep.2

theorem Sized.acquire_right (h : Sized client) {size : ℕ} (hsize : size ≤ largestSize)
    (base : ℕ) : Right client.live size (heapAllocAcquire client.heap size base) := by
  obtain ⟨chunks, hc⟩ := h.1
  rcases heapAllocAcquire_spec hc hsize base with ⟨-, hfail⟩ | ⟨ptr, h', chunks', hrun, hc'⟩
  · rw [hfail]
    rfl
  · rw [hrun]
    exact right_of_holds hc' hsize h.2

theorem Sized.resize_right (h : Sized client) {ptr requested size : ℕ}
    (hlive : (ptr, requested) ∈ client.live) (hsize : size ≤ largestSize) (base : ℕ) :
    Right (client.others ptr) size (heapAllocResize client.heap (some ptr) size base) := by
  obtain ⟨chunks, hc⟩ := h.1
  rcases heapAllocResize_spec hc hlive hsize base with ⟨-, hfail⟩ |
    ⟨hzero, h', chunks', hrun, hc'⟩ | ⟨ptr', h', chunks', hrun, hc'⟩
  · rw [hfail]
    rfl
  · have hle := le_heapAlign hsize
    rw [hrun]
    exact Nat.le_zero.mp (hzero ▸ hle)
  · rw [hrun]
    exact right_of_holds hc' hsize (h.others ptr)

/-- In the last 64 bytes a size is rounded up to nothing. -/
theorem heapAlign_wraps {size : ℕ} (hlow : 2 ^ 64 - 64 < size) (hhigh : size < 2 ^ 64) :
    heapAlign size = 0 := by
  have halign : (64 : UInt64).toNat = 2 ^ 6 := rfl
  have hsum : (UInt64.ofNat size + 64 - 1).toNat = size + 63 - 2 ^ 64 := by
    have hone : (1 : UInt64).toNat = 1 := rfl
    have hsixty : (64 : UInt64).toNat = 64 := rfl
    rw [UInt64.toNat_sub, UInt64.toNat_add, UInt64.toNat_ofNat', hone, hsixty]
    omega
  rw [heapAlign, Base.alignUp, Lib.toNat_and_not_mask halign, hsum]
  omega

/-- A major for a size from `2 ^ 64 - 4160` on has as many bytes as there are addresses. -/
theorem majorPages_wraps {size : ℕ} (hlow : 2 ^ 64 - 4224 < size) (hhigh : size + 128 < 2 ^ 64)
    (nodeSize : NodeSize) : mul (majorPages size nodeSize) pageSize = 0 := by
  have hnode : nodeSize.bytes / pageSize ≤ 32 := by
    cases nodeSize <;> decide
  have hpages : majorPages size nodeSize = 2 ^ 52 := by
    rw [majorPages, majorBlockHeaderSize, minorBlockHeaderSize, pageSize] at *
    rw [add_eq (by omega : size + 64 < 2 ^ 64), add_eq (by omega)]
    split <;> omega
  rw [hpages]
  rfl

/-- A new allocator. -/
def emptyHeap : Heap := heapAllocInit .small fun _ ↦ 0

/-- The header of a major without bytes is written outside of it. -/
theorem acquireAligned_wraps {size : ℕ} (hlow : 2 ^ 64 - 4224 < size)
    (hhigh : size + 128 < 2 ^ 64) :
    acquireAligned emptyHeap size 0x100000 = .error .wildAccess := by
  have hacquire : embedMemAcquire emptyHeap 0 0x100000 = .ok { emptyHeap with
      held := [⟨0x100000, 0⟩], acquired := [⟨0x100000, 0⟩] } :=
    if_pos ⟨by decide, by decide, nofun⟩
  have hcreate : majorBlockCreate emptyHeap size 0x100000 = .error .wildAccess := by
    rw [majorBlockCreate, majorPages_wraps hlow hhigh, hacquire, ok_bind, setMajor, if_neg]
    rintro ⟨area, harea, hbounds⟩
    obtain rfl := List.mem_singleton.mp harea
    dsimp only at hbounds
    omega
  have hroot : emptyHeap.root = none := rfl
  rw [acquireAligned, hroot, hcreate]
  rfl

/-- What a call returns, and the areas that are held after it. -/
def returned (result : Except HeapFault (Option ℕ × Heap)) : Option (Option ℕ × List Area) :=
  match result with
  | .ok (pointer, h) => some (pointer, h.held)
  | .error _ => none

theorem not_right_of_returned {others : List (ℕ × ℕ)} {size pointer : ℕ} {areas : List Area}
    {result : Except HeapFault (Option ℕ × Heap)}
    (h : returned result = some (some pointer, areas))
    (hareas : ∀ area ∈ areas, area.base + area.size < pointer + size) :
    ¬ Right others size result := by
  unfold returned at h
  split at h
  next =>
    cases h
    rintro ⟨⟨area, harea, -, hfits⟩, -⟩
    have hlong := hareas area harea
    omega
  next => cases h

/-- A new allocator after its first block. -/
def firstBlock (size : ℕ) : Except HeapFault Client :=
  heapCall (newClient .small fun _ ↦ 0) (.acquire size 0x100000)

/-- The sizes that become nothing when they are rounded up, when one header is added, or when both
are. -/
theorem returned_wraps :
    returned (acquireAligned emptyHeap 64 0x100000) =
        some (some 0x100080, [⟨0x100000, 0x1000⟩]) ∧
      returned (acquireAligned emptyHeap (2 ^ 64 - 64) 0x100000) =
        some (some 0x100080, [⟨0x100000, 0x1000⟩]) ∧
      returned (do
          let client ← firstBlock 1
          acquireAligned client.heap (2 ^ 64 - 128) 0x200000) =
        some (some 0x200080, [⟨0x200000, 0x1000⟩, ⟨0x100000, 0x1000⟩]) := by
  decide +kernel

/-- Every size past the largest one goes wrong, for a new allocator or after its first block. -/
theorem exists_not_right {size : ℕ} (hlow : largestSize < size) (hhigh : size < 2 ^ 64) :
    ∃ calls client,
      Run (Guarded (Succeeds heapCall) Within) (newClient .small fun _ ↦ 0) calls client ∧
        ∃ base, ¬ Right client.live size (heapAllocAcquire client.heap size base) := by
  obtain ⟨hzero, hfirst, hsecond⟩ := returned_wraps
  have hone : heapAlign 1 = 64 := rfl
  rw [largestSize] at hlow
  by_cases hround : 2 ^ 64 - 64 < size
  · refine ⟨[], _, .nil _, 0x100000, ?_⟩
    rw [heapAllocAcquire_eq, blockSize, heapAlign_wraps hround hhigh, if_pos rfl, hone]
    apply not_right_of_returned hzero
    simp only [List.forall_mem_singleton]
    omega
  · have halign := heapAlign_eq (Nat.le_of_not_lt hround)
    have hblock : blockSize size = heapAlign size := if_neg (by omega)
    by_cases hheader : 2 ^ 64 - 128 < size
    · refine ⟨[], _, .nil _, 0x100000, ?_⟩
      rw [heapAllocAcquire_eq, hblock, show heapAlign size = 2 ^ 64 - 64 by omega]
      apply not_right_of_returned hfirst
      simp only [List.forall_mem_singleton]
      omega
    · by_cases hboth : 2 ^ 64 - 192 < size
      · cases hrun : firstBlock 1 with
        | error fault =>
          rw [hrun] at hsecond
          cases hsecond
        | ok client =>
          rw [hrun, ok_bind] at hsecond
          refine ⟨[.acquire 1 0x100000], client, .cons ⟨show 1 ≤ largestSize by decide, hrun⟩
            (.nil _), 0x200000, ?_⟩
          rw [heapAllocAcquire_eq, hblock, show heapAlign size = 2 ^ 64 - 128 by omega]
          apply not_right_of_returned hsecond
          rw [List.forall_mem_cons, List.forall_mem_singleton]
          dsimp only
          omega
      · refine ⟨[], _, .nil _, 0x100000, ?_⟩
        have hwild : acquireAligned (newClient .small fun _ ↦ 0).heap (heapAlign size) 0x100000 =
            .error .wildAccess := acquireAligned_wraps (by omega) (by omega)
        rw [heapAllocAcquire_eq, hblock, hwild]
        rintro ⟨⟩

/-- In every run of calls whose sizes do not wrap, a call for a size returns a block that has it or
fails; this holds of exactly the sizes up to `2 ^ 64 - 4224`. -/
theorem heapAlloc_sizes_iff {size : ℕ} (hsize : size < 2 ^ 64) :
    (∀ nodeSize bytes calls client,
      Run (Guarded (Succeeds heapCall) Within) (newClient nodeSize bytes) calls client →
        (∀ base, Right client.live size (heapAllocAcquire client.heap size base)) ∧
        ∀ ptr requested base, (ptr, requested) ∈ client.live →
          Right (client.others ptr) size (heapAllocResize client.heap (some ptr) size base)) ↔
      size ≤ largestSize := by
  constructor
  · intro h
    by_contra hlarge
    obtain ⟨calls, client, hrun, base, hwrong⟩ := exists_not_right (Nat.lt_of_not_le hlarge) hsize
    exact hwrong ((h _ _ calls client hrun).1 base)
  · intro h nodeSize bytes calls client hrun
    have hsized := sized_run hrun
    exact ⟨hsized.acquire_right h, fun ptr requested base hlive ↦ hsized.resize_right hlive h base⟩

/-- After a first block of 100 bytes, a second one, and the first one with another size. -/
theorem heapAlloc_sizes_hundred : ∃ client, firstBlock 100 = .ok client ∧
    Right client.live 200 (heapAllocAcquire client.heap 200 0x200000) ∧
      Right [] 200 (heapAllocResize client.heap (some 0x100080) 200 0x200000) := by
  have hfirst : (firstBlock 100).map (·.live) = .ok [(0x100080, 100)] := by decide +kernel
  cases hclient : firstBlock 100 with
  | error fault =>
    rw [hclient] at hfirst
    cases hfirst
  | ok client =>
    rw [hclient] at hfirst
    have hlive : client.live = [(0x100080, 100)] := Except.ok.inj hfirst
    have hwithin : Within (newClient .small fun _ ↦ 0) (.acquire 100 0x100000) :=
      show 100 ≤ largestSize by decide
    obtain ⟨hacquire, hresize⟩ :=
      (heapAlloc_sizes_iff (show 200 < 2 ^ 64 by decide)).mpr (by decide)
      .small (fun _ ↦ 0) [.acquire 100 0x100000] client (.cons ⟨hwithin, hclient⟩ (.nil client))
    have hothers : client.others 0x100080 = [] := by
      rw [Client.others, hlive]
      rfl
    refine ⟨client, rfl, hacquire 0x200000, hothers ▸ hresize 0x100080 100 0x200000 ?_⟩
    rw [hlive]
    exact List.mem_singleton_self _

/-- Asked for all but one of the bytes that there are addresses for, a new allocator returns a block
of 64 bytes, and a block that is to be resized to that many is given back. -/
theorem heapAlloc_sizes_fail :
    ¬ Right [] (2 ^ 64 - 1) (heapAllocAcquire emptyHeap (2 ^ 64 - 1) 0x100000) ∧
      (returned do
        let client ← firstBlock 100
        heapAllocResize client.heap (some 0x100080) (2 ^ 64 - 1) 0x200000) = some (none, []) := by
  have hreturned : returned (heapAllocAcquire emptyHeap (2 ^ 64 - 1) 0x100000) =
      some (some 0x100080, [⟨0x100000, 0x1000⟩]) ∧
      (returned do
        let client ← firstBlock 100
        heapAllocResize client.heap (some 0x100080) (2 ^ 64 - 1) 0x200000) = some (none, []) := by
    decide +kernel
  exact ⟨not_right_of_returned hreturned.1 (by decide), hreturned.2⟩

end Brutal.Alloc
