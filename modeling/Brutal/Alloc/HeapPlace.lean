import Brutal.Alloc.HeapShape

/-!
# Placing a block in a major

`heap_alloc_acquire` looks for a place in one major: the whole of it when it is new, the space
before the first minor, a gap between two minors or the space behind the last one.
-/

namespace Brutal.Alloc

open Brutal.Lib

variable {new last next : Block} {rest : List Block}

theorem add_eq {a b : ℕ} (h : a + b < 2 ^ 64) : add a b = a + b := Nat.mod_eq_of_lt h

theorem sub_eq {a b : ℕ} (hb : b ≤ a) (ha : a < 2 ^ 64) : sub a b = a - b := by
  rw [sub]
  omega

/-- The space between the header of a major and its first minor. -/
theorem front_gap {maj first : ℕ} (hlow : maj + majorBlockHeaderSize ≤ first)
    (hhigh : first < 2 ^ 64) :
    sub (sub first maj) majorBlockHeaderSize = first - (maj + majorBlockHeaderSize) := by
  rw [majorBlockHeaderSize] at *
  rw [sub_eq (by omega) hhigh, sub_eq (by omega) (by omega)]
  omega

/-- The space between a block and an address behind it, which may be the end of the address
space. -/
theorem gap_eq {min size stop : ℕ} (hlow : min + minorBlockHeaderSize + size ≤ stop)
    (hhigh : stop ≤ 2 ^ 64) (hmin : 0 < min) :
    sub (sub (sub (stop % 2 ^ 64) min) minorBlockHeaderSize) size =
      stop - (min + minorBlockHeaderSize + size) := by
  rw [minorBlockHeaderSize] at *
  have hsub : sub (stop % 2 ^ 64) min = stop - min := by
    rw [sub]
    omega
  have hsub' : sub (stop - min) 64 = stop - min - 64 := sub_eq (by omega) (by omega)
  rw [hsub, hsub', sub_eq (by omega) (by omega)]
  omega

theorem heapAlign_eq {size : ℕ} (h : size ≤ 2 ^ 64 - 64) :
    heapAlign size = (size + 63) / 64 * 64 := by
  have halign : (64 : UInt64).toNat = 2 ^ 6 := rfl
  have hsum : (UInt64.ofNat size + 64 - 1).toNat = size + 63 := by
    have hone : (1 : UInt64).toNat = 1 := rfl
    have hsixty : (64 : UInt64).toNat = 64 := rfl
    rw [UInt64.toNat_sub, UInt64.toNat_add, UInt64.toNat_ofNat', hone, hsixty]
    omega
  have hpow : 2 ^ 6 = 64 := rfl
  rw [heapAlign, Base.alignUp, Lib.toNat_and_not_mask halign, hsum, hpow]

section Memory

variable {h : Heap} {address : ℕ}

theorem setMajor_ok (hmapped : Mapped h address) (major : HeapMajor) :
    setMajor h address major =
      .ok { h with majors := Function.update h.majors address (some major) } :=
  if_pos hmapped

theorem setMinor_ok (hmapped : Mapped h address) (minor : HeapMinor) :
    setMinor h address minor =
      .ok { h with minors := Function.update h.minors address (some minor) } :=
  if_pos hmapped

theorem getMajor_ok {major : HeapMajor} (h' : h.majors address = some major) :
    getMajor h address = .ok major := by
  rw [getMajor, h']

theorem getMinor_ok {minor : HeapMinor} (h' : h.minors address = some minor) :
    getMinor h address = .ok minor := by
  rw [getMinor, h']

theorem updateMajor_ok {major : HeapMajor} (hmajor : h.majors address = some major)
    (hmapped : Mapped h address) (change : HeapMajor → HeapMajor) :
    updateMajor h address change =
      .ok { h with majors := Function.update h.majors address (some (change major)) } := by
  rw [updateMajor, getMajor_ok hmajor, ok_bind, setMajor_ok hmapped]

theorem updateMinor_ok {minor : HeapMinor} (hminor : h.minors address = some minor)
    (hmapped : Mapped h address) (change : HeapMinor → HeapMinor) :
    updateMinor h address change =
      .ok { h with minors := Function.update h.minors address (some (change minor)) } := by
  rw [updateMinor, getMinor_ok hminor, ok_bind, setMinor_ok hmapped]

end Memory

namespace Represents

variable {h : Heap} {before after chunks : List Chunk} {chunk : Chunk} {first second : List Block}
  {block : Block}

theorem majors_eq (hr : Represents h (before ++ chunk :: after)) :
    h.majors chunk.addr =
      some (chunk.header (lastOr Chunk.addr none before) (firstOr Chunk.addr after none)) :=
  Linked.link_of_append hr.majors

theorem minors_eq (hr : Represents h chunks) (hchunk : chunk ∈ chunks)
    (hblocks : chunk.blocks = first ++ block :: second) :
    h.minors block.addr = some (block.header chunk.addr (lastOr Block.addr none first)
      (firstOr Block.addr second none)) := by
  have hminors := hr.minors chunk hchunk
  rw [hblocks] at hminors
  exact Linked.link_of_append hminors

end Represents

theorem Chunk.laid_insert (chunk : Chunk) {first second : List Block}
    (hblocks : chunk.blocks = first ++ second)
    (hlow : gapStart Block.stop (chunk.addr + majorBlockHeaderSize) first ≤ new.addr)
    (hhigh : new.stop ≤ gapEnd Block.addr second (chunk.addr + chunk.size))
    (hrequested : new.reqSize ≤ new.size) :
    Laid Block.addr Block.stop (chunk.addr + majorBlockHeaderSize) (first ++ new :: second)
      (chunk.addr + chunk.pages * pageSize) := by
  have hlaid := chunk.laid
  rw [hblocks] at hlaid
  apply hlaid.insert hlow _ hhigh
  rw [Block.stop]
  omega

theorem Chunk.requested_insert (chunk : Chunk) {first second : List Block}
    (hblocks : chunk.blocks = first ++ second) (hrequested : new.reqSize ≤ new.size) :
    ∀ block ∈ first ++ new :: second, block.reqSize ≤ block.size := by
  intro block hblock
  rw [List.mem_append, List.mem_cons, or_left_comm, ← List.mem_append, ← hblocks] at hblock
  rcases hblock with rfl | hblock
  · exact hrequested
  · exact chunk.requested block hblock

/-- The chunk with one block more, in a gap that is large enough. -/
def Chunk.withBlock (chunk : Chunk) (first second : List Block) (new : Block)
    (hblocks : chunk.blocks = first ++ second)
    (hlow : gapStart Block.stop (chunk.addr + majorBlockHeaderSize) first ≤ new.addr)
    (hhigh : new.stop ≤ gapEnd Block.addr second (chunk.addr + chunk.size))
    (hrequested : new.reqSize ≤ new.size) : Chunk :=
  { chunk with
    blocks := first ++ new :: second
    laid := chunk.laid_insert hblocks hlow hhigh hrequested
    requested := chunk.requested_insert hblocks hrequested }

/-- What placing a block of the given size in a chunk does. -/
def Placed (h : Heap) (before : List Chunk) (chunk : Chunk) (after : List Chunk)
    (size pointer : ℕ) (h' : Heap) : Prop :=
  ∃ (chunk' : Chunk) (first second : List Block) (new : Block),
    Represents h' (before ++ chunk' :: after) ∧ chunk.blocks = first ++ second ∧
      chunk'.blocks = first ++ new :: second ∧ new.pointer = pointer ∧ new.size = size ∧
      h'.bytes = h.bytes ∧ h'.size = h.size

variable {h : Heap} {before after : List Chunk} {chunk : Chunk} {size : ℕ}
  {first second : List Block}

/-- The usage counts the new block. -/
theorem usage_insert {chunk' : Chunk} (hblocks : chunk.blocks = first ++ second)
    (hblocks' : chunk'.blocks = first ++ new :: second) :
    chunk'.usage = chunk.usage + (minorBlockHeaderSize + new.size) := by
  rw [Chunk.usage, Chunk.usage, hblocks, hblocks']
  simp only [List.map_append, List.map_cons, List.sum_append, List.sum_cons]
  omega

theorem header_insert {chunk' : Chunk} (hblocks : chunk.blocks = first ++ second)
    (hpages : chunk'.pages = chunk.pages) (hblocks' : chunk'.blocks = first ++ new :: second)
    (prev next : Option ℕ) :
    chunk'.header prev next = addUsage new.size { chunk.header prev next with
      first := firstOr Block.addr (first ++ new :: second) none } := by
  have husage := usage_insert hblocks hblocks'
  have hle := chunk'.usage_le
  have hlt := chunk'.size_lt
  rw [minorBlockHeaderSize] at husage
  have hsize : add new.size minorBlockHeaderSize = new.size + 64 := by
    rw [minorBlockHeaderSize]
    exact add_eq (by omega)
  have hadd : add chunk.usage (new.size + 64) = chunk'.usage := by
    rw [add_eq (by omega)]
    omega
  simp only [addUsage, Chunk.header, hsize, hadd, hblocks', Chunk.size, hpages]

/-- The four ways to place a block end with a write of the usage to the major. -/
theorem placed_of_writes (new : Block) (minors : ℕ → Option HeapMinor)
    (hr : Represents h (before ++ chunk :: after)) (hblocks : chunk.blocks = first ++ second)
    (change : HeapMajor → HeapMajor)
    (hchange : ∀ prev next, change (chunk.header prev next) =
      addUsage new.size { chunk.header prev next with
        first := firstOr Block.addr (first ++ new :: second) none })
    (hlow : gapStart Block.stop (chunk.addr + majorBlockHeaderSize) first ≤ new.addr)
    (hhigh : new.stop ≤ gapEnd Block.addr second (chunk.addr + chunk.size))
    (hrequested : new.reqSize ≤ new.size)
    (hnew : minors new.addr = some (new.header chunk.addr (lastOr Block.addr none first)
      (firstOr Block.addr second none)))
    (hlast : ∀ address minor, lastOr Block.addr none first = some address →
      address ≠ new.addr → firstOr Block.addr second none ≠ some address →
      h.minors address = some minor → minors address = some { minor with next := some new.addr })
    (hfirst : ∀ address minor, firstOr Block.addr second none = some address →
      address ≠ new.addr → lastOr Block.addr none first ≠ some address →
      h.minors address = some minor → minors address = some { minor with prev := some new.addr })
    (hkeep : ∀ address, address ≠ new.addr → lastOr Block.addr none first ≠ some address →
      firstOr Block.addr second none ≠ some address → minors address = h.minors address) :
    ∃ h', updateMajor { h with minors } chunk.addr change = .ok h' ∧
      Placed h before chunk after new.size new.pointer h' := by
  let chunk' := chunk.withBlock first second new hblocks hlow hhigh hrequested
  have haddr : chunk'.addr = chunk.addr := rfl
  have hpages : chunk'.pages = chunk.pages := rfl
  have hblocks' : chunk'.blocks = first ++ new :: second := rfl
  have hmapped := hr.mapped_major (List.mem_append_right before List.mem_cons_self)
  refine ⟨_, updateMajor_ok (h := { h with minors }) hr.majors_eq hmapped change,
    chunk', first, second, new, ?_, hblocks, hblocks', rfl, rfl, rfl, rfl⟩
  apply hr.insertBlock hblocks haddr hpages hblocks' _ _ hnew hlast hfirst hkeep
  · rw [Function.update_self, hchange, header_insert hblocks hpages hblocks']
  · intro address haddress
    rw [Function.update_of_ne haddress]

/-- The place of a new block lies in memory that the allocator holds. -/
theorem mapped_new (hr : Represents h (before ++ chunk :: after)) (hlow : chunk.addr ≤ new.addr)
    (hhigh : new.stop ≤ chunk.addr + chunk.size) : Mapped h new.addr := by
  rw [Block.stop, minorBlockHeaderSize] at hhigh
  exact hr.mapped (List.mem_append_right before List.mem_cons_self) hlow (by omega)

theorem add_pointer (hhigh : new.stop ≤ chunk.addr + chunk.size) (hpos : 0 < new.size) :
    add new.addr minorBlockHeaderSize = new.pointer := by
  have hbounded := chunk.bounded
  rw [← Chunk.size] at hbounded
  rw [Block.stop] at hhigh
  exact add_eq (by omega)

/-- Where a block that is placed behind another one starts. -/
theorem add_stop {block : Block} (hlt : block.stop < 2 ^ 64) :
    add (add block.addr minorBlockHeaderSize) block.size = block.stop := by
  rw [Block.stop] at hlt
  rw [add_eq (by omega : block.addr + minorBlockHeaderSize < 2 ^ 64), add_eq hlt, Block.stop]

/-- The test for room in front of the first block says whether there is room. -/
theorem front_fits {head : Block} (hhead : head ∈ chunk.blocks)
    (hsmall : size + minorBlockHeaderSize < 2 ^ 64) :
    sub (sub head.addr chunk.addr) majorBlockHeaderSize ≥ add size minorBlockHeaderSize ↔
      chunk.addr + majorBlockHeaderSize + (size + minorBlockHeaderSize) ≤ head.addr := by
  have hbounded := chunk.bounded
  have hbounds := Chunk.bounds hhead
  rw [← Chunk.size] at hbounded
  rw [Block.stop] at hbounds
  have hlt : head.addr < 2 ^ 64 := by
    rw [minorBlockHeaderSize] at hbounds
    omega
  rw [front_gap hbounds.1 hlt, add_eq hsmall]
  omega

/-- The test for room behind the last block says whether there is room. -/
theorem tail_fits (hlast : last ∈ chunk.blocks) (hsmall : size + minorBlockHeaderSize < 2 ^ 64) :
    sub (sub (sub (add chunk.addr chunk.size) last.addr) minorBlockHeaderSize) last.size ≥
        add size minorBlockHeaderSize ↔
      last.stop + (size + minorBlockHeaderSize) ≤ chunk.addr + chunk.size := by
  have hbounded := chunk.bounded
  have hbounds := Chunk.bounds hlast
  rw [← Chunk.size] at hbounded
  rw [Block.stop, majorBlockHeaderSize] at hbounds
  rw [add, gap_eq hbounds.2 hbounded (by omega), add_eq hsmall, Block.stop]
  omega

/-- The test for room between two blocks says whether there is room. -/
theorem middle_fits {block next : Block} (hblocks : chunk.blocks = first ++ block :: next :: rest)
    (hsmall : size + minorBlockHeaderSize < 2 ^ 64) :
    sub (sub (sub next.addr block.addr) minorBlockHeaderSize) block.size ≥
        add size minorBlockHeaderSize ↔
      block.stop + (size + minorBlockHeaderSize) ≤ next.addr := by
  have hblock : block ∈ chunk.blocks := by
    rw [hblocks]
    simp
  have hnext : next ∈ chunk.blocks := by
    rw [hblocks]
    simp
  have horder : block.stop ≤ next.addr := by
    have hlaid := chunk.laid
    rw [hblocks, laid_append_cons] at hlaid
    exact hlaid.2.2.1
  have hbounded := chunk.bounded
  have hlow := (Chunk.bounds hblock).1
  have hends := (Chunk.bounds hnext).2
  rw [← Chunk.size] at hbounded
  rw [majorBlockHeaderSize] at hlow
  rw [Block.stop, minorBlockHeaderSize] at hends
  rw [Block.stop] at horder ⊢
  have hmod : next.addr % 2 ^ 64 = next.addr := Nat.mod_eq_of_lt (by omega)
  rw [← hmod, gap_eq horder (by omega) (by omega), add_eq hsmall, hmod]
  omega

/-- A block that is not put in front leaves the first block of the chunk where it is. -/
theorem header_of_append (hblocks : chunk.blocks = first ++ block :: second)
    (prev next : Option ℕ) :
    chunk.header prev next = { chunk.header prev next with
      first := firstOr Block.addr ((first ++ [block]) ++ new :: second) none } := by
  rw [firstOr_append, Chunk.header, hblocks]
  cases first with
  | nil => rfl
  | cons head rest => rfl

section Cases

variable (hr : Represents h (before ++ chunk :: after)) (hpos : 0 < size)
include hr hpos

/-- CASE 2: a chunk without blocks. -/
theorem placeBlock_new (hblocks : chunk.blocks = [])
    (hfit : size + majorBlockHeaderSize + minorBlockHeaderSize ≤ chunk.size) :
    ∃ pointer h', placeBlock h chunk.addr size = .ok (some pointer, h') ∧
      Placed h before chunk after size pointer h' := by
  have hbounded := chunk.bounded
  rw [← Chunk.size] at hbounded
  rw [majorBlockHeaderSize, minorBlockHeaderSize] at hfit
  let new : Block := ⟨chunk.addr + 64, size, size⟩
  have hhigh : new.stop ≤ chunk.addr + chunk.size := by
    change chunk.addr + 64 + 64 + size ≤ chunk.addr + chunk.size
    omega
  have hmin : add chunk.addr majorBlockHeaderSize = new.addr := add_eq (by
    rw [majorBlockHeaderSize]
    omega)
  have hset := setMinor_ok (mapped_new hr (Nat.le_add_right _ _) hhigh)
    (placedMinor chunk.addr size none none)
  obtain ⟨h', hupdate, hplaced⟩ := placed_of_writes new
    (Function.update h.minors new.addr (some (placedMinor chunk.addr size none none)))
    hr (show chunk.blocks = [] ++ [] from hblocks)
    (fun major ↦ addUsage size { major with first := some new.addr }) (fun _ _ ↦ rfl)
    (Nat.le_refl new.addr) hhigh (Nat.le_refl size) (Function.update_self ..) (by rintro _ _ ⟨⟩)
    (by rintro _ _ ⟨⟩) (fun address haddress _ _ ↦ Function.update_of_ne haddress ..)
  have hnone : ∀ prev next, (chunk.header prev next).first = none := by
    intro prev next
    rw [Chunk.header, hblocks, firstOr_nil]
  refine ⟨new.pointer, h', ?_, hplaced⟩
  simp only [placeBlock, hr.getMajor_eq, ok_bind, hnone, hmin, hset, hupdate,
    add_pointer hhigh hpos]
  rfl

/-- CASE 3: the space before the first block is large enough. -/
theorem placeBlock_front {head : Block} (hblocks : chunk.blocks = head :: rest)
    (hfit : chunk.addr + majorBlockHeaderSize + (size + minorBlockHeaderSize) ≤ head.addr) :
    ∃ pointer h', placeBlock h chunk.addr size = .ok (some pointer, h') ∧
      Placed h before chunk after size pointer h' := by
  have hbounded := chunk.bounded
  have hmem : chunk ∈ before ++ chunk :: after := List.mem_append_right before List.mem_cons_self
  have hhead : head ∈ chunk.blocks := by
    rw [hblocks]
    exact List.mem_cons_self
  have hends := (Chunk.bounds hhead).2
  rw [← Chunk.size] at hbounded
  rw [Block.stop, minorBlockHeaderSize] at hends
  have hdiff := (front_fits hhead (by omega)).2 hfit
  rw [majorBlockHeaderSize, minorBlockHeaderSize] at hfit
  let new : Block := ⟨chunk.addr + 64, size, size⟩
  have hstop : new.stop ≤ head.addr := by
    change chunk.addr + 64 + 64 + size ≤ head.addr
    omega
  have hhigh : new.stop ≤ chunk.addr + chunk.size := by omega
  have hmin : add chunk.addr majorBlockHeaderSize = new.addr := add_eq (by
    rw [majorBlockHeaderSize]
    omega)
  have hne : head.addr ≠ new.addr := by
    change head.addr ≠ chunk.addr + 64
    omega
  have hheader := hr.minors_eq hmem (show chunk.blocks = [] ++ head :: rest from hblocks)
  let minors := Function.update h.minors head.addr (some { head.header chunk.addr none
    (firstOr Block.addr rest none) with prev := some new.addr })
  let minors' := Function.update minors new.addr
    (some (placedMinor chunk.addr size none (some head.addr)))
  have hprev : updateMinor h head.addr (fun minor ↦ { minor with prev := some new.addr }) =
      .ok { h with minors } :=
    updateMinor_ok hheader (hr.mapped_minor hmem hhead) _
  have hmapped : Mapped h new.addr := mapped_new hr (Nat.le_add_right _ _) hhigh
  have hset : setMinor { h with minors } new.addr
      (placedMinor chunk.addr size none (some head.addr)) = .ok { h with minors := minors' } :=
    setMinor_ok (h := { h with minors }) hmapped _
  obtain ⟨h', hupdate, hplaced⟩ := placed_of_writes new minors' hr
    (show chunk.blocks = [] ++ head :: rest from hblocks)
    (fun major ↦ addUsage size { major with first := some new.addr }) (fun _ _ ↦ rfl)
    (Nat.le_refl new.addr) hstop (Nat.le_refl size) (Function.update_self ..) (by rintro _ _ ⟨⟩)
    (by
      intro address minor haddress _ _ hminor
      cases haddress
      rw [hheader] at hminor
      cases hminor
      exact (Function.update_of_ne hne ..).trans (Function.update_self ..))
    (by
      intro address haddress _ hstart
      have hother : address ≠ head.addr := fun heq ↦ hstart (by rw [heq]; rfl)
      exact (Function.update_of_ne haddress ..).trans (Function.update_of_ne hother ..))
  have hsome : ∀ prev next, (chunk.header prev next).first = some head.addr := by
    intro prev next
    rw [Chunk.header, hblocks, firstOr_cons]
  refine ⟨new.pointer, h', ?_, hplaced⟩
  simp only [placeBlock, hr.getMajor_eq, ok_bind, hsome, if_pos hdiff, hmin, hprev, hset, hupdate,
    add_pointer hhigh hpos]
  rfl

/-- CASE 4.1: the space behind the last block is large enough. -/
theorem gapBody_tail (hblocks : chunk.blocks = first ++ [last])
    (hfit : last.stop + (size + minorBlockHeaderSize) ≤ chunk.addr + chunk.size) :
    ∃ pointer h', gapBody h chunk.addr size last.addr = .ok (.inr (some pointer, h')) ∧
      Placed h before chunk after size pointer h' := by
  have hbounded := chunk.bounded
  have hmem : chunk ∈ before ++ chunk :: after := List.mem_append_right before List.mem_cons_self
  have hlast : last ∈ chunk.blocks := by
    rw [hblocks]
    simp
  have hlow := (Chunk.bounds hlast).1
  rw [← Chunk.size] at hbounded
  rw [majorBlockHeaderSize] at hlow
  have hdiff := (tail_fits hlast (by rw [Block.stop] at hfit; omega)).2 hfit
  rw [Block.stop, minorBlockHeaderSize] at hfit
  let new : Block := ⟨last.stop, size, size⟩
  have hhigh : new.stop ≤ chunk.addr + chunk.size := by
    change last.addr + 64 + last.size + 64 + size ≤ chunk.addr + chunk.size
    omega
  have hplace : add (add last.addr minorBlockHeaderSize) last.size = new.addr := add_stop (by
    rw [Block.stop, minorBlockHeaderSize]
    omega)
  have hne : last.addr ≠ new.addr := by
    change last.addr ≠ last.addr + 64 + last.size
    omega
  have hheader := hr.minors_eq hmem hblocks
  let minors := Function.update h.minors last.addr (some { last.header chunk.addr
    (lastOr Block.addr none first) none with next := some new.addr })
  let minors' := Function.update minors new.addr
    (some (placedMinor chunk.addr size (some last.addr) none))
  have hnext : updateMinor h last.addr (fun minor ↦ { minor with next := some new.addr }) =
      .ok { h with minors } :=
    updateMinor_ok hheader (hr.mapped_minor hmem hlast) _
  have hmapped : Mapped h new.addr := mapped_new hr
    (by change chunk.addr ≤ last.addr + 64 + last.size; omega) hhigh
  have hset : setMinor { h with minors } new.addr
      (placedMinor chunk.addr size (some last.addr) none) = .ok { h with minors := minors' } :=
    setMinor_ok (h := { h with minors }) hmapped _
  have hends : lastOr Block.addr none (first ++ [last]) = some last.addr := by simp
  obtain ⟨h', hupdate, hplaced⟩ := placed_of_writes new minors' hr
    (show chunk.blocks = (first ++ [last]) ++ [] by rw [hblocks, List.append_nil])
    (addUsage size)
    (fun prev next ↦ congrArg (addUsage size) (header_of_append hblocks prev next))
    (by rw [gapStart_append_singleton]) hhigh (Nat.le_refl size)
    (by
      rw [hends]
      exact Function.update_self ..)
    (by
      intro address minor haddress _ _ hminor
      rw [hends] at haddress
      cases haddress
      rw [hheader] at hminor
      cases hminor
      exact (Function.update_of_ne hne ..).trans (Function.update_self ..))
    (by rintro _ _ ⟨⟩)
    (by
      intro address haddress hend _
      have hother : address ≠ last.addr := fun heq ↦ hend (by rw [hends, heq])
      exact (Function.update_of_ne haddress ..).trans (Function.update_of_ne hother ..))
  refine ⟨new.pointer, h', ?_, hplaced⟩
  rw [gapBody, hr.getMinor_eq hmem hblocks, ok_bind]
  simp only [Block.header, firstOr_nil, hr.getMajor_eq, ok_bind, Chunk.header, if_pos hdiff, hplace,
    hnext, hset, hupdate, add_pointer hhigh hpos]
  rfl

/-- CASE 4.2: the space between two blocks is large enough. -/
theorem gapBody_middle {block next : Block}
    (hblocks : chunk.blocks = first ++ block :: next :: rest)
    (hfit : block.stop + (size + minorBlockHeaderSize) ≤ next.addr) :
    ∃ pointer h', gapBody h chunk.addr size block.addr = .ok (.inr (some pointer, h')) ∧
      Placed h before chunk after size pointer h' := by
  have hbounded := chunk.bounded
  have hmem : chunk ∈ before ++ chunk :: after := List.mem_append_right before List.mem_cons_self
  have hblock : block ∈ chunk.blocks := by
    rw [hblocks]
    simp
  have hnext : next ∈ chunk.blocks := by
    rw [hblocks]
    simp
  have hlow := (Chunk.bounds hblock).1
  have hends := (Chunk.bounds hnext).2
  rw [← Chunk.size] at hbounded
  rw [majorBlockHeaderSize] at hlow
  rw [Block.stop, minorBlockHeaderSize] at hends
  have hdiff := (middle_fits hblocks (by omega)).2 hfit
  rw [Block.stop, minorBlockHeaderSize] at hfit
  let new : Block := ⟨block.stop, size, size⟩
  have hstop : new.stop ≤ next.addr := by
    change block.addr + 64 + block.size + 64 + size ≤ next.addr
    omega
  have hhigh : new.stop ≤ chunk.addr + chunk.size := by omega
  have hplace : add (add block.addr minorBlockHeaderSize) block.size = new.addr := add_stop (by
    rw [Block.stop, minorBlockHeaderSize]
    omega)
  have hne : block.addr ≠ new.addr := by
    change block.addr ≠ block.addr + 64 + block.size
    omega
  have hne' : next.addr ≠ new.addr := by
    change next.addr ≠ block.addr + 64 + block.size
    omega
  have hne'' : block.addr ≠ next.addr := by omega
  have hheader := hr.minors_eq hmem hblocks
  have hheader' := hr.minors_eq hmem
    (show chunk.blocks = (first ++ [block]) ++ next :: rest by rw [hblocks, List.append_cons])
  have hlast : lastOr Block.addr none (first ++ [block]) = some block.addr := by simp
  rw [firstOr_cons] at hheader
  rw [hlast] at hheader'
  let minors := Function.update h.minors new.addr
    (some (placedMinor chunk.addr size (some block.addr) (some next.addr)))
  let minors' := Function.update minors next.addr (some { next.header chunk.addr
    (some block.addr) (firstOr Block.addr rest none) with prev := some new.addr })
  let minors'' := Function.update minors' block.addr (some { block.header chunk.addr
    (lastOr Block.addr none first) (some next.addr) with next := some new.addr })
  have hmapped : Mapped h new.addr := mapped_new hr
    (by change chunk.addr ≤ block.addr + 64 + block.size; omega) hhigh
  have hset : setMinor h new.addr (placedMinor chunk.addr size (some block.addr)
      (some next.addr)) = .ok { h with minors } :=
    setMinor_ok hmapped _
  have hprev : updateMinor { h with minors } next.addr
      (fun minor ↦ { minor with prev := some new.addr }) = .ok { h with minors := minors' } :=
    updateMinor_ok (h := { h with minors }) ((Function.update_of_ne hne' ..).trans hheader')
      (hr.mapped_minor hmem hnext) _
  have hupdateNext : updateMinor { h with minors := minors' } block.addr
      (fun minor ↦ { minor with next := some new.addr }) = .ok { h with minors := minors'' } :=
    updateMinor_ok (h := { h with minors := minors' })
      ((Function.update_of_ne hne'' ..).trans ((Function.update_of_ne hne ..).trans hheader))
      (hr.mapped_minor hmem hblock) _
  obtain ⟨h', hupdate, hplaced⟩ := placed_of_writes new minors'' hr
    (show chunk.blocks = (first ++ [block]) ++ next :: rest by rw [hblocks, List.append_cons])
    (addUsage size)
    (fun prev next ↦ congrArg (addUsage size) (header_of_append hblocks prev next))
    (by rw [gapStart_append_singleton]) hstop (Nat.le_refl size)
    (by
      rw [hlast]
      exact (Function.update_of_ne hne.symm ..).trans
        ((Function.update_of_ne hne'.symm ..).trans (Function.update_self ..)))
    (by
      intro address minor haddress _ _ hminor
      rw [hlast] at haddress
      cases haddress
      rw [hheader] at hminor
      cases hminor
      exact Function.update_self ..)
    (by
      intro address minor haddress _ _ hminor
      cases haddress
      rw [hheader'] at hminor
      cases hminor
      exact (Function.update_of_ne hne''.symm ..).trans (Function.update_self ..))
    (by
      intro address haddress hend hstart
      have hother : address ≠ block.addr := fun heq ↦ hend (by rw [hlast, heq])
      have hother' : address ≠ next.addr := fun heq ↦ hstart (by rw [heq]; rfl)
      exact (Function.update_of_ne hother ..).trans
        ((Function.update_of_ne hother' ..).trans (Function.update_of_ne haddress ..)))
  refine ⟨new.pointer, h', ?_, hplaced⟩
  rw [gapBody, hr.getMinor_eq hmem hblocks, ok_bind]
  simp only [Block.header, firstOr_cons, if_pos hdiff, hplace, hset, ok_bind, hprev, hupdateNext,
    hupdate, add_pointer hhigh hpos]
  rfl

end Cases

section Search

variable (hr : Represents h (before ++ chunk :: after))
  (hsmall : size + minorBlockHeaderSize < 2 ^ 64)
include hr hsmall

theorem gapBody_full (hblocks : chunk.blocks = first ++ [last])
    (hfull : ¬ last.stop + (size + minorBlockHeaderSize) ≤ chunk.addr + chunk.size) :
    gapBody h chunk.addr size last.addr = .ok (.inr (none, h)) := by
  have hmem : chunk ∈ before ++ chunk :: after := List.mem_append_right before List.mem_cons_self
  have hlast : last ∈ chunk.blocks := by
    rw [hblocks]
    simp
  rw [gapBody, hr.getMinor_eq hmem hblocks, ok_bind]
  simp only [Block.header, firstOr_nil, hr.getMajor_eq, ok_bind, Chunk.header]
  exact if_neg fun hdiff ↦ hfull ((tail_fits hlast hsmall).1 hdiff)

theorem gapBody_next {block next : Block} (hblocks : chunk.blocks = first ++ block :: next :: rest)
    (hfull : ¬ block.stop + (size + minorBlockHeaderSize) ≤ next.addr) :
    gapBody h chunk.addr size block.addr = .ok (.inl next.addr) := by
  have hmem : chunk ∈ before ++ chunk :: after := List.mem_append_right before List.mem_cons_self
  rw [gapBody, hr.getMinor_eq hmem hblocks, ok_bind]
  simp only [Block.header, firstOr_cons]
  exact if_neg fun hdiff ↦ hfull ((middle_fits hblocks hsmall).1 hdiff)

/-- CASE 4: the loop over the minors finds a gap or comes to the end. -/
theorem gapLoop (hpos : 0 < size) {block : Block}
    (hblocks : chunk.blocks = first ++ block :: second)
    {turns : ℕ} (hturns : second.length < turns) :
    loop (gapBody h chunk.addr size) .turns turns block.addr = .ok (none, h) ∨
      ∃ pointer h', loop (gapBody h chunk.addr size) .turns turns block.addr =
        .ok (some pointer, h') ∧ Placed h before chunk after size pointer h' := by
  induction second generalizing first block turns with
  | nil =>
    obtain ⟨turns, rfl⟩ := Nat.exists_eq_add_of_lt hturns
    by_cases hfit : block.stop + (size + minorBlockHeaderSize) ≤ chunk.addr + chunk.size
    · obtain ⟨pointer, h', hbody, hplaced⟩ := gapBody_tail hr hpos hblocks hfit
      exact Or.inr ⟨pointer, h', loop_leave hbody _, hplaced⟩
    · exact Or.inl (loop_leave (gapBody_full hr hsmall hblocks hfit) _)
  | cons next rest ih =>
    obtain ⟨turns, rfl⟩ := Nat.exists_eq_add_of_lt hturns
    by_cases hfit : block.stop + (size + minorBlockHeaderSize) ≤ next.addr
    · obtain ⟨pointer, h', hbody, hplaced⟩ := gapBody_middle hr hpos hblocks hfit
      exact Or.inr ⟨pointer, h', loop_leave hbody _, hplaced⟩
    · have hblocks' : chunk.blocks = (first ++ [block]) ++ next :: rest := by
        rw [hblocks, List.append_cons]
      rw [loop_turn (gapBody_next hr hsmall hblocks hfit)]
      apply ih hblocks'
      rw [List.length_cons]
      omega

/-- What the search for a place in one major does.  A major without blocks has room for the one
that it was created for. -/
theorem placeBlock_spec (hpos : 0 < size) (hnew : chunk.blocks = [] →
      size + majorBlockHeaderSize + minorBlockHeaderSize ≤ chunk.size) :
    (chunk.blocks ≠ [] ∧ placeBlock h chunk.addr size = .ok (none, h)) ∨
      ∃ pointer h', placeBlock h chunk.addr size = .ok (some pointer, h') ∧
        Placed h before chunk after size pointer h' := by
  cases hblocks : chunk.blocks with
  | nil => exact Or.inr (placeBlock_new hr hpos hblocks (hnew hblocks))
  | cons head rest =>
    by_cases hfit : chunk.addr + majorBlockHeaderSize + (size + minorBlockHeaderSize) ≤ head.addr
    · exact Or.inr (placeBlock_front hr hpos hblocks hfit)
    · have hhead : head ∈ chunk.blocks := by
        rw [hblocks]
        exact List.mem_cons_self
      have hdiff := mt (front_fits hhead hsmall).1 hfit
      have hrun : placeBlock h chunk.addr size =
          loop (gapBody h chunk.addr size) .turns chunk.size head.addr := by
        have hsome : ∀ prev next, (chunk.header prev next).first = some head.addr := by
          intro prev next
          rw [Chunk.header, hblocks, firstOr_cons]
        rw [placeBlock, hr.getMajor_eq, ok_bind]
        simp only [hsome]
        exact if_neg hdiff
      have hlength := chunk.length_lt_size
      rw [hblocks, List.length_cons] at hlength
      have hgap := gapLoop hr hsmall hpos (show chunk.blocks = [] ++ head :: rest from hblocks)
        (show rest.length < chunk.size by omega)
      rw [hrun]
      rcases hgap with hgap | hgap
      · exact Or.inl ⟨List.cons_ne_nil _ _, hgap⟩
      · exact Or.inr hgap

end Search

end Brutal.Alloc
