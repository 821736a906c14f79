import Brutal.Fs.Addressing
import Brutal.Lib.Loop

/-!
# Listing a directory

`ext2_fs_iter` and `ext2_inode_read` of `libs/fs/ext2/ext2.c`.  The loop over the entries of a block
is bounded by a number of turns, and stops with `turns` when it has used them up.  The callback has
a state of its own and leaves the file system alone.
-/

namespace Brutal.Fs.Disk

open Lib

/-- The device as the tables, descriptors and bitmaps that its blocks may be. -/
def view (self : Ext2Fs) : Fs.Ext2Fs where
  superBlock := self.superBlock.toExt2SuperBlock
  blockSize := self.blockSize
  groupDescTableBlock := self.groupDescTableBlock
  tables := fun block idx ↦
    UInt32.ofNat (ofLeBytes (readAt self.bytes (block * deviceBytes self.toGeometry + 4 * idx) 4))
  descs := fun block off ↦
    (readRecord self.bytes (block * deviceBytes self.toGeometry + descSize * off) descSize).decode
  bitmaps := fun block bit ↦
    (self.bytes (block * deviceBytes self.toGeometry + bit / 8)).toNat.testBit (bit % 8)

/-- What `ext2_group_read` gives is what it gives on the descriptors of the view. -/
theorem ext2GroupRead_view (self : Ext2Fs) (hwhole : self.deviceBlockSize ∣ self.blockSize)
    (groupId : ℕ) : Fs.ext2GroupRead (view self) groupId =
      (ext2GroupRead self groupId).map fun result ↦ result.1.decode := by
  have hbytes := (deviceBytes_eq_iff self.toGeometry).mpr hwhole
  have hfits : (groupId % self.blockSize + 1) * descSize =
      descSize * (groupId % self.blockSize) + descSize := by
    rw [Nat.add_mul, Nat.one_mul, Nat.mul_comm]
  unfold Fs.ext2GroupRead ext2GroupRead
  rw [ext2Group_eq, hbytes]
  change (if (groupId % self.blockSize + 1) * descSize ≤ self.blockSize then _ else _) = _
  rw [hfits]
  split <;> rfl

/-- The pointers to the blocks of an inode. -/
def pointers (inode : Ext2FsInode) : Fs.Ext2FsInode where
  id := inode.id.toNat
  blocksPtr := fun i ↦ UInt32.ofNat (inode.block.field (40 + 4 * i) 4)
  singleIndirectBlockPtr := UInt32.ofNat (inode.block.field 88 4)
  doubleIndirectBlockPtr := UInt32.ofNat (inode.block.field 92 4)
  tripleIndirectBlockPtr := UInt32.ofNat (inode.block.field 96 4)

/-- `inode_size`, with `size_upper` if the file system has 64-bit sizes. -/
def inodeSize (self : Geometry) (inode : Ext2FsInode) : ℕ :=
  let len := inode.block.field 4 4
  if self.superBlock.readOnlyFeature &&& 2 ≠ 0 then len ||| inode.block.field 108 4 <<< 32 else len

/-- `ext2_inode_get_blocks` -/
def ext2InodeGetBlocks (self : Ext2Fs) (inode : Ext2CachedInode) (blockCount : ℕ) :
    Except Fault Ext2CachedInode := do
  if inode.block ≠ [] then
    return inode
  let reading ← Fs.ext2InodeGetBlocks (view self) (pointers inode.inode) blockCount
  return { inode with block := reading.result }

/-- `get_cached_inode_or_create` -/
def getCachedInodeOrCreate (cache : InodeCache) (inode : Ext2FsInode) : ℕ × InodeCache :=
  match getCachedInode cache inode.id.toNat with
  | none => addCachedInode cache inode
  | some cached => (cached, cache)

def InodeCache.set (cache : InodeCache) (index : ℕ) (cached : Ext2CachedInode) : InodeCache :=
  ⟨cache.entries.set index cached, cache.capacity, by
    rw [List.length_set]
    exact cache.length_le⟩

/-- The body of the loop in `ext2_inode_read`. -/
def copyBlock (self : Ext2Fs) (cached : Ext2CachedInode) (data : List UInt8) (i : ℕ) :
    Except Fault (List UInt8) :=
  match cached.block[i]? with
  | none => .error .outOfBounds
  | some block =>
    let blockData := ext2AcquireBlocks self block.toNat 1 false
    if self.blockSize ≤ blockData.size then
      .ok (data ++ readAt blockData.data 0 self.blockSize)
    else .error .outOfBounds

/-- `ext2_inode_read`, which gives the bytes of the blocks. -/
def ext2InodeRead (self : Ext2Fs) (inode : Ext2FsInode) (base size : ℕ) :
    Except Fault (List UInt8 × Ext2Fs) := do
  let (index, cache) := getCachedInodeOrCreate self.inodeCache inode
  match cache.entries[index]? with
  | none => .error .outOfBounds
  | some cached =>
    -- `align_up$`, where the sum wraps.
    let inodeBlockCount :=
      (inodeSize self.toGeometry inode + self.blockSize - 1) % 2 ^ 64 / self.blockSize
    let cached ← ext2InodeGetBlocks self cached inodeBlockCount
    let self := { self with inodeCache := cache.set index cached }
    let data ← (List.range' base size).foldlM (copyBlock self cached) []
    return (data, self)

/-- `Ext2Directory` without its name. -/
structure Ext2Directory where
  inode : ℕ
  size : ℕ
  nameLen : ℕ
  type : ℕ
deriving DecidableEq, Repr

/-- The bytes of an entry in front of its name; the type is the last one. -/
def headerSize : ℕ := 8

def leField (data : List UInt8) (off count : ℕ) : ℕ := ofLeBytes ((data.drop off).take count)

/-- The entry at a place in a block. -/
def directoryAt (data : List UInt8) (dir : ℕ) : Except Fault Ext2Directory :=
  if dir + headerSize ≤ data.length then
    .ok ⟨leField data dir 4, leField data (dir + 4) 2, leField data (dir + 6) 1,
      leField data (dir + 7) 1⟩
  else .error .outOfBounds

structure Ext2FsFile where
  name : List UInt8
  inode : Ext2FsInode
deriving DecidableEq

/-- `Iter` -/
inductive Iter where
  | iterStop
  | iterContinue
deriving DecidableEq, Repr

/-- Why `ext2_fs_iter` does not come to an end. -/
inductive Stop where
  | fault (fault : Fault)
  | turns
deriving DecidableEq, Repr

/-- An entry that was interpreted, with its place: the number of the block in the file and the
offset there. -/
structure Visit where
  index : ℕ
  dir : ℕ
  entry : Ext2Directory
deriving DecidableEq, Repr

/-- The state of `ext2_fs_iter`, with the entries that were interpreted. -/
structure Listing (Ctx : Type) where
  fs : Ext2Fs
  ctx : Ctx
  visits : List Visit

/-- `ext2_inode`, into a file that is zero. -/
def ext2Inode (self : Ext2Fs) (id : ℕ) : Except Fault (Option Ext2FsInode × Ext2Fs) :=
  ext2InodeRw self ⟨0, ⟨List.replicate inodeBlockSize 0, List.length_replicate⟩⟩ id false

section

variable {Ctx : Type}

/-- The body of the inner loop of `ext2_fs_iter`, which reads the type in front of its test of the
bound. -/
def fsIterBody (fn : Ext2FsFile → Ctx → Iter × Ctx) (data : List UInt8) (index : ℕ) :
    Listing Ctx × ℕ → Except Stop ((Listing Ctx × ℕ) ⊕ (Iter × Listing Ctx))
  | (listing, dir) => do
    let entry ← (directoryAt data dir).mapError .fault
    if entry.type ≠ 0 ∧ dir < listing.fs.blockSize then
      let (inode, fs) ← (ext2Inode listing.fs entry.inode).mapError .fault
      match inode with
      | none => .error (.fault .panic)
      | some inode =>
        let name := (data.drop (dir + headerSize)).take entry.nameLen
        let visits := listing.visits ++ [⟨index, dir, entry⟩]
        match fn ⟨name, inode⟩ listing.ctx with
        | (.iterStop, ctx) => return .inr (.iterStop, ⟨fs, ctx, visits⟩)
        | (.iterContinue, ctx) => return .inl (⟨fs, ctx, visits⟩, dir + entry.size)
    else
      return .inr (.iterContinue, listing)

/-- The outer loop of `ext2_fs_iter`, with the number of blocks that are left. -/
def fsIterBlocks (inode : Ext2FsInode) (fn : Ext2FsFile → Ctx → Iter × Ctx) (turns : ℕ) :
    ℕ → ℕ → Listing Ctx → Except Stop (Iter × Listing Ctx)
  | 0, _, listing => .ok (.iterContinue, listing)
  | left + 1, index, listing => do
    let (data, fs) ← (ext2InodeRead listing.fs inode index 1).mapError .fault
    let (iter, listing) ←
      loop (fsIterBody fn data index) .turns turns ({ listing with fs := fs }, 0)
    match iter with
    | .iterStop => return (.iterStop, listing)
    | .iterContinue => fsIterBlocks inode fn turns left (index + 1) listing

/-- The number of blocks that `ext2_fs_iter` goes through. -/
def directoryBlocks (self : Geometry) (inode : Ext2FsInode) : ℕ :=
  if inode.block.field 0 2 >>> 12 = 4 then
    (inodeSize self inode + self.blockSize - 1) / self.blockSize
  else 0

/-- `ext2_fs_iter` -/
def ext2FsIter (self : Ext2Fs) (inode : Ext2FsInode) (fn : Ext2FsFile → Ctx → Iter × Ctx)
    (ctx : Ctx) (turns : ℕ) : Except Stop (Iter × Listing Ctx) :=
  fsIterBlocks inode fn turns (directoryBlocks self.toGeometry inode) 0 ⟨self, ctx, []⟩

end

end Brutal.Fs.Disk
