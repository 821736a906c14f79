import Brutal.Ds.VecInsert
import Brutal.Fs.Ext2
import Brutal.Lib.Bytes
import Brutal.Lib.Memory
import Brutal.Lib.Outcome

/-!
# ext2 on a block device

The descriptors and inodes of `libs/fs/ext2/ext2.c` byte by byte, with the blocks of the device that
`libs/fs/ext2/block.c` asks for and the cache of `libs/fs/ext2/cache.c`.

The device holds as many blocks as are asked for.  The descriptors and inodes that are copied from a
block or into it are logged with their place on the device.
-/

namespace Brutal.Fs.Disk

open Lib

variable {size : ℕ}

/-- As many bytes as a structure has. -/
structure Record (size : ℕ) where
  bytes : List UInt8
  length_eq : bytes.length = size
deriving DecidableEq

/-- The number in `count` bytes of a structure. -/
def Record.field (record : Record size) (off count : ℕ) : ℕ :=
  ofLeBytes ((record.bytes.drop off).take count)

def readRecord (bytes : ℕ → UInt8) (start size : ℕ) : Record size :=
  ⟨readAt bytes start size, length_readAt bytes start size⟩

abbrev Ext2GroupBlockDescTable := Record descSize

def Record.inodeTableAddr (group : Ext2GroupBlockDescTable) : ℕ := group.field 8 4

/-- The fields of a descriptor. -/
def Record.decode (group : Record descSize) : Fs.Ext2GroupBlockDescTable where
  blockUsageBitmapAddr := UInt32.ofNat (group.field 0 4)
  inodeUsageBitmapAddr := UInt32.ofNat (group.field 4 4)
  inodeTableAddr := UInt32.ofNat (group.field 8 4)
  unallocatedBlockCount := UInt16.ofNat (group.field 12 2)
  unallocatedInodesCount := UInt16.ofNat (group.field 14 2)
  dirCount := UInt16.ofNat (group.field 16 2)

/-- `sizeof(Ext2InodeBlock)` -/
def inodeBlockSize : ℕ := 128

abbrev Ext2InodeBlock := Record inodeBlockSize

structure Ext2FsInode where
  id : UInt32
  block : Ext2InodeBlock
deriving DecidableEq

structure Ext2CachedInode where
  block : List UInt32
  inode : Ext2FsInode
deriving DecidableEq

/-- The fields of `Ext2SuperBlock` that are read here. -/
structure Ext2SuperBlock extends Fs.Ext2SuperBlock where
  inodeSize : UInt16
  readOnlyFeature : UInt32
deriving DecidableEq, Repr

/-- What `ext2_init` finds out: it divides by the size of a block of the device and by the number of
inodes in a group, and the table of descriptors is not in the first block. -/
structure Geometry where
  superBlock : Ext2SuperBlock
  deviceBlockSize : ℕ
  blockSize : ℕ
  groupDescTableBlock : ℕ
  device_pos : 0 < deviceBlockSize
  device_le : deviceBlockSize ≤ blockSize
  table_pos : 0 < groupDescTableBlock
  inodes_pos : 0 < superBlock.groupInodeCount.toNat

/-- The array of cached inodes, with the number of those that there is memory for. -/
structure InodeCache where
  entries : List Ext2CachedInode
  capacity : ℕ
  length_le : entries.length ≤ capacity

/-- `sizeof(Ext2CachedInode)` -/
def cachedInodeSize : ℕ := 168

/-- The array is doubled, and counted in bytes in an `int`. -/
def InodeCache.Grows (cache : InodeCache) : Prop :=
  (if cache.capacity = 0 then 1 else 2 * cache.capacity) * cachedInodeSize ≤ Ds.Insertion.intMax

instance (cache : InodeCache) : Decidable cache.Grows := inferInstanceAs (Decidable (_ ≤ _))

/-- `vec_push` by a caller that drops its answer. -/
def InodeCache.push (cache : InodeCache) (cached : Ext2CachedInode) : InodeCache :=
  if h : cache.entries.length + 1 ≤ cache.capacity then
    ⟨cache.entries ++ [cached], cache.capacity, by simpa using h⟩
  else if cache.Grows then
    ⟨cache.entries ++ [cached], if cache.capacity = 0 then 1 else 2 * cache.capacity, by
      have hle := cache.length_le
      rw [List.length_append, List.length_singleton]
      split <;> omega⟩
  else cache

/-- `get_cached_inode`, as a position in the array. -/
def getCachedInode (cache : InodeCache) (inode : ℕ) : Option ℕ :=
  cache.entries.findIdx? fun cached ↦ cached.inode.id.toNat = inode

/-- `add_cached_inode`: the pointer is that behind the last inode. -/
def addCachedInode (cache : InodeCache) (inode : Ext2FsInode) : ℕ × InodeCache :=
  let cache := cache.push ⟨[], inode⟩
  (cache.entries.length, cache)

/-- An inode that is stored through a pointer into the array. -/
def InodeCache.store (cache : InodeCache) (cached : ℕ) (inode : Ext2FsInode) :
    Except Fault InodeCache :=
  if cached < cache.capacity then
    .ok ⟨cache.entries.modify cached fun entry ↦ { entry with inode := inode }, cache.capacity, by
      rw [List.length_modify]
      exact cache.length_le⟩
  else .error .outOfBounds

/-- A structure that was copied from a block or into it, with its place on the device. -/
structure Access where
  write : Bool
  start : ℕ
  size : ℕ
deriving DecidableEq, Repr

/-- `Ext2Fs`, with the bytes of the device. -/
structure Ext2Fs extends Geometry where
  bytes : ℕ → UInt8
  inodeCache : InodeCache
  accesses : List Access

/-- The memory that `fs_block_acquire` gives for blocks of the device. -/
structure Buffer where
  start : ℕ
  size : ℕ
  data : ℕ → UInt8
  write : Bool

/-- `ext2_acquire_blocks`, for reading or for reading and writing. -/
def ext2AcquireBlocks (self : Ext2Fs) (off count : ℕ) (write : Bool) : Buffer :=
  let blockDiff := self.blockSize / self.deviceBlockSize
  let start := off * blockDiff * self.deviceBlockSize
  ⟨start, count * blockDiff * self.deviceBlockSize, fun i ↦ self.bytes (start + i), write⟩

/-- `ext2_release_blocks` -/
def ext2ReleaseBlocks (self : Ext2Fs) (block : Buffer) : Ext2Fs :=
  if block.write then
    { self with bytes := writeAt self.bytes block.start (readAt block.data 0 block.size) }
  else self

/-- A structure in a block is copied to `record`, or `record` to it, and the block is released. -/
def ext2Copy (self : Ext2Fs) (block : Buffer) (off : ℕ) (record : Record size) (write : Bool) :
    Except Fault (Record size × Ext2Fs) :=
  let self := { self with accesses := self.accesses ++ [⟨write, block.start + off, size⟩] }
  if off + size ≤ block.size then
    if write then
      .ok (record,
        ext2ReleaseBlocks self { block with data := writeAt block.data off record.bytes })
    else .ok (readRecord block.data off size, ext2ReleaseBlocks self block)
  else .error .outOfBounds

/-- `ext2_group`, which changes `group` where it reads. -/
def ext2Group (self : Ext2Fs) (group : Ext2GroupBlockDescTable) (groupId : ℕ) (write : Bool) :
    Except Fault (Ext2GroupBlockDescTable × Ext2Fs) :=
  let blockOff := groupId % self.blockSize
  let blockId := groupId / self.blockSize + self.groupDescTableBlock
  let desc := ext2AcquireBlocks self blockId 1 write
  ext2Copy self desc (descSize * blockOff) group write

/-- A descriptor with nothing in it. -/
def emptyGroup : Ext2GroupBlockDescTable := ⟨List.replicate descSize 0, List.length_replicate⟩

/-- `ext2_group_read` -/
def ext2GroupRead (self : Ext2Fs) (groupId : ℕ) :
    Except Fault (Ext2GroupBlockDescTable × Ext2Fs) :=
  ext2Group self emptyGroup groupId false

/-- `ext2_inode_rw` on an inode that is not read from the cache. -/
def inodeTransfer (self : Ext2Fs) (inode : Ext2FsInode) (id : ℕ) (write : Bool) :
    Except Fault (Ext2FsInode × Ext2Fs) := do
  let groupInodeCount := self.superBlock.groupInodeCount.toNat
  let inodeId := (id - 1) % groupInodeCount
  let groupId := (id - 1) / groupInodeCount
  let inodeOffInBlock := (inodeId * self.superBlock.inodeSize.toNat) % self.blockSize
  let inodeBlock := (inodeId * self.superBlock.inodeSize.toNat) / self.blockSize
  let (groupDesc, self) ← ext2GroupRead self groupId
  let inodeBlockData := ext2AcquireBlocks self (groupDesc.inodeTableAddr + inodeBlock) 1 write
  let (block, self) ← ext2Copy self inodeBlockData inodeOffInBlock inode.block write
  if write then
    return (inode, self)
  else
    let inode : Ext2FsInode := ⟨UInt32.ofNat id, block⟩
    return (inode, { self with inodeCache := (addCachedInode self.inodeCache inode).2 })

/-- `ext2_inode_rw`, where `none` is `FS_INVALID_INODE`. -/
def ext2InodeRw (self : Ext2Fs) (inode : Ext2FsInode) (id : ℕ) (write : Bool) :
    Except Fault (Option Ext2FsInode × Ext2Fs) := do
  if id ≤ 1 then
    return (none, self)
  match write, getCachedInode self.inodeCache id with
  | false, some cached =>
    return (self.inodeCache.entries[cached]?.map Ext2CachedInode.inode, self)
  | false, none =>
    let (inode, self) ← inodeTransfer self inode id false
    return (some inode, self)
  | true, found =>
    let (cached, cache) :=
      match found with
      | some cached => (cached, self.inodeCache)
      | none => addCachedInode self.inodeCache inode
    let cache ← cache.store cached inode
    let (inode, self) ← inodeTransfer { self with inodeCache := cache } inode id true
    return (some inode, self)

end Brutal.Fs.Disk
