import Brutal.Ds.Bits

/-!
# ext2

`libs/fs/ext2/ext2.c` and `libs/fs/ext2/block.c`: the group descriptors, the allocation of blocks,
and the tables of block pointers of an inode.

A block of the device is a table of block pointers, a piece of the table of group descriptors or a
piece of a bitmap, and the contents of the three kinds are kept apart.  A buffer of
`ext2_acquire_blocks` is a copy, which `ext2_release_blocks` writes back if it was acquired for
writing.  Sizes are natural numbers where no operation wraps.
-/

namespace Brutal.Fs

open Ds

/-- The errors of `FsError` that occur here. -/
inductive FsError where
  | noFreeBlock
deriving DecidableEq, Repr

/-- What the code must not do: access memory outside of a buffer, fail an assertion, overflow an
`int`. -/
inductive Fault where
  | outOfBounds
  | panic
  | overflow
deriving DecidableEq, Repr

/-- The fields of `Ext2SuperBlock` that are read here. -/
structure Ext2SuperBlock where
  blockCount : UInt32
  groupBlockCount : UInt32
  groupInodeCount : UInt32
deriving DecidableEq, Repr

structure Ext2GroupBlockDescTable where
  blockUsageBitmapAddr : UInt32
  inodeUsageBitmapAddr : UInt32
  inodeTableAddr : UInt32
  unallocatedBlockCount : UInt16
  unallocatedInodesCount : UInt16
  dirCount : UInt16
deriving DecidableEq, Repr

/-- `sizeof(Ext2GroupBlockDescTable)` -/
def descSize : ℕ := 32

/-- `Ext2Fs` with the contents of its device: for each block the pointers of a table, the
descriptors, or the bits in it. -/
structure Ext2Fs where
  superBlock : Ext2SuperBlock
  blockSize : ℕ
  groupDescTableBlock : ℕ
  tables : ℕ → ℕ → UInt32
  descs : ℕ → ℕ → Ext2GroupBlockDescTable
  bitmaps : ℕ → ℕ → Bool

/-- `ext2_group`: the block of the descriptor of a group and its place there. -/
def ext2GroupPlace (self : Ext2Fs) (groupId : ℕ) : ℕ × ℕ :=
  (groupId / self.blockSize + self.groupDescTableBlock, groupId % self.blockSize)

/-- `ext2_group_read` -/
def ext2GroupRead (self : Ext2Fs) (groupId : ℕ) : Except Fault Ext2GroupBlockDescTable :=
  let (block, off) := ext2GroupPlace self groupId
  if (off + 1) * descSize ≤ self.blockSize then .ok (self.descs block off)
  else .error .outOfBounds

/-- `ext2_group_write` -/
def ext2GroupWrite (self : Ext2Fs) (group : Ext2GroupBlockDescTable) (groupId : ℕ) :
    Except Fault Ext2Fs :=
  let (block, off) := ext2GroupPlace self groupId
  if (off + 1) * descSize ≤ self.blockSize then
    .ok
      { self with
        descs := Function.update self.descs block (Function.update (self.descs block) off group) }
  else .error .outOfBounds

/-- The loop of `ext2_find_group_with_free_block`, with the number of groups that are left. -/
def findGroupLoop (self : Ext2Fs) : ℕ → ℕ → Ext2GroupBlockDescTable →
    Except Fault (Option (ℕ × Ext2GroupBlockDescTable))
  | 0, _, _ => .ok none
  | left + 1, id, groupDesc =>
    if groupDesc.unallocatedInodesCount = 0 then do
      let groupDesc ← ext2GroupRead self (id + 1)
      findGroupLoop self left (id + 1) groupDesc
    else .ok (some (id, groupDesc))

/-- `ext2_find_group_with_free_block`, where `none` is `FS_NO_FREE_BLOCK`. -/
def ext2FindGroupWithFreeBlock (self : Ext2Fs) :
    Except Fault (Option (ℕ × Ext2GroupBlockDescTable)) := do
  let groupDesc ← ext2GroupRead self 1
  let groupCount := self.superBlock.blockCount.toNat / self.superBlock.groupBlockCount.toNat
  findGroupLoop self (groupCount - 1) 1 groupDesc

/-- The blocks of the device that `ext2_find_free_group_block` takes for one bitmap. -/
def bitmapBlockCount (self : Ext2Fs) : ℕ :=
  self.superBlock.groupBlockCount.toNat / (8 * self.blockSize)

/-- The bit of a bitmap that starts in a block. -/
def bitmapBit (self : Ext2Fs) (addr bit : ℕ) : Bool :=
  self.bitmaps (addr + bit / (8 * self.blockSize)) (bit % (8 * self.blockSize))

/-- The bitmaps after a bit was set in one that starts in a block. -/
def setBitmapBit (self : Ext2Fs) (addr bit : ℕ) : ℕ → ℕ → Bool :=
  Function.update self.bitmaps (addr + bit / (8 * self.blockSize))
    (Function.update (self.bitmaps (addr + bit / (8 * self.blockSize)))
      (bit % (8 * self.blockSize)) true)

/-- `ext2_find_free_group_block` -/
def ext2FindFreeGroupBlock (self : Ext2Fs) (groupBitmapAddr : UInt32) :
    Except Fault (ℕ × Ext2Fs) :=
  let bit : Bits :=
    ⟨0, UInt64.ofNat (bitmapBlockCount self * self.blockSize),
      bitmapBit self groupBitmapAddr.toNat⟩
  match bitsFindFree bit 0 1 false with
  | .error _ => .error .panic
  | .ok range =>
    let result := range.base.toNat
    .ok (result, { self with bitmaps := setBitmapBit self groupBitmapAddr.toNat result })

/-- The first block that belongs to a group. -/
def firstBlock (self : Ext2Fs) : ℕ := if self.blockSize = 1024 then 1 else 0

/-- `ext2_alloc_block`, once the group was chosen. -/
def allocIn (self : Ext2Fs) (groupId : ℕ) (groupDesc : Ext2GroupBlockDescTable) :
    Except Fault (Except FsError UInt32 × Ext2Fs) := do
  let (allocatedBlockIdx, self) ← ext2FindFreeGroupBlock self groupDesc.blockUsageBitmapAddr
  let result := UInt32.ofNat
    (firstBlock self + groupId * self.superBlock.groupBlockCount.toNat + allocatedBlockIdx)
  let groupDesc :=
    { groupDesc with unallocatedBlockCount := groupDesc.unallocatedBlockCount - 1 }
  let self ← ext2GroupWrite self groupDesc groupId
  return (.ok result, self)

/-- `ext2_alloc_block` -/
def ext2AllocBlock (self : Ext2Fs) (preferredGroupId : ℕ) :
    Except Fault (Except FsError UInt32 × Ext2Fs) := do
  let groupDesc ← ext2GroupRead self preferredGroupId
  if groupDesc.unallocatedBlockCount = 0 then
    match ← ext2FindGroupWithFreeBlock self with
    | none => return (.error .noFreeBlock, self)
    | some (groupId, groupDesc) => allocIn self groupId groupDesc
  else
    allocIn self preferredGroupId groupDesc

/-- The fields of an inode that are used here, with its twelve direct pointers. -/
structure Ext2FsInode where
  id : ℕ
  blocksPtr : ℕ → UInt32
  singleIndirectBlockPtr : UInt32
  doubleIndirectBlockPtr : UInt32
  tripleIndirectBlockPtr : UInt32

/-- The list of blocks that is filled, and the tables that were acquired for it. -/
structure Reading where
  result : List UInt32
  acquired : List UInt32
deriving DecidableEq, Repr

/-- `vec_push` on an `Ext2Blocks`; the size of the array that is needed for more elements overflows
an `int`. -/
def vecPush (reading : Reading) (block : UInt32) : Except Fault Reading :=
  if reading.result.length < 2 ^ 28 then
    .ok { reading with result := reading.result ++ [block] }
  else .error .overflow

/-- `get_entry_in_indirect_block`; the depth `- 1` gives what 0 gives. -/
def getEntryInIndirectBlock (entryPerBlock depth : ℕ) : ℕ := entryPerBlock ^ depth

/-- `align_up$` for a power of two. -/
def alignUp (addr align : ℕ) : ℕ := (addr + align - 1) / align * align

/-- The number of pointers in a table. -/
def entryPerBlock (self : Ext2Fs) : ℕ := self.blockSize / 4

/-- `ext2_inode_read_indirect_block_recursive` -/
def ext2InodeReadIndirectBlockRecursive (self : Ext2Fs) (maxSize : ℕ) :
    ℕ → UInt32 → Reading → Except Fault Reading
  | 0, blockPtr, reading => vecPush reading blockPtr
  | depth + 1, blockPtr, reading =>
    let totalEntryInCurrentDepth := getEntryInIndirectBlock (entryPerBlock self) (depth + 1)
    let totalEntryInChild := totalEntryInCurrentDepth / entryPerBlock self
    let reading := { reading with acquired := reading.acquired ++ [blockPtr] }
    let stop := min (alignUp maxSize totalEntryInChild) totalEntryInCurrentDepth
    let entries := List.range' 0 ((stop + totalEntryInChild - 1) / totalEntryInChild)
      totalEntryInChild
    entries.foldlM (fun reading entry ↦
      ext2InodeReadIndirectBlockRecursive self maxSize depth
        (self.tables blockPtr.toNat (entry / totalEntryInChild)) reading) reading

/-- `ext2_inode_get_blocks` for an inode whose list of blocks is empty. -/
def ext2InodeGetBlocks (self : Ext2Fs) (inode : Ext2FsInode) (blockCount : ℕ) :
    Except Fault Reading := do
  let blockPerEntry := entryPerBlock self
  let reading ← (List.range (min 12 blockCount)).foldlM
    (fun reading i ↦ vecPush reading (inode.blocksPtr i)) ⟨[], []⟩
  if blockCount < 12 then
    return reading
  let blockCount := blockCount - 12
  let reading ← ext2InodeReadIndirectBlockRecursive self blockCount 1
    inode.singleIndirectBlockPtr reading
  if blockCount < blockPerEntry then
    return reading
  let blockCount := blockCount - blockPerEntry
  let reading ← ext2InodeReadIndirectBlockRecursive self blockCount 2
    inode.doubleIndirectBlockPtr reading
  -- The product of the two `uint32_t` wraps.
  let square := blockPerEntry * blockPerEntry % 2 ^ 32
  if blockCount < square then
    return reading
  let blockCount := blockCount - square
  ext2InodeReadIndirectBlockRecursive self blockCount 3 inode.tripleIndirectBlockPtr reading

/-- `ext2_group_from_inode` -/
def ext2GroupFromInode (self : Ext2Fs) (inode : Ext2FsInode) : ℕ :=
  (inode.id - 1) / self.superBlock.groupInodeCount.toNat

/-- The pointer in a table that `ext2_inode_push_block_rec` follows, with a new block where there is
none; the table is a copy that is not written back yet. -/
def followPointer (self : Ext2Fs) (inode : Ext2FsInode) (table : ℕ → UInt32) (blockIndex : ℕ) :
    Except Fault (Except FsError UInt32 × Ext2Fs) :=
  if table blockIndex = 0 then ext2AllocBlock self (ext2GroupFromInode self inode)
  else .ok (.ok (table blockIndex), self)

/-- `ext2_release_blocks` of a table in which one pointer was set. -/
def releaseTable (self : Ext2Fs) (block : UInt32) (table : ℕ → UInt32) (blockIndex : ℕ)
    (ptr : UInt32) : Ext2Fs :=
  { self with
    tables := Function.update self.tables block.toNat (Function.update table blockIndex ptr) }

/-- `ext2_inode_push_block_rec`; a call that fails does not release its table. -/
def ext2InodePushBlockRec (inode : Ext2FsInode) (newBlockPtr : UInt32) :
    ℕ → Ext2Fs → UInt32 → ℕ → Except Fault (Except FsError Unit × Ext2Fs)
  | 0, self, block, idx =>
    let blockIndex := idx / getEntryInIndirectBlock (entryPerBlock self) 0
    let table := self.tables block.toNat
    if blockIndex < entryPerBlock self then
      .ok (.ok (), releaseTable self block table blockIndex newBlockPtr)
    else .error .outOfBounds
  | depth + 1, self, block, idx =>
    let blockIndex := idx / getEntryInIndirectBlock (entryPerBlock self) depth
    let table := self.tables block.toNat
    if blockIndex < entryPerBlock self then do
      let (ptr, self) ← followPointer self inode table blockIndex
      match ptr with
      | .error err => return (.error err, self)
      | .ok ptr =>
        let (pushed, self) ← ext2InodePushBlockRec inode newBlockPtr depth self ptr idx
        match pushed with
        | .error err => return (.error err, self)
        | .ok () => return (.ok (), releaseTable self block table blockIndex ptr)
    else .error .outOfBounds

/-- `ext2_inode_insert_block`, with the inode that it leaves. -/
def ext2InodeInsertBlock (self : Ext2Fs) (inode : Ext2FsInode) (newBlockPtr : UInt32) (idx : ℕ) :
    Except Fault (Except FsError Unit × Ext2Fs × Ext2FsInode) := do
  let blockPerEntry := entryPerBlock self
  let pushed (depth : ℕ) (block : UInt32) (idx : ℕ) :
      Except Fault (Except FsError Unit × Ext2Fs × Ext2FsInode) := do
    let (result, self) ← ext2InodePushBlockRec inode newBlockPtr depth self block idx
    return (result, self, inode)
  if idx < 12 then
    return (.ok (), self,
      { inode with blocksPtr := Function.update inode.blocksPtr idx newBlockPtr })
  let idx := idx - 12
  if idx < blockPerEntry then
    pushed 1 inode.singleIndirectBlockPtr idx
  else
    let idx := idx - blockPerEntry
    if idx < blockPerEntry * blockPerEntry then
      pushed 2 inode.doubleIndirectBlockPtr idx
    else
      let idx := idx - blockPerEntry * blockPerEntry
      if idx < blockPerEntry * blockPerEntry * blockPerEntry then
        pushed 3 inode.tripleIndirectBlockPtr idx
      else .error .panic

end Brutal.Fs
