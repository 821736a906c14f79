import Brutal.Fs.Disk

/-!
# Where descriptors and inodes are

`ext2_group` divides the number of a group by the size of a block in bytes, where it has to divide
by the number of descriptors in a block.  It accesses the right bytes for the groups whose
descriptors are in the first block, and `ext2_inode_rw` the right ones for the inodes of these
groups.
-/

namespace Brutal.Fs.Disk

open Lib

variable {size : ℕ}

/-- The first byte of the descriptor of a group. -/
def groupPos (self : Geometry) (groupId : ℕ) : ℕ :=
  self.groupDescTableBlock * self.blockSize + descSize * groupId

/-- The bytes of the device after those of a structure were written, if they were. -/
def written (self : Ext2Fs) (write : Bool) (pos : ℕ) (record : Record size) : ℕ → UInt8 :=
  if write then writeAt self.bytes pos record.bytes else self.bytes

/-- The descriptor at its place is copied, and nothing else. -/
def GroupExact (self : Ext2Fs) (group : Ext2GroupBlockDescTable) (groupId : ℕ) (write : Bool) :
    Prop :=
  let pos := groupPos self.toGeometry groupId
  ext2Group self group groupId write =
    .ok (if write then group else readRecord self.bytes pos descSize,
      { self with
        bytes := written self write pos group
        accesses := self.accesses ++ [⟨write, pos, descSize⟩] })

/-- The group that an inode is in. -/
def inodeGroup (self : Geometry) (id : ℕ) : ℕ := (id - 1) / self.superBlock.groupInodeCount.toNat

/-- How far an inode is from the start of the table of inodes of its group. -/
def inodeOff (self : Geometry) (id : ℕ) : ℕ :=
  (id - 1) % self.superBlock.groupInodeCount.toNat * self.superBlock.inodeSize.toNat

/-- The descriptor of the group of an inode. -/
def inodeGroupDesc (self : Ext2Fs) (id : ℕ) : Ext2GroupBlockDescTable :=
  readRecord self.bytes (groupPos self.toGeometry (inodeGroup self.toGeometry id)) descSize

/-- The first byte of the record of an inode. -/
def inodePos (self : Ext2Fs) (id : ℕ) : ℕ :=
  (inodeGroupDesc self id).inodeTableAddr * self.blockSize + inodeOff self.toGeometry id

/-- The inode is refused, or answered from the cache. -/
def NeedsNoAccess (self : Ext2Fs) (id : ℕ) (write : Bool) : Prop :=
  id ≤ 1 ∨ write = false ∧ (getCachedInode self.inodeCache id).isSome = true

/-- The device is left alone where it is not needed; else the descriptor of the group is read and
the record of the inode copied at their places, and nothing else. -/
def InodeExact (self : Ext2Fs) (inode : Ext2FsInode) (id : ℕ) (write : Bool) : Prop :=
  ∃ result self', ext2InodeRw self inode id write = .ok (result, self') ∧
    (NeedsNoAccess self id write → self'.bytes = self.bytes ∧ self'.accesses = self.accesses) ∧
    (¬ NeedsNoAccess self id write →
      result = some (if write then inode
        else ⟨UInt32.ofNat id, readRecord self.bytes (inodePos self id) inodeBlockSize⟩) ∧
      self'.bytes = written self write (inodePos self id) inode.block ∧
      self'.accesses = self.accesses ++
        [⟨false, groupPos self.toGeometry (inodeGroup self.toGeometry id), descSize⟩,
          ⟨write, inodePos self id, inodeBlockSize⟩])

/-- The descriptor of the group is in the first block of the table, and blocks consist of whole
blocks of the device. -/
def GroupFits (self : Geometry) (groupId : ℕ) : Prop :=
  self.deviceBlockSize ∣ self.blockSize ∧ descSize * (groupId + 1) ≤ self.blockSize

/-- An inode that is stored is in the cache, or there is memory behind the one that is added: memory
for two more, or as much again as a full array of two or more has. -/
def CacheFits (self : Ext2Fs) (id : ℕ) : Prop :=
  let cache := self.inodeCache
  (getCachedInode cache id).isSome = true ∨ cache.entries.length + 1 < cache.capacity ∨
    cache.entries.length = cache.capacity ∧ 2 ≤ cache.capacity ∧
      2 * cache.capacity * cachedInodeSize ≤ Ds.Insertion.intMax

/-- The descriptor of the group of the inode is in the first block of the table, and the record of
the inode ends in the block where it starts. -/
def InodeFits (self : Ext2Fs) (id : ℕ) (write : Bool) : Prop :=
  GroupFits self.toGeometry (inodeGroup self.toGeometry id) ∧
    inodeOff self.toGeometry id % self.blockSize + inodeBlockSize ≤ self.blockSize ∧
    (write = true → CacheFits self id)

variable {self : Ext2Fs} {group : Ext2GroupBlockDescTable} {groupId id : ℕ} {inode : Ext2FsInode}
  {write : Bool}

/-- The bytes of the device that are acquired for one block. -/
def deviceBytes (self : Geometry) : ℕ :=
  self.blockSize / self.deviceBlockSize * self.deviceBlockSize

theorem deviceBytes_pos (self : Geometry) : 0 < deviceBytes self :=
  Nat.mul_pos (Nat.div_pos self.device_le self.device_pos) self.device_pos

theorem deviceBytes_le (self : Geometry) : deviceBytes self ≤ self.blockSize :=
  Nat.div_mul_le_self _ _

theorem deviceBytes_eq_iff (self : Geometry) :
    deviceBytes self = self.blockSize ↔ self.deviceBlockSize ∣ self.blockSize :=
  ⟨fun h ↦ Dvd.intro_left _ h, Nat.div_mul_cancel⟩

/-- A structure that is written into a copy of a part of the device, and the part written back. -/
theorem writeAt_writeBack (bytes : ℕ → UInt8) {start off count : ℕ} {data : List UInt8}
    (h : off + data.length ≤ count) :
    writeAt bytes start (readAt (writeAt (fun i ↦ bytes (start + i)) off data) 0 count) =
      writeAt bytes (start + off) data := by
  funext pos
  by_cases hpos : start ≤ pos ∧ pos < start + count
  · obtain ⟨i, rfl⟩ := Nat.exists_eq_add_of_le hpos.1
    have hi : i < count := by omega
    have hcopy := @getElem?_readAt _ (writeAt (fun i ↦ bytes (start + i)) off data) 0 count i hi
    rw [writeAt, if_pos (Nat.le_add_right _ _), Nat.add_sub_cancel_left, hcopy, Option.getD_some,
      Nat.zero_add]
    by_cases hoff : off ≤ i
    · rw [writeAt, writeAt, if_pos hoff, if_pos (by omega), Nat.add_sub_add_left]
    · rw [writeAt_outside (by omega), writeAt_outside (by omega)]
  · rw [writeAt_outside (by rw [length_readAt]; omega), writeAt_outside (by omega)]

/-- A structure is copied at its place in one block. -/
theorem ext2Copy_acquire (self : Ext2Fs) (block off : ℕ) (record : Record size) (write : Bool) :
    ext2Copy self (ext2AcquireBlocks self block 1 write) off record write =
      if off + size ≤ deviceBytes self.toGeometry then
        let pos := block * deviceBytes self.toGeometry + off
        .ok (if write then record else readRecord self.bytes pos size,
          { self with
            bytes := written self write pos record
            accesses := self.accesses ++ [⟨write, pos, size⟩] })
      else .error .outOfBounds := by
  have hstart : block * (self.blockSize / self.deviceBlockSize) * self.deviceBlockSize =
      block * deviceBytes self.toGeometry := Nat.mul_assoc _ _ _
  have hsize : 1 * (self.blockSize / self.deviceBlockSize) * self.deviceBlockSize =
      deviceBytes self.toGeometry := by rw [Nat.one_mul]; rfl
  unfold ext2Copy ext2AcquireBlocks ext2ReleaseBlocks written
  simp only [hstart, hsize]
  by_cases hfits : off + size ≤ deviceBytes self.toGeometry
  · rw [if_pos hfits, if_pos hfits]
    cases write with
    | true =>
      have hback := @writeAt_writeBack self.bytes (block * deviceBytes self.toGeometry) off
        (deviceBytes self.toGeometry) record.bytes (by rwa [record.length_eq])
      simp only [if_true]
      rw [hback]
    | false =>
      have hread : readRecord (fun i ↦ self.bytes (block * deviceBytes self.toGeometry + i)) off
          size = readRecord self.bytes (block * deviceBytes self.toGeometry + off) size := by
        simp only [readRecord, readAt, Nat.add_assoc]
      simp only [Bool.false_eq_true, if_false, hread]
  · rw [if_neg hfits, if_neg hfits]

/-- Where `ext2_group` looks for a descriptor. -/
def groupAt (self : Geometry) (groupId : ℕ) : ℕ :=
  (groupId / self.blockSize + self.groupDescTableBlock) * deviceBytes self +
    descSize * (groupId % self.blockSize)

theorem ext2Group_eq (self : Ext2Fs) (group : Ext2GroupBlockDescTable) (groupId : ℕ)
    (write : Bool) : ext2Group self group groupId write =
      if descSize * (groupId % self.blockSize) + descSize ≤ deviceBytes self.toGeometry then
        let pos := groupAt self.toGeometry groupId
        .ok (if write then group else readRecord self.bytes pos descSize,
          { self with
            bytes := written self write pos group
            accesses := self.accesses ++ [⟨write, pos, descSize⟩] })
      else .error .outOfBounds :=
  ext2Copy_acquire ..

/-- The place is right, and in the block, for the descriptors of the first block only. -/
theorem groupAt_eq_iff (self : Geometry) (groupId : ℕ) :
    (descSize * (groupId % self.blockSize) + descSize ≤ deviceBytes self ∧
      groupAt self groupId = groupPos self groupId) ↔ GroupFits self groupId := by
  have hdevice := deviceBytes_le self
  have hpos := deviceBytes_pos self
  have hsplit := Nat.div_add_mod groupId self.blockSize
  unfold groupAt groupPos GroupFits descSize
  rw [← deviceBytes_eq_iff]
  constructor
  · rintro ⟨hfits, heq⟩
    have hblock : groupId / self.blockSize = 0 := by
      by_contra hne
      have hquot : 0 < groupId / self.blockSize := Nat.pos_of_ne_zero hne
      have htable : self.groupDescTableBlock * deviceBytes self ≤
          self.groupDescTableBlock * self.blockSize := Nat.mul_le_mul_left _ hdevice
      have hlt : groupId / self.blockSize * deviceBytes self <
          32 * (self.blockSize * (groupId / self.blockSize)) := by
        calc groupId / self.blockSize * deviceBytes self
            ≤ groupId / self.blockSize * self.blockSize := Nat.mul_le_mul_left _ hdevice
          _ = self.blockSize * (groupId / self.blockSize) := Nat.mul_comm _ _
          _ < 32 * (self.blockSize * (groupId / self.blockSize)) := by
            have hprod := Nat.mul_pos (Nat.lt_of_lt_of_le hpos hdevice) hquot
            omega
      rw [Nat.add_mul] at heq
      omega
    have hmod : groupId % self.blockSize = groupId := by
      rw [hblock, Nat.mul_zero, Nat.zero_add] at hsplit
      exact hsplit
    rw [hblock, hmod, Nat.zero_add] at heq
    have hbytes : deviceBytes self = self.blockSize :=
      Nat.eq_of_mul_eq_mul_left self.table_pos (Nat.add_right_cancel heq)
    rw [hmod] at hfits
    exact ⟨hbytes, by omega⟩
  · rintro ⟨hbytes, hfits⟩
    have hlt : groupId < self.blockSize := by omega
    rw [hbytes, Nat.div_eq_of_lt hlt, Nat.mod_eq_of_lt hlt, Nat.zero_add]
    exact ⟨by omega, rfl⟩

theorem groupExact_iff : GroupExact self group groupId write ↔
    GroupFits self.toGeometry groupId := by
  rw [← groupAt_eq_iff]
  unfold GroupExact
  rw [ext2Group_eq]
  constructor
  · intro h
    split at h
    next hfits =>
      have haccesses := congrArg (fun out ↦ out.2.accesses) (Except.ok.inj h)
      have hlog := List.append_cancel_left haccesses
      simp only [List.cons.injEq, Access.mk.injEq, and_true, true_and] at hlog
      exact ⟨hfits, hlog⟩
    next => cases h
  · rintro ⟨hfits, heq⟩
    rw [if_pos hfits, heq]

/-- Where `ext2_inode_rw` looks for an inode, given the descriptor of its group. -/
def inodeAt (self : Geometry) (group : Ext2GroupBlockDescTable) (id : ℕ) : ℕ :=
  (group.inodeTableAddr + inodeOff self id / self.blockSize) * deviceBytes self +
    inodeOff self id % self.blockSize

/-- What a transfer gives if both structures lie in their blocks. -/
def transferred (self : Ext2Fs) (inode : Ext2FsInode) (id : ℕ) (write : Bool) (group pos : ℕ) :
    Ext2FsInode × Ext2Fs :=
  let found : Ext2FsInode := ⟨UInt32.ofNat id, readRecord self.bytes pos inodeBlockSize⟩
  (if write then inode else found,
    { self with
      bytes := written self write pos inode.block
      accesses := self.accesses ++ [⟨false, group, descSize⟩, ⟨write, pos, inodeBlockSize⟩]
      inodeCache :=
        if write then self.inodeCache else (addCachedInode self.inodeCache found).2 })

/-- The descriptor and the record of the inode end in the blocks where they start. -/
def InBlocks (self : Geometry) (id : ℕ) : Prop :=
  descSize * (inodeGroup self id % self.blockSize) + descSize ≤ deviceBytes self ∧
    inodeOff self id % self.blockSize + inodeBlockSize ≤ deviceBytes self

instance (self : Geometry) (id : ℕ) : Decidable (InBlocks self id) :=
  inferInstanceAs (Decidable (_ ∧ _))

theorem inodeTransfer_eq (self : Ext2Fs) (inode : Ext2FsInode) (id : ℕ) (write : Bool) :
    inodeTransfer self inode id write =
      if InBlocks self.toGeometry id then
        let pos := groupAt self.toGeometry (inodeGroup self.toGeometry id)
        .ok (transferred self inode id write pos
          (inodeAt self.toGeometry (readRecord self.bytes pos descSize) id))
      else .error .outOfBounds := by
  have hread := ext2Group_eq self emptyGroup (inodeGroup self.toGeometry id) false
  unfold inodeTransfer ext2GroupRead
  dsimp only
  change (ext2Group self emptyGroup (inodeGroup self.toGeometry id) false >>= _) = _
  rw [hread]
  by_cases hgroup : descSize * (inodeGroup self.toGeometry id % self.blockSize) + descSize ≤
      deviceBytes self.toGeometry
  · rw [if_pos hgroup]
    simp only [ok_bind, ext2Copy_acquire, Bool.false_eq_true, if_false]
    change (ite (inodeOff self.toGeometry id % self.blockSize + inodeBlockSize ≤ _) _ _ >>= _) = _
    by_cases hinode : inodeOff self.toGeometry id % self.blockSize + inodeBlockSize ≤
        deviceBytes self.toGeometry
    · have hblocks : InBlocks self.toGeometry id := ⟨hgroup, hinode⟩
      rw [if_pos hinode, if_pos hblocks]
      unfold transferred
      cases write <;> simp only
        [ok_bind, List.append_assoc, List.cons_append, List.nil_append] <;> rfl
    · have hblocks : ¬ InBlocks self.toGeometry id := fun h ↦ hinode h.2
      rw [if_neg hinode, if_neg hblocks]
      rfl
  · have hblocks : ¬ InBlocks self.toGeometry id := fun h ↦ hgroup h.1
    rw [if_neg hgroup, if_neg hblocks]
    rfl

/-- Both places are right, and in their blocks, for the inodes of the first groups only. -/
theorem inodeAt_eq_iff (self : Ext2Fs) (id : ℕ) :
    (InBlocks self.toGeometry id ∧
      groupAt self.toGeometry (inodeGroup self.toGeometry id) =
        groupPos self.toGeometry (inodeGroup self.toGeometry id) ∧
      inodeAt self.toGeometry (inodeGroupDesc self id) id = inodePos self id) ↔
    GroupFits self.toGeometry (inodeGroup self.toGeometry id) ∧
      inodeOff self.toGeometry id % self.blockSize + inodeBlockSize ≤ self.blockSize := by
  have hgroup := groupAt_eq_iff self.toGeometry (inodeGroup self.toGeometry id)
  constructor
  · rintro ⟨⟨hdesc, hinode⟩, heq, -⟩
    exact ⟨hgroup.mp ⟨hdesc, heq⟩, Nat.le_trans hinode (deviceBytes_le self.toGeometry)⟩
  · rintro ⟨hfits, hinode⟩
    obtain ⟨hdesc, heq⟩ := hgroup.mpr hfits
    have hbytes := (deviceBytes_eq_iff self.toGeometry).mpr hfits.1
    refine ⟨⟨hdesc, hbytes.symm ▸ hinode⟩, heq, ?_⟩
    have hsplit := Nat.div_add_mod' (inodeOff self.toGeometry id) self.blockSize
    unfold inodeAt inodePos
    rw [hbytes, Nat.add_mul, Nat.add_assoc, hsplit]

theorem getCachedInode_lt {cache : InodeCache} {cached : ℕ}
    (h : getCachedInode cache id = some cached) : cached < cache.entries.length :=
  (List.findIdx?_eq_some_iff_getElem.mp h).1

/-- The place behind the inode that was added is in the array. -/
theorem addCachedInode_inside_iff (cache : InodeCache) (inode : Ext2FsInode) :
    (addCachedInode cache inode).1 < (addCachedInode cache inode).2.capacity ↔
      cache.entries.length + 1 < cache.capacity ∨
        cache.entries.length = cache.capacity ∧ 2 ≤ cache.capacity ∧
          2 * cache.capacity * cachedInodeSize ≤ Ds.Insertion.intMax := by
  have hle := cache.length_le
  simp only [addCachedInode, InodeCache.push]
  by_cases hroom : cache.entries.length + 1 ≤ cache.capacity
  · rw [dif_pos hroom]
    dsimp only
    rw [List.length_append, List.length_singleton]
    omega
  rw [dif_neg hroom]
  by_cases hgrows : cache.Grows
  · rw [if_pos hgrows]
    rw [InodeCache.Grows] at hgrows
    dsimp only
    rw [List.length_append, List.length_singleton]
    by_cases hempty : cache.capacity = 0
    · rw [if_pos hempty]
      omega
    · rw [if_neg hempty] at hgrows ⊢
      omega
  · rw [if_neg hgrows]
    rw [InodeCache.Grows] at hgrows
    split at hgrows <;> omega

/-- The cache that the device is accessed with. -/
def storedCache (self : Ext2Fs) (inode : Ext2FsInode) (id : ℕ) (write : Bool) :
    Except Fault InodeCache :=
  if write then
    let (cached, cache) :=
      match getCachedInode self.inodeCache id with
      | some cached => (cached, self.inodeCache)
      | none => addCachedInode self.inodeCache inode
    cache.store cached inode
  else .ok self.inodeCache

theorem storedCache_eq_ok_iff :
    (∃ cache, storedCache self inode id write = .ok cache) ↔
      (write = true → CacheFits self id) := by
  unfold storedCache CacheFits
  cases write with
  | false =>
    simp only [Bool.false_eq_true, if_false, false_imp_iff, iff_true]
    exact ⟨_, rfl⟩
  | true =>
    simp only [if_true, true_imp_iff]
    cases hfound : getCachedInode self.inodeCache id with
    | some cached =>
      have hlt := Nat.lt_of_lt_of_le (getCachedInode_lt hfound) self.inodeCache.length_le
      simp only [Option.isSome_some, true_or, iff_true]
      exact ⟨_, if_pos hlt⟩
    | none =>
      rw [← addCachedInode_inside_iff _ inode]
      simp only [Option.isSome_none, Bool.false_eq_true, false_or]
      constructor
      · rintro ⟨cache, hstore⟩
        unfold InodeCache.store at hstore
        split at hstore
        next hlt => exact hlt
        next => cases hstore
      · exact fun hlt ↦ ⟨_, if_pos hlt⟩

/-- What is not refused and not answered from the cache is transferred. -/
theorem ext2InodeRw_eq (hneeds : ¬ NeedsNoAccess self id write) :
    ext2InodeRw self inode id write =
      (storedCache self inode id write >>= fun cache ↦
        inodeTransfer { self with inodeCache := cache } inode id write >>=
          fun out ↦ .ok (some out.1, out.2)) := by
  obtain ⟨hid, hcached⟩ := not_or.mp hneeds
  unfold ext2InodeRw storedCache
  rw [if_neg hid]
  cases write with
  | true =>
    cases getCachedInode self.inodeCache id <;> rfl
  | false =>
    cases hfound : getCachedInode self.inodeCache id with
    | some cached => exact absurd ⟨rfl, by rw [hfound]; rfl⟩ hcached
    | none => rfl

theorem ext2InodeRw_of_needsNoAccess (hneeds : NeedsNoAccess self id write) :
    ∃ result, ext2InodeRw self inode id write = .ok (result, self) := by
  unfold ext2InodeRw
  by_cases hid : id ≤ 1
  · rw [if_pos hid]
    exact ⟨none, rfl⟩
  · rw [if_neg hid]
    obtain hle | ⟨rfl, hcached⟩ := hneeds
    · exact absurd hle hid
    · obtain ⟨cached, hfound⟩ := Option.isSome_iff_exists.mp hcached
      rw [hfound]
      exact ⟨_, rfl⟩

theorem inodeExact_iff : InodeExact self inode id write ↔
    NeedsNoAccess self id write ∨ InodeFits self id write := by
  by_cases hneeds : NeedsNoAccess self id write
  · obtain ⟨result, heq⟩ := @ext2InodeRw_of_needsNoAccess _ _ inode _ hneeds
    refine iff_of_true ⟨result, self, heq, fun _ ↦ ⟨rfl, rfl⟩, fun h ↦ absurd hneeds h⟩
      (.inl hneeds)
  have hrun := @ext2InodeRw_eq _ _ inode _ hneeds
  unfold InodeExact InodeFits
  rw [hrun, ← and_assoc, ← inodeAt_eq_iff, ← storedCache_eq_ok_iff]
  simp only [hneeds, false_imp_iff, not_false_iff, true_imp_iff, true_and, false_or]
  constructor
  · rintro ⟨result, self', hok, -, -, haccesses⟩
    obtain ⟨cache, hcache, hok⟩ := bind_eq_ok.mp hok
    obtain ⟨out, htransfer, hok⟩ := bind_eq_ok.mp hok
    rw [inodeTransfer_eq] at htransfer
    split at htransfer
    next hblocks =>
      cases htransfer
      cases hok
      have hlog := List.append_cancel_left haccesses
      simp only [List.cons.injEq, Access.mk.injEq, and_true, true_and] at hlog
      obtain ⟨hdesc, hinode⟩ := hlog
      refine ⟨⟨hblocks, hdesc, ?_⟩, cache, hcache⟩
      rw [← hinode, inodeGroupDesc, ← hdesc]
    next => cases htransfer
  · rintro ⟨⟨hblocks, hdesc, hinode⟩, cache, hcache⟩
    have htransfer := inodeTransfer_eq { self with inodeCache := cache } inode id write
    rw [if_pos hblocks] at htransfer
    dsimp only at htransfer
    rw [hdesc] at htransfer
    change _ = Except.ok (transferred _ _ _ _ _
      (inodeAt self.toGeometry (inodeGroupDesc self id) id)) at htransfer
    rw [hinode] at htransfer
    refine ⟨_, _, bind_eq_ok.mpr ⟨cache, hcache, bind_eq_ok.mpr ⟨_, htransfer, rfl⟩⟩, ?_, rfl, rfl⟩
    cases write <;> rfl

/-- `ext2_group` accesses the right bytes exactly for the groups whose descriptors are in the first
block of the table, and `ext2_inode_rw` exactly for the inodes of these groups whose records end in
the block where they start, if it does not store behind the array of the cache. -/
theorem addressing_exact_iff (self : Ext2Fs) (group : Ext2GroupBlockDescTable) (inode : Ext2FsInode)
    (groupId id : ℕ) (write : Bool) :
    (GroupExact self group groupId write ↔ GroupFits self.toGeometry groupId) ∧
      (InodeExact self inode id write ↔
        NeedsNoAccess self id write ∨ InodeFits self id write) :=
  ⟨groupExact_iff, inodeExact_iff⟩

/-- A device of zeros with blocks of 512 bytes, and a file system of 64 groups with blocks of
1024. -/
def smallFs : Ext2Fs where
  superBlock := ⟨⟨524288, 8192, 2048⟩, 128, 0⟩
  deviceBlockSize := 512
  blockSize := 1024
  groupDescTableBlock := 2
  device_pos := by decide
  device_le := by decide
  table_pos := by decide
  inodes_pos := by decide
  bytes := fun _ ↦ 0
  inodeCache := ⟨[], 0, by decide⟩
  accesses := []

/-- The descriptor of group 32 is at the start of the second block of the table; the code looks for
it behind the end of the first one. -/
theorem addressing_exact_fails :
    ¬ ∀ (self : Ext2Fs) (group : Ext2GroupBlockDescTable) (inode : Ext2FsInode) (groupId id : ℕ)
      (write : Bool), GroupExact self group groupId write ∧ InodeExact self inode id write := by
  intro h
  have hexact := (h smallFs emptyGroup ⟨0, ⟨List.replicate inodeBlockSize 0, rfl⟩⟩ 32 2 false).1
  have hgroup : ext2Group smallFs emptyGroup 32 false = .error .outOfBounds := rfl
  rw [GroupExact, hgroup] at hexact
  cases hexact

end Brutal.Fs.Disk
