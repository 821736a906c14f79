import Brutal.Ds.FreeSearch
import Brutal.Fs.Ext2
import Brutal.Lib.Outcome
import Brutal.Lib.Run

/-!
# Allocating blocks

`ext2_alloc_block` takes a block of the preferred group if its descriptor says that one is free, or
else of another group.  The search for the other group starts at group 1, leaves the last group out
if it is not full, and looks at the number of free inodes; the bitmap is rounded down to whole
blocks, and its first bit is taken if none is clear; and the descriptor is looked up by the number
of bytes in a block.  An allocation is right when none of this matters.
-/

namespace Brutal.Fs

open Base Ds Lib

section Groups

variable (fs : Ext2Fs)

/-- The number of descriptors in a block. -/
def descsPerBlock : ℕ := fs.blockSize / descSize

/-- The number of groups, where the last one may have fewer blocks than the others. -/
def groupCount : ℕ :=
  (fs.superBlock.blockCount.toNat - firstBlock fs + fs.superBlock.groupBlockCount.toNat - 1) /
    fs.superBlock.groupBlockCount.toNat

/-- The descriptor of a group. -/
def groupDesc (groupId : ℕ) : Ext2GroupBlockDescTable :=
  fs.descs (fs.groupDescTableBlock + groupId / descsPerBlock fs) (groupId % descsPerBlock fs)

/-- The bit of a block in the bitmap of its group. -/
def groupBit (groupId idx : ℕ) : Bool :=
  bitmapBit fs (groupDesc fs groupId).blockUsageBitmapAddr.toNat idx

/-- The number of a block of a group. -/
def blockNumber (groupId idx : ℕ) : ℕ :=
  firstBlock fs + groupId * fs.superBlock.groupBlockCount.toNat + idx

/-- A file system with blocks of 1 KiB to 64 KiB, whose bitmaps are in different blocks and do not
offer blocks behind the last one. -/
structure ValidFs : Prop where
  blockSize : ∃ j ≤ 6, fs.blockSize = 1024 * 2 ^ j
  groupBlockCount : 0 < fs.superBlock.groupBlockCount.toNat
  bitmaps : ∀ g < groupCount fs, ∀ g' < groupCount fs, g ≠ g' →
    ∀ i < fs.superBlock.groupBlockCount.toNat, ∀ i' < fs.superBlock.groupBlockCount.toNat,
      (groupDesc fs g).blockUsageBitmapAddr.toNat + i / (8 * fs.blockSize) ≠
        (groupDesc fs g').blockUsageBitmapAddr.toNat + i' / (8 * fs.blockSize)
  padding : ∀ g < groupCount fs, ∀ i < fs.superBlock.groupBlockCount.toNat,
    groupBit fs g i = false → blockNumber fs g i < fs.superBlock.blockCount.toNat

/-- The number of bits of a bitmap that are searched for a free block. -/
def searchedBits : ℕ := bitmapBlockCount fs * fs.blockSize * 8

/-- No block of any group is free. -/
def Full : Prop :=
  ∀ g < groupCount fs, ∀ i < fs.superBlock.groupBlockCount.toNat, groupBit fs g i = true

end Groups

/-- The descriptor of a group with one free block less. -/
def takenDesc (desc : Ext2GroupBlockDescTable) : Ext2GroupBlockDescTable :=
  { desc with unallocatedBlockCount := desc.unallocatedBlockCount - 1 }

/-- A block of a group was free and is used now, the group has one free block less, and nothing else
changed. -/
structure Taken (fs : Ext2Fs) (groupId idx : ℕ) (fs' : Ext2Fs) : Prop where
  clear : groupBit fs groupId idx = false
  set : groupBit fs' groupId idx = true
  bits : ∀ g < groupCount fs, ∀ i < fs.superBlock.groupBlockCount.toNat,
    (g, i) ≠ (groupId, idx) → groupBit fs' g i = groupBit fs g i
  counted : (groupDesc fs groupId).unallocatedBlockCount ≠ 0
  desc : groupDesc fs' = Function.update (groupDesc fs) groupId (takenDesc (groupDesc fs groupId))
  rest : fs'.superBlock = fs.superBlock ∧ fs'.blockSize = fs.blockSize ∧
    fs'.groupDescTableBlock = fs.groupDescTableBlock ∧ fs'.tables = fs.tables

/-- What an allocation has to do: take a free block, or say that there is none and change
nothing. -/
def AllocatesBy (fs : Ext2Fs) : Except Fault (Except FsError UInt32 × Ext2Fs) → Prop
  | .error _ => False
  | .ok (.error .noFreeBlock, fs') => fs' = fs ∧ Full fs
  | .ok (.ok result, fs') =>
    ∃ g < groupCount fs, ∃ i < fs.superBlock.groupBlockCount.toNat,
      result.toNat = blockNumber fs g i ∧ Taken fs g i fs'

/-- An allocation does what it has to. -/
def Allocates (fs : Ext2Fs) (preferredGroupId : ℕ) : Prop :=
  AllocatesBy fs (ext2AllocBlock fs preferredGroupId)

/-- The descriptor of the group is in the first block of them and says that a block is free, and one
of the blocks whose bits are searched is. -/
def TakesFrom (fs : Ext2Fs) (groupId : ℕ) : Prop :=
  groupId < descsPerBlock fs ∧ (groupDesc fs groupId).unallocatedBlockCount ≠ 0 ∧
    ∃ i < searchedBits fs, groupBit fs groupId i = false

/-- No group from 1 on has a free inode, up to the group. -/
def Passes (fs : Ext2Fs) (groupId : ℕ) : Prop :=
  ∀ g, 1 ≤ g → g < groupId → (groupDesc fs g).unallocatedInodesCount = 0

/-- The group whose descriptor is read for a group. -/
def readGroup (fs : Ext2Fs) (groupId : ℕ) : ℕ :=
  groupId / fs.blockSize * descsPerBlock fs + groupId % fs.blockSize

/-- The number of groups that the search for another group expects. -/
def searchedCount (fs : Ext2Fs) : ℕ :=
  fs.superBlock.blockCount.toNat / fs.superBlock.groupBlockCount.toNat

/-- The states in which an allocation is right. -/
def AllocatesWhen (fs : Ext2Fs) (preferredGroupId : ℕ) : Prop :=
  preferredGroupId % fs.blockSize < descsPerBlock fs ∧
    if (groupDesc fs (readGroup fs preferredGroupId)).unallocatedBlockCount ≠ 0 then
      TakesFrom fs preferredGroupId
    else (∃ g, 1 ≤ g ∧ g < searchedCount fs ∧ (groupDesc fs g).unallocatedInodesCount ≠ 0 ∧
        Passes fs g ∧ TakesFrom fs g) ∨
      (Passes fs (searchedCount fs) ∧ max 1 (searchedCount fs) < descsPerBlock fs ∧ Full fs)

variable {fs fs' : Ext2Fs} {g : ℕ}

/-- The place of the descriptor that is read for a group. -/
theorem readGroup_place (hread : g % fs.blockSize < descsPerBlock fs) :
    ext2GroupPlace fs g =
      (fs.groupDescTableBlock + readGroup fs g / descsPerBlock fs,
        readGroup fs g % descsPerBlock fs) := by
  have hpos : 0 < descsPerBlock fs := Nat.zero_lt_of_lt hread
  rw [ext2GroupPlace, readGroup, Nat.mul_comm (g / fs.blockSize), Nat.mul_add_div hpos,
    Nat.div_eq_of_lt hread, Nat.mul_add_mod, Nat.mod_eq_of_lt hread, Nat.add_zero, Nat.add_comm]

section Descriptors

variable (h : ∃ j ≤ 6, fs.blockSize = 1024 * 2 ^ j)

include h

theorem blockSize_bounds :
    1024 ≤ fs.blockSize ∧ fs.blockSize ≤ 65536 ∧ 1 < descsPerBlock fs ∧
      descsPerBlock fs * descSize = fs.blockSize := by
  obtain ⟨j, hj, hsize⟩ := h
  have hpow : 2 ^ j ≤ 2 ^ 6 := Nat.pow_le_pow_right (by decide) hj
  have hpos : 0 < 2 ^ j := Nat.pow_pos (by decide)
  rw [descsPerBlock, hsize, descSize]
  omega

theorem readGroup_low (hg : g < descsPerBlock fs) : readGroup fs g = g := by
  obtain ⟨-, -, -, hsize⟩ := blockSize_bounds h
  have hlt : g < fs.blockSize := by
    rw [descSize] at hsize
    omega
  rw [readGroup, Nat.div_eq_of_lt hlt, Nat.mod_eq_of_lt hlt, Nat.zero_mul, Nat.zero_add]

/-- Behind the first block of descriptors another group is read. -/
theorem readGroup_lt (hread : g % fs.blockSize < descsPerBlock fs)
    (hg : descsPerBlock fs ≤ g) : 0 < readGroup fs g ∧ readGroup fs g < g := by
  obtain ⟨-, -, hdescs, hsize⟩ := blockSize_bounds h
  have hsplit := Nat.div_add_mod g fs.blockSize
  have hpos : 0 < g / fs.blockSize := by
    by_contra hzero
    rw [Nat.eq_zero_of_not_pos hzero] at hsplit
    omega
  have hlt : descsPerBlock fs < fs.blockSize := by
    rw [descSize] at hsize
    omega
  have hmul : g / fs.blockSize * descsPerBlock fs < fs.blockSize * (g / fs.blockSize) := by
    rw [Nat.mul_comm]
    exact Nat.mul_lt_mul_of_pos_right hlt hpos
  have hmulPos : 0 < g / fs.blockSize * descsPerBlock fs := Nat.mul_pos hpos (by omega)
  rw [readGroup]
  omega

theorem descFits_iff :
    (g % fs.blockSize + 1) * descSize ≤ fs.blockSize ↔ g % fs.blockSize < descsPerBlock fs := by
  obtain ⟨-, -, -, hsize⟩ := blockSize_bounds h
  rw [descSize] at *
  omega

theorem ext2GroupRead_eq (g : ℕ) :
    ext2GroupRead fs g =
      if g % fs.blockSize < descsPerBlock fs then .ok (groupDesc fs (readGroup fs g))
      else .error .outOfBounds := by
  have hiff := descFits_iff (g := g) h
  by_cases hread : g % fs.blockSize < descsPerBlock fs
  · have hplace := readGroup_place hread
    rw [if_pos hread, ext2GroupRead, groupDesc, hplace]
    rw [ext2GroupPlace, Prod.mk.injEq] at hplace
    exact if_pos (hplace.2 ▸ hiff.mpr hread)
  · rw [if_neg hread, ext2GroupRead, ext2GroupPlace]
    exact if_neg fun hfits ↦ hread (hiff.mp hfits)

theorem ext2GroupRead_low (hg : g < descsPerBlock fs) :
    ext2GroupRead fs g = .ok (groupDesc fs g) := by
  obtain ⟨-, -, -, hsize⟩ := blockSize_bounds h
  have hlt : g < fs.blockSize := by
    rw [descSize] at hsize
    omega
  rw [ext2GroupRead_eq h, Nat.mod_eq_of_lt hlt, if_pos hg, readGroup_low h hg]

/-- A file system with another descriptor for a group. -/
theorem ext2GroupWrite_eq (hread : g % fs.blockSize < descsPerBlock fs)
    (desc : Ext2GroupBlockDescTable) :
    ∃ descs, ext2GroupWrite fs desc g = .ok { fs with descs } ∧
      groupDesc { fs with descs } = Function.update (groupDesc fs) (readGroup fs g) desc := by
  have hplace := readGroup_place hread
  have hfits := (descFits_iff h).mpr hread
  rw [ext2GroupWrite, hplace]
  rw [ext2GroupPlace, Prod.mk.injEq] at hplace
  rw [hplace.2] at hfits
  dsimp only
  rw [if_pos hfits]
  refine ⟨_, rfl, ?_⟩
  have hpos : 0 < descsPerBlock fs := Nat.zero_lt_of_lt hread
  funext g'
  change Function.update fs.descs _ _ (fs.groupDescTableBlock + g' / descsPerBlock fs)
    (g' % descsPerBlock fs) = _
  by_cases hg' : g' = readGroup fs g
  · rw [hg', Function.update_self, Function.update_self, Function.update_self]
  · rw [Function.update_of_ne hg']
    by_cases hblock : g' / descsPerBlock fs = readGroup fs g / descsPerBlock fs
    · have hoff : g' % descsPerBlock fs ≠ readGroup fs g % descsPerBlock fs := by
        intro hoff
        apply hg'
        rw [← Nat.div_add_mod g' (descsPerBlock fs), hblock, hoff, Nat.div_add_mod]
      rw [hblock, Function.update_self, Function.update_of_ne hoff, groupDesc, hblock]
    · rw [Function.update_of_ne (by omega), groupDesc]

end Descriptors

/-- A search that comes back with nothing names the first position. -/
theorem findFree_base {bits : Bits} {size : UInt64} (hsize : size ≠ 0) {upper : Bool} {left : ℕ}
    {i start runSize : UInt64}
    (hempty : (findFree bits size upper left i start runSize).size = 0) :
    (findFree bits size upper left i start runSize).base = 0 := by
  induction left generalizing i start runSize with
  | zero => rfl
  | succ left ih =>
    rw [findFree] at hempty ⊢
    by_cases hfull : (size == if (bitsGet bits i == false) = true then runSize + 1 else 0) = true
    · rw [if_pos hfull] at hempty
      exact absurd ((beq_iff_eq.mp hfull).trans hempty) hsize
    · rw [if_neg hfull] at hempty ⊢
      exact ih hempty

theorem searchedBits_le (fs : Ext2Fs) :
    searchedBits fs ≤ fs.superBlock.groupBlockCount.toNat := by
  have hle := Nat.div_mul_le_self fs.superBlock.groupBlockCount.toNat (8 * fs.blockSize)
  rw [searchedBits, bitmapBlockCount, Nat.mul_assoc, Nat.mul_comm fs.blockSize 8]
  exact hle

/-- The bitmap that is searched for a free block of a group. -/
def searchedBitmap (fs : Ext2Fs) (addr : UInt32) : Bits :=
  ⟨0, UInt64.ofNat (bitmapBlockCount fs * fs.blockSize), bitmapBit fs addr.toNat⟩

theorem bitsLen_searchedBitmap (fs : Ext2Fs) (addr : UInt32) :
    (bitsLen (searchedBitmap fs addr)).toNat = searchedBits fs := by
  have hle := searchedBits_le fs
  have hcount := fs.superBlock.groupBlockCount.toNat_lt
  have height : (8 : UInt64).toNat = 8 := rfl
  rw [searchedBits] at hle ⊢
  rw [bitsLen, searchedBitmap, UInt64.toNat_mul, height]
  dsimp only
  rw [UInt64.toNat_ofNat', Nat.mod_eq_of_lt (a := bitmapBlockCount fs * fs.blockSize) (by omega),
    Nat.mod_eq_of_lt (by omega)]

/-- The search panics without a bitmap, finds a clear bit if there is one, and else takes the first
bit. -/
theorem findFreeGroupBlock_cases (fs : Ext2Fs) (addr : UInt32) :
    (searchedBits fs ≤ 1 ∧ ext2FindFreeGroupBlock fs addr = .error .panic) ∨
      ∃ i, ext2FindFreeGroupBlock fs addr =
          .ok (i, { fs with bitmaps := setBitmapBit fs addr.toNat i }) ∧
        ((i < searchedBits fs ∧ bitmapBit fs addr.toNat i = false) ∨
          (i = 0 ∧ 0 < searchedBits fs ∧
            ∀ j < searchedBits fs, bitmapBit fs addr.toNat j = true)) := by
  have hlen := bitsLen_searchedBitmap fs addr
  have hone : (1 : UInt64).toNat = 1 := rfl
  by_cases hshort : searchedBits fs ≤ 1
  · have hnot : ¬ bitsLen (searchedBitmap fs addr) > 1 := by
      rw [gt_iff_lt, UInt64.lt_iff_toNat_lt, hlen, hone]
      omega
    have hpanic : bitsFindFree (searchedBitmap fs addr) 0 1 false = .error .panic := if_neg hnot
    refine Or.inl ⟨hshort, ?_⟩
    rw [searchedBitmap] at hpanic
    rw [ext2FindFreeGroupBlock]
    dsimp only
    rw [hpanic]
  · have hlong : bitsLen (searchedBitmap fs addr) > 1 := by
      rw [gt_iff_lt, UInt64.lt_iff_toNat_lt, hlen, hone]
      omega
    have hfinds := (bitsFindFree_findsFree_iff (searchedBitmap fs addr) 0 1 false hlong
      (by decide)).mpr nofun
    obtain ⟨range, hrange⟩ := hfinds.returns
    have hfound : ext2FindFreeGroupBlock fs addr = .ok (range.base.toNat,
        { fs with bitmaps := setBitmapBit fs addr.toNat range.base.toNat }) := by
      rw [searchedBitmap] at hrange
      rw [ext2FindFreeGroupBlock]
      dsimp only
      rw [hrange]
    refine Or.inr ⟨_, hfound, ?_⟩
    by_cases hempty : range.size = 0
    · have hbase : range.base = 0 := by
        rw [bitsFindFree_eq hlong] at hrange
        cases hrange
        exact findFree_base (by decide) hempty
      refine Or.inr ⟨by rw [hbase]; rfl, by omega, fun j hj ↦ ?_⟩
      by_contra hclear
      rw [Bool.not_eq_true] at hclear
      refine hfinds.allUp rfl rfl range hrange hempty j (by rw [hlen, hone]; omega) ?_
      intro k hlow hhigh
      rw [hone] at hhigh
      rw [show k = j by omega]
      exact hclear
    · obtain ⟨hsize, hfits, hclear⟩ := hfinds.found range hrange hempty
      rw [USizeRange.finish, hlen, hsize, hone] at hfits
      refine Or.inl ⟨by omega, hclear _ (Nat.le_refl _) ?_⟩
      rw [USizeRange.finish, hsize, hone]
      omega

/-- A bit is set, and no other bit. -/
theorem bitmapBit_setBitmapBit (fs : Ext2Fs) (addr i addr' i' : ℕ) :
    bitmapBit { fs with bitmaps := setBitmapBit fs addr i } addr' i' =
      if addr' + i' / (8 * fs.blockSize) = addr + i / (8 * fs.blockSize) ∧
          i' % (8 * fs.blockSize) = i % (8 * fs.blockSize) then true
      else bitmapBit fs addr' i' := by
  rw [bitmapBit, setBitmapBit]
  dsimp only
  by_cases hblock : addr' + i' / (8 * fs.blockSize) = addr + i / (8 * fs.blockSize)
  · by_cases hoff : i' % (8 * fs.blockSize) = i % (8 * fs.blockSize)
    · rw [if_pos ⟨hblock, hoff⟩, hblock, hoff, Function.update_self, Function.update_self]
    · rw [if_neg fun h ↦ hoff h.2, hblock, Function.update_self, Function.update_of_ne hoff,
        bitmapBit, hblock]
  · rw [if_neg fun h ↦ hblock h.1, Function.update_of_ne hblock, bitmapBit]

/-- Two bits at one place of one bitmap are the same. -/
theorem bit_eq {addr i i' size : ℕ} (hblock : addr + i' / size = addr + i / size)
    (hoff : i' % size = i % size) : i' = i := by
  rw [← Nat.div_add_mod i' size, Nat.add_left_cancel hblock, hoff, Nat.div_add_mod]

theorem takenDesc_ne (desc : Ext2GroupBlockDescTable) : takenDesc desc ≠ desc := by
  intro heq
  have hcount : desc.unallocatedBlockCount - 1 = desc.unallocatedBlockCount :=
    congrArg Ext2GroupBlockDescTable.unallocatedBlockCount heq
  have hone : (1 : UInt16).toNat = 1 := rfl
  have hlt := desc.unallocatedBlockCount.toNat_lt
  rw [← UInt16.toNat_inj, UInt16.toNat_sub, hone] at hcount
  omega

/-- The state after the bit of a block was set and its group has one free block less. -/
structure Written (fs : Ext2Fs) (g i : ℕ) (fs' : Ext2Fs) : Prop where
  bits : ∀ g' i', groupBit fs' g' i' =
    if (groupDesc fs g').blockUsageBitmapAddr.toNat + i' / (8 * fs.blockSize) =
          (groupDesc fs g).blockUsageBitmapAddr.toNat + i / (8 * fs.blockSize) ∧
        i' % (8 * fs.blockSize) = i % (8 * fs.blockSize) then true
    else groupBit fs g' i'
  desc : groupDesc fs' = Function.update (groupDesc fs) g (takenDesc (groupDesc fs g))
  rest : fs'.superBlock = fs.superBlock ∧ fs'.blockSize = fs.blockSize ∧
    fs'.groupDescTableBlock = fs.groupDescTableBlock ∧ fs'.tables = fs.tables

/-- Once its descriptor was read, the group gives a clear bit, or its first bit, or the bitmap is
too short. -/
theorem allocIn_cases (h : ValidFs fs) (hread : g % fs.blockSize < descsPerBlock fs) :
    (searchedBits fs ≤ 1 ∧
        allocIn fs g (groupDesc fs (readGroup fs g)) = .error .panic) ∨
      ∃ i fs', allocIn fs g (groupDesc fs (readGroup fs g)) =
          .ok (.ok (UInt32.ofNat (blockNumber fs g i)), fs') ∧
        Written fs (readGroup fs g) i fs' ∧
        ((i < searchedBits fs ∧ groupBit fs (readGroup fs g) i = false) ∨
          (i = 0 ∧ 0 < searchedBits fs ∧
            ∀ j < searchedBits fs, groupBit fs (readGroup fs g) j = true)) := by
  rcases findFreeGroupBlock_cases fs (groupDesc fs (readGroup fs g)).blockUsageBitmapAddr with
    ⟨hshort, hpanic⟩ | ⟨i, hfound, hbit⟩
  · refine Or.inl ⟨hshort, ?_⟩
    rw [allocIn, hpanic]
    rfl
  · let addr := (groupDesc fs (readGroup fs g)).blockUsageBitmapAddr
    let marked : Ext2Fs := { fs with bitmaps := setBitmapBit fs addr.toNat i }
    obtain ⟨descs, hwrite, hdescs⟩ := @ext2GroupWrite_eq marked _ h.blockSize hread
      (takenDesc (groupDesc fs (readGroup fs g)))
    refine Or.inr ⟨i, { marked with descs }, ?_, ⟨fun g' i' ↦ ?_, hdescs, rfl, rfl, rfl, rfl⟩, hbit⟩
    · rw [allocIn, hfound, ok_bind]
      dsimp only
      exact bind_eq_ok.mpr ⟨_, hwrite, rfl⟩
    · have haddr : (groupDesc { marked with descs } g').blockUsageBitmapAddr =
          (groupDesc fs g').blockUsageBitmapAddr := by
        rw [hdescs]
        by_cases hg' : g' = readGroup fs g
        · rw [hg']
          have hself := Function.update_self (readGroup fs g)
            (takenDesc (groupDesc fs (readGroup fs g))) (groupDesc marked)
          have hsame := congrArg Ext2GroupBlockDescTable.blockUsageBitmapAddr hself
          exact hsame
        · exact congrArg _ (Function.update_of_ne hg' ..)
      rw [groupBit, haddr]
      exact bitmapBit_setBitmapBit fs _ i _ i'

/-! ## Right allocations -/

theorem mul_lt_of_lt_groupCount (h : ValidFs fs) (hg : g < groupCount fs) :
    g * fs.superBlock.groupBlockCount.toNat < fs.superBlock.blockCount.toNat - firstBlock fs := by
  have hle := (Nat.le_div_iff_mul_le h.groupBlockCount).mp (Nat.succ_le_of_lt hg)
  have hpos := h.groupBlockCount
  rw [Nat.succ_mul] at hle
  omega

theorem Written.taken {i : ℕ} (h : ValidFs fs) (hg : g < groupCount fs)
    (hi : i < fs.superBlock.groupBlockCount.toNat) (hwritten : Written fs g i fs')
    (hclear : groupBit fs g i = false)
    (hcount : (groupDesc fs g).unallocatedBlockCount ≠ 0) : Taken fs g i fs' := by
  refine ⟨hclear, ?_, fun g' hg' i' hi' hne ↦ ?_, hcount, hwritten.desc, hwritten.rest⟩
  · rw [hwritten.bits, if_pos ⟨rfl, rfl⟩]
  · rw [hwritten.bits, if_neg]
    rintro ⟨hblock, hoff⟩
    by_cases hsame : g' = g
    · rw [hsame] at hblock
      exact hne (Prod.ext hsame (bit_eq hblock hoff))
    · exact h.bitmaps g' hg' g hg hsame i' hi' i hi hblock

/-- An allocation of which a group gives the block is right when the group is the one that was read,
has a free block according to its descriptor and a clear bit that is searched. -/
theorem allocIn_allocatesBy_iff (h : ValidFs fs) (hg : 0 < searchedBits fs → g < groupCount fs)
    (hread : g % fs.blockSize < descsPerBlock fs) :
    AllocatesBy fs (allocIn fs g (groupDesc fs (readGroup fs g))) ↔ TakesFrom fs g := by
  have hmax := fs.superBlock.blockCount.toNat_lt
  have hsearched := searchedBits_le fs
  constructor
  · intro hallocates
    rcases allocIn_cases h hread with ⟨-, hpanic⟩ | ⟨i, fs', hok, hwritten, hbit⟩
    · rw [hpanic] at hallocates
      exact hallocates.elim
    rw [hok] at hallocates
    obtain ⟨g', hg', i', hi', hnumber, htaken⟩ := hallocates
    have hbound := mul_lt_of_lt_groupCount h (hg (by omega))
    have hgroup : readGroup fs g = g' := by
      by_contra hne
      have hdesc := congrFun (hwritten.desc.symm.trans htaken.desc) g'
      rw [Function.update_self, Function.update_of_ne (Ne.symm hne)] at hdesc
      exact takenDesc_ne _ hdesc.symm
    have hlow : g < descsPerBlock fs := by
      by_contra hhigh
      obtain ⟨hpos, hlt⟩ := readGroup_lt h.blockSize hread (Nat.le_of_not_lt hhigh)
      rw [hgroup] at hpos hlt
      have hstep : g' * fs.superBlock.groupBlockCount.toNat +
          fs.superBlock.groupBlockCount.toNat ≤ g * fs.superBlock.groupBlockCount.toNat := by
        rw [← Nat.succ_mul]
        exact Nat.mul_le_mul_right _ hlt
      have hone := Nat.mul_le_mul_right fs.superBlock.groupBlockCount.toNat hpos
      rw [UInt32.toNat_ofNat', blockNumber, blockNumber] at hnumber
      omega
    rw [readGroup_low h.blockSize hlow] at hgroup hwritten hbit
    subst hgroup
    refine ⟨hlow, htaken.counted, ?_⟩
    rcases hbit with ⟨hi, hclear⟩ | ⟨rfl, hpos, hall⟩
    · exact ⟨i, hi, hclear⟩
    · -- The first bit was set already, so nothing changed in the bitmap.
      have hset := htaken.set
      rw [hwritten.bits] at hset
      split at hset
      next hsame =>
        have hfree := htaken.clear
        rw [bit_eq hsame.1 hsame.2, hall 0 hpos] at hfree
        cases hfree
      next =>
        rw [htaken.clear] at hset
        cases hset
  · rintro ⟨hlow, hcount, j, hj, hclear⟩
    have hsame := readGroup_low h.blockSize hlow
    rcases allocIn_cases h hread with ⟨hshort, -⟩ | ⟨i, fs', hok, hwritten, hbit⟩
    · rw [searchedBits] at hshort hj
      omega
    rw [hok]
    rw [hsame] at hwritten hbit
    have hthere := hg (Nat.zero_lt_of_lt hj)
    rcases hbit with ⟨hi, hfree⟩ | ⟨-, -, hall⟩
    · have hlt := h.padding g hthere i (Nat.lt_of_lt_of_le hi hsearched) hfree
      refine ⟨g, hthere, i, Nat.lt_of_lt_of_le hi hsearched, ?_,
        hwritten.taken h hthere (Nat.lt_of_lt_of_le hi hsearched) hfree hcount⟩
      rw [UInt32.toNat_ofNat', Nat.mod_eq_of_lt (Nat.lt_trans hlt hmax)]
    · rw [hall j hj] at hclear
      cases hclear

/-- The search from a group on finds the first group with a free inode, or none, or it leaves the
block of descriptors. -/
theorem findGroupLoop_cases (h : ∃ j ≤ 6, fs.blockSize = 1024 * 2 ^ j) (left : ℕ) {id : ℕ}
    (hid : id < descsPerBlock fs) :
    (∃ g, id ≤ g ∧ g < id + left ∧ g < descsPerBlock fs ∧
        (groupDesc fs g).unallocatedInodesCount ≠ 0 ∧
        (∀ i, id ≤ i → i < g → (groupDesc fs i).unallocatedInodesCount = 0) ∧
        findGroupLoop fs left id (groupDesc fs id) = .ok (some (g, groupDesc fs g))) ∨
      ((∀ i, id ≤ i → i < id + left → (groupDesc fs i).unallocatedInodesCount = 0) ∧
        id + left < descsPerBlock fs ∧ findGroupLoop fs left id (groupDesc fs id) = .ok none) ∨
      (descsPerBlock fs ≤ id + left ∧
        (∀ i, id ≤ i → i < descsPerBlock fs → (groupDesc fs i).unallocatedInodesCount = 0) ∧
        findGroupLoop fs left id (groupDesc fs id) = .error .outOfBounds) := by
  induction left generalizing id with
  | zero => exact Or.inr (Or.inl ⟨fun i hlow hhigh ↦ by omega, hid, rfl⟩)
  | succ left ih =>
    by_cases hzero : (groupDesc fs id).unallocatedInodesCount = 0
    · have hcons : ∀ {limit : ℕ},
          (∀ i, id + 1 ≤ i → i < limit → (groupDesc fs i).unallocatedInodesCount = 0) →
            ∀ i, id ≤ i → i < limit → (groupDesc fs i).unallocatedInodesCount = 0 := by
        intro limit hrest i hlow hhigh
        rcases Nat.eq_or_lt_of_le hlow with rfl | hlt
        · exact hzero
        · exact hrest i hlt hhigh
      have hshift : id + 1 + left = id + (left + 1) := by omega
      by_cases hnext : id + 1 < descsPerBlock fs
      · have hloop : findGroupLoop fs (left + 1) id (groupDesc fs id) =
            findGroupLoop fs left (id + 1) (groupDesc fs (id + 1)) := by
          rw [findGroupLoop, if_pos hzero, ext2GroupRead_low h hnext, ok_bind]
        rw [hloop, ← hshift]
        rcases ih hnext with ⟨g, hlow, hhigh, hdesc, hfree, hpassed, hok⟩ |
          ⟨hpassed, hlast, hok⟩ | ⟨hlast, hpassed, hfault⟩
        · exact Or.inl ⟨g, by omega, hhigh, hdesc, hfree, hcons hpassed, hok⟩
        · exact Or.inr (Or.inl ⟨hcons hpassed, hlast, hok⟩)
        · exact Or.inr (Or.inr ⟨hlast, hcons hpassed, hfault⟩)
      · have hbehind : (id + 1) % fs.blockSize = id + 1 := by
          obtain ⟨-, -, -, hsize⟩ := blockSize_bounds h
          rw [descSize] at hsize
          exact Nat.mod_eq_of_lt (by omega)
        refine Or.inr (Or.inr ⟨by omega, hcons fun i hlow hhigh ↦ by omega, ?_⟩)
        rw [findGroupLoop, if_pos hzero, ext2GroupRead_eq h, hbehind, if_neg hnext]
        rfl
    · refine Or.inl ⟨id, Nat.le_refl id, by omega, hid, hzero, fun i hlow hhigh ↦ by omega, ?_⟩
      rw [findGroupLoop, if_neg hzero]

/-- The groups in which another group is searched are there, if there is a bitmap to search. -/
theorem lt_groupCount_of_lt_searchedCount (h : ValidFs fs) (hg : g < searchedCount fs)
    (hpos : 0 < searchedBits fs) : g < groupCount fs := by
  have hle := (Nat.le_div_iff_mul_le h.groupBlockCount).mp (Nat.succ_le_of_lt hg)
  have hsearched := searchedBits_le fs
  have hfirst : firstBlock fs ≤ 1 := by
    rw [firstBlock]
    split <;> decide
  rw [searchedBits] at hpos hsearched
  refine (Nat.le_div_iff_mul_le h.groupBlockCount).mpr ?_
  rw [Nat.succ_mul] at hle ⊢
  omega

/-- An allocation for which no block of the preferred group is counted. -/
theorem allocatesBy_other_iff (h : ValidFs fs) :
    AllocatesBy fs (ext2FindGroupWithFreeBlock fs >>= fun found ↦
        match found with
        | none => pure (.error .noFreeBlock, fs)
        | some (groupId, groupDesc) => allocIn fs groupId groupDesc) ↔
      (∃ g, 1 ≤ g ∧ g < searchedCount fs ∧ (groupDesc fs g).unallocatedInodesCount ≠ 0 ∧
          Passes fs g ∧ TakesFrom fs g) ∨
        (Passes fs (searchedCount fs) ∧ max 1 (searchedCount fs) < descsPerBlock fs ∧ Full fs) := by
  obtain ⟨-, -, hdescs, -⟩ := blockSize_bounds h.blockSize
  have hfind : ext2FindGroupWithFreeBlock fs =
      findGroupLoop fs (searchedCount fs - 1) 1 (groupDesc fs 1) := by
    rw [ext2FindGroupWithFreeBlock, ext2GroupRead_low h.blockSize hdescs, ok_bind]
    rfl
  rw [hfind]
  rcases findGroupLoop_cases h.blockSize (searchedCount fs - 1) hdescs with
    ⟨g, hlow, hhigh, hdesc, hfree, hpassed, hok⟩ | ⟨hpassed, hlast, hok⟩ | ⟨hlast, hpassed, hfault⟩
  · have hread : g % fs.blockSize < descsPerBlock fs :=
      Nat.lt_of_le_of_lt (Nat.mod_le g fs.blockSize) hdesc
    have hthere := lt_groupCount_of_lt_searchedCount h (g := g) (by omega)
    have hiff := allocIn_allocatesBy_iff h hthere hread
    rw [readGroup_low h.blockSize hdesc] at hiff
    rw [hok, ok_bind]
    refine hiff.trans ⟨fun htakes ↦ Or.inl ⟨g, hlow, by omega, hfree, hpassed, htakes⟩, ?_⟩
    rintro (⟨g', hlow', hhigh', hfree', hpassed', htakes⟩ | ⟨hnone, -, -⟩)
    · have heq : g' = g := by
        rcases Nat.lt_trichotomy g' g with hlt | heq | hgt
        · exact absurd (hpassed g' hlow' hlt) hfree'
        · exact heq
        · exact absurd (hpassed' g hlow hgt) hfree
      exact heq ▸ htakes
    · exact absurd (hnone g hlow (by omega)) hfree
  · rw [hok, ok_bind]
    constructor
    · rintro ⟨-, hfull⟩
      exact Or.inr ⟨fun g hlow hhigh ↦ hpassed g hlow (by omega), by omega, hfull⟩
    · rintro (⟨g, hlow, hhigh, hfree, -, -⟩ | ⟨-, -, hfull⟩)
      · exact absurd (hpassed g hlow (by omega)) hfree
      · exact ⟨rfl, hfull⟩
  · rw [hfault]
    refine iff_of_false id ?_
    rintro (⟨g', hlow', hhigh', hfree', -, hinside, -⟩ | ⟨-, hinside, -⟩)
    · exact hfree' (hpassed g' hlow' hinside)
    · omega

theorem allocates_iff (h : ValidFs fs) {preferredGroupId : ℕ}
    (hpreferred : preferredGroupId < groupCount fs) :
    Allocates fs preferredGroupId ↔ AllocatesWhen fs preferredGroupId := by
  rw [Allocates, AllocatesWhen, ext2AllocBlock, ext2GroupRead_eq h.blockSize]
  by_cases hread : preferredGroupId % fs.blockSize < descsPerBlock fs
  · rw [if_pos hread, ok_bind, and_iff_right hread]
    by_cases hcount :
        (groupDesc fs (readGroup fs preferredGroupId)).unallocatedBlockCount = 0
    · rw [if_pos hcount, if_neg (not_not.mpr hcount)]
      exact allocatesBy_other_iff h
    · rw [if_neg hcount, if_pos hcount]
      exact allocIn_allocatesBy_iff h (fun _ ↦ hpreferred) hread
  · rw [if_neg hread]
    exact iff_of_false id fun hwhen ↦ hread hwhen.1

/-- An allocation, with the blocks that were returned so far. -/
def allocNext (state : Ext2Fs × List UInt32) (preferredGroupId : ℕ) :
    Except Fault (Ext2Fs × List UInt32) := do
  let (result, fs) ← ext2AllocBlock state.1 preferredGroupId
  match result with
  | .error _ => return (fs, state.2)
  | .ok block => return (fs, block :: state.2)

/-- The blocks are different ones, and each of them is used. -/
structure Distinct (state : Ext2Fs × List UInt32) : Prop where
  valid : ValidFs state.1
  nodup : state.2.Nodup
  used : ∀ block ∈ state.2, ∃ g < groupCount state.1,
    ∃ i < state.1.superBlock.groupBlockCount.toNat,
      block.toNat = blockNumber state.1 g i ∧ groupBit state.1 g i = true

theorem blockNumber_inj {g g' i i' : ℕ} (hi : i < fs.superBlock.groupBlockCount.toNat)
    (hi' : i' < fs.superBlock.groupBlockCount.toNat)
    (heq : blockNumber fs g i = blockNumber fs g' i') : (g, i) = (g', i') := by
  rw [blockNumber, blockNumber, Nat.add_assoc, Nat.add_assoc] at heq
  have hsum := Nat.add_left_cancel heq
  have hpos := Nat.zero_lt_of_lt hi
  have hgroup := congrArg (· / fs.superBlock.groupBlockCount.toNat) hsum
  have hidx := congrArg (· % fs.superBlock.groupBlockCount.toNat) hsum
  rw [Nat.mul_comm, Nat.mul_add_div hpos, Nat.mul_comm, Nat.mul_add_div hpos, Nat.div_eq_of_lt hi,
    Nat.div_eq_of_lt hi'] at hgroup
  rw [Nat.mul_add_mod_self_right, Nat.mul_add_mod_self_right, Nat.mod_eq_of_lt hi,
    Nat.mod_eq_of_lt hi'] at hidx
  exact Prod.ext hgroup hidx

theorem Taken.geometry {i : ℕ} (h : Taken fs g i fs') :
    groupCount fs' = groupCount fs ∧ blockNumber fs' = blockNumber fs ∧
      ∀ g', (groupDesc fs' g').blockUsageBitmapAddr = (groupDesc fs g').blockUsageBitmapAddr := by
  obtain ⟨hsuper, hsize, -, -⟩ := h.rest
  refine ⟨?_, ?_, fun g' ↦ ?_⟩
  · rw [groupCount, firstBlock, hsuper, hsize]
    rfl
  · funext g' i'
    rw [blockNumber, firstBlock, hsuper, hsize]
    rfl
  · rw [h.desc]
    by_cases hg : g' = g
    · rw [hg, Function.update_self]
      rfl
    · rw [Function.update_of_ne hg]

theorem Taken.validFs {i : ℕ} (hvalid : ValidFs fs) (h : Taken fs g i fs') : ValidFs fs' := by
  obtain ⟨hcount, hnumber, haddr⟩ := h.geometry
  obtain ⟨hsuper, hsize, -, -⟩ := h.rest
  refine ⟨hsize ▸ hvalid.blockSize, hsuper ▸ hvalid.groupBlockCount, ?_, ?_⟩
  · rw [hcount, hsuper, hsize]
    simp only [haddr]
    exact hvalid.bitmaps
  · rw [hcount, hsuper, hnumber]
    intro g' hg' i' hi' hclear
    by_cases hsame : (g', i') = (g, i)
    · cases hsame
      rw [h.set] at hclear
      cases hclear
    · rw [h.bits g' hg' i' hi' hsame] at hclear
      exact hvalid.padding g' hg' i' hi' hclear

/-- An allocation that is right keeps the blocks apart. -/
theorem Distinct.step {state state' : Ext2Fs × List UInt32} {preferredGroupId : ℕ}
    (h : Distinct state) (hright : Allocates state.1 preferredGroupId)
    (hstep : allocNext state preferredGroupId = .ok state') : Distinct state' := by
  obtain ⟨⟨result, fs'⟩, halloc, hnext⟩ := bind_eq_ok.mp hstep
  rw [Allocates, halloc] at hright
  cases result with
  | error error =>
    cases error
    cases hnext
    rw [hright.1]
    exact h
  | ok block =>
    cases hnext
    obtain ⟨g, hg, i, hi, hblock, htaken⟩ := hright
    obtain ⟨hcount, hnumber, -⟩ := htaken.geometry
    obtain ⟨hsuper, -, -, -⟩ := htaken.rest
    refine ⟨htaken.validFs h.valid, List.nodup_cons.mpr ⟨fun hmem ↦ ?_, h.nodup⟩, ?_⟩
    · obtain ⟨g', -, i', hi', hblock', hused⟩ := h.used block hmem
      cases blockNumber_inj hi hi' (hblock.symm.trans hblock')
      rw [htaken.clear] at hused
      cases hused
    · rw [hcount, hnumber, hsuper]
      intro other hmem
      rcases List.mem_cons.mp hmem with rfl | hmem
      · exact ⟨g, hg, i, hi, hblock, htaken.set⟩
      · obtain ⟨g', hg', i', hi', hblock', hused⟩ := h.used other hmem
        refine ⟨g', hg', i', hi', hblock', ?_⟩
        by_cases hsame : (g', i') = (g, i)
        · cases hsame
          exact htaken.set
        · rw [htaken.bits g' hg' i' hi' hsame, hused]

/-- An allocation is right exactly in the states of `AllocatesWhen`, and allocations in such states
return different blocks. -/
theorem ext2AllocBlock_allocates_iff (fs : Ext2Fs) (hvalid : ValidFs fs) :
    (∀ preferredGroupId < groupCount fs,
      Allocates fs preferredGroupId ↔ AllocatesWhen fs preferredGroupId) ∧
    ∀ groups fs' blocks, Run (Guarded (Succeeds allocNext)
        fun state group ↦ group < groupCount state.1 ∧ AllocatesWhen state.1 group)
      (fs, []) groups (fs', blocks) → blocks.Nodup := by
  refine ⟨fun group hgroup ↦ allocates_iff hvalid hgroup, fun groups fs' blocks hrun ↦ ?_⟩
  have hdistinct : Distinct (fs', blocks) := by
    refine hrun.invariant (fun state group state' h hstep ↦ ?_)
      ⟨hvalid, List.nodup_nil, fun block hmem ↦ absurd hmem List.not_mem_nil⟩
    obtain ⟨⟨hgroup, hwhen⟩, hnext⟩ := hstep
    exact h.step ((allocates_iff h.valid hgroup).mpr hwhen) hnext
  exact hdistinct.nodup

/-- Two groups of 8192 blocks; the sixth block of group 0 is free. -/
def twoGroupsFs : Ext2Fs where
  superBlock := ⟨16385, 8192, 2048⟩
  blockSize := 1024
  groupDescTableBlock := 2
  tables := fun _ _ ↦ 0
  descs := fun _ off ↦ if off = 0 then ⟨3, 5, 7, 1, 10, 0⟩ else ⟨4, 6, 8, 0, 0, 0⟩
  bitmaps := fun block bit ↦ !(block = 3 && bit = 5)

theorem twoGroupsFs_clear {g i : ℕ} (hg : g < 2) (hi : i < 8192)
    (hclear : groupBit twoGroupsFs g i = false) : g = 0 ∧ i = 5 := by
  have hdiv : i / 8192 = 0 := Nat.div_eq_of_lt hi
  have hmod : i % 8192 = i := Nat.mod_eq_of_lt hi
  have hbit : (!((groupDesc twoGroupsFs g).blockUsageBitmapAddr.toNat + i / 8192 = 3 &&
      i % 8192 = 5)) = false := hclear
  rw [hdiv, hmod] at hbit
  rcases Nat.le_one_iff_eq_zero_or_eq_one.mp (Nat.le_of_lt_succ hg) with rfl | rfl
  · rw [Bool.not_eq_false', Bool.and_eq_true] at hbit
    exact ⟨rfl, of_decide_eq_true hbit.2⟩
  · have haddr : (groupDesc twoGroupsFs 1).blockUsageBitmapAddr.toNat = 4 := rfl
    rw [haddr] at hbit
    simp at hbit

theorem twoGroupsFs_valid : ValidFs twoGroupsFs := by
  refine ⟨⟨0, by decide, rfl⟩, by decide, fun g hg g' hg' hne i hi i' hi' ↦ ?_,
    fun g hg i hi hclear ↦ ?_⟩
  · have hdiv : i / 8192 = 0 := Nat.div_eq_of_lt hi
    have hdiv' : i' / 8192 = 0 := Nat.div_eq_of_lt hi'
    change _ + i / 8192 ≠ _ + i' / 8192
    rw [hdiv, hdiv']
    have hgroups : ∀ g < 2, ∀ g' < 2, g ≠ g' →
        (groupDesc twoGroupsFs g).blockUsageBitmapAddr.toNat + 0 ≠
          (groupDesc twoGroupsFs g').blockUsageBitmapAddr.toNat + 0 := by decide
    exact hgroups g hg g' hg' hne
  · obtain ⟨rfl, rfl⟩ := twoGroupsFs_clear hg hi hclear
    decide

theorem ext2AllocBlock_allocates_0 : Allocates twoGroupsFs 0 :=
  ((ext2AllocBlock_allocates_iff twoGroupsFs twoGroupsFs_valid).1 0 (by decide)).mpr
    ⟨by decide, by decide, by decide, 5, by decide, rfl⟩

/-- No block is found for group 1, although group 0 has one. -/
theorem ext2AllocBlock_allocates_fails : ¬ Allocates twoGroupsFs 1 := by
  intro h
  have hfull : Full twoGroupsFs := h.2
  exact absurd (hfull 0 (by decide) 5 (by decide)) (by decide)

end Brutal.Fs
