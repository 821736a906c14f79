import Brutal.Fs.BlockList

/-!
# Inserting a block into an inode

`ext2_inode_insert_block` writes the pointers that `ext2_inode_get_blocks` reads.  Its recursion
ends one level too late, in the block of the data, and does not reduce the index from one table to
the next, so that only the twelve direct pointers are set.
-/

namespace Brutal.Fs

open Lib RadixTree

/-- If the insertion succeeds, the entry with the index is the new block, in every list that has
one, there is a list that has one, and every other entry that was there stays; and the insertion
does not touch memory outside of a table. -/
def InsertsAt (fs : Ext2Fs) (inode : Ext2FsInode) (idx : ℕ) (block : UInt32) : Prop :=
  match ext2InodeInsertBlock fs inode block idx with
  | .error _ => False
  | .ok (.error _, _) => True
  | .ok (.ok (), fs', inode') =>
    (∃ count reading, ext2InodeGetBlocks fs' inode' count = .ok reading ∧
      reading.result[idx]? = some block) ∧
    ∀ count reading', ext2InodeGetBlocks fs' inode' count = .ok reading' →
      (∀ entry, reading'.result[idx]? = some entry → entry = block) ∧
        ∀ reading, ext2InodeGetBlocks fs inode count = .ok reading →
          ∀ k ≠ idx, ∀ entry ≠ 0, reading.result[k]? = some entry →
            reading'.result[k]? = some entry

variable {fs fs' : Ext2Fs} {inode inode' : Ext2FsInode} {idx count : ℕ} {block : UInt32}

theorem InsertsAt.exists_entry (h : InsertsAt fs inode idx block)
    (hinsert : ext2InodeInsertBlock fs inode block idx = .ok (.ok (), fs', inode')) :
    ∃ count reading, ext2InodeGetBlocks fs' inode' count = .ok reading ∧
      reading.result[idx]? = some block := by
  rw [InsertsAt, hinsert] at h
  exact h.1

theorem InsertsAt.entry_eq (h : InsertsAt fs inode idx block)
    (hinsert : ext2InodeInsertBlock fs inode block idx = .ok (.ok (), fs', inode'))
    {reading : Reading} (hget : ext2InodeGetBlocks fs' inode' count = .ok reading) {entry : UInt32}
    (hentry : reading.result[idx]? = some entry) : entry = block := by
  rw [InsertsAt, hinsert] at h
  exact (h.2 count reading hget).1 entry hentry

/-- Behind the direct pointers the list does not depend on them. -/
theorem getBlocks_tail (hp : 0 < entryPerBlock fs) (hsquare : entryPerBlock fs ^ 2 < 2 ^ 32)
    (inode : Ext2FsInode) (count : ℕ) :
    ∃ rest tables, (count ≤ 12 → rest = []) ∧ ∀ blocksPtr : ℕ → UInt32,
      ext2InodeGetBlocks fs { inode with blocksPtr } count =
        if min 12 count + rest.length ≤ 2 ^ 28 then
          .ok ⟨(List.range (min 12 count)).map blocksPtr ++ rest, tables⟩
        else .error .overflow := by
  by_cases hdirect : count < 12
  · refine ⟨[], [], fun _ ↦ rfl, fun blocksPtr ↦ ?_⟩
    rw [getBlocks_direct hdirect, Nat.min_eq_right (Nat.le_of_lt hdirect), List.append_nil,
      if_pos (by rw [List.length_nil]; omega)]
  let leaves := fun height m ptr ↦ readLeaves (entryOf fs) (entryPerBlock fs) m height ptr
  let nodes := fun height m ptr ↦ readNodes (entryOf fs) (entryPerBlock fs) m height ptr
  let second := count - 12 - entryPerBlock fs
  let third := count - 12 - entryPerBlock fs - entryPerBlock fs ^ 2
  have hmin : min 12 count = 12 := Nat.min_eq_left (Nat.le_of_not_lt hdirect)
  rw [hmin]
  by_cases hsingle : count < 12 + entryPerBlock fs
  · refine ⟨leaves 1 (count - 12) inode.singleIndirectBlockPtr,
      nodes 1 (count - 12) inode.singleIndirectBlockPtr, fun hcount ↦ ?_,
      fun blocksPtr ↦ getBlocks_single hp (Nat.le_of_not_lt hdirect) hsingle⟩
    have hzero : count - 12 = 0 := by omega
    rw [← List.length_eq_zero_iff, hzero, length_readLeaves, readCount, kids, Nat.pow_zero]
    simp
  by_cases hdouble : count < 12 + entryPerBlock fs + entryPerBlock fs ^ 2
  · exact ⟨leaves 1 (count - 12) inode.singleIndirectBlockPtr ++
        leaves 2 second inode.doubleIndirectBlockPtr,
      nodes 1 (count - 12) inode.singleIndirectBlockPtr ++
        nodes 2 second inode.doubleIndirectBlockPtr, fun hcount ↦ by omega,
      fun blocksPtr ↦ getBlocks_double hp hsquare (Nat.le_of_not_lt hsingle) hdouble⟩
  · exact ⟨leaves 1 (count - 12) inode.singleIndirectBlockPtr ++
        (leaves 2 second inode.doubleIndirectBlockPtr ++
          leaves 3 third inode.tripleIndirectBlockPtr),
      nodes 1 (count - 12) inode.singleIndirectBlockPtr ++
        (nodes 2 second inode.doubleIndirectBlockPtr ++
          nodes 3 third inode.tripleIndirectBlockPtr), fun hcount ↦ by omega,
      fun blocksPtr ↦ getBlocks_triple hp hsquare (Nat.le_of_not_lt hdouble)⟩

theorem getElem?_direct (blocksPtr : ℕ → UInt32) (rest : List UInt32) (n k : ℕ) :
    ((List.range n).map blocksPtr ++ rest)[k]? =
      if k < n then some (blocksPtr k) else rest[k - n]? := by
  rw [List.getElem?_append, List.length_map, List.length_range]
  split
  · next hk => rw [List.getElem?_map, List.getElem?_range hk]; rfl
  · rfl

/-- A direct pointer is set, and nothing else changes. -/
theorem insertsAt_direct (hp : 0 < entryPerBlock fs) (hsquare : entryPerBlock fs ^ 2 < 2 ^ 32)
    (hidx : idx < 12) : InsertsAt fs inode idx block := by
  have hinsert : ext2InodeInsertBlock fs inode block idx =
      .ok (.ok (), fs, { inode with blocksPtr := Function.update inode.blocksPtr idx block }) := by
    rw [ext2InodeInsertBlock]
    dsimp only
    rw [if_pos hidx]
    rfl
  rw [InsertsAt, hinsert]
  refine ⟨?_, fun count reading' hget' ↦ ?_⟩
  · obtain ⟨rest, tables, hrest, hall⟩ := getBlocks_tail hp hsquare inode 12
    refine ⟨12, _, (hall _).trans (if_pos ?_), ?_⟩
    · rw [hrest (Nat.le_refl 12)]
      decide
    · dsimp only
      rw [getElem?_direct, Nat.min_self, if_pos hidx, Function.update_self]
  · obtain ⟨rest, tables, hrest, hall⟩ := getBlocks_tail hp hsquare inode count
    rw [hall] at hget'
    obtain ⟨-, rfl⟩ := ite_eq_ok hget'
    dsimp only
    rw [getElem?_direct]
    refine ⟨fun entry hentry ↦ ?_, fun reading hget k hk entry _ hentry ↦ ?_⟩
    · split at hentry
      · rw [Function.update_self] at hentry
        exact (Option.some.inj hentry).symm
      · rw [hrest (by omega)] at hentry
        cases hentry
    · have hgetSame := hall inode.blocksPtr
      rw [show { inode with blocksPtr := inode.blocksPtr } = inode from rfl, hget] at hgetSame
      obtain ⟨-, rfl⟩ := ite_eq_ok hgetSame.symm
      dsimp only at hentry
      rw [getElem?_direct] at hentry ⊢
      rwa [Function.update_of_ne hk]

/-- All pointers below a pointer are the same at each height, and the data is in the block `data`,
which is no table. -/
def LeadsTo (fs : Ext2Fs) (data : UInt32) : ℕ → UInt32 → Prop
  | 0, ptr => ptr = data
  | height + 1, ptr =>
    ptr ≠ data ∧ ∃ next, next ≠ 0 ∧ (∀ i, entryOf fs ptr i = next) ∧ LeadsTo fs data height next

variable {data ptr : UInt32} {height : ℕ}

theorem toNat_ne {a b : UInt32} (h : a ≠ b) : a.toNat ≠ b.toNat :=
  fun heq ↦ h (UInt32.toNat_inj.mp heq)

theorem LeadsTo.congr (h : LeadsTo fs data height ptr)
    (hsame : ∀ block : UInt32, block ≠ data → fs'.tables block.toNat = fs.tables block.toNat) :
    LeadsTo fs' data height ptr := by
  induction height generalizing ptr with
  | zero => exact h
  | succ height ih =>
    obtain ⟨hptr, next, hnext, hentries, hbelow⟩ := h
    refine ⟨hptr, next, hnext, fun i ↦ ?_, ih hbelow⟩
    rw [← hentries i, entryOf, entryOf, hsame ptr hptr]

/-- What is read below a table is the data block. -/
theorem LeadsTo.readLeaves (h : LeadsTo fs data height ptr) (p m : ℕ) :
    ∀ entry ∈ readLeaves (entryOf fs) p m height ptr, entry = data := by
  induction height generalizing ptr with
  | zero =>
    intro entry hmem
    exact (List.mem_singleton.mp hmem).trans h
  | succ height ih =>
    obtain ⟨-, next, -, hentries, hbelow⟩ := h
    intro entry hmem
    obtain ⟨k, -, hchild⟩ := List.mem_flatMap.mp hmem
    rw [hentries k] at hchild
    exact ih hbelow entry hchild

/-- The insertion leaves a table, or it writes into the data block only. -/
theorem LeadsTo.push (h : LeadsTo fs data height ptr) (inode : Ext2FsInode) (block : UInt32)
    (idx : ℕ) :
    ext2InodePushBlockRec inode block height fs ptr idx = .error .outOfBounds ∨
      ∃ fs', ext2InodePushBlockRec inode block height fs ptr idx = .ok (.ok (), fs') ∧
        fs'.blockSize = fs.blockSize ∧
          ∀ other : UInt32, other ≠ data → fs'.tables other.toNat = fs.tables other.toNat := by
  induction height generalizing ptr with
  | zero =>
    rw [ext2InodePushBlockRec]
    split
    · refine Or.inr ⟨_, rfl, rfl, fun other hother ↦ ?_⟩
      rw [show ptr = data from h]
      exact Function.update_of_ne (toNat_ne hother) ..
    · exact Or.inl rfl
  | succ height ih =>
    obtain ⟨hptr, next, hnext, hentries, hbelow⟩ := h
    rw [ext2InodePushBlockRec]
    dsimp only
    split
    next hlt =>
      have hentry : fs.tables ptr.toNat
          (idx / getEntryInIndirectBlock (entryPerBlock fs) height) = next := hentries _
      rw [followPointer, hentry, if_neg hnext, ok_bind]
      dsimp only
      rcases ih hbelow with hfault | ⟨fs', hok, hsize, hsame⟩
      · rw [hfault]
        exact Or.inl rfl
      · rw [hok, ok_bind]
        refine Or.inr ⟨_, rfl, hsize, fun other hother ↦ ?_⟩
        rw [releaseTable]
        dsimp only
        by_cases heq : other = ptr
        · rw [heq, Function.update_self, ← hentry, Function.update_eq_self]
        · rw [Function.update_of_ne (toNat_ne heq), hsame other hother]
    next => exact Or.inl rfl

/-- An inode with one table at each height, all of whose pointers lead to the data block 5. -/
def oneBlockFs (blockSize : ℕ) : Ext2Fs where
  superBlock := ⟨65536, 8192, 2048⟩
  blockSize := blockSize
  groupDescTableBlock := 2
  tables := fun block _ ↦
    if block = 2000 then 2001 else if block = 3000 then 3001 else if block = 3001 then 3002 else 5
  descs := fun _ _ ↦ ⟨3, 4, 5, 0, 0, 0⟩
  bitmaps := fun _ _ ↦ true

def oneBlockInode : Ext2FsInode := ⟨11, fun _ ↦ 5, 1000, 2000, 3000⟩

theorem oneBlock_leadsTo (blockSize : ℕ) :
    LeadsTo (oneBlockFs blockSize) 5 1 1000 ∧ LeadsTo (oneBlockFs blockSize) 5 2 2000 ∧
      LeadsTo (oneBlockFs blockSize) 5 3 3000 := by
  refine ⟨⟨by decide, 5, by decide, fun _ ↦ rfl, rfl⟩,
    ⟨by decide, 2001, by decide, fun _ ↦ rfl, by decide, 5, by decide, fun _ ↦ rfl, rfl⟩,
    ⟨by decide, 3001, by decide, fun _ ↦ rfl, by decide, 3002, by decide, fun _ ↦ rfl, by decide, 5,
      by decide, fun _ ↦ rfl, rfl⟩⟩

theorem oneBlock_valid {blockSize : ℕ} (hsize : ∃ j ≤ 6, blockSize = 1024 * 2 ^ j) :
    ValidInode (oneBlockFs blockSize) oneBlockInode := by
  refine ⟨hsize, fun _ ↦ by decide, fun _ ↦ ⟨by decide, by decide, fun k _ _ ↦ ?_⟩⟩
  change (2001 : UInt32) ≠ 3000
  decide

/-- All entries of the lists of such an inode are the data block. -/
theorem oneBlock_entries {blockSize : ℕ} (hp : 0 < entryPerBlock fs)
    (hsquare : entryPerBlock fs ^ 2 < 2 ^ 32)
    (hsame : ∀ other : UInt32, other ≠ 5 →
      fs.tables other.toNat = (oneBlockFs blockSize).tables other.toNat) {reading : Reading}
    (hget : ext2InodeGetBlocks fs oneBlockInode count = .ok reading) :
    ∀ entry ∈ reading.result, entry = 5 := by
  obtain ⟨hsingle, hdouble, htriple⟩ := oneBlock_leadsTo blockSize
  have hleaves := (hsingle.congr hsame).readLeaves (entryPerBlock fs)
  have hleaves' := (hdouble.congr hsame).readLeaves (entryPerBlock fs)
  have hleaves'' := (htriple.congr hsame).readLeaves (entryPerBlock fs)
  have hdirect : ∀ n, ∀ entry ∈ (List.range n).map oneBlockInode.blocksPtr, entry = 5 := by
    intro n entry hmem
    obtain ⟨k, -, rfl⟩ := List.mem_map.mp hmem
    rfl
  by_cases hcount : count < 12
  · rw [getBlocks_direct hcount] at hget
    cases hget
    exact hdirect count
  by_cases hcount' : count < 12 + entryPerBlock fs
  · rw [getBlocks_single hp (Nat.le_of_not_lt hcount) hcount'] at hget
    obtain ⟨-, rfl⟩ := ite_eq_ok hget
    exact List.forall_mem_append.mpr ⟨hdirect 12, hleaves _⟩
  by_cases hcount'' : count < 12 + entryPerBlock fs + entryPerBlock fs ^ 2
  · rw [getBlocks_double hp hsquare (Nat.le_of_not_lt hcount') hcount''] at hget
    obtain ⟨-, rfl⟩ := ite_eq_ok hget
    exact List.forall_mem_append.mpr
      ⟨hdirect 12, List.forall_mem_append.mpr ⟨hleaves _, hleaves' _⟩⟩
  · rw [getBlocks_triple hp hsquare (Nat.le_of_not_lt hcount'')] at hget
    obtain ⟨-, rfl⟩ := ite_eq_ok hget
    exact List.forall_mem_append.mpr ⟨hdirect 12, List.forall_mem_append.mpr ⟨hleaves _,
      List.forall_mem_append.mpr ⟨hleaves' _, hleaves'' _⟩⟩⟩

/-- Behind the direct pointers the insertion goes on in the table of one level. -/
theorem insertBlock_level (fs : Ext2Fs) (inode : Ext2FsInode) (block : UInt32) (hidx : 12 ≤ idx)
    (hmax : idx < 12 + entryPerBlock fs + entryPerBlock fs ^ 2 + entryPerBlock fs ^ 3) :
    ∃ height ptr i, (height = 1 ∧ ptr = inode.singleIndirectBlockPtr ∨
        height = 2 ∧ ptr = inode.doubleIndirectBlockPtr ∨
          height = 3 ∧ ptr = inode.tripleIndirectBlockPtr) ∧
      ext2InodeInsertBlock fs inode block idx =
        ext2InodePushBlockRec inode block height fs ptr i >>=
          fun pushed ↦ pure (pushed.1, pushed.2, inode) := by
  have hnot : ¬ idx < 12 := Nat.not_lt.mpr hidx
  rw [Nat.pow_succ _ 2, Nat.pow_two] at hmax
  by_cases hsingle : idx - 12 < entryPerBlock fs
  · refine ⟨1, _, idx - 12, Or.inl ⟨rfl, rfl⟩, ?_⟩
    simp only [ext2InodeInsertBlock, if_neg hnot, if_pos hsingle]
  by_cases hdouble : idx - 12 - entryPerBlock fs < entryPerBlock fs * entryPerBlock fs
  · refine ⟨2, _, idx - 12 - entryPerBlock fs, Or.inr (Or.inl ⟨rfl, rfl⟩), ?_⟩
    simp only [ext2InodeInsertBlock, if_neg hnot, if_neg hsingle, if_pos hdouble]
  · have htriple : idx - 12 - entryPerBlock fs - entryPerBlock fs * entryPerBlock fs <
        entryPerBlock fs * entryPerBlock fs * entryPerBlock fs := by omega
    refine ⟨3, _, idx - 12 - entryPerBlock fs - entryPerBlock fs * entryPerBlock fs,
      Or.inr (Or.inr ⟨rfl, rfl⟩), ?_⟩
    simp only [ext2InodeInsertBlock, if_neg hnot, if_neg hsingle, if_neg hdouble, if_pos htriple]

/-- Such an insertion leaves a table, or it changes the data block only. -/
theorem oneBlock_insert {blockSize : ℕ} (hidx : 12 ≤ idx)
    (hmax : idx < 12 + blockSize / 4 + (blockSize / 4) ^ 2 + (blockSize / 4) ^ 3)
    (block : UInt32) :
    ext2InodeInsertBlock (oneBlockFs blockSize) oneBlockInode block idx = .error .outOfBounds ∨
      ∃ fs', ext2InodeInsertBlock (oneBlockFs blockSize) oneBlockInode block idx =
          .ok (.ok (), fs', oneBlockInode) ∧ fs'.blockSize = blockSize ∧
        ∀ other : UInt32, other ≠ 5 →
          fs'.tables other.toNat = (oneBlockFs blockSize).tables other.toNat := by
  obtain ⟨hsingle, hdouble, htriple⟩ := oneBlock_leadsTo blockSize
  obtain ⟨height, ptr, i, hlevel, hinsert⟩ :=
    insertBlock_level (oneBlockFs blockSize) oneBlockInode block hidx hmax
  have hleads : LeadsTo (oneBlockFs blockSize) 5 height ptr := by
    rcases hlevel with ⟨rfl, rfl⟩ | ⟨rfl, rfl⟩ | ⟨rfl, rfl⟩
    · exact hsingle
    · exact hdouble
    · exact htriple
  rw [hinsert]
  rcases hleads.push oneBlockInode block i with hfault | ⟨fs', hok, hsize, hsame⟩
  · rw [hfault]
    exact Or.inl rfl
  · rw [hok]
    exact Or.inr ⟨fs', rfl, hsize, hsame⟩

/-- The insertion is right for every inode exactly at the indices of the direct pointers. -/
theorem ext2InodeInsertBlock_insertsAt_iff (blockSize idx : ℕ)
    (hsize : ∃ j ≤ 6, blockSize = 1024 * 2 ^ j)
    (hmax : idx < 12 + blockSize / 4 + (blockSize / 4) ^ 2 + (blockSize / 4) ^ 3) :
    (∀ fs inode block, fs.blockSize = blockSize → ValidInode fs inode →
      InsertsAt fs inode idx block) ↔ idx < 12 := by
  constructor
  · intro h
    by_contra hidx
    have hinserts := h (oneBlockFs blockSize) oneBlockInode 9 rfl (oneBlock_valid hsize)
    obtain ⟨hp, hentries⟩ := (oneBlock_valid hsize).entries
    have hsquare : entryPerBlock (oneBlockFs blockSize) ^ 2 < 2 ^ 32 :=
      Nat.lt_of_le_of_lt (Nat.pow_le_pow_left hentries 2) (by decide)
    rcases oneBlock_insert (Nat.le_of_not_lt hidx) hmax 9 with hfault | ⟨fs', hok, hsame, htables⟩
    · rw [InsertsAt, hfault] at hinserts
      exact hinserts
    · have hentry : entryPerBlock fs' = entryPerBlock (oneBlockFs blockSize) := by
        rw [entryPerBlock, hsame]
        rfl
      obtain ⟨count, reading, hget, hread⟩ := hinserts.exists_entry hok
      have hfive := oneBlock_entries (hentry ▸ hp) (hentry ▸ hsquare) htables hget 9
        (List.mem_of_getElem? hread)
      exact absurd hfive (by decide)
  · intro hidx fs inode block _ hvalid
    obtain ⟨hp, hentries⟩ := hvalid.entries
    exact insertsAt_direct hp
      (Nat.lt_of_le_of_lt (Nat.pow_le_pow_left hentries 2) (by decide)) hidx

theorem ext2InodeInsertBlock_insertsAt_5 : InsertsAt sampleFs sampleInode 5 9 :=
  (ext2InodeInsertBlock_insertsAt_iff 1024 5 ⟨0, by decide, rfl⟩ (by decide)).mpr (by decide)
    sampleFs sampleInode 9 rfl sampleInode_valid

/-- The first pointer of the first table is still 1001 after block 9 was inserted there, and the
second pointer of the second table is followed into a table that is too short. -/
theorem ext2InodeInsertBlock_insertsAt_fails :
    ¬ InsertsAt sampleFs sampleInode 12 9 ∧ ¬ InsertsAt sampleFs sampleInode 524 9 := by
  constructor
  · intro h
    have heq : (1001 : UInt32) = 9 :=
      @InsertsAt.entry_eq _ _ _ _ _ 13 _ h rfl _ rfl _ rfl
    exact absurd heq (by decide)
  · intro h
    exact h

end Brutal.Fs
