import Brutal.Fs.Ext2
import Brutal.Lib.Outcome
import Brutal.Lib.RadixTree

/-!
# The list of the blocks of an inode

`ext2_inode_get_blocks` goes down the tables of an inode with the number of blocks that are left at
each level.  The number is rounded up at every height of a table and a level is also entered when
no block is left for it, so the list is exact only for some numbers of blocks.
-/

namespace Brutal.Fs

open Lib RadixTree

section Scheme

variable (fs : Ext2Fs) (inode : Ext2FsInode)

/-- The pointer in a table. -/
def entryOf (table : UInt32) (i : ℕ) : UInt32 := fs.tables table.toNat i

/-- The level at which a block of the file stands, the pointer to the table of that level, and the
number of the block in the level. -/
def place (k : ℕ) : ℕ × UInt32 × ℕ :=
  let p := entryPerBlock fs
  if k < 12 then (0, inode.blocksPtr k, 0)
  else if k < 12 + p then (1, inode.singleIndirectBlockPtr, k - 12)
  else if k < 12 + p + p ^ 2 then (2, inode.doubleIndirectBlockPtr, k - 12 - p)
  else (3, inode.tripleIndirectBlockPtr, k - 12 - p - p ^ 2)

/-- The block with a number below a pointer; no block is below the pointer 0. -/
def blockBelow : ℕ → UInt32 → ℕ → UInt32
  | 0, ptr, _ => ptr
  | depth + 1, ptr, i =>
    if ptr = 0 then 0
    else blockBelow depth (entryOf fs ptr (i / entryPerBlock fs ^ depth))
      (i % entryPerBlock fs ^ depth)

/-- The tables on the way to the block with a number below a pointer. -/
def tablesBelow : ℕ → UInt32 → ℕ → List UInt32
  | 0, _, _ => []
  | depth + 1, ptr, i =>
    if ptr = 0 then []
    else ptr :: tablesBelow depth (entryOf fs ptr (i / entryPerBlock fs ^ depth))
      (i % entryPerBlock fs ^ depth)

/-- The block that ext2 assigns to a block of the file. -/
def fileBlock (k : ℕ) : UInt32 :=
  let (depth, ptr, i) := place fs inode k
  blockBelow fs depth ptr i

/-- The tables that are needed for a block of the file. -/
def fileTables (k : ℕ) : List UInt32 :=
  let (depth, ptr, i) := place fs inode k
  tablesBelow fs depth ptr i

/-- The pointers on the way to a block of the file, whether there are tables or not. -/
def filePath (k : ℕ) : List UInt32 :=
  let (depth, ptr, i) := place fs inode k
  pathTo (entryOf fs) (entryPerBlock fs) depth ptr i

/-- The list has one entry for each block, the one that ext2 assigns to it, and no table was
acquired that none of the blocks needs. -/
def ExactList (count : ℕ) : Prop :=
  ∃ reading, ext2InodeGetBlocks fs inode count = .ok reading ∧
    reading.result = (List.range count).map (fileBlock fs inode) ∧
      ∀ table ∈ reading.acquired, ∃ k < count, table ∈ fileTables fs inode k

/-- A block of 1 KiB to 64 KiB, and tables of the inode in different blocks. -/
structure ValidInode : Prop where
  blockSize : ∃ j ≤ 6, fs.blockSize = 1024 * 2 ^ j
  double_ne : inode.doubleIndirectBlockPtr ≠ 0 →
    inode.doubleIndirectBlockPtr ≠ inode.singleIndirectBlockPtr
  triple_ne : inode.tripleIndirectBlockPtr ≠ 0 →
    inode.tripleIndirectBlockPtr ≠ inode.singleIndirectBlockPtr ∧
      inode.tripleIndirectBlockPtr ≠ inode.doubleIndirectBlockPtr ∧
        ∀ k < entryPerBlock fs, inode.doubleIndirectBlockPtr ≠ 0 →
          entryOf fs inode.doubleIndirectBlockPtr k ≠ inode.tripleIndirectBlockPtr

/-- The numbers of blocks that end inside a level and fill subtrees of one size there. -/
def ExactCount (p count : ℕ) : Prop :=
  count < 12 ∨ (12 < count ∧ count < 12 + p) ∨
    (12 + p < count ∧ count < 12 + p + p ^ 2 ∧ EvenlyFilled p 2 (count - 12 - p)) ∨
      (12 + p + p ^ 2 < count ∧ EvenlyFilled p 3 (count - 12 - p - p ^ 2))

instance (p count : ℕ) : Decidable (ExactCount p count) :=
  inferInstanceAs (Decidable (_ ∨ _))

end Scheme

variable {fs : Ext2Fs} {inode : Ext2FsInode} {count p : ℕ}

theorem ValidInode.entries (h : ValidInode fs inode) :
    0 < entryPerBlock fs ∧ entryPerBlock fs ≤ 2 ^ 14 := by
  obtain ⟨j, hj, hsize⟩ := h.blockSize
  have hpow : 2 ^ j ≤ 2 ^ 6 := Nat.pow_le_pow_right (by decide) hj
  have hpos : 0 < 2 ^ j := Nat.pow_pos (by decide)
  rw [entryPerBlock, hsize]
  omega

/-- A computation that adds blocks to the list and tables to the acquired ones, as long as the
array of the list can grow. -/
def Reads (body : Reading → Except Fault Reading) (blocks tables : List UInt32) : Prop :=
  ∀ reading : Reading, reading.result.length ≤ 2 ^ 28 → body reading =
    if reading.result.length + blocks.length ≤ 2 ^ 28 then
      .ok ⟨reading.result ++ blocks, reading.acquired ++ tables⟩
    else .error .overflow

theorem Reads.done : Reads pure [] [] := by
  intro reading hfits
  rw [List.length_nil, Nat.add_zero, if_pos hfits, List.append_nil, List.append_nil]
  rfl

theorem Reads.bind {first second : Reading → Except Fault Reading}
    {blocks blocks' tables tables' : List UInt32} (h : Reads first blocks tables)
    (h' : Reads second blocks' tables') :
    Reads (fun reading ↦ first reading >>= second) (blocks ++ blocks') (tables ++ tables') := by
  intro reading hfits
  dsimp only
  rw [h reading hfits, List.length_append]
  by_cases hroom : reading.result.length + blocks.length ≤ 2 ^ 28
  · rw [if_pos hroom, ok_bind, h' _ (by rw [List.length_append]; exact hroom), List.length_append,
      List.append_assoc, List.append_assoc, Nat.add_assoc]
  · rw [if_neg hroom, if_neg (by omega)]
    rfl

theorem Reads.foldlM {body : Reading → ℕ → Except Fault Reading} {blocks tables : ℕ → List UInt32}
    (hbody : ∀ i, Reads (fun reading ↦ body reading i) (blocks i) (tables i)) (items : List ℕ) :
    Reads (fun reading ↦ items.foldlM body reading) (items.flatMap blocks)
      (items.flatMap tables) := by
  induction items with
  | nil => exact Reads.done
  | cons item rest ih =>
    rw [List.flatMap_cons, List.flatMap_cons]
    simp only [List.foldlM_cons]
    exact (hbody item).bind ih

theorem reads_vecPush (block : UInt32) :
    Reads (fun reading ↦ vecPush reading block) [block] [] := by
  intro reading _
  dsimp only
  rw [vecPush, List.append_nil]
  rfl

theorem stop_div (hp : 0 < p) (m height : ℕ) :
    (min (alignUp m (p ^ height)) (p ^ (height + 1)) + p ^ height - 1) / p ^ height =
      kids p m height := by
  have hpos : 0 < p ^ height := Nat.pow_pos hp
  have hmin : min (alignUp m (p ^ height)) (p ^ (height + 1)) = kids p m height * p ^ height := by
    rw [alignUp, kids, Nat.pow_succ, Nat.mul_comm (p ^ height) p, Nat.mul_min_mul_right]
  rw [hmin, Nat.add_sub_assoc hpos, Nat.mul_comm, Nat.mul_add_div hpos,
    Nat.div_eq_of_lt (Nat.sub_lt hpos Nat.zero_lt_one), Nat.add_zero]

/-- The values of a counter that starts at 0 and goes on by steps. -/
theorem range'_eq_map_mul (rounds step : ℕ) :
    List.range' 0 rounds step = (List.range rounds).map (step * ·) := by
  apply List.ext_getElem
  · rw [List.length_range', List.length_map, List.length_range]
  · intro i _ _
    rw [List.getElem_range', List.getElem_map, List.getElem_range, Nat.zero_add]

/-- A call reads the leaves of the tree below a pointer, rounded up at every height. -/
theorem reads_indirect (hp : 0 < entryPerBlock fs) (m height : ℕ) (ptr : UInt32) :
    Reads (ext2InodeReadIndirectBlockRecursive fs m height ptr)
      (readLeaves (entryOf fs) (entryPerBlock fs) m height ptr)
      (readNodes (entryOf fs) (entryPerBlock fs) m height ptr) := by
  induction height generalizing ptr with
  | zero => exact reads_vecPush ptr
  | succ height ih =>
    intro reading hfits
    have hpos : 0 < entryPerBlock fs ^ height := Nat.pow_pos hp
    have hchild :
        entryPerBlock fs ^ (height + 1) / entryPerBlock fs = entryPerBlock fs ^ height := by
      rw [Nat.pow_succ, Nat.mul_div_cancel _ hp]
    have hindex : ∀ k, entryPerBlock fs ^ height * k / entryPerBlock fs ^ height = k :=
      fun k ↦ Nat.mul_div_cancel_left k hpos
    rw [ext2InodeReadIndirectBlockRecursive]
    dsimp only [getEntryInIndirectBlock]
    rw [hchild, stop_div hp, range'_eq_map_mul, List.foldlM_map]
    simp only [hindex]
    have hloop := Reads.foldlM (fun k ↦ ih (entryOf fs ptr k))
      (List.range (kids (entryPerBlock fs) m height)) ⟨reading.result, reading.acquired ++ [ptr]⟩
      hfits
    rw [readLeaves, readNodes]
    refine hloop.trans ?_
    rw [List.append_assoc, List.singleton_append]

theorem reads_direct (inode : Ext2FsInode) (n : ℕ) :
    Reads (fun reading ↦ (List.range n).foldlM
      (fun reading i ↦ vecPush reading (inode.blocksPtr i)) reading)
      ((List.range n).map inode.blocksPtr) [] := by
  have hloop := Reads.foldlM (fun i ↦ reads_vecPush (inode.blocksPtr i)) (List.range n)
  have hnone : (List.range n).flatMap (fun _ ↦ ([] : List UInt32)) = [] := by simp
  rwa [← List.map_eq_flatMap, hnone] at hloop

/-- The leaf below the pointer of a block of the file, whether its tables are there or not. -/
def fileLeaf (fs : Ext2Fs) (inode : Ext2FsInode) (k : ℕ) : UInt32 :=
  let (depth, ptr, i) := place fs inode k
  leafAt (entryOf fs) (entryPerBlock fs) depth ptr i

/-- The blocks are those of a range of the file, and the tables those on the way to them. -/
structure Covers (fs : Ext2Fs) (inode : Ext2FsInode) (base n : ℕ) (blocks tables : List UInt32) :
    Prop where
  blocks : blocks = (List.range n).map fun i ↦ fileLeaf fs inode (base + i)
  tables : ∀ table, table ∈ tables ↔ ∃ i < n, table ∈ filePath fs inode (base + i)

theorem Covers.append {base n n' : ℕ} {blocks blocks' tables tables' : List UInt32}
    (h : Covers fs inode base n blocks tables)
    (h' : Covers fs inode (base + n) n' blocks' tables') :
    Covers fs inode base (n + n') (blocks ++ blocks') (tables ++ tables') := by
  refine ⟨?_, fun table ↦ ?_⟩
  · rw [h.blocks, h'.blocks, List.range_add, List.map_append, List.map_map]
    simp only [Function.comp_def, Nat.add_assoc]
  · rw [List.mem_append, h.tables, h'.tables]
    constructor
    · rintro (⟨i, hi, hmem⟩ | ⟨i, hi, hmem⟩)
      · exact ⟨i, Nat.lt_add_right n' hi, hmem⟩
      · exact ⟨n + i, Nat.add_lt_add_left hi n, Nat.add_assoc base n i ▸ hmem⟩
    · rintro ⟨i, hi, hmem⟩
      by_cases hlt : i < n
      · exact Or.inl ⟨i, hlt, hmem⟩
      · refine Or.inr ⟨i - n, by omega, ?_⟩
        rwa [Nat.add_assoc, Nat.add_sub_cancel' (Nat.le_of_not_lt hlt)]

/-- A level that is read as a whole. -/
theorem covers_full (hp : 0 < entryPerBlock fs) {depth base m : ℕ} {ptr : UInt32}
    (hplace : ∀ i < entryPerBlock fs ^ depth, place fs inode (base + i) = (depth, ptr, i))
    (hm : entryPerBlock fs ^ depth ≤ m) :
    Covers fs inode base (entryPerBlock fs ^ depth)
      (readLeaves (entryOf fs) (entryPerBlock fs) m depth ptr)
      (readNodes (entryOf fs) (entryPerBlock fs) m depth ptr) := by
  refine ⟨?_, fun table ↦ ?_⟩
  · rw [readLeaves_full hp hm]
    apply List.map_congr_left
    intro i hi
    rw [fileLeaf, hplace i (List.mem_range.mp hi)]
  · rw [mem_readNodes_full hp hm]
    refine exists_congr fun i ↦ and_congr_right fun hi ↦ ?_
    rw [filePath, hplace i hi]

/-- A level of which an even part is read. -/
theorem covers_exact (hp : 0 < entryPerBlock fs) {depth base m : ℕ} {ptr : UInt32}
    (hplace : ∀ i < m, place fs inode (base + i) = (depth, ptr, i))
    (heven : EvenlyFilled (entryPerBlock fs) depth m) (hpos : 0 < m) :
    Covers fs inode base m (readLeaves (entryOf fs) (entryPerBlock fs) m depth ptr)
      (readNodes (entryOf fs) (entryPerBlock fs) m depth ptr) := by
  refine ⟨?_, fun table ↦ ?_⟩
  · rw [readLeaves_exact hp heven hpos]
    apply List.map_congr_left
    intro i hi
    rw [fileLeaf, hplace i (List.mem_range.mp hi)]
  · rw [mem_readNodes_exact hp heven hpos]
    refine exists_congr fun i ↦ and_congr_right fun hi ↦ ?_
    rw [filePath, hplace i hi]

theorem place_direct {k : ℕ} (hk : k < 12) : place fs inode k = (0, inode.blocksPtr k, 0) :=
  if_pos hk

theorem place_single {i : ℕ} (hi : i < entryPerBlock fs) :
    place fs inode (12 + i) = (1, inode.singleIndirectBlockPtr, i) := by
  rw [place, if_neg (by omega), if_pos (by omega), Nat.add_sub_cancel_left]

theorem place_double {i : ℕ} (hi : i < entryPerBlock fs ^ 2) :
    place fs inode (12 + entryPerBlock fs + i) = (2, inode.doubleIndirectBlockPtr, i) := by
  rw [place, if_neg (by omega), if_neg (by omega), if_pos (by omega), Nat.sub_sub,
    Nat.add_sub_cancel_left]

theorem place_triple (i : ℕ) :
    place fs inode (12 + entryPerBlock fs + entryPerBlock fs ^ 2 + i) =
      (3, inode.tripleIndirectBlockPtr, i) := by
  have hi : 12 + entryPerBlock fs + entryPerBlock fs ^ 2 + i - 12 - entryPerBlock fs -
      entryPerBlock fs ^ 2 = i := by omega
  rw [place, if_neg (by omega), if_neg (by omega), if_neg (by omega), hi]

theorem covers_direct {n : ℕ} (hn : n ≤ 12) :
    Covers fs inode 0 n ((List.range n).map inode.blocksPtr) [] := by
  refine ⟨?_, fun table ↦ ?_⟩
  · apply List.map_congr_left
    intro i hi
    rw [fileLeaf, Nat.zero_add, place_direct (Nat.lt_of_lt_of_le (List.mem_range.mp hi) hn)]
    rfl
  · refine iff_of_false List.not_mem_nil ?_
    rintro ⟨i, hi, hmem⟩
    rw [filePath, Nat.zero_add, place_direct (Nat.lt_of_lt_of_le hi hn)] at hmem
    exact List.not_mem_nil hmem

/-! ## The levels that are entered -/

theorem reads_getBlocks {body : Reading → Except Fault Reading} {blocks tables : List UInt32}
    (h : Reads body blocks tables) (hdirect : 12 ≤ count) :
    ((List.range (min 12 count)).foldlM (fun reading i ↦ vecPush reading (inode.blocksPtr i))
        (⟨[], []⟩ : Reading) >>= body) =
      if 12 + blocks.length ≤ 2 ^ 28 then
        .ok ⟨(List.range 12).map inode.blocksPtr ++ blocks, tables⟩
      else .error .overflow := by
  have hall := (reads_direct inode 12).bind h ⟨[], []⟩ (by decide)
  dsimp only at hall
  rw [Nat.min_eq_left hdirect, hall]
  simp only [List.length_append, List.length_map, List.length_range, List.length_nil,
    Nat.zero_add, List.nil_append]

theorem getBlocks_direct (hcount : count < 12) :
    ext2InodeGetBlocks fs inode count = .ok ⟨(List.range count).map inode.blocksPtr, []⟩ := by
  have hreads := reads_direct inode count ⟨[], []⟩ (by decide)
  rw [ext2InodeGetBlocks]
  dsimp only at hreads ⊢
  rw [Nat.min_eq_right (Nat.le_of_lt hcount), hreads, if_pos, ok_bind, if_pos hcount]
  · rfl
  · rw [List.length_map, List.length_range, List.length_nil]
    omega

/-- What is read when blocks are left for the first level only, or none at all. -/
theorem getBlocks_single (hp : 0 < entryPerBlock fs) (hdirect : 12 ≤ count)
    (hcount : count < 12 + entryPerBlock fs) :
    ext2InodeGetBlocks fs inode count =
      let blocks := readLeaves (entryOf fs) (entryPerBlock fs) (count - 12) 1
        inode.singleIndirectBlockPtr
      let tables := readNodes (entryOf fs) (entryPerBlock fs) (count - 12) 1
        inode.singleIndirectBlockPtr
      if 12 + blocks.length ≤ 2 ^ 28 then
        .ok ⟨(List.range 12).map inode.blocksPtr ++ blocks, tables⟩
      else .error .overflow := by
  have hnot : ¬ count < 12 := Nat.not_lt.mpr hdirect
  have hfirst : count - 12 < entryPerBlock fs := by omega
  simp only [ext2InodeGetBlocks, if_neg hnot, if_pos hfirst, bind_pure]
  exact reads_getBlocks (reads_indirect hp _ _ _) hdirect

theorem getBlocks_double (hp : 0 < entryPerBlock fs) (hsquare : entryPerBlock fs ^ 2 < 2 ^ 32)
    (hsingle : 12 + entryPerBlock fs ≤ count)
    (hcount : count < 12 + entryPerBlock fs + entryPerBlock fs ^ 2) :
    ext2InodeGetBlocks fs inode count =
      let p := entryPerBlock fs
      let blocks := readLeaves (entryOf fs) p (count - 12) 1 inode.singleIndirectBlockPtr ++
        readLeaves (entryOf fs) p (count - 12 - p) 2 inode.doubleIndirectBlockPtr
      let tables := readNodes (entryOf fs) p (count - 12) 1 inode.singleIndirectBlockPtr ++
        readNodes (entryOf fs) p (count - 12 - p) 2 inode.doubleIndirectBlockPtr
      if 12 + blocks.length ≤ 2 ^ 28 then
        .ok ⟨(List.range 12).map inode.blocksPtr ++ blocks, tables⟩
      else .error .overflow := by
  have hnot : ¬ count < 12 := by omega
  have hfirst : ¬ count - 12 < entryPerBlock fs := by omega
  have hmod : entryPerBlock fs * entryPerBlock fs % 2 ^ 32 = entryPerBlock fs ^ 2 := by
    rw [← Nat.pow_two, Nat.mod_eq_of_lt hsquare]
  have hsecond : count - 12 - entryPerBlock fs < entryPerBlock fs ^ 2 := by omega
  simp only [ext2InodeGetBlocks, hmod, if_neg hnot, if_neg hfirst, if_pos hsecond, bind_pure]
  exact reads_getBlocks ((reads_indirect hp _ _ _).bind (reads_indirect hp _ _ _)) (by omega)

theorem getBlocks_triple (hp : 0 < entryPerBlock fs) (hsquare : entryPerBlock fs ^ 2 < 2 ^ 32)
    (hcount : 12 + entryPerBlock fs + entryPerBlock fs ^ 2 ≤ count) :
    ext2InodeGetBlocks fs inode count =
      let p := entryPerBlock fs
      let blocks := readLeaves (entryOf fs) p (count - 12) 1 inode.singleIndirectBlockPtr ++
        (readLeaves (entryOf fs) p (count - 12 - p) 2 inode.doubleIndirectBlockPtr ++
          readLeaves (entryOf fs) p (count - 12 - p - p ^ 2) 3 inode.tripleIndirectBlockPtr)
      let tables := readNodes (entryOf fs) p (count - 12) 1 inode.singleIndirectBlockPtr ++
        (readNodes (entryOf fs) p (count - 12 - p) 2 inode.doubleIndirectBlockPtr ++
          readNodes (entryOf fs) p (count - 12 - p - p ^ 2) 3 inode.tripleIndirectBlockPtr)
      if 12 + blocks.length ≤ 2 ^ 28 then
        .ok ⟨(List.range 12).map inode.blocksPtr ++ blocks, tables⟩
      else .error .overflow := by
  have hnot : ¬ count < 12 := by omega
  have hfirst : ¬ count - 12 < entryPerBlock fs := by omega
  have hmod : entryPerBlock fs * entryPerBlock fs % 2 ^ 32 = entryPerBlock fs ^ 2 := by
    rw [← Nat.pow_two, Nat.mod_eq_of_lt hsquare]
  have hsecond : ¬ count - 12 - entryPerBlock fs < entryPerBlock fs ^ 2 := by omega
  simp only [ext2InodeGetBlocks, hmod, if_neg hnot, if_neg hfirst, if_neg hsecond]
  exact reads_getBlocks ((reads_indirect hp _ _ _).bind
    ((reads_indirect hp _ _ _).bind (reads_indirect hp _ _ _))) (by omega)

theorem Covers.length {base n : ℕ} {blocks tables : List UInt32}
    (h : Covers fs inode base n blocks tables) : blocks.length = n := by
  rw [h.blocks, List.length_map, List.length_range]

theorem covers_single (hp : 0 < entryPerBlock fs) {m : ℕ} (hm : entryPerBlock fs ≤ m) :
    Covers fs inode 12 (entryPerBlock fs)
      (readLeaves (entryOf fs) (entryPerBlock fs) m 1 inode.singleIndirectBlockPtr)
      (readNodes (entryOf fs) (entryPerBlock fs) m 1 inode.singleIndirectBlockPtr) := by
  have hcovers := @covers_full fs inode hp 1 12 m inode.singleIndirectBlockPtr
  rw [Nat.pow_one] at hcovers
  exact hcovers (fun i hi ↦ place_single hi) hm

/-- For the exact numbers of blocks the list is that of the leaves, and exactly the tables on the
way to them are acquired. -/
theorem getBlocks_exact (hp : 0 < entryPerBlock fs) (hsquare : entryPerBlock fs ^ 2 < 2 ^ 32)
    (hexact : ExactCount (entryPerBlock fs) count) (hfits : count ≤ 2 ^ 28) :
    ∃ reading, ext2InodeGetBlocks fs inode count = .ok reading ∧
      Covers fs inode 0 count reading.result reading.acquired := by
  have hdirect : Covers fs inode 0 12 ((List.range 12).map inode.blocksPtr) [] :=
    covers_direct (Nat.le_refl 12)
  rcases hexact with hcount | ⟨hlow, hhigh⟩ | ⟨hlow, hhigh, heven⟩ | ⟨hlow, heven⟩
  · exact ⟨_, getBlocks_direct hcount, covers_direct (Nat.le_of_lt hcount)⟩
  · have heven : EvenlyFilled (entryPerBlock fs) 1 (count - 12) := by
      refine ⟨0, Nat.zero_lt_one, Nat.one_dvd _, ?_⟩
      rw [Nat.zero_add, Nat.pow_one]
      omega
    have hpart : Covers fs inode 12 (count - 12) _ _ :=
      covers_exact hp (fun i hi ↦ place_single (by omega)) heven (by omega)
    have hall := hdirect.append hpart
    rw [Nat.add_sub_cancel' (Nat.le_of_lt hlow)] at hall
    refine ⟨⟨_, _⟩, ?_, hall⟩
    rw [getBlocks_single hp (Nat.le_of_lt hlow) hhigh]
    dsimp only
    rw [if_pos (by rw [hpart.length]; omega)]
    rfl
  · have hpart : Covers fs inode (12 + entryPerBlock fs) (count - 12 - entryPerBlock fs) _ _ :=
      covers_exact hp (fun i hi ↦ place_double (by omega)) heven (by omega)
    have hlevels := (covers_single hp (by omega : entryPerBlock fs ≤ count - 12)).append hpart
    have hall := hdirect.append hlevels
    rw [show 12 + (entryPerBlock fs + (count - 12 - entryPerBlock fs)) = count by omega] at hall
    refine ⟨⟨_, _⟩, ?_, hall⟩
    rw [getBlocks_double hp hsquare (Nat.le_of_lt hlow) hhigh]
    dsimp only
    rw [if_pos (by rw [hlevels.length]; omega)]
    rfl
  · have hpart : Covers fs inode (12 + entryPerBlock fs + entryPerBlock fs ^ 2)
        (count - 12 - entryPerBlock fs - entryPerBlock fs ^ 2) _ _ :=
      covers_exact hp (fun i _ ↦ place_triple i) heven (by omega)
    have hsecond : Covers fs inode (12 + entryPerBlock fs) (entryPerBlock fs ^ 2) _ _ :=
      covers_full hp (fun i hi ↦ place_double hi)
        (by omega : entryPerBlock fs ^ 2 ≤ count - 12 - entryPerBlock fs)
    have hlevels := (covers_single hp (by omega : entryPerBlock fs ≤ count - 12)).append
      (hsecond.append hpart)
    have hall := hdirect.append hlevels
    rw [show 12 + (entryPerBlock fs + (entryPerBlock fs ^ 2 +
      (count - 12 - entryPerBlock fs - entryPerBlock fs ^ 2))) = count by omega] at hall
    refine ⟨⟨_, _⟩, ?_, hall⟩
    rw [getBlocks_triple hp hsquare (Nat.le_of_lt hlow)]
    dsimp only
    rw [if_pos (by rw [hlevels.length]; omega)]
    rfl

theorem zero_notMem_tablesBelow (depth : ℕ) (ptr : UInt32) (i : ℕ) :
    0 ∉ tablesBelow fs depth ptr i := by
  induction depth generalizing ptr i with
  | zero => exact List.not_mem_nil
  | succ depth ih =>
    rw [tablesBelow]
    split
    · exact List.not_mem_nil
    · next hptr =>
      rw [List.mem_cons]
      rintro (hzero | hmem)
      · exact hptr hzero.symm
      · exact ih _ _ hmem

/-- Where no table is missing, ext2 follows the pointers as they are. -/
theorem below_eq {depth : ℕ} {ptr : UInt32} {i : ℕ}
    (h : 0 ∉ pathTo (entryOf fs) (entryPerBlock fs) depth ptr i) :
    blockBelow fs depth ptr i = leafAt (entryOf fs) (entryPerBlock fs) depth ptr i ∧
      tablesBelow fs depth ptr i = pathTo (entryOf fs) (entryPerBlock fs) depth ptr i := by
  induction depth generalizing ptr i with
  | zero => exact ⟨rfl, rfl⟩
  | succ depth ih =>
    rw [pathTo, List.mem_cons, not_or] at h
    have hptr : ptr ≠ 0 := fun heq ↦ h.1 heq.symm
    obtain ⟨hblock, htables⟩ := ih h.2
    exact ⟨(if_neg hptr).trans hblock, (if_neg hptr).trans (congrArg (ptr :: ·) htables)⟩

theorem fileBlock_eq {k : ℕ} (h : 0 ∉ filePath fs inode k) :
    fileBlock fs inode k = fileLeaf fs inode k ∧ fileTables fs inode k = filePath fs inode k :=
  below_eq h

theorem fileTables_direct {k : ℕ} (hk : k < 12) : fileTables fs inode k = [] := by
  rw [fileTables, place_direct hk]
  rfl

/-- A table that the blocks of the first level need. -/
theorem mem_fileTables_single {k : ℕ} {table : UInt32} (hk : k < 12 + entryPerBlock fs)
    (hmem : table ∈ fileTables fs inode k) : table = inode.singleIndirectBlockPtr := by
  by_cases hdirect : k < 12
  · rw [fileTables_direct hdirect] at hmem
    exact absurd hmem List.not_mem_nil
  · obtain ⟨i, rfl⟩ := Nat.exists_eq_add_of_le (Nat.le_of_not_lt hdirect)
    rw [fileTables, place_single (by omega)] at hmem
    dsimp only [tablesBelow] at hmem
    split at hmem
    · exact absurd hmem List.not_mem_nil
    · exact List.mem_singleton.mp hmem

/-- A table that the blocks of the first two levels need. -/
theorem mem_fileTables_double (hp : 0 < entryPerBlock fs) {k : ℕ} {table : UInt32}
    (hk : k < 12 + entryPerBlock fs + entryPerBlock fs ^ 2) (hmem : table ∈ fileTables fs inode k) :
    table = inode.singleIndirectBlockPtr ∨ table = inode.doubleIndirectBlockPtr ∨
      (inode.doubleIndirectBlockPtr ≠ 0 ∧
        ∃ i < entryPerBlock fs, entryOf fs inode.doubleIndirectBlockPtr i = table) := by
  by_cases hsingle : k < 12 + entryPerBlock fs
  · exact Or.inl (mem_fileTables_single hsingle hmem)
  · obtain ⟨i, rfl⟩ := Nat.exists_eq_add_of_le (Nat.le_of_not_lt hsingle)
    have hi : i < entryPerBlock fs ^ 2 := by omega
    rw [fileTables, place_double hi] at hmem
    dsimp only [tablesBelow] at hmem
    split at hmem
    · exact absurd hmem List.not_mem_nil
    · next hdouble =>
      rcases List.mem_cons.mp hmem with heq | hbelow
      · exact Or.inr (Or.inl heq)
      · refine Or.inr (Or.inr ⟨hdouble, i / entryPerBlock fs ^ 1, ?_, ?_⟩)
        · rw [Nat.pow_one, Nat.div_lt_iff_lt_mul hp, ← Nat.pow_two]
          exact hi
        · split at hbelow
          · exact absurd hbelow List.not_mem_nil
          · exact (List.mem_singleton.mp hbelow).symm

theorem head_mem_readNodes (m height : ℕ) (ptr : UInt32) :
    ptr ∈ readNodes (entryOf fs) (entryPerBlock fs) m (height + 1) ptr := List.mem_cons_self

theorem readCount_single (hp : 0 < entryPerBlock fs) {m : ℕ} (hm : entryPerBlock fs ≤ m) :
    readCount (entryPerBlock fs) m 1 = entryPerBlock fs := by
  have hfull := @readCount_full _ m 1 hp
  rw [Nat.pow_one] at hfull
  exact hfull hm

/-- What a result of a conditional computation tells. -/
theorem ite_eq_ok {c : Prop} [Decidable c] {value reading : Reading}
    (h : (if c then .ok value else .error .overflow : Except Fault Reading) = .ok reading) :
    c ∧ value = reading := by
  split at h
  next hc => exact ⟨hc, Except.ok.inj h⟩
  next => cases h

/-- An exact list has an exact number of blocks, not more than the array can take. -/
theorem exactCount_of_exactList (hvalid : ValidInode fs inode) (h : ExactList fs inode count)
    (hmax : count ≤ 12 + entryPerBlock fs + entryPerBlock fs ^ 2 + entryPerBlock fs ^ 3) :
    count ≤ 2 ^ 28 ∧ ExactCount (entryPerBlock fs) count := by
  obtain ⟨hp, hentries⟩ := hvalid.entries
  have hsquare : entryPerBlock fs ^ 2 < 2 ^ 32 :=
    Nat.lt_of_le_of_lt (Nat.pow_le_pow_left hentries 2) (by decide)
  obtain ⟨reading, hok, hresult, hneeded⟩ := h
  have hlength : reading.result.length = count := by
    rw [hresult, List.length_map, List.length_range]
  by_cases hdirect : count < 12
  · exact ⟨by omega, Or.inl hdirect⟩
  by_cases hsingle : count < 12 + entryPerBlock fs
  · rw [getBlocks_single hp (Nat.le_of_not_lt hdirect) hsingle] at hok
    obtain ⟨hfits, rfl⟩ := ite_eq_ok hok
    dsimp only at hlength hneeded
    rw [List.length_append, List.length_map, List.length_range] at hlength
    refine ⟨by omega, Or.inr (Or.inl ⟨?_, hsingle⟩)⟩
    by_contra hend
    obtain ⟨k, hk, hmem⟩ := hneeded _ (head_mem_readNodes _ _ _)
    rw [fileTables_direct (by omega)] at hmem
    exact List.not_mem_nil hmem
  by_cases hdouble : count < 12 + entryPerBlock fs + entryPerBlock fs ^ 2
  · rw [getBlocks_double hp hsquare (Nat.le_of_not_lt hsingle) hdouble] at hok
    obtain ⟨hfits, rfl⟩ := ite_eq_ok hok
    dsimp only at hlength hneeded
    rw [List.length_append] at hfits
    rw [List.length_append, List.length_append, List.length_map, List.length_range,
      length_readLeaves, length_readLeaves, readCount_single hp (by omega)] at hlength
    have hlow : 12 + entryPerBlock fs < count := by
      by_contra hend
      obtain ⟨k, hk, hmem⟩ := hneeded _ (List.mem_append_right _ (head_mem_readNodes _ _ _))
      have heq := mem_fileTables_single (by omega) hmem
      have hne : inode.doubleIndirectBlockPtr ≠ 0 := by
        intro hzero
        rw [hzero] at hmem
        exact zero_notMem_tablesBelow _ _ _ hmem
      exact hvalid.double_ne hne heq
    refine ⟨?_, Or.inr (Or.inr (Or.inl ⟨hlow, hdouble, ?_⟩))⟩
    · rw [length_readLeaves, length_readLeaves, readCount_single hp (by omega)] at hfits
      omega
    · have hbound : count - 12 - entryPerBlock fs ≤ entryPerBlock fs ^ 2 := by omega
      have hcount : readCount (entryPerBlock fs) (count - 12 - entryPerBlock fs) 2 =
          count - 12 - entryPerBlock fs := by omega
      exact evenlyFilled_of_readCount hp (by omega) hbound hcount
  · rw [getBlocks_triple hp hsquare (Nat.le_of_not_lt hdouble)] at hok
    obtain ⟨hfits, rfl⟩ := ite_eq_ok hok
    dsimp only at hlength hneeded
    rw [List.length_append, List.length_append, length_readLeaves, length_readLeaves,
      length_readLeaves, readCount_single hp (by omega), readCount_full hp (by omega)] at hfits
    rw [List.length_append, List.length_append, List.length_append, List.length_map,
      List.length_range, length_readLeaves, length_readLeaves, length_readLeaves,
      readCount_single hp (by omega), readCount_full hp (by omega)] at hlength
    have hlow : 12 + entryPerBlock fs + entryPerBlock fs ^ 2 < count := by
      by_contra hend
      obtain ⟨k, hk, hmem⟩ := hneeded _ (List.mem_append_right _
        (List.mem_append_right _ (head_mem_readNodes _ _ _)))
      have hne : inode.tripleIndirectBlockPtr ≠ 0 := by
        intro hzero
        rw [hzero] at hmem
        exact zero_notMem_tablesBelow _ _ _ hmem
      obtain ⟨hsingleNe, hdoubleNe, hentryNe⟩ := hvalid.triple_ne hne
      rcases mem_fileTables_double hp (by omega) hmem with heq | heq | ⟨hthere, i, hi, heq⟩
      · exact hsingleNe heq
      · exact hdoubleNe heq
      · exact hentryNe i hi hthere heq
    refine ⟨by omega, Or.inr (Or.inr (Or.inr ⟨hlow, ?_⟩))⟩
    have hbound : count - 12 - entryPerBlock fs - entryPerBlock fs ^ 2 ≤ entryPerBlock fs ^ 3 := by
      omega
    have hcount : readCount (entryPerBlock fs)
        (count - 12 - entryPerBlock fs - entryPerBlock fs ^ 2) 3 =
          count - 12 - entryPerBlock fs - entryPerBlock fs ^ 2 := by omega
    exact evenlyFilled_of_readCount hp (by omega) hbound hcount

/-- The list is exact for the exact numbers of blocks, as long as no table is missing on the way to
one of the blocks. -/
theorem ext2InodeGetBlocks_exact_iff (fs : Ext2Fs) (inode : Ext2FsInode) (count : ℕ)
    (hvalid : ValidInode fs inode)
    (hmax : count ≤ 12 + entryPerBlock fs + entryPerBlock fs ^ 2 + entryPerBlock fs ^ 3) :
    ExactList fs inode count ↔
      count ≤ 2 ^ 28 ∧ ExactCount (entryPerBlock fs) count ∧
        ∀ k < count, 0 ∉ filePath fs inode k := by
  obtain ⟨hp, hentries⟩ := hvalid.entries
  have hsquare : entryPerBlock fs ^ 2 < 2 ^ 32 :=
    Nat.lt_of_le_of_lt (Nat.pow_le_pow_left hentries 2) (by decide)
  constructor
  · intro h
    obtain ⟨hfits, hexact⟩ := exactCount_of_exactList hvalid h hmax
    refine ⟨hfits, hexact, fun k hk hmissing ↦ ?_⟩
    obtain ⟨reading, hok, -, hneeded⟩ := h
    obtain ⟨reading', hok', hcovers⟩ := @getBlocks_exact _ inode _ hp hsquare hexact hfits
    rw [hok] at hok'
    cases hok'
    have hread : 0 ∈ reading.acquired :=
      (hcovers.tables 0).mpr ⟨k, hk, (Nat.zero_add k).symm ▸ hmissing⟩
    obtain ⟨k', -, hmem⟩ := hneeded 0 hread
    exact zero_notMem_tablesBelow _ _ _ hmem
  · rintro ⟨hfits, hexact, hthere⟩
    obtain ⟨reading, hok, hcovers⟩ := @getBlocks_exact _ inode _ hp hsquare hexact hfits
    refine ⟨reading, hok, ?_, fun table hmem ↦ ?_⟩
    · rw [hcovers.blocks]
      apply List.map_congr_left
      intro k hk
      rw [Nat.zero_add, (fileBlock_eq (hthere k (List.mem_range.mp hk))).1]
    · obtain ⟨k, hk, hpath⟩ := (hcovers.tables table).mp hmem
      rw [Nat.zero_add] at hpath
      exact ⟨k, hk, (fileBlock_eq (hthere k hk)).2 ▸ hpath⟩

/-- A file system with blocks of 1 KiB, where every block holds the numbers of the blocks after
it. -/
def sampleFs : Ext2Fs where
  superBlock := ⟨65536, 8192, 2048⟩
  blockSize := 1024
  groupDescTableBlock := 2
  tables := fun block i ↦ UInt32.ofNat (block + i + 1)
  descs := fun _ _ ↦ ⟨3, 4, 5, 0, 0, 0⟩
  bitmaps := fun _ _ ↦ true

/-- An inode with twelve blocks and tables for more. -/
def sampleInode : Ext2FsInode := ⟨11, fun k ↦ UInt32.ofNat (100 + k), 1000, 2000, 0⟩

theorem sampleInode_valid : ValidInode sampleFs sampleInode :=
  ⟨⟨0, by decide, rfl⟩, fun _ ↦ by decide, fun h ↦ absurd rfl h⟩

theorem ext2InodeGetBlocks_exact_13 : ExactList sampleFs sampleInode 13 :=
  (ext2InodeGetBlocks_exact_iff sampleFs sampleInode 13 sampleInode_valid (by decide)).mpr
    ⟨by decide, by decide, by decide⟩

/-- For 12 blocks the first table is acquired, which none of them needs, and for 525 blocks the list
has 780 entries. -/
theorem ext2InodeGetBlocks_exact_fails :
    ¬ ExactList sampleFs sampleInode 12 ∧ ¬ ExactList sampleFs sampleInode 525 := by
  constructor
  · intro h
    exact absurd (exactCount_of_exactList sampleInode_valid h (by decide)).2 (by decide)
  · intro h
    exact absurd (exactCount_of_exactList sampleInode_valid h (by decide)).2 (by decide)

end Brutal.Fs
