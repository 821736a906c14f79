import Brutal.Fs.Directory

/-!
# Whether a directory is listed

`ext2_fs_iter` does not look at the size of an entry, and looks for the type of the next entry
before it looks whether there is one.  It comes to an end, and stays inside of the blocks, exactly
if every block has an entry without a type behind its last one; a block that its entries fill is
left.
-/

namespace Brutal.Fs.Disk

open Lib

/-- The block of the file has these bytes. -/
def BlockIs (self : Ext2Fs) (inode : Ext2FsInode) (index : ℕ) (data : List UInt8) : Prop :=
  ∃ self', ext2InodeRead self inode index 1 = .ok (data, self')

/-- The inode is not refused, and where it is looked for is inside of a block. -/
def Readable (self : Ext2Fs) (id : ℕ) : Prop :=
  ∃ inode self', ext2Inode self id = .ok (some inode, self')

/-- The entries from a place on are inside of the block, with their names, and their inodes can be
read, up to an entry without a type. -/
inductive Ends (self : Ext2Fs) (data : List UInt8) : ℕ → List (ℕ × Ext2Directory) → Prop where
  | unused {dir : ℕ} {entry : Ext2Directory} (hentry : directoryAt data dir = .ok entry)
    (htype : entry.type = 0) : Ends self data dir []
  | entry {dir : ℕ} {entry : Ext2Directory} {rest : List (ℕ × Ext2Directory)}
    (hentry : directoryAt data dir = .ok entry) (htype : entry.type ≠ 0)
    (hinode : Readable self entry.inode) (hname : dir + headerSize + entry.nameLen ≤ data.length)
    (hrest : Ends self data (dir + entry.size) rest) : Ends self data dir ((dir, entry) :: rest)

/-- Every block of the directory ends with an entry without a type. -/
def DirectoryEnds (self : Ext2Fs) (inode : Ext2FsInode) : Prop :=
  ∀ index < directoryBlocks self.toGeometry inode, ∃ data entries,
    BlockIs self inode index data ∧ Ends self data 0 entries

/-- The entries from a place on follow each other, each with room for its name, up to the end of the
block or to an entry without a type. -/
inductive Tiles (data : List UInt8) : ℕ → List (ℕ × Ext2Directory) → Prop where
  | full : Tiles data data.length []
  | unused {dir : ℕ} {entry : Ext2Directory} (hentry : directoryAt data dir = .ok entry)
    (htype : entry.type = 0) : Tiles data dir []
  | entry {dir : ℕ} {entry : Ext2Directory} {rest : List (ℕ × Ext2Directory)}
    (hentry : directoryAt data dir = .ok entry) (htype : entry.type ≠ 0)
    (hsize : headerSize + entry.nameLen ≤ entry.size) (hend : dir + entry.size ≤ data.length)
    (hrest : Tiles data (dir + entry.size) rest) : Tiles data dir ((dir, entry) :: rest)

/-- The entries of a directory in order, given those of its blocks. -/
def inOrder (entries : ℕ → List (ℕ × Ext2Directory)) (blocks : ℕ) : List Visit :=
  (List.range blocks).flatMap fun index ↦
    (entries index).map fun found ↦ ⟨index, found.1, found.2⟩

/-- The entry and its name are inside of a block. -/
def Visit.Inside (visit : Visit) (blockSize : ℕ) : Prop :=
  visit.dir + headerSize + visit.entry.nameLen ≤ blockSize ∧
    visit.dir + visit.entry.size ≤ blockSize

/-- What was visited are the first entries, and all of them unless the callback stopped. -/
def Visited (expected : List Visit) (iter : Iter) (visits : List Visit) : Prop :=
  visits <+: expected ∧ (iter = .iterContinue → visits = expected)

/-- Whatever the callback does, `ext2_fs_iter` comes to an end, and the entries that it interprets
are inside of their blocks; if the blocks are well formed, these are their entries in order. -/
def Lists (self : Ext2Fs) (inode : Ext2FsInode) : Prop :=
  ∀ (Ctx : Type) (fn : Ext2FsFile → Ctx → Iter × Ctx) (ctx : Ctx), ∃ turns iter listing,
    ext2FsIter self inode fn ctx turns = .ok (iter, listing) ∧
    (∀ visit ∈ listing.visits, visit.Inside self.blockSize) ∧
    ∀ entries : ℕ → List (ℕ × Ext2Directory),
      (∀ index < directoryBlocks self.toGeometry inode, ∃ data,
        BlockIs self inode index data ∧ Tiles data 0 (entries index)) →
      Visited (inOrder entries (directoryBlocks self.toGeometry inode)) iter listing.visits

variable {self self' : Ext2Fs} {inode : Ext2FsInode} {found : Option Ext2FsInode} {id index : ℕ}
  {data : List UInt8}

/-- The cached inode with a number. -/
def cacheLookup (cache : InodeCache) (id : ℕ) : Option Ext2CachedInode :=
  cache.entries.find? fun cached ↦ cached.inode.id.toNat = id

attribute [local grind =] copyBlock ext2InodeGetBlocks fsIterBody fsIterBlocks

theorem getCachedInode_bind (cache : InodeCache) (id : ℕ) :
    (getCachedInode cache id).bind (fun cached ↦ cache.entries[cached]?) = cacheLookup cache id :=
  List.find?_eq_bind_findIdx?_getElem?.symm

/-- The inode on the device where `ext2_inode_rw` looks for it. -/
def diskInode (self : Ext2Fs) (id : ℕ) : Ext2FsInode :=
  let group : Ext2GroupBlockDescTable := readRecord self.bytes
    (groupAt self.toGeometry (inodeGroup self.toGeometry id)) descSize
  ⟨UInt32.ofNat id, readRecord self.bytes (inodeAt self.toGeometry group id) inodeBlockSize⟩

/-- What `ext2_inode` gives. -/
def inodeValue (self : Ext2Fs) (id : ℕ) : Except Fault (Option Ext2FsInode) :=
  if id ≤ 1 then .ok none
  else
    match (cacheLookup self.inodeCache id).map Ext2CachedInode.inode with
    | some inode => .ok (some inode)
    | none =>
      if InBlocks self.toGeometry id then .ok (some (diskInode self id)) else .error .outOfBounds

attribute [local grind =] inodeValue

theorem InodeCache.push_entries (cache : InodeCache) (cached : Ext2CachedInode) :
    cache.push cached = cache ∨ (cache.push cached).entries = cache.entries ++ [cached] := by
  unfold InodeCache.push
  split
  · exact .inr rfl
  · split
    · exact .inr rfl
    · exact .inl rfl

/-- An inode behind the others is found where none of them is. -/
theorem cacheLookup_append {cache cache' : InodeCache} {cached : Ext2CachedInode}
    (h : cache'.entries = cache.entries ++ [cached]) (id : ℕ) :
    cacheLookup cache' id =
      (cacheLookup cache id).or (if cached.inode.id.toNat = id then some cached else none) := by
  unfold cacheLookup
  rw [h, List.find?_append, List.find?_singleton]
  simp only [decide_eq_true_eq]

theorem diskInode_id (self : Ext2Fs) (hid : id < 2 ^ 32) : (diskInode self id).id.toNat = id := by
  rw [diskInode, UInt32.toNat_ofNat']
  exact Nat.mod_eq_of_lt hid

/-- What `ext2_inode` gives, and what it leaves in the cache. -/
theorem ext2Inode_eq (self : Ext2Fs) (id : ℕ) :
    ∃ self', ext2Inode self id = (inodeValue self id).map (·, self') ∧
      self'.toGeometry = self.toGeometry ∧ self'.bytes = self.bytes ∧
      (self'.inodeCache = self.inodeCache ∨
        cacheLookup self.inodeCache id = none ∧
          inodeValue self id = .ok (some (diskInode self id)) ∧
          self'.inodeCache.entries = self.inodeCache.entries ++ [⟨[], diskInode self id⟩]) := by
  unfold inodeValue
  rw [← getCachedInode_bind]
  by_cases hid : id ≤ 1
  · rw [if_pos hid]
    refine ⟨self, ?_, rfl, rfl, .inl rfl⟩
    unfold ext2Inode ext2InodeRw
    rw [if_pos hid]
    rfl
  rw [if_neg hid]
  cases hfound : getCachedInode self.inodeCache id with
  | some cached =>
    have hlt := getCachedInode_lt hfound
    rw [Option.bind_some, List.getElem?_eq_getElem hlt]
    refine ⟨self, ?_, rfl, rfl, .inl rfl⟩
    unfold ext2Inode ext2InodeRw
    rw [if_neg hid, hfound]
    dsimp only
    rw [List.getElem?_eq_getElem hlt]
    rfl
  | none =>
    have hneeds : ¬ NeedsNoAccess self id false := by
      rintro (hle | ⟨-, hsome⟩)
      · exact hid hle
      · rw [hfound] at hsome
        cases hsome
    rw [Option.bind_none, Option.map_none]
    dsimp only
    unfold ext2Inode
    rw [ext2InodeRw_eq hneeds]
    change ∃ self', (inodeTransfer self _ id false >>= _) = _ ∧ _
    rw [inodeTransfer_eq]
    by_cases hblocks : InBlocks self.toGeometry id
    · rw [if_pos hblocks, if_pos hblocks]
      exact ⟨_, rfl, rfl, rfl,
        (InodeCache.push_entries _ _).imp_right fun hentries ↦ ⟨rfl, rfl, hentries⟩⟩
    · rw [if_neg hblocks, if_neg hblocks]
      exact ⟨self, rfl, rfl, rfl, .inl rfl⟩

theorem readable_iff : Readable self id ↔ ∃ inode, inodeValue self id = .ok (some inode) := by
  obtain ⟨self', heq, -⟩ := ext2Inode_eq self id
  unfold Readable
  rw [heq]
  constructor
  · rintro ⟨inode, other, hok⟩
    cases hvalue : inodeValue self id with
    | error fault =>
      rw [hvalue] at hok
      cases hok
    | ok found =>
      rw [hvalue] at hok
      cases hok
      exact ⟨inode, rfl⟩
  · rintro ⟨inode, hvalue⟩
    rw [hvalue]
    exact ⟨inode, self', rfl⟩

/-- `inode_block_count` in `ext2_inode_read` -/
def inodeBlockCount (self : Geometry) (inode : Ext2FsInode) : ℕ :=
  (inodeSize self inode + self.blockSize - 1) % 2 ^ 64 / self.blockSize

/-- The bytes of a block, if the inode is in the cache. -/
def blockValue (self : Ext2Fs) (inode : Ext2FsInode) (index : ℕ) : Except Fault (List UInt8) :=
  match cacheLookup self.inodeCache inode.id.toNat with
  | none => .error .outOfBounds
  | some cached =>
    ext2InodeGetBlocks self cached (inodeBlockCount self.toGeometry inode) >>=
      fun cached ↦ copyBlock self cached [] index

theorem ext2InodeRead_eq_ok_iff {result : List UInt8 × Ext2Fs} :
    ext2InodeRead self inode index 1 = .ok result ↔ ∃ place cached cached' data,
      getCachedInode self.inodeCache inode.id.toNat = some place ∧
      self.inodeCache.entries[place]? = some cached ∧
      ext2InodeGetBlocks self cached (inodeBlockCount self.toGeometry inode) = .ok cached' ∧
      copyBlock self cached' [] index = .ok data ∧
      result = (data, { self with inodeCache := self.inodeCache.set place cached' }) := by
  unfold ext2InodeRead getCachedInodeOrCreate
  cases hfound : getCachedInode self.inodeCache inode.id.toNat with
  | none =>
    have hbehind : (addCachedInode self.inodeCache inode).2.entries[
        (addCachedInode self.inodeCache inode).1]? = none :=
      List.getElem?_eq_none (Nat.le_refl _)
    dsimp only
    rw [hbehind]
    refine iff_of_false nofun ?_
    rintro ⟨place, -, -, -, hplace, -⟩
    cases hplace
  | some place =>
    have hcached := List.getElem?_eq_getElem (getCachedInode_lt hfound)
    dsimp only
    rw [hcached]
    dsimp only
    constructor
    · intro h
      obtain ⟨cached', hblocks, h⟩ := bind_eq_ok.mp h
      obtain ⟨data, hcopy, h⟩ := bind_eq_ok.mp h
      cases h
      change (copyBlock self cached' [] index >>= fun data ↦ pure data) = .ok data at hcopy
      rw [bind_pure] at hcopy
      exact ⟨place, _, cached', data, rfl, hcached, hblocks, hcopy, rfl⟩
    · rintro ⟨place, cached, cached', data, ⟨⟩, hcached', hblocks, hcopy, rfl⟩
      rw [hcached] at hcached'
      cases hcached'
      refine bind_eq_ok.mpr ⟨cached', hblocks, bind_eq_ok.mpr ⟨data, ?_, rfl⟩⟩
      change (copyBlock self cached' [] index >>= fun data ↦ pure data) = .ok data
      rw [bind_pure]
      exact hcopy

theorem blockValue_eq_ok_iff : blockValue self inode index = .ok data ↔ ∃ place cached cached',
    getCachedInode self.inodeCache inode.id.toNat = some place ∧
    self.inodeCache.entries[place]? = some cached ∧
    ext2InodeGetBlocks self cached (inodeBlockCount self.toGeometry inode) = .ok cached' ∧
    copyBlock self cached' [] index = .ok data := by
  unfold blockValue
  rw [← getCachedInode_bind]
  cases hfound : getCachedInode self.inodeCache inode.id.toNat with
  | none =>
    refine iff_of_false nofun ?_
    rintro ⟨place, -, -, hplace, -⟩
    cases hplace
  | some place =>
    have hcached := List.getElem?_eq_getElem (getCachedInode_lt hfound)
    rw [Option.bind_some, hcached]
    constructor
    · intro h
      obtain ⟨cached', hblocks, hcopy⟩ := bind_eq_ok.mp h
      exact ⟨place, _, cached', rfl, hcached, hblocks, hcopy⟩
    · rintro ⟨place, cached, cached', ⟨⟩, hcached', hblocks, hcopy⟩
      rw [hcached] at hcached'
      cases hcached'
      exact bind_eq_ok.mpr ⟨cached', hblocks, hcopy⟩

theorem blockIs_iff : BlockIs self inode index data ↔ blockValue self inode index = .ok data := by
  unfold BlockIs
  rw [blockValue_eq_ok_iff]
  constructor
  · rintro ⟨self', hread⟩
    obtain ⟨place, cached, cached', data', hfound, hcached, hblocks, hcopy, heq⟩ :=
      ext2InodeRead_eq_ok_iff.mp hread
    cases heq
    exact ⟨place, cached, cached', hfound, hcached, hblocks, hcopy⟩
  · rintro ⟨place, cached, cached', hfound, hcached, hblocks, hcopy⟩
    exact ⟨_, ext2InodeRead_eq_ok_iff.mpr
      ⟨place, cached, cached', data, hfound, hcached, hblocks, hcopy, rfl⟩⟩

theorem length_of_blockValue (h : blockValue self inode index = .ok data) :
    data.length = self.blockSize := by
  obtain ⟨place, cached, cached', -, -, -, hcopy⟩ := blockValue_eq_ok_iff.mp h
  unfold copyBlock at hcopy
  split at hcopy
  · cases hcopy
  · dsimp only at hcopy
    split at hcopy
    · cases hcopy
      rw [List.nil_append, length_readAt]
    · cases hcopy

/-- The cache grew, without a change to what is read of the directory or of an inode. -/
structure Grown (dir : Ext2FsInode) (fs fs' : Ext2Fs) : Prop where
  geometry : fs'.toGeometry = fs.toGeometry
  inodes : ∀ id, inodeValue fs' id = inodeValue fs id
  blocks : ∀ index, blockValue fs' dir index = blockValue fs dir index

/-- The inode of the directory is in the cache. -/
def Cached (self : Ext2Fs) (inode : Ext2FsInode) : Prop :=
  ∃ cached, cacheLookup self.inodeCache inode.id.toNat = some cached

theorem Grown.refl (inode : Ext2FsInode) (self : Ext2Fs) : Grown inode self self :=
  ⟨rfl, fun _ ↦ rfl, fun _ ↦ rfl⟩

theorem Grown.trans {fs₁ fs₂ fs₃ : Ext2Fs} (h : Grown inode fs₁ fs₂) (h' : Grown inode fs₂ fs₃) :
    Grown inode fs₁ fs₃ :=
  ⟨h'.geometry.trans h.geometry, fun id ↦ (h'.inodes id).trans (h.inodes id),
    fun index ↦ (h'.blocks index).trans (h.blocks index)⟩

theorem inodeValue_congr (hgeometry : self'.toGeometry = self.toGeometry)
    (hbytes : self'.bytes = self.bytes)
    (hlookup : (cacheLookup self'.inodeCache id).map Ext2CachedInode.inode =
      (cacheLookup self.inodeCache id).map Ext2CachedInode.inode) :
    inodeValue self' id = inodeValue self id := by
  unfold inodeValue diskInode
  rw [hgeometry, hbytes, hlookup]

theorem view_congr (hgeometry : self'.toGeometry = self.toGeometry)
    (hbytes : self'.bytes = self.bytes) : view self' = view self := by
  unfold view
  rw [hgeometry, hbytes]

/-- The blocks that are read depend on the cache by the inode that is found there. -/
theorem blockValue_congr (hgeometry : self'.toGeometry = self.toGeometry)
    (hbytes : self'.bytes = self.bytes)
    (hlookup : cacheLookup self'.inodeCache inode.id.toNat =
      cacheLookup self.inodeCache inode.id.toNat) :
    blockValue self' inode index = blockValue self inode index := by
  unfold blockValue ext2InodeGetBlocks copyBlock ext2AcquireBlocks
  rw [hgeometry, hbytes, hlookup, view_congr hgeometry hbytes]

/-- Looking up an inode keeps what is read. -/
theorem Grown.of_ext2Inode (hcached : Cached self inode) (hid : id < 2 ^ 32)
    (h : ext2Inode self id = .ok (found, self')) : Grown inode self self' ∧ Cached self' inode := by
  obtain ⟨cached, hcached⟩ := hcached
  obtain ⟨other, heq, hgeometry, hbytes, hcache⟩ := ext2Inode_eq self id
  rw [heq] at h
  obtain rfl : other = self' := by
    cases hvalue : inodeValue self id with
    | error fault =>
      rw [hvalue] at h
      cases h
    | ok value =>
      rw [hvalue] at h
      cases h
      rfl
  rcases hcache with hcache | ⟨hnone, hvalue, hentries⟩
  · refine ⟨⟨hgeometry, fun id ↦ ?_, fun index ↦ ?_⟩, cached, by rw [hcache, hcached]⟩
    · exact inodeValue_congr hgeometry hbytes (by rw [hcache])
    · exact blockValue_congr hgeometry hbytes (by rw [hcache])
  · have hlookup := cacheLookup_append hentries
    dsimp only at hlookup
    rw [diskInode_id self hid] at hlookup
    have hdir : cacheLookup other.inodeCache inode.id.toNat =
        cacheLookup self.inodeCache inode.id.toNat := by
      rw [hlookup, hcached, Option.some_or]
    refine ⟨⟨hgeometry, fun id' ↦ ?_, fun index ↦ blockValue_congr hgeometry hbytes hdir⟩,
      cached, hdir.trans hcached⟩
    by_cases hsame : id' = id
    · subst hsame
      have hvalue' : inodeValue other id' = .ok (some (diskInode self id')) := by
        have hid : ¬ id' ≤ 1 := by
          intro hle
          unfold inodeValue at hvalue
          rw [if_pos hle] at hvalue
          cases hvalue
        unfold inodeValue
        rw [if_neg hid, hlookup, hnone, if_pos rfl]
        rfl
      rw [hvalue, hvalue']
    · apply inodeValue_congr hgeometry hbytes
      rw [hlookup, if_neg (Ne.symm hsame), Option.or_none]

theorem ext2InodeGetBlocks_inode {cached cached' : Ext2CachedInode} {count : ℕ}
    (h : ext2InodeGetBlocks self cached count = .ok cached') : cached'.inode = cached.inode := by
  unfold ext2InodeGetBlocks at h
  split at h
  · cases h
    rfl
  · obtain ⟨reading, -, h⟩ := bind_eq_ok.mp h
    cases h
    rfl

/-- A cached inode that gets a list of blocks is found where it was. -/
theorem InodeCache.set_lookup {cache : InodeCache} {place : ℕ} {cached cached' : Ext2CachedInode}
    (hcached : cache.entries[place]? = some cached) (hinode : cached'.inode = cached.inode)
    (id : ℕ) : getCachedInode (cache.set place cached') id = getCachedInode cache id ∧
      (cacheLookup (cache.set place cached') id).map Ext2CachedInode.inode =
        (cacheLookup cache id).map Ext2CachedInode.inode := by
  have hinodes : (cache.set place cached').entries.map Ext2CachedInode.inode =
      cache.entries.map Ext2CachedInode.inode := by
    apply List.ext_getElem?
    intro i
    unfold InodeCache.set
    rw [List.getElem?_map, List.getElem?_map]
    by_cases hi : i = place
    · rw [hi, List.getElem?_set_self (List.getElem?_eq_some_iff.mp hcached).1, hcached]
      exact congrArg some hinode
    · rw [List.getElem?_set_ne (Ne.symm hi)]
  have hplace : ∀ list : List Ext2CachedInode,
      list.findIdx? (fun cached ↦ decide (cached.inode.id.toNat = id)) =
        (list.map Ext2CachedInode.inode).findIdx? fun inode ↦ decide (inode.id.toNat = id) := by
    intro list
    rw [List.findIdx?_map]
    rfl
  have hfound : ∀ list : List Ext2CachedInode,
      (list.find? fun cached ↦ decide (cached.inode.id.toNat = id)).map Ext2CachedInode.inode =
        (list.map Ext2CachedInode.inode).find? fun inode ↦ decide (inode.id.toNat = id) := by
    intro list
    rw [List.find?_map]
    rfl
  unfold getCachedInode cacheLookup
  rw [hplace, hplace, hfound, hfound, hinodes]
  exact ⟨rfl, rfl⟩

/-- Reading a block keeps what is read. -/
theorem Grown.of_ext2InodeRead (h : ext2InodeRead self inode index 1 = .ok (data, self')) :
    Grown inode self self' ∧ Cached self' inode := by
  obtain ⟨place, cached, cached', data', hfound, hcached, hblocks, hcopy, heq⟩ :=
    ext2InodeRead_eq_ok_iff.mp h
  cases heq
  have hset := InodeCache.set_lookup hcached (ext2InodeGetBlocks_inode hblocks)
  have hlookup : cacheLookup self.inodeCache inode.id.toNat = some cached := by
    rw [← getCachedInode_bind, hfound, Option.bind_some, hcached]
  have hlookup' : cacheLookup (self.inodeCache.set place cached') inode.id.toNat =
      some cached' := by
    have hlt := (List.getElem?_eq_some_iff.mp hcached).1
    rw [← getCachedInode_bind, (hset _).1, hfound, Option.bind_some]
    exact List.getElem?_set_self hlt
  have hfilled : cached'.block ≠ [] := by
    intro hempty
    grind
  refine ⟨⟨rfl, fun id ↦ inodeValue_congr rfl rfl (hset id).2, fun index ↦ ?_⟩, cached', hlookup'⟩
  unfold blockValue
  rw [hlookup]
  dsimp only
  rw [hlookup', hblocks]
  dsimp only
  unfold ext2InodeGetBlocks
  rw [if_pos hfilled]
  rfl

/-! ## One entry -/

variable {Ctx : Type} {fn : Ext2FsFile → Ctx → Iter × Ctx} {listing listing' : Listing Ctx}
  {dir : ℕ} {entry : Ext2Directory} {entries : List (ℕ × Ext2Directory)} {iter : Iter}
  {fs' : Ext2Fs}

theorem mapError_eq_ok {Value : Type} {first : Except Fault Value} {value : Value} :
    first.mapError Stop.fault = .ok value ↔ first = .ok value := by
  cases first with
  | error fault => exact iff_of_false nofun nofun
  | ok found =>
    constructor
    · intro h
      cases h
      rfl
    · intro h
      cases h
      rfl

theorem directoryAt_eq_ok (h : directoryAt data dir = .ok entry) :
    dir + headerSize ≤ data.length ∧ entry.inode < 2 ^ 32 := by
  unfold directoryAt at h
  split at h
  next hle =>
    cases h
    refine ⟨hle, ?_⟩
    have hlt := ofLeBytes_lt ((data.drop dir).take 4)
    have hpow : 256 ^ ((data.drop dir).take 4).length ≤ 256 ^ 4 :=
      Nat.pow_le_pow_right (by decide) (List.length_take_le _ _)
    exact Nat.lt_of_lt_of_le hlt hpow
  next => cases h

theorem fsIterBody_unused (hentry : directoryAt data dir = .ok entry) (htype : entry.type = 0) :
    fsIterBody fn data index (listing, dir) = .ok (.inr (.iterContinue, listing)) := by
  unfold fsIterBody
  dsimp only
  rw [hentry]
  change (if entry.type ≠ 0 ∧ _ then _ else _) = _
  rw [if_neg fun h ↦ h.1 htype]
  rfl

/-- The file that the callback gets for an entry. -/
def fileAt (data : List UInt8) (dir : ℕ) (entry : Ext2Directory) (found : Ext2FsInode) :
    Ext2FsFile :=
  ⟨(data.drop (dir + headerSize)).take entry.nameLen, found⟩

theorem fsIterBody_entry (hentry : directoryAt data dir = .ok entry) (htype : entry.type ≠ 0)
    (hlength : data.length = listing.fs.blockSize) {found : Ext2FsInode}
    (hinode : ext2Inode listing.fs entry.inode = .ok (some found, fs')) :
    fsIterBody fn data index (listing, dir) =
      match fn (fileAt data dir entry found) listing.ctx with
      | (.iterStop, ctx) =>
        .ok (.inr (.iterStop, ⟨fs', ctx, listing.visits ++ [⟨index, dir, entry⟩]⟩))
      | (.iterContinue, ctx) =>
        .ok (.inl (⟨fs', ctx, listing.visits ++ [⟨index, dir, entry⟩]⟩, dir + entry.size)) := by
  have hlt : dir < listing.fs.blockSize := by
    have hle := (directoryAt_eq_ok hentry).1
    unfold headerSize at hle
    omega
  unfold fsIterBody
  dsimp only
  rw [hentry]
  change (if entry.type ≠ 0 ∧ _ then (ext2Inode _ _).mapError _ >>= _ else _) = _
  rw [if_pos ⟨htype, hlt⟩, hinode]
  rfl

/-- A turn of the loop that goes well: there is no entry, or its inode was read. -/
theorem fsIterBody_eq_ok {next : (Listing Ctx × ℕ) ⊕ (Iter × Listing Ctx)}
    (hlength : data.length = listing.fs.blockSize)
    (h : fsIterBody fn data index (listing, dir) = .ok next) :
    ∃ entry, directoryAt data dir = .ok entry ∧
      (entry.type ≠ 0 → ∃ found fs',
        ext2Inode listing.fs entry.inode = .ok (some found, fs')) := by
  unfold fsIterBody at h
  obtain ⟨entry, hentry, h⟩ := bind_eq_ok.mp h
  have hentry' := mapError_eq_ok.mp hentry
  refine ⟨entry, hentry', fun htype ↦ ?_⟩
  have hlt : dir < listing.fs.blockSize := by
    have hle := (directoryAt_eq_ok hentry').1
    unfold headerSize at hle
    omega
  rw [if_pos ⟨htype, hlt⟩] at h
  obtain ⟨⟨found, fs'⟩, hinode, h⟩ := bind_eq_ok.mp h
  cases found with
  | none => cases h
  | some found => exact ⟨found, fs', mapError_eq_ok.mp hinode⟩

theorem Ends.inside (h : Ends self data dir entries) :
    dir + headerSize ≤ data.length ∧ ∀ found ∈ entries,
      found.1 + headerSize + found.2.nameLen ≤ data.length ∧
        found.1 + found.2.size ≤ data.length := by
  induction h with
  | unused hentry _ => exact ⟨(directoryAt_eq_ok hentry).1, nofun⟩
  | entry hentry _ _ hname _ ih =>
    refine ⟨(directoryAt_eq_ok hentry).1, fun found hfound ↦ ?_⟩
    rcases List.mem_cons.mp hfound with rfl | hrest
    · exact ⟨hname, Nat.le_trans (Nat.le_add_right _ _) ih.1⟩
    · exact ih.2 found hrest

theorem Visited.append {first second visits visits' : List Visit}
    (h : Visited first .iterContinue visits) (h' : Visited second iter visits') :
    Visited (first ++ second) iter (visits ++ visits') := by
  rw [h.2 rfl]
  exact ⟨(List.prefix_append_right_inj first).mpr h'.1,
    fun hiter ↦ congrArg (first ++ ·) (h'.2 hiter)⟩

theorem Visited.stop {first visits : List Visit} (h : Visited first .iterStop visits)
    (second : List Visit) : Visited (first ++ second) .iterStop visits :=
  ⟨h.1.trans (List.prefix_append first second), nofun⟩

/-- The places of the entries of one block. -/
def visitsOf (index : ℕ) (entries : List (ℕ × Ext2Directory)) : List Visit :=
  entries.map fun found ↦ ⟨index, found.1, found.2⟩

/-- The loop over a block that ends comes to an end, with the entries in order. -/
theorem Ends.walk (fn : Ext2FsFile → Ctx → Iter × Ctx) (index : ℕ)
    (h : Ends self data dir entries) (hlength : data.length = self.blockSize)
    (hgrown : Grown inode self listing.fs) (hcached : Cached listing.fs inode) :
    ∃ iter listing', (∀ turns, entries.length < turns →
        loop (fsIterBody fn data index) .turns turns (listing, dir) = .ok (iter, listing')) ∧
      Grown inode self listing'.fs ∧ Cached listing'.fs inode ∧
      ∃ visits, listing'.visits = listing.visits ++ visits ∧
        Visited (visitsOf index entries) iter visits := by
  induction h generalizing listing with
  | unused hentry htype =>
    refine ⟨.iterContinue, listing, fun turns hturns ↦ ?_, hgrown, hcached, [],
      (List.append_nil _).symm, List.prefix_refl _, fun _ ↦ rfl⟩
    obtain ⟨turns, rfl⟩ := Nat.exists_eq_add_of_lt hturns
    exact loop_leave (fsIterBody_unused hentry htype) _
  | @entry dir entry rest hentry htype hinode hname hrest ih =>
    obtain ⟨found, hvalue⟩ := readable_iff.mp hinode
    rw [← hgrown.inodes] at hvalue
    obtain ⟨found, fs', hread⟩ := readable_iff.mpr ⟨found, hvalue⟩
    obtain ⟨hgrown', hcached'⟩ :=
      Grown.of_ext2Inode hcached (directoryAt_eq_ok hentry).2 hread
    have hlength' : data.length = listing.fs.blockSize := by rw [hgrown.geometry, hlength]
    have hbody := @fsIterBody_entry index data Ctx fn listing dir entry fs' hentry htype hlength'
      found hread
    cases hcall : fn (fileAt data dir entry found) listing.ctx with
    | mk answer ctx =>
      rw [hcall] at hbody
      cases answer with
      | iterStop =>
        refine ⟨.iterStop, ⟨fs', ctx, listing.visits ++ [⟨index, dir, entry⟩]⟩,
          fun turns hturns ↦ ?_, hgrown.trans hgrown', hcached', [⟨index, dir, entry⟩], rfl, ?_⟩
        · obtain ⟨turns, rfl⟩ := Nat.exists_eq_add_of_lt hturns
          exact loop_leave hbody _
        · exact ⟨List.prefix_append [_] _, nofun⟩
      | iterContinue =>
        obtain ⟨iter, listing', hloop, hgrownEnd, hcachedEnd, visits, hvisits, hvisited⟩ :=
          @ih ⟨fs', ctx, listing.visits ++ [⟨index, dir, entry⟩]⟩ (hgrown.trans hgrown') hcached'
        refine ⟨iter, listing', fun turns hturns ↦ ?_, hgrownEnd, hcachedEnd,
          ⟨index, dir, entry⟩ :: visits, ?_, ?_⟩
        · obtain ⟨turns, rfl⟩ := Nat.exists_eq_add_of_lt hturns
          rw [List.length_cons] at hturns ⊢
          rw [loop_turn hbody]
          exact hloop _ (by omega)
        · rw [hvisits, List.append_assoc]
          rfl
        · have hfirst : Visited [⟨index, dir, entry⟩] .iterContinue [⟨index, dir, entry⟩] :=
            ⟨List.prefix_refl _, fun _ ↦ rfl⟩
          exact hfirst.append hvisited

/-- One block, once it was read and the loop over its entries has come to an end. -/
theorem fsIterBlocks_step {turns left start : ℕ}
    (hread : ext2InodeRead listing.fs inode start 1 = .ok (data, fs'))
    (hloop : loop (fsIterBody fn data start) .turns turns ({ listing with fs := fs' }, 0) =
      .ok (iter, listing')) :
    fsIterBlocks inode fn turns (left + 1) start listing =
      if iter = .iterStop then .ok (.iterStop, listing')
      else fsIterBlocks inode fn turns left (start + 1) listing' := by
  rw [fsIterBlocks, mapError_eq_ok.mpr hread, ok_bind]
  dsimp only
  rw [hloop, ok_bind]
  cases iter <;> rfl

/-- The loop over blocks that end comes to an end, with their entries in order. -/
theorem fsIterBlocks_walk (fn : Ext2FsFile → Ctx → Iter × Ctx)
    {entries : ℕ → List (ℕ × Ext2Directory)} (left start : ℕ)
    (hends : ∀ index, start ≤ index → index < start + left → ∃ data,
      BlockIs self inode index data ∧ Ends self data 0 (entries index))
    (hgrown : Grown inode self listing.fs) :
    ∃ bound iter listing', (∀ turns, bound ≤ turns →
        fsIterBlocks inode fn turns left start listing = .ok (iter, listing')) ∧
      ∃ visits, listing'.visits = listing.visits ++ visits ∧
        Visited ((List.range' start left).flatMap fun index ↦ visitsOf index (entries index)) iter
          visits := by
  induction left generalizing start listing with
  | zero =>
    exact ⟨0, .iterContinue, listing, fun _ _ ↦ rfl, [], (List.append_nil _).symm,
      List.prefix_refl _, fun _ ↦ rfl⟩
  | succ left ih =>
    obtain ⟨data, hblock, hend⟩ := hends start (Nat.le_refl _) (by omega)
    have hvalue := blockIs_iff.mp hblock
    have hlength := length_of_blockValue hvalue
    rw [← hgrown.blocks] at hvalue
    obtain ⟨fs', hread⟩ := blockIs_iff.mpr hvalue
    obtain ⟨hgrown', hcached⟩ := Grown.of_ext2InodeRead hread
    obtain ⟨iter, listing₁, hloop, hgrown₁, -, visits, hvisits, hvisited⟩ :=
      @Ends.walk _ _ _ Ctx { listing with fs := fs' } _ _ fn start hend hlength
        (hgrown.trans hgrown') hcached
    rw [List.range'_succ, List.flatMap_cons]
    cases iter with
    | iterStop =>
      exact ⟨(entries start).length + 1, .iterStop, listing₁, fun turns hturns ↦
        fsIterBlocks_step hread (hloop turns hturns), visits, hvisits, hvisited.stop _⟩
    | iterContinue =>
      obtain ⟨bound, iter, listing', hblocks, visits', hvisits', hvisited'⟩ :=
        ih (start + 1) (fun index hle hlt ↦ hends index (by omega) (by omega)) hgrown₁
      refine ⟨max bound ((entries start).length + 1), iter, listing', fun turns hturns ↦ ?_,
        visits ++ visits', ?_, hvisited.append hvisited'⟩
      · rw [fsIterBlocks_step hread (hloop turns (by omega))]
        exact hblocks turns (by omega)
      · rw [hvisits', hvisits, List.append_assoc]

/-- The entries of a well-formed block are those up to its end. -/
theorem Tiles.unique {entries' : List (ℕ × Ext2Directory)} (h : Tiles data dir entries')
    (hends : Ends self data dir entries) : entries' = entries := by
  induction h generalizing entries with
  | full =>
    have hle := hends.inside.1
    unfold headerSize at hle
    omega
  | unused hentry htype =>
    cases hends with
    | unused => rfl
    | entry hentry' htype' =>
      rw [hentry] at hentry'
      cases hentry'
      exact absurd htype htype'
  | entry hentry htype _ _ _ ih =>
    cases hends with
    | unused hentry' htype' =>
      rw [hentry] at hentry'
      cases hentry'
      exact absurd htype' htype
    | entry hentry' _ _ _ hrest =>
      rw [hentry] at hentry'
      cases hentry'
      rw [ih hrest]

theorem inOrder_congr {entries entries' : ℕ → List (ℕ × Ext2Directory)} {blocks : ℕ}
    (h : ∀ index < blocks, entries' index = entries index) :
    inOrder entries' blocks = inOrder entries blocks := by
  unfold inOrder
  apply List.flatMap_congr
  intro index hindex
  rw [h index (List.mem_range.mp hindex)]

theorem inside_of_mem_inOrder {entries : ℕ → List (ℕ × Ext2Directory)} {blocks : ℕ}
    (hends : ∀ index < blocks, ∃ data, data.length = self.blockSize ∧
      Ends self data 0 (entries index))
    {visit : Visit} (h : visit ∈ inOrder entries blocks) : visit.Inside self.blockSize := by
  obtain ⟨index, hindex, hvisit⟩ := List.mem_flatMap.mp h
  obtain ⟨found, hfound, rfl⟩ := List.mem_map.mp hvisit
  obtain ⟨data, hlength, hend⟩ := hends index (List.mem_range.mp hindex)
  rw [← hlength]
  exact hend.inside.2 found hfound

/-- A directory whose blocks end is listed. -/
theorem DirectoryEnds.lists (h : DirectoryEnds self inode) : Lists self inode := by
  classical
  intro Ctx fn ctx
  have hchoice : ∀ index, ∃ entries, index < directoryBlocks self.toGeometry inode →
      ∃ data, BlockIs self inode index data ∧ Ends self data 0 entries := by
    intro index
    by_cases hlt : index < directoryBlocks self.toGeometry inode
    · obtain ⟨data, entries, hblock, hend⟩ := h index hlt
      exact ⟨entries, fun _ ↦ ⟨data, hblock, hend⟩⟩
    · exact ⟨[], fun hlt' ↦ absurd hlt' hlt⟩
  choose entries hends using hchoice
  obtain ⟨bound, iter, listing', hrun, visits, hvisits, hvisited⟩ :=
    @fsIterBlocks_walk self inode Ctx ⟨self, ctx, []⟩ fn entries
      (directoryBlocks self.toGeometry inode) 0
      (fun index _ hlt ↦ hends index (by omega)) (Grown.refl inode self)
  rw [List.nil_append] at hvisits
  rw [← hvisits, ← List.range_eq_range'] at hvisited
  change Visited (inOrder entries (directoryBlocks self.toGeometry inode)) _ _ at hvisited
  refine ⟨bound, iter, listing', hrun bound (Nat.le_refl _), fun visit hvisit ↦ ?_,
    fun entries' htiles ↦ ?_⟩
  · refine inside_of_mem_inOrder (fun index hlt ↦ ?_) (hvisited.1.subset hvisit)
    obtain ⟨data, hblock, hend⟩ := hends index hlt
    exact ⟨data, length_of_blockValue (blockIs_iff.mp hblock), hend⟩
  · have hsame : ∀ index < directoryBlocks self.toGeometry inode,
        entries' index = entries index := by
      intro index hlt
      obtain ⟨data, hblock, hend⟩ := hends index hlt
      obtain ⟨data', hblock', htile⟩ := htiles index hlt
      have heq := (blockIs_iff.mp hblock).symm.trans (blockIs_iff.mp hblock')
      cases heq
      exact htile.unique hend
    rw [inOrder_congr hsame]
    exact hvisited

/-- A callback that always goes on, and does nothing else. -/
def goOn (_ : Ext2FsFile) (ctx : Unit) : Iter × Unit := (.iterContinue, ctx)

/-- A loop that comes to an end does so at an entry without a type. -/
theorem Ends.of_walk {listing listing' : Listing Unit} {turns : ℕ}
    (hlength : data.length = self.blockSize) (hgrown : Grown inode self listing.fs)
    (hcached : Cached listing.fs inode)
    (hloop : loop (fsIterBody goOn data index) .turns turns (listing, dir) = .ok (iter, listing')) :
    iter = .iterContinue ∧ Grown inode self listing'.fs ∧ listing.visits <+: listing'.visits ∧
      ((∀ visit ∈ listing'.visits, visit.Inside self.blockSize) →
        ∃ entries, Ends self data dir entries) := by
  induction turns generalizing listing dir with
  | zero => cases hloop
  | succ turns ih =>
    have hlength' : data.length = listing.fs.blockSize := by rw [hgrown.geometry, hlength]
    cases hbody : fsIterBody goOn data index (listing, dir) with
    | error stop =>
      rw [loop_stop hbody] at hloop
      cases hloop
    | ok next =>
      obtain ⟨entry, hentry, hinode⟩ := fsIterBody_eq_ok hlength' hbody
      by_cases htype : entry.type = 0
      · rw [loop_leave (fsIterBody_unused hentry htype)] at hloop
        cases hloop
        exact ⟨rfl, hgrown, List.prefix_refl _, fun _ ↦ ⟨[], .unused hentry htype⟩⟩
      · obtain ⟨found, fs', hread⟩ := hinode htype
        obtain ⟨hgrown', hcached'⟩ := Grown.of_ext2Inode hcached (directoryAt_eq_ok hentry).2 hread
        have hstep := @fsIterBody_entry index data Unit goOn listing dir entry fs' hentry htype
          hlength' found hread
        rw [loop_turn hstep] at hloop
        obtain ⟨hiter, hgrownEnd, hvisits, hends⟩ :=
          @ih _ ⟨fs', (), listing.visits ++ [⟨index, dir, entry⟩]⟩ (hgrown.trans hgrown') hcached'
            hloop
        refine ⟨hiter, hgrownEnd, (List.prefix_append _ _).trans hvisits, fun hinside ↦ ?_⟩
        obtain ⟨rest, hrest⟩ := hends hinside
        have hvisit := hinside ⟨index, dir, entry⟩ (hvisits.subset (by simp))
        obtain ⟨found', hvalue⟩ := readable_iff.mp ⟨found, fs', hread⟩
        rw [hgrown.inodes] at hvalue
        refine
          ⟨(dir, entry) :: rest, .entry hentry htype (readable_iff.mpr ⟨found', hvalue⟩) ?_ hrest⟩
        rw [hlength]
        exact hvisit.1

theorem DirectoryEnds.of_blocks {listing listing' : Listing Unit} {turns left start : ℕ}
    (hgrown : Grown inode self listing.fs)
    (hrun : fsIterBlocks inode goOn turns left start listing = .ok (iter, listing')) :
    listing.visits <+: listing'.visits ∧
      ((∀ visit ∈ listing'.visits, visit.Inside self.blockSize) →
        ∀ index, start ≤ index → index < start + left → ∃ data entries,
          BlockIs self inode index data ∧ Ends self data 0 entries) := by
  induction left generalizing start listing with
  | zero =>
    cases hrun
    exact ⟨List.prefix_refl _, fun _ index hle hlt ↦ absurd hlt (by omega)⟩
  | succ left ih =>
    have hrun' := hrun
    rw [fsIterBlocks] at hrun'
    obtain ⟨⟨data, fs'⟩, hread, hrun'⟩ := bind_eq_ok.mp hrun'
    obtain ⟨⟨iter₁, listing₁⟩, hloop, -⟩ := bind_eq_ok.mp hrun'
    have hread := mapError_eq_ok.mp hread
    obtain ⟨hgrown', hcached⟩ := Grown.of_ext2InodeRead hread
    have hblock : BlockIs self inode start data := by
      rw [blockIs_iff, ← hgrown.blocks, ← blockIs_iff]
      exact ⟨fs', hread⟩
    obtain ⟨rfl, hgrown₁, hvisits, hends⟩ :=
      @Ends.of_walk self inode start data 0 iter₁ { listing with fs := fs' } listing₁ turns
        (length_of_blockValue (blockIs_iff.mp hblock)) (hgrown.trans hgrown') hcached hloop
    rw [fsIterBlocks_step hread hloop, if_neg nofun] at hrun
    obtain ⟨hvisits', hrest⟩ := ih hgrown₁ hrun
    refine ⟨hvisits.trans hvisits', fun hinside index hle hlt ↦ ?_⟩
    rcases Nat.eq_or_lt_of_le hle with rfl | hlater
    · obtain ⟨entries, hend⟩ := hends fun visit hvisit ↦ hinside visit (hvisits'.subset hvisit)
      exact ⟨data, entries, hblock, hend⟩
    · exact hrest hinside index hlater (by omega)

/-- A directory that is listed for a callback that goes on ends in every block. -/
theorem DirectoryEnds.of_lists (h : Lists self inode) : DirectoryEnds self inode := by
  obtain ⟨turns, iter, listing, hrun, hinside, -⟩ := h Unit goOn ()
  obtain ⟨-, hends⟩ := DirectoryEnds.of_blocks (Grown.refl inode self) hrun
  exact fun index hlt ↦ hends hinside index (Nat.zero_le _) (by omega)

/-- `ext2_fs_iter` lists a directory exactly if each of its blocks can be read and has, behind
entries that are inside of it and whose inodes can be read, one without a type. -/
theorem lists_iff_directoryEnds (self : Ext2Fs) (inode : Ext2FsInode) :
    Lists self inode ↔ DirectoryEnds self inode :=
  ⟨DirectoryEnds.of_lists, DirectoryEnds.lists⟩

/-- From an entry without a size no other is reached. -/
theorem not_ends_of_size (hentry : directoryAt data dir = .ok entry) (htype : entry.type ≠ 0)
    (hsize : entry.size = 0) : ¬ Ends self data dir entries := by
  intro h
  induction h with
  | unused hentry' htype' =>
    rw [hentry] at hentry'
    cases hentry'
    exact htype htype'
  | entry hentry' _ _ _ _ ih =>
    rw [hentry] at hentry'
    cases hentry'
    rw [hsize, Nat.add_zero] at ih
    exact ih hentry

/-- The inode 2, a directory of 1024 bytes. -/
def rootInode : Ext2FsInode :=
  ⟨2, ⟨[0, 0x40, 0, 0, 0, 4] ++ List.replicate 122 0, rfl⟩⟩

/-- A file system whose root directory is in the block 5, with an entry that has no size. -/
def loopFs : Ext2Fs :=
  { smallFs with
    bytes := writeAt (fun _ ↦ 0) 5120 [2, 0, 0, 0, 0, 0, 1, 2, 46]
    inodeCache := ⟨[⟨[5], rootInode⟩], 1, by decide⟩ }

/-- An entry without a size is visited without end. -/
theorem lists_fails : ¬ ∀ (self : Ext2Fs) (inode : Ext2FsInode), Lists self inode := by
  intro h
  obtain ⟨data, entries, hblock, hends⟩ :=
    DirectoryEnds.of_lists (h loopFs rootInode) 0 (by decide)
  have hread : copyBlock loopFs ⟨[5], rootInode⟩ [] 0 = .ok data := blockIs_iff.mp hblock
  rw [copyBlock, List.getElem?_cons_zero] at hread
  have hdata := Except.ok.inj ((if_pos (by decide)).symm.trans hread)
  have hentry : directoryAt data 0 = .ok ⟨2, 0, 1, 2⟩ := by
    rw [← hdata]
    decide +kernel
  exact not_ends_of_size hentry (by decide) rfl hends

end Brutal.Fs.Disk
