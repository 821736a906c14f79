import Brutal.Lib.Outcome
import Brutal.Task.Exec
import Mathlib.Data.List.Forall2
import Mathlib.Data.List.TakeWhile

/-!
# The image of a program

What `bal_exec_load` has to build from an ELF file, and when it does.  The loop does not go on to
the next header when it meets one of another type than LOAD, so that segments are lost unless their
headers come first; and a segment at the address 0 is put elsewhere.
-/

namespace Brutal.Task

open Base Lib

section Files

variable (file : MemoryObject)

/-- The place of a program header in the file. -/
def headerPlace (i : ℕ) : ℕ :=
  (elfHeader file).programsOffset.toNat + i * (elfHeader file).programsSize.toNat

/-- The program headers of the file. -/
def programHeaders : List Elf64ProgramHeader :=
  (List.range (elfHeader file).programsCount.toNat).map fun i ↦
    programHeader file (headerPlace file i)

/-- The headers of the LOAD segments. -/
def loadHeaders : List Elf64ProgramHeader :=
  (programHeaders file).filter Elf64ProgramHeader.isLoad

end Files

namespace Elf64ProgramHeader

variable (header : Elf64ProgramHeader)

/-- The number of bytes of the segment. -/
def span : ℕ := max header.memorySize.toNat header.fileSize.toNat

/-- The pages of the segment. -/
def pages : USizeRange := ⟨header.virtualAddress, header.pagesSize⟩

/-- What the segment is read as. -/
def byte (file : MemoryObject) (k : ℕ) : UInt8 :=
  if k < header.fileSize.toNat then file.bytes (header.fileOffset.toNat + k) else 0

/-- A segment of whole pages from its start on, which is inside the file and in the space. -/
structure Fits (file : MemoryObject) : Prop where
  aligned : header.virtualAddress.toNat % 4096 = 0 ∧ header.fileOffset.toNat % 4096 = 0
  inside : header.fileOffset.toNat + header.fileSize.toNat ≤ file.size.toNat
  bounded : header.virtualAddress.toNat + header.span ≤ 2 ^ 64

/-- The segments have no address in common. -/
def Apart (other : Elf64ProgramHeader) : Prop :=
  header.virtualAddress.toNat + header.span ≤ other.virtualAddress.toNat ∨
    other.virtualAddress.toNat + other.span ≤ header.virtualAddress.toNat

end Elf64ProgramHeader

/-- An ELF file in a memory object, which has whole pages. -/
structure ValidElf (file : MemoryObject) : Prop where
  whole : file.size.toNat % 4096 = 0
  header : elfHeaderSize ≤ file.size.toNat
  table : ∀ i < (elfHeader file).programsCount.toNat,
    headerPlace file i + programHeaderSize ≤ file.size.toNat
  fits : ∀ header ∈ loadHeaders file, header.Fits file
  apart : (loadHeaders file).Pairwise Elf64ProgramHeader.Apart

/-- The mappings of the new space are those of the LOAD segments, each of which is read as it should
be, and as a copy of its own if it may be written. -/
structure ImageLoaded (file : MemoryObject) (elfMemory : ℕ) (state : LoadState) : Prop where
  mappings : state.target.map Mapping.range = (loadHeaders file).map Elf64ProgramHeader.pages
  bytes : ∀ header ∈ loadHeaders file, ∀ k < header.span,
    byteAt state state.target (header.virtualAddress + UInt64.ofNat k) = some (header.byte file k)
  copies : ∀ header ∈ loadHeaders file, header.isWritable = true →
    ∃ mapping ∈ state.target, mapping.range = header.pages ∧ mapping.writable = true ∧
      mapping.object ≠ elfMemory ∧
        (state.target ++ state.own).filter (·.object == mapping.object) = [mapping]

/-- The file is loaded into the new space. -/
def LoadsImage (kernel : Kernel) (state : LoadState) (elfMemory : ℕ) : Prop :=
  ∃ state', balExecLoad kernel state elfMemory = .ok state' ∧
    ImageLoaded (state.objects elfMemory) elfMemory state'

/-- The LOAD segments come first, and none of them is empty or at the address 0. -/
structure Loadable (file : MemoryObject) : Prop where
  order : (programHeaders file).Pairwise fun header later ↦
    later.isLoad = true → header.isLoad = true
  placed : ∀ header ∈ loadHeaders file, header.virtualAddress ≠ 0
  nonempty : ∀ header ∈ loadHeaders file, header.span ≠ 0

/-- The state of a loader with a handle to a file and an empty new space. -/
structure ValidState (state : LoadState) (elfMemory : ℕ) : Prop where
  file : ValidElf (state.objects elfMemory)
  handle : elfMemory ∈ state.handles
  handles : ∀ handle ∈ state.handles, handle < state.created
  own : ∀ mapping ∈ state.own, mapping.object < state.created
  target : state.target = []

variable {kernel : Kernel} {state state' : LoadState} {elfMemory object : ℕ}
  {file memory : MemoryObject} {header : Elf64ProgramHeader} {space space' : AddressSpace}
  {mapping : Mapping} {range other : USizeRange} {addr base offset size vaddr : UInt64}
  {writable : Bool}

theorem not_mem_of_meets (h : meets range other = false) (haddr : addr ∈ range) : addr ∉ other := by
  intro haddr'
  rw [meets, Bool.or_eq_false_iff, decide_eq_false_iff_not, decide_eq_false_iff_not, mem_def,
    mem_def, UInt64.not_lt, UInt64.not_lt, UInt64.le_iff_toNat_le, UInt64.le_iff_toNat_le,
    UInt64.toNat_sub, UInt64.toNat_sub] at h
  rw [mem_def, UInt64.lt_iff_toNat_lt, UInt64.toNat_sub] at haddr haddr'
  have hrange := range.base.toNat_lt
  have hother := other.base.toNat_lt
  have hlt := addr.toNat_lt
  omega

theorem add_ofNat_sub (base : UInt64) {k : ℕ} (hk : k < 2 ^ 64) :
    (base + UInt64.ofNat k - base).toNat = k := by
  have hcancel : base + UInt64.ofNat k - base = UInt64.ofNat k := by grind
  rw [hcancel, UInt64.toNat_ofNat', Nat.mod_eq_of_lt hk]

/-- The addresses of a range, one after the other. -/
theorem add_ofNat_mem {k : ℕ} (hk : k < range.size.toNat) :
    range.base + UInt64.ofNat k ∈ range := by
  have hsize := range.size.toNat_lt
  rw [mem_def, UInt64.lt_iff_toNat_lt, add_ofNat_sub range.base (by omega)]
  exact hk

theorem pagesSize_toNat (header : Elf64ProgramHeader) :
    header.pagesSize.toNat = (header.span + 4095) % 2 ^ 64 / 4096 * 4096 := by
  have hmax : (max header.memorySize header.fileSize).toNat = header.span := UInt64.toNat_max ..
  have hone : (1 : UInt64).toNat = 1 := rfl
  have hlt := (max header.memorySize header.fileSize).toNat_lt
  have hsum : (max header.memorySize header.fileSize + memPageSize - 1).toNat =
      (header.span + 4095) % 2 ^ 64 := by
    rw [UInt64.toNat_sub, UInt64.toNat_add, memPageSize_toNat, hone, hmax]
    omega
  rw [Elf64ProgramHeader.pagesSize, alignUp, toNat_and_not_mask memPageSize_toNat, hsum]
  rfl

/-- Unless there are too many bytes, they are on the pages. -/
theorem span_le_pagesSize (h : header.pagesSize ≠ 0) : header.span ≤ header.pagesSize.toNat := by
  have hsize := pagesSize_toNat header
  have hpos : header.pagesSize.toNat ≠ 0 := fun hzero ↦ h (UInt64.toNat_inj.mp hzero)
  have hmax : (max header.memorySize header.fileSize).toNat = header.span := UInt64.toNat_max ..
  have hlt := (max header.memorySize header.fileSize).toNat_lt
  omega

theorem pagesSize_mod (header : Elf64ProgramHeader) : header.pagesSize % memPageSize = 0 := by
  have hzero : (0 : UInt64).toNat = 0 := rfl
  rw [← UInt64.toNat_inj, UInt64.toNat_mod, memPageSize_toNat, pagesSize_toNat, hzero]
  omega

/-- No two mappings of a space have an address in common. -/
def Separate (space : AddressSpace) : Prop :=
  space.Pairwise fun mapping other ↦ meets mapping.range other.range = false

theorem mappingAt_of_mem (h : Separate space) (hmem : mapping ∈ space)
    (haddr : addr ∈ mapping.range) : mappingAt space addr = some mapping := by
  induction space with
  | nil => exact absurd hmem List.not_mem_nil
  | cons first rest ih =>
    obtain ⟨hfirst, hrest⟩ := List.pairwise_cons.mp h
    rcases List.mem_cons.mp hmem with rfl | hmem
    · exact List.find?_cons_of_pos (decide_eq_true haddr)
    · have hnot : addr ∉ first.range := by
        intro haddr'
        exact not_mem_of_meets (hfirst mapping hmem) haddr' haddr
      rw [mappingAt, List.find?_cons_of_neg (by simpa using hnot)]
      exact ih hrest hmem

/-- A mapping that was added to a space is found where it is. -/
theorem mappingAt_append (hfree : ∀ other ∈ space, meets other.range mapping.range = false)
    (haddr : addr ∈ mapping.range) : mappingAt (space ++ [mapping]) addr = some mapping := by
  have hnone : space.find? (fun other ↦ decide (addr ∈ other.range)) = none := by
    rw [List.find?_eq_none]
    intro other hother haddr'
    exact not_mem_of_meets (hfree other hother) (of_decide_eq_true haddr') haddr
  rw [mappingAt, List.find?_append, hnone, Option.none_or]
  exact List.find?_cons_of_pos (decide_eq_true haddr)

theorem Separate.append (h : Separate space)
    (hfree : ∀ other ∈ space, meets other.range mapping.range = false) :
    Separate (space ++ [mapping]) := by
  refine List.pairwise_append.mpr ⟨h, List.pairwise_singleton _ _, fun other hother last hlast ↦ ?_⟩
  rw [List.mem_singleton.mp hlast]
  exact hfree other hother

/-- What `space_map` does when it is successful. -/
structure Maps (space : AddressSpace) (memory : MemoryObject) (size vaddr : UInt64)
    (mapping : Mapping) : Prop where
  free : ∀ other ∈ space, meets other.range mapping.range = false
  size : mapping.range.size = if size = 0 then memory.size else size
  base : vaddr ≠ 0 → mapping.range.base = vaddr
  chosen : vaddr = 0 → mapping.range.base ≠ 0

theorem spaceMap_ok (h : spaceMap kernel space object memory offset size vaddr writable =
      .ok (range, space')) :
    Maps space memory size vaddr ⟨range, object, offset, writable⟩ ∧
      space' = space ++ [⟨range, object, offset, writable⟩] := by
  rw [spaceMap] at h
  dsimp only at h
  generalize hmapped : (if size = 0 then memory.size else size) = mapped at h
  split at h
  · cases h
  obtain ⟨base, hbase, h⟩ := bind_eq_ok.mp h
  split at h
  next hcheck =>
    cases h
    refine ⟨⟨hcheck.2.2, hmapped.symm, fun hne ↦ ?_, fun hzero ↦ ?_⟩, rfl⟩
    · rw [placeMapping, if_neg hne] at hbase
      exact (Except.ok.inj hbase).symm
    · rw [placeMapping, if_pos hzero] at hbase
      split at hbase
      next found hplace =>
        cases hbase
        exact (kernel.place_spec hplace).1
      next => cases hbase
  next => cases h

/-- What is asked for at an address, on whole pages that are free and inside the object, is
mapped. -/
theorem spaceMap_returns (hvaddr : vaddr ≠ 0)
    (hinside : offset + (if size = 0 then memory.size else size) ≤ memory.size)
    (hrange : memIsRangePageAligned ⟨vaddr, if size = 0 then memory.size else size⟩ = true)
    (hoffset : offset % memPageSize = 0)
    (hfree : ∀ other ∈ space,
      meets other.range ⟨vaddr, if size = 0 then memory.size else size⟩ = false) :
    ∃ result, spaceMap kernel space object memory offset size vaddr writable = .ok result := by
  rw [spaceMap]
  dsimp only
  rw [if_neg (UInt64.not_lt.mpr hinside), placeMapping, if_neg hvaddr, ok_bind,
    if_pos ⟨hrange, hoffset, hfree⟩]
  exact ⟨_, rfl⟩

/-- A new object of the loader is mapped where the kernel finds room. -/
theorem spaceMap_own (hmod : size % memPageSize = 0) (bytes : ℕ → UInt8) :
    spaceMap kernel space object ⟨size, bytes⟩ 0 0 0 true = .error .exhausted ∨
      ∃ base, (∀ other ∈ space, meets other.range ⟨base, size⟩ = false) ∧
        spaceMap kernel space object ⟨size, bytes⟩ 0 0 0 true =
          .ok (⟨base, size⟩, space ++ [⟨⟨base, size⟩, object, 0, true⟩]) := by
  have hinside : ¬ size < 0 + size := by
    rw [UInt64.zero_add]
    exact UInt64.lt_irrefl size
  rw [spaceMap]
  dsimp only
  rw [if_pos rfl, if_neg hinside, placeMapping, if_pos rfl]
  cases hplace : kernel.place space size with
  | none => exact Or.inl rfl
  | some base =>
    obtain ⟨-, hbase, hfree⟩ := kernel.place_spec hplace
    have haligned : memIsRangePageAligned ⟨base, size⟩ = true := by
      rw [memIsRangePageAligned, hbase, hmod]
      rfl
    refine Or.inr ⟨base, hfree, ?_⟩
    dsimp only
    rw [ok_bind, if_pos ⟨haligned, rfl, hfree⟩]
    rfl

/-- The state in which an object has other bytes. -/
def withBytes (state : LoadState) (object : ℕ) (bytes : ℕ → UInt8) : LoadState :=
  { state with objects := Function.update state.objects object { state.objects object with bytes } }

theorem withBytes_withBytes (state : LoadState) (object : ℕ) (bytes bytes' : ℕ → UInt8) :
    withBytes (withBytes state object bytes) object bytes' = withBytes state object bytes' := by
  simp only [withBytes, Function.update_self, Function.update_idem]

/-- Bytes that are stored through one mapping. -/
theorem memCpy_eq {data : List UInt8} {start : ℕ} (hwritable : mapping.writable = true)
    (h : ∀ i < data.length, mappingAt state.own (addr + UInt64.ofNat i) = some mapping ∧
      mapping.place (addr + UInt64.ofNat i) = start + i) :
    memCpy addr data state = .ok (withBytes state mapping.object
      (writeAt (state.objects mapping.object).bytes start data)) := by
  induction data generalizing addr start state with
  | nil => rw [memCpy, writeAt_nil, withBytes, Function.update_eq_self]
  | cons value rest ih =>
    obtain ⟨hmapping, hplace⟩ := h 0 (Nat.zero_lt_succ _)
    rw [show UInt64.ofNat 0 = 0 from rfl, UInt64.add_zero] at hmapping hplace
    have hstore : storeByte state addr value = .ok (withBytes state mapping.object
        (Function.update (state.objects mapping.object).bytes start value)) := by
      rw [storeByte, hmapping]
      dsimp only
      rw [if_pos hwritable, hplace]
      rfl
    have hnext : ∀ i, addr + 1 + UInt64.ofNat i = addr + UInt64.ofNat (i + 1) := by
      intro i
      rw [UInt64.ofNat_add, UInt64.add_assoc, UInt64.add_comm (UInt64.ofNat i)]
      rfl
    have hrest := @ih (withBytes state mapping.object
        (Function.update (state.objects mapping.object).bytes start value)) (addr + 1) (start + 1)
      fun i hi ↦ by
        obtain ⟨hmapping', hplace'⟩ := h (i + 1) (Nat.succ_lt_succ hi)
        rw [hnext, hplace']
        exact ⟨hmapping', by omega⟩
    rw [memCpy, hstore, ok_bind, hrest, withBytes_withBytes, writeAt_cons]
    simp only [withBytes, Function.update_self]

/-- The file is there, and what the loader knows was created before. -/
structure Keeps (elfMemory : ℕ) (file : MemoryObject) (state : LoadState) : Prop where
  file : state.objects elfMemory = file
  handle : elfMemory ∈ state.handles
  handles : ∀ handle ∈ state.handles, handle < state.created
  own : ∀ mapping ∈ state.own, mapping.object < state.created
  target : ∀ mapping ∈ state.target, mapping.object < state.created

/-- The bytes of a copy of a segment. -/
def copyBytes (kernel : Kernel) (state : LoadState) (file : MemoryObject)
    (header : Elf64ProgramHeader) : ℕ → UInt8 :=
  writeAt (writeAt (kernel.contents state) 0 (List.replicate header.pagesSize.toNat 0)) 0
    (readAt file.bytes header.fileOffset.toNat header.fileSize.toNat)

/-- The state in which a copy of a segment was created and mapped. -/
def copiedState (kernel : Kernel) (state : LoadState) (file : MemoryObject)
    (header : Elf64ProgramHeader) (target : AddressSpace) : LoadState where
  objects := Function.update state.objects state.created
    ⟨header.pagesSize, copyBytes kernel state file header⟩
  created := state.created + 1
  handles := state.handles
  own := state.own
  target := target

/-- The mapping of the loader is taken back. -/
theorem brUnmap_last (hsize : range.size ≠ 0) (hrange : mapping.range = range)
    (hown : state.own = space ++ [mapping])
    (hfree : ∀ other ∈ space, meets other.range range = false) :
    brUnmap state range = .ok { state with own := space } := by
  have hself : rangeEq mapping.range range = true := rangeEq_iff.mpr hrange
  have hnone : ∀ other ∈ space, ¬ rangeEq other.range range = true := by
    intro other hother heq
    have hmeets := hfree other hother
    rw [rangeEq_iff.mp heq, meets, Bool.or_self, decide_eq_false_iff_not, mem_def,
      UInt64.sub_self] at hmeets
    exact hmeets (UInt64.pos_iff_ne_zero.mpr hsize)
  have hlast : [mapping].eraseP (fun other ↦ rangeEq other.range range) = [] :=
    List.eraseP_cons_of_pos hself
  rw [brUnmap, hown, if_pos ⟨mapping, List.mem_append_right _ (List.mem_singleton_self _), hself⟩,
    List.eraseP_append_right _ hnone, hlast, List.append_nil]

/-- The object for a copy of a segment is created. -/
def createdState (kernel : Kernel) (state : LoadState) (header : Elf64ProgramHeader) :
    LoadState where
  objects := Function.update state.objects state.created
    ⟨header.pagesSize, kernel.contents state⟩
  created := state.created + 1
  handles := state.created :: state.handles
  own := state.own
  target := state.target

/-- The mapping through which the loader writes to the object. -/
def segmentWindow (state : LoadState) (header : Elf64ProgramHeader) (base : UInt64) : Mapping :=
  ⟨⟨base, header.pagesSize⟩, state.created, 0, true⟩

/-- The object is mapped by the loader, and has some bytes. -/
def windowState (kernel : Kernel) (state : LoadState) (header : Elf64ProgramHeader)
    (base : UInt64) (bytes : ℕ → UInt8) : LoadState :=
  withBytes
    { createdState kernel state header with own := state.own ++ [segmentWindow state header base] }
    state.created bytes

theorem brCreate_eq (hsize : header.pagesSize ≠ 0)
    (henough : kernel.enough state header.pagesSize = true) :
    brCreate kernel state header.pagesSize =
      .ok (state.created, createdState kernel state header) := by
  rw [brCreate, if_pos ⟨pagesSize_mod header, hsize⟩, if_pos henough]
  rfl

theorem createdState_objects :
    (createdState kernel state header).objects state.created =
      ⟨header.pagesSize, kernel.contents state⟩ :=
  Function.update_self ..

/-- The mapping shows the bytes that the object was created with. -/
theorem windowState_contents :
    windowState kernel state header base (kernel.contents state) =
      { createdState kernel state header with
        own := state.own ++ [segmentWindow state header base] } := by
  rw [windowState, withBytes, createdState_objects, createdState, Function.update_idem]

/-- The loader maps the object, unless its space is full. -/
theorem brMap_created :
    brMap kernel (createdState kernel state header) .self state.created 0 0 0 true =
        .error .exhausted ∨
      ∃ base, (∀ other ∈ state.own, meets other.range ⟨base, header.pagesSize⟩ = false) ∧
        brMap kernel (createdState kernel state header) .self state.created 0 0 0 true =
          .ok (⟨base, header.pagesSize⟩,
            windowState kernel state header base (kernel.contents state)) := by
  have hhandle : state.created ∈ (createdState kernel state header).handles := List.mem_cons_self
  have hbind : brMap kernel (createdState kernel state header) .self state.created 0 0 0 true =
      spaceMap kernel state.own state.created ⟨header.pagesSize, kernel.contents state⟩ 0 0 0 true
        >>= fun mapped ↦
          .ok (mapped.1, { createdState kernel state header with own := mapped.2 }) := by
    rw [brMap, if_pos hhandle, createdState_objects]
    rfl
  rcases @spaceMap_own kernel state.created state.own header.pagesSize
    (pagesSize_mod header) (kernel.contents state) with hfull | ⟨base, hfree, hmap⟩
  · rw [hbind, hfull]
    exact Or.inl rfl
  · refine Or.inr ⟨base, hfree, ?_⟩
    rw [hbind, hmap, windowState_contents]
    rfl

theorem windowState_objects (bytes : ℕ → UInt8) :
    (windowState kernel state header base bytes).objects =
      Function.update state.objects state.created ⟨header.pagesSize, bytes⟩ := by
  rw [windowState, withBytes, createdState_objects, createdState, Function.update_idem]

/-- Bytes that are stored through the mapping. -/
theorem memCpy_window {data : List UInt8} (bytes : ℕ → UInt8)
    (hfree : ∀ other ∈ state.own, meets other.range ⟨base, header.pagesSize⟩ = false)
    (hdata : data.length ≤ header.pagesSize.toNat) :
    memCpy base data (windowState kernel state header base bytes) =
      .ok (windowState kernel state header base (writeAt bytes 0 data)) := by
  have hstored := @memCpy_eq (windowState kernel state header base bytes)
    (segmentWindow state header base) base data 0 rfl
  have hobject : (windowState kernel state header base bytes).objects
      (segmentWindow state header base).object = ⟨header.pagesSize, bytes⟩ := by
    rw [windowState_objects]
    exact Function.update_self ..
  have hagain : withBytes (windowState kernel state header base bytes) state.created
      (writeAt bytes 0 data) = windowState kernel state header base (writeAt bytes 0 data) :=
    withBytes_withBytes ..
  rw [hobject] at hstored
  rw [← hagain]
  apply hstored
  intro i hi
  have hlt := header.pagesSize.toNat_lt
  have hmem : base + UInt64.ofNat i ∈ (segmentWindow state header base).range :=
    add_ofNat_mem (Nat.lt_of_lt_of_le hi hdata)
  refine ⟨mappingAt_append hfree hmem, ?_⟩
  rw [Mapping.place, segmentWindow, UInt64.zero_add, Nat.zero_add]
  exact add_ofNat_sub base (by omega)

/-- The object is mapped in the new space. -/
theorem brMap_window (bytes : ℕ → UInt8) :
    brMap kernel (windowState kernel state header base bytes) .space state.created 0 0
        header.virtualAddress true =
      spaceMap kernel state.target state.created ⟨header.pagesSize, bytes⟩ 0 0
          header.virtualAddress true
        >>= fun mapped ↦
          .ok (mapped.1,
            { windowState kernel state header base bytes with target := mapped.2 }) := by
  have hhandle : state.created ∈ (windowState kernel state header base bytes).handles :=
    List.mem_cons_self
  have hobject : (windowState kernel state header base bytes).objects state.created =
      ⟨header.pagesSize, bytes⟩ := by
    rw [windowState_objects]
    exact Function.update_self ..
  rw [brMap, if_pos hhandle, hobject]
  rfl

/-- The mapping of the loader and its handle are taken back. -/
theorem closeWindow (hsize : header.pagesSize ≠ 0)
    (hfree : ∀ other ∈ state.own, meets other.range ⟨base, header.pagesSize⟩ = false)
    (target : AddressSpace) :
    (brUnmap
        { windowState kernel state header base (copyBytes kernel state file header) with target }
        ⟨base, header.pagesSize⟩ >>= fun unmapped ↦ balClose unmapped state.created) =
      .ok (copiedState kernel state file header target) := by
  have hhandle : state.created ∈ state.created :: state.handles := List.mem_cons_self
  have hhandles : (state.created :: state.handles).erase state.created = state.handles :=
    List.erase_cons_head ..
  rw [@brUnmap_last _ state.own (segmentWindow state header base) ⟨base, header.pagesSize⟩ hsize
    rfl rfl hfree, ok_bind, balClose, windowState_objects]
  refine (if_pos hhandle).trans ?_
  rw [copiedState]
  exact congrArg (fun handles ↦ Except.ok (LoadState.mk _ _ handles _ _)) hhandles

theorem copySegment_cases (h : Keeps elfMemory file state)
    (hinside : header.fileOffset.toNat + header.fileSize.toNat ≤ file.size.toNat) :
    (copySegment kernel elfMemory state header = .error .failed ∧ header.pagesSize = 0) ∨
      copySegment kernel elfMemory state header = .error .exhausted ∨
        (header.pagesSize ≠ 0 ∧ copySegment kernel elfMemory state header =
          spaceMap kernel state.target state.created
              ⟨header.pagesSize, copyBytes kernel state file header⟩ 0 0 header.virtualAddress true
            >>= fun mapped ↦ .ok (copiedState kernel state file header mapped.2)) := by
  by_cases hsize : header.pagesSize = 0
  · refine Or.inl ⟨?_, hsize⟩
    rw [copySegment, brCreate, if_neg fun hcheck ↦ hcheck.2 hsize]
    rfl
  by_cases henough : kernel.enough state header.pagesSize = true
  swap
  · refine Or.inr (Or.inl ?_)
    rw [copySegment, brCreate, if_pos ⟨pagesSize_mod header, hsize⟩, if_neg henough]
    rfl
  rw [copySegment, brCreate_eq hsize henough, ok_bind]
  dsimp only
  rcases @brMap_created kernel state header with hfull | ⟨base, hfree, hmap⟩
  · refine Or.inr (Or.inl ?_)
    rw [hfull]
    rfl
  refine Or.inr (Or.inr ⟨hsize, ?_⟩)
  let zeros := List.replicate header.pagesSize.toNat (0 : UInt8)
  have hset : memSet base 0 header.pagesSize.toNat
      (windowState kernel state header base (kernel.contents state)) =
        .ok (windowState kernel state header base (writeAt (kernel.contents state) 0 zeros)) :=
    memCpy_window _ hfree (List.length_replicate ..).le
  have hne : elfMemory ≠ state.created := Nat.ne_of_lt (h.handles elfMemory h.handle)
  have hfile : (windowState kernel state header base
      (writeAt (kernel.contents state) 0 zeros)).objects elfMemory = file := by
    rw [windowState_objects, Function.update_of_ne hne, h.file]
  have hcopy : memCpy base (readAt file.bytes header.fileOffset.toNat header.fileSize.toNat)
      (windowState kernel state header base (writeAt (kernel.contents state) 0 zeros)) =
        .ok (windowState kernel state header base (copyBytes kernel state file header)) := by
    apply memCpy_window _ hfree
    rw [length_readAt]
    exact (Nat.le_max_right ..).trans (span_le_pagesSize hsize)
  rw [hmap, ok_bind]
  dsimp only
  rw [hset, ok_bind, hfile, if_neg (Nat.not_lt.mpr hinside), hcopy, ok_bind, brMap_window]
  cases spaceMap kernel state.target state.created
      ⟨header.pagesSize, copyBytes kernel state file header⟩ 0 0 header.virtualAddress true with
  | error fault => rfl
  | ok placed => exact closeWindow hsize hfree placed.2

/-! ## One segment -/

/-- The mapping that a header adds to the new space. -/
structure AddsMapping (elfMemory : ℕ) (file : MemoryObject) (state : LoadState)
    (header : Elf64ProgramHeader) (mapping : Mapping) (state' : LoadState) : Prop where
  keeps : Keeps elfMemory file state'
  own : state'.own = state.own
  target : state'.target = state.target ++ [mapping]
  objects : ∀ object < state.created, state'.objects object = state.objects object
  created : state.created ≤ state'.created
  free : ∀ other ∈ state.target, meets other.range mapping.range = false
  size : mapping.range.size = if header.pagesSize = 0 then file.size else header.pagesSize
  base : header.virtualAddress ≠ 0 → mapping.range.base = header.virtualAddress
  chosen : header.virtualAddress = 0 → mapping.range.base ≠ 0
  content : ∀ k < header.span,
    (state'.objects mapping.object).bytes (mapping.place (mapping.range.base + UInt64.ofNat k)) =
      header.byte file k
  source : (mapping.object = elfMemory ∧ header.isWritable = false) ∨
    (mapping.object = state.created ∧ state.created < state'.created ∧ mapping.writable = true)

/-- A copy of a segment is read as it should be. -/
theorem copyBytes_eq (hsize : header.pagesSize ≠ 0) {k : ℕ} (hk : k < header.span) :
    copyBytes kernel state file header k = header.byte file k := by
  have hspan := span_le_pagesSize hsize
  rw [copyBytes, Elf64ProgramHeader.byte]
  by_cases hfile : k < header.fileSize.toNat
  · have hdata : k < (readAt file.bytes header.fileOffset.toNat header.fileSize.toNat).length := by
      rwa [length_readAt]
    have hinside : writeAt (writeAt (kernel.contents state) 0
        (List.replicate header.pagesSize.toNat 0)) 0
        (readAt file.bytes header.fileOffset.toNat header.fileSize.toNat) (0 + k) = _ :=
      writeAt_inside hdata
    rw [Nat.zero_add] at hinside
    rw [if_pos hfile, hinside]
    exact Option.some.inj ((List.getElem?_eq_getElem hdata).symm.trans (getElem?_readAt hfile))
  · have hzeros : k < (List.replicate header.pagesSize.toNat (0 : UInt8)).length := by
      rw [List.length_replicate]
      omega
    have hinside : writeAt (kernel.contents state) 0
        (List.replicate header.pagesSize.toNat 0) (0 + k) = _ := writeAt_inside hzeros
    rw [Nat.zero_add, List.getElem_replicate] at hinside
    rw [if_neg hfile, writeAt_outside (Or.inr (by rw [length_readAt]; omega)), hinside]

theorem copySegment_adds (h : Keeps elfMemory file state)
    (hinside : header.fileOffset.toNat + header.fileSize.toNat ≤ file.size.toNat)
    (hok : copySegment kernel elfMemory state header = .ok state') :
    ∃ mapping, AddsMapping elfMemory file state header mapping state' := by
  have hcases := @copySegment_cases kernel state elfMemory file header h hinside
  rw [hok] at hcases
  rcases hcases with ⟨hfailed, -⟩ | hexhausted | ⟨hsize, hcopies⟩
  · cases hfailed
  · cases hexhausted
  obtain ⟨⟨range, target⟩, hmap, hdone⟩ := bind_eq_ok.mp hcopies.symm
  cases hdone
  obtain ⟨hmaps, rfl⟩ := spaceMap_ok hmap
  let copy : Mapping := ⟨range, state.created, 0, true⟩
  let state' := copiedState kernel state file header (state.target ++ [copy])
  have hold : ∀ object < state.created, state'.objects object = state.objects object :=
    fun object hlt ↦ Function.update_of_ne (Nat.ne_of_lt hlt) ..
  have hnew : state'.objects state.created =
      ⟨header.pagesSize, copyBytes kernel state file header⟩ := Function.update_self ..
  have hmapped : range.size = header.pagesSize := by
    have hsize' := hmaps.size
    rwa [if_pos rfl] at hsize'
  have hkeeps : Keeps elfMemory file state' := by
    refine ⟨(hold _ (h.handles elfMemory h.handle)).trans h.file, h.handle,
      fun handle hmem ↦ Nat.lt_succ_of_lt (h.handles handle hmem),
      fun mapping hmem ↦ Nat.lt_succ_of_lt (h.own mapping hmem), fun mapping hmem ↦ ?_⟩
    rcases List.mem_append.mp hmem with hmem | hmem
    · exact Nat.lt_succ_of_lt (h.target mapping hmem)
    · rw [List.mem_singleton.mp hmem]
      exact Nat.lt_succ_self _
  refine ⟨copy, hkeeps, rfl, rfl, hold, Nat.le_succ _, hmaps.free, ?_, hmaps.base, hmaps.chosen,
    fun k hk ↦ ?_, Or.inr ⟨rfl, Nat.lt_succ_self _, rfl⟩⟩
  · rw [if_neg hsize]
    exact hmapped
  · have hspan := span_le_pagesSize hsize
    have hlt := header.pagesSize.toNat_lt
    have hplace : copy.place (range.base + UInt64.ofNat k) = k := by
      rw [Mapping.place, UInt64.zero_add]
      exact add_ofNat_sub range.base (by omega)
    rw [hplace, hnew]
    exact copyBytes_eq hsize hk

theorem brMap_space (h : Keeps elfMemory file state) :
    brMap kernel state .space elfMemory offset size vaddr writable =
      spaceMap kernel state.target elfMemory file offset size vaddr writable
        >>= fun mapped ↦ .ok (mapped.1, { state with target := mapped.2 }) := by
  rw [brMap, if_pos h.handle, h.file]
  rfl

theorem loadSegment_adds (h : Keeps elfMemory file state) (hfits : header.Fits file)
    (hok : loadSegment kernel elfMemory state header = .ok state') :
    ∃ mapping, AddsMapping elfMemory file state header mapping state' := by
  rw [loadSegment] at hok
  split at hok
  next hshared =>
    rw [Bool.and_eq_true, Bool.not_eq_true', beq_iff_eq] at hshared
    obtain ⟨hreadOnly, hsame⟩ := hshared
    rw [brMap_space h] at hok
    obtain ⟨placed, hcall, hdone⟩ := bind_eq_ok.mp hok
    obtain ⟨⟨range, target⟩, hmap, hplaced⟩ := bind_eq_ok.mp hcall
    cases hplaced
    cases hdone
    obtain ⟨hmaps, rfl⟩ := spaceMap_ok hmap
    refine ⟨_, ⟨h.file, h.handle, h.handles, h.own, fun mapping hmem ↦ ?_⟩, rfl, rfl,
      fun _ _ ↦ rfl, Nat.le_refl _, hmaps.free, hmaps.size, hmaps.base, hmaps.chosen,
      fun k hk ↦ ?_, Or.inl ⟨rfl, hreadOnly⟩⟩
    · rcases List.mem_append.mp hmem with hmem | hmem
      · exact h.target mapping hmem
      · rw [List.mem_singleton.mp hmem]
        exact h.handles elfMemory h.handle
    · have hbytes : k < header.fileSize.toNat := by
        rwa [Elf64ProgramHeader.span, ← hsame, Nat.max_self] at hk
      have hinside := hfits.inside
      have hlt := file.size.toNat_lt
      have hplace : Mapping.place ⟨range, elfMemory, header.fileOffset, false⟩
          (range.base + UInt64.ofNat k) = header.fileOffset.toNat + k := by
        rw [Mapping.place, UInt64.toNat_add]
        dsimp only
        rw [add_ofNat_sub range.base (by omega), Nat.mod_eq_of_lt (by omega)]
      rw [hplace, Elf64ProgramHeader.byte, if_pos hbytes]
      exact congrArg (fun object ↦ object.bytes (header.fileOffset.toNat + k)) h.file
  next => exact copySegment_adds h hfits.inside hok

/-- A segment that is not empty, on pages that are not the first ones. -/
theorem pagesSize_of_fits (hfits : header.Fits file) (hplaced : header.virtualAddress ≠ 0)
    (hnonempty : header.span ≠ 0) :
    header.pagesSize.toNat = (header.span + 4095) / 4096 * 4096 ∧ header.pagesSize ≠ 0 := by
  have hne : header.virtualAddress.toNat ≠ 0 := fun hzero ↦ hplaced (UInt64.toNat_inj.mp hzero)
  have haligned := hfits.aligned.1
  have hbounded := hfits.bounded
  have hsize := pagesSize_toNat header
  rw [Nat.mod_eq_of_lt (by omega)] at hsize
  refine ⟨hsize, fun hzero ↦ ?_⟩
  rw [hzero] at hsize
  have hzero' : (0 : UInt64).toNat = 0 := rfl
  omega

/-- A segment that fits, is not empty and not at the address 0 is loaded where nothing is mapped. -/
theorem loadSegment_returns (h : Keeps elfMemory file state) (hwhole : file.size.toNat % 4096 = 0)
    (hfits : header.Fits file) (hplaced : header.virtualAddress ≠ 0) (hnonempty : header.span ≠ 0)
    (hfree : ∀ other ∈ state.target, meets other.range header.pages = false) :
    loadSegment kernel elfMemory state header = .error .exhausted ∨
      ∃ state', loadSegment kernel elfMemory state header = .ok state' := by
  obtain ⟨hsize, hne⟩ := pagesSize_of_fits hfits hplaced hnonempty
  obtain ⟨haligned, hoffset⟩ := hfits.aligned
  have hpages : memIsRangePageAligned header.pages = true :=
    memIsRangePageAligned_iff.mpr ⟨haligned, by
      rw [Elf64ProgramHeader.pages, hsize, Nat.mul_mod_left]⟩
  rw [loadSegment]
  split
  next hshared =>
    rw [Bool.and_eq_true, beq_iff_eq] at hshared
    have hspan : header.span = header.fileSize.toNat := by
      rw [Elf64ProgramHeader.span, ← hshared.2, Nat.max_self]
    have hinside := hfits.inside
    have hlt := file.size.toNat_lt
    have hfilePages : header.fileOffset + header.pagesSize ≤ file.size := by
      rw [UInt64.le_iff_toNat_le, UInt64.toNat_add, hsize, hspan]
      omega
    have hfileOffset : header.fileOffset % memPageSize = 0 := by
      rw [← UInt64.toNat_inj, UInt64.toNat_mod, memPageSize_toNat]
      exact hoffset
    obtain ⟨mapped, hmap⟩ := @spaceMap_returns kernel elfMemory file state.target
      header.fileOffset header.pagesSize header.virtualAddress false hplaced
      (by rwa [if_neg hne]) (by rwa [if_neg hne]) hfileOffset (by rwa [if_neg hne])
    rw [brMap_space h, hmap]
    exact Or.inr ⟨_, rfl⟩
  next =>
    rcases @copySegment_cases kernel state elfMemory file header h hfits.inside with
      ⟨-, hzero⟩ | hexhausted | ⟨-, hcopies⟩
    · exact absurd hzero hne
    · exact Or.inl hexhausted
    · obtain ⟨mapped, hmap⟩ := @spaceMap_returns kernel state.created
        ⟨header.pagesSize, copyBytes kernel state file header⟩ state.target 0 0
        header.virtualAddress true hplaced (by
          rw [if_pos rfl, UInt64.zero_add]
          exact UInt64.le_refl _) hpages rfl hfree
      rw [hcopies, hmap]
      exact Or.inr ⟨_, rfl⟩

/-- A mapping of the new space belongs to a header. -/
structure MappedFor (elfMemory : ℕ) (file : MemoryObject) (state : LoadState)
    (header : Elf64ProgramHeader) (mapping : Mapping) : Prop where
  size : mapping.range.size = if header.pagesSize = 0 then file.size else header.pagesSize
  base : header.virtualAddress ≠ 0 → mapping.range.base = header.virtualAddress
  chosen : header.virtualAddress = 0 → mapping.range.base ≠ 0
  object : mapping.object < state.created
  content : ∀ k < header.span,
    (state.objects mapping.object).bytes (mapping.place (mapping.range.base + UInt64.ofNat k)) =
      header.byte file k
  copy : header.isWritable = true → mapping.writable = true ∧ mapping.object ≠ elfMemory ∧
    (state.target ++ state.own).filter (·.object == mapping.object) = [mapping]

/-- The mappings of the new space are those of the headers. -/
structure Loaded (elfMemory : ℕ) (file : MemoryObject) (headers : List Elf64ProgramHeader)
    (state : LoadState) : Prop where
  keeps : Keeps elfMemory file state
  separate : Separate state.target
  mapped : List.Forall₂ (MappedFor elfMemory file state) headers state.target

variable {headers rest : List Elf64ProgramHeader}

theorem filter_object_eq_nil (h : ∀ mapping ∈ space, mapping.object ≠ object) :
    space.filter (·.object == object) = [] := by
  rw [List.filter_eq_nil_iff]
  intro mapping hmem heq
  exact h mapping hmem (beq_iff_eq.mp heq)

/-- Another mapping leaves the earlier ones as they are. -/
theorem MappedFor.add {header' : Elf64ProgramHeader} {mapping' : Mapping}
    (h : MappedFor elfMemory file state header mapping)
    (hadds : AddsMapping elfMemory file state header' mapping' state') :
    MappedFor elfMemory file state' header mapping := by
  refine ⟨h.size, h.base, h.chosen, Nat.lt_of_lt_of_le h.object hadds.created, fun k hk ↦ ?_,
    fun hwritable ↦ ?_⟩
  · rw [hadds.objects _ h.object]
    exact h.content k hk
  · obtain ⟨hwrite, hne, hfilter⟩ := h.copy hwritable
    have hother : mapping'.object ≠ mapping.object := by
      rcases hadds.source with ⟨hfile, -⟩ | ⟨hnew, -, -⟩
      · rw [hfile]
        exact hne.symm
      · rw [hnew]
        exact (Nat.ne_of_lt h.object).symm
    have hnone : [mapping'].filter (·.object == mapping.object) = [] :=
      filter_object_eq_nil fun other hmem ↦ List.mem_singleton.mp hmem ▸ hother
    refine ⟨hwrite, hne, ?_⟩
    rw [List.filter_append] at hfilter
    rw [hadds.target, hadds.own, List.filter_append, List.filter_append, hnone, List.append_nil]
    exact hfilter

/-- The mapping that a header adds belongs to it. -/
theorem AddsMapping.mappedFor (h : AddsMapping elfMemory file state header mapping state')
    (hkeeps : Keeps elfMemory file state) : MappedFor elfMemory file state' header mapping := by
  have hmem : mapping ∈ state'.target := by
    rw [h.target]
    exact List.mem_append_right _ (List.mem_singleton_self _)
  refine ⟨h.size, h.base, h.chosen, h.keeps.target mapping hmem, h.content, fun hwritable ↦ ?_⟩
  rcases h.source with ⟨-, hreadOnly⟩ | ⟨hnew, -, hwrite⟩
  · rw [hwritable] at hreadOnly
    cases hreadOnly
  · have htarget : state.target.filter (·.object == mapping.object) = [] :=
      filter_object_eq_nil fun other hother ↦ hnew ▸ Nat.ne_of_lt (hkeeps.target other hother)
    have hown : state.own.filter (·.object == mapping.object) = [] :=
      filter_object_eq_nil fun other hother ↦ hnew ▸ Nat.ne_of_lt (hkeeps.own other hother)
    have hself : [mapping].filter (·.object == mapping.object) = [mapping] :=
      List.filter_cons_of_pos (beq_self_eq_true mapping.object)
    refine ⟨hwrite, ?_, ?_⟩
    · rw [hnew]
      exact (Nat.ne_of_lt (hkeeps.handles elfMemory hkeeps.handle)).symm
    · rw [h.target, h.own, List.filter_append, List.filter_append, htarget, hself, hown]
      rfl

theorem Loaded.step (h : Loaded elfMemory file headers state)
    (hadds : AddsMapping elfMemory file state header mapping state') :
    Loaded elfMemory file (headers ++ [header]) state' := by
  refine ⟨hadds.keeps, ?_, ?_⟩
  · rw [hadds.target]
    exact h.separate.append hadds.free
  · rw [hadds.target]
    exact List.rel_append (h.mapped.imp fun header' mapping' hmapped ↦ hmapped.add hadds)
      (List.Forall₂.cons (hadds.mappedFor h.keeps) List.Forall₂.nil)

/-- Segments that were loaded one after the other are all there. -/
theorem Loaded.foldlM (h : Loaded elfMemory file headers state)
    (hfits : ∀ header ∈ rest, header.Fits file)
    (hok : rest.foldlM (loadSegment kernel elfMemory) state = .ok state') :
    Loaded elfMemory file (headers ++ rest) state' := by
  induction rest generalizing headers state with
  | nil =>
    cases hok
    rwa [List.append_nil]
  | cons header rest ih =>
    obtain ⟨hfirst, hrest⟩ := List.forall_mem_cons.mp hfits
    rw [List.foldlM_cons] at hok
    obtain ⟨next, hnext, hok⟩ := bind_eq_ok.mp hok
    obtain ⟨mapping, hadds⟩ := loadSegment_adds h.keeps hfirst hnext
    rw [List.append_cons]
    exact ih (h.step hadds) hrest hok

/-- The pages of two segments are apart if the segments are. -/
theorem meets_pages {header' : Elf64ProgramHeader} (hfits : header.Fits file)
    (hfits' : header'.Fits file) (hplaced : header.virtualAddress ≠ 0)
    (hplaced' : header'.virtualAddress ≠ 0) (hnonempty : header.span ≠ 0)
    (hnonempty' : header'.span ≠ 0) (hapart : header.Apart header') :
    meets header.pages header'.pages = false := by
  have hsize := (pagesSize_of_fits hfits hplaced hnonempty).1
  have hsize' := (pagesSize_of_fits hfits' hplaced' hnonempty').1
  have haligned := hfits.aligned.1
  have haligned' := hfits'.aligned.1
  have hbounded := hfits.bounded
  have hbounded' := hfits'.bounded
  rw [Elf64ProgramHeader.Apart] at hapart
  rw [meets, Bool.or_eq_false_iff, decide_eq_false_iff_not, decide_eq_false_iff_not, mem_def,
    mem_def, UInt64.not_lt, UInt64.not_lt, UInt64.le_iff_toNat_le, UInt64.le_iff_toNat_le,
    UInt64.toNat_sub, UInt64.toNat_sub, Elf64ProgramHeader.pages, Elf64ProgramHeader.pages]
  dsimp only
  rw [hsize, hsize']
  omega

/-- Segments that fit and are apart are loaded one after the other. -/
theorem Loaded.foldlM_returns (h : Loaded elfMemory file headers state)
    (hwhole : file.size.toNat % 4096 = 0) (hfits : ∀ header ∈ rest, header.Fits file)
    (hplaced : ∀ header ∈ rest, header.virtualAddress ≠ 0)
    (hnonempty : ∀ header ∈ rest, header.span ≠ 0)
    (hapart : rest.Pairwise Elf64ProgramHeader.Apart)
    (hfree : ∀ other ∈ state.target, ∀ header ∈ rest, meets other.range header.pages = false) :
    rest.foldlM (loadSegment kernel elfMemory) state = .error .exhausted ∨
      ∃ state', rest.foldlM (loadSegment kernel elfMemory) state = .ok state' := by
  induction rest generalizing headers state with
  | nil => exact Or.inr ⟨state, rfl⟩
  | cons header rest ih =>
    obtain ⟨hfirst, hrest⟩ := List.forall_mem_cons.mp hfits
    obtain ⟨hplace, hplaces⟩ := List.forall_mem_cons.mp hplaced
    obtain ⟨hspan, hspans⟩ := List.forall_mem_cons.mp hnonempty
    obtain ⟨hother, hothers⟩ := List.pairwise_cons.mp hapart
    rw [List.foldlM_cons]
    rcases @loadSegment_returns kernel state elfMemory file header h.keeps hwhole hfirst hplace
      hspan fun other hmem ↦ hfree other hmem header List.mem_cons_self with
      hexhausted | ⟨next, hnext⟩
    · rw [hexhausted]
      exact Or.inl rfl
    · obtain ⟨mapping, hadds⟩ := loadSegment_adds h.keeps hfirst hnext
      rw [hnext, ok_bind]
      refine ih (h.step hadds) hrest hplaces hspans hothers fun other hmem later hlater ↦ ?_
      rw [hadds.target] at hmem
      rcases List.mem_append.mp hmem with hold | hnew
      · exact hfree other hold later (List.mem_cons_of_mem _ hlater)
      · have hrange : mapping.range = header.pages := by
          have hsize := hadds.size
          rw [if_neg (pagesSize_of_fits hfirst hplace hspan).2] at hsize
          have hbase := hadds.base hplace
          calc
            mapping.range = ⟨mapping.range.base, mapping.range.size⟩ := rfl
            _ = header.pages := by rw [hbase, hsize]; rfl
        rw [List.mem_singleton.mp hnew, hrange]
        exact meets_pages hfirst (hrest later hlater) hplace (hplaces later hlater) hspan
          (hspans later hlater) (hother later hlater)

/-- At a header of another type the loop stays where it is. -/
theorem execLoadLoop_stuck {programsSize left off : ℕ} (h : state.objects elfMemory = file)
    (hinside : off + programHeaderSize ≤ file.size.toNat)
    (hother : (programHeader file off).isLoad = false) :
    execLoadLoop kernel elfMemory programsSize left off state = .ok state := by
  induction left with
  | zero => rfl
  | succ left ih =>
    rw [execLoadLoop]
    dsimp only
    rw [h, if_neg (Nat.not_lt.mpr hinside), hother]
    exact ih

/-- The loop loads the segments up to the first header of another type. -/
theorem execLoadLoop_eq (hvalid : ValidElf file) (h : Keeps elfMemory file state) {left i : ℕ}
    (hcount : i + left = (elfHeader file).programsCount.toNat) :
    execLoadLoop kernel elfMemory (elfHeader file).programsSize.toNat left (headerPlace file i)
        state =
      (((programHeaders file).drop i).takeWhile Elf64ProgramHeader.isLoad).foldlM
        (loadSegment kernel elfMemory) state := by
  induction left generalizing i state with
  | zero =>
    rw [List.drop_eq_nil_of_le (by
      rw [programHeaders, List.length_map, List.length_range]
      omega)]
    rfl
  | succ left ih =>
    have hi : i < (programHeaders file).length := by
      rw [programHeaders, List.length_map, List.length_range]
      omega
    have hhead : (programHeaders file)[i] = programHeader file (headerPlace file i) := by
      simp only [programHeaders, List.getElem_map, List.getElem_range]
    have hinside := hvalid.table i (by omega)
    rw [List.drop_eq_getElem_cons hi, hhead]
    by_cases hload : (programHeader file (headerPlace file i)).isLoad = true
    · have hmem : programHeader file (headerPlace file i) ∈ loadHeaders file :=
        List.mem_filter.mpr ⟨hhead ▸ List.getElem_mem hi, hload⟩
      have hnext : headerPlace file i + (elfHeader file).programsSize.toNat =
          headerPlace file (i + 1) := by
        rw [headerPlace, headerPlace, Nat.succ_mul, Nat.add_assoc]
      rw [execLoadLoop]
      dsimp only
      rw [h.file, if_neg (Nat.not_lt.mpr hinside), if_pos hload, List.takeWhile_cons_of_pos hload,
        List.foldlM_cons]
      cases hsegment : loadSegment kernel elfMemory state
          (programHeader file (headerPlace file i)) with
      | error fault => rfl
      | ok next =>
        obtain ⟨mapping, hadds⟩ := loadSegment_adds h (hvalid.fits _ hmem) hsegment
        rw [ok_bind, ok_bind, hnext]
        exact ih hadds.keeps (by omega)
    · rw [List.takeWhile_cons_of_neg hload]
      exact execLoadLoop_stuck h.file hinside (Bool.not_eq_true _ ▸ hload)

/-- Loading is loading the segments before the first header of another type. -/
theorem balExecLoad_eq (h : ValidState state elfMemory) :
    balExecLoad kernel state elfMemory =
      ((programHeaders (state.objects elfMemory)).takeWhile Elf64ProgramHeader.isLoad).foldlM
        (loadSegment kernel elfMemory) state := by
  have hkeeps : Keeps elfMemory (state.objects elfMemory) state :=
    ⟨rfl, h.handle, h.handles, h.own, by
      rw [h.target]
      exact List.forall_mem_nil _⟩
  have hloop := @execLoadLoop_eq kernel state elfMemory (state.objects elfMemory) h.file hkeeps
    (elfHeader (state.objects elfMemory)).programsCount.toNat 0 (Nat.zero_add _)
  rw [balExecLoad]
  dsimp only
  rw [if_neg (Nat.not_lt.mpr h.file.header)]
  rw [headerPlace, Nat.zero_mul, Nat.add_zero, List.drop_zero] at hloop
  exact hloop

theorem takeWhile_sublist_filter {α : Type} (p : α → Bool) (l : List α) :
    (l.takeWhile p).Sublist (l.filter p) := by
  have hall : (l.takeWhile p).filter p = l.takeWhile p :=
    List.filter_eq_self.mpr fun _ hmem ↦ List.mem_takeWhile_imp hmem
  have hsub := (List.takeWhile_sublist p (l := l)).filter p
  rwa [hall] at hsub

/-- The elements with a property come first exactly when they are all before the first one without
it. -/
theorem pairwise_iff_takeWhile_eq {α : Type} (p : α → Bool) (l : List α) :
    l.Pairwise (fun first later ↦ p later = true → p first = true) ↔
      l.takeWhile p = l.filter p := by
  induction l with
  | nil => exact iff_of_true List.Pairwise.nil rfl
  | cons first rest ih =>
    rw [List.pairwise_cons]
    by_cases hfirst : p first = true
    · rw [List.takeWhile_cons_of_pos hfirst, List.filter_cons_of_pos hfirst, List.cons_inj_right,
        ← ih]
      exact and_iff_right fun _ _ _ ↦ hfirst
    · rw [List.takeWhile_cons_of_neg hfirst, List.filter_cons_of_neg hfirst,
        @eq_comm _ [], List.filter_eq_nil_iff]
      constructor
      · rintro ⟨hlater, -⟩ later hmem hp
        exact hfirst (hlater later hmem hp)
      · intro hnone
        exact ⟨fun later hmem hp ↦ absurd hp (hnone later hmem),
          List.pairwise_of_forall_mem_list fun _ _ later hmem hp ↦ absurd hp (hnone later hmem)⟩

theorem MappedFor.range_eq (h : MappedFor elfMemory file state header mapping)
    (hplaced : header.virtualAddress ≠ 0) (hsize : header.pagesSize ≠ 0) :
    mapping.range = header.pages := by
  have hsize' := h.size
  rw [if_neg hsize] at hsize'
  calc
    mapping.range = ⟨mapping.range.base, mapping.range.size⟩ := rfl
    _ = header.pages := by rw [h.base hplaced, hsize']; rfl

/-- Two lists in relation with equal images have related elements with equal images. -/
theorem exists_of_forall₂ {R : Elf64ProgramHeader → Mapping → Prop}
    (h : List.Forall₂ R headers space) (hheader : header ∈ headers) :
    ∃ mapping ∈ space, R header mapping ∧
      (space.map Mapping.range = headers.map Elf64ProgramHeader.pages →
        mapping.range = header.pages) := by
  induction h with
  | nil => exact absurd hheader List.not_mem_nil
  | cons hfirst _ ih =>
    rcases List.mem_cons.mp hheader with rfl | hmem
    · exact ⟨_, List.mem_cons_self, hfirst, fun heq ↦ (List.cons.inj heq).1⟩
    · obtain ⟨mapping, hmapping, hrel, hrange⟩ := ih hmem
      exact ⟨mapping, List.mem_cons_of_mem _ hmapping, hrel,
        fun heq ↦ hrange (List.cons.inj heq).2⟩

theorem map_range_of_forall₂ {R : Elf64ProgramHeader → Mapping → Prop}
    (h : List.Forall₂ R headers space)
    (hrange : ∀ header ∈ headers, ∀ mapping, R header mapping → mapping.range = header.pages) :
    space.map Mapping.range = headers.map Elf64ProgramHeader.pages := by
  induction h with
  | nil => rfl
  | cons hfirst _ ih =>
    obtain ⟨hhead, htail⟩ := List.forall_mem_cons.mp hrange
    rw [List.map_cons, List.map_cons, hhead _ hfirst, ih htail]

/-- When all segments were loaded, the image is there. -/
theorem Loaded.image (hvalid : ValidElf file) (hloadable : Loadable file)
    (h : Loaded elfMemory file (loadHeaders file) state) : ImageLoaded file elfMemory state := by
  have hrange : ∀ header ∈ loadHeaders file, ∀ mapping,
      MappedFor elfMemory file state header mapping → mapping.range = header.pages :=
    fun header hmem mapping hmapped ↦ hmapped.range_eq (hloadable.placed header hmem)
      (pagesSize_of_fits (hvalid.fits header hmem) (hloadable.placed header hmem)
        (hloadable.nonempty header hmem)).2
  refine ⟨map_range_of_forall₂ h.mapped hrange, fun header hmem k hk ↦ ?_,
    fun header hmem hwritable ↦ ?_⟩
  · obtain ⟨mapping, hmapping, hmapped, -⟩ := exists_of_forall₂ h.mapped hmem
    have hpages := hrange header hmem mapping hmapped
    have hsize := span_le_pagesSize (pagesSize_of_fits (hvalid.fits header hmem)
      (hloadable.placed header hmem) (hloadable.nonempty header hmem)).2
    have hbase : header.virtualAddress = mapping.range.base := by
      rw [hpages]
      rfl
    have haddr : mapping.range.base + UInt64.ofNat k ∈ mapping.range := by
      apply add_ofNat_mem
      rw [hpages]
      exact Nat.lt_of_lt_of_le hk hsize
    rw [byteAt, hbase, mappingAt_of_mem h.separate hmapping haddr, Option.map_some,
      hmapped.content k hk]
  · obtain ⟨mapping, hmapping, hmapped, -⟩ := exists_of_forall₂ h.mapped hmem
    obtain ⟨hwrite, hne, hfilter⟩ := hmapped.copy hwritable
    exact ⟨mapping, hmapping, hrange header hmem mapping hmapped, hwrite, hne, hfilter⟩

/-- `bal_exec_load` builds the image exactly when the LOAD segments come first in the file and none
of them is empty or at the address 0, as long as the kernel has memory for it. -/
theorem balExecLoad_loadsImage_iff (kernel : Kernel) (state : LoadState) (elfMemory : ℕ)
    (hvalid : ValidState state elfMemory)
    (hroom : balExecLoad kernel state elfMemory ≠ .error .exhausted) :
    LoadsImage kernel state elfMemory ↔ Loadable (state.objects elfMemory) := by
  have hstart : Loaded elfMemory (state.objects elfMemory) [] state := by
    refine ⟨⟨rfl, hvalid.handle, hvalid.handles, hvalid.own, ?_⟩, ?_, ?_⟩
    · rw [hvalid.target]
      exact List.forall_mem_nil _
    · rw [hvalid.target]
      exact List.Pairwise.nil
    · rw [hvalid.target]
      exact List.Forall₂.nil
  have hfirst := takeWhile_sublist_filter Elf64ProgramHeader.isLoad
    (programHeaders (state.objects elfMemory))
  rw [LoadsImage]
  rw [balExecLoad_eq hvalid] at hroom ⊢
  constructor
  · rintro ⟨state', hok, himage⟩
    have hloaded := hstart.foldlM (fun header hmem ↦ hvalid.file.fits header (hfirst.subset hmem))
      hok
    rw [List.nil_append] at hloaded
    have hlength := hloaded.mapped.length_eq
    have hlength' := congrArg List.length himage.mappings
    rw [List.length_map, List.length_map] at hlength'
    have hall := hfirst.eq_of_length (hlength.trans hlength')
    rw [hall] at hloaded
    refine ⟨(pairwise_iff_takeWhile_eq _ _).mpr hall, fun header hmem hzero ↦ ?_,
      fun header hmem hempty ↦ ?_⟩
    · obtain ⟨mapping, -, hmapped, hrange⟩ := exists_of_forall₂ hloaded.mapped hmem
      have hbase := hmapped.chosen hzero
      rw [hrange himage.mappings] at hbase
      exact hbase hzero
    · obtain ⟨mapping, -, hmapped, hrange⟩ := exists_of_forall₂ hloaded.mapped hmem
      have hzero : header.pagesSize = 0 := by
        rw [← UInt64.toNat_inj, pagesSize_toNat, hempty]
        rfl
      have hsize := hmapped.size
      rw [if_pos hzero, hrange himage.mappings, Elf64ProgramHeader.pages] at hsize
      dsimp only at hsize
      have hheader := hvalid.file.header
      rw [← hsize, hzero] at hheader
      exact absurd hheader (by decide)
  · intro hloadable
    have hall := (pairwise_iff_takeWhile_eq _ _).mp hloadable.order
    rw [hall] at hroom ⊢
    rcases @Loaded.foldlM_returns kernel state elfMemory _ [] _ hstart hvalid.file.whole
      hvalid.file.fits hloadable.placed hloadable.nonempty hvalid.file.apart (by
        rw [hvalid.target]
        exact List.forall_mem_nil _) with hexhausted | ⟨state', hok⟩
    · exact absurd hexhausted hroom
    · have hloaded := hstart.foldlM hvalid.file.fits hok
      rw [List.nil_append] at hloaded
      exact ⟨state', hok, hloaded.image hvalid.file hloadable⟩

/-- A file of two pages with two headers of the given types, both for its second page, which may be
read and executed at `0x400000`. -/
def twoHeadersFile (first second : UInt8) : MemoryObject where
  size := 0x2000
  bytes i := (List.lookup i [(32, 64), (54, 56), (56, 2),
    (64, first), (68, 5), (73, 0x10), (82, 0x40), (97, 0x10), (105, 0x10),
    (120, second), (124, 5), (129, 0x10), (138, 0x40), (153, 0x10), (161, 0x10)]).getD 0

def twoHeadersState (first second : UInt8) : LoadState :=
  ⟨fun _ ↦ twoHeadersFile first second, 1, [0], [], []⟩

/-- A kernel with enough memory, which tries one address. -/
def oneAddressKernel : Kernel where
  place space size :=
    if ∀ mapping ∈ space, meets mapping.range ⟨0x10000000, size⟩ = false then some 0x10000000
    else none
  enough _ _ := true
  contents _ _ := 0
  place_spec := by
    intro space size base h
    split at h
    next hfree =>
      cases h
      exact ⟨by decide, by decide, hfree⟩
    next => cases h

theorem twoHeadersFile_loadHeaders :
    loadHeaders (twoHeadersFile 1 4) = [⟨1, 5, 0x1000, 0x400000, 0x1000, 0x1000⟩] := by decide

theorem twoHeadersState_valid : ValidState (twoHeadersState 1 4) 0 := by
  refine ⟨⟨by decide, by decide, by decide, fun header hmem ↦ ?_, ?_⟩, by decide, by decide,
    List.forall_mem_nil _, rfl⟩
  · rw [show (twoHeadersState 1 4).objects 0 = twoHeadersFile 1 4 from rfl,
      twoHeadersFile_loadHeaders] at hmem
    rw [List.mem_singleton.mp hmem]
    exact ⟨by decide, by decide, by decide⟩
  · rw [show (twoHeadersState 1 4).objects 0 = twoHeadersFile 1 4 from rfl,
      twoHeadersFile_loadHeaders]
    exact List.pairwise_singleton _ _

theorem balExecLoad_loadsImage_loadFirst : LoadsImage oneAddressKernel (twoHeadersState 1 4) 0 :=
  (balExecLoad_loadsImage_iff oneAddressKernel (twoHeadersState 1 4) 0 twoHeadersState_valid
    (by
      intro hexhausted
      cases hexhausted)).mpr
    ⟨by decide, by decide, by decide⟩

/-- A segment behind a NOTE is not loaded. -/
theorem balExecLoad_loadsImage_fails :
    ¬ LoadsImage oneAddressKernel (twoHeadersState 4 1) 0 := by
  rintro ⟨state', hok, himage⟩
  have hnothing : balExecLoad oneAddressKernel (twoHeadersState 4 1) 0 =
      .ok (twoHeadersState 4 1) := rfl
  rw [hnothing] at hok
  cases hok
  exact absurd himage.mappings (by decide)

end Brutal.Task
