import Brutal.Kernel.Vmm
import Brutal.Ds.RangeAlloc

/-!
# Memory objects and spaces

`kernel/memory.c` and `kernel/space.c`.  A space keeps a list of its mappings, each with the object
it maps; what the object is to the rest of the kernel does not matter here, so it is of any type.

`space_map` compares `offset + size` with the size of the memory object in 64-bit arithmetic.  A
mapping that it makes stays inside the object exactly when that sum does not wrap.
-/

namespace Brutal.Kernel

open Base Boot Ds Lib

/-- `MemoryType` -/
inductive MemoryType where
  | pmm
  | heap
  | dma
deriving DecidableEq, Repr

/-- `Memory`, whose range is in the window at `MMAP_IO_BASE` for `MEMORY_HEAP` and physical
otherwise. -/
structure Memory where
  type : MemoryType
  range : USizeRange
deriving DecidableEq, Repr

def heapToPmm (range : USizeRange) : USizeRange := { range with base := mmapIoToPhys range.base }

def memoryRange (self : Memory) : USizeRange :=
  if self.type = .heap then heapToPmm self.range else self.range

def memoryBase (self : Memory) : UInt64 := (memoryRange self).base

def memorySize (self : Memory) : UInt64 := (memoryRange self).size

variable {α : Type}

/-- `Mmap` -/
structure Mmap (α : Type) where
  range : USizeRange
  object : α
  offset : UInt64

/-- `Space`, without the object header, the lock and the flags, which play no part in mapping. -/
structure Space (α : Type) where
  vmm : UInt64
  mmaps : List (Mmap α)
  alloc : RangeAlloc

/-- `SpaceResult` -/
abbrev SpaceResult := Except BrResult USizeRange

/-- `space_create`, where `memory` is what the vector of free ranges will hold behind its
elements. -/
def spaceCreate (memory : ℕ → USizeRange) (vmm : Vmm) : Except Fault (Space α × Vmm) := do
  let (table, vmm) ← vmmSpaceCreate vmm
  let alloc ← rangeAllocUnused (rangeAllocInit memory) ⟨0x400000, 0x800000000000⟩
  pure (⟨table, [], alloc⟩, vmm)

/-- `space_mmap_create`, which takes a reference to the object. -/
def spaceMmapCreate (space : Space α) (vmm : Vmm) (object : α) (memory : Memory)
    (offset : UInt64) (range : USizeRange) (flags : BrMemoryFlags) :
    Except Fault (Space α × Vmm) := do
  let space := { space with mmaps := space.mmaps ++ [⟨range, object, offset⟩] }
  let pmm : USizeRange := ⟨memoryBase memory + offset, range.size⟩
  let (_, vmm) ← vmmMap vmm space.vmm range pmm (brMemUser ||| flags)
  pure (space, vmm)

/-- The part of `space_map` that finds the virtual range. -/
def spacePlace (self : Space α) (size vaddr : UInt64) : Except Fault (SpaceResult × Space α) :=
  if vaddr == 0 then do
    let (range, alloc) ← rangeAllocAlloc self.alloc size
    let self := { self with alloc }
    if range.size == 0 then pure (.error .outOfMemory, self) else pure (.ok range, self)
  else do
    let range : USizeRange := ⟨vaddr, size⟩
    let alloc ← rangeAllocUsed self.alloc range
    pure (.ok range, { self with alloc })

/-- The size that `space_map` maps, 0 asking for the whole object. -/
def mapSize (memory : Memory) (size : UInt64) : UInt64 :=
  if size == 0 then memorySize memory else size

/-- `space_map` -/
def spaceMap (self : Space α) (vmm : Vmm) (object : α) (memory : Memory)
    (offset size vaddr : UInt64) (flags : BrMemoryFlags) :
    Except Fault (SpaceResult × Space α × Vmm) :=
  let size := mapSize memory size
  if offset + size > memorySize memory then .ok (.error .badArguments, self, vmm)
  else do
    let (place, self) ← spacePlace self size vaddr
    match place with
    | .error err => pure (.error err, self, vmm)
    | .ok range =>
      let (self, vmm) ← spaceMmapCreate self vmm object memory offset range flags
      pure (.ok range, self, vmm)

/-- The first mapping of exactly this range, with those before and after it. -/
def findMmap (range : USizeRange) :
    List (Mmap α) → Option (List (Mmap α) × Mmap α × List (Mmap α))
  | [] => none
  | mapping :: rest =>
    if rangeEq mapping.range range then some ([], mapping, rest)
    else (findMmap range rest).map fun (before, found, after) ↦ (mapping :: before, found, after)

/-- `space_unmap`, with the object whose reference `space_mmap_destroy` drops. -/
def spaceUnmap (self : Space α) (vmm : Vmm) (range : USizeRange) :
    Except Fault (SpaceResult × Option α × Space α × Vmm) :=
  match findMmap range self.mmaps with
  | none => .ok (.error .badAddress, none, self, vmm)
  | some (before, mapping, after) => do
    let (_, vmm) ← vmmUnmap vmm self.vmm mapping.range
    pure (.ok range, some mapping.object, { self with mmaps := before ++ after }, vmm)

/-- The base of the range that `space_map` uses, if it finds one. -/
def mapBase (self : Space α) (size vaddr : UInt64) : Option UInt64 :=
  if vaddr == 0 then (firstFit self.alloc size).map USizeRange.base else some vaddr

theorem spacePlace_spec {self self' : Space α} {size vaddr : UInt64} {range : USizeRange}
    (h : spacePlace self size vaddr = .ok (.ok range, self')) :
    (∃ alloc, self' = { self with alloc }) ∧ range.size = size ∧
      mapBase self size vaddr = some range.base := by
  unfold spacePlace at h
  split at h
  next hzero =>
    simp only [bind_eq_ok, Prod.exists] at h
    obtain ⟨found, alloc, halloc, h⟩ := h
    split at h
    next => cases h
    next hsize =>
      cases h
      rcases rangeAllocAlloc_spec halloc with ⟨_, rfl⟩ | ⟨free, hfit, rfl⟩
      · exact absurd rfl hsize
      · refine ⟨⟨alloc, rfl⟩, rfl, ?_⟩
        rw [mapBase, if_pos hzero, hfit]
        rfl
  next hne =>
    simp only [bind_eq_ok, pure_eq_ok, Prod.mk.injEq, Except.ok.injEq] at h
    obtain ⟨alloc, _, rfl, rfl⟩ := h
    refine ⟨⟨alloc, rfl⟩, rfl, ?_⟩
    rw [mapBase, if_neg hne]

/-- Everything a successful `space_map` does. -/
theorem spaceMap_spec {self self' : Space α} {vmm vmm' : Vmm} {object : α} {memory : Memory}
    {offset size vaddr : UInt64} {flags : BrMemoryFlags} {range : USizeRange}
    (h : spaceMap self vmm object memory offset size vaddr flags =
      .ok (.ok range, self', vmm')) :
    offset + mapSize memory size ≤ memorySize memory ∧
      range.size = mapSize memory size ∧
      mapBase self (mapSize memory size) vaddr = some range.base ∧
      (∃ alloc, self' =
        { self with alloc, mmaps := self.mmaps ++ [⟨range, object, offset⟩] }) ∧
      ∃ result, vmmMap vmm self.vmm range ⟨memoryBase memory + offset, range.size⟩
        (brMemUser ||| flags) = .ok (result, vmm') := by
  unfold spaceMap at h
  dsimp only at h
  split at h
  next => cases h
  next hfits =>
    simp only [bind_eq_ok, Prod.exists] at h
    obtain ⟨place, placed, hplace, h⟩ := h
    cases place with
    | error err => cases h
    | ok found =>
      simp only [bind_eq_ok, Prod.exists, pure_eq_ok, Prod.mk.injEq, Except.ok.injEq,
        spaceMmapCreate] at h
      obtain ⟨_, _, ⟨result, mapped, hmap, rfl, rfl⟩, rfl, rfl, rfl⟩ := h
      obtain ⟨⟨alloc, rfl⟩, hsize, hbase⟩ := spacePlace_spec hplace
      exact ⟨UInt64.not_lt.1 hfits, hsize, hbase, ⟨alloc, rfl⟩, result, hmap⟩

theorem spaceMap_error {self self' : Space α} {vmm vmm' : Vmm} {object : α} {memory : Memory}
    {offset size vaddr : UInt64} {flags : BrMemoryFlags} {err : BrResult}
    (h : spaceMap self vmm object memory offset size vaddr flags =
      .ok (.error err, self', vmm')) :
    (∃ alloc, self' = { self with alloc }) ∧ vmm' = vmm := by
  unfold spaceMap at h
  dsimp only at h
  split at h
  next =>
    cases h
    exact ⟨⟨self.alloc, rfl⟩, rfl⟩
  next =>
    simp only [bind_eq_ok, Prod.exists] at h
    obtain ⟨place, placed, hplace, h⟩ := h
    cases place with
    | error err' =>
      cases h
      refine ⟨?_, rfl⟩
      unfold spacePlace at hplace
      split at hplace
      next =>
        simp only [bind_eq_ok, Prod.exists] at hplace
        obtain ⟨found, alloc, _, hplace⟩ := hplace
        split at hplace
        next =>
          cases hplace
          exact ⟨alloc, rfl⟩
        next => cases hplace
      next =>
        simp only [bind_eq_ok] at hplace
        obtain ⟨alloc, _, hplace⟩ := hplace
        cases hplace
    | ok found =>
      simp only [bind_eq_ok, Prod.exists] at h
      obtain ⟨_, _, _, h⟩ := h
      cases h

/-- The mapping that is removed is one of those of the space. -/
theorem findMmap_eq_some {range : USizeRange} {mmaps before after : List (Mmap α)}
    {mapping : Mmap α} (h : findMmap range mmaps = some (before, mapping, after)) :
    mmaps = before ++ mapping :: after := by
  induction mmaps generalizing before with
  | nil => cases h
  | cons first rest ih =>
    rw [findMmap] at h
    split at h
    next =>
      cases h
      rfl
    next =>
      obtain ⟨⟨before', mapping', after'⟩, hfind, heq⟩ := Option.map_eq_some_iff.1 h
      cases heq
      rw [ih hfind]
      rfl

/-- Everything `space_unmap` does. -/
theorem spaceUnmap_spec {self self' : Space α} {vmm vmm' : Vmm} {range : USizeRange}
    {result : SpaceResult} {object : Option α}
    (h : spaceUnmap self vmm range = .ok (result, object, self', vmm')) :
    (object = none ∧ self' = self ∧ vmm' = vmm) ∨
      ∃ before mapping after, self.mmaps = before ++ mapping :: after ∧
        object = some mapping.object ∧ self' = { self with mmaps := before ++ after } ∧
        ∃ outcome, vmmUnmap vmm self.vmm mapping.range = .ok (outcome, vmm') := by
  unfold spaceUnmap at h
  split at h
  next =>
    cases h
    exact Or.inl ⟨rfl, rfl, rfl⟩
  next before mapping after hfind =>
    simp only [bind_eq_ok, pure_eq_ok, Prod.exists, Prod.mk.injEq] at h
    obtain ⟨outcome, unmapped, hunmap, _, rfl, rfl, rfl⟩ := h
    exact Or.inr ⟨before, mapping, after, findMmap_eq_some hfind, rfl, rfl, outcome, hunmap⟩

/-- The physical range that a mapping covers lies inside the memory object. -/
def Confined (memory : Memory) (offset size : UInt64) : Prop :=
  ∀ addr ∈ (⟨memoryBase memory + offset, size⟩ : USizeRange), addr ∈ memoryRange memory

/-- A successful `space_map` stays inside the memory object exactly when `offset + size` does not
wrap. -/
theorem spaceMap_confined_iff {self self' : Space α} {vmm vmm' : Vmm} {object : α}
    {memory : Memory} {offset size vaddr : UInt64} {flags : BrMemoryFlags} {range : USizeRange}
    (h : spaceMap self vmm object memory offset size vaddr flags =
      .ok (.ok range, self', vmm')) :
    Confined memory offset range.size ↔
      offset.toNat + (mapSize memory size).toNat < 2 ^ 64 := by
  obtain ⟨hfits, hsize, -⟩ := spaceMap_spec h
  rw [hsize]
  generalize mapSize memory size = mapped at hfits
  rw [UInt64.le_iff_toNat_le, UInt64.toNat_add] at hfits
  have hoffset := offset.toNat_lt
  have hmapped := mapped.toNat_lt
  have hmemory := (memorySize memory).toNat_lt
  constructor
  · intro hconfined
    by_contra hwrap
    have hlast : memoryBase memory - 1 ∈
        (⟨memoryBase memory + offset, mapped⟩ : USizeRange) := by
      have hdistance : memoryBase memory - 1 - (memoryBase memory + offset) = 0 - (offset + 1) := by
        grind
      have hone : (1 : UInt64).toNat = 1 := rfl
      have hzero : (0 : UInt64).toNat = 0 := rfl
      simp only [mem_def, hdistance, UInt64.lt_iff_toNat_lt, UInt64.toNat_sub, UInt64.toNat_add,
        hone, hzero]
      omega
    have hin := hconfined _ hlast
    have hdistance : memoryBase memory - 1 - (memoryRange memory).base = 0 - 1 := by
      unfold memoryBase
      grind
    have hmax : ((0 : UInt64) - 1).toNat = 2 ^ 64 - 1 := rfl
    rw [mem_def, hdistance, UInt64.lt_iff_toNat_lt, hmax] at hin
    unfold memorySize at hmemory
    omega
  · intro hbound addr haddr
    simp only [mem_def, UInt64.lt_iff_toNat_lt] at haddr ⊢
    have hdistance : addr - (memoryRange memory).base =
        (addr - (memoryBase memory + offset)) + offset := by
      unfold memoryBase
      grind
    rw [hdistance, UInt64.toNat_add]
    unfold memorySize at hfits
    omega

/-- A map of sixteen free pages. -/
def sixteenPages : HandoverMmap := ⟨[⟨⟨0x10000, 0x10000⟩, .free⟩]⟩

/-- One page of memory of a device. -/
def onePage : Memory := ⟨.dma, ⟨0x100000, 0x1000⟩⟩

/-- Create a space on a machine of sixteen pages and map a part of `onePage` into it. -/
def mapOnePage (offset size : UInt64) : Except Fault (SpaceResult × Space Unit × Vmm) := do
  let pmm ← pmmInitialize (fun _ _ ↦ false) sixteenPages
  let (space, vmm) ← spaceCreate (fun _ ↦ ⟨0, 0⟩) ⟨fun _ _ ↦ pmlCleanEntry, 0, pmm⟩
  spaceMap space vmm () onePage offset size 0x400000 brMemWritable

theorem mapOnePage_spec (offset size : UInt64) (range : USizeRange)
    (h : (mapOnePage offset size).map Prod.fst = .ok (.ok range)) :
    ∃ space space' vmm vmm', spaceMap (α := Unit) space vmm () onePage offset size 0x400000
      brMemWritable = .ok (.ok range, space', vmm') := by
  cases hmap : mapOnePage offset size with
  | error fault =>
    rw [hmap] at h
    cases h
  | ok mapped =>
    obtain ⟨result, space', vmm'⟩ := mapped
    rw [hmap] at h
    cases h
    simp only [mapOnePage, bind_eq_ok, Prod.exists] at hmap
    obtain ⟨pmm, _, space, vmm, _, hmap⟩ := hmap
    exact ⟨space, space', vmm, vmm', hmap⟩

/-- The whole page is mapped. -/
theorem spaceMap_confined_iff_onePage :
    ∃ (space space' : Space Unit) (vmm vmm' : Vmm),
      spaceMap space vmm () onePage 0 0 0x400000 brMemWritable =
        .ok (.ok ⟨0x400000, 0x1000⟩, space', vmm') ∧
      Confined onePage 0 0x1000 := by
  obtain ⟨space, space', vmm, vmm', h⟩ := mapOnePage_spec 0 0
    ⟨0x400000, 0x1000⟩ (by decide +kernel)
  exact ⟨space, space', vmm, vmm', h, (spaceMap_confined_iff h).2 (by decide)⟩

/-- Two pages are mapped from an object of one, starting with the page in front of it. -/
theorem spaceMap_confined_fails :
    ∃ (space space' : Space Unit) (vmm vmm' : Vmm),
      spaceMap space vmm () onePage 0xfffffffffffff000 0x2000 0x400000 brMemWritable =
        .ok (.ok ⟨0x400000, 0x2000⟩, space', vmm') ∧
      ¬ Confined onePage 0xfffffffffffff000 0x2000 := by
  obtain ⟨space, space', vmm, vmm', h⟩ := mapOnePage_spec 0xfffffffffffff000 0x2000
    ⟨0x400000, 0x2000⟩ (by decide +kernel)
  refine ⟨space, space', vmm, vmm', h, fun hconfined ↦ ?_⟩
  have hin : (0xff000 : UInt64) ∈ memoryRange onePage := hconfined 0xff000 (by decide)
  exact absurd hin (by decide)

end Brutal.Kernel
