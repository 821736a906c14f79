import Brutal.Hw.Fdt
import Mathlib.Data.Nat.Bitwise

/-!
# Enumerating PCI functions

`libs/hw/pci/pci.c` and `group.c`: the callbacks of four iterators that call each other, for the
functions of a slot, the slots of a bus, the buses behind a bridge and the segment groups.  They
read the configuration space through a window that holds the buses of a group one after the other.
-/

namespace Brutal.Hw

open Base Lib

/-- `PciAddr` -/
structure PciAddr where
  seg : ℕ
  bus : ℕ
  slot : ℕ
  func : ℕ
deriving DecidableEq, Repr

/-- `PciConfig`, with the `secondary_bus_number` that a bridge has in its `PciConfigType1`. -/
structure PciConfig where
  vendor : UInt16
  subclass : UInt8
  classCode : UInt8
  headerType : UInt8
  secondaryBusNumber : UInt8

/-- `PciGroup`, with the configuration space of its functions by bus, slot and function. -/
structure PciGroup where
  seg : ℕ
  busStart : ℕ
  busEnd : ℕ
  space : ℕ → ℕ → ℕ → PciConfig

def pciBusShift : ℕ := 20
def pciSlotShift : ℕ := 15
def pciFuncShift : ℕ := 12

/-- `sizeof(PciConfigType1)` -/
def sizeofConfig : ℕ := 64

/-- `pci_group_config`: an offset into the memory of the group, or no pointer. -/
def pciGroupConfig (group : PciGroup) (addr : PciAddr) : Option ℕ :=
  if group.seg = addr.seg ∧ group.busStart ≤ addr.bus ∧ group.busEnd > addr.bus then
    let localBus := addr.bus - group.busStart
    some (localBus <<< pciBusShift ||| addr.slot <<< pciSlotShift ||| addr.func <<< pciFuncShift)
  else none

/-- What is read through a pointer to a configuration.  In the window of a group, a bus has 2^20
bytes, a slot 2^15 and a function 2^12. -/
def loadConfig (group : PciGroup) : Option ℕ → Except Fault PciConfig
  | some offset =>
    if offset + sizeofConfig ≤ (group.busEnd - group.busStart) * 2 ^ pciBusShift then
      .ok (group.space (group.busStart + offset / 2 ^ pciBusShift)
        (offset / 2 ^ pciSlotShift % 2 ^ 5) (offset / 2 ^ pciFuncShift % 2 ^ 3))
    else .error .outOfBounds
  | none => .error .outOfBounds

/-- The function is there. -/
def PciConfig.present (config : PciConfig) : Bool := config.vendor ≠ 0xFFFF

/-- The header says that there are more functions. -/
def PciConfig.multi (config : PciConfig) : Bool := config.headerType &&& 0x80 ≠ 0

/-- The function is a bridge to another bus. -/
def PciConfig.bridge (config : PciConfig) : Bool :=
  config.classCode = 0x06 ∧ config.subclass = 0x04

section

variable {σ : Type}

/-- A loop that ends when its body says so. -/
def iterFor (body : ℕ → σ → Except Fault (Iter × σ)) : List ℕ → σ → Except Fault (Iter × σ)
  | [], ctx => .ok (.iterContinue, ctx)
  | item :: rest, ctx => do
    match ← body item ctx with
    | (.iterStop, ctx) => return (.iterStop, ctx)
    | (.iterContinue, ctx) => iterFor body rest ctx

variable (group : PciGroup) (fn : PciAddr → σ → Iter × σ)

/-- `pci_iter_func`, where `iterGroup` is `pci_iter_group`. -/
def pciIterFunc (iterGroup : PciAddr → σ → Except Fault (Iter × σ)) (addr : PciAddr) (ctx : σ) :
    Except Fault (Iter × σ) :=
  match fn addr ctx with
  | (.iterStop, ctx) => .ok (.iterStop, ctx)
  | (.iterContinue, ctx) => do
    let config ← loadConfig group (pciGroupConfig group addr)
    if config.bridge then
      iterGroup ⟨group.seg, config.secondaryBusNumber.toNat, 0, 0⟩ ctx
    else return (.iterContinue, ctx)

/-- `pci_iter_slot` -/
def pciIterSlot (iterGroup : PciAddr → σ → Except Fault (Iter × σ)) (addr : PciAddr) (ctx : σ) :
    Except Fault (Iter × σ) := do
  match ← pciIterFunc group fn iterGroup addr ctx with
  | (.iterStop, ctx) => return (.iterStop, ctx)
  | (.iterContinue, ctx) =>
    let config ← loadConfig group (pciGroupConfig group addr)
    if config.multi then
      iterFor (fun func ctx ↦ do
        let addr := { addr with func := func }
        let config ← loadConfig group (pciGroupConfig group addr)
        if config.present then pciIterFunc group fn iterGroup addr ctx
        else return (.iterContinue, ctx)) (List.range' 1 7) ctx
    else return (.iterContinue, ctx)

/-- `pci_iter_bus` -/
def pciIterBus (iterGroup : PciAddr → σ → Except Fault (Iter × σ)) (addr : PciAddr) (ctx : σ) :
    Except Fault (Iter × σ) :=
  iterFor (fun slot ctx ↦ do
    let addr := { addr with slot := slot }
    let config ← loadConfig group (pciGroupConfig group addr)
    if config.present then pciIterSlot group fn iterGroup addr ctx
    else return (.iterContinue, ctx)) (List.range 32) ctx

/-- `pci_iter_group`, with a bound on the depth of the buses. -/
def pciIterGroup : ℕ → PciAddr → σ → Except Fault (Iter × σ)
  | 0, _, _ => .error .depth
  | depth + 1, addr, ctx => do
    let config ← loadConfig group (pciGroupConfig group addr)
    if config.multi then
      iterFor (fun func ctx ↦ do
        let addr := { addr with func := func }
        let config ← loadConfig group (pciGroupConfig group addr)
        if config.present then pciIterBus group fn (pciIterGroup depth) addr ctx
        else return (.iterContinue, ctx)) (List.range 8) ctx
    else pciIterBus group fn (pciIterGroup depth) addr ctx

end

/-- `Pci`; every segment has one group. -/
structure Pci where
  groups : List PciGroup
  apart : groups.Pairwise fun group other ↦ group.seg ≠ other.seg

/-- `pci_iter` over a list of groups. -/
def pciIter {σ : Type} (depth : ℕ) (fn : PciAddr → σ → Iter × σ) :
    List PciGroup → σ → Except Fault (Iter × σ)
  | [], ctx => .ok (.iterContinue, ctx)
  | group :: rest, ctx => do
    match ← pciIterGroup group fn depth ⟨group.seg, 0, 0, 0⟩ ctx with
    | (.iterStop, ctx) => return (.iterStop, ctx)
    | (.iterContinue, ctx) => pciIter depth fn rest ctx

/-- A bus in the window. -/
def InWindow (group : PciGroup) (bus : ℕ) : Prop := group.busStart ≤ bus ∧ bus < group.busEnd

instance (group : PciGroup) (bus : ℕ) : Decidable (InWindow group bus) :=
  inferInstanceAs (Decidable (_ ∧ _))

variable {group : PciGroup} {bus slot func : ℕ}

/-- The fields of an offset do not overlap. -/
theorem pciOffset_eq (hslot : slot < 32) (hfunc : func < 8) (localBus : ℕ) :
    (localBus <<< pciBusShift ||| slot <<< pciSlotShift ||| func <<< pciFuncShift) =
      localBus * 2 ^ 20 + slot * 2 ^ 15 + func * 2 ^ 12 := by
  have hfield : ∀ a b k n : ℕ, b < 2 ^ n → a <<< (k + n) ||| b <<< k = (a <<< n + b) <<< k := by
    intro a b k n hb
    rw [Nat.add_comm k n, Nat.shiftLeft_add, ← Nat.shiftLeft_or_distrib, Nat.shiftLeft_eq a,
      Nat.mul_comm, Nat.two_pow_add_eq_or_of_lt hb]
  calc
    (localBus <<< pciBusShift ||| slot <<< pciSlotShift ||| func <<< pciFuncShift)
        = (localBus <<< 5 + slot) <<< 15 ||| func <<< 12 := by
      rw [← hfield localBus slot 15 5 hslot]
      rfl
    _ = ((localBus <<< 5 + slot) <<< 3 + func) <<< 12 := hfield _ func 12 3 hfunc
    _ = localBus * 2 ^ 20 + slot * 2 ^ 15 + func * 2 ^ 12 := by
      simp only [Nat.shiftLeft_eq]
      omega

/-- In the window, the configuration that is read is that of the address. -/
theorem loadConfig_eq (hbus : InWindow group bus) (hslot : slot < 32) (hfunc : func < 8) :
    loadConfig group (pciGroupConfig group ⟨group.seg, bus, slot, func⟩) =
      .ok (group.space bus slot func) := by
  obtain ⟨hstart, hend⟩ := hbus
  have haddr : group.seg = group.seg ∧ group.busStart ≤ bus ∧ group.busEnd > bus :=
    ⟨rfl, hstart, hend⟩
  rw [pciGroupConfig, if_pos haddr]
  dsimp only
  rw [pciOffset_eq hslot hfunc, loadConfig, pciBusShift, pciSlotShift, pciFuncShift, sizeofConfig,
    if_pos (by omega)]
  congr 2 <;> omega

/-- Out of the window, there is no configuration to read. -/
theorem loadConfig_outside {seg : ℕ} (hbus : ¬ InWindow group bus) :
    loadConfig group (pciGroupConfig group ⟨seg, bus, slot, func⟩) = .error .outOfBounds := by
  rw [pciGroupConfig, if_neg fun h ↦ hbus ⟨h.2.1, h.2.2⟩]
  rfl

end Brutal.Hw
