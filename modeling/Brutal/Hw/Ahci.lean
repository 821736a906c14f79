import Brutal.Base.Debug
import Brutal.Lib.Bytes
import Brutal.Lib.Outcome
import Mathlib.Data.Nat.Bitwise

/-!
# Commands for an AHCI disk

`libs/hw/ahci/device.c`: a request is put into the command table of a free slot, and the header of
that slot tells the device where the table is.  The tables lie in pieces of memory that are known by
their number; the device knows them by their physical addresses.
-/

namespace Brutal.Hw

open Base Lib

/-- What `init_hba_command_header` and the setup write of an `HbaCommand`. -/
structure HbaCommand where
  commandLen : ℕ
  write : Bool
  prefetchable : Bool
  clearOnOk : Bool
  physicalRegionDescriptorCount : ℕ
  commandTableDescriptorLow : ℕ
  commandTableDescriptorUp : ℕ

/-- `FisHost2Dev` -/
structure FisHost2Dev where
  fisType : UInt8
  ctrlOrCmd : Bool
  command : UInt8
  lba : List UInt8
  device : UInt8
  lba2 : List UInt8
  countL : UInt8
  countH : UInt8

/-- `HbaPrdtEntry` -/
structure HbaPrdtEntry where
  dataBaseLow : ℕ
  dataBaseUp : ℕ
  dbc : ℕ
  interruptOnComplete : Bool

/-- `HbaCommandTable`, with its first entry. -/
structure HbaCommandTable where
  commandFis : FisHost2Dev
  entry : HbaPrdtEntry

/-- A table in which every byte is zero. -/
def zeroTable : HbaCommandTable :=
  ⟨⟨0, false, 0, [0, 0, 0], 0, [0, 0, 0], 0, 0⟩, ⟨0, 0, 0, false⟩⟩

/-- `AhciCommand`; the table is known by the piece of memory that it lies in. -/
structure AhciCommand where
  command : HbaCommand
  table : ℕ
  mem : ℕ

/-- `AhciDevice`, with what the pieces of memory for its tables hold. -/
structure AhciDevice where
  commands : ℕ → AhciCommand
  memory : ℕ → HbaCommandTable

/-- The physical addresses that `bal_mem_paddr` gives for the 32 pieces of memory, which are
allocated apart from each other. -/
structure TableMemory where
  paddr : ℕ → ℕ
  paddr_lt : ∀ mem, paddr mem < 2 ^ 64
  apart : ∀ mem < 32, ∀ mem' < 32, paddr mem = paddr mem' → mem = mem'

/-- A call of `ahci_device_rw`, with the physical address of its target and the `sata_active` of the
port at that time. -/
structure Request where
  sataActive : ℕ
  target : ℕ
  cursor : ℕ
  count : ℕ
  write : Bool
  target_lt : target < 2 ^ 64
  cursor_lt : cursor < 2 ^ 48
  count_lt : count < 2 ^ 64

/-- The loop of `ahci_device_init_command`, where memory holds anything at first.  The table of each
command is the memory of `self->commands->mem`, which is that of the first one. -/
def ahciDeviceInitCommand (mem : TableMemory) (fresh : ℕ → HbaCommandTable) : AhciDevice where
  commands i :=
    { command :=
        { commandLen := 0
          write := false
          prefetchable := false
          clearOnOk := false
          physicalRegionDescriptorCount := 8
          commandTableDescriptorLow := mem.paddr i % 2 ^ 32
          commandTableDescriptorUp := mem.paddr i / 2 ^ 32 % 2 ^ 32 }
      table := 0
      mem := i }
  memory := fresh

/-- `init_hba_command_header` -/
def initHbaCommandHeader (command : HbaCommand) (write : Bool) (fisLen : ℕ) : HbaCommand :=
  { command with
    commandLen := fisLen / 4
    write := write
    prefetchable := write
    clearOnOk := true
    physicalRegionDescriptorCount := 1 }

/-- `init_hba_command_table`: the table is cleared first. -/
def initHbaCommandTable (dataPhysAddr count : ℕ) : HbaCommandTable :=
  { zeroTable with
    entry :=
      { dataBaseLow := dataPhysAddr % 2 ^ 32
        dataBaseUp := dataPhysAddr / 2 ^ 32 % 2 ^ 32
        dbc := (count * 512 % 2 ^ 64 + (2 ^ 64 - 1)) % 2 ^ 64 % 2 ^ 22
        interruptOnComplete := true } }

/-- `FIS_TYPE_REG_HOST2DEV` -/
def fisTypeRegHost2Dev : UInt8 := 0x27

/-- `FIS_CMD_READ_DMA_EXT` -/
def fisCmdReadDmaExt : UInt8 := 0x25

/-- `FIS_CMD_WRITE_DMA_EXT` -/
def fisCmdWriteDmaExt : UInt8 := 0x35

/-- `init_fis_reg_command` -/
def initFisRegCommand (command : FisHost2Dev) (write : Bool) (cursor count : ℕ) : FisHost2Dev :=
  { command with
    fisType := fisTypeRegHost2Dev
    ctrlOrCmd := true
    command := if write then fisCmdWriteDmaExt else fisCmdReadDmaExt
    lba := [.ofNat cursor, .ofNat (cursor / 2 ^ 8), .ofNat (cursor / 2 ^ 16)]
    device := (1 : UInt8) <<< 6
    lba2 := [.ofNat (cursor / 2 ^ 24), .ofNat (cursor / 2 ^ 32), .ofNat (cursor / 2 ^ 40)]
    countL := .ofNat count
    countH := .ofNat (count / 2 ^ 8) }

/-- The loop of `ahci_find_command_port`. -/
def findCommandLoop : ℕ → ℕ → ℕ → Except Fault ℕ
  | 0, _, _ => .error .panic
  | left + 1, i, slot => if slot % 2 = 0 then .ok i else findCommandLoop left (i + 1) (slot / 2)

/-- `ahci_find_command_port` -/
def ahciFindCommandPort (sataActive : ℕ) : Except Fault ℕ := findCommandLoop 32 0 sataActive

/-- `ahci_device_rw` up to the issue of the command, with the slot that it is issued in. -/
def ahciDeviceRw (self : AhciDevice) (request : Request) : Except Fault (ℕ × AhciDevice) := do
  let commandSlot ← ahciFindCommandPort request.sataActive
  let command := self.commands commandSlot
  let header := initHbaCommandHeader command.command request.write 20
  let table := initHbaCommandTable request.target request.count
  let fis := initFisRegCommand table.commandFis request.write request.cursor request.count
  return (commandSlot,
    { commands := Function.update self.commands commandSlot { command with command := header }
      memory := Function.update self.memory command.table { table with commandFis := fis } })

/-- One request after the other. -/
def ahciRequest (self : AhciDevice) (request : Request) : Except Fault AhciDevice := do
  let (_, self) ← ahciDeviceRw self request
  return self

/-- The physical address in the header of a slot. -/
def tableAddress (self : AhciDevice) (slot : ℕ) : ℕ :=
  (self.commands slot).command.commandTableDescriptorLow +
    2 ^ 32 * (self.commands slot).command.commandTableDescriptorUp

/-- The table says what is requested: the command, the sector, the count, the address of the target,
and a region of as many bytes as the sectors have. -/
structure Describes (table : HbaCommandTable) (request : Request) : Prop where
  fisType : table.commandFis.fisType = fisTypeRegHost2Dev
  command : table.commandFis.command =
    if request.write then fisCmdWriteDmaExt else fisCmdReadDmaExt
  cursor : ofLeBytes (table.commandFis.lba ++ table.commandFis.lba2) = request.cursor
  count : ofLeBytes [table.commandFis.countL, table.commandFis.countH] = request.count
  target : table.entry.dataBaseLow + 2 ^ 32 * table.entry.dataBaseUp = request.target
  bytes : table.entry.dbc + 1 = request.count * 512

/-- The command table whose physical address is in the header of the slot describes the request. -/
def SlotDescribes (mem : TableMemory) (self : AhciDevice) (slot : ℕ) (request : Request) : Prop :=
  ∃ piece < 32, mem.paddr piece = tableAddress self slot ∧ Describes (self.memory piece) request

/-- Some slot is free, so that a command is issued. -/
def Issued (request : Request) : Prop := ∃ i < 32, request.sataActive.testBit i = false

/-- The headers have the addresses of their own pieces of memory, while all commands use the first
piece, and the others hold what they held at first. -/
structure SetUp (mem : TableMemory) (fresh : ℕ → HbaCommandTable) (device : AhciDevice) :
    Prop where
  address : ∀ slot, tableAddress device slot = mem.paddr slot
  table : ∀ slot, (device.commands slot).table = 0
  memory : ∀ piece, piece ≠ 0 → device.memory piece = fresh piece

variable {mem : TableMemory} {fresh : ℕ → HbaCommandTable} {self self' : AhciDevice}
  {request : Request} {slot : ℕ}

attribute [local grind =] findCommandLoop ahciFindCommandPort

theorem setUp_init (mem : TableMemory) (fresh : ℕ → HbaCommandTable) :
    SetUp mem fresh (ahciDeviceInitCommand mem fresh) where
  address slot := by
    have hlt := mem.paddr_lt slot
    rw [tableAddress, ahciDeviceInitCommand]
    dsimp only
    omega
  table _ := rfl
  memory _ _ := rfl

theorem findCommandLoop_eq_ok {left i slot found : ℕ}
    (h : findCommandLoop left i slot = .ok found) :
    i ≤ found ∧ found < i + left ∧ slot.testBit (found - i) = false := by
  induction left generalizing i slot with
  | zero => cases h
  | succ left ih =>
    rw [findCommandLoop] at h
    split at h
    next heven =>
      cases h
      rw [Nat.sub_self, Nat.testBit_zero]
      exact ⟨Nat.le_refl _, by omega, by simp [heven]⟩
    next =>
      obtain ⟨hle, hlt, hbit⟩ := ih h
      refine ⟨by omega, by omega, ?_⟩
      rw [show found - i = found - (i + 1) + 1 by omega, Nat.testBit_succ]
      exact hbit

theorem exists_findCommandLoop {left i slot j : ℕ} (hj : j < left) (hbit : slot.testBit j = false) :
    ∃ found, findCommandLoop left i slot = .ok found := by
  induction left generalizing i slot j with
  | zero => exact absurd hj (Nat.not_lt_zero j)
  | succ left ih =>
    rw [findCommandLoop]
    split
    next => exact ⟨i, rfl⟩
    next hodd =>
      cases j with
      | zero =>
        rw [Nat.testBit_zero] at hbit
        simp at hbit
        omega
      | succ j =>
        rw [Nat.testBit_succ] at hbit
        exact ih (Nat.lt_of_succ_lt_succ hj) hbit

/-- The first slot is taken exactly when it is free. -/
theorem ahciFindCommandPort_eq_zero {sataActive : ℕ}
    (h : ahciFindCommandPort sataActive = .ok slot) :
    slot = 0 ↔ sataActive.testBit 0 = false := by
  constructor
  · rintro rfl
    exact (findCommandLoop_eq_ok h).2.2
  · intro hbit
    have heven : sataActive % 2 = 0 := by
      rw [Nat.testBit_zero] at hbit
      simp at hbit
      omega
    rw [ahciFindCommandPort, findCommandLoop, if_pos heven] at h
    exact (Except.ok.inj h).symm

/-- What is put into the table of a command. -/
def requestTable (request : Request) : HbaCommandTable :=
  let table := initHbaCommandTable request.target request.count
  { table with
    commandFis := initFisRegCommand table.commandFis request.write request.cursor request.count }

/-- A request writes the first piece of memory, whatever its slot is. -/
theorem ahciDeviceRw_eq_ok (hset : SetUp mem fresh self)
    (h : ahciDeviceRw self request = .ok (slot, self')) :
    ahciFindCommandPort request.sataActive = .ok slot ∧ SetUp mem fresh self' ∧
      self'.memory 0 = requestTable request := by
  obtain ⟨found, hfound, h⟩ := bind_eq_ok.mp h
  cases h
  refine ⟨hfound, ⟨fun i ↦ ?_, fun i ↦ ?_, fun piece hpiece ↦ ?_⟩, ?_⟩
  · rw [← hset.address i, tableAddress, tableAddress]
    dsimp only
    by_cases hi : i = slot
    · rw [hi, Function.update_self]
      rfl
    · rw [Function.update_of_ne hi]
  · rw [← hset.table i]
    dsimp only
    grind [Function.update_apply]
  · dsimp only
    rw [hset.table, Function.update_of_ne hpiece]
    exact hset.memory piece hpiece
  · dsimp only
    rw [hset.table, Function.update_self]
    rfl

theorem exists_ahciDeviceRw (self : AhciDevice) (h : Issued request) :
    ∃ slot self', ahciDeviceRw self request = .ok (slot, self') := by
  obtain ⟨i, hi, hbit⟩ := h
  obtain ⟨slot, hslot⟩ := exists_findCommandLoop (i := 0) hi hbit
  rw [ahciDeviceRw, ahciFindCommandPort, hslot]
  exact ⟨_, _, rfl⟩

/-- The region of a table has as many bytes as the sectors only for up to 8192 sectors. -/
theorem region_bytes_iff (request : Request) :
    (requestTable request).entry.dbc + 1 = request.count * 512 ↔
      1 ≤ request.count ∧ request.count ≤ 8192 := by
  have hlt := request.count_lt
  rw [requestTable, initHbaCommandTable]
  dsimp only
  omega

theorem describes_requestTable_iff (request : Request) :
    Describes (requestTable request) request ↔ 1 ≤ request.count ∧ request.count ≤ 8192 := by
  constructor
  · intro h
    exact (region_bytes_iff request).mp h.bytes
  · intro hcount
    have hcursor := request.cursor_lt
    have htarget := request.target_lt
    refine ⟨rfl, rfl, ?_, ?_, ?_, (region_bytes_iff request).mpr hcount⟩
    · simp only [requestTable, initHbaCommandTable, initFisRegCommand, List.cons_append,
        List.nil_append, ofLeBytes, UInt8.toNat_ofNat']
      omega
    · simp only [requestTable, initHbaCommandTable, initFisRegCommand, ofLeBytes,
        UInt8.toNat_ofNat']
      omega
    · simp only [requestTable, initHbaCommandTable]
      omega

/-- A table of zeros describes no request. -/
theorem not_describes_zeroTable : ¬ Describes zeroTable request := by
  intro h
  have hbytes := h.bytes
  dsimp only [zeroTable] at hbytes
  omega

theorem exists_requests {earlier : List Request} (hset : SetUp mem fresh self)
    (hissued : ∀ other ∈ earlier, Issued other) :
    ∃ self', earlier.foldlM ahciRequest self = .ok self' ∧ SetUp mem fresh self' := by
  induction earlier generalizing self with
  | nil => exact ⟨self, rfl, hset⟩
  | cons other rest ih =>
    obtain ⟨slot, self₁, hrw⟩ := exists_ahciDeviceRw self (hissued other List.mem_cons_self)
    obtain ⟨-, hset₁, -⟩ := ahciDeviceRw_eq_ok hset hrw
    obtain ⟨self', hrest, hset'⟩ := ih hset₁ fun r hr ↦ hissued r (List.mem_cons_of_mem other hr)
    refine ⟨self', ?_, hset'⟩
    rw [List.foldlM_cons, ahciRequest, hrw]
    exact hrest

/-- After any requests before it, and whatever the memory for the tables held at first, the table of
the slot describes the request exactly when that slot is the first one and the request is for 1 to
8192 sectors. -/
theorem ahci_describes_iff (mem : TableMemory) (earlier : List Request) (request : Request)
    (hissued : ∀ other ∈ request :: earlier, Issued other) :
    (∀ fresh, ∃ self slot self',
      earlier.foldlM ahciRequest (ahciDeviceInitCommand mem fresh) = .ok self ∧
        ahciDeviceRw self request = .ok (slot, self') ∧ SlotDescribes mem self' slot request) ↔
      request.sataActive.testBit 0 = false ∧ 1 ≤ request.count ∧ request.count ≤ 8192 := by
  rw [List.forall_mem_cons] at hissued
  constructor
  · intro h
    obtain ⟨self, slot, self', hearlier, hrw, piece, hpiece, haddress, hdescribes⟩ :=
      h fun _ ↦ zeroTable
    obtain ⟨self₁, hearlier₁, hset⟩ :=
      exists_requests (setUp_init mem fun _ ↦ zeroTable) hissued.2
    rw [hearlier₁] at hearlier
    cases hearlier
    obtain ⟨hfind, hset', htable⟩ := ahciDeviceRw_eq_ok hset hrw
    rw [hset'.address] at haddress
    cases mem.apart _ hpiece _ (findCommandLoop_eq_ok hfind).2.1 haddress
    by_cases hslot : slot = 0
    · subst hslot
      rw [htable] at hdescribes
      exact ⟨(ahciFindCommandPort_eq_zero hfind).mp rfl,
        (describes_requestTable_iff request).mp hdescribes⟩
    · rw [hset'.memory slot hslot] at hdescribes
      exact absurd hdescribes not_describes_zeroTable
  · rintro ⟨hbit, hcount⟩ fresh
    obtain ⟨self, hearlier, hset⟩ := exists_requests (setUp_init mem fresh) hissued.2
    obtain ⟨slot, self', hrw⟩ := exists_ahciDeviceRw self hissued.1
    obtain ⟨hfind, hset', htable⟩ := ahciDeviceRw_eq_ok hset hrw
    refine ⟨self, slot, self', hearlier, hrw, 0, by decide, ?_, ?_⟩
    · rw [hset'.address, (ahciFindCommandPort_eq_zero hfind).mpr hbit]
    · rw [htable]
      exact (describes_requestTable_iff request).mpr hcount

/-- Pieces of memory one after the other. -/
def pages : TableMemory where
  paddr mem := mem % 32 * 4096
  paddr_lt mem := by omega
  apart mem hmem mem' hmem' h := by omega

/-- A read of one sector on a port with the given active slots. -/
def readSector (sataActive : ℕ) : Request :=
  ⟨sataActive, 4096, 7, 1, false, by decide, by decide, by decide⟩

/-- A request after another one, both with all slots free. -/
theorem ahci_describes_free : ∃ self slot self',
    [readSector 0].foldlM ahciRequest (ahciDeviceInitCommand pages fun _ ↦ zeroTable) = .ok self ∧
      ahciDeviceRw self (readSector 0) = .ok (slot, self') ∧
        SlotDescribes pages self' slot (readSector 0) := by
  have hissued : ∀ other ∈ [readSector 0, readSector 0], Issued other := by
    intro other hother
    have heq : other = readSector 0 := by simpa using hother
    rw [heq]
    exact ⟨0, by decide, rfl⟩
  exact (ahci_describes_iff pages [readSector 0] (readSector 0) hissued).mpr (by decide) _

/-- With the first slot active, the table of the second one is not written. -/
theorem ahci_describes_fails :
    ¬ ∀ (mem : TableMemory) (request : Request) (fresh : ℕ → HbaCommandTable) (slot : ℕ)
      (self' : AhciDevice),
        ahciDeviceRw (ahciDeviceInitCommand mem fresh) request = .ok (slot, self') →
          SlotDescribes mem self' slot request := by
  intro h
  obtain ⟨piece, hpiece, haddress, hdescribes⟩ := h pages (readSector 1) (fun _ ↦ zeroTable) 1 _ rfl
  have hone : piece = 1 := pages.apart piece hpiece 1 (by decide) haddress
  subst hone
  exact not_describes_zeroTable hdescribes

end Brutal.Hw
