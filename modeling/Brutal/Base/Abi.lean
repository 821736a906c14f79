import Mathlib.Data.Nat.Notation

/-!
# Types shared with user space

`bal/abi/types.h`: the results, object types, events and messages of the system calls.
-/

namespace Brutal.Base

/-- `BrResult` -/
inductive BrResult where
  | success
  | interrupted
  | timeout
  | alreadyBinded
  | alreadyAck
  | notBinded
  | notPermitted
  | badAddress
  | badArguments
  | badHandle
  | badId
  | badSyscall
  | notImplemented
  | outOfMemory
  | channelFull
  | channelEmpty
  | wouldBlock
deriving DecidableEq, Repr

/-- `BrType` -/
inductive BrType where
  | none
  | any
  | memory
  | domain
  | space
  | task
deriving DecidableEq, Repr

/-- `BrEventType`.  A task can put any number there, so the others are kept apart. -/
inductive BrEventType where
  | invalid
  | irq
  | unknown (code : UInt32)
deriving DecidableEq, Repr

/-- `BrEvent` -/
structure BrEvent where
  type : BrEventType
  irq : UInt32
deriving DecidableEq, Repr

/-- `BrAddr` -/
structure BrAddr where
  id : UInt64
  port : UInt64
deriving DecidableEq, Repr, Inhabited

/-- `BR_ADDR_EVENT`, the identifier `BR_ID_EVENT` on any port. -/
def brAddrEvent : BrAddr := ⟨-4, -1⟩

/-- `BR_MSG_ARG_COUNT` -/
def brMsgArgCount : ℕ := 5

/-- `BrMsg` -/
structure BrMsg where
  flags : UInt32
  fromAddr : BrAddr
  toAddr : BrAddr
  prot : UInt64
  type : UInt64
  seq : UInt64
  args : Vector UInt64 brMsgArgCount
deriving DecidableEq, Repr, Inhabited

/-- `BR_MSG_HND` -/
def brMsgHnd (i : ℕ) : UInt32 := 1 <<< UInt32.ofNat i

/-- `BR_HANDLE_SELF` -/
def brHandleSelf : UInt64 := -2

/-- `BrRight` -/
abbrev BrRight := UInt32

def brRightIrq : BrRight := (1 : UInt32) <<< 0

def brRightDma : BrRight := (1 : UInt32) <<< 1

def brRightPio : BrRight := (1 : UInt32) <<< 2

def brRightLog : BrRight := (1 : UInt32) <<< 3

def brRightTask : BrRight := (1 : UInt32) <<< 4

/-- `BR_TASK_USER` -/
def brTaskUser : UInt64 := (1 : UInt64) <<< 0

/-- `BrIpcFlags` -/
abbrev BrIpcFlags := UInt32

def brIpcBlock : BrIpcFlags := (1 : UInt32) <<< 0

def brIpcSend : BrIpcFlags := (1 : UInt32) <<< 1

def brIpcRecv : BrIpcFlags := (1 : UInt32) <<< 2

/-! ## Arguments of the system calls

`bal/abi/syscalls.h`, with the fields that the kernel only writes left out of the arguments; the
model of a call returns them.
-/

/-- `BrMapArgs` -/
structure BrMapArgs where
  space : UInt64
  memory : UInt64
  offset : UInt64
  size : UInt64
  vaddr : UInt64
  flags : UInt64
deriving DecidableEq, Repr

/-- `BrUnmapArgs` -/
structure BrUnmapArgs where
  space : UInt64
  vaddr : UInt64
  size : UInt64
deriving DecidableEq, Repr

/-- `BrTaskProps` -/
structure BrTaskProps where
  space : UInt64
  rights : BrRight
  flags : UInt64
deriving DecidableEq, Repr

/-- `BrMemoryProps` -/
structure BrMemoryProps where
  addr : UInt64
  size : UInt64
  flags : UInt64
deriving DecidableEq, Repr

/-- `BrCreateArgs`, whose union is read as the type says. -/
inductive BrCreateArgs where
  | task (props : BrTaskProps)
  | space (flags : UInt64)
  | memory (props : BrMemoryProps)
  /-- Any other type. -/
  | other (type : UInt32)
deriving DecidableEq, Repr

/-- `BrIpcArgs` -/
structure BrIpcArgs where
  «to» : BrAddr
  msg : BrMsg
  deadline : UInt64
  flags : BrIpcFlags
deriving DecidableEq, Repr

/-- `BrExitArgs` -/
structure BrExitArgs where
  handle : UInt64
  result : UInt64
deriving DecidableEq, Repr

/-- `BrDropArgs` -/
structure BrDropArgs where
  handle : UInt64
  rights : BrRight
deriving DecidableEq, Repr

end Brutal.Base
