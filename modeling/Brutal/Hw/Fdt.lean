import Brutal.Base.Debug
import Brutal.Lib.Bytes
import Brutal.Lib.Loop

/-!
# Flattened device trees

`libs/hw/fdt/fdt.c` walks over a device tree in the form in which the firmware hands it to the
kernel.  A node is a pair of pointers into the structure block; its children and its properties are
found by going over the tokens between them and counting the nodes that begin and end on the way.

Addresses are counted from the header, which is where the memory of the model begins.  A pointer to
nothing is lower than every pointer into the block, so that a loop up to it has no turn.
-/

namespace Brutal.Hw

open Base Lib

/-- `be_load$` of a `be_uint32_t` -/
def beLoad (memory : List UInt8) (addr : ℕ) : Except Fault ℕ :=
  if addr + 4 ≤ memory.length then .ok (ofBeBytes ((memory.drop addr).take 4))
  else .error .outOfBounds

/-- `cstr_len` -/
def cstrLen (memory : List UInt8) (addr : ℕ) : Except Fault ℕ :=
  match (memory.drop addr).findIdx? (· = 0) with
  | some len => .ok len
  | none => .error .outOfBounds

/-- `str$` of a `char *`, with the bytes that it refers to. -/
def strMakeFromCstr (memory : List UInt8) (addr : ℕ) : Except Fault (List UInt8) := do
  let len ← cstrLen memory addr
  return (memory.drop addr).take len

/-- `align_up$` of a `size_t` -/
def alignUp (n align : ℕ) : ℕ := (n + align - 1) / align * align

/-- `align_up$` of a `uint32_t` -/
def alignUp32 (n align : ℕ) : ℕ := (n + align - 1) % 2 ^ 32 / align * align

def fdtBeginNode : ℕ := 1
def fdtEndNode : ℕ := 2
def fdtProp : ℕ := 3
def fdtNop : ℕ := 4
def fdtEnd : ℕ := 9

/-- `fdt_tok_begin`, from `structure_offset` in the header. -/
def fdtTokBegin (memory : List UInt8) : Except Fault ℕ := beLoad memory 8

/-- `fdt_tok_end`, from `structure_size` in the header. -/
def fdtTokEnd (memory : List UInt8) : Except Fault ℕ := do
  let tok ← fdtTokBegin memory
  let size ← beLoad memory 36
  return tok + (size / 4 + 1) * 4

/-- `fdt_tok_next` -/
def fdtTokNext (memory : List UInt8) (tok : ℕ) : Except Fault ℕ := do
  let curType ← beLoad memory tok
  if curType = fdtBeginNode then
    let len ← cstrLen memory (tok + 4)
    return tok + alignUp (len + 1) 4 / 4 * 4 + 4
  else if curType = fdtProp then
    let len ← beLoad memory (tok + 4)
    return tok + alignUp32 len 4 / 4 * 4 + 2 * 4 + 4
  else
    return tok + 4

section

variable {σ ρ : Type}

/-- One turn of `for (cur = ...; cur < end; cur = fdt_tok_next(cur))`.  The body sees a token and
its type, and goes on or returns. -/
def fdtTurn (memory : List UInt8) (last : Option ℕ) (body : ℕ → ℕ → σ → Except Fault (σ ⊕ ρ))
    (done : σ → ρ) : ℕ × σ → Except Fault ((ℕ × σ) ⊕ ρ)
  | (cur, s) =>
    if ∃ stop ∈ last, cur < stop then do
      let curType ← beLoad memory cur
      match ← body cur curType s with
      | .inl s =>
        let next ← fdtTokNext memory cur
        return .inl (next, s)
      | .inr result => return .inr result
    else
      return .inr (done s)

/-- The loop, which takes no more than the given number of turns. -/
def fdtFor (turns : ℕ) (memory : List UInt8) (last : Option ℕ)
    (body : ℕ → ℕ → σ → Except Fault (σ ⊕ ρ)) (done : σ → ρ) (cur : ℕ) (s : σ) : Except Fault ρ :=
  loop (fdtTurn memory last body done) .depth turns (cur, s)

end

/-- `FdtNode`, with the bytes of its name. -/
structure FdtNode where
  name : List UInt8
  begin : ℕ
  last : Option ℕ
deriving DecidableEq, Repr

/-- `VoidSlice` -/
structure VoidSlice where
  buf : ℕ
  len : ℕ
deriving DecidableEq, Repr

/-- `FdtProp`, with the bytes of its name. -/
structure FdtProp where
  name : List UInt8
  value : VoidSlice
deriving DecidableEq, Repr

/-- The depth behind a token that begins or ends a node. -/
def fdtDepth (curType : ℕ) (depth : ℤ) : ℤ :=
  if curType = fdtBeginNode then depth + 1
  else if curType = fdtEndNode then depth - 1
  else depth

/-- `fdt_node_begin` -/
def fdtNodeBegin (memory : List UInt8) (rawNode : ℕ) : Except Fault ℕ := fdtTokNext memory rawNode

/-- The body of the loop in `fdt_node_end`. -/
def fdtNodeEndBody (cur curType : ℕ) (depth : ℤ) : Except Fault (ℤ ⊕ Option ℕ) :=
  if depth < 0 ∨ curType = fdtEnd then .ok (.inr (some cur))
  else .ok (.inl (fdtDepth curType depth))

/-- `fdt_node_end` -/
def fdtNodeEnd (turns : ℕ) (memory : List UInt8) (rawNode : ℕ) : Except Fault (Option ℕ) := do
  let cur ← fdtNodeBegin memory rawNode
  let stop ← fdtTokEnd memory
  fdtFor turns memory (some stop) fdtNodeEndBody (fun _ ↦ none) cur (0 : ℤ)

/-- `fdt_tok2node` -/
def fdtTok2Node (turns : ℕ) (memory : List UInt8) (rawNode : ℕ) : Except Fault FdtNode := do
  let begin ← fdtNodeBegin memory rawNode
  let last ← fdtNodeEnd turns memory rawNode
  let name ← strMakeFromCstr memory (rawNode + 4)
  return ⟨name, begin, last⟩

/-- `fdt_tok2prop` -/
def fdtTok2Prop (memory : List UInt8) (rawProp : ℕ) : Except Fault FdtProp := do
  let strings ← beLoad memory 12
  let nameOffset ← beLoad memory (rawProp + 8)
  let name ← strMakeFromCstr memory (strings + nameOffset)
  let len ← beLoad memory (rawProp + 4)
  return ⟨name, rawProp + 12, len⟩

/-- `fdt_node_root` -/
def fdtNodeRoot (memory : List UInt8) : Except Fault FdtNode := do
  let begin ← fdtTokBegin memory
  let last ← fdtTokEnd memory
  return ⟨[], begin, some last⟩

/-- `Iter` -/
inductive Iter where
  | iterStop
  | iterContinue
deriving DecidableEq, Repr

section

variable {σ : Type}

/-- The body of the loop in `fdt_node_childs`. -/
def fdtNodeChildsBody (turns : ℕ) (memory : List UInt8) (fn : FdtNode → σ → Iter × σ)
    (cur curType : ℕ) : ℤ × σ → Except Fault ((ℤ × σ) ⊕ (Iter × σ))
  | (depth, ctx) =>
    if curType = fdtBeginNode ∧ depth = 0 then do
      let res ← fdtTok2Node turns memory cur
      match fn res ctx with
      | (.iterStop, ctx) => return .inr (.iterStop, ctx)
      | (.iterContinue, ctx) => return .inl (fdtDepth curType depth, ctx)
    else .ok (.inl (fdtDepth curType depth, ctx))

/-- `fdt_node_childs` -/
def fdtNodeChilds (turns : ℕ) (memory : List UInt8) (node : FdtNode) (fn : FdtNode → σ → Iter × σ)
    (ctx : σ) : Except Fault (Iter × σ) :=
  fdtFor turns memory node.last (fdtNodeChildsBody turns memory fn)
    (fun s ↦ (.iterContinue, s.2)) node.begin ((0 : ℤ), ctx)

/-- The body of the loop in `fdt_node_props`. -/
def fdtNodePropsBody (memory : List UInt8) (fn : FdtProp → σ → Iter × σ) (cur curType : ℕ) :
    ℤ × σ → Except Fault ((ℤ × σ) ⊕ (Iter × σ))
  | (depth, ctx) =>
    if curType = fdtProp ∧ depth = 0 then do
      let prop ← fdtTok2Prop memory cur
      match fn prop ctx with
      | (.iterStop, ctx) => return .inr (.iterStop, ctx)
      | (.iterContinue, ctx) => return .inl (fdtDepth curType depth, ctx)
    else .ok (.inl (fdtDepth curType depth, ctx))

/-- `fdt_node_props` -/
def fdtNodeProps (turns : ℕ) (memory : List UInt8) (node : FdtNode) (fn : FdtProp → σ → Iter × σ)
    (ctx : σ) : Except Fault (Iter × σ) :=
  fdtFor turns memory node.last (fdtNodePropsBody memory fn) (fun s ↦ (.iterContinue, s.2))
    node.begin ((0 : ℤ), ctx)

end

end Brutal.Hw
