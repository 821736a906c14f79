import Brutal.Hw.Fdt

/-!
# Device trees laid out in memory

A structure block is a sequence of properties and nodes, with tokens between them that mean nothing.
What the walk sees of it is the list of its tokens with their addresses.
-/

namespace Brutal.Hw

open Base Lib

variable {memory name : List UInt8} {addr cur : ℕ}

/-- The bytes stand at the address. -/
def HoldsAt (memory : List UInt8) (addr : ℕ) (bytes : List UInt8) : Prop :=
  ∃ tail, memory.drop addr = bytes ++ tail

theorem HoldsAt.left {first second : List UInt8} (h : HoldsAt memory addr (first ++ second)) :
    HoldsAt memory addr first := by
  obtain ⟨tail, htail⟩ := h
  exact ⟨second ++ tail, by rw [htail, List.append_assoc]⟩

theorem HoldsAt.right {first second : List UInt8} (h : HoldsAt memory addr (first ++ second)) :
    HoldsAt memory (addr + first.length) second := by
  obtain ⟨tail, htail⟩ := h
  refine ⟨tail, ?_⟩
  rw [← List.drop_drop, htail, List.append_assoc, List.drop_left]

theorem HoldsAt.le_length {bytes : List UInt8} (h : HoldsAt memory addr bytes)
    (hbytes : bytes ≠ []) : addr + bytes.length ≤ memory.length := by
  obtain ⟨tail, htail⟩ := h
  have hlength := congrArg List.length htail
  have hpos := List.length_pos_iff.2 hbytes
  rw [List.length_drop, List.length_append] at hlength
  omega

theorem HoldsAt.beLoad_eq {addr n : ℕ} (h : HoldsAt memory addr (beBytes 4 n)) (hn : n < 2 ^ 32) :
    beLoad memory addr = .ok n := by
  have hfits : addr + 4 ≤ memory.length := by
    have hle := h.le_length (List.ne_nil_of_length_eq_add_one (length_beBytes 4 n))
    rw [length_beBytes] at hle
    exact hle
  obtain ⟨tail, htail⟩ := h
  have htake : (memory.drop addr).take 4 = beBytes 4 n := by
    rw [htail]
    exact List.take_left' (length_beBytes 4 n)
  rw [beLoad, if_pos hfits, htake, ofBeBytes_beBytes_of_lt (by simpa using hn)]

theorem findIdx?_first {front tail : List UInt8} {byte : UInt8} (hfront : byte ∉ front) :
    (front ++ byte :: tail).findIdx? (· = byte) = some front.length := by
  induction front with
  | nil =>
    rw [List.nil_append, List.findIdx?_cons]
    simp
  | cons first rest ih =>
    have hfirst : first ≠ byte := fun heq ↦ hfront (heq ▸ List.mem_cons_self)
    have hrest : byte ∉ rest := fun hmem ↦ hfront (List.mem_cons_of_mem _ hmem)
    rw [List.cons_append, List.findIdx?_cons, ih hrest]
    simp [hfirst]

theorem HoldsAt.cstrLen_eq (h : HoldsAt memory addr (name ++ [0])) (hname : 0 ∉ name) :
    cstrLen memory addr = .ok name.length := by
  obtain ⟨tail, htail⟩ := h
  rw [List.append_assoc] at htail
  rw [cstrLen, htail, List.singleton_append, findIdx?_first hname]

theorem HoldsAt.strMakeFromCstr_eq (h : HoldsAt memory addr (name ++ [0])) (hname : 0 ∉ name) :
    strMakeFromCstr memory addr = .ok name := by
  rw [strMakeFromCstr, h.cstrLen_eq hname, ok_bind]
  obtain ⟨tail, htail⟩ := h
  rw [htail, List.append_assoc, List.take_left]
  rfl

/-- A property, with the place of its name in the strings block and the bytes that fill up the last
word of its value. -/
structure DtProp where
  name : List UInt8
  nameOffset : ℕ
  value : List UInt8
  pad : List UInt8

/-- What stands in a node, with the bytes that fill up the last word of the names of nodes. -/
inductive DtItems where
  | nil
  | nop (rest : DtItems)
  | prop (prop : DtProp) (rest : DtItems)
  | node (name pad : List UInt8) (items rest : DtItems)

namespace DtItems

/-- The structure block in the flattened format, without the token that ends it. -/
def bytes : DtItems → List UInt8
  | nil => []
  | nop rest => beBytes 4 fdtNop ++ rest.bytes
  | prop entry rest =>
    beBytes 4 fdtProp ++ (beBytes 4 entry.value.length ++ (beBytes 4 entry.nameOffset ++
      (entry.value ++ (entry.pad ++ rest.bytes))))
  | node name pad items rest =>
    beBytes 4 fdtBeginNode ++ ((name ++ [0]) ++ (pad ++ (items.bytes ++
      (beBytes 4 fdtEndNode ++ rest.bytes))))

/-- The children, each with what stands in it. -/
def childs : DtItems → List (List UInt8 × DtItems)
  | nil => []
  | nop rest => rest.childs
  | prop _ rest => rest.childs
  | node name _ items rest => (name, items) :: rest.childs

/-- The properties with their values. -/
def props : DtItems → List (List UInt8 × List UInt8)
  | nil => []
  | nop rest => rest.props
  | prop entry rest => (entry.name, entry.value) :: rest.props
  | node _ _ _ rest => rest.props

/-- What stands in the node that is reached by taking the children with the given numbers. -/
def descend (items : DtItems) : List ℕ → Option DtItems
  | [] => some items
  | k :: path => items.childs[k]?.bind fun child ↦ child.2.descend path

/-- Names end where they should, and what is filled up are whole words. -/
def WellFormed (memory : List UInt8) (strings : ℕ) : DtItems → Prop
  | nil => True
  | nop rest => rest.WellFormed memory strings
  | prop entry rest =>
    (0 ∉ entry.name ∧ HoldsAt memory (strings + entry.nameOffset) (entry.name ++ [0]) ∧
      entry.nameOffset < 2 ^ 32 ∧
      entry.value.length + entry.pad.length = alignUp entry.value.length 4) ∧
    rest.WellFormed memory strings
  | node name pad items rest =>
    (0 ∉ name ∧ name.length + 1 + pad.length = alignUp (name.length + 1) 4) ∧
    items.WellFormed memory strings ∧ rest.WellFormed memory strings

/-- The address behind the name of a node. -/
def inner (cur : ℕ) (name pad : List UInt8) : ℕ := cur + 4 + (name.length + 1) + pad.length

/-- The tokens with their addresses. -/
def toks (cur : ℕ) : DtItems → List (ℕ × ℕ)
  | nil => []
  | nop rest => (cur, fdtNop) :: rest.toks (cur + 4)
  | prop entry rest =>
    (cur, fdtProp) :: rest.toks (cur + 12 + entry.value.length + entry.pad.length)
  | node name pad items rest =>
    let close := inner cur name pad + items.bytes.length
    (cur, fdtBeginNode) :: (items.toks (inner cur name pad) ++
      (close, fdtEndNode) :: rest.toks (close + 4))

end DtItems

/-- The tokens that are seen on the way from one address to another. -/
inductive Visits (memory : List UInt8) : ℕ → List (ℕ × ℕ) → ℕ → Prop where
  | nil (cur : ℕ) : Visits memory cur [] cur
  | cons {cur curType next last : ℕ} {rest : List (ℕ × ℕ)} (load : beLoad memory cur = .ok curType)
      (step : fdtTokNext memory cur = .ok next) (tail : Visits memory next rest last) :
      Visits memory cur ((cur, curType) :: rest) last

theorem Visits.append {cur next last : ℕ} {first second : List (ℕ × ℕ)}
    (h : Visits memory cur first next) (h' : Visits memory next second last) :
    Visits memory cur (first ++ second) last := by
  induction h with
  | nil => exact h'
  | cons load step _ ih => exact .cons load step (ih h')

theorem fdtTokNext_plain {cur curType : ℕ} (h : beLoad memory cur = .ok curType)
    (hnode : curType ≠ fdtBeginNode) (hprop : curType ≠ fdtProp) :
    fdtTokNext memory cur = .ok (cur + 4) := by
  rw [fdtTokNext, h, ok_bind, if_neg hnode, if_neg hprop]
  rfl

theorem alignUp_div_mul (n : ℕ) : alignUp n 4 / 4 * 4 = alignUp n 4 := by
  unfold alignUp
  omega

theorem fdtTokNext_node {memory name pad : List UInt8}
    (hload : beLoad memory cur = .ok fdtBeginNode) (hname : HoldsAt memory (cur + 4) (name ++ [0]))
    (hzero : 0 ∉ name) (hpad : name.length + 1 + pad.length = alignUp (name.length + 1) 4) :
    fdtTokNext memory cur = .ok (DtItems.inner cur name pad) := by
  rw [fdtTokNext, hload, ok_bind, if_pos rfl, hname.cstrLen_eq hzero, ok_bind, alignUp_div_mul,
    ← hpad, DtItems.inner]
  show Except.ok _ = Except.ok _
  congr 1
  omega

theorem fdtTokNext_prop {cur len padLength : ℕ} (hload : beLoad memory cur = .ok fdtProp)
    (hlen : beLoad memory (cur + 4) = .ok len) (hfits : len + 3 < 2 ^ 32)
    (hpad : len + padLength = alignUp len 4) :
    fdtTokNext memory cur = .ok (cur + 12 + len + padLength) := by
  have halign : alignUp32 len 4 / 4 * 4 = len + padLength := by
    rw [hpad]
    unfold alignUp32 alignUp
    omega
  rw [fdtTokNext, hload, ok_bind, if_neg (by decide), if_pos rfl, hlen, ok_bind, halign]
  show Except.ok _ = Except.ok _
  congr 1
  omega

/-- The walk over a laid out sequence sees its tokens and comes out behind it. -/
theorem DtItems.visits {strings : ℕ} (items : DtItems) (hwf : items.WellFormed memory strings)
    (hholds : HoldsAt memory cur items.bytes) (hsize : items.bytes.length < 2 ^ 32) :
    Visits memory cur (items.toks cur) (cur + items.bytes.length) := by
  induction items generalizing cur with
  | nil => exact .nil cur
  | nop rest ih =>
    have hload := hholds.left.beLoad_eq (by decide)
    have hrest := hholds.right
    rw [length_beBytes] at hrest
    rw [DtItems.bytes, List.length_append, length_beBytes] at hsize
    rw [DtItems.toks, DtItems.bytes, List.length_append, length_beBytes, ← Nat.add_assoc]
    exact .cons hload (fdtTokNext_plain hload (by decide) (by decide))
      (ih hwf hrest (by omega))
  | prop entry rest ih =>
    obtain ⟨⟨_, _, _, hpad⟩, hrestwf⟩ := hwf
    simp only [DtItems.bytes, List.length_append, length_beBytes] at hsize
    have hload := hholds.left.beLoad_eq (by decide)
    have hafter := hholds.right
    rw [length_beBytes] at hafter
    have hlen := hafter.left.beLoad_eq (by omega)
    have hrest := hafter.right.right.right.right
    rw [length_beBytes, length_beBytes] at hrest
    have hend : cur + (DtItems.prop entry rest).bytes.length =
        cur + 12 + entry.value.length + entry.pad.length + rest.bytes.length := by
      simp only [DtItems.bytes, List.length_append, length_beBytes]
      omega
    rw [DtItems.toks, hend]
    exact .cons hload (fdtTokNext_prop hload hlen (by omega) hpad)
      (ih hrestwf (by convert hrest using 1) (by omega))
  | node name pad items rest ihitems ih =>
    obtain ⟨⟨hzero, hpad⟩, hitemswf, hrestwf⟩ := hwf
    simp only [DtItems.bytes, List.length_append, length_beBytes, List.length_singleton] at hsize
    have hload := hholds.left.beLoad_eq (by decide)
    have hafter := hholds.right
    rw [length_beBytes] at hafter
    have hinside := hafter.right.right
    have hclose := hinside.right
    have hrest := hclose.right
    rw [List.length_append, List.length_singleton] at hinside hclose hrest
    rw [length_beBytes] at hrest
    have hcloseLoad := hclose.left.beLoad_eq (by decide)
    have hend : cur + (DtItems.node name pad items rest).bytes.length =
        DtItems.inner cur name pad + items.bytes.length + 4 + rest.bytes.length := by
      simp only [DtItems.bytes, List.length_append, length_beBytes, List.length_singleton,
        DtItems.inner]
      omega
    rw [DtItems.toks, hend]
    refine .cons hload (fdtTokNext_node hload hafter.left hzero hpad) (.append
      (ihitems hitemswf hinside.left (by omega)) ?_)
    exact .cons hcloseLoad (fdtTokNext_plain hcloseLoad (by decide) (by decide))
      (ih hrestwf hrest (by omega))

end Brutal.Hw
