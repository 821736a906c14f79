import Brutal.Hw.FdtLayout
import Mathlib.Data.List.Forall2

/-!
# Walking over a device tree

The nodes that `fdt_node_childs` hands out are those of the tree, and what it and `fdt_node_props`
find in them is what the tree has there.  For the node that stands for the whole block this rests on
the word behind the block, because `fdt_tok_end` points one token too far.
-/

namespace Brutal.Hw

open Base Lib

section

variable {σ ρ : Type} {memory : List UInt8} {body : ℕ → ℕ → σ → Except Fault (σ ⊕ ρ)}
  {done : σ → ρ}

/-- What the body of a loop makes of tokens, one after the other. -/
def runToks (body : ℕ → ℕ → σ → Except Fault (σ ⊕ ρ)) : List (ℕ × ℕ) → σ → Except Fault (σ ⊕ ρ)
  | [], s => .ok (.inl s)
  | (cur, curType) :: rest, s => do
    match ← body cur curType s with
    | .inl s => runToks body rest s
    | .inr result => return .inr result

theorem runToks_cons {cur curType : ℕ} {rest : List (ℕ × ℕ)} {s t : σ}
    (h : body cur curType s = .ok (.inl t)) :
    runToks body ((cur, curType) :: rest) s = runToks body rest t := by
  rw [runToks, h]
  rfl

theorem runToks_append {first second : List (ℕ × ℕ)} {s t : σ}
    (h : runToks body first s = .ok (.inl t)) :
    runToks body (first ++ second) s = runToks body second t := by
  induction first generalizing s with
  | nil =>
    cases h
    rfl
  | cons tok rest ih =>
    obtain ⟨cur, curType⟩ := tok
    cases hbody : body cur curType s with
    | error fault =>
      rw [runToks, hbody] at h
      cases h
    | ok next =>
      cases next with
      | inl u =>
        rw [runToks_cons hbody] at h
        rw [List.cons_append, runToks_cons hbody]
        exact ih h
      | inr result =>
        rw [runToks, hbody] at h
        cases h

theorem fdtTurn_leave {cur : ℕ} {last : Option ℕ} {s : σ} (h : ¬ ∃ stop ∈ last, cur < stop) :
    fdtTurn memory last body done (cur, s) = .ok (.inr (done s)) := by
  rw [fdtTurn, if_neg h]
  rfl

theorem fdtTurn_goes {cur curType next stop : ℕ} {s t : σ} (h : cur < stop)
    (hload : beLoad memory cur = .ok curType) (hbody : body cur curType s = .ok (.inl t))
    (hnext : fdtTokNext memory cur = .ok next) :
    fdtTurn memory (some stop) body done (cur, s) = .ok (.inl (next, t)) := by
  rw [fdtTurn, if_pos ⟨stop, rfl, h⟩, hload, ok_bind, hbody, ok_bind]
  show (fdtTokNext memory cur >>= fun next ↦ _) = _
  rw [hnext]
  rfl

theorem fdtTurn_returns {cur curType stop : ℕ} {s : σ} {result : ρ} (h : cur < stop)
    (hload : beLoad memory cur = .ok curType) (hbody : body cur curType s = .ok (.inr result)) :
    fdtTurn memory (some stop) body done (cur, s) = .ok (.inr result) := by
  rw [fdtTurn, if_pos ⟨stop, rfl, h⟩, hload, ok_bind, hbody, ok_bind]
  rfl

theorem fdtTurn_error {cur stop : ℕ} {s : σ} (h : cur < stop) {fault : Fault}
    (hload : beLoad memory cur = .error fault) :
    fdtTurn memory (some stop) body done (cur, s) = .error fault := by
  rw [fdtTurn, if_pos ⟨stop, rfl, h⟩, hload]
  rfl

/-- A loop goes on behind tokens that it passes. -/
theorem fdtFor_visits {cur next stop : ℕ} {toks : List (ℕ × ℕ)}
    (hvisits : Visits memory cur toks next)
    (hstop : ∀ tok ∈ toks, tok.1 < stop) {s t : σ} (hrun : runToks body toks s = .ok (.inl t))
    (turns : ℕ) :
    fdtFor (toks.length + turns) memory (some stop) body done cur s =
      fdtFor turns memory (some stop) body done next t := by
  induction hvisits generalizing s with
  | nil =>
    cases hrun
    rw [List.length_nil, Nat.zero_add]
  | @cons cur curType next last rest load step _ ih =>
    cases hbody : body cur curType s with
    | error fault =>
      rw [runToks, hbody] at hrun
      cases hrun
    | ok result =>
      cases result with
      | inl u =>
        rw [runToks_cons hbody] at hrun
        rw [fdtFor, List.length_cons, Nat.add_right_comm,
          loop_turn (fdtTurn_goes (hstop _ List.mem_cons_self) load hbody step)]
        exact ih (fun tok htok ↦ hstop tok (List.mem_cons_of_mem _ htok)) hrun
      | inr result =>
        rw [runToks, hbody] at hrun
        cases hrun

/-- A loop that returns at one of the tokens. -/
theorem fdtFor_returns {cur next stop : ℕ} {toks : List (ℕ × ℕ)}
    (hvisits : Visits memory cur toks next)
    (hstop : ∀ tok ∈ toks, tok.1 < stop) {s : σ} {result : ρ}
    (hrun : runToks body toks s = .ok (.inr result)) (turns : ℕ) :
    fdtFor (toks.length + turns) memory (some stop) body done cur s = .ok result := by
  induction hvisits generalizing s with
  | nil => cases hrun
  | @cons cur curType next last rest load step _ ih =>
    cases hbody : body cur curType s with
    | error fault =>
      rw [runToks, hbody] at hrun
      cases hrun
    | ok outcome =>
      cases outcome with
      | inl u =>
        rw [runToks_cons hbody] at hrun
        rw [fdtFor, List.length_cons, Nat.add_right_comm,
          loop_turn (fdtTurn_goes (hstop _ List.mem_cons_self) load hbody step)]
        exact ih (fun tok htok ↦ hstop tok (List.mem_cons_of_mem _ htok)) hrun
      | inr result' =>
        rw [runToks, hbody] at hrun
        cases hrun
        rw [fdtFor, List.length_cons, Nat.add_right_comm,
          loop_leave (fdtTurn_returns (hstop _ List.mem_cons_self) load hbody)]

end

theorem DtItems.length_bytes_prop (entry : DtProp) (rest : DtItems) :
    (DtItems.prop entry rest).bytes.length =
      12 + entry.value.length + entry.pad.length + rest.bytes.length := by
  simp only [DtItems.bytes, List.length_append, length_beBytes]
  omega

theorem DtItems.length_bytes_node (name pad : List UInt8) (items rest : DtItems) :
    (DtItems.node name pad items rest).bytes.length =
      4 + (name.length + 1) + pad.length + items.bytes.length + 4 + rest.bytes.length := by
  simp only [DtItems.bytes, List.length_append, length_beBytes, List.length_singleton]
  omega

theorem DtItems.length_bytes_nop (rest : DtItems) :
    (DtItems.nop rest).bytes.length = 4 + rest.bytes.length := by
  simp only [DtItems.bytes, List.length_append, length_beBytes]

/-- The tokens stand within the bytes. -/
theorem DtItems.toks_lt (items : DtItems) {cur : ℕ} {tok : ℕ × ℕ} (h : tok ∈ items.toks cur) :
    tok.1 < cur + items.bytes.length := by
  induction items generalizing cur with
  | nil => cases h
  | nop rest ih =>
    rw [DtItems.length_bytes_nop]
    rcases List.mem_cons.1 h with rfl | h
    · show cur < _
      omega
    · have hlt := ih h
      omega
  | prop entry rest ih =>
    rw [DtItems.length_bytes_prop]
    rcases List.mem_cons.1 h with rfl | h
    · show cur < _
      omega
    · have hlt := ih h
      omega
  | node name pad items rest ihitems ih =>
    rw [DtItems.length_bytes_node]
    rcases List.mem_cons.1 h with rfl | h
    · show cur < _
      omega
    rcases List.mem_append.1 h with h | h
    · have hlt := ihitems h
      unfold DtItems.inner at hlt
      omega
    rcases List.mem_cons.1 h with rfl | h
    · show DtItems.inner cur name pad + items.bytes.length < _
      unfold DtItems.inner
      omega
    · have hlt := ih h
      unfold DtItems.inner at hlt
      omega

theorem DtItems.length_toks (items : DtItems) (cur : ℕ) :
    4 * (items.toks cur).length ≤ items.bytes.length := by
  induction items generalizing cur with
  | nil => exact Nat.zero_le _
  | nop rest ih =>
    have hrest := ih (cur + 4)
    rw [DtItems.length_bytes_nop, DtItems.toks, List.length_cons]
    omega
  | prop entry rest ih =>
    have hrest := ih (cur + 12 + entry.value.length + entry.pad.length)
    rw [DtItems.length_bytes_prop, DtItems.toks, List.length_cons]
    omega
  | node name pad items rest ihitems ih =>
    have hitems := ihitems (DtItems.inner cur name pad)
    have hrest := ih (DtItems.inner cur name pad + items.bytes.length + 4)
    rw [DtItems.length_bytes_node, DtItems.toks, List.length_cons, List.length_append,
      List.length_cons]
    omega

/-- A body that only counts below a depth comes out of a sequence at the depth it went in. -/
theorem runToks_quiet {σ ρ : Type} {body : ℕ → ℕ → σ → Except Fault (σ ⊕ ρ)} (state : ℤ → σ)
    {low : ℤ} (hbody : ∀ cur curType depth, low ≤ depth → curType ≠ fdtEnd →
      body cur curType (state depth) = .ok (.inl (state (fdtDepth curType depth))))
    (items : DtItems) {depth : ℤ} (hdepth : low ≤ depth) (cur : ℕ) :
    runToks body (items.toks cur) (state depth) = .ok (.inl (state depth)) := by
  induction items generalizing cur depth with
  | nil => rfl
  | nop rest ih =>
    rw [DtItems.toks, runToks_cons (hbody cur fdtNop depth hdepth (by decide))]
    exact ih hdepth _
  | prop entry rest ih =>
    rw [DtItems.toks, runToks_cons (hbody cur fdtProp depth hdepth (by decide))]
    exact ih hdepth _
  | node name pad items rest ihitems ih =>
    have hinner : low ≤ depth + 1 := by omega
    rw [DtItems.toks, runToks_cons (hbody cur fdtBeginNode depth hdepth (by decide))]
    show runToks body _ (state (depth + 1)) = _
    rw [runToks_append (ihitems hinner _),
      runToks_cons (hbody _ fdtEndNode (depth + 1) hinner (by decide))]
    show runToks body _ (state (depth + 1 - 1)) = _
    rw [Int.add_sub_cancel]
    exact ih hdepth _

namespace DtItems

/-- The children as nodes in memory. -/
def nodes (cur : ℕ) : DtItems → List FdtNode
  | nil => []
  | nop rest => rest.nodes (cur + 4)
  | prop entry rest => rest.nodes (cur + 12 + entry.value.length + entry.pad.length)
  | node name pad items rest =>
    let close := inner cur name pad + items.bytes.length
    ⟨name, inner cur name pad, some (close + 4)⟩ :: rest.nodes (close + 4)

/-- The properties with the places of their values in memory. -/
def slices (cur : ℕ) : DtItems → List FdtProp
  | nil => []
  | nop rest => rest.slices (cur + 4)
  | prop entry rest =>
    ⟨entry.name, cur + 12, entry.value.length⟩ ::
      rest.slices (cur + 12 + entry.value.length + entry.pad.length)
  | node name pad items rest => rest.slices (inner cur name pad + items.bytes.length + 4)

end DtItems

/-- A sequence in memory that the structure block goes on behind. -/
structure Inside (memory : List UInt8) (cur : ℕ) (items : DtItems) : Prop where
  holds : HoldsAt memory cur items.bytes
  wellFormed : ∃ strings, beLoad memory 12 = .ok strings ∧ items.WellFormed memory strings
  size : items.bytes.length < 2 ^ 32
  readable : cur + items.bytes.length + 4 ≤ memory.length
  before : ∃ stop, fdtTokEnd memory = .ok stop ∧ cur + items.bytes.length < stop

theorem Inside.visits {memory : List UInt8} {cur : ℕ} {items : DtItems}
    (h : Inside memory cur items) :
    Visits memory cur (items.toks cur) (cur + items.bytes.length) := by
  obtain ⟨strings, _, hwf⟩ := h.wellFormed
  exact items.visits hwf h.holds h.size

theorem Inside.nop {memory : List UInt8} {cur : ℕ} {rest : DtItems}
    (h : Inside memory cur (.nop rest)) : Inside memory (cur + 4) rest := by
  have hholds := h.holds.right
  have hsize := h.size
  have hreadable := h.readable
  obtain ⟨strings, hstrings, hwf⟩ := h.wellFormed
  obtain ⟨stop, hstop, hlt⟩ := h.before
  rw [length_beBytes] at hholds
  rw [DtItems.length_bytes_nop] at hsize hreadable hlt
  exact ⟨hholds, ⟨strings, hstrings, hwf⟩, by omega, by omega, ⟨stop, hstop, by omega⟩⟩

theorem Inside.prop {memory : List UInt8} {cur : ℕ} {entry : DtProp} {rest : DtItems}
    (h : Inside memory cur (.prop entry rest)) :
    Inside memory (cur + 12 + entry.value.length + entry.pad.length) rest := by
  have hholds := h.holds.right.right.right.right.right
  have hsize := h.size
  have hreadable := h.readable
  obtain ⟨strings, hstrings, _, hwf⟩ := h.wellFormed
  obtain ⟨stop, hstop, hlt⟩ := h.before
  rw [length_beBytes, length_beBytes, length_beBytes] at hholds
  rw [DtItems.length_bytes_prop] at hsize hreadable hlt
  refine ⟨?_, ⟨strings, hstrings, hwf⟩, by omega, by omega, ⟨stop, hstop, by omega⟩⟩
  convert hholds using 1

theorem Inside.rest {memory name pad : List UInt8} {cur : ℕ} {items rest : DtItems}
    (h : Inside memory cur (.node name pad items rest)) :
    Inside memory (DtItems.inner cur name pad + items.bytes.length + 4) rest := by
  have hholds := h.holds.right.right.right.right.right
  have hsize := h.size
  have hreadable := h.readable
  obtain ⟨strings, hstrings, _, _, hwf⟩ := h.wellFormed
  obtain ⟨stop, hstop, hlt⟩ := h.before
  rw [length_beBytes, length_beBytes, List.length_append, List.length_singleton] at hholds
  rw [DtItems.length_bytes_node] at hsize hreadable hlt
  unfold DtItems.inner
  exact ⟨hholds, ⟨strings, hstrings, hwf⟩, by omega, by omega, ⟨stop, hstop, by omega⟩⟩

theorem Inside.items {memory name pad : List UInt8} {cur : ℕ} {items rest : DtItems}
    (h : Inside memory cur (.node name pad items rest)) :
    Inside memory (DtItems.inner cur name pad) items := by
  have hholds := h.holds.right.right.right.left
  have hsize := h.size
  have hreadable := h.readable
  obtain ⟨strings, hstrings, _, hwf, _⟩ := h.wellFormed
  obtain ⟨stop, hstop, hlt⟩ := h.before
  rw [length_beBytes, List.length_append, List.length_singleton] at hholds
  rw [DtItems.length_bytes_node] at hsize hreadable hlt
  unfold DtItems.inner
  exact ⟨hholds, ⟨strings, hstrings, hwf⟩, by omega, by omega, ⟨stop, hstop, by omega⟩⟩

/-- The token that ends a node. -/
theorem Inside.close {memory name pad : List UInt8} {cur : ℕ} {items rest : DtItems}
    (h : Inside memory cur (.node name pad items rest)) :
    beLoad memory (DtItems.inner cur name pad + items.bytes.length) = .ok fdtEndNode := by
  have hholds := h.holds.right.right.right.right.left
  rw [length_beBytes, List.length_append, List.length_singleton] at hholds
  exact hholds.beLoad_eq (by decide)

theorem beLoad_of_le {memory : List UInt8} {addr : ℕ} (h : addr + 4 ≤ memory.length) :
    ∃ word, beLoad memory addr = .ok word := ⟨_, if_pos h⟩

/-- The node that a token becomes ends behind the token that closes it. -/
theorem Inside.fdtTok2Node_eq {memory name pad : List UInt8} {cur turns : ℕ} {items rest : DtItems}
    (h : Inside memory cur (.node name pad items rest))
    (hturns : items.bytes.length / 4 + 2 ≤ turns) :
    fdtTok2Node turns memory cur = .ok ⟨name, DtItems.inner cur name pad,
      some (DtItems.inner cur name pad + items.bytes.length + 4)⟩ := by
  have hload := h.holds.left.beLoad_eq (by decide)
  have hname := h.holds.right.left
  rw [length_beBytes] at hname
  obtain ⟨strings, hstrings, ⟨hzero, hpad⟩, _, _⟩ := h.wellFormed
  have hbegin := fdtTokNext_node hload hname hzero hpad
  have hreadable := h.rest.readable
  obtain ⟨stop, hstop, hlt⟩ := h.rest.before
  obtain ⟨word, hword⟩ := beLoad_of_le
    (show DtItems.inner cur name pad + items.bytes.length + 4 + 4 ≤ memory.length by omega)
  have hlength := items.length_toks (DtItems.inner cur name pad)
  obtain ⟨extra, rfl⟩ := Nat.exists_eq_add_of_le
    (show (items.toks (DtItems.inner cur name pad)).length + 2 ≤ turns by omega)
  have hquiet : runToks fdtNodeEndBody (items.toks (DtItems.inner cur name pad)) (0 : ℤ) =
      .ok (.inl 0) := by
    refine runToks_quiet id (fun cur curType depth hdepth htype ↦ ?_) items (le_refl 0) _
    rw [fdtNodeEndBody, if_neg (by simp only [id_eq]; omega)]
    rfl
  have hend : fdtNodeEnd ((items.toks (DtItems.inner cur name pad)).length + 2 + extra) memory cur =
      .ok (some (DtItems.inner cur name pad + items.bytes.length + 4)) := by
    have hinside : ∀ tok ∈ items.toks (DtItems.inner cur name pad), tok.1 < stop := by
      intro tok htok
      have hin := items.toks_lt htok
      omega
    have hturn : fdtTurn memory (some stop) fdtNodeEndBody (fun _ ↦ none)
        (DtItems.inner cur name pad + items.bytes.length, 0) =
          .ok (.inl (DtItems.inner cur name pad + items.bytes.length + 4, -1)) :=
      fdtTurn_goes (by omega) h.close rfl (fdtTokNext_plain h.close (by decide) (by decide))
    rw [fdtNodeEnd, fdtNodeBegin, hbegin, ok_bind, hstop, ok_bind, Nat.add_assoc,
      fdtFor_visits h.items.visits hinside hquiet, fdtFor, Nat.add_comm 2 extra, loop_turn hturn,
      loop_leave (fdtTurn_returns (by omega) hword rfl)]
  rw [fdtTok2Node, fdtNodeBegin, hbegin, ok_bind, hend, ok_bind, hname.strMakeFromCstr_eq hzero]
  rfl

/-- What a callback is handed, one after the other until it stops. -/
def iterEach {α σ : Type} (fn : α → σ → Iter × σ) : List α → σ → Iter × σ
  | [], ctx => (.iterContinue, ctx)
  | item :: rest, ctx =>
    match fn item ctx with
    | (.iterStop, ctx) => (.iterStop, ctx)
    | (.iterContinue, ctx) => iterEach fn rest ctx

/-- How a loop that hands things out at its own depth comes out of tokens. -/
def outcome {σ : Type} : Iter × σ → (ℤ × σ) ⊕ (Iter × σ)
  | (.iterStop, ctx) => .inr (.iterStop, ctx)
  | (.iterContinue, ctx) => .inl (0, ctx)

section

variable {σ : Type} {memory : List UInt8}

/-- Below its own depth a loop hands out nothing. -/
theorem childsBody_quiet (turns : ℕ) (fn : FdtNode → σ → Iter × σ) (items : DtItems) (ctx : σ)
    (cur : ℕ) : runToks (fdtNodeChildsBody turns memory fn) (items.toks cur) ((1 : ℤ), ctx) =
      .ok (.inl (1, ctx)) := by
  refine runToks_quiet (fun depth ↦ (depth, ctx)) (fun cur curType depth hdepth _ ↦ ?_) items
    (le_refl 1) cur
  have hbelow : ¬ (curType = fdtBeginNode ∧ depth = 0) := by omega
  rw [fdtNodeChildsBody, if_neg hbelow]

theorem propsBody_quiet (fn : FdtProp → σ → Iter × σ) (items : DtItems) (ctx : σ) (cur : ℕ) :
    runToks (fdtNodePropsBody memory fn) (items.toks cur) ((1 : ℤ), ctx) = .ok (.inl (1, ctx)) := by
  refine runToks_quiet (fun depth ↦ (depth, ctx)) (fun cur curType depth hdepth _ ↦ ?_) items
    (le_refl 1) cur
  have hbelow : ¬ (curType = fdtProp ∧ depth = 0) := by omega
  rw [fdtNodePropsBody, if_neg hbelow]

/-- The children are handed out in their order. -/
theorem runToks_childs {turns : ℕ} (fn : FdtNode → σ → Iter × σ) {items : DtItems} {cur : ℕ}
    (h : Inside memory cur items) (hturns : items.bytes.length / 4 + 2 ≤ turns) (ctx : σ) :
    runToks (fdtNodeChildsBody turns memory fn) (items.toks cur) ((0 : ℤ), ctx) =
      .ok (outcome (iterEach fn (items.nodes cur) ctx)) := by
  induction items generalizing cur ctx with
  | nil => rfl
  | nop rest ih =>
    rw [DtItems.length_bytes_nop] at hturns
    rw [DtItems.toks, runToks_cons rfl]
    exact ih h.nop (by omega) ctx
  | prop entry rest ih =>
    rw [DtItems.length_bytes_prop] at hturns
    rw [DtItems.toks, runToks_cons rfl]
    exact ih h.prop (by omega) ctx
  | node name pad items rest _ ih =>
    rw [DtItems.length_bytes_node] at hturns
    have hnode := h.fdtTok2Node_eq (show items.bytes.length / 4 + 2 ≤ turns by omega)
    rw [DtItems.toks, DtItems.nodes, iterEach]
    cases hfn : fn ⟨name, DtItems.inner cur name pad,
        some (DtItems.inner cur name pad + items.bytes.length + 4)⟩ ctx with
    | mk iter ctx' =>
      cases iter with
      | iterStop =>
        rw [runToks, fdtNodeChildsBody, if_pos ⟨rfl, rfl⟩, hnode, ok_bind, hfn]
        rfl
      | iterContinue =>
        have hbody : fdtNodeChildsBody turns memory fn cur fdtBeginNode ((0 : ℤ), ctx) =
            .ok (.inl (1, ctx')) := by
          rw [fdtNodeChildsBody, if_pos ⟨rfl, rfl⟩, hnode, ok_bind, hfn]
          rfl
        rw [runToks_cons hbody, runToks_append (childsBody_quiet turns fn items ctx' _),
          runToks_cons rfl]
        exact ih h.rest (by omega) ctx'

/-- The properties are handed out in their order. -/
theorem runToks_props (fn : FdtProp → σ → Iter × σ) {items : DtItems} {cur : ℕ}
    (h : Inside memory cur items) (ctx : σ) :
    runToks (fdtNodePropsBody memory fn) (items.toks cur) ((0 : ℤ), ctx) =
      .ok (outcome (iterEach fn (items.slices cur) ctx)) := by
  induction items generalizing cur ctx with
  | nil => rfl
  | nop rest ih =>
    rw [DtItems.toks, runToks_cons rfl]
    exact ih h.nop ctx
  | prop entry rest ih =>
    have hprop : fdtTok2Prop memory cur = .ok ⟨entry.name, cur + 12, entry.value.length⟩ := by
      obtain ⟨strings, hstrings, ⟨hzero, hname, hoffset, _⟩, _⟩ := h.wellFormed
      have hsize := h.size
      rw [DtItems.length_bytes_prop] at hsize
      have hlen := h.holds.right.left.beLoad_eq (by omega)
      have hnameOffset := h.holds.right.right.left.beLoad_eq hoffset
      rw [length_beBytes] at hlen hnameOffset
      rw [length_beBytes, Nat.add_assoc] at hnameOffset
      rw [fdtTok2Prop, hstrings, ok_bind, hnameOffset, ok_bind, hname.strMakeFromCstr_eq hzero,
        ok_bind, hlen]
      rfl
    rw [DtItems.toks, DtItems.slices, iterEach]
    cases hfn : fn ⟨entry.name, cur + 12, entry.value.length⟩ ctx with
    | mk iter ctx' =>
      cases iter with
      | iterStop =>
        rw [runToks, fdtNodePropsBody, if_pos ⟨rfl, rfl⟩, hprop, ok_bind, hfn]
        rfl
      | iterContinue =>
        have hbody : fdtNodePropsBody memory fn cur fdtProp ((0 : ℤ), ctx) =
            .ok (.inl (0, ctx')) := by
          rw [fdtNodePropsBody, if_pos ⟨rfl, rfl⟩, hprop, ok_bind, hfn]
          rfl
        rw [runToks_cons hbody]
        exact ih h.prop ctx'
  | node name pad items rest _ ih =>
    rw [DtItems.toks, runToks_cons rfl]
    show runToks (fdtNodePropsBody memory fn) _ ((1 : ℤ), ctx) = _
    rw [runToks_append (propsBody_quiet fn items ctx _), runToks_cons rfl]
    exact ih h.rest ctx

end

/-- A node that a token became: its items, and the token that ends it. -/
structure Closed (memory : List UInt8) (node : FdtNode) (items : DtItems) : Prop where
  inside : Inside memory node.begin items
  close : beLoad memory (node.begin + items.bytes.length) = .ok fdtEndNode
  last : node.last = some (node.begin + items.bytes.length + 4)

/-- The nodes that are handed out are the children of the tree. -/
theorem Inside.nodes_closed {memory : List UInt8} {items : DtItems} {cur : ℕ}
    (h : Inside memory cur items) {k : ℕ} {child : FdtNode}
    (hchild : (items.nodes cur)[k]? = some child) :
    ∃ sub, items.childs[k]? = some (child.name, sub) ∧ Closed memory child sub ∧
      sub.bytes.length ≤ items.bytes.length := by
  induction items generalizing cur k with
  | nil => cases hchild
  | nop rest ih =>
    obtain ⟨sub, hsub, hclosed, hle⟩ := ih h.nop hchild
    refine ⟨sub, hsub, hclosed, ?_⟩
    rw [DtItems.length_bytes_nop]
    omega
  | prop entry rest ih =>
    obtain ⟨sub, hsub, hclosed, hle⟩ := ih h.prop hchild
    refine ⟨sub, hsub, hclosed, ?_⟩
    rw [DtItems.length_bytes_prop]
    omega
  | node name pad items rest _ ih =>
    rw [DtItems.length_bytes_node]
    cases k with
    | zero =>
      cases hchild
      exact ⟨items, rfl, ⟨h.items, h.close, rfl⟩, by omega⟩
    | succ k =>
      obtain ⟨sub, hsub, hclosed, hle⟩ := ih h.rest hchild
      exact ⟨sub, hsub, hclosed, by omega⟩

theorem DtItems.nodes_name (items : DtItems) (cur : ℕ) :
    (items.nodes cur).map (·.name) = items.childs.map (·.1) := by
  induction items generalizing cur with
  | nil => rfl
  | nop rest ih => exact ih _
  | prop entry rest ih => exact ih _
  | node name pad items rest _ ih =>
    rw [DtItems.nodes, DtItems.childs, List.map_cons, List.map_cons, ih]

/-- A property with its name and the bytes of its value. -/
def Matches (memory : List UInt8) (found : FdtProp) (entry : List UInt8 × List UInt8) : Prop :=
  found.name = entry.1 ∧ found.value.len = entry.2.length ∧ HoldsAt memory found.value.buf entry.2

theorem Inside.slices_match {memory : List UInt8} {items : DtItems} {cur : ℕ}
    (h : Inside memory cur items) :
    List.Forall₂ (Matches memory) (items.slices cur) items.props := by
  induction items generalizing cur with
  | nil => exact .nil
  | nop rest ih => exact ih h.nop
  | prop entry rest ih =>
    have hvalue := h.holds.right.right.right.left
    rw [length_beBytes, length_beBytes, length_beBytes] at hvalue
    exact .cons ⟨rfl, rfl, hvalue⟩ (ih h.prop)
  | node name pad items rest _ ih => exact ih h.rest

/-- The callbacks see the children and the properties of a node, in their order. -/
def Enumerates (turns : ℕ) (memory : List UInt8) (node : FdtNode) (items : DtItems) : Prop :=
  ∃ (nodes : List FdtNode) (props : List FdtProp),
    nodes.map (·.name) = items.childs.map (·.1) ∧
    List.Forall₂ (Matches memory) props items.props ∧
    (∀ (σ : Type) (fn : FdtNode → σ → Iter × σ) (ctx : σ),
      fdtNodeChilds turns memory node fn ctx = .ok (iterEach fn nodes ctx)) ∧
    ∀ (σ : Type) (fn : FdtProp → σ → Iter × σ) (ctx : σ),
      fdtNodeProps turns memory node fn ctx = .ok (iterEach fn props ctx)

/-- The same for the nodes and properties at their places in memory. -/
structure EnumeratesAt (turns : ℕ) (memory : List UInt8) (node : FdtNode) (items : DtItems) :
    Prop where
  inside : Inside memory node.begin items
  childs : ∀ (σ : Type) (fn : FdtNode → σ → Iter × σ) (ctx : σ),
    fdtNodeChilds turns memory node fn ctx = .ok (iterEach fn (items.nodes node.begin) ctx)
  props : ∀ (σ : Type) (fn : FdtProp → σ → Iter × σ) (ctx : σ),
    fdtNodeProps turns memory node fn ctx = .ok (iterEach fn (items.slices node.begin) ctx)

theorem EnumeratesAt.enumerates {turns : ℕ} {memory : List UInt8} {node : FdtNode}
    {items : DtItems} (h : EnumeratesAt turns memory node items) :
    Enumerates turns memory node items :=
  ⟨_, _, items.nodes_name _, h.inside.slices_match, h.childs, h.props⟩

section

variable {σ : Type} {memory : List UInt8} {turns : ℕ}
  {body : ℕ → ℕ → ℤ × σ → Except Fault ((ℤ × σ) ⊕ (Iter × σ))}

theorem Closed.fdtFor_eq {node : FdtNode} {items : DtItems} (h : Closed memory node items)
    (hturns : items.bytes.length / 4 + 2 ≤ turns)
    (hend : ∀ cur ctx, body cur fdtEndNode ((0 : ℤ), ctx) = .ok (.inl (-1, ctx))) {ctx : σ}
    {result : Iter × σ}
    (hrun : runToks body (items.toks node.begin) ((0 : ℤ), ctx) = .ok (outcome result)) :
    fdtFor turns memory node.last body (fun s ↦ (.iterContinue, s.2)) node.begin ((0 : ℤ), ctx) =
      .ok result := by
  have hlength := items.length_toks node.begin
  obtain ⟨extra, rfl⟩ := Nat.exists_eq_add_of_le
    (show (items.toks node.begin).length + 2 ≤ turns by omega)
  have hinside : ∀ tok ∈ items.toks node.begin, tok.1 < node.begin + items.bytes.length + 4 := by
    intro tok htok
    have hin := items.toks_lt htok
    omega
  rw [h.last, Nat.add_assoc]
  obtain ⟨iter, ctx'⟩ := result
  cases iter with
  | iterStop => exact fdtFor_returns h.inside.visits hinside hrun _
  | iterContinue =>
    rw [fdtFor_visits h.inside.visits hinside hrun, fdtFor, Nat.add_comm 2 extra,
      loop_turn (fdtTurn_goes (by omega) h.close (hend _ ctx')
        (fdtTokNext_plain h.close (by decide) (by decide))),
      loop_leave (fdtTurn_leave (by simp))]

end

/-- A node of the tree is enumerated as it is. -/
theorem Closed.enumerates {memory : List UInt8} {node : FdtNode} {items : DtItems} {turns : ℕ}
    (h : Closed memory node items) (hturns : items.bytes.length / 4 + 2 ≤ turns) :
    EnumeratesAt turns memory node items := by
  refine ⟨h.inside, fun σ fn ctx ↦ ?_, fun σ fn ctx ↦ ?_⟩
  · exact h.fdtFor_eq hturns (fun _ _ ↦ rfl) (runToks_childs fn h.inside hturns ctx)
  · exact h.fdtFor_eq hturns (fun _ _ ↦ rfl) (runToks_props fn h.inside ctx)

/-! ## The whole block -/

/-- A block in memory: where the header says that it begins, how long it is, and what stands in
it. -/
structure LaidOut (memory : List UInt8) (begin : ℕ) (items : DtItems) : Prop where
  offset : beLoad memory 8 = .ok begin
  size : beLoad memory 36 = .ok (items.bytes.length + 4)
  holds : HoldsAt memory begin (items.bytes ++ beBytes 4 fdtEnd)
  wellFormed : ∃ strings, beLoad memory 12 = .ok strings ∧ items.WellFormed memory strings

theorem beLoad_lt {memory : List UInt8} {addr word : ℕ} (h : beLoad memory addr = .ok word) :
    word < 2 ^ 32 := by
  unfold beLoad at h
  split at h
  next hle =>
    cases h
    have hlength : ((memory.drop addr).take 4).length = 4 := by
      rw [List.length_take, List.length_drop]
      omega
    have hlt := ofBeBytes_lt ((memory.drop addr).take 4)
    rw [hlength] at hlt
    exact hlt
  next => cases h

theorem DtItems.WellFormed.four_dvd {memory : List UInt8} {strings : ℕ} {items : DtItems}
    (h : items.WellFormed memory strings) : 4 ∣ items.bytes.length := by
  induction items with
  | nil => exact Nat.dvd_zero 4
  | nop rest ih =>
    have hrest := ih h
    rw [DtItems.length_bytes_nop]
    omega
  | prop entry rest ih =>
    obtain ⟨⟨_, _, _, hpad⟩, hwf⟩ := h
    have hrest := ih hwf
    rw [DtItems.length_bytes_prop]
    unfold alignUp at hpad
    omega
  | node name pad items rest ihitems ih =>
    obtain ⟨⟨_, hpad⟩, hitemswf, hwf⟩ := h
    have hrest := ih hwf
    have hitems := ihitems hitemswf
    rw [DtItems.length_bytes_node]
    unfold alignUp at hpad
    omega

namespace LaidOut

variable {memory : List UInt8} {begin : ℕ} {items : DtItems}

/-- The end of the tokens is one token behind the block. -/
theorem fdtTokEnd_eq (h : LaidOut memory begin items) :
    fdtTokEnd memory = .ok (begin + items.bytes.length + 8) := by
  obtain ⟨_, _, hwf⟩ := h.wellFormed
  have hdvd := hwf.four_dvd
  rw [fdtTokEnd, fdtTokBegin, h.offset, ok_bind, h.size, ok_bind]
  show Except.ok _ = Except.ok _
  congr 1
  omega

theorem inside (h : LaidOut memory begin items) : Inside memory begin items where
  holds := h.holds.left
  wellFormed := h.wellFormed
  size := by
    have hlt := beLoad_lt h.size
    omega
  readable := by
    have hle := h.holds.right.le_length (List.ne_nil_of_length_eq_add_one (length_beBytes 4 _))
    rw [length_beBytes] at hle
    exact hle
  before := ⟨_, h.fdtTokEnd_eq, by omega⟩

theorem close (h : LaidOut memory begin items) :
    beLoad memory (begin + items.bytes.length) = .ok fdtEnd :=
  h.holds.right.beLoad_eq (by decide)

theorem fdtNodeRoot_eq (h : LaidOut memory begin items) :
    fdtNodeRoot memory = .ok ⟨[], begin, some (begin + items.bytes.length + 8)⟩ := by
  rw [fdtNodeRoot, fdtTokBegin, h.offset, ok_bind, h.fdtTokEnd_eq]
  rfl

section

variable {σ : Type} {turns : ℕ} {body : ℕ → ℕ → ℤ × σ → Except Fault ((ℤ × σ) ⊕ (Iter × σ))}

/-- A loop over the whole block comes to the word behind it, unless it was stopped. -/
theorem fdtFor_eq (h : LaidOut memory begin items) (hturns : items.bytes.length / 4 + 3 ≤ turns)
    (hend : ∀ cur ctx, body cur fdtEnd ((0 : ℤ), ctx) = .ok (.inl (0, ctx))) {ctx : σ}
    {result : Iter × σ}
    (hrun : runToks body (items.toks begin) ((0 : ℤ), ctx) = .ok (outcome result)) :
    ∃ extra, fdtFor turns memory (some (begin + items.bytes.length + 8)) body
        (fun s ↦ (.iterContinue, s.2)) begin ((0 : ℤ), ctx) =
      match result with
      | (.iterStop, ctx) => .ok (.iterStop, ctx)
      | (.iterContinue, ctx) =>
        fdtFor (extra + 2) memory (some (begin + items.bytes.length + 8)) body
          (fun s ↦ (.iterContinue, s.2)) (begin + items.bytes.length + 4) ((0 : ℤ), ctx) := by
  have hlength := items.length_toks begin
  obtain ⟨extra, rfl⟩ := Nat.exists_eq_add_of_le
    (show (items.toks begin).length + 3 ≤ turns by omega)
  have hinside : ∀ tok ∈ items.toks begin, tok.1 < begin + items.bytes.length + 8 := by
    intro tok htok
    have hin := items.toks_lt htok
    omega
  refine ⟨extra, ?_⟩
  rw [Nat.add_assoc]
  obtain ⟨iter, ctx'⟩ := result
  cases iter with
  | iterStop => exact fdtFor_returns h.inside.visits hinside hrun _
  | iterContinue =>
    rw [fdtFor_visits h.inside.visits hinside hrun, fdtFor, Nat.add_comm 3 extra,
      loop_turn (fdtTurn_goes (by omega) h.close (hend _ ctx')
        (fdtTokNext_plain h.close (by decide) (by decide)))]
    rfl

/-- A word that means nothing to a loop is passed. -/
theorem fdtFor_behind (extra : ℕ) {word stop : ℕ} (hword : beLoad memory stop = .ok word)
    (hnode : word ≠ fdtBeginNode) (hprop : word ≠ fdtProp) {ctx : σ} {depth : ℤ}
    (hbody : body stop word ((0 : ℤ), ctx) = .ok (.inl (depth, ctx))) :
    fdtFor (extra + 2) memory (some (stop + 4)) body (fun s ↦ (.iterContinue, s.2)) stop
      ((0 : ℤ), ctx) = .ok (.iterContinue, ctx) := by
  rw [fdtFor, loop_turn (fdtTurn_goes (by omega) hword hbody
      (fdtTokNext_plain hword hnode hprop)),
    loop_leave (fdtTurn_leave (by simp))]

end

/-- With a word behind it that begins neither a node nor a property, the block is enumerated as it
is. -/
theorem enumerates (h : LaidOut memory begin items) {turns : ℕ}
    (hturns : items.bytes.length / 4 + 3 ≤ turns) {word : ℕ}
    (hword : beLoad memory (begin + items.bytes.length + 4) = .ok word)
    (hnode : word ≠ fdtBeginNode) (hprop : word ≠ fdtProp) :
    EnumeratesAt turns memory ⟨[], begin, some (begin + items.bytes.length + 8)⟩ items := by
  refine ⟨h.inside, fun σ fn ctx ↦ ?_, fun σ fn ctx ↦ ?_⟩
  · have hrun := runToks_childs fn h.inside (show items.bytes.length / 4 + 2 ≤ turns by omega) ctx
    obtain ⟨extra, hfor⟩ := h.fdtFor_eq hturns (fun _ _ ↦ rfl) hrun
    refine hfor.trans ?_
    cases hiter : iterEach fn (items.nodes begin) ctx with
    | mk iter ctx' =>
      cases iter with
      | iterStop => rfl
      | iterContinue =>
        exact fdtFor_behind extra hword hnode hprop (if_neg fun hfirst ↦ hnode hfirst.1)
  · obtain ⟨extra, hfor⟩ := h.fdtFor_eq hturns (fun _ _ ↦ rfl) (runToks_props fn h.inside ctx)
    refine hfor.trans ?_
    cases hiter : iterEach fn (items.slices begin) ctx with
    | mk iter ctx' =>
      cases iter with
      | iterStop => rfl
      | iterContinue =>
        exact fdtFor_behind extra hword hnode hprop (if_neg fun hfirst ↦ hprop hfirst.1)

end LaidOut

/-- A callback that counts. -/
def count {α : Type} (_ : α) (calls : ℕ) : Iter × ℕ := (.iterContinue, calls + 1)

theorem iterEach_count {α : Type} (items : List α) (calls : ℕ) :
    iterEach count items calls = (.iterContinue, calls + items.length) := by
  induction items generalizing calls with
  | nil => rfl
  | cons item rest ih =>
    rw [iterEach, count]
    show iterEach count rest (calls + 1) = _
    rw [ih, List.length_cons]
    congr 1
    omega

theorem fdtTokNext_ge {memory : List UInt8} {cur next : ℕ} (h : fdtTokNext memory cur = .ok next) :
    cur + 4 ≤ next := by
  obtain ⟨curType, _, h⟩ := bind_eq_ok.1 h
  split at h
  · obtain ⟨len, _, h⟩ := bind_eq_ok.1 h
    cases h
    omega
  split at h
  · obtain ⟨len, _, h⟩ := bind_eq_ok.1 h
    cases h
    omega
  · cases h
    omega

/-- A body that counts the word behind a block is called once more. -/
theorem fdtFor_counts {memory : List UInt8}
    {body : ℕ → ℕ → ℤ × ℕ → Except Fault ((ℤ × ℕ) ⊕ (Iter × ℕ))} {extra stop calls : ℕ}
    {result : Iter × ℕ}
    (hbody : ∀ word, beLoad memory stop = .ok word → ∀ next,
      body stop word ((0 : ℤ), calls) = .ok next → ∃ depth, next = .inl (depth, calls + 1))
    (h : fdtFor (extra + 2) memory (some (stop + 4)) body (fun s ↦ (.iterContinue, s.2)) stop
      ((0 : ℤ), calls) = .ok result) : result = (.iterContinue, calls + 1) := by
  rw [fdtFor, loop] at h
  obtain ⟨turn, hturn, h⟩ := bind_eq_ok.1 h
  rw [fdtTurn, if_pos ⟨stop + 4, rfl, by omega⟩] at hturn
  obtain ⟨word, hword, hturn⟩ := bind_eq_ok.1 hturn
  obtain ⟨next, hnext, hturn⟩ := bind_eq_ok.1 hturn
  obtain ⟨depth, rfl⟩ := hbody word hword next hnext
  obtain ⟨behind, hbehind, hturn⟩ := bind_eq_ok.1 hturn
  cases hturn
  have hge := fdtTokNext_ge hbehind
  have hleave : ¬ ∃ last ∈ some (stop + 4), behind < last := by
    simp only [Option.mem_def, Option.some.injEq, exists_eq_left']
    omega
  have hloop : loop (fdtTurn memory (some (stop + 4)) body fun s ↦ (.iterContinue, s.2)) .depth
      (extra + 1) (behind, (depth, calls + 1)) = .ok result := h
  rw [loop_leave (fdtTurn_leave hleave)] at hloop
  exact (Except.ok.inj hloop).symm

theorem childsBody_counts {turns : ℕ} {memory : List UInt8} {cur calls : ℕ}
    {next : (ℤ × ℕ) ⊕ (Iter × ℕ)}
    (h : fdtNodeChildsBody turns memory count cur fdtBeginNode ((0 : ℤ), calls) = .ok next) :
    ∃ depth, next = .inl (depth, calls + 1) := by
  rw [fdtNodeChildsBody, if_pos ⟨rfl, rfl⟩] at h
  obtain ⟨node, _, h⟩ := bind_eq_ok.1 h
  cases h
  exact ⟨_, rfl⟩

theorem propsBody_counts {memory : List UInt8} {cur calls : ℕ} {next : (ℤ × ℕ) ⊕ (Iter × ℕ)}
    (h : fdtNodePropsBody memory count cur fdtProp ((0 : ℤ), calls) = .ok next) :
    ∃ depth, next = .inl (depth, calls + 1) := by
  rw [fdtNodePropsBody, if_pos ⟨rfl, rfl⟩] at h
  obtain ⟨prop, _, h⟩ := bind_eq_ok.1 h
  cases h
  exact ⟨_, rfl⟩

/-- The word behind the block can be read, and begins neither a node nor a property. -/
def HarmlessAt (memory : List UInt8) (addr : ℕ) : Prop :=
  ∃ word, beLoad memory addr = .ok word ∧ word ≠ fdtBeginNode ∧ word ≠ fdtProp

/-- A block that is enumerated as it is has a harmless word behind it. -/
theorem LaidOut.harmless {memory : List UInt8} {begin : ℕ} {items : DtItems}
    (h : LaidOut memory begin items) {turns : ℕ} (hturns : items.bytes.length / 4 + 3 ≤ turns)
    (henum : Enumerates turns memory ⟨[], begin, some (begin + items.bytes.length + 8)⟩ items) :
    HarmlessAt memory (begin + items.bytes.length + 4) := by
  obtain ⟨nodes, props, hnodes, hprops, hchilds, hslices⟩ := henum
  have hrunChilds := runToks_childs count h.inside
    (show items.bytes.length / 4 + 2 ≤ turns by omega) 0
  rw [iterEach_count] at hrunChilds
  obtain ⟨extra, hforChilds⟩ := h.fdtFor_eq hturns (fun _ _ ↦ rfl) hrunChilds
  have hcountChilds := hforChilds.symm.trans (hchilds ℕ count 0)
  rw [iterEach_count] at hcountChilds
  dsimp only at hcountChilds
  have hrunProps := runToks_props count h.inside 0
  rw [iterEach_count] at hrunProps
  obtain ⟨extra', hforProps⟩ := h.fdtFor_eq hturns (fun _ _ ↦ rfl) hrunProps
  have hcountProps := hforProps.symm.trans (hslices ℕ count 0)
  rw [iterEach_count] at hcountProps
  have hnodesLength : nodes.length = (items.nodes begin).length := by
    rw [← List.length_map (·.name), hnodes, ← items.nodes_name begin, List.length_map]
  have hpropsLength : props.length = (items.slices begin).length := by
    rw [hprops.length_eq, h.inside.slices_match.length_eq]
  cases hload : beLoad memory (begin + items.bytes.length + 4) with
  | error fault =>
    rw [fdtFor, loop_stop (fdtTurn_error (by omega) hload)] at hcountChilds
    cases hcountChilds
  | ok word =>
    refine ⟨word, hload, fun hnode ↦ ?_, fun hprop ↦ ?_⟩
    · have hmore := fdtFor_counts (fun word' hword next hnext ↦ by
        rw [hload] at hword
        cases hword
        rw [hnode] at hnext
        exact childsBody_counts hnext) hcountChilds
      have hcalls := congrArg Prod.snd hmore
      dsimp only at hcalls
      omega
    · have hmore := fdtFor_counts (fun word' hword next hnext ↦ by
        rw [hload] at hword
        cases hword
        rw [hprop] at hnext
        exact propsBody_counts hnext) hcountProps
      have hcalls := congrArg Prod.snd hmore
      dsimp only at hcalls
      omega

/-- A callback that stops at the thing with the given number and keeps it. -/
def nth {α : Type} (k : ℕ) (item : α) : ℕ × Option α → Iter × (ℕ × Option α)
  | (i, _) => if i = k then (.iterStop, (i, some item)) else (.iterContinue, (i + 1, none))

/-- A node that the root, or a node that was handed out before, hands out, with the numbers of the
children on the way. -/
inductive HandedOut (turns : ℕ) (memory : List UInt8) : List ℕ → FdtNode → Prop where
  | root {node : FdtNode} (root : fdtNodeRoot memory = .ok node) : HandedOut turns memory [] node
  | child {path : List ℕ} {node child : FdtNode} {k : ℕ} (parent : HandedOut turns memory path node)
      (found : fdtNodeChilds turns memory node (nth k) (0, none) =
        .ok (.iterStop, (k, some child))) :
      HandedOut turns memory (path ++ [k]) child

theorem iterEach_nth {α : Type} {k i : ℕ} {items : List α} {item : α} {old : Option α}
    (hi : i ≤ k) (h : iterEach (nth k) items (i, old) = (.iterStop, (k, some item))) :
    items[k - i]? = some item := by
  induction items generalizing i old with
  | nil => cases h
  | cons first rest ih =>
    rw [iterEach, nth] at h
    by_cases heq : i = k
    · rw [if_pos heq] at h
      cases h
      rw [heq, Nat.sub_self]
      rfl
    · rw [if_neg heq] at h
      have hnext := ih (show i + 1 ≤ k by omega) h
      rw [show k - i = k - (i + 1) + 1 by omega, List.getElem?_cons_succ]
      exact hnext

theorem DtItems.descend_append {items sub child : DtItems} {path : List ℕ} {k : ℕ}
    {name : List UInt8} (hpath : items.descend path = some sub)
    (hchild : sub.childs[k]? = some (name, child)) :
    items.descend (path ++ [k]) = some child := by
  induction path generalizing items with
  | nil =>
    cases hpath
    rw [List.nil_append, DtItems.descend, hchild]
    rfl
  | cons first rest ih =>
    rw [DtItems.descend] at hpath
    obtain ⟨next, hnext, hrest⟩ := Option.bind_eq_some_iff.1 hpath
    rw [List.cons_append, DtItems.descend, hnext]
    exact ih hrest

/-- A node that was handed out is the root or a node of the tree. -/
theorem LaidOut.handedOut {memory : List UInt8} {begin : ℕ} {items : DtItems}
    (h : LaidOut memory begin items) {turns : ℕ} (hturns : items.bytes.length / 4 + 3 ≤ turns)
    (hharmless : HarmlessAt memory (begin + items.bytes.length + 4)) {path : List ℕ}
    {node : FdtNode} (hnode : HandedOut turns memory path node) :
    ∃ sub, items.descend path = some sub ∧ EnumeratesAt turns memory node sub ∧
      sub.bytes.length ≤ items.bytes.length := by
  induction hnode with
  | root root =>
    obtain ⟨word, hword, hnode, hprop⟩ := hharmless
    cases h.fdtNodeRoot_eq.symm.trans root
    exact ⟨items, rfl, h.enumerates hturns hword hnode hprop, le_refl _⟩
  | @child path node child k _ found ih =>
    obtain ⟨sub, hsub, henum, hle⟩ := ih
    rw [henum.childs] at found
    have hchild := iterEach_nth (Nat.zero_le k) (Except.ok.inj found)
    rw [Nat.sub_zero] at hchild
    obtain ⟨inner, hinner, hclosed, hinnerLe⟩ := henum.inside.nodes_closed hchild
    refine ⟨inner, DtItems.descend_append hsub hinner, hclosed.enumerates (by omega), by omega⟩

section

variable {σ ρ : Type} {memory : List UInt8}

theorem beLoad_ne_depth (memory : List UInt8) (addr : ℕ) : beLoad memory addr ≠ .error .depth := by
  unfold beLoad
  split <;> exact nofun

theorem cstrLen_ne_depth (memory : List UInt8) (addr : ℕ) :
    cstrLen memory addr ≠ .error .depth := by
  unfold cstrLen
  split <;> exact nofun

theorem bind_ne_depth {α β : Type} {first : Except Fault α} {next : α → Except Fault β}
    (hfirst : first ≠ .error .depth)
    (hnext : ∀ value, first = .ok value → next value ≠ .error .depth) :
    first >>= next ≠ .error .depth := by
  cases first with
  | error fault => exact fun h ↦ hfirst (congrArg Except.error (Except.error.inj h))
  | ok value => exact hnext value rfl

theorem fdtTokNext_ne_depth (memory : List UInt8) (tok : ℕ) :
    fdtTokNext memory tok ≠ .error .depth := by
  refine bind_ne_depth (beLoad_ne_depth _ _) fun curType _ ↦ ?_
  split
  · exact bind_ne_depth (cstrLen_ne_depth _ _) fun len _ ↦ nofun
  split
  · exact bind_ne_depth (beLoad_ne_depth _ _) fun len _ ↦ nofun
  · exact nofun

/-- Every turn of a loop goes on by a token at least, so that it ends when its body does. -/
theorem fdtFor_ne_depth {body : ℕ → ℕ → σ → Except Fault (σ ⊕ ρ)} {done : σ → ρ} {low : ℕ}
    (hbody : ∀ cur curType s, low ≤ cur → body cur curType s ≠ .error .depth) {last : Option ℕ}
    {turns cur : ℕ} (hcur : low ≤ cur) (hturns : ∀ stop ∈ last, stop ≤ cur + 4 * turns) (s : σ) :
    fdtFor (turns + 1) memory last body done cur s ≠ .error .depth := by
  induction turns generalizing cur s with
  | zero =>
    have hleave : ¬ ∃ stop ∈ last, cur < stop := by
      rintro ⟨stop, hstop, hlt⟩
      have hle := hturns stop hstop
      omega
    rw [fdtFor, loop_leave (fdtTurn_leave hleave)]
    exact nofun
  | succ turns ih =>
    by_cases hin : ∃ stop ∈ last, cur < stop
    · rw [fdtFor, loop, fdtTurn, if_pos hin]
      refine bind_ne_depth (bind_ne_depth (beLoad_ne_depth _ _) fun curType _ ↦ ?_) ?_
      · refine bind_ne_depth (hbody cur curType s hcur) fun next _ ↦ ?_
        cases next with
        | inl t => exact bind_ne_depth (fdtTokNext_ne_depth _ _) fun next _ ↦ nofun
        | inr result => exact nofun
      · intro turn hturn
        obtain ⟨curType, _, hturn⟩ := bind_eq_ok.1 hturn
        obtain ⟨outcome, _, hturn⟩ := bind_eq_ok.1 hturn
        cases outcome with
        | inr result =>
          cases hturn
          exact nofun
        | inl t =>
          obtain ⟨next, hnext, hturn⟩ := bind_eq_ok.1 hturn
          cases hturn
          have hge := fdtTokNext_ge hnext
          refine ih (by omega) (fun stop hstop ↦ ?_) t
          have hle := hturns stop hstop
          omega
    · rw [fdtFor, loop_leave (fdtTurn_leave hin)]
      exact nofun

end

/-- A node between the beginning of the block and the end of the tokens. -/
structure Bounded (low high : ℕ) (node : FdtNode) : Prop where
  begins : low ≤ node.begin
  ends : ∀ stop ∈ node.last, stop ≤ high

theorem fdtNodeEnd_le {turns : ℕ} {memory : List UInt8} {rawNode high stop : ℕ}
    (hhigh : fdtTokEnd memory = .ok high) (h : fdtNodeEnd turns memory rawNode = .ok (some stop)) :
    stop ≤ high := by
  rw [fdtNodeEnd] at h
  obtain ⟨cur, _, h⟩ := bind_eq_ok.1 h
  rw [hhigh, ok_bind] at h
  obtain ⟨⟨at', depth⟩, _, hturn⟩ := loop_ok h
  rw [fdtTurn] at hturn
  split at hturn
  next hin =>
    obtain ⟨stop', hstop', hlt⟩ := hin
    cases hstop'
    obtain ⟨curType, _, hturn⟩ := bind_eq_ok.1 hturn
    unfold fdtNodeEndBody at hturn
    split at hturn
    · cases hturn
      exact hlt.le
    · obtain ⟨next, hnext, hturn⟩ := bind_eq_ok.1 hturn
      cases hnext
      obtain ⟨behind, _, hturn⟩ := bind_eq_ok.1 hturn
      cases hturn
  next => cases hturn

theorem fdtTok2Node_bounded {turns : ℕ} {memory : List UInt8} {low high cur : ℕ} {node : FdtNode}
    (hlow : low ≤ cur) (hhigh : fdtTokEnd memory = .ok high)
    (h : fdtTok2Node turns memory cur = .ok node) : Bounded low high node := by
  obtain ⟨begin, hbegin, h⟩ := bind_eq_ok.1 h
  obtain ⟨last, hlast, h⟩ := bind_eq_ok.1 h
  obtain ⟨name, _, h⟩ := bind_eq_ok.1 h
  cases h
  have hge := fdtTokNext_ge hbegin
  refine ⟨show low ≤ begin by omega, fun stop hstop ↦ ?_⟩
  cases hstop
  exact fdtNodeEnd_le hhigh hlast

/-- A node that `fdt_node_childs` hands out comes from one of the tokens. -/
theorem fdtNodeChilds_found {turns : ℕ} {memory : List UInt8} {node child : FdtNode} {k : ℕ}
    (h : fdtNodeChilds turns memory node (nth k) (0, none) = .ok (.iterStop, (k, some child))) :
    ∃ cur, node.begin ≤ cur ∧ fdtTok2Node turns memory cur = .ok child := by
  obtain ⟨⟨cur, depth, ctx⟩, hreached, hturn⟩ := loop_ok h
  have hcur : node.begin ≤ cur := by
    refine hreached.invariant (fun s ↦ node.begin ≤ s.1) (fun s t hs hturn ↦ ?_) (le_refl _)
    obtain ⟨at', state⟩ := s
    rw [fdtTurn] at hturn
    split at hturn
    · obtain ⟨curType, _, hturn⟩ := bind_eq_ok.1 hturn
      obtain ⟨next, _, hturn⟩ := bind_eq_ok.1 hturn
      cases next with
      | inr result => cases hturn
      | inl next =>
        obtain ⟨behind, hbehind, hturn⟩ := bind_eq_ok.1 hturn
        cases hturn
        have hge := fdtTokNext_ge hbehind
        exact le_trans hs (by omega)
    · cases hturn
  refine ⟨cur, hcur, ?_⟩
  rw [fdtTurn] at hturn
  split at hturn
  · obtain ⟨curType, _, hturn⟩ := bind_eq_ok.1 hturn
    obtain ⟨next, hnext, hturn⟩ := bind_eq_ok.1 hturn
    cases next with
    | inl next =>
      obtain ⟨behind, _, hturn⟩ := bind_eq_ok.1 hturn
      cases hturn
    | inr result =>
      cases hturn
      rw [fdtNodeChildsBody] at hnext
      split at hnext
      · obtain ⟨found, hfound, hnext⟩ := bind_eq_ok.1 hnext
        obtain ⟨i, old⟩ := ctx
        rw [nth] at hnext
        by_cases hi : i = k
        · rw [if_pos hi] at hnext
          cases hnext
          exact hfound
        · rw [if_neg hi] at hnext
          cases hnext
      · cases hnext
  · cases hturn

section

variable {memory : List UInt8} {low size turns : ℕ}

theorem fdtTokEnd_of (hlow : beLoad memory 8 = .ok low) (hsize : beLoad memory 36 = .ok size) :
    fdtTokEnd memory = .ok (low + (size / 4 + 1) * 4) := by
  rw [fdtTokEnd, fdtTokBegin, hlow, ok_bind, hsize]
  rfl

theorem fdtTok2Node_ne_depth (hlow : beLoad memory 8 = .ok low)
    (hsize : beLoad memory 36 = .ok size)
    (hturns : size / 4 + 2 ≤ turns) {cur : ℕ} (hcur : low ≤ cur) :
    fdtTok2Node turns memory cur ≠ .error .depth := by
  obtain ⟨turns, rfl⟩ := Nat.exists_eq_add_of_le' (show 1 ≤ turns by omega)
  refine bind_ne_depth (fdtTokNext_ne_depth _ _) fun begin _ ↦
    bind_ne_depth (bind_ne_depth (fdtTokNext_ne_depth _ _) fun start hstart ↦ ?_) fun last _ ↦
      bind_ne_depth (bind_ne_depth (cstrLen_ne_depth _ _) fun len _ ↦ nofun) fun name _ ↦ nofun
  have hge := fdtTokNext_ge hstart
  rw [fdtTokEnd_of hlow hsize, ok_bind]
  refine fdtFor_ne_depth (fun cur curType depth (_ : low ≤ cur) ↦ ?_) (by omega) ?_ 0
  · unfold fdtNodeEndBody
    split <;> exact nofun
  · intro stop hstop
    cases hstop
    omega

theorem HandedOut.bounded (hlow : beLoad memory 8 = .ok low) (hsize : beLoad memory 36 = .ok size)
    {path : List ℕ} {node : FdtNode} (h : HandedOut turns memory path node) :
    Bounded low (low + (size / 4 + 1) * 4) node := by
  induction h with
  | root root =>
    rw [fdtNodeRoot, fdtTokBegin, hlow, ok_bind, fdtTokEnd_of hlow hsize] at root
    cases root
    refine ⟨le_refl _, fun stop hstop ↦ ?_⟩
    cases hstop
    exact le_refl _
  | child _ found ih =>
    obtain ⟨cur, hcur, hchild⟩ := fdtNodeChilds_found found
    exact fdtTok2Node_bounded (le_trans ih.begins hcur) (fdtTokEnd_of hlow hsize) hchild

/-- Neither loop needs more turns than the block has words, and two. -/
theorem HandedOut.terminates (hsize : beLoad memory 36 = .ok size) (hturns : size / 4 + 2 ≤ turns)
    {path : List ℕ} {node : FdtNode} (h : HandedOut turns memory path node) {σ : Type} (ctx : σ) :
    (∀ fn, fdtNodeChilds turns memory node fn ctx ≠ .error .depth) ∧
      ∀ fn, fdtNodeProps turns memory node fn ctx ≠ .error .depth := by
  obtain ⟨low, hlow⟩ : ∃ low, beLoad memory 8 = .ok low := by
    induction h with
    | root root =>
      obtain ⟨low, hlow, _⟩ := bind_eq_ok.1 root
      exact ⟨low, hlow⟩
    | child _ _ ih => exact ih
  have hbounded := h.bounded hlow hsize
  obtain ⟨turns, rfl⟩ := Nat.exists_eq_add_of_le' (show 1 ≤ turns by omega)
  have hstop : ∀ stop ∈ node.last, stop ≤ node.begin + 4 * turns := by
    intro stop hstop
    have hle := hbounded.ends stop hstop
    have hge := hbounded.begins
    omega
  refine ⟨fun fn ↦ fdtFor_ne_depth ?_ hbounded.begins hstop _,
    fun fn ↦ fdtFor_ne_depth ?_ hbounded.begins hstop _⟩
  · rintro cur curType ⟨depth, ctx⟩ hcur
    rw [fdtNodeChildsBody]
    split
    · refine bind_ne_depth (fdtTok2Node_ne_depth hlow hsize hturns hcur) fun found _ ↦ ?_
      split <;> exact nofun
    · exact nofun
  · rintro cur curType ⟨depth, ctx⟩ _
    rw [fdtNodePropsBody]
    split
    · refine bind_ne_depth (bind_ne_depth (beLoad_ne_depth _ _) fun strings _ ↦
        bind_ne_depth (beLoad_ne_depth _ _) fun nameOffset _ ↦ bind_ne_depth
          (bind_ne_depth (cstrLen_ne_depth _ _) fun len _ ↦ nofun) fun name _ ↦
            bind_ne_depth (beLoad_ne_depth _ _) fun len _ ↦ nofun) fun found _ ↦ ?_
      split <;> exact nofun
    · exact nofun

end

/-- The loops end on every block, and on a laid out tree they enumerate every node that is handed
out as it is exactly when the word behind the block begins neither a node nor a property. -/
theorem fdtNode_enumerates_iff (memory : List UInt8) (size turns : ℕ)
    (hsize : beLoad memory 36 = .ok size) (hturns : size / 4 + 2 ≤ turns) :
    (∀ path node, HandedOut turns memory path node → ∀ (σ : Type) (ctx : σ),
      (∀ fn, fdtNodeChilds turns memory node fn ctx ≠ .error .depth) ∧
        ∀ fn, fdtNodeProps turns memory node fn ctx ≠ .error .depth) ∧
    ∀ begin items, LaidOut memory begin items →
      ((∀ path node, HandedOut turns memory path node →
        ∃ sub, items.descend path = some sub ∧ Enumerates turns memory node sub) ↔
        HarmlessAt memory (begin + items.bytes.length + 4)) := by
  refine ⟨fun path node h σ ctx ↦ h.terminates hsize hturns ctx, fun begin items h ↦ ?_⟩
  have hlength : size = items.bytes.length + 4 := Except.ok.inj (hsize.symm.trans h.size)
  have hturns' : items.bytes.length / 4 + 3 ≤ turns := by omega
  constructor
  · intro hall
    obtain ⟨sub, hsub, henum⟩ := hall [] _ (.root h.fdtNodeRoot_eq)
    cases hsub
    exact h.harmless hturns' henum
  · intro hharmless path node hnode
    obtain ⟨sub, hsub, henum, _⟩ := h.handedOut hturns' hharmless hnode
    exact ⟨sub, hsub, henum.enumerates⟩

/-- A header with the structure block and the strings block behind it. -/
def blobOf (block strings : List UInt8) : List UInt8 :=
  [0xd00dfeed, 40 + block.length + strings.length, 40, 40 + block.length, 40, 17, 16, 0,
    strings.length, block.length].flatMap (beBytes 4) ++ (block ++ strings)

/-- A root with the property `a` of two bytes and the child `c`. -/
def smallTree : DtItems :=
  .node [] [0, 0, 0] (.prop ⟨[97], 0, [1, 2], [0, 0]⟩ (.nop (.node [99] [0, 0] .nil .nil))) .nil

def smallBlob : List UInt8 := blobOf (smallTree.bytes ++ beBytes 4 fdtEnd) [97, 0, 0, 0]

theorem smallBlob_laidOut : LaidOut smallBlob 40 smallTree where
  offset := by rfl
  size := by rfl
  holds := ⟨[97, 0, 0, 0], by rfl⟩
  wellFormed := by
    refine ⟨88, by rfl, ⟨by decide, by decide⟩, ⟨⟨by decide, ?_, by decide, by decide⟩, ?_⟩,
      trivial⟩
    · exact ⟨[0, 0], by rfl⟩
    · exact ⟨⟨by decide, by decide⟩, trivial, trivial⟩

theorem fdtNode_enumerates_iff_small :
    LaidOut smallBlob 40 smallTree ∧ ∀ path node, HandedOut 20 smallBlob path node →
      ∃ sub, smallTree.descend path = some sub ∧ Enumerates 20 smallBlob node sub := by
  have hiff := (fdtNode_enumerates_iff smallBlob 48 20 (by rfl) (by decide)).2 40
    smallTree smallBlob_laidOut
  exact ⟨smallBlob_laidOut, hiff.2 ⟨0x61000000, by rfl, by decide, by decide⟩⟩

/-- An empty root in front of a strings block that starts with three empty names. -/
def shiftedBlob : List UInt8 :=
  blobOf ((DtItems.node [] [0, 0, 0] .nil .nil).bytes ++ beBytes 4 fdtEnd) [0, 0, 0, 1, 0]

/-- The first word of the strings block is taken for a second root. -/
theorem fdtNode_enumerates_behind :
    ¬ ∀ (memory : List UInt8) (size turns : ℕ), beLoad memory 36 = .ok size →
      size / 4 + 2 ≤ turns → ∀ begin items, LaidOut memory begin items →
        ∀ path node, HandedOut turns memory path node →
          ∃ sub, items.descend path = some sub ∧ Enumerates turns memory node sub := by
  intro hall
  have hlaid : LaidOut shiftedBlob 40 (.node [] [0, 0, 0] .nil .nil) :=
    ⟨by rfl, by rfl, ⟨[0, 0, 0, 1, 0], by rfl⟩,
      56, by rfl, ⟨by decide, by decide⟩, trivial, trivial⟩
  obtain ⟨sub, hsub, henum⟩ := hall shiftedBlob 16 6 (by rfl) (by decide) 40 _ hlaid []
    _ (.root hlaid.fdtNodeRoot_eq)
  cases hsub
  obtain ⟨word, hword, hnode, _⟩ := hlaid.harmless (by rfl) henum
  have hone : beLoad shiftedBlob 56 = .ok fdtBeginNode := by rfl
  have hsame : beLoad shiftedBlob 56 = .ok word := hword
  rw [hone] at hsame
  exact hnode (Except.ok.inj hsame).symm

end Brutal.Hw
