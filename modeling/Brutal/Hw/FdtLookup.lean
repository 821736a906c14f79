import Brutal.Hw.FdtSearch
import Brutal.Text.Search

/-!
# Looking up a node of a device tree

`fdt_lookup_node` of `libs/hw/fdt/fdt.c`.  The path that is left to go is kept in a context that the
callbacks of all levels share.  A node that matches the next part of the path shortens it for good,
also for the siblings that come after the node.
-/

namespace Brutal.Hw

open Base Lib Text

/-- `Str`: a length, and the bytes from the pointer on. -/
structure Str where
  len : ℕ
  buf : List UInt8

/-- All of the bytes. -/
def strOf (bytes : List UInt8) : Str := ⟨bytes.length, bytes⟩

/-- `str_sub`, whose length becomes a `size_t`. -/
def strSub (str : Str) (start stop : ℤ) : Str :=
  ⟨((stop - start) % 2 ^ 64).toNat, str.buf.drop start.toNat⟩

/-- `str_eq` -/
def strEq (lhs rhs : Str) : Except Fault Bool :=
  if lhs.len ≠ rhs.len then .ok false
  else if (lhs.buf.take lhs.len).zip (rhs.buf.take rhs.len) |>.any fun (l, r) ↦ l ≠ r then .ok false
  else if lhs.len ≤ lhs.buf.length ∧ rhs.len ≤ rhs.buf.length then .ok true
  else .error .outOfBounds

/-- `str_first_chr` -/
def strFirstChr (str : Str) (chr : UInt8) : Except Fault ℤ :=
  match (str.buf.take str.len).findIdx? (· = chr) with
  | some i => .ok (sizeToInt i)
  | none => if str.len ≤ str.buf.length then .ok (-1) else .error .outOfBounds

/-- `str_last_chr` -/
def strLastChr (str : Str) (chr : UInt8) : Except Fault ℤ :=
  if str.len ≤ str.buf.length then
    .ok ((List.range str.len).foldl
      (fun result i ↦ if str.buf[i]? = some chr then sizeToInt i else result) (-1))
  else .error .outOfBounds

/-- `node_name_eq` -/
def nodeNameEq (searched nodeName : Str) : Except Fault Bool := do
  let last ← strLastChr searched 64
  if sizeToInt searched.len - 1 < -2 ^ 31 then .error .overflow
  else if last = sizeToInt searched.len - 1 ∧ searched.len ≠ 0 then do
    let nodeNameEnd ← strFirstChr nodeName 64
    let compared := strSub nodeName 0 nodeNameEnd
    strEq (strSub searched 0 (searched.len - 1)) compared
  else strEq searched nodeName

/-- `FdtNodeLookupCtx`; a node that is all zero is `none`. -/
structure FdtNodeLookupCtx where
  name : Str
  res : Option FdtNode

section

variable {σ : Type}

/-- A callback whose fault ends the walk. -/
def faulting (fn : FdtNode → σ → Except Fault (Iter × σ)) (node : FdtNode) :
    Except Fault σ → Iter × Except Fault σ
  | .ok ctx =>
    match fn node ctx with
    | .ok (iter, ctx) => (iter, .ok ctx)
    | .error fault => (.iterStop, .error fault)
  | .error fault => (.iterStop, .error fault)

/-- `fdt_node_childs` with such a callback. -/
def fdtNodeChildsWith (turns : ℕ) (memory : List UInt8) (node : FdtNode)
    (fn : FdtNode → σ → Except Fault (Iter × σ)) (ctx : σ) : Except Fault (Iter × σ) := do
  let (iter, ctx) ← fdtNodeChilds turns memory node (faulting fn) (.ok ctx)
  let ctx ← ctx
  return (iter, ctx)

end

/-- `fdt_lookup_node_iter`, nested no deeper than the given depth. -/
def fdtLookupNodeIter (turns : ℕ) (memory : List UInt8) :
    ℕ → FdtNode → FdtNodeLookupCtx → Except Fault (Iter × FdtNodeLookupCtx)
  | 0, _, _ => .error .depth
  | depth + 1, node, ctx => do
    let found ← strFirstChr ctx.name 47
    let partEnd := if found < 0 then sizeToInt ctx.name.len else found
    let nodeName := strSub ctx.name 0 partEnd
    let same ← nodeNameEq nodeName (strOf node.name)
    if same then
      if partEnd = sizeToInt ctx.name.len then
        return (.iterStop, { ctx with res := some node })
      else do
        let ctx := { ctx with name := strSub ctx.name (partEnd + 1) (sizeToInt ctx.name.len) }
        let (iter, ctx) ← fdtNodeChildsWith turns memory node
          (fdtLookupNodeIter turns memory depth) ctx
        if iter = .iterStop then return (.iterStop, ctx) else return (.iterContinue, ctx)
    else return (.iterContinue, ctx)

/-- `fdt_lookup_node`.  Every level of the recursion takes a separator off the path. -/
def fdtLookupNode (turns : ℕ) (memory : List UInt8) (path : List UInt8) :
    Except Fault (Option FdtNode) := do
  let node ← fdtNodeRoot memory
  let (_, ctx) ← fdtNodeChildsWith turns memory node
    (fdtLookupNodeIter turns memory (path.length + 1)) ⟨strOf path, none⟩
  return ctx.res

/-- The string has the bytes. -/
structure Reads (str : Str) (bytes : List UInt8) : Prop where
  len : str.len = bytes.length
  buf : bytes <+: str.buf

theorem reads_strOf (bytes : List UInt8) : Reads (strOf bytes) bytes := ⟨rfl, List.prefix_rfl⟩

section Strings

variable {str other : Str} {bytes bytes' : List UInt8} {chr : UInt8}

theorem Reads.take (h : Reads str bytes) : str.buf.take str.len = bytes := by
  rw [h.len]
  exact (List.prefix_iff_eq_take.mp h.buf).symm

theorem Reads.fits (h : Reads str bytes) : str.len ≤ str.buf.length := by
  rw [h.len]
  exact h.buf.length_le

/-- The first bytes of a string. -/
theorem Reads.strSub_take (h : Reads str bytes) {count : ℕ} (hcount : count ≤ bytes.length)
    (hsize : bytes.length < 2 ^ 64) : Reads (strSub str 0 count) (bytes.take count) := by
  constructor
  · rw [strSub, List.length_take]
    dsimp only
    omega
  · exact (List.take_prefix count bytes).trans h.buf

theorem any_zip_ne : ∀ {bytes bytes' : List UInt8}, bytes.length = bytes'.length →
    ((bytes.zip bytes').any fun (l, r) ↦ l ≠ r) = decide (bytes ≠ bytes')
  | [], [], _ => rfl
  | byte :: rest, byte' :: rest', h => by
    have hrest := any_zip_ne (Nat.succ.inj h)
    rw [List.zip_cons_cons, List.any_cons, hrest]
    by_cases hbyte : byte = byte'
    · simp [hbyte]
    · simp [hbyte]

theorem Reads.strEq_eq (h : Reads str bytes) (h' : Reads other bytes') :
    strEq str other = .ok (decide (bytes = bytes')) := by
  rw [strEq, h.take, h'.take]
  by_cases hlen : str.len = other.len
  · have hlength : bytes.length = bytes'.length := by rw [← h.len, ← h'.len, hlen]
    rw [if_neg (not_not.mpr hlen), any_zip_ne hlength]
    by_cases heq : bytes = bytes'
    · rw [if_neg (by simpa using heq), if_pos ⟨h.fits, h'.fits⟩, decide_eq_true heq]
    · rw [if_pos (by simpa using heq), decide_eq_false heq]
  · have hne : bytes ≠ bytes' := fun heq ↦ hlen (by rw [h.len, h'.len, heq])
    rw [if_pos hlen, decide_eq_false hne]

theorem Reads.strFirstChr_none (h : Reads str bytes) (hchr : chr ∉ bytes) :
    strFirstChr str chr = .ok (-1) := by
  have hnone : bytes.findIdx? (· = chr) = none := by
    rw [List.findIdx?_eq_none_iff]
    intro byte hbyte
    simpa using fun heq : byte = chr ↦ hchr (heq ▸ hbyte)
  rw [strFirstChr, h.take, hnone]
  exact if_pos h.fits

theorem Reads.strFirstChr_some {front tail : List UInt8} (h : Reads str (front ++ chr :: tail))
    (hchr : chr ∉ front) : strFirstChr str chr = .ok (sizeToInt front.length) := by
  rw [strFirstChr, h.take, findIdx?_first hchr]

/-- The last position of a byte among the first ones of a string. -/
def lastBelow (buf : List UInt8) (chr : UInt8) (len : ℕ) : ℤ :=
  (List.range len).foldl (fun result i ↦ if buf[i]? = some chr then sizeToInt i else result) (-1)

theorem lastBelow_succ (buf : List UInt8) (chr : UInt8) (len : ℕ) : lastBelow buf chr (len + 1) =
    if buf[len]? = some chr then sizeToInt len else lastBelow buf chr len := by
  rw [lastBelow, List.range_succ, List.foldl_append]
  rfl

theorem lastBelow_lt (buf : List UInt8) (chr : UInt8) {len : ℕ} (h : len < 2 ^ 31) :
    lastBelow buf chr len < len := by
  induction len with
  | zero =>
    show (-1 : ℤ) < 0
    decide
  | succ len ih =>
    have hlt := ih (by omega)
    rw [lastBelow_succ]
    split
    · rw [sizeToInt_of_lt (by omega)]
      omega
    · omega

/-- The test of `node_name_eq` for a part that ends in a byte. -/
theorem Reads.ends_iff (h : Reads str bytes) (hlen : bytes.length < 2 ^ 31) :
    lastBelow str.buf chr str.len = (bytes.length : ℤ) - 1 ∧ str.len ≠ 0 ↔
      bytes.getLast? = some chr := by
  rw [h.len, List.getLast?_eq_getElem?]
  cases hcount : bytes.length with
  | zero =>
    rw [List.length_eq_zero_iff.mp hcount]
    simp
  | succ count =>
    have hbyte : bytes[count]? = str.buf[count]? := by
      obtain ⟨tail, htail⟩ := h.buf
      rw [← htail, List.getElem?_append_left (by omega)]
    have hlt := lastBelow_lt str.buf chr (show count < 2 ^ 31 by omega)
    rw [lastBelow_succ, Nat.add_sub_cancel, hbyte]
    by_cases hchr : str.buf[count]? = some chr
    · rw [if_pos hchr, sizeToInt_of_lt (by omega)]
      simp [hchr]
    · rw [if_neg hchr]
      refine iff_of_false (fun hand ↦ ?_) hchr
      omega

/-- What is compared when the part does not end in `@`. -/
theorem nodeNameEq_whole {part : List UInt8} (h : Reads str part) (hpart : part.length < 2 ^ 31)
    (hlast : part.getLast? ≠ some 64) : nodeNameEq str other = strEq str other := by
  have hint : sizeToInt str.len = part.length := by rw [h.len, sizeToInt_of_lt hpart]
  have hrange : (List.range str.len).foldl (fun result i ↦
      if str.buf[i]? = some 64 then sizeToInt i else result) (-1) = lastBelow str.buf 64 str.len :=
    rfl
  rw [nodeNameEq, strLastChr, if_pos h.fits, ok_bind, hint, if_neg (by omega), hrange,
    if_congr (h.ends_iff hpart) rfl rfl, if_neg hlast]

/-- What is compared when it does. -/
theorem nodeNameEq_upTo {front : List UInt8} (h : Reads str (front ++ [64]))
    (hpart : (front ++ [64]).length < 2 ^ 31) : nodeNameEq str other =
      strFirstChr other 64 >>= fun stop ↦
        strEq (strSub str 0 ((str.len : ℤ) - 1)) (strSub other 0 stop) := by
  have hint : sizeToInt str.len = (front ++ [64]).length := by rw [h.len, sizeToInt_of_lt hpart]
  have hrange : (List.range str.len).foldl (fun result i ↦
      if str.buf[i]? = some 64 then sizeToInt i else result) (-1) = lastBelow str.buf 64 str.len :=
    rfl
  rw [nodeNameEq, strLastChr, if_pos h.fits, ok_bind, hint, if_neg (by omega), hrange,
    if_congr (h.ends_iff hpart) rfl rfl, if_pos List.getLast?_concat]

theorem Reads.dropLast {front : List UInt8} (h : Reads str (front ++ [64]))
    (hpart : (front ++ [64]).length < 2 ^ 31) :
    Reads (strSub str 0 ((str.len : ℤ) - 1)) front := by
  have htake := h.strSub_take (show front.length ≤ (front ++ [64]).length by simp) (by omega)
  rw [List.take_left] at htake
  rw [h.len, List.length_append, List.length_singleton]
  convert htake using 2
  omega

/-- The length up to a position that was converted to `int` is no short one unless the position
is. -/
theorem strSub_len_cases {front i : ℕ} (hfront : front < 2 ^ 31) (name : Str) :
    front ≠ (strSub name 0 (sizeToInt i)).len ∨ (strSub name 0 (sizeToInt i)).len ≤ i := by
  rw [strSub, sizeToInt]
  dsimp only
  omega

theorem exists_strEq (h : str.len ≤ str.buf.length)
    (h' : str.len = other.len → other.len ≤ other.buf.length) :
    ∃ same, strEq str other = .ok same := by
  rw [strEq]
  split
  next => exact ⟨_, rfl⟩
  next hlen =>
    split
    · exact ⟨_, rfl⟩
    · rw [if_pos ⟨h, h' (not_not.mp hlen)⟩]
      exact ⟨_, rfl⟩

/-- `node_name_eq` reads nothing outside of the strings. -/
theorem exists_nodeNameEq {part : List UInt8} (h : Reads str part) (hpart : part.length < 2 ^ 31)
    (name : List UInt8) : ∃ same, nodeNameEq str (strOf name) = .ok same := by
  by_cases hlast : part.getLast? = some 64
  · obtain ⟨front, rfl⟩ := List.getLast?_eq_some_iff.mp hlast
    have hfront := h.dropLast hpart
    rw [List.length_append, List.length_singleton] at hpart
    rw [nodeNameEq_upTo h (by rw [List.length_append, List.length_singleton]; exact hpart)]
    by_cases hat : 64 ∈ name
    · obtain ⟨start, tail, rfl, hstart⟩ := List.eq_append_cons_of_mem hat
      rw [(reads_strOf _).strFirstChr_some hstart, ok_bind]
      apply exists_strEq hfront.fits
      intro hlen
      rw [hfront.len] at hlen
      have hle := (strSub_len_cases (by omega) _).resolve_left (not_not.mpr hlen)
      refine hle.trans ?_
      show start.length ≤ (start ++ 64 :: tail).length
      rw [List.length_append]
      exact Nat.le_add_right _ _
    · rw [(reads_strOf name).strFirstChr_none hat, ok_bind]
      apply exists_strEq hfront.fits
      intro hlen
      rw [hfront.len, strSub] at hlen
      dsimp only at hlen
      omega
  · rw [nodeNameEq_whole h hpart hlast, h.strEq_eq (reads_strOf name)]
    exact ⟨_, rfl⟩

/-- `node_name_eq` decides whether the part matches, also for names that are too long for the
position in them to be an `int`. -/
theorem nodeNameEq_eq {part name : List UInt8} (h : Reads str part) (hpart : part.length < 2 ^ 31)
    (hname : name.length < 2 ^ 32) :
    nodeNameEq str (strOf name) = .ok (decide (PartMatches part name)) := by
  by_cases hlast : part.getLast? = some 64
  · obtain ⟨front, rfl⟩ := List.getLast?_eq_some_iff.mp hlast
    have hfront := h.dropLast hpart
    have hmatches : PartMatches (front ++ [64]) name ↔ front ++ [64] <+: name ∧ 64 ∉ front := by
      rw [PartMatches, if_pos hlast, List.dropLast_concat]
    rw [nodeNameEq_upTo h hpart]
    rw [List.length_append, List.length_singleton] at hpart
    by_cases hat : 64 ∈ name
    · obtain ⟨start, tail, rfl, hstart⟩ := List.eq_append_cons_of_mem hat
      have hiff : PartMatches (front ++ [64]) (start ++ 64 :: tail) ↔ front = start := by
        rw [hmatches]
        constructor
        · rintro ⟨⟨rest, hrest⟩, hat⟩
          rw [List.append_assoc, List.singleton_append] at hrest
          have hindex := @findIdx?_first _ rest _ hat
          rw [hrest, findIdx?_first hstart] at hindex
          exact (List.append_inj hrest (Option.some.inj hindex).symm).1
        · rintro rfl
          exact ⟨⟨tail, by rw [List.append_assoc, List.singleton_append]⟩, hstart⟩
      rw [List.length_append, List.length_cons] at hname
      rw [(reads_strOf _).strFirstChr_some hstart, ok_bind]
      by_cases hfit : start.length < 2 ^ 31
      · have hcompared := (reads_strOf (start ++ 64 :: tail)).strSub_take
          (show start.length ≤ _ by rw [List.length_append]; omega)
          (by rw [List.length_append, List.length_cons]; omega)
        rw [List.take_left] at hcompared
        rw [sizeToInt_of_lt hfit, hfront.strEq_eq hcompared]
        simp only [hiff]
      · have hne : front ≠ start := fun heq ↦ hfit (by rw [← heq]; omega)
        rw [strEq, if_pos, decide_eq_false (fun hmatch ↦ hne (hiff.mp hmatch))]
        rw [hfront.len, strSub, sizeToInt]
        dsimp only
        omega
    · have hnot : ¬ PartMatches (front ++ [64]) name := fun hmatch ↦
        hat ((hmatches.mp hmatch).1.subset (by simp))
      rw [(reads_strOf name).strFirstChr_none hat, ok_bind, strEq, if_pos, decide_eq_false hnot]
      rw [hfront.len, strSub]
      dsimp only
      omega
  · rw [nodeNameEq_whole h hpart hlast, h.strEq_eq (reads_strOf name)]
    simp only [PartMatches, if_neg hlast]

end Strings

section Callbacks

variable {σ : Type} {turns : ℕ} {memory : List UInt8} {fn : FdtNode → σ → Except Fault (Iter × σ)}

/-- What such a callback is handed, one after the other until it stops or faults. -/
def iterEachWith (fn : FdtNode → σ → Except Fault (Iter × σ)) :
    List FdtNode → σ → Except Fault (Iter × σ)
  | [], ctx => .ok (.iterContinue, ctx)
  | node :: rest, ctx => do
    match ← fn node ctx with
    | (.iterStop, ctx) => .ok (.iterStop, ctx)
    | (.iterContinue, ctx) => iterEachWith fn rest ctx

theorem iterEachWith_stop {node : FdtNode} {rest : List FdtNode} {ctx ctx' : σ}
    (h : fn node ctx = .ok (.iterStop, ctx')) :
    iterEachWith fn (node :: rest) ctx = .ok (.iterStop, ctx') := by
  rw [iterEachWith, h]
  rfl

theorem iterEachWith_continue {node : FdtNode} {rest : List FdtNode} {ctx ctx' : σ}
    (h : fn node ctx = .ok (.iterContinue, ctx')) :
    iterEachWith fn (node :: rest) ctx = iterEachWith fn rest ctx' := by
  rw [iterEachWith, h]
  rfl

theorem iterEach_faulting (nodes : List FdtNode) (ctx : σ) :
    iterEach (faulting fn) nodes (.ok ctx) =
      match iterEachWith fn nodes ctx with
      | .ok (iter, ctx) => (iter, .ok ctx)
      | .error fault => (.iterStop, .error fault) := by
  induction nodes generalizing ctx with
  | nil => rfl
  | cons node rest ih =>
    rw [iterEach, faulting]
    cases hfn : fn node ctx with
    | error fault =>
      rw [iterEachWith, hfn]
      rfl
    | ok result =>
      obtain ⟨iter, ctx'⟩ := result
      cases iter with
      | iterStop => rw [iterEachWith_stop hfn]
      | iterContinue =>
        rw [iterEachWith_continue hfn]
        exact ih ctx'

theorem fdtNodeChildsWith_eq {node : FdtNode} {nodes : List FdtNode}
    (h : ∀ (σ : Type) (fn : FdtNode → σ → Iter × σ) (ctx : σ),
      fdtNodeChilds turns memory node fn ctx = .ok (iterEach fn nodes ctx)) (ctx : σ) :
    fdtNodeChildsWith turns memory node fn ctx = iterEachWith fn nodes ctx := by
  rw [fdtNodeChildsWith, h, ok_bind, iterEach_faulting]
  cases iterEachWith fn nodes ctx with
  | error fault => rfl
  | ok result => rfl

/-- What the word behind the block is to the loop over the children of the root: a node without
children, or something to go past. -/
def nodesBehind (memory : List UInt8) (addr : ℕ) : Except Fault (List FdtNode) := do
  let word ← beLoad memory addr
  let begin ← fdtTokNext memory addr
  if word = fdtBeginNode then do
    let name ← strMakeFromCstr memory (addr + 4)
    return [⟨name, begin, none⟩]
  else return []

/-- A node behind the block has no end. -/
theorem fdtTok2Node_behind {stop next : ℕ} (hend : fdtTokEnd memory = .ok (stop + 4))
    (hnext : fdtTokNext memory stop = .ok next) (hturns : 0 < turns) :
    fdtTok2Node turns memory stop =
      strMakeFromCstr memory (stop + 4) >>= fun name ↦ .ok ⟨name, next, none⟩ := by
  obtain ⟨extra, rfl⟩ := Nat.exists_eq_add_of_lt hturns
  have hge := fdtTokNext_ge hnext
  have hleave : ¬ ∃ last ∈ some (stop + 4), next < last := by
    simp only [Option.mem_def, Option.some.injEq, exists_eq_left']
    omega
  have hnone : fdtNodeEnd (0 + extra + 1) memory stop = .ok none := by
    rw [fdtNodeEnd, fdtNodeBegin, hnext, ok_bind, hend, ok_bind, fdtFor,
      loop_leave (fdtTurn_leave hleave)]
  rw [fdtTok2Node, fdtNodeBegin, hnext, ok_bind, hnone, ok_bind]
  rfl

theorem fdtFor_nodesBehind {fn : FdtNode → σ → Iter × σ} {extra stop : ℕ} {ctx : σ}
    (hend : fdtTokEnd memory = .ok (stop + 4)) (hturns : 0 < turns) :
    fdtFor (extra + 2) memory (some (stop + 4)) (fdtNodeChildsBody turns memory fn)
        (fun s ↦ (.iterContinue, s.2)) stop ((0 : ℤ), ctx) =
      nodesBehind memory stop >>= fun nodes ↦ .ok (iterEach fn nodes ctx) := by
  cases hload : beLoad memory stop with
  | error fault =>
    rw [fdtFor, loop_stop (fdtTurn_error (by omega) hload), nodesBehind, hload]
    rfl
  | ok word =>
    have hturn : fdtTurn memory (some (stop + 4)) (fdtNodeChildsBody turns memory fn)
        (fun s ↦ (Iter.iterContinue, s.2)) (stop, ((0 : ℤ), ctx)) =
          fdtNodeChildsBody turns memory fn stop word ((0 : ℤ), ctx) >>=
            Sum.elim (fun s ↦ fdtTokNext memory stop >>= fun next ↦ .ok (.inl (next, s)))
              fun result ↦ .ok (.inr result) := by
      rw [fdtTurn, if_pos ⟨stop + 4, rfl, by omega⟩, hload, ok_bind]
      apply bind_congr
      intro outcome
      cases outcome with
      | inl s => rfl
      | inr result => rfl
    cases hnext : fdtTokNext memory stop with
    | error fault =>
      have hfault : fdtTurn memory (some (stop + 4)) (fdtNodeChildsBody turns memory fn)
          (fun s ↦ (Iter.iterContinue, s.2)) (stop, ((0 : ℤ), ctx)) = .error fault := by
        rw [hturn, fdtNodeChildsBody]
        split
        · rw [fdtTok2Node, fdtNodeBegin, hnext]
          rfl
        · rw [ok_bind, hnext]
          rfl
      rw [fdtFor, loop_stop hfault, nodesBehind, hload, ok_bind, hnext]
      rfl
    | ok next =>
      have hge := fdtTokNext_ge hnext
      have hleave : ¬ ∃ last ∈ some (stop + 4), next < last := by
        simp only [Option.mem_def, Option.some.injEq, exists_eq_left']
        omega
      rw [hnext] at hturn
      rw [nodesBehind, hload, ok_bind, hnext, ok_bind]
      by_cases hword : word = fdtBeginNode
      · rw [fdtNodeChildsBody, if_pos ⟨hword, rfl⟩, fdtTok2Node_behind hend hnext hturns] at hturn
        rw [if_pos hword]
        cases hname : strMakeFromCstr memory (stop + 4) with
        | error fault =>
          rw [hname] at hturn
          rw [fdtFor, loop_stop hturn]
          rfl
        | ok name =>
          rw [hname, ok_bind, ok_bind] at hturn
          cases hfn : fn ⟨name, next, none⟩ ctx with
          | mk iter ctx' =>
            rw [hfn] at hturn
            cases iter with
            | iterStop =>
              rw [fdtFor, loop_leave hturn]
              show _ = Except.ok (iterEach fn [⟨name, next, none⟩] ctx)
              rw [iterEach, hfn]
            | iterContinue =>
              rw [fdtFor, loop_turn hturn, loop_leave (fdtTurn_leave hleave)]
              show _ = Except.ok (iterEach fn [⟨name, next, none⟩] ctx)
              rw [iterEach, hfn]
              rfl
      · rw [fdtNodeChildsBody, if_neg fun hboth ↦ hword hboth.1] at hturn
        rw [if_neg hword, fdtFor, loop_turn hturn, loop_leave (fdtTurn_leave hleave)]
        rfl

variable {begin : ℕ} {items : DtItems}

/-- The loop hands out the children of the tree and then what is behind the block. -/
theorem LaidOut.fdtNodeChilds_eq (h : LaidOut memory begin items)
    (hturns : items.bytes.length / 4 + 3 ≤ turns) (fn : FdtNode → σ → Iter × σ) (ctx : σ) :
    fdtNodeChilds turns memory ⟨[], begin, some (begin + items.bytes.length + 8)⟩ fn ctx =
      match iterEach fn (items.nodes begin) ctx with
      | (.iterStop, ctx) => .ok (.iterStop, ctx)
      | (.iterContinue, ctx) =>
        nodesBehind memory (begin + items.bytes.length + 4) >>= fun nodes ↦
          .ok (iterEach fn nodes ctx) := by
  have hrun := runToks_childs fn h.inside (show items.bytes.length / 4 + 2 ≤ turns by omega) ctx
  obtain ⟨extra, hfor⟩ := h.fdtFor_eq hturns (fun _ _ ↦ rfl) hrun
  refine hfor.trans ?_
  cases hiter : iterEach fn (items.nodes begin) ctx with
  | mk iter ctx' =>
    cases iter with
    | iterStop => rfl
    | iterContinue =>
      exact fdtFor_nodesBehind h.fdtTokEnd_eq (by omega)

theorem LaidOut.fdtNodeChildsWith_eq (h : LaidOut memory begin items)
    (hturns : items.bytes.length / 4 + 3 ≤ turns) (fn : FdtNode → σ → Except Fault (Iter × σ))
    (ctx : σ) :
    fdtNodeChildsWith turns memory ⟨[], begin, some (begin + items.bytes.length + 8)⟩ fn ctx =
      iterEachWith fn (items.nodes begin) ctx >>= fun
        | (.iterStop, ctx) => .ok (.iterStop, ctx)
        | (.iterContinue, ctx) => nodesBehind memory (begin + items.bytes.length + 4) >>=
          fun nodes ↦ iterEachWith fn nodes ctx := by
  rw [fdtNodeChildsWith, h.fdtNodeChilds_eq hturns, iterEach_faulting]
  cases iterEachWith fn (items.nodes begin) ctx with
  | error fault => rfl
  | ok result =>
    obtain ⟨iter, ctx'⟩ := result
    cases iter with
    | iterStop => rfl
    | iterContinue =>
      rw [ok_bind]
      dsimp only
      cases nodesBehind memory (begin + items.bytes.length + 4) with
      | error fault => rfl
      | ok nodes =>
        rw [ok_bind, ok_bind, ok_bind, iterEach_faulting]
        cases iterEachWith fn nodes ctx' with
        | error fault => rfl
        | ok result => rfl

end Callbacks

/-! ## The lookup in a tree -/

section Lookup

variable {turns depth : ℕ} {memory : List UInt8} {node : FdtNode} {res : Option FdtNode}
  {path part more : List UInt8} {same : Bool}

theorem partsOf_last (h : 47 ∉ path) : partsOf path = [path] := List.splitOn_eq_singleton h

theorem partsOf_more (h : 47 ∉ part) : partsOf (part ++ 47 :: more) = part :: partsOf more := by
  rw [partsOf, List.splitOn_append_cons_self, List.splitOn_eq_singleton h]
  rfl

theorem partsOf_ne_nil (path : List UInt8) : partsOf path ≠ [] := List.splitOn_ne_nil 47 path

/-- Every part but the last one has a separator behind it. -/
theorem length_partsOf (path : List UInt8) : (partsOf path).length ≤ path.length + 1 := by
  induction path with
  | nil => exact Nat.le_refl _
  | cons byte rest ih =>
    unfold partsOf at ih ⊢
    rw [List.splitOn_cons_eq_if_modifyHead, List.length_cons]
    split
    · rw [List.length_cons]
      omega
    · rw [List.length_modifyHead]
      omega

/-- A node against the last part of the path. -/
theorem fdtLookupNodeIter_last (hpath : path.length < 2 ^ 31) (hsep : 47 ∉ path)
    (hsame : nodeNameEq (strOf path) (strOf node.name) = .ok same) :
    fdtLookupNodeIter turns memory (depth + 1) node ⟨strOf path, res⟩ =
      .ok (if same then (.iterStop, ⟨strOf path, some node⟩)
        else (.iterContinue, ⟨strOf path, res⟩)) := by
  have hint : sizeToInt (strOf path).len = path.length := sizeToInt_of_lt hpath
  have hall : strSub (strOf path) 0 (path.length : ℤ) = strOf path := by
    rw [strSub, strOf]
    congr 1
    omega
  rw [fdtLookupNodeIter, (reads_strOf path).strFirstChr_none hsep, ok_bind]
  dsimp only
  rw [if_pos (by decide), hint, hall, hsame, ok_bind]
  cases same with
  | false => rfl
  | true =>
    rw [if_pos rfl, if_pos rfl]
    rfl

/-- A node against another part. -/
theorem fdtLookupNodeIter_more (hpath : (part ++ 47 :: more).length < 2 ^ 31) (hsep : 47 ∉ part)
    (hsame : nodeNameEq ⟨part.length, part ++ 47 :: more⟩ (strOf node.name) = .ok same) :
    fdtLookupNodeIter turns memory (depth + 1) node ⟨strOf (part ++ 47 :: more), res⟩ =
      if same then
        fdtNodeChildsWith turns memory node (fdtLookupNodeIter turns memory depth) ⟨strOf more, res⟩
      else .ok (.iterContinue, ⟨strOf (part ++ 47 :: more), res⟩) := by
  have hlength : (part ++ 47 :: more).length = part.length + 1 + more.length := by
    rw [List.length_append, List.length_cons]
    omega
  have hint : sizeToInt (strOf (part ++ 47 :: more)).len = (part ++ 47 :: more).length :=
    sizeToInt_of_lt hpath
  have hpart : strSub (strOf (part ++ 47 :: more)) 0 (part.length : ℤ) =
      ⟨part.length, part ++ 47 :: more⟩ := by
    rw [strSub, strOf]
    congr 1
    omega
  have hmore : strSub (strOf (part ++ 47 :: more)) ((part.length : ℤ) + 1)
      ((part ++ 47 :: more).length : ℕ) = strOf more := by
    rw [strSub, strOf, hlength]
    congr 1
    · omega
    · rw [Int.toNat_natCast_add_one, ← List.drop_drop, List.drop_left]
      rfl
  rw [fdtLookupNodeIter, (reads_strOf _).strFirstChr_some hsep, ok_bind,
    sizeToInt_of_lt (by omega)]
  dsimp only
  rw [if_neg (by omega), hpart, hsame, ok_bind, hint, hmore]
  cases same with
  | false => rfl
  | true =>
    rw [if_pos rfl, if_pos rfl, if_neg (by omega)]
    cases fdtNodeChildsWith turns memory node (fdtLookupNodeIter turns memory depth)
      ⟨strOf more, res⟩ with
    | error fault => rfl
    | ok result =>
      obtain ⟨iter, ctx⟩ := result
      cases iter with
      | iterStop => rfl
      | iterContinue => rfl

/-- How going over siblings ends: at the node that the search finds, or with what is left of the
path in the context. -/
def Outcome (res : Option FdtNode) : FdtNode ⊕ List (List UInt8) → Iter × FdtNodeLookupCtx → Prop
  | .inl found, (iter, ctx) => iter = .iterStop ∧ ctx.res = some found
  | .inr left, (iter, ctx) => iter = .iterContinue ∧
      ∃ path, ctx = ⟨strOf path, res⟩ ∧ partsOf path = left ∧ path.length < 2 ^ 31

/-- The callbacks search the tree as `DtItems.search` does. -/
theorem exists_iterEachWith {items : DtItems} {cur : ℕ} (h : Inside memory cur items)
    (hturns : items.bytes.length / 4 + 2 ≤ turns) (hpath : path.length < 2 ^ 31)
    (hdepth : (partsOf path).length ≤ depth) :
    ∃ result, iterEachWith (fdtLookupNodeIter turns memory depth) (items.nodes cur)
        ⟨strOf path, res⟩ = .ok result ∧ Outcome res (items.search cur (partsOf path)) result := by
  induction items generalizing cur depth path with
  | nil => exact ⟨_, rfl, rfl, path, rfl, rfl, hpath⟩
  | nop rest ih =>
    rw [DtItems.length_bytes_nop] at hturns
    exact ih h.nop (by omega) hpath hdepth
  | prop entry rest ih =>
    rw [DtItems.length_bytes_prop] at hturns
    exact ih h.prop (by omega) hpath hdepth
  | node name pad items rest ihitems ih =>
    have hsize := h.size
    rw [DtItems.length_bytes_node] at hturns hsize
    have hpos := List.length_pos_iff.mpr (partsOf_ne_nil path)
    obtain ⟨below, rfl⟩ := Nat.exists_eq_add_of_lt (Nat.lt_of_lt_of_le hpos hdepth)
    rw [Nat.zero_add] at hdepth ⊢
    have hclosed : Closed memory ⟨name, DtItems.inner cur name pad,
        some (DtItems.inner cur name pad + items.bytes.length + 4)⟩ items :=
      ⟨h.items, h.close, rfl⟩
    rw [DtItems.nodes]
    by_cases hsep : 47 ∈ path
    · obtain ⟨part, more, rfl, hpart⟩ := List.eq_append_cons_of_mem hsep
      have hlength : (part ++ 47 :: more).length = part.length + 1 + more.length := by
        rw [List.length_append, List.length_cons]
        omega
      have hsame := @nodeNameEq_eq ⟨part.length, part ++ 47 :: more⟩ part name
        ⟨rfl, List.prefix_append _ _⟩ (by omega) (by omega)
      rw [partsOf_more hpart] at hdepth ⊢
      rw [List.length_cons] at hdepth
      rw [DtItems.search]
      by_cases hmatch : PartMatches part name
      · rw [decide_eq_true hmatch] at hsame
        rw [if_pos hmatch, if_neg (partsOf_ne_nil more)]
        obtain ⟨⟨iter, ctx⟩, hrun, hout⟩ := @ihitems below more _ h.items (by omega) (by omega)
          (by omega)
        have hiter := @fdtLookupNodeIter_more turns below memory ⟨name, DtItems.inner cur name pad,
          some (DtItems.inner cur name pad + items.bytes.length + 4)⟩ res part more true hpath hpart
            hsame
        rw [if_pos rfl, fdtNodeChildsWith_eq (hclosed.enumerates (by omega)).childs, hrun] at hiter
        cases hsearch : items.search (DtItems.inner cur name pad) (partsOf more) with
        | inl found =>
          rw [hsearch] at hout
          obtain ⟨rfl, hres⟩ := hout
          exact ⟨_, iterEachWith_stop hiter, rfl, hres⟩
        | inr left =>
          rw [hsearch] at hout
          obtain ⟨rfl, path', rfl, rfl, hpath'⟩ := hout
          have hle := DtItems.length_leftOver ((DtItems.search_eq_inr _ _).mp hsearch)
          obtain ⟨result, hrest, hout'⟩ := @ih (below + 1) path' _ h.rest (by omega) hpath'
            (by omega)
          exact ⟨result, (iterEachWith_continue hiter).trans hrest, hout'⟩
      · rw [decide_eq_false hmatch] at hsame
        rw [if_neg hmatch]
        obtain ⟨result, hrest, hout⟩ := @ih (below + 1) (part ++ 47 :: more) _ h.rest (by omega)
          hpath (by rw [partsOf_more hpart, List.length_cons]; omega)
        rw [partsOf_more hpart] at hout
        refine ⟨result, (iterEachWith_continue ?_).trans hrest, hout⟩
        exact (fdtLookupNodeIter_more hpath hpart hsame).trans rfl
    · have hsame := nodeNameEq_eq (reads_strOf path) hpath (show name.length < 2 ^ 32 by omega)
      rw [partsOf_last hsep] at hdepth ⊢
      rw [DtItems.search]
      by_cases hmatch : PartMatches path name
      · rw [decide_eq_true hmatch] at hsame
        rw [if_pos hmatch, if_pos rfl]
        have hiter := @fdtLookupNodeIter_last turns below memory ⟨name, DtItems.inner cur name pad,
          some (DtItems.inner cur name pad + items.bytes.length + 4)⟩ res path true hpath hsep hsame
        rw [if_pos rfl] at hiter
        exact ⟨_, iterEachWith_stop hiter, rfl, rfl⟩
      · rw [decide_eq_false hmatch] at hsame
        rw [if_neg hmatch]
        obtain ⟨result, hrest, hout⟩ := @ih (below + 1) path _ h.rest (by omega) hpath
          (by rw [partsOf_last hsep]; exact hdepth)
        rw [partsOf_last hsep] at hout
        refine ⟨result, (iterEachWith_continue ?_).trans hrest, hout⟩
        exact (fdtLookupNodeIter_last hpath hsep hsame).trans rfl

theorem nodesBehind_cases {addr : ℕ} {nodes : List FdtNode}
    (h : nodesBehind memory addr = .ok nodes) :
    nodes = [] ∨ ∃ node, nodes = [node] ∧ node.last = none := by
  obtain ⟨word, -, h⟩ := bind_eq_ok.mp h
  obtain ⟨begin, -, h⟩ := bind_eq_ok.mp h
  split at h
  · obtain ⟨name, -, h⟩ := bind_eq_ok.mp h
    cases h
    exact Or.inr ⟨_, rfl, rfl⟩
  · cases h
    exact Or.inl rfl

theorem fdtNodeChildsWith_endless {σ : Type} {fn : FdtNode → σ → Except Fault (Iter × σ)} {ctx : σ}
    (hlast : node.last = none) (hturns : 0 < turns) :
    fdtNodeChildsWith turns memory node fn ctx = .ok (.iterContinue, ctx) := by
  obtain ⟨extra, rfl⟩ := Nat.exists_eq_add_of_lt hturns
  rw [fdtNodeChildsWith, fdtNodeChilds, hlast, fdtFor, loop_leave (fdtTurn_leave (by simp))]
  rfl

/-- The last part of the path is left, and the node matches it. -/
def TakesLast (left : List (List UInt8)) (node : FdtNode) : Prop :=
  ∃ part, left = [part] ∧ nodeNameEq (strOf part) (strOf node.name) = .ok true

/-- A node without children against what is left of the path. -/
theorem fdtLookupNodeIter_endless (hlast : node.last = none) (hturns : 0 < turns)
    (hpath : path.length < 2 ^ 31) :
    ∃ iter ctx, fdtLookupNodeIter turns memory (depth + 1) node ⟨strOf path, none⟩ =
      .ok (iter, ctx) ∧ (TakesLast (partsOf path) node ∧ ctx.res = some node ∨
        ¬ TakesLast (partsOf path) node ∧ ctx.res = none) := by
  by_cases hsep : 47 ∈ path
  · obtain ⟨part, more, rfl, hpart⟩ := List.eq_append_cons_of_mem hsep
    have hlength : (part ++ 47 :: more).length = part.length + 1 + more.length := by
      rw [List.length_append, List.length_cons]
      omega
    have hnot : ¬ TakesLast (partsOf (part ++ 47 :: more)) node := by
      rintro ⟨other, hone, -⟩
      rw [partsOf_more hpart] at hone
      exact partsOf_ne_nil more (List.cons.inj hone).2
    obtain ⟨same, hsame⟩ := @exists_nodeNameEq ⟨part.length, part ++ 47 :: more⟩ part
      ⟨rfl, List.prefix_append _ _⟩ (show part.length < 2 ^ 31 by omega) node.name
    rw [fdtLookupNodeIter_more hpath hpart hsame, fdtNodeChildsWith_endless hlast hturns]
    cases same with
    | false => exact ⟨_, _, rfl, Or.inr ⟨hnot, rfl⟩⟩
    | true => exact ⟨_, _, rfl, Or.inr ⟨hnot, rfl⟩⟩
  · obtain ⟨same, hsame⟩ := exists_nodeNameEq (reads_strOf path) hpath node.name
    rw [fdtLookupNodeIter_last hpath hsep hsame, partsOf_last hsep]
    cases same with
    | false =>
      refine ⟨_, _, rfl, Or.inr ⟨?_, rfl⟩⟩
      rintro ⟨part, hone, htrue⟩
      cases hone
      rw [hsame] at htrue
      cases htrue
    | true => exact ⟨_, _, rfl, Or.inl ⟨⟨path, rfl, hsame⟩, rfl⟩⟩

variable {begin : ℕ} {items : DtItems}

/-- The lookup gives the first node in document order whose names match, or none. -/
def LooksUp (turns : ℕ) (memory : List UInt8) (begin : ℕ) (items : DtItems) (path : List UInt8) :
    Prop :=
  fdtLookupNode turns memory path = .ok (items.firstMatch begin (partsOf path))

/-- No node matches the path, what the shortened path is compared with does not use it up, and
neither does the word behind the block. -/
def FindsNothing (memory : List UInt8) (begin : ℕ) (items : DtItems) (path : List UInt8) : Prop :=
  (∀ entry ∈ items.chains begin, ¬ ChainMatches (partsOf path) entry.1) ∧
    ∃ left nodes, items.leftOver (partsOf path) = some left ∧
      nodesBehind memory (begin + items.bytes.length + 4) = .ok nodes ∧
        ∀ node ∈ nodes, ¬ TakesLast left node

theorem firstMatch_eq_none {parts : List (List UInt8)} :
    items.firstMatch begin parts = none ↔
      ∀ entry ∈ items.chains begin, ¬ ChainMatches parts entry.1 := by
  rw [DtItems.firstMatch, Option.map_eq_none_iff, List.find?_eq_none]
  simp

theorem firstMatch_eq_some {parts : List (List UInt8)} {found : FdtNode}
    (h : items.firstMatch begin parts = some found) :
    ∃ names, (names, found) ∈ items.chains begin ∧ names.length = parts.length := by
  obtain ⟨entry, hfind, rfl⟩ := Option.map_eq_some_iff.mp h
  have hmatch := List.find?_some hfind
  exact ⟨entry.1, List.mem_of_find?_eq_some hfind,
    (List.Forall₂.length_eq (of_decide_eq_true hmatch)).symm⟩

theorem chains_last {cur : ℕ} {entry : List (List UInt8) × FdtNode}
    (h : entry ∈ items.chains cur) : entry.2.last ≠ none := by
  induction items generalizing cur entry with
  | nil => cases h
  | nop rest ih => exact ih h
  | prop _ rest ih => exact ih h
  | node name pad items rest ihitems ih =>
    rcases List.mem_append.mp h with h | h
    · rcases List.mem_cons.mp h with rfl | h
      · exact nofun
      · obtain ⟨inside, hinside, rfl⟩ := List.mem_map.mp h
        have hlast := ihitems hinside
        exact hlast
    · exact ih h

theorem looksUp_iff (h : LaidOut memory begin items) (hturns : items.bytes.length / 4 + 3 ≤ turns)
    (hpath : path.length < 2 ^ 31) :
    LooksUp turns memory begin items path ↔
      items.FirstChain (partsOf path) ∨ FindsNothing memory begin items path := by
  obtain ⟨⟨iter, ctx⟩, hrun, hout⟩ := @exists_iterEachWith turns (path.length + 1) memory none path
    items begin h.inside (by omega) hpath (length_partsOf path)
  rw [LooksUp, fdtLookupNode, h.fdtNodeRoot_eq, ok_bind, h.fdtNodeChildsWith_eq hturns, hrun,
    ok_bind]
  cases hsearch : items.search begin (partsOf path) with
  | inl found =>
    rw [hsearch] at hout
    obtain ⟨rfl, hres⟩ := hout
    have hnone : ¬ FindsNothing memory begin items path := by
      rintro ⟨-, left, nodes, hleft, -⟩
      rw [← DtItems.search_eq_inr items begin, hsearch] at hleft
      cases hleft
    dsimp only
    rw [ok_bind, pure_eq_ok, hres, or_iff_left hnone]
    constructor
    · intro hfirst
      by_contra hchain
      obtain ⟨names, hmem, hlt⟩ := DtItems.search_of_not_firstChain hchain hsearch
      obtain ⟨names', hmem', hlength⟩ := firstMatch_eq_some hfirst.symm
      have heq := DtItems.chains_unique hmem hmem' rfl
      rw [(Prod.mk.inj heq).1] at hlt
      omega
    · intro hchain
      obtain ⟨found', hsearch', hfirst⟩ := @DtItems.search_of_firstChain _ _ begin hchain
      rw [hsearch] at hsearch'
      cases hsearch'
      exact hfirst.symm
  | inr left =>
    rw [hsearch] at hout
    obtain ⟨rfl, path', rfl, hleft, hpath'⟩ := hout
    have hchain : ¬ items.FirstChain (partsOf path) := by
      intro hchain
      obtain ⟨found, hsearch', -⟩ := @DtItems.search_of_firstChain _ _ begin hchain
      rw [hsearch] at hsearch'
      cases hsearch'
    rw [DtItems.search_eq_inr] at hsearch
    rw [or_iff_right hchain, FindsNothing, ← firstMatch_eq_none]
    dsimp only
    cases hbehind : nodesBehind memory (begin + items.bytes.length + 4) with
    | error fault =>
      refine iff_of_false nofun ?_
      rintro ⟨-, _, _, -, hnodes, -⟩
      cases hnodes
    | ok nodes =>
      rw [ok_bind]
      rcases nodesBehind_cases hbehind with rfl | ⟨node, rfl, hlast⟩
      · constructor
        · intro hfirst
          exact ⟨(Except.ok.inj hfirst).symm, left, [], hsearch, rfl, nofun⟩
        · rintro ⟨hfirst, -⟩
          rw [hfirst]
          rfl
      · obtain ⟨iter, ctx, hiter, hres⟩ := @fdtLookupNodeIter_endless turns path.length memory node
          path' hlast (by omega) hpath'
        have hone : iterEachWith (fdtLookupNodeIter turns memory (path.length + 1)) [node]
            ⟨strOf path', none⟩ = .ok (iter, ctx) := by
          cases iter with
          | iterStop => exact iterEachWith_stop hiter
          | iterContinue => exact iterEachWith_continue hiter
        rw [hone, ok_bind, pure_eq_ok]
        rcases hres with ⟨htakes, hres⟩ | ⟨htakes, hres⟩
        · -- The node behind the block is found, which is none of the tree.
          refine iff_of_false (fun hfirst ↦ ?_) ?_
          · rw [hres] at hfirst
            obtain ⟨names, hmem, -⟩ := firstMatch_eq_some hfirst.symm
            exact chains_last hmem hlast
          · rintro ⟨-, left', nodes, hleft', hnodes, hall⟩
            rw [hsearch] at hleft'
            cases hleft'
            cases hnodes
            rw [← hleft] at hall
            exact hall node List.mem_cons_self htakes
        · rw [hres]
          constructor
          · intro hfirst
            refine ⟨hfirst.symm, left, [node], hsearch, rfl, fun other hother ↦ ?_⟩
            obtain rfl := List.mem_singleton.mp hother
            rw [← hleft]
            exact htakes
          · rintro ⟨hfirst, -⟩
            exact hfirst.symm

end Lookup

/-- The names of the children of a node differ, on every level. -/
def DtItems.NamesDistinct : DtItems → Prop
  | nil => True
  | nop rest => rest.NamesDistinct
  | prop _ rest => rest.NamesDistinct
  | node name _ items rest =>
    name ∉ rest.childs.map (·.1) ∧ items.NamesDistinct ∧ rest.NamesDistinct

/-- The lookup of a path gives the first node in document order whose names match it exactly when
the first children that match its parts lead there, or when there is no such node and the shortened
path is not used up either. -/
theorem fdtLookupNode_iff (memory : List UInt8) (size turns : ℕ)
    (hsize : beLoad memory 36 = .ok size) (hturns : size / 4 + 2 ≤ turns) (begin : ℕ)
    (items : DtItems) (hlaid : LaidOut memory begin items) (path : List UInt8)
    (hpath : path.length < 2 ^ 31) :
    LooksUp turns memory begin items path ↔
      items.FirstChain (partsOf path) ∨ FindsNothing memory begin items path := by
  have hlength : size = items.bytes.length + 4 := Except.ok.inj (hsize.symm.trans hlaid.size)
  exact looksUp_iff hlaid (by omega) hpath

/-- The child of the small tree is found. -/
theorem fdtLookupNode_iff_small :
    LooksUp 20 smallBlob 40 smallTree [47, 99] ∧
      fdtLookupNode 20 smallBlob [47, 99] = .ok (some ⟨[99], 76, some 80⟩) := by
  have hchain : smallTree.FirstChain (partsOf [47, 99]) := by
    have hparts : partsOf [47, 99] = [[], [99]] := by decide
    rw [hparts, smallTree, DtItems.FirstChain, if_pos (by decide)]
    right
    rw [DtItems.FirstChain, DtItems.FirstChain, DtItems.FirstChain, if_pos (by decide)]
    left
    rfl
  have hlooks := (fdtLookupNode_iff smallBlob 48 20 (by rfl) (by decide) 40 smallTree
    smallBlob_laidOut [47, 99] (by decide)).mpr (Or.inl hchain)
  exact ⟨hlooks, hlooks.trans (by rfl)⟩

/-- A root with the children `a` and `b`. -/
def siblingTree : DtItems :=
  .node [] [0, 0, 0] (.node [97] [0, 0] .nil (.node [98] [0, 0] .nil .nil)) .nil

def siblingBlob : List UInt8 := blobOf (siblingTree.bytes ++ beBytes 4 fdtEnd) [97, 0, 0, 0]

/-- `/a/b` is found to be the sibling of `a`. -/
theorem fdtLookupNode_finds_sibling :
    ¬ ∀ (memory : List UInt8) (size turns : ℕ), beLoad memory 36 = .ok size →
      size / 4 + 2 ≤ turns → ∀ begin items, LaidOut memory begin items → items.NamesDistinct →
        ∀ path : List UInt8, path.length < 2 ^ 31 → LooksUp turns memory begin items path := by
  intro hall
  have hlaid : LaidOut siblingBlob 40 siblingTree := by
    refine ⟨by rfl, by rfl, ⟨[97, 0, 0, 0], by rfl⟩, 80,
      by rfl, ⟨by decide, by decide⟩, ⟨⟨by decide, by decide⟩, trivial,
        ⟨by decide, by decide⟩, trivial, trivial⟩, trivial⟩
  have hlooks := hall siblingBlob 40 20 (by rfl) (by decide) 40 siblingTree hlaid
    ⟨by decide, ⟨by decide, trivial, by decide, trivial, trivial⟩, trivial⟩
    [47, 97, 47, 98] (by decide)
  have hnone : siblingTree.firstMatch 40 (partsOf [47, 97, 47, 98]) = none := by rfl
  have hfound : fdtLookupNode 20 siblingBlob [47, 97, 47, 98] =
      .ok (some ⟨[98], 68, some 72⟩) := by rfl
  rw [LooksUp, hfound, hnone] at hlooks
  cases hlooks

end Brutal.Hw
