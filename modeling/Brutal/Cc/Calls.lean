import Brutal.Cc.Preprocessor
import Brutal.Lib.Outcome

/-!
# Calls of macros

`cproc_parse_ident` has gone past the name of a macro when it finds that no argument list follows:
it then puts out the lexeme behind the name, which stays to be read, in place of the name.  It only
sees an argument list behind one lexeme of white space at most.  And it holds a pointer to the macro
while the arguments are expanded, where a `#define` makes the vector of the macros move.
-/

namespace Brutal.Cc

open Base Ds.Growth Lib Text

/-- Lexemes whose parentheses close each other. -/
inductive Balanced : List Lexeme → Prop where
  | nil : Balanced []
  | plain {lexeme : Lexeme} {rest : List Lexeme} (hopen : lexeme.type ≠ .lparent)
    (hclose : lexeme.type ≠ .rparent) (h : Balanced rest) : Balanced (lexeme :: rest)
  | group {opening closing : Lexeme} {inner rest : List Lexeme} (hopen : opening.type = .lparent)
    (hclose : closing.type = .rparent) (hinner : Balanced inner) (h : Balanced rest) :
    Balanced (opening :: (inner ++ closing :: rest))

/-- An argument: its parentheses close each other, and its commas stand between them. -/
inductive Argument : List Lexeme → Prop where
  | nil : Argument []
  | plain {lexeme : Lexeme} {rest : List Lexeme} (hopen : lexeme.type ≠ .lparent)
    (hclose : lexeme.type ≠ .rparent) (hcomma : lexeme.type ≠ .comma) (h : Argument rest) :
    Argument (lexeme :: rest)
  | group {opening closing : Lexeme} {inner rest : List Lexeme} (hopen : opening.type = .lparent)
    (hclose : closing.type = .rparent) (hinner : Balanced inner) (h : Argument rest) :
    Argument (opening :: (inner ++ closing :: rest))

/-- Arguments with commas between them, up to the parenthesis behind the last one. -/
inductive Arguments (after : List Lexeme) : List (List Lexeme) → List Lexeme → Prop where
  | last {arg : List Lexeme} {closing : Lexeme} (harg : Argument arg)
    (hclose : closing.type = .rparent) : Arguments after [arg] (arg ++ closing :: after)
  | cons {arg text : List Lexeme} {args : List (List Lexeme)} {comma : Lexeme}
    (harg : Argument arg) (hcomma : comma.type = .comma) (h : Arguments after args text) :
    Arguments after (arg :: args) (arg ++ comma :: text)

/-- `( a1, …, an )` behind white space, where the white space in front of the first argument is no
part of it. -/
structure Call (spaces : List Lexeme) (args : List (List Lexeme)) (after rest : List Lexeme) :
    Prop where
  white : ∀ lexeme ∈ spaces, isWhitespace lexeme = true
  list : ∃ opening inner text, rest = spaces ++ opening :: (inner ++ text) ∧
    opening.type = .lparent ∧ (∀ lexeme ∈ inner, isWhitespace lexeme = true) ∧
    (∀ lexeme ∈ text.head?, isWhitespace lexeme = false) ∧ Arguments after args text

/-- An opening parenthesis follows, maybe behind white space. -/
def Followed (rest : List Lexeme) : Prop :=
  ∃ opening ∈ (rest.dropWhile isWhitespace).head?, opening.type = .lparent

/-- The body of a macro where the parameters are replaced by what their arguments expand to. -/
def replaceParams (expand : Expand) (binding : List (List UInt8 × List Lexeme)) :
    List Lexeme → List Lexeme → CProc → Except Fault (List Lexeme × CProc)
  | [], out, ctx => .ok (out, ctx)
  | entry :: body, out, ctx =>
    match if entry.type = .ident then binding.lookup entry.str else none with
    | none => replaceParams expand binding body (out ++ [entry]) ctx
    | some arg => do
      let (out, ctx) ← expand out (lexFromLexeme arg) ctx
      replaceParams expand binding body out ctx

/-- Up to each place in the body, the arguments leave the vector of the macros with its capacity. -/
def MacrosStay (expand : Expand) (binding : List (List UInt8 × List Lexeme)) (body : List Lexeme)
    (out : List Lexeme) (ctx : CProc) (capacity : ℕ) : Prop :=
  ∀ front, front <+: body → ∀ out' ctx', replaceParams expand binding front out ctx =
    .ok (out', ctx') → vecCapacity ctx'.macros.length = capacity

/-- What a call comes to: the body with its parameters replaced, which is expanded again and put
together where it has a `##`; the lexemes behind the call are left. -/
def callOutcome (expand : Expand) (out : List Lexeme) (args : List (List Lexeme))
    (after : List Lexeme) (ctx : CProc) (target : CProcMacro) :
    Except Fault (List Lexeme × Lex × CProc) := do
  let (code, ctx) ← replaceParams expand (target.args.zip args) target.source [] ctx
  let (extended, ctx) ← cprocGenExtendedMacroCode expand target code ctx
  let out ← cprocGenConcatenation .any out extended
  return (out, ⟨after, false⟩, ctx)

section Handling

variable (depth : ℕ) (out : List Lexeme) (name : Lexeme) (rest : List Lexeme) (ctx : CProc)
  (target : CProcMacro)

/-- The name is left alone without a call, and a call is expanded where the macro is not being
expanded already, without a use of memory that was given back. -/
structure Handles : Prop where
  alone : ¬ Followed rest →
    cprocParseIdent (cprocExpand cprocParseDirective depth) out ⟨name :: rest, false⟩ ctx =
      .ok (out ++ [name], ⟨rest, false⟩, ctx)
  called : cprocIsAlreadyInMacro ctx target.name = false →
    ∀ spaces args after, Call spaces args after rest → args.length = target.args.length →
      cprocParseIdent (cprocExpand cprocParseDirective depth) out ⟨name :: rest, false⟩ ctx =
          callOutcome (cprocExpand cprocParseDirective depth) out args after ctx target ∧
        callOutcome (cprocExpand cprocParseDirective depth) out args after ctx target ≠
          .error .freed

/-- The macro is being expanded already; or the name stands in front of itself, if it is not called,
and the call has at most one lexeme of white space in front of it, and no argument whose expansion
moves the macros, and no call inside of it uses memory that was given back. -/
def HandlesWhen : Prop :=
  cprocIsAlreadyInMacro ctx target.name = true ∨
    ((¬ Followed rest → rest.head? = some name) ∧
      ∀ spaces args after, Call spaces args after rest → args.length = target.args.length →
        spaces.length ≤ 1 ∧
        MacrosStay (cprocExpand cprocParseDirective depth) (target.args.zip args) target.source []
          ctx (vecCapacity ctx.macros.length) ∧
        callOutcome (cprocExpand cprocParseDirective depth) out args after ctx target ≠
          .error .freed)

end Handling

variable {depth : ℕ} {out rest spaces after text arg body : List Lexeme} {lexeme name : Lexeme}
  {args : List (List Lexeme)} {ctx : CProc} {target : CProcMacro} {expand : Expand} {ptr : MacroPtr}
  {binding : List (List UInt8 × List Lexeme)} {size : ℕ}

attribute [local grind =] cprocParseACallMacroArg cprocParseIdent

theorem cprocParseACallMacroArg_plain (hopen : lexeme.type ≠ .lparent)
    (hclose : lexeme.type ≠ .rparent) (hcomma : lexeme.type = .comma → depth ≠ 0) :
    cprocParseACallMacroArg depth (lexeme :: rest) =
      (lexeme :: (cprocParseACallMacroArg depth rest).1,
        (cprocParseACallMacroArg depth rest).2) := by
  rw [cprocParseACallMacroArg, if_neg hopen, if_neg hclose,
    if_neg fun h ↦ hcomma h.1 h.2]

theorem cprocParseACallMacroArg_open (hopen : lexeme.type = .lparent) :
    cprocParseACallMacroArg depth (lexeme :: rest) =
      (lexeme :: (cprocParseACallMacroArg (depth + 1) rest).1,
        (cprocParseACallMacroArg (depth + 1) rest).2) := by
  grind

theorem cprocParseACallMacroArg_close (hclose : lexeme.type = .rparent) :
    cprocParseACallMacroArg (depth + 1) (lexeme :: rest) =
      (lexeme :: (cprocParseACallMacroArg depth rest).1,
        (cprocParseACallMacroArg depth rest).2) := by
  rw [cprocParseACallMacroArg, if_neg (by rw [hclose]; nofun), if_pos hclose,
    if_neg (Nat.succ_ne_zero depth), Nat.add_sub_cancel]

theorem cprocParseACallMacroArg_end (hend : lexeme.type = .rparent ∨ lexeme.type = .comma) :
    cprocParseACallMacroArg 0 (lexeme :: rest) = ([], rest) := by
  rw [cprocParseACallMacroArg]
  rcases hend with hclose | hcomma
  · rw [if_neg (by rw [hclose]; nofun), if_pos hclose, if_pos rfl]
  · rw [if_neg (by rw [hcomma]; nofun), if_neg (by rw [hcomma]; nofun), if_pos ⟨hcomma, rfl⟩]

/-- Between parentheses, everything is a part of the argument. -/
theorem cprocParseACallMacroArg_balanced (h : Balanced text) (depth : ℕ) (rest : List Lexeme) :
    cprocParseACallMacroArg (depth + 1) (text ++ rest) =
      (text ++ (cprocParseACallMacroArg (depth + 1) rest).1,
        (cprocParseACallMacroArg (depth + 1) rest).2) := by
  induction h generalizing depth rest with
  | nil => rfl
  | plain hopen hclose _ ih =>
    rw [List.cons_append, cprocParseACallMacroArg_plain hopen hclose fun _ ↦ Nat.succ_ne_zero depth,
      ih, List.cons_append]
  | group hopen hclose _ _ ihinner ih =>
    rw [List.cons_append, List.append_assoc, cprocParseACallMacroArg_open hopen, ihinner,
      List.cons_append, cprocParseACallMacroArg_close hclose, ih]
    simp only [List.cons_append, List.append_assoc]

theorem cprocParseACallMacroArg_argument (h : Argument arg) (rest : List Lexeme) :
    cprocParseACallMacroArg 0 (arg ++ rest) =
      (arg ++ (cprocParseACallMacroArg 0 rest).1, (cprocParseACallMacroArg 0 rest).2) := by
  induction h generalizing rest with
  | nil => rfl
  | plain hopen hclose hcomma _ ih =>
    rw [List.cons_append, cprocParseACallMacroArg_plain hopen hclose fun h ↦ absurd h hcomma, ih,
      List.cons_append]
  | group hopen hclose hinner _ ih =>
    rw [List.cons_append, List.append_assoc, cprocParseACallMacroArg_open hopen,
      cprocParseACallMacroArg_balanced hinner, List.cons_append,
      cprocParseACallMacroArg_close hclose, ih]
    simp only [List.cons_append, List.append_assoc]

/-- As many arguments are read as there are, and the lexemes behind the list are left. -/
theorem cprocParseArgs_eq (h : Arguments after args text) :
    cprocParseArgs args.length text = (args, after) := by
  induction h with
  | last harg hclose =>
    rw [List.length_singleton, cprocParseArgs, cprocParseACallMacroArg_argument harg,
      cprocParseACallMacroArg_end (.inl hclose), List.append_nil]
    rfl
  | cons harg hcomma _ ih =>
    rw [List.length_cons, cprocParseArgs, cprocParseACallMacroArg_argument harg,
      cprocParseACallMacroArg_end (.inr hcomma), List.append_nil]
    dsimp only
    rw [ih]

theorem dropWhile_spaces (hspaces : ∀ lexeme ∈ spaces, isWhitespace lexeme = true)
    (hrest : ∀ lexeme ∈ rest.head?, isWhitespace lexeme = false) :
    (spaces ++ rest).dropWhile isWhitespace = rest := by
  rw [List.dropWhile_append_of_pos hspaces]
  cases rest with
  | nil => rfl
  | cons lexeme rest =>
    rw [List.dropWhile_cons_of_neg]
    rw [hrest lexeme rfl]
    exact Bool.false_ne_true

theorem isWhitespace_of_type {type : LexemeType} (htype : lexeme.type = type)
    (hne : type ≠ .whitespace) : isWhitespace lexeme = false := by
  rw [isWhitespace, htype]
  exact decide_eq_false hne

theorem cprocParseMacroCallArgs_eq (hcall : Call spaces args after rest)
    (hlength : args.length = target.args.length) (hargs : target.args ≠ []) :
    cprocParseMacroCallArgs target ⟨rest, false⟩ = (args, ⟨after, false⟩) := by
  obtain ⟨opening, inner, text, rfl, hopen, hinner, htext, hlist⟩ := hcall.list
  have hopening := isWhitespace_of_type hopen nofun
  have hskip : cparseWhitespace ⟨spaces ++ opening :: (inner ++ text), false⟩ =
      ⟨opening :: (inner ++ text), false⟩ := by
    rw [cparseWhitespace, if_neg Bool.false_ne_true]
    dsimp only
    rw [dropWhile_spaces hcall.white]
    rintro _ ⟨⟩
    exact hopening
  have hinside : cparseSkipSeparator ⟨opening :: (inner ++ text), false⟩ .lparent =
      (true, ⟨text, false⟩) := by
    have hstay : cparseWhitespace ⟨opening :: (inner ++ text), false⟩ =
        ⟨opening :: (inner ++ text), false⟩ := by
      rw [cparseWhitespace, if_neg Bool.false_ne_true]
      dsimp only
      rw [List.dropWhile_cons_of_neg (by simp [hopening])]
    rw [cparseSkipSeparator, hstay, lexSkipType, lexCurr_cons, if_pos hopen]
    dsimp only
    rw [lexNext, cparseWhitespace, if_neg Bool.false_ne_true]
    dsimp only [List.tail_cons]
    rw [dropWhile_spaces hinner htext]
  have hnonempty : ¬ target.args.length = 0 := fun h ↦ hargs (List.length_eq_zero_iff.mp h)
  rw [cprocParseMacroCallArgs, hskip]
  dsimp only
  rw [lexCurr_cons, if_neg (not_or.mpr ⟨not_not.mpr hopen, hnonempty⟩), hinside]
  dsimp only
  rw [← hlength, cprocParseArgs_eq hlist]

/-- The argument at the place of a parameter is the one that is bound to it. -/
theorem lookup_zip {params : List (List UInt8)} (hlength : args.length = params.length)
    (str : List UInt8) :
    (params.zip args).lookup str = (params.findIdx? (· = str)).bind fun argId ↦ args[argId]? := by
  induction params generalizing args with
  | nil => rfl
  | cons param params ih =>
    cases args with
    | nil => cases hlength
    | cons arg args =>
      rw [List.zip_cons_cons, List.lookup_cons, List.findIdx?_cons]
      by_cases hstr : param = str
      · rw [hstr]
        simp
      · have hne : (str == param) = false := beq_eq_false_iff_ne.mpr fun h ↦ hstr h.symm
        rw [hne, decide_eq_false hstr, ih (Nat.succ_injective hlength)]
        cases params.findIdx? (· = str) with
        | none => rfl
        | some argId => rfl

theorem findIdx?_lt {params : List (List UInt8)} {str : List UInt8} {argId : ℕ}
    (h : params.findIdx? (· = str) = some argId) : argId < params.length :=
  (List.findIdx?_eq_some_iff_getElem.mp h).1

theorem replaceParams_cons (entry : Lexeme) (body out : List Lexeme) (ctx : CProc) :
    replaceParams expand binding (entry :: body) out ctx = (do
      let state ← replaceParams expand binding [entry] out ctx
      replaceParams expand binding body state.1 state.2) := by
  rw [replaceParams, replaceParams]
  cases if entry.type = .ident then binding.lookup entry.str else none with
  | none => rfl
  | some arg =>
    dsimp only
    cases expand out (lexFromLexeme arg) ctx with
    | error fault => rfl
    | ok state => rfl

theorem load_of_eq (h : vecCapacity ctx.macros.length = ptr.capacity) :
    ptr.load ctx = .ok ptr.target := if_pos h

theorem load_of_ne (h : vecCapacity ctx.macros.length ≠ ptr.capacity) :
    ptr.load ctx = .error .freed := if_neg h

/-- While the macros stay where they are, an entry of the body is replaced. -/
theorem cprocReplaceArg_eq (hlength : args.length = ptr.target.args.length)
    (hcapacity : vecCapacity ctx.macros.length = ptr.capacity) (out : List Lexeme)
    (entry : Lexeme) :
    cprocReplaceArg expand ptr args (out, ctx) entry =
      replaceParams expand (ptr.target.args.zip args) [entry] out ctx := by
  rw [replaceParams, cprocReplaceArg, load_of_eq hcapacity, ok_bind]
  by_cases hident : entry.type = .ident
  · rw [if_pos hident, if_pos hident, lookup_zip hlength]
    cases hfind : ptr.target.args.findIdx? (· = entry.str) with
    | none => rfl
    | some argId =>
      have hlt : argId < args.length := hlength ▸ findIdx?_lt hfind
      simp only [Option.bind_some, List.getElem?_eq_getElem hlt]
      cases expand out (lexFromLexeme args[argId]) ctx with
      | error fault => rfl
      | ok state => rfl
  · rw [if_neg hident, if_neg hident]
    rfl

theorem MacrosStay.capacity (h : MacrosStay expand binding body out ctx size) :
    vecCapacity ctx.macros.length = size :=
  h [] List.nil_prefix _ _ rfl

theorem MacrosStay.tail {state : List Lexeme × CProc}
    (h : MacrosStay expand binding (lexeme :: body) out ctx size)
    (hrun : replaceParams expand binding [lexeme] out ctx = .ok state) :
    MacrosStay expand binding body state.1 state.2 size := by
  intro front hfront out' ctx' hfinal
  refine h (lexeme :: front) (List.cons_prefix_cons.mpr ⟨rfl, hfront⟩) out' ctx' ?_
  rw [replaceParams_cons, hrun, ok_bind, hfinal]

theorem cprocReplaceArg_foldlM (hlength : args.length = ptr.target.args.length)
    (hstay : MacrosStay expand (ptr.target.args.zip args) body out ctx ptr.capacity) :
    body.foldlM (cprocReplaceArg expand ptr args) (out, ctx) =
      replaceParams expand (ptr.target.args.zip args) body out ctx := by
  induction body generalizing out ctx with
  | nil => rfl
  | cons entry body ih =>
    rw [List.foldlM_cons, replaceParams_cons, cprocReplaceArg_eq hlength hstay.capacity]
    cases hrun : replaceParams expand (ptr.target.args.zip args) [entry] out ctx with
    | error fault => rfl
    | ok state => exact ih (hstay.tail hrun)

/-- Behind the place where the macros move, the pointer is used once more. -/
theorem cprocReplaceArg_freed (hlength : args.length = ptr.target.args.length)
    {front : List Lexeme} {state : List Lexeme × CProc} (hfront : front <+: body)
    (hrun : replaceParams expand (ptr.target.args.zip args) front out ctx = .ok state)
    (hmoved : vecCapacity state.2.macros.length ≠ ptr.capacity) :
    body.foldlM (cprocReplaceArg expand ptr args) (out, ctx) = .error .freed ∨
      ∃ final, body.foldlM (cprocReplaceArg expand ptr args) (out, ctx) = .ok final ∧
        vecCapacity final.2.macros.length ≠ ptr.capacity := by
  induction body generalizing out ctx front with
  | nil =>
    cases List.prefix_nil.mp hfront
    cases hrun
    exact .inr ⟨_, rfl, hmoved⟩
  | cons entry body ih =>
    rw [List.foldlM_cons]
    by_cases hcapacity : vecCapacity ctx.macros.length = ptr.capacity
    · cases front with
      | nil =>
        cases hrun
        exact absurd hcapacity hmoved
      | cons first front =>
        obtain ⟨rfl, htail⟩ := List.cons_prefix_cons.mp hfront
        rw [replaceParams_cons] at hrun
        obtain ⟨next, hnext, hrun⟩ := bind_eq_ok.mp hrun
        rw [cprocReplaceArg_eq hlength hcapacity, hnext, ok_bind]
        exact ih htail hrun
    · rw [cprocReplaceArg, load_of_ne hcapacity]
      exact .inl rfl

/-- The lexeme behind a name, or behind one lexeme of white space there. -/
theorem cparsePeekSeparator_one (rest : List Lexeme) :
    cparsePeekSeparator ⟨rest, false⟩ 1 =
      if isWhitespace (lexPeek ⟨rest, false⟩ 0) then lexPeek ⟨rest, false⟩ 1
      else lexPeek ⟨rest, false⟩ 0 := by
  cases rest with
  | nil => rfl
  | cons lexeme rest =>
    rw [cparsePeekSeparator, cparsePeekFrom, cparsePeekFrom]
    by_cases hspace : isWhitespace lexeme = true
    · have hpeek : isWhitespace (lexPeek ⟨lexeme :: rest, false⟩ 0) = true := hspace
      rw [if_pos hpeek, if_pos (by rw [hpeek]; rfl)]
    · have hpeek : ¬ isWhitespace (lexPeek ⟨lexeme :: rest, false⟩ 0) = true := hspace
      rw [if_neg hpeek, if_neg (by simp [hspace])]

theorem followed_of_peek (h : (cparsePeekSeparator ⟨rest, false⟩ 1).type = .lparent) :
    Followed rest := by
  rw [cparsePeekSeparator_one] at h
  cases rest with
  | nil => cases h
  | cons lexeme rest =>
    rw [lexPeek_cons_zero] at h
    by_cases hspace : isWhitespace lexeme = true
    · rw [if_pos hspace] at h
      cases rest with
      | nil => cases h
      | cons second rest =>
        have hsecond : isWhitespace second = false := isWhitespace_of_type h nofun
        refine ⟨second, ?_, h⟩
        rw [List.dropWhile_cons_of_pos hspace, List.dropWhile_cons_of_neg (by simp [hsecond])]
        rfl
    · rw [if_neg hspace] at h
      refine ⟨lexeme, ?_, h⟩
      rw [List.dropWhile_cons_of_neg hspace]
      rfl

/-- The parenthesis is seen behind at most one lexeme of white space. -/
theorem peek_iff (hcall : Call spaces args after rest) :
    (cparsePeekSeparator ⟨rest, false⟩ 1).type = .lparent ↔ spaces.length ≤ 1 := by
  obtain ⟨opening, inner, text, rfl, hopen, -⟩ := hcall.list
  have hopening := isWhitespace_of_type hopen nofun
  have hspaces := hcall.white
  rw [cparsePeekSeparator_one]
  match spaces with
  | [] =>
    rw [if_neg (by simpa [lexPeek] using hopening)]
    exact iff_of_true hopen (Nat.zero_le 1)
  | [space] =>
    rw [List.cons_append, lexPeek_cons_zero, if_pos (hspaces space List.mem_cons_self)]
    exact iff_of_true hopen le_rfl
  | space :: second :: more =>
    rw [List.cons_append, lexPeek_cons_zero, if_pos (hspaces space List.mem_cons_self)]
    have hsecond : second.type = .whitespace :=
      of_decide_eq_true (hspaces second (List.mem_cons_of_mem _ List.mem_cons_self))
    refine iff_of_false ?_ (by simp)
    show ¬ second.type = .lparent
    rw [hsecond]
    nofun

section Names

variable (htarget : cprocMacroByName name.str ctx = some target)

include htarget

theorem cprocParseIdent_inside (hinside : cprocIsAlreadyInMacro ctx target.name = true) :
    cprocParseIdent expand out ⟨name :: rest, false⟩ ctx =
      .ok (out ++ [name], ⟨rest, false⟩, ctx) := by
  have hfind : cprocMacroByName (lexCurr ⟨name :: rest, false⟩).str ctx = some target := htarget
  rw [cprocParseIdent, hfind]
  dsimp only
  rw [if_pos hinside]
  rfl

/-- A name that no parenthesis was seen behind: the lexeme behind it is put out. -/
theorem cprocParseIdent_unseen (hinside : cprocIsAlreadyInMacro ctx target.name = false)
    (hargs : target.args ≠ [])
    (hpeek : (cparsePeekSeparator ⟨rest, false⟩ 1).type ≠ .lparent) :
    cprocParseIdent expand out ⟨name :: rest, false⟩ ctx =
      .ok (out ++ [lexCurr ⟨rest, false⟩], ⟨rest, false⟩, ctx) := by
  have hfind : cprocMacroByName (lexCurr ⟨name :: rest, false⟩).str ctx = some target := htarget
  have hnonempty : target.args.length ≠ 0 := fun h ↦ hargs (List.length_eq_zero_iff.mp h)
  rw [cprocParseIdent, hfind]
  dsimp only
  rw [hinside, if_neg Bool.false_ne_true]
  exact if_pos ⟨hpeek, hnonempty⟩

theorem cprocParseIdent_ofMacro (hinside : cprocIsAlreadyInMacro ctx target.name = false)
    (hargs : target.args ≠ []) (hcall : Call spaces args after rest)
    (hlength : args.length = target.args.length) (hspaces : spaces.length ≤ 1) :
    cprocParseIdent expand out ⟨name :: rest, false⟩ ctx = (do
      let (code, ctx') ← target.source.foldlM
        (cprocReplaceArg expand ⟨target, vecCapacity ctx.macros.length⟩ args) ([], ctx)
      let _ ← MacroPtr.load ⟨target, vecCapacity ctx.macros.length⟩ ctx'
      let (extended, ctx') ← cprocGenExtendedMacroCode expand target code ctx'
      let out ← cprocGenConcatenation .any out extended
      return (out, ⟨after, false⟩, ctx')) := by
  have hfind : cprocMacroByName (lexCurr ⟨name :: rest, false⟩).str ctx = some target := htarget
  have hpeek := (peek_iff hcall).mpr hspaces
  have hnext : lexNext ⟨name :: rest, false⟩ = ⟨rest, false⟩ := rfl
  have hload : MacroPtr.load ⟨target, vecCapacity ctx.macros.length⟩ ctx = .ok target :=
    @load_of_eq _ ⟨target, vecCapacity ctx.macros.length⟩ rfl
  rw [cprocParseIdent, hfind]
  dsimp only
  rw [hinside, if_neg Bool.false_ne_true, hnext, if_neg fun h ↦ h.1 hpeek, cprocGenMacro, hload,
    ok_bind, cprocParseMacroCallArgs_eq hcall hlength hargs]
  dsimp only
  rw [cprocGenMacroArgsReplacement]
  refine bind_congr fun state ↦ ?_
  by_cases hstay : vecCapacity state.2.macros.length = vecCapacity ctx.macros.length
  · rw [@load_of_eq _ ⟨target, vecCapacity ctx.macros.length⟩ hstay]
    rfl
  · rw [@load_of_ne _ ⟨target, vecCapacity ctx.macros.length⟩ hstay]
    rfl

theorem cprocParseIdent_called (hinside : cprocIsAlreadyInMacro ctx target.name = false)
    (hargs : target.args ≠ []) (hcall : Call spaces args after rest)
    (hlength : args.length = target.args.length) (hspaces : spaces.length ≤ 1)
    (hstay : MacrosStay expand (target.args.zip args) target.source [] ctx
      (vecCapacity ctx.macros.length)) :
    cprocParseIdent expand out ⟨name :: rest, false⟩ ctx =
      callOutcome expand out args after ctx target := by
  rw [cprocParseIdent_ofMacro htarget hinside hargs hcall hlength hspaces,
    @cprocReplaceArg_foldlM _ _ _ _ _ ⟨target, vecCapacity ctx.macros.length⟩ hlength hstay,
    callOutcome]
  cases hrun : replaceParams expand (target.args.zip args) target.source [] ctx with
  | error fault => rfl
  | ok state =>
    have hcapacity := hstay target.source (List.prefix_refl _) state.1 state.2 hrun
    rw [ok_bind, ok_bind]
    dsimp only
    rw [@load_of_eq _ ⟨target, vecCapacity ctx.macros.length⟩ hcapacity, ok_bind]

/-- When an argument moves the macros, the call goes on with the old pointer. -/
theorem cprocParseIdent_freed (hinside : cprocIsAlreadyInMacro ctx target.name = false)
    (hargs : target.args ≠ []) (hcall : Call spaces args after rest)
    (hlength : args.length = target.args.length) (hspaces : spaces.length ≤ 1)
    (hmoved : ¬ MacrosStay expand (target.args.zip args) target.source [] ctx
      (vecCapacity ctx.macros.length)) :
    cprocParseIdent expand out ⟨name :: rest, false⟩ ctx = .error .freed := by
  rw [MacrosStay] at hmoved
  push Not at hmoved
  obtain ⟨front, hfront, out', ctx', hrun, hne⟩ := hmoved
  rw [cprocParseIdent_ofMacro htarget hinside hargs hcall hlength hspaces]
  rcases @cprocReplaceArg_freed _ _ _ _ _ ⟨target, vecCapacity ctx.macros.length⟩ hlength _
    (out', ctx') hfront hrun hne with hfreed | ⟨final, hfinal, hgone⟩
  · rw [hfreed]
    rfl
  · rw [hfinal, ok_bind]
    dsimp only
    rw [load_of_ne hgone]
    rfl

end Names

theorem lexCurr_eq_iff {type : LexemeType} (hname : name.type = type) (hne : type ≠ .eof) :
    lexCurr ⟨rest, false⟩ = name ↔ rest.head? = some name := by
  cases rest with
  | nil =>
    refine iff_of_false (fun h ↦ hne ?_) nofun
    rw [← hname, ← h]
    rfl
  | cons lexeme rest => exact Option.some_inj.symm

/-- What is left behind a call is shorter than what is left behind its name. -/
theorem Call.ne (h : Call spaces args after rest) : rest ≠ after := by
  have hlist : ∀ {args text}, Arguments after args text → after.length < text.length := by
    intro args text hargs
    induction hargs with
    | last => simp only [List.length_append, List.length_cons]; omega
    | cons _ _ _ ih => simp only [List.length_append, List.length_cons]; omega
  obtain ⟨opening, inner, text, hrest, -, -, -, hargs⟩ := h.list
  have hlt := hlist hargs
  intro hsame
  have hlength := congrArg List.length (hsame.symm.trans hrest)
  simp only [List.length_append, List.length_cons] at hlength
  omega

/-- What a call comes to leaves less than there is behind the name. -/
theorem callOutcome_ne (h : Call spaces args after rest) {out' : List Lexeme} {ctx' : CProc} :
    callOutcome expand out args after ctx target ≠ .ok (out', ⟨rest, false⟩, ctx') := by
  intro hrun
  rw [callOutcome] at hrun
  obtain ⟨⟨code, ctx'⟩, -, hrun⟩ := bind_eq_ok.mp hrun
  obtain ⟨⟨extended, ctx''⟩, -, hrun⟩ := bind_eq_ok.mp hrun
  obtain ⟨out', -, hrun⟩ := bind_eq_ok.mp hrun
  have hlex := congrArg (fun result ↦ result.2.1.rest) (Except.ok.inj hrun)
  exact h.ne hlex.symm

end Brutal.Cc
