import Brutal.Cc.Lexer

/-!
# The preprocessor of C

`libs/cc/lex/pproc.c`, with what it uses of `libs/brutal-parse/lex.c` and `libs/cc/parse/misc.c`.
What is left of a list of lexemes is its tail from the head on.  `cproc_lex` calls itself for the
arguments and for the body of a macro: `cprocLex depth` is what it does when the calls are at most
that deep in each other, and stops with a fault where they are deeper.  There is no limit on the
length of a string or of a list here, other than where lexemes are put together: what this does is
also given with the sizes of the program.
-/

namespace Brutal.Cc

open Base Ds.Growth Lib Text

/-- `Lex`, from its head on. -/
structure Lex where
  rest : List Lexeme
  hasError : Bool
deriving DecidableEq, Repr

/-- `lex_from_lexeme` -/
def lexFromLexeme (lexemes : List Lexeme) : Lex := ⟨lexemes, false⟩

/-- `lex_ended` -/
def lexEnded (self : Lex) : Bool := self.hasError || self.rest.isEmpty

/-- `lex_peek` -/
def lexPeek (self : Lex) (offset : ℕ) : Lexeme :=
  if self.hasError then ⟨.eof, []⟩ else self.rest[offset]?.getD ⟨.eof, []⟩

/-- `lex_curr` -/
def lexCurr (self : Lex) : Lexeme := lexPeek self 0

@[simp] theorem lexPeek_cons_zero (lexeme : Lexeme) (rest : List Lexeme) :
    lexPeek ⟨lexeme :: rest, false⟩ 0 = lexeme := rfl

@[simp] theorem lexCurr_cons (lexeme : Lexeme) (rest : List Lexeme) :
    lexCurr ⟨lexeme :: rest, false⟩ = lexeme := rfl

/-- `lex_next`, which moves the head also behind the end. -/
def lexNext (self : Lex) : Lex := { self with rest := self.rest.tail }

/-- `lex_skip_type` -/
def lexSkipType (self : Lex) (type : LexemeType) : Bool × Lex :=
  if (lexCurr self).type = type then (true, lexNext self) else (false, self)

/-- `lex_throw` -/
def lexThrow (self : Lex) : Lex := { self with hasError := true }

/-- Whether a lexeme is white space. -/
def isWhitespace (lexeme : Lexeme) : Bool := lexeme.type = .whitespace

/-- `cparse_whitespace` -/
def cparseWhitespace (lex : Lex) : Lex :=
  if lex.hasError then lex else { lex with rest := lex.rest.dropWhile isWhitespace }

/-- `cparse_skip_separator` -/
def cparseSkipSeparator (lex : Lex) (type : LexemeType) : Bool × Lex :=
  let (result, lex) := lexSkipType (cparseWhitespace lex) type
  (result, cparseWhitespace lex)

/-- The loop of `cparse_peek_separator`, with the turns that it has left. -/
def cparsePeekFrom (lex : Lex) : ℕ → ℕ → Lexeme
  | 0, off => lexPeek lex off
  | turns + 1, off =>
    if isWhitespace (lexPeek lex off) && !lexEnded lex then cparsePeekFrom lex turns (off + 1)
    else lexPeek lex off

/-- `cparse_peek_separator`, for an offset that is not negative. -/
def cparsePeekSeparator (lex : Lex) (offset : ℕ) : Lexeme := cparsePeekFrom lex offset 0

/-- `CProcMacro` -/
structure CProcMacro where
  name : List UInt8
  source : List Lexeme
  args : List (List UInt8)
deriving DecidableEq, Repr

/-- The macros of a `CProc`, and the names of those that it is inside of. -/
structure CProc where
  macros : List CProcMacro
  insideMacro : List (List UInt8)
deriving DecidableEq, Repr

/-- `cproc_macro_code` -/
def cprocMacroCode (target : CProcMacro) (source : Lex) : CProcMacro × Lex :=
  if source.hasError then (target, source)
  else
    ({ target with source := target.source ++ source.rest.takeWhile (·.type != .newline) },
      { source with rest := source.rest.dropWhile (·.type != .newline) })

/-- The loop of `cproc_parse_define` over the parameters, which returns nothing when it throws. -/
def cprocParseParams : ℕ → CProcMacro → Lex → Except Fault (Option CProcMacro × Lex)
  | 0, _, _ => .error .depth
  | turns + 1, target, source =>
    let (closed, source) := cparseSkipSeparator source .rparent
    if closed || lexEnded source then .ok (some target, source)
    else if (lexCurr source).type ≠ .ident then .ok (none, lexThrow source)
    else
      let target := { target with args := target.args ++ [(lexCurr source).str] }
      let (_, source) := cparseSkipSeparator source .ident
      let (_, source) := cparseSkipSeparator source .comma
      cprocParseParams turns target source

/-- `cproc_parse_define` -/
def cprocParseDefine (source : Lex) (ctx : CProc) : Except Fault (Lex × CProc) := do
  let (_, source) := cparseSkipSeparator source .ident
  let target : CProcMacro := ⟨(lexCurr source).str, [], []⟩
  let source := lexNext source
  let (called, source) := cparseSkipSeparator source .lparent
  let (result, source) ←
    if called then cprocParseParams (source.rest.length + 1) target source
    else pure (some target, source)
  match result with
  | none => return (source, ctx)
  | some target =>
    let (target, source) := cprocMacroCode target source
    return (source, { ctx with macros := ctx.macros ++ [target] })

/-- The name of the directive that defines a macro. -/
def defineName : List UInt8 := ascii ['d', 'e', 'f', 'i', 'n', 'e']

/-- `cproc_parse_directive` -/
def cprocParseDirective (source : Lex) (ctx : CProc) : Except Fault (Lex × CProc) :=
  let (_, source) := lexSkipType source .whitespace
  if (lexCurr source).type = .newline then .ok (source, ctx)
  else
    let source := if (lexCurr source).type ≠ .ident then lexThrow source else source
    if (lexCurr source).str = defineName then cprocParseDefine source ctx
    else .ok (lexThrow source, ctx)

/-- `cproc_macro_by_name` -/
def cprocMacroByName (name : List UInt8) (ctx : CProc) : Option CProcMacro :=
  ctx.macros.find? (·.name = name)

/-- `cproc_is_already_in_macro` -/
def cprocIsAlreadyInMacro (ctx : CProc) (name : List UInt8) : Bool :=
  ctx.insideMacro.contains name

/-- The loop of `cproc_parse_a_call_macro_arg`: the argument, and what is left behind its end. -/
def cprocParseACallMacroArg : ℕ → List Lexeme → List Lexeme × List Lexeme
  | _, [] => ([], [])
  | depth, lexeme :: rest =>
    if lexeme.type = .lparent then
      let (arg, rest) := cprocParseACallMacroArg (depth + 1) rest
      (lexeme :: arg, rest)
    else if lexeme.type = .rparent then
      if depth = 0 then ([], rest)
      else
        let (arg, rest) := cprocParseACallMacroArg (depth - 1) rest
        (lexeme :: arg, rest)
    else if lexeme.type = .comma ∧ depth = 0 then ([], rest)
    else
      let (arg, rest) := cprocParseACallMacroArg depth rest
      (lexeme :: arg, rest)

/-- The loop of `cproc_parse_macro_call_args`, with an argument for each parameter. -/
def cprocParseArgs : ℕ → List Lexeme → List (List Lexeme) × List Lexeme
  | 0, rest => ([], rest)
  | params + 1, rest =>
    let (arg, rest) := cprocParseACallMacroArg 0 rest
    let (args, rest) := cprocParseArgs params rest
    (arg :: args, rest)

/-- `cproc_parse_macro_call_args` -/
def cprocParseMacroCallArgs (target : CProcMacro) (source : Lex) : List (List Lexeme) × Lex :=
  let source := cparseWhitespace source
  if (lexCurr source).type ≠ .lparent ∨ target.args.length = 0 then ([], source)
  else
    let (_, source) := cparseSkipSeparator source .lparent
    let (values, rest) := cprocParseArgs target.args.length source.rest
    (values, { source with rest := rest })

/-- `cproc_remove_last_non_space_keyword`, for a list from its end on. -/
def removeLastNonSpace : List Lexeme → Except Fault (List Lexeme)
  | [] => .error .outOfBounds
  | last :: before => if isWhitespace last then removeLastNonSpace before else .ok before

/-- `cproc_remove_last_non_space_keyword` -/
def cprocRemoveLastNonSpaceKeyword (lexemes : List Lexeme) : Except Fault (List Lexeme) :=
  List.reverse <$> removeLastNonSpace lexemes.reverse

/-- `scan_init` of what is put together. -/
def cprocScanInit : Sizes → List UInt8 → Except Fault Scan
  | .int, text => scanInit text
  | .any, text => .ok ⟨text, false⟩

section Concatenation

variable (sizes : Sizes)

/-- The lexeme that two others are put together to. -/
def cprocPaste (lhs rhs : Lexeme) : Except Fault Lexeme := do
  let scan ← cprocScanInit sizes (lhs.str ++ rhs.str)
  let (lexemes, _) ← clex scan
  if lexemes.length > 1 then .error .panic
  match lexemes with
  | [] => .error .outOfBounds
  | lexeme :: _ => return lexeme

/-- The loop of `cproc_gen_concatenation`. -/
def cprocConcatenate (lhs : Lexeme) (concatenating : Bool) (out : List Lexeme) :
    List Lexeme → Except Fault (List Lexeme)
  | [] => .ok out
  | lexeme :: rest =>
    if isWhitespace lexeme then
      cprocConcatenate lhs concatenating (sizes.push lexemeSize out lexeme) rest
    else if lexeme.type = .doublePound then cprocConcatenate lhs true out rest
    else if concatenating then do
      if lhs.type = .none then .error .panic
      let out ← cprocRemoveLastNonSpaceKeyword out
      let final ← cprocPaste sizes lhs lexeme
      cprocConcatenate lhs false (sizes.push lexemeSize out final) rest
    else cprocConcatenate lexeme false (sizes.push lexemeSize out lexeme) rest

/-- `cproc_gen_concatenation` -/
def cprocGenConcatenation (out source : List Lexeme) : Except Fault (List Lexeme) :=
  cprocConcatenate sizes ⟨.none, []⟩ false out source

end Concatenation

/-- A `CProcMacro *` into the vector of the macros: what it points to, and the capacity that the
vector has. -/
structure MacroPtr where
  target : CProcMacro
  capacity : ℕ

/-- What a pointer points to, which is gone when the vector has grown. -/
def MacroPtr.load (ptr : MacroPtr) (ctx : CProc) : Except Fault CProcMacro :=
  if vecCapacity ctx.macros.length = ptr.capacity then .ok ptr.target else .error .freed

/-- What a call of `cproc_lex` for a part of a macro does: it puts lexemes behind those that there
are, and may define macros. -/
abbrev Expand := List Lexeme → Lex → CProc → Except Fault (List Lexeme × CProc)

section Expansion

variable (expand : Expand)

/-- One turn of `cproc_gen_macro_args_replacement`. -/
def cprocReplaceArg (ptr : MacroPtr) (values : List (List Lexeme))
    (state : List Lexeme × CProc) (entry : Lexeme) : Except Fault (List Lexeme × CProc) := do
  let target ← ptr.load state.2
  match if entry.type = .ident then target.args.findIdx? (· = entry.str) else none with
  | none => return (state.1 ++ [entry], state.2)
  | some argId =>
    match values[argId]? with
    | none => .error .outOfBounds
    | some value => expand state.1 (lexFromLexeme value) state.2

/-- `cproc_gen_macro_args_replacement` -/
def cprocGenMacroArgsReplacement (ptr : MacroPtr) (values : List (List Lexeme))
    (source : List Lexeme) (ctx : CProc) : Except Fault (List Lexeme × CProc) :=
  source.foldlM (cprocReplaceArg expand ptr values) ([], ctx)

/-- `cproc_gen_extended_macro_code` -/
def cprocGenExtendedMacroCode (target : CProcMacro) (code : List Lexeme) (ctx : CProc) :
    Except Fault (List Lexeme × CProc) := do
  let inside := { ctx with insideMacro := ctx.insideMacro ++ [target.name] }
  let (output, ctx) ← expand [] (lexFromLexeme code) inside
  return (output, { ctx with insideMacro := ctx.insideMacro.dropLast })

/-- `cproc_gen_macro`, which goes back to the macro behind the expansion of its arguments. -/
def cprocGenMacro (out : List Lexeme) (source : Lex) (ctx : CProc) (ptr : MacroPtr) :
    Except Fault (List Lexeme × Lex × CProc) := do
  let target ← ptr.load ctx
  let (values, source) := cprocParseMacroCallArgs target source
  let (code, ctx) ← cprocGenMacroArgsReplacement expand ptr values target.source ctx
  let target ← ptr.load ctx
  let (extended, ctx) ← cprocGenExtendedMacroCode expand target code ctx
  let out ← cprocGenConcatenation .any out extended
  return (out, source, ctx)

/-- `cproc_parse_ident` -/
def cprocParseIdent (out : List Lexeme) (source : Lex) (ctx : CProc) :
    Except Fault (List Lexeme × Lex × CProc) :=
  match cprocMacroByName (lexCurr source).str ctx with
  | none => .ok (out ++ [lexCurr source], lexNext source, ctx)
  | some target =>
    if cprocIsAlreadyInMacro ctx target.name then
      .ok (out ++ [lexCurr source], lexNext source, ctx)
    else
      let source := lexNext source
      if (cparsePeekSeparator source 1).type ≠ .lparent ∧ target.args.length ≠ 0 then
        .ok (out ++ [lexCurr source], source, ctx)
      else cprocGenMacro expand out source ctx ⟨target, vecCapacity ctx.macros.length⟩

/-- The loop of `cproc_lex`, given what it does for a directive. -/
def cprocLexLoop (directive : Lex → CProc → Except Fault (Lex × CProc)) :
    ℕ → Bool → List Lexeme → Lex → CProc → Except Fault (List Lexeme × Lex × CProc)
  | 0, _, _, _, _ => .error .depth
  | turns + 1, canBeDirective, result, source, ctx =>
    if lexEnded source then .ok (result, source, ctx)
    else
      match (lexCurr source).type with
      | .comment => cprocLexLoop directive turns canBeDirective result (lexNext source) ctx
      | .newline => cprocLexLoop directive turns true result (lexNext source) ctx
      | .pound =>
        if canBeDirective then do
          let (source, ctx) ← directive (lexNext source) ctx
          cprocLexLoop directive turns false result source ctx
        else cprocLexLoop directive turns canBeDirective result (lexThrow source) ctx
      | _ => do
        let (result, source, ctx) ← cprocParseIdent expand result source ctx
        cprocLexLoop directive turns false result source ctx

/-- A call of `cproc_lex`, which has more turns than there are lexemes. -/
def cprocLexCall (directive : Lex → CProc → Except Fault (Lex × CProc)) (result : List Lexeme)
    (source : Lex) (ctx : CProc) : Except Fault (List Lexeme × Lex × CProc) :=
  cprocLexLoop expand directive (source.rest.length + 1) true result source ctx

end Expansion

/-- The calls of `cproc_lex` for the parts of macros, which are at most so deep in each other. -/
def cprocExpand (directive : Lex → CProc → Except Fault (Lex × CProc)) : ℕ → Expand
  | 0, _, _, _ => .error .depth
  | depth + 1, result, source, ctx => do
    let (result, _, ctx) ← cprocLexCall (cprocExpand directive depth) directive result source ctx
    return (result, ctx)

/-- `cproc_lex` -/
def cprocLex (depth : ℕ) (result : List Lexeme) (source : Lex) (ctx : CProc) :
    Except Fault (List Lexeme × Lex × CProc) :=
  cprocLexCall (cprocExpand cprocParseDirective depth) cprocParseDirective result source ctx

end Brutal.Cc
