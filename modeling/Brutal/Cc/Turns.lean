import Brutal.Cc.Lossless
import Brutal.Cc.Preprocessor

/-!
# The turns of the preprocessor

Every turn of `cproc_lex` goes past a lexeme or stops, so that a call has as many turns as it needs.
What it does in a turn depends on the calls in it only where it expands a macro, and no call changes
which macros it is inside of.
-/

namespace Brutal.Cc

open Base Ds.Growth Lib Text

variable {source source' next : Lex} {ctx ctx' : CProc} {type : LexemeType} {turns : ℕ}
  {result out code rest : List Lexeme} {target : CProcMacro} {ptr : MacroPtr} {lexeme : Lexeme}
  {directive : Lex → CProc → Except Fault (Lex × CProc)} {expand : Expand}

/-- How many lexemes are left until the end, or none behind an error. -/
def lexLeft (source : Lex) : ℕ := if source.hasError then 0 else source.rest.length

theorem lexEnded_iff : lexEnded source = true ↔ lexLeft source = 0 := by
  rw [lexEnded, lexLeft]
  cases source.hasError with
  | true => simp
  | false => simp

theorem lexLeft_le_length (source : Lex) : lexLeft source ≤ source.rest.length := by
  rw [lexLeft]
  split
  · exact Nat.zero_le _
  · exact le_rfl

@[simp] theorem lexLeft_throw (source : Lex) : lexLeft (lexThrow source) = 0 := rfl

theorem lexLeft_next (source : Lex) : lexLeft (lexNext source) = lexLeft source - 1 := by
  rw [lexLeft, lexLeft, lexNext]
  dsimp only
  split
  · rfl
  · exact List.length_tail

theorem lexLeft_whitespace_le (source : Lex) :
    lexLeft (cparseWhitespace source) ≤ lexLeft source := by
  rw [cparseWhitespace]
  cases herror : source.hasError with
  | true => rw [if_pos rfl]
  | false =>
    rw [if_neg Bool.false_ne_true, lexLeft, lexLeft, herror]
    exact (List.dropWhile_suffix _).length_le

theorem lexLeft_skipType_le (source : Lex) (type : LexemeType) :
    lexLeft (lexSkipType source type).2 ≤ lexLeft source := by
  rw [lexSkipType]
  split
  · rw [lexLeft_next]
    exact Nat.sub_le _ _
  · exact le_rfl

theorem lexLeft_skipSeparator_le (source : Lex) (type : LexemeType) :
    lexLeft (cparseSkipSeparator source type).2 ≤ lexLeft source := by
  rw [cparseSkipSeparator]
  exact (lexLeft_whitespace_le _).trans
    ((lexLeft_skipType_le _ _).trans (lexLeft_whitespace_le source))

/-- Where there is a lexeme, there is no error. -/
theorem lexCurr_eq (h : (lexCurr source).type ≠ .eof) :
    ∃ rest, source = ⟨lexCurr source :: rest, false⟩ := by
  obtain ⟨rest, hasError⟩ := source
  cases hasError with
  | true => exact absurd rfl h
  | false =>
    cases rest with
    | nil => exact absurd rfl h
    | cons lexeme rest => exact ⟨rest, rfl⟩

theorem lexLeft_skipSeparator_lt (h : (lexCurr source).type = type) (heof : type ≠ .eof)
    (hspace : type ≠ .whitespace) :
    lexLeft (cparseSkipSeparator source type).2 < lexLeft source := by
  obtain ⟨rest, hsource⟩ := lexCurr_eq (h ▸ heof)
  have hstay : cparseWhitespace source = source := by
    rw [hsource, cparseWhitespace, if_neg Bool.false_ne_true]
    dsimp only
    rw [List.dropWhile_cons_of_neg]
    rw [isWhitespace, h, decide_eq_false hspace]
    exact Bool.false_ne_true
  rw [cparseSkipSeparator, hstay, lexSkipType, if_pos h]
  have hpos : 0 < lexLeft source := by
    rw [hsource]
    exact Nat.succ_pos _
  calc
    lexLeft (cparseWhitespace (lexNext source)) ≤ lexLeft (lexNext source) :=
      lexLeft_whitespace_le _
    _ = lexLeft source - 1 := lexLeft_next source
    _ < lexLeft source := Nat.sub_lt hpos Nat.one_pos

/-- The parameters of a macro are read. -/
theorem cprocParseParams_eq_ok (h : lexLeft source < turns) (target : CProcMacro) :
    ∃ result source', cprocParseParams turns target source = .ok (result, source') ∧
      lexLeft source' ≤ lexLeft source := by
  induction turns generalizing source target with
  | zero => exact absurd h (Nat.not_lt_zero _)
  | succ turns ih =>
    have hclosed := lexLeft_skipSeparator_le source .rparent
    rw [cprocParseParams]
    generalize cparseSkipSeparator source .rparent = skipped at hclosed
    obtain ⟨closed, next⟩ := skipped
    dsimp only at hclosed ⊢
    split
    · exact ⟨_, _, rfl, hclosed⟩
    · split
      · exact ⟨_, _, rfl, Nat.zero_le _⟩
      · have hident : (lexCurr next).type = .ident := not_not.mp ‹_›
        have hlt := lexLeft_skipSeparator_lt hident nofun nofun
        have hle := lexLeft_skipSeparator_le (cparseSkipSeparator next .ident).2 .comma
        obtain ⟨result, source', hrun, hsource'⟩ := @ih
          (cparseSkipSeparator (cparseSkipSeparator next .ident).2 .comma).2 (by omega)
          { target with args := target.args ++ [(lexCurr next).str] }
        exact ⟨result, source', hrun, by omega⟩

theorem lexLeft_macroCode_le (target : CProcMacro) (source : Lex) :
    lexLeft (cprocMacroCode target source).2 ≤ lexLeft source := by
  rw [cprocMacroCode]
  cases herror : source.hasError with
  | true => rw [if_pos rfl]
  | false =>
    rw [if_neg Bool.false_ne_true, lexLeft, lexLeft, herror]
    exact (List.dropWhile_suffix _).length_le

/-- What a directive leaves of the source, and of the macros that it is inside of. -/
structure Directed (source : Lex) (ctx : CProc) (final : Lex × CProc) : Prop where
  left : lexLeft final.1 ≤ lexLeft source
  inside : final.2.insideMacro = ctx.insideMacro

theorem cprocParseDefine_eq_ok (source : Lex) (ctx : CProc) :
    ∃ final, cprocParseDefine source ctx = .ok final ∧ Directed source ctx final := by
  have hdefine := lexLeft_skipSeparator_le source .ident
  rw [cprocParseDefine]
  generalize cparseSkipSeparator source .ident = skipped at hdefine
  obtain ⟨_, named⟩ := skipped
  have hnext := lexLeft_next named
  have hopen := lexLeft_skipSeparator_le (lexNext named) .lparent
  dsimp only at hdefine ⊢
  generalize cparseSkipSeparator (lexNext named) .lparent = opened at hopen
  obtain ⟨called, params⟩ := opened
  dsimp only at hopen ⊢
  have hbody : ∀ result source', lexLeft source' ≤ lexLeft params → ∃ final,
      (match result with
        | none => (pure (source', ctx) : Except Fault (Lex × CProc))
        | some target => pure ((cprocMacroCode target source').2,
          { ctx with macros := ctx.macros ++ [(cprocMacroCode target source').1] })) = .ok final ∧
      Directed source ctx final := by
    intro result source' hleft
    have hsource' : lexLeft source' ≤ lexLeft source := by omega
    cases result with
    | none => exact ⟨_, rfl, hsource', rfl⟩
    | some target => exact ⟨_, rfl, (lexLeft_macroCode_le target source').trans hsource', rfl⟩
  cases called with
  | true =>
    obtain ⟨result, source', hrun, hleft⟩ := cprocParseParams_eq_ok
      (Nat.lt_succ_of_le (lexLeft_le_length params)) ⟨(lexCurr named).str, [], []⟩
    rw [if_pos rfl, hrun, ok_bind]
    exact hbody result source' hleft
  | false => exact hbody (some ⟨(lexCurr named).str, [], []⟩) params le_rfl

theorem cprocParseDirective_eq_ok (source : Lex) (ctx : CProc) :
    ∃ final, cprocParseDirective source ctx = .ok final ∧ Directed source ctx final := by
  have hskip := lexLeft_skipType_le source .whitespace
  rw [cprocParseDirective]
  generalize lexSkipType source .whitespace = skipped at hskip
  obtain ⟨_, next⟩ := skipped
  dsimp only at hskip ⊢
  split
  · exact ⟨_, rfl, hskip, rfl⟩
  · split
    · exact ⟨_, rfl, Nat.zero_le _, rfl⟩
    · split
      · obtain ⟨final, hrun, hleft, hinside⟩ := cprocParseDefine_eq_ok next ctx
        exact ⟨final, hrun, hleft.trans hskip, hinside⟩
      · exact ⟨_, rfl, Nat.zero_le _, rfl⟩

theorem removeLastNonSpace_ne_depth (lexemes : List Lexeme) :
    removeLastNonSpace lexemes ≠ .error .depth := by
  induction lexemes with
  | nil => nofun
  | cons last before ih =>
    rw [removeLastNonSpace]
    split
    · exact ih
    · nofun

theorem cprocPaste_ne_depth (lhs rhs : Lexeme) : cprocPaste .any lhs rhs ≠ .error .depth := by
  obtain ⟨lexemes, hasError, -, hrun⟩ := clex_cuts (lhs.str ++ rhs.str)
  rw [cprocPaste, cprocScanInit, ok_bind, hrun, ok_bind]
  dsimp only
  split
  · nofun
  · cases lexemes with
    | nil => nofun
    | cons lexeme lexemes => nofun

theorem cprocConcatenate_ne_depth (lhs : Lexeme) (concatenating : Bool) (out source : List Lexeme) :
    cprocConcatenate .any lhs concatenating out source ≠ .error .depth := by
  induction source generalizing lhs concatenating out with
  | nil => nofun
  | cons lexeme rest ih =>
    rw [cprocConcatenate]
    split
    · exact ih _ _ _
    · split
      · exact ih _ _ _
      · split
        · split
          · nofun
          · intro h
            rcases bind_eq_error.mp h with h | ⟨removed, -, h⟩
            · rw [cprocRemoveLastNonSpaceKeyword] at h
              have hne := removeLastNonSpace_ne_depth out.reverse
              cases hremove : removeLastNonSpace out.reverse with
              | error fault =>
                rw [hremove] at h hne
                exact hne h
              | ok removed =>
                rw [hremove] at h
                cases h
            · rcases bind_eq_error.mp h with h | ⟨final, -, h⟩
              · exact cprocPaste_ne_depth _ _ h
              · exact ih _ _ _ h
        · exact ih _ _ _

theorem cprocParseACallMacroArg_length (depth : ℕ) (rest : List Lexeme) :
    (cprocParseACallMacroArg depth rest).1.length + (cprocParseACallMacroArg depth rest).2.length ≤
      rest.length := by
  induction rest generalizing depth with
  | nil => exact le_rfl
  | cons lexeme rest ih =>
    have hup := ih (depth + 1)
    have hdown := ih (depth - 1)
    have hsame := ih depth
    rw [cprocParseACallMacroArg]
    split_ifs <;> simp only [List.length_cons, List.length_nil] <;> omega

theorem cprocParseArgs_length (params : ℕ) (rest : List Lexeme) :
    (∀ value ∈ (cprocParseArgs params rest).1, value.length ≤ rest.length) ∧
      (cprocParseArgs params rest).2.length ≤ rest.length := by
  induction params generalizing rest with
  | zero => exact ⟨nofun, le_rfl⟩
  | succ params ih =>
    have harg := cprocParseACallMacroArg_length 0 rest
    obtain ⟨hvalues, hrest⟩ := ih (cprocParseACallMacroArg 0 rest).2
    rw [cprocParseArgs]
    refine ⟨fun value hvalue ↦ ?_, by dsimp only; omega⟩
    rcases List.mem_cons.mp hvalue with rfl | hvalue
    · omega
    · exact (hvalues value hvalue).trans (by omega)

theorem cparseSkipSeparator_hasError (source : Lex) (type : LexemeType) :
    (cparseSkipSeparator source type).2.hasError = source.hasError := by
  have hspace : ∀ source, (cparseWhitespace source).hasError = source.hasError := by
    intro source
    rw [cparseWhitespace]
    split
    · rfl
    · rfl
  have hskip : (lexSkipType (cparseWhitespace source) type).2.hasError = source.hasError := by
    rw [lexSkipType]
    split
    · exact hspace source
    · exact hspace source
  rw [cparseSkipSeparator]
  exact (hspace _).trans hskip

/-- Every argument is shorter than what was left in front of the call. -/
theorem cprocParseMacroCallArgs_left (target : CProcMacro) (source : Lex) :
    (∀ value ∈ (cprocParseMacroCallArgs target source).1, value.length ≤ lexLeft source) ∧
      lexLeft (cprocParseMacroCallArgs target source).2 ≤ lexLeft source := by
  have hspace := lexLeft_whitespace_le source
  rw [cprocParseMacroCallArgs]
  generalize cparseWhitespace source = next at hspace ⊢
  dsimp only
  split
  · exact ⟨nofun, hspace⟩
  · rename_i hopen
    rw [not_or, not_not] at hopen
    have hopening := lexLeft_skipSeparator_le next .lparent
    obtain ⟨rest, hnext⟩ := lexCurr_eq (show (lexCurr next).type ≠ .eof by rw [hopen.1]; nofun)
    have herror : next.hasError = false := by rw [hnext]
    have hskipped := (cparseSkipSeparator_hasError next .lparent).trans herror
    generalize cparseSkipSeparator next .lparent = skipped at hopening hskipped
    obtain ⟨_, text⟩ := skipped
    dsimp only at hopening hskipped ⊢
    obtain ⟨hvalues, hrest⟩ := cprocParseArgs_length target.args.length text.rest
    have hleft : lexLeft text = text.rest.length := by
      rw [lexLeft, hskipped, if_neg Bool.false_ne_true]
    refine ⟨fun value hvalue ↦ (hvalues value hvalue).trans (by omega), ?_⟩
    exact (lexLeft_le_length _).trans (hrest.trans (by omega))

/-- A name is put out, or a macro is expanded that is not being expanded already. -/
theorem cprocParseIdent_cases (source : Lex) (ctx : CProc) :
    (∃ lexeme, ∀ expand out,
      cprocParseIdent expand out source ctx = .ok (out ++ [lexeme], lexNext source, ctx)) ∨
    ∃ target ∈ ctx.macros, target.name ∉ ctx.insideMacro ∧ ∀ expand out,
      cprocParseIdent expand out source ctx =
        cprocGenMacro expand out (lexNext source) ctx
          ⟨target, vecCapacity ctx.macros.length⟩ := by
  simp only [cprocParseIdent]
  cases hfind : cprocMacroByName (lexCurr source).str ctx with
  | none => exact .inl ⟨_, fun _ _ ↦ rfl⟩
  | some target =>
    dsimp only
    by_cases hinside : cprocIsAlreadyInMacro ctx target.name = true
    · exact .inl ⟨_, fun _ _ ↦ if_pos hinside⟩
    · simp only [if_neg hinside]
      split
      · exact .inl ⟨_, fun _ _ ↦ rfl⟩
      · refine .inr ⟨target, List.mem_of_find?_eq_some hfind, ?_, fun _ _ ↦ rfl⟩
        rwa [cprocIsAlreadyInMacro, List.contains_iff_mem] at hinside

/-- What a turn of `cproc_lex` does, whatever the calls in it and the directives do. -/
inductive LoopTurn (canBeDirective : Bool) (source : Lex) (ctx : CProc) : Prop where
  | ended (hrun : ∀ expand directive turns result,
      cprocLexLoop expand directive (turns + 1) canBeDirective result source ctx =
        .ok (result, source, ctx))
  | skip {next : Lex} {can : Bool} (hleft : lexLeft next < lexLeft source)
    (hrun : ∀ expand directive turns result,
      cprocLexLoop expand directive (turns + 1) canBeDirective result source ctx =
        cprocLexLoop expand directive turns can result next ctx)
  | directive (hleft : lexLeft (lexNext source) < lexLeft source)
    (hrun : ∀ expand directive turns result,
      cprocLexLoop expand directive (turns + 1) canBeDirective result source ctx = (do
        let (source, ctx) ← directive (lexNext source) ctx
        cprocLexLoop expand directive turns false result source ctx))
  | ident (hleft : lexLeft (lexNext source) < lexLeft source)
    (hrun : ∀ expand directive turns result,
      cprocLexLoop expand directive (turns + 1) canBeDirective result source ctx = (do
        let (result, source, ctx) ← cprocParseIdent expand result source ctx
        cprocLexLoop expand directive turns false result source ctx))

theorem cprocLexLoop_turn (canBeDirective : Bool) (source : Lex) (ctx : CProc) :
    LoopTurn canBeDirective source ctx := by
  cases hended : lexEnded source with
  | true => exact .ended fun _ _ _ _ ↦ by rw [cprocLexLoop, if_pos hended]
  | false =>
    have hnot : ¬ lexEnded source = true := by simp [hended]
    have hpos : 0 < lexLeft source := Nat.pos_of_ne_zero fun h ↦ hnot (lexEnded_iff.mpr h)
    have hleft : lexLeft (lexNext source) < lexLeft source := by
      rw [lexLeft_next]
      omega
    by_cases hcomment : (lexCurr source).type = .comment
    · exact .skip hleft fun _ _ _ _ ↦ by rw [cprocLexLoop, if_neg hnot, hcomment]
    by_cases hnewline : (lexCurr source).type = .newline
    · exact .skip hleft fun _ _ _ _ ↦ by rw [cprocLexLoop, if_neg hnot, hnewline]
    by_cases hpound : (lexCurr source).type = .pound
    · cases canBeDirective with
      | true =>
        refine .directive hleft fun _ _ _ _ ↦ ?_
        rw [cprocLexLoop, if_neg hnot, hpound]
        rfl
      | false =>
        have hthrow : lexLeft (lexThrow source) < lexLeft source := hpos
        refine @LoopTurn.skip _ source ctx _ false hthrow fun _ _ _ _ ↦ ?_
        rw [cprocLexLoop, if_neg hnot, hpound]
        rfl
    · refine .ident hleft fun _ _ _ _ ↦ ?_
      rw [cprocLexLoop, if_neg hnot]
      split
      · exact absurd ‹_› hcomment
      · exact absurd ‹_› hnewline
      · exact absurd ‹_› hpound
      · rfl

/-- A call is inside of the same macros at its end, and knows the same ones where none can be
defined. -/
structure Stays (fixed : Prop) (ctx ctx' : CProc) : Prop where
  inside : ctx'.insideMacro = ctx.insideMacro
  macros : fixed → ctx'.macros = ctx.macros

/-- All calls for the parts of macros keep it. -/
def Stable (fixed : Prop) (expand : Expand) : Prop :=
  ∀ out source ctx final, expand out source ctx = .ok final → Stays fixed ctx final.2

variable {fixed : Prop}

theorem Stays.refl (ctx : CProc) : Stays fixed ctx ctx := ⟨rfl, fun _ ↦ rfl⟩

theorem Stays.trans {ctx'' : CProc} (h : Stays fixed ctx ctx') (h' : Stays fixed ctx' ctx'') :
    Stays fixed ctx ctx'' :=
  ⟨h'.inside.trans h.inside, fun hfixed ↦ (h'.macros hfixed).trans (h.macros hfixed)⟩

theorem Stays.eq (h : Stays True ctx ctx') : ctx' = ctx := by
  obtain ⟨macros, inside⟩ := ctx
  obtain ⟨macros', inside'⟩ := ctx'
  obtain ⟨rfl, hmacros⟩ := h
  cases hmacros trivial
  rfl

section Stability

variable (hexpand : Stable fixed expand)

include hexpand

theorem cprocReplaceArg_stays {values : List (List Lexeme)} {state final : List Lexeme × CProc}
    (h : cprocReplaceArg expand ptr values state lexeme = .ok final) :
    Stays fixed state.2 final.2 := by
  rw [cprocReplaceArg] at h
  obtain ⟨target, -, h⟩ := bind_eq_ok.mp h
  split at h
  · cases h
    exact .refl _
  · split at h
    · cases h
    · exact hexpand _ _ _ _ h

theorem cprocReplaceArgs_stays {values : List (List Lexeme)} {body : List Lexeme}
    {state final : List Lexeme × CProc}
    (h : body.foldlM (cprocReplaceArg expand ptr values) state = .ok final) :
    Stays fixed state.2 final.2 := by
  induction body generalizing state with
  | nil =>
    cases h
    exact .refl _
  | cons entry body ih =>
    rw [List.foldlM_cons] at h
    obtain ⟨next, hentry, h⟩ := bind_eq_ok.mp h
    exact (cprocReplaceArg_stays hexpand hentry).trans (ih h)

theorem cprocGenExtendedMacroCode_stays {final : List Lexeme × CProc}
    (h : cprocGenExtendedMacroCode expand target code ctx = .ok final) :
    Stays fixed ctx final.2 := by
  rw [cprocGenExtendedMacroCode] at h
  obtain ⟨⟨output, ctx'⟩, hrun, h⟩ := bind_eq_ok.mp h
  cases h
  obtain ⟨hinside, hmacros⟩ := hexpand _ _ _ _ hrun
  refine ⟨?_, hmacros⟩
  dsimp only at hinside ⊢
  rw [hinside, List.dropLast_concat]

theorem cprocGenMacro_stays {final : List Lexeme × Lex × CProc}
    (h : cprocGenMacro expand out source ctx ptr = .ok final) :
    Stays fixed ctx final.2.2 ∧ lexLeft final.2.1 ≤ lexLeft source := by
  rw [cprocGenMacro] at h
  obtain ⟨target, -, h⟩ := bind_eq_ok.mp h
  have hleft := (cprocParseMacroCallArgs_left target source).2
  obtain ⟨⟨code, ctx'⟩, hargs, h⟩ := bind_eq_ok.mp h
  obtain ⟨target', -, h⟩ := bind_eq_ok.mp h
  obtain ⟨⟨extended, ctx''⟩, hbody, h⟩ := bind_eq_ok.mp h
  obtain ⟨out', -, h⟩ := bind_eq_ok.mp h
  cases h
  exact ⟨(cprocReplaceArgs_stays hexpand hargs).trans
    (cprocGenExtendedMacroCode_stays hexpand hbody), hleft⟩

theorem cprocParseIdent_stays {final : List Lexeme × Lex × CProc}
    (h : cprocParseIdent expand out source ctx = .ok final) :
    Stays fixed ctx final.2.2 ∧ lexLeft final.2.1 ≤ lexLeft (lexNext source) := by
  rcases cprocParseIdent_cases source ctx with ⟨lexeme, hrun⟩ | ⟨target, -, -, hrun⟩
  · rw [hrun] at h
    cases h
    exact ⟨.refl _, le_rfl⟩
  · rw [hrun] at h
    exact cprocGenMacro_stays hexpand h

theorem cprocLexLoop_stays (hdirective : ∀ source ctx final,
      directive source ctx = .ok final → Stays fixed ctx final.2)
    {canBeDirective : Bool} {final : List Lexeme × Lex × CProc}
    (h : cprocLexLoop expand directive turns canBeDirective result source ctx = .ok final) :
    Stays fixed ctx final.2.2 := by
  induction turns generalizing canBeDirective result source ctx with
  | zero => cases h
  | succ turns ih =>
    cases cprocLexLoop_turn canBeDirective source ctx with
    | ended hrun =>
      rw [hrun] at h
      cases h
      exact .refl _
    | skip _ hrun =>
      rw [hrun] at h
      exact ih h
    | directive _ hrun =>
      rw [hrun] at h
      obtain ⟨⟨next, ctx'⟩, hfirst, h⟩ := bind_eq_ok.mp h
      exact (hdirective _ _ _ hfirst).trans (ih h)
    | ident _ hrun =>
      rw [hrun] at h
      obtain ⟨⟨result', next, ctx'⟩, hfirst, h⟩ := bind_eq_ok.mp h
      exact (cprocParseIdent_stays hexpand hfirst).1.trans (ih h)

end Stability

/-- At every depth, the calls keep what directives keep. -/
theorem cprocExpand_stable (hdirective : ∀ source ctx final,
      directive source ctx = .ok final → Stays fixed ctx final.2) (depth : ℕ) :
    Stable fixed (cprocExpand directive depth) := by
  induction depth with
  | zero =>
    intro out source ctx final h
    cases h
  | succ depth ih =>
    intro out source ctx final h
    rw [cprocExpand] at h
    obtain ⟨⟨result, source', ctx'⟩, hrun, h⟩ := bind_eq_ok.mp h
    cases h
    exact cprocLexLoop_stays ih hdirective hrun

theorem cprocParseDirective_stays {final : Lex × CProc}
    (h : cprocParseDirective source ctx = .ok final) : Stays False ctx final.2 := by
  obtain ⟨_, hrun, -, hinside⟩ := cprocParseDirective_eq_ok source ctx
  rw [hrun] at h
  cases h
  exact ⟨hinside, False.elim⟩

/-- Every call of `cproc_lex` is inside of the same macros at its end. -/
theorem cprocLex_inside {depth : ℕ} {final : List Lexeme × Lex × CProc}
    (h : cprocLex depth result source ctx = .ok final) :
    final.2.2.insideMacro = ctx.insideMacro :=
  (cprocLexLoop_stays (cprocExpand_stable (fun _ _ _ ↦ cprocParseDirective_stays) depth)
    (fun _ _ _ ↦ cprocParseDirective_stays) h).inside

end Brutal.Cc
