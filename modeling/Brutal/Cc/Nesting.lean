import Brutal.Cc.Calls
import Brutal.Cc.Pasting
import Brutal.Cc.Turns
import Brutal.Lib.Settled
import Mathlib.Data.Finset.Card

/-!
# The end of an expansion

A call of `cproc_lex` for an argument has fewer lexemes to go over, and one for a body is inside of
one more of the macros: their depth is bounded as long as they define no macros.  But a body is
looked through for directives like a file, so that an expansion can define the macro that it goes on
to call.
-/

namespace Brutal.Cc

open Base Ds.Growth Lib Text Filter

/-- A directive where no macro can be defined: the fault, which no function of the preprocessor has,
stands for a `#define` that would be carried out. -/
def sealedDirective (source : Lex) (ctx : CProc) : Except Fault (Lex × CProc) :=
  let (_, next) := lexSkipType source .whitespace
  if (lexCurr next).type = .ident ∧ (lexCurr next).str = defineName then .error .overflow
  else cprocParseDirective source ctx

/-- No `#define` is carried out inside of an expansion. -/
def DefinesOutside (result : List Lexeme) (source : Lex) (ctx : CProc) : Prop :=
  ∀ depth, cprocLexCall (cprocExpand sealedDirective depth) cprocParseDirective result source ctx ≠
    .error .overflow

/-- A call of `cproc_lex` comes to the same end at every depth that is large enough, and the macros
that it is inside of are the same behind it. -/
structure Terminates (result : List Lexeme) (source : Lex) (ctx : CProc) : Prop where
  settled : Settled .depth fun depth ↦ cprocLex depth result source ctx
  inside : ∀ depth result' source' ctx',
    cprocLex depth result source ctx = .ok (result', source', ctx') →
      ctx'.insideMacro = ctx.insideMacro

variable {source source' next : Lex} {ctx ctx' : CProc} {type : LexemeType} {turns : ℕ}
  {result out code rest : List Lexeme} {target : CProcMacro} {ptr : MacroPtr} {lexeme : Lexeme}
  {directive : Lex → CProc → Except Fault (Lex × CProc)} {expand : Expand}

theorem sealedDirective_stays {final : Lex × CProc}
    (h : sealedDirective source ctx = .ok final) :
    lexLeft final.1 ≤ lexLeft source ∧ final.2 = ctx := by
  have hskip := lexLeft_skipType_le source .whitespace
  rw [sealedDirective, cprocParseDirective] at h
  generalize lexSkipType source .whitespace = skipped at hskip h
  obtain ⟨_, next⟩ := skipped
  dsimp only at hskip h
  split at h
  · cases h
  · rename_i hdefine
    split at h
    · cases h
      exact ⟨hskip, rfl⟩
    · split at h
      · rw [if_neg (by simp [lexCurr, lexPeek, lexThrow, defineName, ascii])] at h
        cases h
        exact ⟨Nat.zero_le _, rfl⟩
      · rename_i htype
        rw [if_neg fun hname ↦ hdefine ⟨not_not.mp htype, hname⟩] at h
        cases h
        exact ⟨Nat.zero_le _, rfl⟩

theorem sealedDirective_ne_depth (source : Lex) (ctx : CProc) :
    sealedDirective source ctx ≠ .error .depth := by
  obtain ⟨final, hrun, -⟩ := cprocParseDirective_eq_ok source ctx
  rw [sealedDirective, hrun]
  dsimp only
  split
  · nofun
  · nofun

/-- The calls that a call can make come to an end: those for arguments, which are short, and those
for the bodies of macros that are not being expanded already. -/
structure Feasible (expand : ℕ → Expand) (ctx : CProc) (length : ℕ) : Prop where
  arg : ∀ arg out, arg.length < length →
    Settled .depth fun depth ↦ expand depth out (lexFromLexeme arg) ctx
  body : ∀ target ∈ ctx.macros, target.name ∉ ctx.insideMacro → ∀ code,
    Settled .depth fun depth ↦ expand depth [] (lexFromLexeme code)
      { ctx with insideMacro := ctx.insideMacro ++ [target.name] }

section Depth

variable {expand : ℕ → Expand} {length : ℕ} (hstable : ∀ depth, Stable True (expand depth))

include hstable

theorem cprocReplaceArg_settled (hfeasible : Feasible expand ctx length)
    {values : List (List Lexeme)} (hvalues : ∀ value ∈ values, value.length < length)
    (hptr : vecCapacity ctx.macros.length = ptr.capacity) (body : List Lexeme) :
    Settled .depth fun depth ↦ body.foldlM (cprocReplaceArg (expand depth) ptr values)
      ([], ctx) := by
  refine @Settled.foldlM _ _ _ _ _ (fun state ↦ state.2 = ctx) _ ?_ ?_ _ rfl
  · rintro ⟨out, _⟩ entry - rfl
    simp only [cprocReplaceArg, load_of_eq hptr, ok_bind]
    split
    · exact .const (by rintro ⟨⟩)
    · split
      · exact .const (by rintro ⟨⟩)
      · exact hfeasible.arg _ _ (hvalues _ (List.mem_of_getElem? ‹_›))
  · rintro depth state entry final rfl h
    exact (cprocReplaceArg_stays (hstable depth) h).eq

theorem cprocGenMacro_settled (hfeasible : Feasible expand ctx length)
    (htarget : target ∈ ctx.macros) (hinside : target.name ∉ ctx.insideMacro)
    (hsource : lexLeft source < length) (out : List Lexeme) :
    Settled .depth fun depth ↦ cprocGenMacro (expand depth) out source ctx
      ⟨target, vecCapacity ctx.macros.length⟩ := by
  have hload : MacroPtr.load ⟨target, vecCapacity ctx.macros.length⟩ ctx = .ok target :=
    @load_of_eq _ ⟨target, vecCapacity ctx.macros.length⟩ rfl
  have hvalues : ∀ value ∈ (cprocParseMacroCallArgs target source).1, value.length < length :=
    fun value hmem ↦
      Nat.lt_of_le_of_lt ((cprocParseMacroCallArgs_left target source).1 value hmem) hsource
  simp only [cprocGenMacro, hload, ok_bind]
  apply Settled.bind (@cprocReplaceArg_settled _ ⟨target, vecCapacity ctx.macros.length⟩ _ _ hstable
    hfeasible _ hvalues rfl target.source)
  rintro ⟨code, ctx'⟩ depth hargs
  obtain rfl : ctx' = ctx := (cprocReplaceArgs_stays (hstable depth) hargs).eq
  simp only [hload, ok_bind]
  apply Settled.bind
  · apply Settled.bind (hfeasible.body target htarget hinside code)
    rintro ⟨output, ctx''⟩ _ -
    exact .const fun h ↦ by cases h
  · rintro ⟨extended, ctx''⟩ _ -
    apply Settled.bind (.const (cprocConcatenate_ne_depth _ _ _ _))
    rintro out' _ -
    exact .const fun h ↦ by cases h

theorem cprocParseIdent_settled (hfeasible : Feasible expand ctx length)
    (hsource : lexLeft (lexNext source) < length) (out : List Lexeme) :
    Settled .depth fun depth ↦ cprocParseIdent (expand depth) out source ctx := by
  rcases cprocParseIdent_cases source ctx with ⟨lexeme, hrun⟩ | ⟨target, htarget, hinside, hrun⟩
  · simp only [hrun]
    exact .const nofun
  · simp only [hrun]
    exact cprocGenMacro_settled hstable hfeasible htarget hinside hsource out

/-- A call comes to an end if those in it do, in all the states that directives lead to. -/
theorem cprocLexLoop_settled {inv : CProc → Prop}
    (hfeasible : ∀ ctx, inv ctx → Feasible expand ctx length)
    (hdirective : ∀ source ctx, directive source ctx ≠ .error .depth)
    (hkeep : ∀ source ctx final, inv ctx → directive source ctx = .ok final →
      lexLeft final.1 ≤ lexLeft source ∧ inv final.2)
    (hinv : inv ctx) (hlength : lexLeft source ≤ length) (hturns : lexLeft source < turns)
    (canBeDirective : Bool) (result : List Lexeme) :
    Settled .depth fun depth ↦
      cprocLexLoop (expand depth) directive turns canBeDirective result source ctx := by
  induction turns generalizing canBeDirective result source ctx with
  | zero => exact absurd hturns (Nat.not_lt_zero _)
  | succ turns ih =>
    cases cprocLexLoop_turn canBeDirective source ctx with
    | ended hrun =>
      simp only [hrun]
      exact .const nofun
    | @skip next can hleft hrun =>
      simp only [hrun]
      exact ih hinv (by omega) (by omega) can result
    | directive hleft hrun =>
      simp only [hrun]
      apply Settled.bind (.const (hdirective (lexNext source) ctx))
      rintro ⟨next, ctx'⟩ _ hnext
      obtain ⟨hnextLeft, hinv'⟩ := hkeep _ _ _ hinv hnext
      dsimp only at hnextLeft hinv'
      have hshort : lexLeft next ≤ length := by omega
      have henough : lexLeft next < turns := by omega
      exact ih hinv' hshort henough false result
    | ident hleft hrun =>
      simp only [hrun]
      apply Settled.bind
        (cprocParseIdent_settled hstable (hfeasible ctx hinv) (by omega) result)
      rintro ⟨result', next, ctx'⟩ depth hnext
      obtain ⟨hstays, hnextLeft⟩ := cprocParseIdent_stays (hstable depth) hnext
      obtain rfl : ctx' = ctx := hstays.eq
      dsimp only at hnextLeft
      have hshort : lexLeft next ≤ length := by omega
      have henough : lexLeft next < turns := by omega
      exact ih hinv hshort henough false result'

end Depth

/-- How many names of macros there are that are not being expanded. -/
def outside (ctx : CProc) : ℕ :=
  ((ctx.macros.map CProcMacro.name).toFinset \ ctx.insideMacro.toFinset).card

theorem outside_lt (htarget : target ∈ ctx.macros) (hinside : target.name ∉ ctx.insideMacro) :
    outside { ctx with insideMacro := ctx.insideMacro ++ [target.name] } < outside ctx := by
  apply Finset.card_lt_card
  rw [Finset.ssubset_iff_of_subset]
  · refine ⟨target.name, ?_, ?_⟩
    · rw [Finset.mem_sdiff, List.mem_toFinset, List.mem_toFinset]
      exact ⟨List.mem_map_of_mem htarget, hinside⟩
    · simp
  · apply Finset.sdiff_subset_sdiff (Finset.Subset.refl _)
    intro name hname
    rw [List.mem_toFinset] at hname ⊢
    exact List.mem_append_left _ hname

theorem sealedExpand_stable (depth : ℕ) : Stable True (cprocExpand sealedDirective depth) := by
  refine cprocExpand_stable (fun source ctx final h ↦ ?_) depth
  rw [(sealedDirective_stays h).2]
  exact .refl ctx

/-- Without definitions, an expansion comes to an end: the macros that are not being expanded get
fewer with a body, and the lexemes with an argument. -/
theorem sealedExpand_settled (macros : ℕ) :
    ∀ ctx, outside ctx = macros → ∀ length source result, lexLeft source ≤ length →
      Settled .depth fun depth ↦ cprocExpand sealedDirective depth result source ctx := by
  induction macros using Nat.strong_induction_on with
  | h macros ihmacros =>
    intro ctx hctx length
    induction length using Nat.strong_induction_on with
    | h length ihlength =>
      intro source result hlength
      have hfeasible : Feasible (cprocExpand sealedDirective) ctx length := by
        refine ⟨fun arg out harg ↦ ?_, fun target htarget hinside code ↦ ?_⟩
        · exact ihlength arg.length harg (lexFromLexeme arg) out le_rfl
        · exact ihmacros _ (hctx ▸ outside_lt htarget hinside) _ rfl _ _ [] le_rfl
      have hloop := @cprocLexLoop_settled source ctx (source.rest.length + 1) sealedDirective
        (cprocExpand sealedDirective) length sealedExpand_stable (· = ctx)
        (fun _ hsame ↦ hsame ▸ hfeasible) sealedDirective_ne_depth ?_ rfl hlength
        (Nat.lt_succ_of_le (lexLeft_le_length source)) true result
      · refine Settled.of_succ (Settled.bind hloop ?_) fun _ ↦ rfl
        rintro ⟨result', source', ctx'⟩ _ -
        exact .const nofun
      · rintro source ctx' final rfl h
        exact sealedDirective_stays h

section Agreement

variable {expand' : Expand} (hexpand : ∀ out source ctx,
  AgreesUpTo .overflow (expand out source ctx) (expand' out source ctx))

include hexpand

theorem cprocGenMacro_agrees (out : List Lexeme) (source : Lex) (ctx : CProc)
    (ptr : MacroPtr) :
    AgreesUpTo .overflow (cprocGenMacro expand out source ctx ptr)
      (cprocGenMacro expand' out source ctx ptr) := by
  have hargs : ∀ values state entry, AgreesUpTo .overflow
      (cprocReplaceArg expand ptr values state entry)
      (cprocReplaceArg expand' ptr values state entry) := by
    intro values state entry
    rw [cprocReplaceArg, cprocReplaceArg]
    refine (AgreesUpTo.refl _).bind fun target ↦ ?_
    split
    · exact .refl _
    · split
      · exact .refl _
      · exact hexpand _ _ _
  rw [cprocGenMacro, cprocGenMacro]
  refine (AgreesUpTo.refl _).bind fun target ↦ ?_
  refine (AgreesUpTo.foldlM (hargs _) _ _).bind fun expanded ↦ ?_
  refine (AgreesUpTo.refl _).bind fun target ↦ ?_
  refine ((hexpand _ _ _).bind fun _ ↦ .refl _).bind fun _ ↦ .refl _

theorem cprocLexLoop_agrees {directive' : Lex → CProc → Except Fault (Lex × CProc)}
    (hdirective : ∀ source ctx, AgreesUpTo .overflow (directive source ctx)
      (directive' source ctx)) (turns : ℕ) (canBeDirective : Bool) (result : List Lexeme)
    (source : Lex) (ctx : CProc) :
    AgreesUpTo .overflow (cprocLexLoop expand directive turns canBeDirective result source ctx)
      (cprocLexLoop expand' directive' turns canBeDirective result source ctx) := by
  induction turns generalizing canBeDirective result source ctx with
  | zero => exact .refl _
  | succ turns ih =>
    cases cprocLexLoop_turn canBeDirective source ctx with
    | ended hrun =>
      rw [hrun, hrun]
      exact .refl _
    | skip _ hrun =>
      rw [hrun, hrun]
      exact ih _ _ _ _
    | directive _ hrun =>
      rw [hrun, hrun]
      exact (hdirective _ _).bind fun _ ↦ ih _ _ _ _
    | ident _ hrun =>
      rw [hrun, hrun]
      refine AgreesUpTo.bind ?_ fun _ ↦ ih _ _ _ _
      rcases cprocParseIdent_cases source ctx with ⟨lexeme, hrun⟩ | ⟨target, -, -, hrun⟩
      · rw [hrun, hrun]
        exact .refl _
      · rw [hrun, hrun]
        exact cprocGenMacro_agrees hexpand _ _ _ _

end Agreement

theorem sealedDirective_agrees (source : Lex) (ctx : CProc) :
    AgreesUpTo .overflow (sealedDirective source ctx) (cprocParseDirective source ctx) := by
  rw [sealedDirective]
  dsimp only
  split
  · exact .inl rfl
  · exact .refl _

theorem sealedExpand_agrees (depth : ℕ) (out : List Lexeme) (source : Lex) (ctx : CProc) :
    AgreesUpTo .overflow (cprocExpand sealedDirective depth out source ctx)
      (cprocExpand cprocParseDirective depth out source ctx) := by
  induction depth generalizing out source ctx with
  | zero => exact .refl _
  | succ depth ih =>
    exact (cprocLexLoop_agrees ih sealedDirective_agrees _ _ _ _ _).bind fun _ ↦ .refl _

/-- Where no macro is defined inside of an expansion, a call of `cproc_lex` comes to an end, and is
inside of the same macros there. -/
theorem cprocLex_terminates (h : DefinesOutside result source ctx) :
    Terminates result source ctx := by
  refine ⟨?_, fun depth result' source' ctx' hrun ↦ cprocLex_inside hrun⟩
  have hsealed : Settled .depth fun depth ↦ cprocLexCall (cprocExpand sealedDirective depth)
      cprocParseDirective result source ctx := by
    refine @cprocLexLoop_settled source ctx _ cprocParseDirective (cprocExpand sealedDirective)
      (lexLeft source) sealedExpand_stable (fun _ ↦ True) ?_ ?_ ?_ trivial le_rfl
      (Nat.lt_succ_of_le (lexLeft_le_length source)) true result
    · exact fun ctx _ ↦ ⟨fun arg out _ ↦ sealedExpand_settled _ ctx rfl _ _ out le_rfl,
        fun target _ _ code ↦ sealedExpand_settled _ _ rfl _ _ [] le_rfl⟩
    · intro source ctx hdepth
      obtain ⟨final, hrun, -⟩ := cprocParseDirective_eq_ok source ctx
      rw [hrun] at hdepth
      cases hdepth
    · intro source ctx final _ hrun
      obtain ⟨_, hrun', hleft, -⟩ := cprocParseDirective_eq_ok source ctx
      rw [hrun] at hrun'
      cases hrun'
      exact ⟨hleft, trivial⟩
  apply hsealed.congr
  intro depth
  exact (cprocLexLoop_agrees (sealedExpand_agrees depth) (fun _ _ ↦ .refl _) _ _ _ _ _).resolve_left
    (h depth)

/-- A macro that is defined as itself is put out. -/
theorem cprocLex_terminates_self :
    Terminates [] ⟨[⟨.ident, ascii ['a']⟩], false⟩
      ⟨[⟨ascii ['a'], [⟨.ident, ascii ['a']⟩], []⟩], []⟩ := by
  apply cprocLex_terminates
  intro depth
  cases depth with
  | zero => decide
  | succ depth =>
    have hrun : cprocLexCall (cprocExpand sealedDirective (depth + 1)) cprocParseDirective []
        ⟨[⟨.ident, ascii ['a']⟩], false⟩ ⟨[⟨ascii ['a'], [⟨.ident, ascii ['a']⟩], []⟩], []⟩ =
          .ok ([⟨.ident, ascii ['a']⟩], ⟨[], false⟩,
            ⟨[⟨ascii ['a'], [⟨.ident, ascii ['a']⟩], []⟩], []⟩) := rfl
    rw [hrun]
    nofun

/-! ## An expansion without end -/

/-- A lexeme that is put out if it is not the name of a macro. -/
def Plain (ctx : CProc) (lexeme : Lexeme) : Prop :=
  lexeme.type ≠ .comment ∧ lexeme.type ≠ .newline ∧ lexeme.type ≠ .pound ∧
    cprocMacroByName lexeme.str ctx = none

theorem cprocLexLoop_name (hcomment : lexeme.type ≠ .comment) (hnewline : lexeme.type ≠ .newline)
    (hpound : lexeme.type ≠ .pound) (canBeDirective : Bool) :
    cprocLexLoop expand directive (turns + 1) canBeDirective result ⟨lexeme :: rest, false⟩ ctx =
      (do
        let (result, source, ctx) ← cprocParseIdent expand result ⟨lexeme :: rest, false⟩ ctx
        cprocLexLoop expand directive turns false result source ctx) := by
  rw [cprocLexLoop, if_neg (by simp [lexEnded]), lexCurr_cons]
  split
  · exact absurd ‹_› hcomment
  · exact absurd ‹_› hnewline
  · exact absurd ‹_› hpound
  · rfl

/-- Plain lexemes are put out. -/
theorem cprocLexLoop_plain {lexemes : List Lexeme} (hplain : ∀ lexeme ∈ lexemes, Plain ctx lexeme)
    (hturns : lexemes.length < turns) (canBeDirective : Bool) (result : List Lexeme) :
    cprocLexLoop expand directive turns canBeDirective result ⟨lexemes, false⟩ ctx =
      .ok (result ++ lexemes, ⟨[], false⟩, ctx) := by
  induction lexemes generalizing turns canBeDirective result with
  | nil =>
    obtain ⟨turns, rfl⟩ := Nat.exists_eq_succ_of_ne_zero (Nat.ne_of_gt hturns)
    rw [List.append_nil]
    rfl
  | cons lexeme lexemes ih =>
    obtain ⟨turns, rfl⟩ := Nat.exists_eq_succ_of_ne_zero (Nat.ne_of_gt (Nat.zero_lt_of_lt hturns))
    obtain ⟨hcomment, hnewline, hpound, hnone⟩ := hplain lexeme List.mem_cons_self
    rw [cprocLexLoop_name hcomment hnewline hpound, cprocParseIdent, lexCurr_cons, hnone]
    refine (ih (fun other hmem ↦ hplain other (List.mem_cons_of_mem _ hmem))
      (Nat.lt_of_succ_lt_succ hturns) false _).trans ?_
    rw [List.append_assoc, List.singleton_append]

theorem cprocExpand_plain {lexemes : List Lexeme} (hplain : ∀ lexeme ∈ lexemes, Plain ctx lexeme)
    (depth : ℕ) (out : List Lexeme) :
    AgreesUpTo .depth (cprocExpand directive depth out (lexFromLexeme lexemes) ctx)
      (.ok (out ++ lexemes, ctx)) := by
  cases depth with
  | zero => exact .inl rfl
  | succ depth =>
    refine .inr ?_
    rw [cprocExpand, cprocLexCall, lexFromLexeme, cprocLexLoop_plain hplain (Nat.lt_succ_self _)]
    rfl

/-- The body of a macro with values for its parameters. -/
def substitute (values : List (List UInt8 × List Lexeme)) (body : List Lexeme) : List Lexeme :=
  body.flatMap fun entry ↦
    (if entry.type = .ident then values.lookup entry.str else none).getD [entry]

/-- The arguments expand to the values. -/
def ArgsExpand (expand : Expand) (ctx : CProc) (args values : List (List Lexeme)) : Prop :=
  List.Forall₂ (fun arg value ↦ ∀ out, AgreesUpTo .depth (expand out (lexFromLexeme arg) ctx)
    (.ok (out ++ value, ctx))) args values

theorem ArgsExpand.lookup {args values : List (List Lexeme)} (h : ArgsExpand expand ctx args values)
    (params : List (List UInt8)) (str : List UInt8) :
    ((params.zip args).lookup str = none ∧ (params.zip values).lookup str = none) ∨
      ∃ arg value, (params.zip args).lookup str = some arg ∧
        (params.zip values).lookup str = some value ∧ ∀ out,
          AgreesUpTo .depth (expand out (lexFromLexeme arg) ctx) (.ok (out ++ value, ctx)) := by
  induction params generalizing args values with
  | nil => exact .inl ⟨rfl, rfl⟩
  | cons param params ih =>
    cases h with
    | nil => exact .inl ⟨rfl, rfl⟩
    | @cons arg value args values hhead htail =>
      rw [List.zip_cons_cons, List.zip_cons_cons, List.lookup_cons, List.lookup_cons]
      cases str == param with
      | true => exact .inr ⟨arg, value, rfl, rfl, hhead⟩
      | false => exact ih htail

theorem replaceParams_agrees {args values : List (List Lexeme)}
    (h : ArgsExpand expand ctx args values) (params : List (List UInt8)) (body out : List Lexeme) :
    AgreesUpTo .depth (replaceParams expand (params.zip args) body out ctx)
      (.ok (out ++ substitute (params.zip values) body, ctx)) := by
  induction body generalizing out with
  | nil =>
    rw [substitute, List.flatMap_nil, List.append_nil]
    exact .refl _
  | cons entry body ih =>
    have hplain : AgreesUpTo .depth
        (replaceParams expand (params.zip args) body (out ++ [entry]) ctx)
        (.ok (out ++ ([entry] ++ substitute (params.zip values) body), ctx)) := by
      rw [← List.append_assoc]
      exact ih _
    rw [replaceParams, substitute, List.flatMap_cons]
    by_cases hident : entry.type = .ident
    · rw [if_pos hident, if_pos hident]
      rcases h.lookup params entry.str with ⟨hargs, hvalues⟩ | ⟨arg, value, hargs, hvalues, hrun⟩
      · rw [hargs, hvalues]
        exact hplain
      · rw [hargs, hvalues]
        dsimp only [Option.getD_some]
        rw [← List.append_assoc]
        exact (hrun out).ok_bind (ih _)
    · rw [if_neg hident, if_neg hident]
      exact hplain

/-- A call of a macro whose arguments expand to the values, and whose body comes to something. -/
theorem callOutcome_agrees {args values : List (List Lexeme)} {after : List Lexeme}
    {body : Except Fault (List Lexeme × CProc)} (h : ArgsExpand expand ctx args values)
    (hbody : AgreesUpTo .depth (expand []
      (lexFromLexeme (substitute (target.args.zip values) target.source))
      { ctx with insideMacro := ctx.insideMacro ++ [target.name] }) body) :
    AgreesUpTo .depth (callOutcome expand out args after ctx target) (do
      let (extended, ctx) ← body
      let out ← cprocGenConcatenation .any out extended
      return (out, ⟨after, false⟩, { ctx with insideMacro := ctx.insideMacro.dropLast })) := by
  apply AgreesUpTo.ok_bind (replaceParams_agrees h target.args target.source [])
  rw [List.nil_append]
  have hextended : AgreesUpTo .depth (cprocGenExtendedMacroCode expand target
      (substitute (target.args.zip values) target.source) ctx) (do
        let (output, ctx) ← body
        return (output, { ctx with insideMacro := ctx.insideMacro.dropLast })) :=
    hbody.bind fun _ ↦ .refl _
  have hall := hextended.bind fun (state : List Lexeme × CProc) ↦ AgreesUpTo.refl (do
    let out ← cprocGenConcatenation .any out state.1
    return (out, (⟨after, false⟩ : Lex), state.2))
  rw [bind_assoc] at hall
  exact hall

section Runaway

/-- `z`, `zx`, `zxx`, … -/
def levelName (level : ℕ) : List UInt8 := 122 :: List.replicate level 120

def levelIdent (level : ℕ) : Lexeme := ⟨.ident, levelName level⟩

def identOf (chars : List Char) : Lexeme := ⟨.ident, ascii chars⟩

def openingLexeme : Lexeme := ⟨.lparent, ascii ['(']⟩

def closingLexeme : Lexeme := ⟨.rparent, ascii [')']⟩

def commaLexeme : Lexeme := ⟨.comma, ascii [',']⟩

/-- `D(m)m(k,cat(k,x))` -/
def runawayText (m k : Lexeme) : List Lexeme :=
  [identOf ['D'], openingLexeme, m, closingLexeme, m, openingLexeme, k, commaLexeme,
    identOf ['c', 'a', 't'], openingLexeme, k, commaLexeme, identOf ['x'], closingLexeme,
    closingLexeme]

/-- `#define cat(a,b) a##b` -/
def catMacro : CProcMacro :=
  ⟨ascii ['c', 'a', 't'], [identOf ['a'], ⟨.doublePound, ascii ['#', '#']⟩, identOf ['b']],
    [ascii ['a'], ascii ['b']]⟩

/-- `# define a(m,k) D(m)m(k,cat(k,x))` -/
def defineText (a : Lexeme) : List Lexeme :=
  [⟨.pound, ascii ['#']⟩, ⟨.ident, defineName⟩, ⟨.whitespace, ascii [' ']⟩, a, openingLexeme,
    identOf ['m'], commaLexeme, identOf ['k'], closingLexeme] ++
      runawayText (identOf ['m']) (identOf ['k'])

/-- `#define D(a) #define a(m,k) D(m)m(k,cat(k,x))` -/
def defineMacro : CProcMacro := ⟨ascii ['D'], defineText (identOf ['a']), [ascii ['a']]⟩

/-- The macro that an expansion of `D` defines. -/
def levelMacro (level : ℕ) : CProcMacro :=
  ⟨levelName level, runawayText (identOf ['m']) (identOf ['k']), [ascii ['m'], ascii ['k']]⟩

/-- The macros when so many levels were defined. -/
def levelMacros (level : ℕ) : List CProcMacro :=
  catMacro :: defineMacro :: (List.range level).map levelMacro

variable {level other : ℕ} {inside : List (List UInt8)}

theorem levelName_injective : Function.Injective levelName := by
  intro level other h
  have hlength := congrArg List.length h
  simpa [levelName] using hlength

theorem levelMacros_succ (level : ℕ) :
    levelMacros (level + 1) = levelMacros level ++ [levelMacro level] := by
  rw [levelMacros, List.range_succ, List.map_append]
  rfl

theorem cprocMacroByName_cat :
    cprocMacroByName (ascii ['c', 'a', 't']) ⟨levelMacros level, inside⟩ = some catMacro := rfl

theorem cprocMacroByName_define :
    cprocMacroByName (ascii ['D']) ⟨levelMacros level, inside⟩ = some defineMacro := rfl

theorem cprocMacroByName_none {name : List UInt8} (hcat : name ≠ ascii ['c', 'a', 't'])
    (hdefine : name ≠ ascii ['D']) (hlevel : ∀ other < level, name ≠ levelName other) :
    cprocMacroByName name ⟨levelMacros level, inside⟩ = none := by
  rw [cprocMacroByName, List.find?_eq_none]
  intro target htarget hname
  have hname : target.name = name := of_decide_eq_true hname
  rcases List.mem_cons.mp htarget with rfl | htarget
  · exact hcat hname.symm
  · rcases List.mem_cons.mp htarget with rfl | htarget
    · exact hdefine hname.symm
    · obtain ⟨other, hother, rfl⟩ := List.mem_map.mp htarget
      exact hlevel other (List.mem_range.mp hother) hname.symm

theorem cprocMacroByName_future (h : level ≤ other) :
    cprocMacroByName (levelName other) ⟨levelMacros level, inside⟩ = none := by
  refine cprocMacroByName_none ?_ ?_ fun past hpast hsame ↦ ?_
  · exact fun hsame ↦ absurd (List.cons.inj hsame).1 (by decide)
  · exact fun hsame ↦ absurd (List.cons.inj hsame).1 (by decide)
  · rw [levelName_injective hsame] at h
    omega

theorem cprocMacroByName_level :
    cprocMacroByName (levelName level) ⟨levelMacros (level + 1), inside⟩ =
      some (levelMacro level) := by
  have hpast := @cprocMacroByName_future level level inside le_rfl
  rw [cprocMacroByName] at hpast ⊢
  rw [levelMacros_succ, List.find?_append, hpast, Option.none_or, List.find?_cons_of_pos]
  exact decide_eq_true rfl

/-- The next name is put together from the last one. -/
theorem single_level (level : ℕ) : Single (levelName level) (levelIdent level) := by
  apply single_ident
  · constructor
    · rw [List.takeWhile_eq_self_iff]
      intro byte hbyte
      rcases List.mem_cons.mp hbyte with rfl | hbyte
      · decide
      · rw [List.eq_of_mem_replicate hbyte]
        decide
    · exact ⟨122, rfl, by decide⟩
  · rw [firstKeyword, List.find?_eq_none]
    intro keyword hkeyword hfits
    have hhead : ∀ keyword ∈ keywords, keyword.2.head? ≠ some 122 := by decide
    have hfits : keyword.2 <+: levelName level := of_decide_eq_true hfits
    exact hhead keyword hkeyword (head?_eq_of_front hfits (keywords_ne_nil keyword hkeyword)).symm

theorem cprocGenConcatenation_level (level : ℕ) (out : List Lexeme) :
    cprocGenConcatenation .any out
      [levelIdent level, ⟨.doublePound, ascii ['#', '#']⟩, identOf ['x']] =
      .ok (out ++ [levelIdent (level + 1)]) := by
  have hname : levelName level ++ ascii ['x'] = levelName (level + 1) := by
    rw [levelName, levelName, List.replicate_succ']
    rfl
  have hpaste : cprocPaste .any (levelIdent level) (identOf ['x']) =
      .ok (levelIdent (level + 1)) := by
    apply @cprocPaste_single .any _ _ _ trivial
    rw [levelIdent, identOf, hname]
    exact single_level (level + 1)
  have hlink := @cprocConcatenate_link .any (levelIdent level) (levelIdent level) out []
    ⟨[], ⟨.doublePound, ascii ['#', '#']⟩, [], identOf ['x']⟩ ⟨nofun, rfl, nofun, rfl, nofun⟩ nofun
    rfl trivial
  rw [hpaste, ok_bind] at hlink
  exact hlink

theorem argument_ident {name : Lexeme} (h : name.type = .ident) : Argument [name] := by
  refine .plain ?_ ?_ ?_ .nil
  all_goals
    rw [h]
    nofun

/-- Arguments that expand to values define nothing. -/
theorem ArgsExpand.stay {args values : List (List Lexeme)} (h : ArgsExpand expand ctx args values)
    (params : List (List UInt8)) (body out : List Lexeme) :
    MacrosStay expand (params.zip args) body out ctx (vecCapacity ctx.macros.length) := by
  intro front _ out' ctx' hrun
  rcases replaceParams_agrees h params front out with hdepth | hsame
  · rw [hrun] at hdepth
    cases hdepth
  · cases hsame.trans hrun
    rfl

/-- A call at the front of what is left. -/
theorem cprocLexLoop_call {name : Lexeme} {args values : List (List Lexeme)} {after : List Lexeme}
    (hname : name.type = .ident) (htarget : cprocMacroByName name.str ctx = some target)
    (hinside : target.name ∉ ctx.insideMacro) (hargs : target.args ≠ [])
    (hcall : Call [] args after rest) (hlength : args.length = target.args.length)
    (hexpands : ArgsExpand expand ctx args values) (canBeDirective : Bool) :
    cprocLexLoop expand directive (turns + 1) canBeDirective result ⟨name :: rest, false⟩ ctx = (do
      let (result, source, ctx) ← callOutcome expand result args after ctx target
      cprocLexLoop expand directive turns false result source ctx) := by
  have hnot : cprocIsAlreadyInMacro ctx target.name = false := by
    rw [cprocIsAlreadyInMacro, Bool.eq_false_iff, Ne, List.contains_iff_mem]
    exact hinside
  rw [cprocLexLoop_name (by rw [hname]; rintro ⟨⟩) (by rw [hname]; rintro ⟨⟩)
      (by rw [hname]; rintro ⟨⟩),
    cprocParseIdent_called htarget hnot hargs hcall hlength (Nat.zero_le 1)
      (hexpands.stay target.args target.source [])]

/-- A call of `cat` is the next name. -/
theorem cprocExpand_cat (hinside : ascii ['c', 'a', 't'] ∉ inside) (h : level ≤ other)
    (depth : ℕ) (out : List Lexeme) :
    AgreesUpTo .depth (cprocExpand directive depth out (lexFromLexeme [identOf ['c', 'a', 't'],
        openingLexeme, levelIdent other, commaLexeme, identOf ['x'], closingLexeme])
        ⟨levelMacros level, inside⟩)
      (.ok (out ++ [levelIdent (other + 1)], ⟨levelMacros level, inside⟩)) := by
  cases depth with
  | zero => exact .inl rfl
  | succ depth =>
    have hcall : Call [] [[levelIdent other], [identOf ['x']]] [] [openingLexeme, levelIdent other,
        commaLexeme, identOf ['x'], closingLexeme] := by
      refine ⟨nofun, openingLexeme, [], _, rfl, rfl, nofun, ?_, ?_⟩
      · rintro _ ⟨⟩
        rfl
      · exact .cons (argument_ident rfl) rfl (.last (argument_ident rfl) rfl)
    have hplain : ∀ inside, Plain ⟨levelMacros level, inside⟩ (levelIdent other) :=
      fun _ ↦ ⟨nofun, nofun, nofun, cprocMacroByName_future h⟩
    have hx : ∀ inside, Plain ⟨levelMacros level, inside⟩ (identOf ['x']) := fun _ ↦
      ⟨nofun, nofun, nofun, cprocMacroByName_none (by decide) (by decide)
        fun _ _ hsame ↦ absurd (List.cons.inj hsame).1 (by decide)⟩
    have hpound : ∀ inside, Plain ⟨levelMacros level, inside⟩ ⟨.doublePound, ascii ['#', '#']⟩ :=
      fun _ ↦ ⟨nofun, nofun, nofun, cprocMacroByName_none (by decide) (by decide)
        fun _ _ hsame ↦ absurd (List.cons.inj hsame).1 (by decide)⟩
    have hargs : ArgsExpand (cprocExpand directive depth) ⟨levelMacros level, inside⟩
        [[levelIdent other], [identOf ['x']]] [[levelIdent other], [identOf ['x']]] := by
      refine .cons (fun out ↦ cprocExpand_plain ?_ depth out)
        (.cons (fun out ↦ cprocExpand_plain ?_ depth out) .nil)
      · exact List.forall_mem_singleton.mpr (hplain _)
      · exact List.forall_mem_singleton.mpr (hx _)
    have hbody := @cprocExpand_plain ⟨levelMacros level, inside ++ [ascii ['c', 'a', 't']]⟩
      directive [levelIdent other, ⟨.doublePound, ascii ['#', '#']⟩, identOf ['x']]
      (List.forall_mem_cons.mpr ⟨hplain _, List.forall_mem_cons.mpr
        ⟨hpound _, List.forall_mem_singleton.mpr (hx _)⟩⟩) depth []
    have hpaste :
        cprocGenConcatenation .any out [levelIdent other, ⟨.doublePound, ascii ['#', '#']⟩,
        identOf ['x']] = .ok (out ++ [levelIdent (other + 1)]) :=
      cprocGenConcatenation_level other out
    rw [cprocExpand, cprocLexCall, lexFromLexeme, cprocLexLoop_call rfl cprocMacroByName_cat hinside
      (by decide) hcall rfl hargs]
    have hcat := @callOutcome_agrees ⟨levelMacros level, inside⟩ out catMacro _ _ _ [] _ hargs hbody
    rw [ok_bind] at hcat
    dsimp only at hcat
    rw [List.nil_append, hpaste, ok_bind, List.dropLast_concat] at hcat
    exact @AgreesUpTo.ok_bind _ _ _ _ _ (out ++ [levelIdent (other + 1)], ⟨[], false⟩,
      ⟨levelMacros level, inside⟩) _ _ (hcat.ok_bind (.inr rfl)) (.inr rfl)

theorem cprocParseDirective_define (name : List UInt8) (ctx : CProc) :
    cprocParseDirective ⟨(defineText ⟨.ident, name⟩).tail, false⟩ ctx =
      .ok (⟨[], false⟩, { ctx with macros := ctx.macros ++
        [⟨name, runawayText (identOf ['m']) (identOf ['k']), [ascii ['m'], ascii ['k']]⟩] }) := by
  simp [cprocParseDirective, defineText, lexSkipType, cprocParseDefine, cparseSkipSeparator,
    cparseWhitespace, isWhitespace, lexNext, cprocParseParams, cprocMacroCode, openingLexeme,
    closingLexeme, commaLexeme, identOf, runawayText, lexEnded, ok_bind]

/-- A call of `D` defines the next macro. -/
theorem cprocExpand_define (depth : ℕ) :
    AgreesUpTo .depth (cprocExpand cprocParseDirective depth []
        (lexFromLexeme (defineText (levelIdent level))) ⟨levelMacros level, inside⟩)
      (.ok ([], ⟨levelMacros (level + 1), inside⟩)) := by
  cases depth with
  | zero => exact .inl rfl
  | succ depth =>
    refine .inr ?_
    have hcurr : (lexCurr ⟨defineText (levelIdent level), false⟩).type = .pound := rfl
    have hnext : lexNext ⟨defineText (levelIdent level), false⟩ =
        ⟨(defineText ⟨.ident, levelName level⟩).tail, false⟩ := rfl
    rw [levelMacros_succ, cprocExpand, cprocLexCall, lexFromLexeme, cprocLexLoop,
      if_neg (by simp [lexEnded, defineText]), hcurr]
    dsimp only
    rw [if_pos rfl, hnext, cprocParseDirective_define, ok_bind]
    rfl

/-- Each level expands to a text that defines the next one and calls it. -/
theorem cprocExpand_runaway (depth level : ℕ) (hcat : ascii ['c', 'a', 't'] ∉ inside)
    (hdefine : ascii ['D'] ∉ inside) (hlevel : ∀ other ≥ level, levelName other ∉ inside) :
    AgreesUpTo .depth (cprocExpand cprocParseDirective depth []
        (lexFromLexeme (runawayText (levelIdent level) (levelIdent (level + 1))))
        ⟨levelMacros level, inside⟩)
      (.error .depth) := by
  induction depth generalizing level inside with
  | zero => exact .inl rfl
  | succ depth ih =>
    have hnone : ∀ inside, ∀ other > level, Plain ⟨levelMacros (level + 1), inside⟩
        (levelIdent other) :=
      fun _ other hother ↦ ⟨nofun, nofun, nofun, cprocMacroByName_future hother⟩
    have hnow : Plain ⟨levelMacros level, inside⟩ (levelIdent level) :=
      ⟨nofun, nofun, nofun, cprocMacroByName_future le_rfl⟩
    have hfirst : Call [] [[levelIdent level]]
        (runawayText (levelIdent level) (levelIdent (level + 1))).tail.tail.tail.tail
        (runawayText (levelIdent level) (levelIdent (level + 1))).tail := by
      refine ⟨nofun, openingLexeme, [], _, rfl, rfl, nofun, ?_, ?_⟩
      · rintro _ ⟨⟩
        rfl
      · exact .last (argument_ident rfl) rfl
    have hsecond : Call [] [[levelIdent (level + 1)], [identOf ['c', 'a', 't'], openingLexeme,
        levelIdent (level + 1), commaLexeme, identOf ['x'], closingLexeme]] []
        (runawayText (levelIdent level) (levelIdent (level + 1))).tail.tail.tail.tail.tail := by
      refine ⟨nofun, openingLexeme, [], _, rfl, rfl, nofun, ?_, ?_⟩
      · rintro _ ⟨⟩
        rfl
      · refine .cons (argument_ident rfl) rfl (.last ?_ rfl)
        exact .plain nofun nofun nofun (@Argument.group _ _ [_, _, _] [] rfl rfl
          (.plain nofun nofun (.plain nofun nofun (.plain nofun nofun .nil))) .nil)
    have hfirstArgs : ArgsExpand (cprocExpand cprocParseDirective depth)
        ⟨levelMacros level, inside⟩ [[levelIdent level]] [[levelIdent level]] :=
      .cons (fun out ↦ cprocExpand_plain (List.forall_mem_singleton.mpr hnow) depth out) .nil
    have hsecondArgs : ArgsExpand (cprocExpand cprocParseDirective depth)
        ⟨levelMacros (level + 1), inside⟩ [[levelIdent (level + 1)], [identOf ['c', 'a', 't'],
          openingLexeme, levelIdent (level + 1), commaLexeme, identOf ['x'], closingLexeme]]
        [[levelIdent (level + 1)], [levelIdent (level + 2)]] := by
      refine .cons (fun out ↦ cprocExpand_plain ?_ depth out)
        (.cons (fun out ↦ cprocExpand_cat hcat le_rfl depth out) .nil)
      exact List.forall_mem_singleton.mpr (hnone _ _ (Nat.lt_succ_self level))
    have hdefined := @callOutcome_agrees ⟨levelMacros level, inside⟩ [] defineMacro
      (cprocExpand cprocParseDirective depth) _ _ (runawayText (levelIdent level)
        (levelIdent (level + 1))).tail.tail.tail.tail _ hfirstArgs (cprocExpand_define depth)
    have hcalled := @callOutcome_agrees ⟨levelMacros (level + 1), inside⟩ [] (levelMacro level)
      (cprocExpand cprocParseDirective depth) _ _ [] _ hsecondArgs
      (@ih (inside ++ [levelName level]) (level + 1) ?_ ?_ ?_)
    · rw [ok_bind] at hdefined
      dsimp only at hdefined
      rw [List.dropLast_concat] at hdefined
      rw [cprocExpand, cprocLexCall, lexFromLexeme]
      apply AgreesUpTo.error_bind
      have hloop := @cprocLexLoop_call ⟨levelMacros level, inside⟩
        (runawayText (levelIdent level) (levelIdent (level + 1))).tail.length.succ [] _ defineMacro
        cprocParseDirective (cprocExpand cprocParseDirective depth) (identOf ['D']) _ _ _ rfl
        cprocMacroByName_define hdefine (by decide) hfirst rfl hfirstArgs true
      refine (congrArg (AgreesUpTo .depth · _) hloop).mpr (hdefined.ok_bind ?_)
      have hnext := @cprocLexLoop_call ⟨levelMacros (level + 1), inside⟩ 14 [] _ (levelMacro level)
        cprocParseDirective (cprocExpand cprocParseDirective depth) (levelIdent level) _ _ _
        rfl cprocMacroByName_level (hlevel level le_rfl) (List.cons_ne_nil _ _) hsecond rfl
        hsecondArgs false
      refine (congrArg (AgreesUpTo .depth · _) hnext).mpr (AgreesUpTo.error_bind hcalled _)
    · simpa using ⟨hcat, fun h ↦ absurd (List.cons.inj h).1 (by decide)⟩
    · simpa using ⟨hdefine, fun h ↦ absurd (List.cons.inj h).1 (by decide)⟩
    · intro other hother hmem
      rcases List.mem_append.mp hmem with hmem | hmem
      · exact hlevel other (Nat.le_of_succ_le hother) hmem
      · rw [levelName_injective (List.mem_singleton.mp hmem)] at hother
        exact absurd hother (Nat.not_succ_le_self level)

/-- `D(z)z(zx,zxx)` defines macros without end. -/
theorem cprocLex_terminates_fails : ¬ ∀ result source ctx, Terminates result source ctx := by
  intro h
  obtain ⟨outcome, hne, hsettled⟩ := (h [] (lexFromLexeme
    (runawayText (levelIdent 0) (levelIdent 1))) ⟨levelMacros 0, []⟩).settled
  obtain ⟨depth, hdepth⟩ := hsettled.exists
  apply hne
  rw [← hdepth]
  have hrun := @cprocExpand_runaway [] (depth + 1) 0 nofun nofun nofun
  have herror := hrun.elim id Eq.symm
  rw [cprocExpand] at herror
  rcases bind_eq_error.mp herror with hcall | ⟨_, -, hpure⟩
  · exact hcall
  · cases hpure

end Runaway

end Brutal.Cc
