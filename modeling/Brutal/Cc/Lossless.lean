import Brutal.Cc.Lexer
import Brutal.Lib.Outcome

/-!
# The lexemes of a text

Every way through `clex_impl` goes over at least one byte, and every loop in it stops at the end of
the text at the latest, so that the lexemes are the pieces of the text one after the other.  The
vector of `lex` takes 2²⁶ of them, and the others are dropped without an error.
-/

namespace Brutal.Cc

open Base Ds.Growth Lib Text

variable {text word : List UInt8} {turns : ℕ} {scan next : Scan} {type : LexemeType}

theorem scanNext_suffix (scan : Scan) : (scanNext scan).2.rest <:+ scan.rest := by
  rw [scanNext]
  split
  · exact List.suffix_refl _
  · cases hrest : scan.rest with
    | nil =>
      have hthrow : (scanThrow scan).rest = [] := hrest
      show (scanThrow scan).rest <:+ []
      exact hthrow ▸ List.suffix_refl _
    | cons byte rest => exact List.suffix_cons byte rest

theorem scanSkip_suffix (scan : Scan) (c : UInt8) : (scanSkip scan c).2.rest <:+ scan.rest := by
  rw [scanSkip]
  split
  · exact List.suffix_refl _
  · exact scanNext_suffix scan

theorem clexCharacter_suffix (scan : Scan) : (clexCharacter scan).rest <:+ scan.rest := by
  rw [clexCharacter]
  apply (scanSkip_suffix _ _).trans
  split
  · exact scanNext_suffix scan
  · exact List.suffix_refl _

/-- A character is only missing at the end of the text. -/
theorem clexCharacter_error (text : List UInt8) :
    (clexCharacter ⟨text, false⟩).hasError = true → (clexCharacter ⟨text, false⟩).rest = [] := by
  have hskip : ∀ rest, (scanSkip ⟨rest, false⟩ 39).2.hasError = false := by
    intro rest
    rw [scanSkip_eq (by decide)]
    split <;> rfl
  cases text with
  | nil => exact fun _ ↦ rfl
  | cons byte text =>
    intro herror
    rw [clexCharacter, scanCurr_cons, scanNext_cons] at herror
    split at herror
    · rw [hskip] at herror
      cases herror
    · rw [hskip] at herror
      cases herror

/-- What is left behind the bytes that match. -/
theorem nextWhile_eq (callback : UInt8 → Bool) (h : text.length < turns) :
    nextWhile callback turns ⟨text, false⟩ = .ok ⟨text.dropWhile callback, false⟩ := by
  induction text generalizing turns with
  | nil =>
    obtain ⟨turns, rfl⟩ := Nat.exists_eq_succ_of_ne_zero (Nat.ne_of_gt h)
    rw [nextWhile, if_neg (by simp [scanEnded])]
    rfl
  | cons byte text ih =>
    obtain ⟨turns, rfl⟩ := Nat.exists_eq_succ_of_ne_zero (Nat.ne_of_gt (Nat.zero_lt_of_lt h))
    rw [nextWhile, scanCurr_cons, scanEnded_cons, scanNext_cons, List.dropWhile_cons]
    cases callback byte with
    | true =>
      rw [if_pos (by simp), if_pos rfl]
      exact ih (Nat.lt_of_succ_lt_succ h)
    | false => rw [if_neg (by simp), if_neg (by simp)]

/-- A scanner that skips something does not go back, and throws no error. -/
def Skips (skip : Scan → Bool × Scan) : Prop :=
  ∀ text, ∃ skipped rest, skip ⟨text, false⟩ = (skipped, ⟨rest, false⟩) ∧ rest <:+ text

theorem skips_word (hword : 0 ∉ word) : Skips (scanSkipWord · word) := by
  intro text
  dsimp only
  rw [scanSkipWord_eq hword]
  split
  · exact ⟨_, _, rfl, List.drop_suffix _ _⟩
  · exact ⟨_, _, rfl, List.suffix_refl _⟩

theorem skips_byte {c : UInt8} (hc : c ≠ 0) : Skips (scanSkip · c) := by
  intro text
  dsimp only
  rw [scanSkip_eq hc]
  split
  · exact ⟨_, _, rfl, List.tail_suffix _⟩
  · exact ⟨_, _, rfl, List.suffix_refl _⟩

theorem nextUntil_suffix {skip : Scan → Bool × Scan} (hskip : Skips skip)
    (h : text.length < turns) :
    ∃ rest, nextUntil skip turns ⟨text, false⟩ = .ok ⟨rest, false⟩ ∧ rest <:+ text := by
  induction turns generalizing text with
  | zero => exact absurd h (Nat.not_lt_zero _)
  | succ turns ih =>
    obtain ⟨skipped, rest, hrun, hrest⟩ := hskip text
    rw [nextUntil, hrun]
    dsimp only
    cases rest with
    | nil =>
      rw [if_neg (by simp [scanEnded])]
      exact ⟨[], rfl, hrest⟩
    | cons byte rest =>
      cases skipped with
      | true =>
        rw [if_neg (by simp)]
        exact ⟨_, rfl, hrest⟩
      | false =>
        have hlt : rest.length < turns := by
          have hle := hrest.length_le
          rw [List.length_cons] at hle
          omega
        obtain ⟨rest', hloop, hrest'⟩ := ih hlt
        rw [if_pos (by simp), scanNext_cons, hloop]
        exact ⟨rest', rfl, hrest'.trans ((List.suffix_cons byte rest).trans hrest)⟩

theorem keywords_zero : ∀ keyword ∈ keywords, 0 ∉ keyword.2 := by decide

theorem keywords_ne_nil : ∀ keyword ∈ keywords, keyword.2 ≠ [] := by decide

theorem keywords_ne_invalid : ∀ keyword ∈ keywords, keyword.1 ≠ .invalid := by decide

/-- The first keyword that the text starts with is taken. -/
theorem clexKeyword_eq {list : List (LexemeType × List UInt8)}
    (hzero : ∀ keyword ∈ list, 0 ∉ keyword.2) (text : List UInt8) :
    clexKeyword ⟨text, false⟩ list =
      (list.find? fun keyword ↦ decide (keyword.2 <+: text)).map fun keyword ↦
        (keyword.1, ⟨text.drop keyword.2.length, false⟩) := by
  induction list with
  | nil => rfl
  | cons keyword list ih =>
    obtain ⟨type, literal⟩ := keyword
    rw [clexKeyword, scanSkipWord_eq (hzero _ List.mem_cons_self), List.find?_cons]
    by_cases hfits : literal <+: text
    · rw [if_pos hfits, decide_eq_true hfits]
      rfl
    · rw [if_neg hfits, decide_eq_false hfits]
      exact ih fun keyword hkeyword ↦ hzero keyword (List.mem_cons_of_mem _ hkeyword)

/-- The scanner went over a lexeme of the type at the front of a text. -/
structure Lexes (text : List UInt8) (type : LexemeType) (next : Scan) : Prop where
  suffix : next.rest <:+ text
  shorter : type ≠ .invalid → next.rest.length < text.length
  error : next.hasError = true → next.rest = []

theorem Lexes.of_drop (hword : word ≠ []) (hfits : word <+: text)
    (h : next.rest <:+ text.drop word.length) (herror : next.hasError = true → next.rest = []) :
    Lexes text type next := by
  refine ⟨h.trans (List.drop_suffix _ _), fun _ ↦ ?_, herror⟩
  have hle := h.length_le
  have hlength := hfits.length_le
  have hpos := List.length_pos_iff.mpr hword
  rw [List.length_drop] at hle
  omega

theorem Lexes.of_dropWhile {callback : UInt8 → Bool} (htext : text ≠ [])
    (hcurr : callback (scanCurr ⟨text, false⟩) = true) :
    Lexes text type ⟨text.dropWhile callback, false⟩ := by
  cases text with
  | nil => exact absurd rfl htext
  | cons byte text =>
    rw [scanCurr_cons] at hcurr
    rw [List.dropWhile_cons_of_pos hcurr]
    exact .of_drop (List.cons_ne_nil byte []) ⟨text, rfl⟩ (List.dropWhile_suffix callback) nofun

theorem clexWord_lexes (htext : text ≠ []) (h : text.length < turns) :
    ∃ type next, clexWord turns ⟨text, false⟩ = .ok (type, next) ∧ Lexes text type next := by
  rw [clexWord, clexKeyword_eq keywords_zero]
  cases hfind : keywords.find? fun keyword ↦ decide (keyword.2 <+: text) with
  | some keyword =>
    have hne := keywords_ne_nil keyword (List.mem_of_find?_eq_some hfind)
    have hfits : keyword.2 <+: text := by simpa using List.find?_some hfind
    exact ⟨_, _, rfl, .of_drop hne hfits (List.suffix_refl _) nofun⟩
  | none =>
    dsimp only [Option.map_none]
    rw [nextWhile_eq isdigit h, nextWhile_eq isidentchar h]
    by_cases hdigit : isdigit (scanCurr ⟨text, false⟩) = true
    · rw [if_pos hdigit]
      exact ⟨_, _, rfl, .of_dropWhile htext hdigit⟩
    · rw [if_neg hdigit]
      by_cases hident : isidentchar (scanCurr ⟨text, false⟩) = true
      · rw [if_pos hident]
        exact ⟨_, _, rfl, .of_dropWhile htext hident⟩
      · rw [if_neg hident]
        exact ⟨_, _, rfl, List.suffix_refl _, fun hne ↦ absurd rfl hne, nofun⟩

/-- A lexeme that starts with a word and goes on until something is skipped. -/
theorem nextUntil_lexes {skip : Scan → Bool × Scan} (hskip : Skips skip) (hword : word ≠ [])
    (hfits : word <+: text) (h : text.length < turns) :
    ∃ next, nextUntil skip turns ⟨text.drop word.length, false⟩ = .ok next ∧
      Lexes text type next := by
  have hdrop : (text.drop word.length).length < turns :=
    Nat.lt_of_le_of_lt (List.drop_suffix _ _).length_le h
  obtain ⟨rest, hrun, hrest⟩ := nextUntil_suffix hskip hdrop
  exact ⟨_, hrun, .of_drop hword hfits hrest nofun⟩

theorem clexImpl_lexes (htext : text ≠ []) (h : text.length < turns) :
    ∃ type next, clexImpl turns ⟨text, false⟩ = .ok (type, next) ∧ Lexes text type next := by
  rw [clexImpl, nextWhile_eq isgap h]
  by_cases hgap : isgap (scanCurr ⟨text, false⟩) = true
  · rw [if_pos hgap]
    exact ⟨_, _, rfl, .of_dropWhile htext hgap⟩
  rw [if_neg hgap, scanSkipWord_eq (by decide)]
  by_cases hblock : ascii ['/', '*'] <+: text
  · obtain ⟨next, hrun, hlexes⟩ := @nextUntil_lexes text _ turns .comment _
      (skips_word (show 0 ∉ ascii ['*', '/'] by decide)) (by decide) hblock h
    rw [if_pos hblock]
    dsimp only
    rw [if_pos rfl, hrun]
    exact ⟨_, _, rfl, hlexes⟩
  rw [if_neg hblock]
  dsimp only
  rw [if_neg Bool.false_ne_true, scanSkipWord_eq (by decide)]
  by_cases hline : ascii ['/', '/'] <+: text
  · obtain ⟨next, hrun, hlexes⟩ := @nextUntil_lexes text _ turns .comment _
      (skips_byte (show (10 : UInt8) ≠ 0 by decide)) (by decide) hline h
    rw [if_pos hline]
    dsimp only
    rw [if_pos rfl, hrun]
    exact ⟨_, _, rfl, hlexes⟩
  rw [if_neg hline]
  dsimp only
  rw [if_neg Bool.false_ne_true, scanSkipWord_eq (by decide)]
  by_cases hstring : ascii ['"'] <+: text
  · obtain ⟨next, hrun, hlexes⟩ := @nextUntil_lexes text _ turns .string _
      (skips_byte (show (34 : UInt8) ≠ 0 by decide)) (by decide) hstring h
    rw [if_pos hstring]
    dsimp only
    rw [if_pos rfl, hrun]
    exact ⟨_, _, rfl, hlexes⟩
  rw [if_neg hstring]
  dsimp only
  rw [if_neg Bool.false_ne_true, scanSkipWord_eq (by decide)]
  by_cases hquote : [39] <+: text
  · rw [if_pos hquote]
    dsimp only
    rw [if_pos rfl]
    exact ⟨_, _, rfl, .of_drop (by decide) hquote (clexCharacter_suffix _) (clexCharacter_error _)⟩
  rw [if_neg hquote]
  dsimp only
  rw [if_neg Bool.false_ne_true]
  exact clexWord_lexes htext h

theorem scanToken_append (h : next.rest <:+ scan.rest) :
    scanToken scan next ++ next.rest = scan.rest := by
  obtain ⟨token, htoken⟩ := h
  rw [scanToken, ← htoken, List.length_append, Nat.add_sub_cancel, List.take_left]

theorem scanToken_ne_nil (h : next.rest.length < scan.rest.length) : scanToken scan next ≠ [] := by
  rw [scanToken, Ne, List.take_eq_nil_iff, not_or]
  constructor
  · omega
  · intro hnil
    rw [hnil] at h
    exact absurd h (Nat.not_lt_zero _)

/-- The lexemes that stand one behind the other in what a scanner has left of a text, up to its end
or to a place where no lexeme starts. -/
inductive Cuts (turns : ℕ) : Scan → List Lexeme → Scan → Prop where
  | ended {scan : Scan} (hended : scanEnded scan = true) : Cuts turns scan [] scan
  | invalid {scan next : Scan} (hended : scanEnded scan = false)
    (himpl : clexImpl turns scan = .ok (.invalid, next)) : Cuts turns scan [] (scanThrow next)
  | lexeme {scan next last : Scan} {type : LexemeType} {lexemes : List Lexeme}
    (hended : scanEnded scan = false) (himpl : clexImpl turns scan = .ok (type, next))
    (htype : type ≠ .invalid) (tail : Cuts turns next lexemes last) :
    Cuts turns scan (⟨type, scanToken scan next⟩ :: lexemes) last

/-- The lexemes of a text, and whether they end with an error. -/
def TextCuts (text : List UInt8) (lexemes : List Lexeme) (last : Scan) : Prop :=
  Cuts (text.length + 1) ⟨text, false⟩ lexemes last

/-- A text is cut in one way only. -/
theorem Cuts.unique {lexemes lexemes' : List Lexeme} {last last' : Scan}
    (h : Cuts turns scan lexemes last) (h' : Cuts turns scan lexemes' last') :
    lexemes = lexemes' ∧ last = last' := by
  induction h generalizing lexemes' with
  | ended hended =>
    cases h' with
    | ended => exact ⟨rfl, rfl⟩
    | invalid hnot => cases hended.symm.trans hnot
    | lexeme hnot => cases hended.symm.trans hnot
  | invalid hnot himpl =>
    cases h' with
    | ended hended => cases hended.symm.trans hnot
    | invalid _ himpl' =>
      cases himpl.symm.trans himpl'
      exact ⟨rfl, rfl⟩
    | lexeme _ himpl' htype =>
      cases himpl.symm.trans himpl'
      exact absurd rfl htype
  | lexeme hnot himpl htype _ ih =>
    cases h' with
    | ended hended => cases hended.symm.trans hnot
    | invalid _ himpl' =>
      cases himpl.symm.trans himpl'
      exact absurd rfl htype
    | lexeme _ himpl' _ tail' =>
      cases himpl.symm.trans himpl'
      obtain ⟨rfl, rfl⟩ := ih tail'
      exact ⟨rfl, rfl⟩

/-- The lexemes of a text, where the scanner has an error if they are not all of it. -/
structure Pieces (text : List UInt8) (lexemes : List Lexeme) (scan : Scan) : Prop where
  ne_nil : ∀ lexeme ∈ lexemes, lexeme.str ≠ []
  front : lexCollect lexemes <+: text
  whole : scan.hasError = false → lexCollect lexemes = text

theorem lexCollect_cons (lexeme : Lexeme) (lexemes : List Lexeme) :
    lexCollect (lexeme :: lexemes) = lexeme.str ++ lexCollect lexemes := List.flatMap_cons

theorem Pieces.cons {lexeme : Lexeme} {rest : List UInt8} {lexemes : List Lexeme}
    (h : Pieces rest lexemes scan) (hne : lexeme.str ≠ []) :
    Pieces (lexeme.str ++ rest) (lexeme :: lexemes) scan := by
  refine ⟨?_, ?_, fun hnone ↦ ?_⟩
  · intro other hother
    rcases List.mem_cons.mp hother with rfl | hmem
    · exact hne
    · exact h.ne_nil other hmem
  · rw [lexCollect_cons]
    exact (List.prefix_append_right_inj lexeme.str).mpr h.front
  · rw [lexCollect_cons, h.whole hnone]

/-- A lexeme starts where a scanner is not at the end. -/
theorem clexImpl_scan (hended : scanEnded scan = false) (hturns : scan.rest.length < turns) :
    ∃ type next, clexImpl turns scan = .ok (type, next) ∧ Lexes scan.rest type next := by
  rw [scanEnded, Bool.or_eq_false_iff, List.isEmpty_eq_false_iff] at hended
  have hscan : (⟨scan.rest, false⟩ : Scan) = scan := by rw [← hended.2]
  have hlexes := @clexImpl_lexes scan.rest turns hended.1 hturns
  rwa [hscan] at hlexes

theorem Cuts.pieces {lexemes : List Lexeme} {last : Scan} (h : Cuts turns scan lexemes last)
    (hturns : scan.rest.length < turns) : Pieces scan.rest lexemes last := by
  induction h with
  | ended hended =>
    refine ⟨fun _ hmem ↦ absurd hmem List.not_mem_nil, List.nil_prefix, fun hnone ↦ ?_⟩
    rw [scanEnded, hnone, Bool.or_false, List.isEmpty_iff] at hended
    rw [hended]
    rfl
  | invalid =>
    exact ⟨fun _ hmem ↦ absurd hmem List.not_mem_nil, List.nil_prefix, fun hnone ↦ by cases hnone⟩
  | @lexeme scan next _ type _ hended himpl htype _ ih =>
    obtain ⟨_, _, himpl', hlexes⟩ := clexImpl_scan hended hturns
    cases himpl.symm.trans himpl'
    have hshorter := hlexes.shorter htype
    have hnonempty : (⟨type, scanToken scan next⟩ : Lexeme).str ≠ [] := scanToken_ne_nil hshorter
    rw [← scanToken_append hlexes.suffix]
    exact (ih (hshorter.trans hturns)).cons hnonempty

theorem TextCuts.pieces {lexemes : List Lexeme} {last : Scan} (h : TextCuts text lexemes last) :
    Pieces text lexemes last :=
  Cuts.pieces h (Nat.lt_succ_self _)

/-- The loop comes to an end, and its vector takes the lexemes that it has room for: one for each
turn but the last. -/
theorem lexLoop_cuts {turns₀ : ℕ} (hturns₀ : scan.rest.length < turns₀)
    (hturns : scan.rest.length < turns) (done : List Lexeme) :
    ∃ lexemes last, Cuts turns₀ scan lexemes last ∧
      lexLoop (clexImpl turns₀) turns scan done =
        .ok (lexemes.foldl (vecPush lexemeSize) done, last) := by
  induction turns generalizing scan done with
  | zero => exact absurd hturns (Nat.not_lt_zero _)
  | succ turns ih =>
    rw [lexLoop]
    cases hended : scanEnded scan with
    | true => exact ⟨[], scan, .ended hended, if_pos rfl⟩
    | false =>
      obtain ⟨type, next, himpl, hlexes⟩ := clexImpl_scan hended hturns₀
      rw [if_neg Bool.false_ne_true, himpl, ok_bind]
      dsimp only
      by_cases hinvalid : type = .invalid
      · rw [if_pos hinvalid]
        exact ⟨[], scanThrow next, .invalid hended (hinvalid ▸ himpl), rfl⟩
      · have hshorter := hlexes.shorter hinvalid
        obtain ⟨lexemes, last, hcuts, hloop⟩ := @ih next (hshorter.trans hturns₀)
          (Nat.lt_of_lt_of_le hshorter (Nat.le_of_lt_succ hturns))
          (vecPush lexemeSize done ⟨type, scanToken scan next⟩)
        rw [if_neg hinvalid]
        exact ⟨_, last, .lexeme hended himpl hinvalid hcuts, hloop⟩

/-- The lexer of C stops, with as many of the lexemes of the text as there is room for. -/
theorem clex_cuts (text : List UInt8) :
    ∃ lexemes last, TextCuts text lexemes last ∧
      clex ⟨text, false⟩ = .ok (lexemes.take (vecRoom lexemeSize), last) := by
  obtain ⟨lexemes, last, hcuts, hloop⟩ := @lexLoop_cuts _ ⟨text, false⟩ _ (Nat.lt_succ_self _)
    (Nat.lt_succ_self _) []
  refine ⟨lexemes, last, hcuts, ?_⟩
  rw [foldl_vecPush, List.nil_append, List.length_nil, Nat.sub_zero] at hloop
  exact hloop

theorem clexText_eq_ok {lexemes : List Lexeme} :
    clexText text = .ok (lexemes, scan) ↔
      text.length < 2 ^ 31 ∧ clex ⟨text, false⟩ = .ok (lexemes, scan) := by
  rw [clexText, scanInit]
  split
  next hlength => exact (and_iff_right hlength).symm
  next hlong => exact iff_of_false (fun h ↦ by cases h) fun h ↦ hlong h.1

/-- Where the vector is not full, it has all of the lexemes. -/
theorem textCuts_of_clexText {lexemes : List Lexeme} (h : clexText text = .ok (lexemes, scan))
    (hroom : lexemes.length < vecRoom lexemeSize) : TextCuts text lexemes scan := by
  obtain ⟨all, last, hcuts, hclex⟩ := clex_cuts text
  cases hclex.symm.trans (clexText_eq_ok.mp h).2
  have hle : all.length ≤ vecRoom lexemeSize := by
    rw [List.length_take] at hroom
    omega
  rwa [List.take_of_length_le hle]

/-- The lexer stops, and its lexemes are the pieces of the text one after the other, up to an
error. -/
def Lossless (text : List UInt8) : Prop :=
  ∃ lexemes scan, clexText text = .ok (lexemes, scan) ∧ (∀ lexeme ∈ lexemes, lexeme.str ≠ []) ∧
    lexCollect lexemes <+: text ∧ (scan.hasError = false → lexCollect lexemes = text)

theorem lexCollect_append (first second : List Lexeme) :
    lexCollect (first ++ second) = lexCollect first ++ lexCollect second := List.flatMap_append

theorem lexCollect_take_isPrefix (lexemes : List Lexeme) (count : ℕ) :
    lexCollect (lexemes.take count) <+: lexCollect lexemes :=
  ⟨lexCollect (lexemes.drop count), by rw [← lexCollect_append, List.take_append_drop]⟩

/-- Of lexemes that are not empty, only all of them are as long as all of them. -/
theorem length_le_of_lexCollect_take {lexemes : List Lexeme} {count : ℕ}
    (hne : ∀ lexeme ∈ lexemes, lexeme.str ≠ [])
    (h : lexCollect (lexemes.take count) = lexCollect lexemes) : lexemes.length ≤ count := by
  by_contra hlong
  have hsplit := lexCollect_append (lexemes.take count) (lexemes.drop count)
  rw [List.take_append_drop, h] at hsplit
  have hdrop : lexemes.drop count ≠ [] := by
    rw [Ne, List.drop_eq_nil_iff]
    exact hlong
  obtain ⟨lexeme, hmem⟩ := List.exists_mem_of_ne_nil _ hdrop
  have hnil : lexCollect (lexemes.drop count) = [] := List.self_eq_append_right.mp hsplit
  exact hne lexeme (List.mem_of_mem_drop hmem) (List.flatMap_eq_nil_iff.mp hnil lexeme hmem)

/-- Nothing of a text is lost exactly when its length is an `int` and the vector has room for its
lexemes, unless they end with an error. -/
theorem clex_lossless_iff (text : List UInt8) :
    Lossless text ↔ text.length < 2 ^ 31 ∧ ∀ lexemes last, TextCuts text lexemes last →
      last.hasError = true ∨ lexemes.length ≤ vecRoom lexemeSize := by
  obtain ⟨lexemes, last, hcuts, hrun⟩ := clex_cuts text
  have hpieces := hcuts.pieces
  have hall : (∀ lexemes last, TextCuts text lexemes last →
      last.hasError = true ∨ lexemes.length ≤ vecRoom lexemeSize) ↔
        (last.hasError = true ∨ lexemes.length ≤ vecRoom lexemeSize) := by
    constructor
    · exact fun h ↦ h lexemes last hcuts
    · intro h lexemes' last' hcuts'
      obtain ⟨rfl, rfl⟩ := hcuts.unique hcuts'
      exact h
  rw [hall]
  constructor
  · rintro ⟨found, scan, hfound, -, -, hwhole⟩
    obtain ⟨hlength, hclex⟩ := clexText_eq_ok.mp hfound
    cases hrun.symm.trans hclex
    refine ⟨hlength, ?_⟩
    cases herror : last.hasError with
    | true => exact .inl rfl
    | false =>
      refine .inr (length_le_of_lexCollect_take hpieces.ne_nil ?_)
      rw [hwhole herror, hpieces.whole herror]
  · rintro ⟨hlength, hroom⟩
    refine ⟨_, last, clexText_eq_ok.mpr ⟨hlength, hrun⟩, ?_, ?_, fun hnone ↦ ?_⟩
    · exact fun lexeme hmem ↦ hpieces.ne_nil lexeme (List.mem_of_mem_take hmem)
    · exact (lexCollect_take_isPrefix lexemes _).trans hpieces.front
    · rw [hnone] at hroom
      rw [List.take_of_length_le (hroom.resolve_left Bool.false_ne_true), hpieces.whole hnone]

theorem vecRoom_lexemeSize : vecRoom lexemeSize = 2 ^ 26 := vecRoom_eq (by decide) (by decide)

/-- Semicolons are lexemes of their own. -/
theorem semicolons_cuts (turns count : ℕ) :
    Cuts turns ⟨List.replicate count 59, false⟩ (List.replicate count ⟨.semicolon, [59]⟩)
      ⟨[], false⟩ := by
  induction count with
  | zero => exact .ended rfl
  | succ count ih =>
    have himpl : clexImpl turns ⟨59 :: List.replicate count 59, false⟩ =
        .ok (.semicolon, ⟨List.replicate count 59, false⟩) := by rfl
    have htoken : scanToken ⟨59 :: List.replicate count 59, false⟩
        ⟨List.replicate count 59, false⟩ = [59] := by
      rw [scanToken, List.length_cons, Nat.add_sub_cancel_left]
      rfl
    have hcuts := Cuts.lexeme rfl himpl (by decide) ih
    rwa [htoken] at hcuts

/-- The last of 2²⁶ + 1 semicolons is lost without an error. -/
theorem clex_lossless_fails : ¬ ∀ text, Lossless text := by
  intro h
  obtain ⟨lexemes, scan, hrun, -, -, hwhole⟩ := h (List.replicate (2 ^ 26 + 1) 59)
  obtain ⟨lexemes', last, hcuts, hclex⟩ := clex_cuts (List.replicate (2 ^ 26 + 1) 59)
  obtain ⟨rfl, rfl⟩ := hcuts.unique (semicolons_cuts _ (2 ^ 26 + 1))
  cases hclex.symm.trans (clexText_eq_ok.mp hrun).2
  have hpieces := hcuts.pieces
  have hle := length_le_of_lexCollect_take hpieces.ne_nil
    ((hwhole rfl).trans (hpieces.whole rfl).symm)
  rw [List.length_replicate, vecRoom_lexemeSize] at hle
  exact absurd hle (Nat.lt_irrefl _)

end Brutal.Cc
