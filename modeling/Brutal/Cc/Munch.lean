import Brutal.Cc.Lossless
import Mathlib.Data.List.Find

/-!
# The longest lexeme

`clex_impl` tries the keywords in the order of their table and before identifiers, so that an
identifier is cut behind a keyword that it starts with, and `double` behind its `do`.  The operators
of the table are in an order in which the longer ones come first, but some of the language are not
in it.
-/

namespace Brutal.Cc

open Base Ds.Growth Lib Text

/-- The punctuators of C. -/
def punctuators : List (List UInt8) :=
  [ascii ['['], ascii [']'], ascii ['('], ascii [')'], ascii ['{'], ascii ['}'], ascii ['.'],
    ascii ['-', '>'], ascii ['+', '+'], ascii ['-', '-'], ascii ['&'], ascii ['*'], ascii ['+'],
    ascii ['-'], ascii ['~'], ascii ['!'], ascii ['/'], ascii ['%'], ascii ['<', '<'],
    ascii ['>', '>'], ascii ['<'], ascii ['>'], ascii ['<', '='], ascii ['>', '='],
    ascii ['=', '='], ascii ['!', '='], ascii ['^'], ascii ['|'], ascii ['&', '&'],
    ascii ['|', '|'], ascii ['?'], ascii [':'], ascii [';'], ascii ['.', '.', '.'], ascii ['='],
    ascii ['*', '='], ascii ['/', '='], ascii ['%', '='], ascii ['+', '='], ascii ['-', '='],
    ascii ['<', '<', '='], ascii ['>', '>', '='], ascii ['&', '='], ascii ['^', '='],
    ascii ['|', '='], ascii [','], ascii ['#'], ascii ['#', '#'], ascii ['<', ':'],
    ascii [':', '>'], ascii ['<', '%'], ascii ['%', '>'], ascii ['%', ':'],
    ascii ['%', ':', '%', ':']]

section Spellings

variable (word rest : List UInt8)

/-- The text starts with this run of identifier characters, and no longer one. -/
structure IdentRun : Prop where
  run : rest.takeWhile isidentchar = word
  start : ∃ byte ∈ word.head?, isdigit byte = false

/-- The text starts with this operator and no longer one, and with no comment. -/
structure LongestOperator : Prop where
  operator : word ∈ punctuators
  front : word <+: rest
  longest : ∀ other ∈ punctuators, other <+: rest → other.length ≤ word.length
  block : ¬ ascii ['/', '*'] <+: rest
  line : ¬ ascii ['/', '/'] <+: rest

end Spellings

/-- The type of a keyword that is spelled like the word, or that of identifiers. -/
def wordType (word : List UInt8) : LexemeType :=
  match keywords.find? fun keyword ↦ decide (keyword.2 = word) with
  | some keyword => keyword.1
  | none => .ident

/-- What the next lexeme has to be: an identifier that the text starts with, or an operator. -/
structure Munches (rest : List UInt8) (lexeme : Option Lexeme) : Prop where
  ident : ∀ word, IdentRun word rest → lexeme = some ⟨wordType word, word⟩
  operator : ∀ word, LongestOperator word rest → lexeme.map Lexeme.str = some word

/-- No keyword is a part of the identifier at its front, the operator is in the table, and the
vector has room for one more than the `k` lexemes in front of them. -/
structure MunchesWhen (k : ℕ) (rest : List UInt8) : Prop where
  ident : ∀ word, IdentRun word rest → ∀ keyword ∈ keywords, keyword.2 <+: word → keyword.2 = word
  operator : ∀ word, LongestOperator word rest → word ∈ keywords.map Prod.snd
  room : ∀ word, IdentRun word rest ∨ LongestOperator word rest → k < vecRoom lexemeSize

variable {text rest word : List UInt8} {turns : ℕ} {lexemes : List Lexeme} {scan : Scan}

/-- The lexeme that a text starts with, if it starts with one. -/
def frontLexeme (turns : ℕ) (rest : List UInt8) : Option Lexeme :=
  match clexImpl turns ⟨rest, false⟩ with
  | .ok (type, next) =>
    if type = .invalid then none else some ⟨type, scanToken ⟨rest, false⟩ next⟩
  | .error _ => none

attribute [local grind =] frontLexeme clexWord lexLoop

/-- The lexeme behind the first `k` ones is the one that the rest of the text starts with. -/
theorem Cuts.getElem? {last : Scan} (h : Cuts turns scan lexemes last)
    (hturns : scan.rest.length < turns) (herror : scan.hasError = true → scan.rest = []) {k : ℕ}
    (hk : k ≤ lexemes.length) (hrest : lexCollect (lexemes.take k) ++ rest = scan.rest)
    (hne : rest ≠ []) : lexemes[k]? = frontLexeme turns rest := by
  have hscan : scan = ⟨scan.rest, false⟩ := by
    have hok : scan.hasError = false := by
      rw [Bool.eq_false_iff]
      intro htrue
      rw [herror htrue] at hrest
      exact hne (List.append_eq_nil_iff.mp hrest).2
    rw [← hok]
  induction h generalizing k with
  | ended hended =>
    obtain rfl := Nat.le_zero.mp hk
    rw [hscan, scanEnded, Bool.or_false, List.isEmpty_iff] at hended
    rw [hended] at hrest
    exact absurd hrest hne
  | @invalid scan next _ himpl =>
    obtain rfl := Nat.le_zero.mp hk
    obtain rfl : rest = scan.rest := hrest
    grind
  | @lexeme scan next last type lexemes hended himpl htype _ ih =>
    obtain ⟨_, _, himpl', hlexes⟩ := clexImpl_scan hended hturns
    cases himpl.symm.trans himpl'
    cases k with
    | zero =>
      obtain rfl : rest = scan.rest := hrest
      rw [frontLexeme, ← hscan, himpl]
      exact (if_neg htype).symm
    | succ k =>
      have hnext : lexCollect (lexemes.take k) ++ rest = next.rest := by
        rw [List.take_succ_cons, lexCollect_cons, List.append_assoc,
          ← scanToken_append hlexes.suffix] at hrest
        exact List.append_cancel_left hrest
      have hok : next.hasError = false := by
        rw [Bool.eq_false_iff]
        intro htrue
        rw [hlexes.error htrue] at hnext
        exact hne (List.append_eq_nil_iff.mp hnext).2
      have hsame : next = ⟨next.rest, false⟩ := by rw [← hok]
      rw [List.getElem?_cons_succ]
      exact ih ((hlexes.shorter htype).trans hturns) hlexes.error (Nat.le_of_succ_le_succ hk) hnext
        hsame

/-- A byte at which no white space, comment, string or character starts. -/
def plainByte (byte : UInt8) : Bool :=
  !isgap byte && byte != 34 && byte != 39

attribute [local grind =] plainByte

/-- The tables are in order: every keyword has its kind, operators start with bytes that start
nothing else, and a keyword is found before those it starts with. -/
theorem tables_sorted :
    (∀ keyword ∈ keywords,
      (keyword.2 = [10] ∨ keyword.2 ∈ punctuators ∨ keyword.2.all isidentchar = true) ∧
      (keyword.2.all isidentchar = true →
        (keywords.find? fun other ↦ decide (other.2 <+: keyword.2)).map Prod.snd =
            some keyword.2 →
          ∀ other ∈ keywords, other.2 <+: keyword.2 → other.2 = keyword.2) ∧
      (keyword.2 ∈ punctuators →
        (keywords.find? fun other ↦ decide (other.2 <+: keyword.2)).map Prod.snd =
          some keyword.2)) ∧
    ∀ operator ∈ punctuators, ∃ byte ∈ operator.head?,
      plainByte byte = true ∧ isidentchar byte = false ∧ byte ≠ 10 := by
  decide +kernel

/-- A keyword is a word, an operator or the end of a line. -/
theorem keywords_kinds : ∀ keyword ∈ keywords,
    keyword.2 = [10] ∨ keyword.2 ∈ punctuators ∨ keyword.2.all isidentchar = true :=
  fun keyword hkeyword ↦ (tables_sorted.1 keyword hkeyword).1

/-- Operators start with bytes that start nothing else. -/
theorem punctuators_head : ∀ operator ∈ punctuators, ∃ byte ∈ operator.head?,
    plainByte byte = true ∧ isidentchar byte = false ∧ byte ≠ 10 :=
  tables_sorted.2

/-- Where a word is found in the table before the words that it starts with, there are none. -/
theorem keywords_words : ∀ keyword ∈ keywords, keyword.2.all isidentchar = true →
    (keywords.find? fun other ↦ decide (other.2 <+: keyword.2)).map Prod.snd = some keyword.2 →
      ∀ other ∈ keywords, other.2 <+: keyword.2 → other.2 = keyword.2 :=
  fun keyword hkeyword ↦ (tables_sorted.1 keyword hkeyword).2.1

/-- An operator is found in the table before the operators that it starts with. -/
theorem keywords_operators : ∀ keyword ∈ keywords, keyword.2 ∈ punctuators →
    (keywords.find? fun other ↦ decide (other.2 <+: keyword.2)).map Prod.snd = some keyword.2 :=
  fun keyword hkeyword ↦ (tables_sorted.1 keyword hkeyword).2.2

/-- Keywords, numbers and identifiers are tried. -/
theorem clexImpl_word {byte : UInt8} (hhead : rest.head? = some byte)
    (hplain : plainByte byte = true) (hblock : ¬ ascii ['/', '*'] <+: rest)
    (hline : ¬ ascii ['/', '/'] <+: rest) :
    clexImpl turns ⟨rest, false⟩ = clexWord turns ⟨rest, false⟩ := by
  obtain ⟨rest, rfl⟩ : ∃ tail, rest = byte :: tail := by
    cases rest with
    | nil => cases hhead
    | cons other tail =>
      cases hhead
      exact ⟨tail, rfl⟩
  rw [plainByte, Bool.and_eq_true, Bool.and_eq_true, Bool.not_eq_true', bne_iff_ne,
    bne_iff_ne] at hplain
  obtain ⟨⟨hgap, hstring⟩, hquote⟩ := hplain
  have hnoString : ¬ ascii ['"'] <+: byte :: rest :=
    fun h ↦ hstring (List.cons_prefix_cons.mp h).1.symm
  have hnoQuote : ¬ [39] <+: byte :: rest := fun h ↦ hquote (List.cons_prefix_cons.mp h).1.symm
  rw [clexImpl, scanCurr_cons, hgap, if_neg Bool.false_ne_true, scanSkipWord_eq (by decide),
    if_neg hblock]
  dsimp only
  rw [if_neg Bool.false_ne_true, scanSkipWord_eq (by decide), if_neg hline]
  dsimp only
  rw [if_neg Bool.false_ne_true, scanSkipWord_eq (by decide), if_neg hnoString]
  dsimp only
  rw [if_neg Bool.false_ne_true, scanSkipWord_eq (by decide), if_neg hnoQuote]
  rfl

/-- A keyword that was found is the lexeme. -/
theorem frontLexeme_found {byte : UInt8} (hhead : rest.head? = some byte)
    (hplain : plainByte byte = true) (hblock : ¬ ascii ['/', '*'] <+: rest)
    (hline : ¬ ascii ['/', '/'] <+: rest) {keyword : LexemeType × List UInt8}
    (hfind : keywords.find? (fun keyword ↦ decide (keyword.2 <+: rest)) = some keyword) :
    frontLexeme turns rest = some ⟨keyword.1, keyword.2⟩ := by
  have htype := keywords_ne_invalid keyword (List.mem_of_find?_eq_some hfind)
  have hfits : keyword.2 <+: rest := by simpa using List.find?_some hfind
  obtain ⟨tail, htail⟩ := hfits
  have htoken : scanToken ⟨rest, false⟩ ⟨rest.drop keyword.2.length, false⟩ = keyword.2 := by
    rw [scanToken, ← htail, List.drop_left, List.length_append, Nat.add_sub_cancel,
      List.take_left]
  rw [frontLexeme, clexImpl_word hhead hplain hblock hline, clexWord,
    clexKeyword_eq keywords_zero, hfind]
  dsimp only [Option.map_some]
  refine (if_neg htype).trans ?_
  rw [htoken]

theorem plainByte_of_isidentchar {byte : UInt8} (h : isidentchar byte = true) :
    plainByte byte = true ∧ byte ≠ 47 ∧ byte ≠ 10 := by
  have hne : ∀ other, isidentchar other = false → byte ≠ other := by
    rintro other hother rfl
    rw [h] at hother
    cases hother
  refine ⟨?_, hne 47 (by decide), hne 10 (by decide)⟩
  simp [plainByte, isgap, isspace, hne 32 (by decide), hne 10 (by decide), hne 13 (by decide),
    hne 9 (by decide), hne 11 (by decide), hne 34 (by decide), hne 39 (by decide)]

theorem head?_eq_of_front (h : word <+: rest) (hne : word ≠ []) : rest.head? = word.head? := by
  obtain ⟨tail, rfl⟩ := h
  rw [List.head?_append, List.head?_eq_some_head hne, Option.some_or]

/-- No comment starts where no slash does. -/
theorem not_comment {byte second : UInt8} (hhead : rest.head? = some byte) (h : byte ≠ 47) :
    ¬ [47, second] <+: rest := by
  intro hfront
  rw [head?_eq_of_front hfront (List.cons_ne_nil _ _), List.head?_cons, Option.some.injEq] at hhead
  exact h hhead.symm

/-- The first keyword in the table that a text starts with. -/
def firstKeyword (text : List UInt8) : Option (LexemeType × List UInt8) :=
  keywords.find? fun keyword ↦ decide (keyword.2 <+: text)

attribute [local grind =] firstKeyword

theorem firstKeyword_congr (h : ∀ keyword ∈ keywords, keyword.2 <+: rest ↔ keyword.2 <+: text) :
    firstKeyword rest = firstKeyword text :=
  List.find?_congr fun keyword hkeyword ↦ decide_eq_decide.mpr (h keyword hkeyword)

namespace IdentRun

variable (h : IdentRun word rest)

include h

theorem head : ∃ byte, rest.head? = some byte ∧ isidentchar byte = true ∧ isdigit byte = false := by
  obtain ⟨byte, hbyte, hdigit⟩ := h.start
  have hmem : byte ∈ rest.takeWhile isidentchar := by
    rw [h.run]
    exact List.mem_of_mem_head? hbyte
  have hfront : word <+: rest := h.run ▸ List.takeWhile_prefix _
  have hne : word ≠ [] := by
    rintro rfl
    cases hbyte
  exact ⟨byte, (head?_eq_of_front hfront hne).trans hbyte, List.mem_takeWhile_imp hmem, hdigit⟩

theorem keyword_iff : ∀ keyword ∈ keywords, keyword.2 <+: rest ↔ keyword.2 <+: word := by
  intro keyword hkeyword
  have hfront : word <+: rest := h.run ▸ List.takeWhile_prefix _
  refine ⟨fun hfits ↦ ?_, fun hfits ↦ hfits.trans hfront⟩
  obtain ⟨byte, hbyte, hident, -⟩ := h.head
  have hhead := head?_eq_of_front hfits (keywords_ne_nil keyword hkeyword)
  rcases keywords_kinds keyword hkeyword with hline | hoperator | hall
  · rw [hbyte, hline, List.head?_cons, Option.some.injEq] at hhead
    exact absurd hhead (plainByte_of_isidentchar hident).2.2
  · obtain ⟨other, hother, -, hnot, -⟩ := punctuators_head _ hoperator
    rw [hbyte, Option.mem_def.mp hother, Option.some.injEq] at hhead
    rw [← hhead, hident] at hnot
    cases hnot
  · obtain ⟨tail, htail⟩ := hfits
    rw [← h.run, ← htail, List.takeWhile_append_of_pos (List.all_eq_true.mp hall)]
    exact List.prefix_append _ _

/-- No keyword is found: the scanner goes over the whole run. -/
theorem clexImpl_ident (hturns : rest.length < turns) (hnone : firstKeyword rest = none) :
    clexImpl turns ⟨rest, false⟩ = .ok (.ident, ⟨rest.dropWhile isidentchar, false⟩) := by
  obtain ⟨byte, hbyte, hident, hdigit⟩ := h.head
  obtain ⟨hplain, hslash, -⟩ := plainByte_of_isidentchar hident
  have hcurr : scanCurr ⟨rest, false⟩ = byte := by
    cases rest with
    | nil => cases hbyte
    | cons other tail => exact Option.some.inj hbyte
  rw [clexImpl_word hbyte hplain (not_comment hbyte hslash) (not_comment hbyte hslash), clexWord,
    clexKeyword_eq keywords_zero]
  rw [firstKeyword] at hnone
  rw [hnone]
  dsimp only [Option.map_none]
  rw [hcurr, hdigit, hident, if_neg Bool.false_ne_true, if_pos rfl, nextWhile_eq _ hturns]
  rfl

theorem frontLexeme_ident (hturns : rest.length < turns) (hnone : firstKeyword rest = none) :
    frontLexeme turns rest = some ⟨.ident, word⟩ := by
  have htoken : scanToken ⟨rest, false⟩ ⟨rest.dropWhile isidentchar, false⟩ = word := by
    have hsplit := @scanToken_append ⟨rest, false⟩ ⟨rest.dropWhile isidentchar, false⟩
      (List.dropWhile_suffix isidentchar)
    rw [← h.run]
    exact List.append_cancel_right (hsplit.trans List.takeWhile_append_dropWhile.symm)
  rw [frontLexeme, h.clexImpl_ident hturns hnone]
  refine (if_neg nofun).trans ?_
  rw [htoken]

/-- The run is taken whole exactly when no keyword is found in front of its end. -/
theorem frontLexeme_iff (hturns : rest.length < turns) :
    frontLexeme turns rest = some ⟨wordType word, word⟩ ↔
      ∀ keyword ∈ keywords, keyword.2 <+: word → keyword.2 = word := by
  obtain ⟨byte, hbyte, hident, -⟩ := h.head
  obtain ⟨hplain, hslash, -⟩ := plainByte_of_isidentchar hident
  have hfirst : firstKeyword rest = firstKeyword word := firstKeyword_congr h.keyword_iff
  cases hfind : firstKeyword word with
  | none =>
    have hnone : ∀ keyword ∈ keywords, ¬ keyword.2 <+: word := fun keyword hkeyword hfits ↦
      List.find?_eq_none.mp hfind keyword hkeyword (decide_eq_true hfits)
    have htype : wordType word = .ident := by
      rw [wordType, List.find?_eq_none.mpr]
      intro keyword hkeyword heq
      exact hnone keyword hkeyword (of_decide_eq_true heq ▸ List.prefix_refl _)
    rw [h.frontLexeme_ident hturns (hfirst.trans hfind), htype]
    exact iff_of_true rfl fun keyword hkeyword hfits ↦ absurd hfits (hnone keyword hkeyword)
  | some found =>
    have hmem := List.mem_of_find?_eq_some hfind
    have hfound := @frontLexeme_found rest turns byte hbyte hplain (not_comment hbyte hslash)
      (not_comment hbyte hslash) found (hfirst.trans hfind)
    rw [hfound, Option.some.injEq, Lexeme.mk.injEq]
    constructor
    · rintro ⟨-, hword⟩
      have hall : found.2.all isidentchar = true := by
        rw [hword, ← h.run, List.all_eq_true]
        exact fun byte hbyte ↦ List.mem_takeWhile_imp hbyte
      rw [← hword]
      apply keywords_words found hmem hall
      rw [hword]
      exact congrArg (Option.map Prod.snd) hfind |>.trans (congrArg some hword)
    · intro hwhole
      have hfits : found.2 <+: word := by simpa using List.find?_some hfind
      have hword := hwhole found hmem hfits
      have hsame : keywords.find? (fun keyword ↦ decide (keyword.2 = word)) = some found := by
        rw [← hfind]
        apply List.find?_congr
        intro keyword hkeyword
        exact decide_eq_decide.mpr ⟨fun heq ↦ heq ▸ List.prefix_refl _, hwhole keyword hkeyword⟩
      refine ⟨?_, hword⟩
      rw [wordType, hsame]

end IdentRun

namespace LongestOperator

variable (h : LongestOperator word rest)

include h

theorem head : ∃ byte, rest.head? = some byte ∧ plainByte byte = true ∧
    isidentchar byte = false ∧ byte ≠ 10 := by
  obtain ⟨byte, hbyte, hkinds⟩ := punctuators_head word h.operator
  have hne : word ≠ [] := by
    rintro rfl
    cases hbyte
  exact ⟨byte, (head?_eq_of_front h.front hne).trans hbyte, hkinds⟩

theorem keyword_iff : ∀ keyword ∈ keywords, keyword.2 <+: rest ↔ keyword.2 <+: word := by
  intro keyword hkeyword
  refine ⟨fun hfits ↦ ?_, fun hfits ↦ hfits.trans h.front⟩
  obtain ⟨byte, hbyte, -, hnot, hline⟩ := h.head
  have hne := keywords_ne_nil keyword hkeyword
  have hhead := head?_eq_of_front hfits hne
  rcases keywords_kinds keyword hkeyword with hend | hoperator | hall
  · rw [hbyte, hend, List.head?_cons, Option.some.injEq] at hhead
    exact absurd hhead hline
  · exact List.prefix_of_prefix_length_le hfits h.front (h.longest _ hoperator hfits)
  · rw [hbyte] at hhead
    have hident := List.all_eq_true.mp hall byte (List.mem_of_mem_head? hhead.symm)
    rw [hnot] at hident
    cases hident

/-- The operator is taken exactly when it is in the table. -/
theorem frontLexeme_iff :
    (frontLexeme turns rest).map Lexeme.str = some word ↔ word ∈ keywords.map Prod.snd := by
  obtain ⟨byte, hbyte, hplain, hnot, -⟩ := h.head
  have hfirst : firstKeyword rest = firstKeyword word := firstKeyword_congr h.keyword_iff
  cases hfind : firstKeyword word with
  | some found =>
    have hmem := List.mem_of_find?_eq_some hfind
    have hfound := @frontLexeme_found rest turns byte hbyte hplain h.block h.line found
      (hfirst.trans hfind)
    rw [hfound, Option.map_some, Option.some.injEq]
    constructor
    · intro hword
      rw [← hword]
      exact List.mem_map_of_mem hmem
    · intro htable
      obtain ⟨keyword, hkeyword, hword⟩ := List.mem_map.mp htable
      have htaken := keywords_operators keyword hkeyword (hword ▸ h.operator)
      rw [hword] at htaken
      rw [firstKeyword] at hfind
      rw [hfind] at htaken
      exact Option.some.inj htaken
  | none =>
    have hdigit : isdigit byte = false := by
      rw [isidentchar, Bool.or_eq_false_iff] at hnot
      exact hnot.2
    have hcurr : scanCurr ⟨rest, false⟩ = byte := by
      cases rest with
      | nil => cases hbyte
      | cons other tail => exact Option.some.inj hbyte
    have hinvalid : frontLexeme turns rest = none := by
      have hnone := hfirst.trans hfind
      rw [firstKeyword] at hnone
      rw [frontLexeme, clexImpl_word hbyte hplain h.block h.line, clexWord,
        clexKeyword_eq keywords_zero, hnone]
      dsimp only [Option.map_none]
      rw [hcurr, hdigit, hnot, if_neg Bool.false_ne_true, if_neg Bool.false_ne_true]
      rfl
    rw [hinvalid]
    refine iff_of_false nofun fun htable ↦ ?_
    obtain ⟨keyword, hkeyword, hword⟩ := List.mem_map.mp htable
    exact List.find?_eq_none.mp hfind keyword hkeyword (decide_eq_true (hword ▸ List.prefix_refl _))

end LongestOperator

/-- At every place where a lexeme starts, identifiers and operators are taken whole exactly when no
keyword is found in front of the end of the identifier, the operator is in the table, and there is
room for them. -/
theorem clex_munches_iff {all : List Lexeme} {last : Scan} (hcuts : TextCuts text all last)
    (h : clexText text = .ok (lexemes, scan)) {k : ℕ} (hk : k ≤ all.length)
    (hrest : lexCollect (all.take k) ++ rest = text) :
    Munches rest lexemes[k]? ↔ MunchesWhen k rest := by
  by_cases hne : rest = []
  · have hident : ∀ word, ¬ IdentRun word rest := by
      intro word hrun
      obtain ⟨byte, hbyte, -⟩ := hrun.head
      rw [hne] at hbyte
      cases hbyte
    have hoperator : ∀ word, ¬ LongestOperator word rest := by
      intro word hlongest
      obtain ⟨byte, hbyte, -⟩ := hlongest.head
      rw [hne] at hbyte
      cases hbyte
    exact iff_of_true ⟨fun word hrun ↦ absurd hrun (hident word),
        fun word hlongest ↦ absurd hlongest (hoperator word)⟩
      ⟨fun word hrun ↦ absurd hrun (hident word),
        fun word hlongest ↦ absurd hlongest (hoperator word),
        fun word hword ↦ (hword.elim (hident word) (hoperator word)).elim⟩
  · obtain ⟨all', last', hcuts', hclex⟩ := clex_cuts text
    obtain ⟨rfl, rfl⟩ := hcuts.unique hcuts'
    cases hclex.symm.trans (clexText_eq_ok.mp h).2
    have hfront : all[k]? = frontLexeme (text.length + 1) rest :=
      Cuts.getElem? hcuts (Nat.lt_succ_self _) (fun herror ↦ by cases herror) hk hrest hne
    have hturns : rest.length < text.length + 1 := by
      rw [← hrest, List.length_append]
      omega
    rw [List.getElem?_take]
    by_cases hroom : k < vecRoom lexemeSize
    · rw [if_pos hroom, hfront]
      constructor
      · intro hmunches
        exact ⟨fun word hrun ↦ (hrun.frontLexeme_iff hturns).mp (hmunches.ident word hrun),
          fun word hlongest ↦ hlongest.frontLexeme_iff.mp (hmunches.operator word hlongest),
          fun _ _ ↦ hroom⟩
      · intro hwhen
        exact ⟨fun word hrun ↦ (hrun.frontLexeme_iff hturns).mpr (hwhen.ident word hrun),
          fun word hlongest ↦ hlongest.frontLexeme_iff.mpr (hwhen.operator word hlongest)⟩
    · rw [if_neg hroom]
      constructor
      · intro hmunches
        exact ⟨fun word hrun ↦ absurd (hmunches.ident word hrun).symm (Option.some_ne_none _),
          fun word hlongest ↦ absurd (hmunches.operator word hlongest).symm (Option.some_ne_none _),
          fun word hword ↦ hword.elim
            (fun hrun ↦ absurd (hmunches.ident word hrun).symm (Option.some_ne_none _))
            fun hlongest ↦ absurd (hmunches.operator word hlongest).symm (Option.some_ne_none _)⟩
      · intro hwhen
        exact ⟨fun word hrun ↦ absurd (hwhen.room word (.inl hrun)) hroom,
          fun word hlongest ↦ absurd (hwhen.room word (.inr hlongest)) hroom⟩

/-- The operator `<<=` stands in front of its parts. -/
theorem clex_munches_lshiftEq :
    Munches (ascii ['<', '<', '=']) (some ⟨.lshiftEq, ascii ['<', '<', '=']⟩) := by
  have hrun : clexText (ascii ['<', '<', '=']) =
      .ok ([⟨.lshiftEq, ascii ['<', '<', '=']⟩], ⟨[], false⟩) := by rfl
  have hcuts := textCuts_of_clexText hrun (by decide)
  refine (clex_munches_iff hcuts hrun (Nat.zero_le _) rfl).mpr
    ⟨fun word hword ↦ ?_, fun word hword ↦ ?_, fun _ _ ↦ vecRoom_lexemeSize ▸ by decide⟩
  · obtain ⟨byte, hbyte, hident, -⟩ := hword.head
    cases hbyte
    cases hident
  · have hlong := hword.longest (ascii ['<', '<', '=']) (by decide) (List.prefix_refl _)
    rw [hword.front.eq_of_length_le hlong]
    decide

/-- `integer` is taken apart behind `int`. -/
theorem clex_munches_fails :
    ¬ ∀ text all last lexemes scan, TextCuts text all last → clexText text = .ok (lexemes, scan) →
      ∀ k ≤ all.length, ∀ rest, lexCollect (all.take k) ++ rest = text →
        Munches rest lexemes[k]? := by
  intro h
  have hrun : clexText (ascii ['i', 'n', 't', 'e', 'g', 'e', 'r']) =
      .ok ([⟨.kwInt, ascii ['i', 'n', 't']⟩, ⟨.ident, ascii ['e', 'g', 'e', 'r']⟩],
        ⟨[], false⟩) := by rfl
  have hcuts := textCuts_of_clexText hrun (by decide)
  have hident := (h _ _ _ _ _ hcuts hrun 0 (Nat.zero_le _) _ rfl).ident
    (ascii ['i', 'n', 't', 'e', 'g', 'e', 'r']) ⟨by decide, by decide⟩
  rw [List.getElem?_cons_zero, Option.some.injEq, Lexeme.mk.injEq] at hident
  exact absurd hident.2 (by decide)

end Brutal.Cc
