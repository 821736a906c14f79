import Brutal.Cc.Munch
import Brutal.Cc.Preprocessor

/-!
# Token pasting

`cproc_gen_concatenation` keeps the operand on the left of a `##` in a variable, and does not put
the lexeme there that comes out: in a chain, every operand is put behind the first one, in place of
what was put there before.  What is put together is lexed again, and the lexemes that come out go
into a vector like all others: the text has to be one that `scan_init` takes, and the vector has to
have room.
-/

namespace Brutal.Cc

open Base Ds.Growth Lib Text

/-- The text is this one lexeme. -/
def Single (text : List UInt8) (lexeme : Lexeme) : Prop :=
  ∃ scan, TextCuts text [lexeme] scan ∧ scan.hasError = false

/-- A `##` with the white space around it, and the operand on its right. -/
structure Link where
  before : List Lexeme
  operator : Lexeme
  after : List Lexeme
  operand : Lexeme
deriving DecidableEq, Repr

namespace Link

/-- The lexemes of a link. -/
def lexemes (link : Link) : List Lexeme :=
  link.before ++ link.operator :: (link.after ++ [link.operand])

/-- The operands are joined by white space and the operator. -/
structure Joins (link : Link) : Prop where
  before : ∀ lexeme ∈ link.before, isWhitespace lexeme = true
  operator : link.operator.type = .doublePound
  after : ∀ lexeme ∈ link.after, isWhitespace lexeme = true
  operand : isWhitespace link.operand = false
  operand_ne : link.operand.type ≠ .doublePound

end Link

/-- What the operands of a chain are spelled like together. -/
def spelling (first : Lexeme) (links : List Link) : List UInt8 :=
  first.str ++ links.flatMap (·.operand.str)

/-- `a1 ## a2 ## … ## an`, where the operands up to each one are spelled like a lexeme. -/
structure Chain (first : Lexeme) (links : List Link) : Prop where
  space : isWhitespace first = false
  operator : first.type ≠ .doublePound
  lexeme : Single first.str first
  ne_nil : links ≠ []
  joins : ∀ link ∈ links, link.Joins
  single : ∀ k ≤ links.length, ∃ lexeme, Single (spelling first (links.take k)) lexeme

variable {sizes : Sizes} {text : List UInt8} {turns : ℕ} {scan next : Scan} {type : LexemeType}
  {lhs first last lexeme : Lexeme} {concatenating : Bool} {out base before after rest : List Lexeme}
  {link : Link} {links : List Link}

theorem clexKeyword_mem {list : List (LexemeType × List UInt8)}
    (h : clexKeyword scan list = some (type, next)) : ∃ keyword ∈ list, keyword.1 = type := by
  induction list generalizing scan with
  | nil => cases h
  | cons keyword list ih =>
    obtain ⟨other, literal⟩ := keyword
    rw [clexKeyword] at h
    split at h
    · cases h
      exact ⟨_, List.mem_cons_self, rfl⟩
    · obtain ⟨found, hmem, hfound⟩ := ih h
      exact ⟨found, List.mem_cons_of_mem _ hmem, hfound⟩

/-- A type that stands for a lexeme, and not for white space. -/
def Solid (type : LexemeType) : Prop := type ≠ .none ∧ type ≠ .whitespace

instance (type : LexemeType) : Decidable (Solid type) := inferInstanceAs (Decidable (_ ∧ _))

theorem keywords_solid : ∀ keyword ∈ keywords, Solid keyword.1 := by decide

theorem clexWord_solid (h : clexWord turns scan = .ok (type, next)) : Solid type := by
  rw [clexWord] at h
  split at h
  · cases h
    obtain ⟨keyword, hmem, htype⟩ := clexKeyword_mem ‹_›
    exact htype ▸ keywords_solid keyword hmem
  · split at h
    · obtain ⟨_, -, h⟩ := bind_eq_ok.mp h
      cases h
      decide
    · split at h
      · obtain ⟨_, -, h⟩ := bind_eq_ok.mp h
        cases h
        decide
      · cases h
        decide

/-- White space is what starts with a gap. -/
theorem clexImpl_type (h : clexImpl turns scan = .ok (type, next)) :
    type ≠ .none ∧ (type = .whitespace ↔ isgap (scanCurr scan) = true) := by
  rw [clexImpl] at h
  by_cases hgap : isgap (scanCurr scan) = true
  · rw [if_pos hgap] at h
    obtain ⟨_, -, h⟩ := bind_eq_ok.mp h
    cases h
    exact ⟨by rintro ⟨⟩, iff_of_true rfl hgap⟩
  · rw [if_neg hgap] at h
    have hsolid : Solid type := by
      dsimp only at h
      split at h
      · obtain ⟨_, -, h⟩ := bind_eq_ok.mp h
        cases h
        decide
      · split at h
        · obtain ⟨_, -, h⟩ := bind_eq_ok.mp h
          cases h
          decide
        · split at h
          · obtain ⟨_, -, h⟩ := bind_eq_ok.mp h
            cases h
            decide
          · split at h
            · cases h
              decide
            · exact clexWord_solid h
    exact ⟨hsolid.1, iff_of_false hsolid.2 hgap⟩

/-- The first lexeme of a text is a part of it, and white space only where the text starts so. -/
structure FirstLexeme (text : List UInt8) (lexeme : Lexeme) : Prop where
  front : lexeme.str <+: text
  ne_none : lexeme.type ≠ .none
  isWhitespace_iff : isWhitespace lexeme = true ↔ isgap (scanCurr ⟨text, false⟩) = true

theorem TextCuts.firstLexeme {more : List Lexeme} (h : TextCuts text (lexeme :: more) scan) :
    FirstLexeme text lexeme := by
  have hfront : lexeme.str <+: text := by
    have hfront := h.pieces.front
    rw [lexCollect_cons] at hfront
    exact (List.prefix_append _ _).trans hfront
  cases h with
  | lexeme hended himpl =>
    obtain ⟨hnone, hspace⟩ := clexImpl_type himpl
    exact ⟨hfront, hnone, decide_eq_true_iff.trans hspace⟩

theorem clex_first {more : List Lexeme} (h : clex ⟨text, false⟩ = .ok (lexeme :: more, scan)) :
    FirstLexeme text lexeme := by
  obtain ⟨lexemes, last, hcuts, hrun⟩ := clex_cuts text
  have htake := congrArg Prod.fst (Except.ok.inj (hrun.symm.trans h))
  dsimp only at htake
  cases lexemes with
  | nil =>
    rw [List.take_nil] at htake
    cases htake
  | cons first lexemes =>
    have hhead := congrArg List.head? htake
    rw [List.head?_take, if_neg (by rw [vecRoom_lexemeSize]; decide)] at hhead
    cases hhead
    exact TextCuts.firstLexeme hcuts

theorem Single.clex_eq (h : Single text lexeme) :
    ∃ scan, clex ⟨text, false⟩ = .ok ([lexeme], scan) := by
  obtain ⟨scan, hcuts, -⟩ := h
  obtain ⟨lexemes, last, hcuts', hrun⟩ := clex_cuts text
  obtain ⟨rfl, rfl⟩ := hcuts.unique hcuts'
  rw [List.take_of_length_le (by rw [vecRoom_lexemeSize, List.length_singleton]; decide)] at hrun
  exact ⟨_, hrun⟩

/-- What the lexer takes for one lexeme is one. -/
theorem single_of_clexText (h : clexText text = .ok ([lexeme], scan))
    (hok : scan.hasError = false) :
    Single text lexeme :=
  ⟨scan, textCuts_of_clexText h (by rw [vecRoom_lexemeSize, List.length_singleton]; decide), hok⟩

theorem Single.str (h : Single text lexeme) : lexeme.str = text := by
  obtain ⟨scan, hcuts, hok⟩ := h
  have hcollect := hcuts.pieces.whole hok
  rwa [lexCollect, List.flatMap_singleton] at hcollect

theorem Single.ne_nil (h : Single text lexeme) : text ≠ [] := by
  obtain ⟨scan, hcuts, -⟩ := h
  rintro rfl
  cases hcuts with
  | lexeme hended => cases hended

theorem Single.firstLexeme (h : Single text lexeme) : FirstLexeme text lexeme := by
  obtain ⟨scan, hcuts, -⟩ := h
  exact TextCuts.firstLexeme hcuts

/-- A run of identifier characters with no keyword at its front is a single lexeme. -/
theorem single_ident {word : List UInt8} (hrun : IdentRun word word)
    (hnone : firstKeyword word = none) : Single word ⟨.ident, word⟩ := by
  have hall : word.dropWhile isidentchar = [] := by
    have hsplit := (@List.takeWhile_append_dropWhile _ isidentchar word)
    rw [hrun.run] at hsplit
    exact List.self_eq_append_right.mp hsplit.symm
  have hended : scanEnded ⟨word, false⟩ = false := by
    obtain ⟨byte, hbyte, -⟩ := hrun.head
    cases word with
    | nil => cases hbyte
    | cons byte word => rfl
  have htoken : scanToken ⟨word, false⟩ ⟨[], false⟩ = word := List.take_length
  have himpl := hrun.clexImpl_ident (Nat.lt_succ_self _) hnone
  rw [hall] at himpl
  refine ⟨⟨[], false⟩, ?_, rfl⟩
  have hcuts := Cuts.lexeme hended himpl nofun (.ended rfl)
  rwa [htoken] at hcuts

theorem cprocScanInit_of_fits (h : sizes.Fits text.length) :
    cprocScanInit sizes text = .ok ⟨text, false⟩ := by
  cases sizes with
  | int => exact if_pos h
  | any => rfl

theorem cprocScanInit_eq_ok (h : cprocScanInit sizes text = .ok scan) :
    sizes.Fits text.length ∧ scan = ⟨text, false⟩ := by
  cases sizes with
  | int =>
    rw [cprocScanInit, scanInit] at h
    split at h
    · cases h
      exact ⟨‹_›, rfl⟩
    · cases h
  | any =>
    cases h
    exact ⟨trivial, rfl⟩

theorem cprocPaste_single (hfits : sizes.Fits (lhs.str ++ first.str).length)
    (h : Single (lhs.str ++ first.str) lexeme) : cprocPaste sizes lhs first = .ok lexeme := by
  obtain ⟨scan, hrun⟩ := h.clex_eq
  rw [cprocPaste, cprocScanInit_of_fits hfits, ok_bind, hrun]
  rfl

theorem cprocPaste_eq_ok (h : cprocPaste sizes lhs first = .ok lexeme) :
    sizes.Fits (lhs.str ++ first.str).length ∧
      ∃ more scan, clex ⟨lhs.str ++ first.str, false⟩ = .ok (lexeme :: more, scan) := by
  rw [cprocPaste] at h
  obtain ⟨start, hstart, h⟩ := bind_eq_ok.mp h
  obtain ⟨hfits, rfl⟩ := cprocScanInit_eq_ok hstart
  obtain ⟨⟨lexemes, scan⟩, hrun, h⟩ := bind_eq_ok.mp h
  dsimp only at h
  split at h
  · cases h
  · cases lexemes with
    | nil => cases h
    | cons other more =>
      cases h
      exact ⟨hfits, more, scan, hrun⟩

theorem removeLastNonSpace_append {spaces : List Lexeme}
    (hspaces : ∀ lexeme ∈ spaces, isWhitespace lexeme = true) (hlast : isWhitespace last = false)
    (rest : List Lexeme) : removeLastNonSpace (spaces ++ last :: rest) = .ok rest := by
  induction spaces with
  | nil => rw [List.nil_append, removeLastNonSpace, if_neg (by simp [hlast])]
  | cons space spaces ih =>
    rw [List.cons_append, removeLastNonSpace, if_pos (hspaces space List.mem_cons_self)]
    exact ih fun lexeme hmem ↦ hspaces lexeme (List.mem_cons_of_mem _ hmem)

theorem cprocRemoveLastNonSpaceKeyword_append {spaces : List Lexeme}
    (hspaces : ∀ lexeme ∈ spaces, isWhitespace lexeme = true) (hlast : isWhitespace last = false)
    (base : List Lexeme) :
    cprocRemoveLastNonSpaceKeyword (base ++ [last] ++ spaces) = .ok base := by
  have hreverse : (base ++ [last] ++ spaces).reverse = spaces.reverse ++ last :: base.reverse := by
    simp
  have hspaces' : ∀ lexeme ∈ spaces.reverse, isWhitespace lexeme = true :=
    fun lexeme hmem ↦ hspaces lexeme (List.mem_reverse.mp hmem)
  rw [cprocRemoveLastNonSpaceKeyword, hreverse, removeLastNonSpace_append hspaces' hlast]
  exact congrArg Except.ok (List.reverse_reverse base)

/-- White space is put out in any state. -/
theorem cprocConcatenate_spaces {spaces : List Lexeme}
    (hspaces : ∀ lexeme ∈ spaces, isWhitespace lexeme = true) :
    cprocConcatenate sizes lhs concatenating out (spaces ++ rest) =
      cprocConcatenate sizes lhs concatenating (spaces.foldl (sizes.push lexemeSize) out) rest := by
  induction spaces generalizing out with
  | nil => rfl
  | cons space spaces ih =>
    rw [List.cons_append, cprocConcatenate, if_pos (hspaces space List.mem_cons_self),
      ih fun lexeme hmem ↦ hspaces lexeme (List.mem_cons_of_mem _ hmem), List.foldl_cons]

/-- A link puts its operand behind the first one, in place of the last lexeme. -/
theorem cprocConcatenate_link (hjoins : link.Joins) (hnone : first.type ≠ .none)
    (hlast : isWhitespace last = false) (hroom : sizes.HasRoom lexemeSize (base.length + 1)) :
    cprocConcatenate sizes first false (base ++ [last]) (link.lexemes ++ rest) = (do
      let final ← cprocPaste sizes first link.operand
      cprocConcatenate sizes first false (base ++ [final]) rest) := by
  have hoperator : isWhitespace link.operator = false := by
    rw [isWhitespace, hjoins.operator]
    rfl
  rw [Link.lexemes, List.append_assoc, cprocConcatenate_spaces hjoins.before, List.cons_append,
    cprocConcatenate, if_neg (by simp [hoperator]), if_pos hjoins.operator,
    List.append_assoc link.after,
    cprocConcatenate_spaces hjoins.after, List.singleton_append, cprocConcatenate,
    if_neg (by simp [hjoins.operand]), if_neg hjoins.operand_ne, if_pos rfl, if_neg hnone]
  obtain ⟨before, hbefore, hpushed⟩ := sizes.foldl_push lexemeSize (base ++ [last]) link.before
  obtain ⟨after, hafter, hpushed'⟩ :=
    sizes.foldl_push lexemeSize (base ++ [last] ++ before) link.after
  have hspaces : ∀ lexeme ∈ before ++ after, isWhitespace lexeme = true := by
    intro lexeme hmem
    rcases List.mem_append.mp hmem with hmem | hmem
    · exact hjoins.before lexeme (hbefore.subset hmem)
    · exact hjoins.after lexeme (hafter.subset hmem)
  rw [hpushed, hpushed', List.append_assoc _ before after,
    cprocRemoveLastNonSpaceKeyword_append hspaces hlast, ok_bind]
  refine bind_congr fun final ↦ ?_
  rw [Sizes.push_of_room hroom]

/-- What is left of the operands of the links: all of them are tried, and the last one is kept. -/
def pasteAll (sizes : Sizes) (first : Lexeme) (links : List Link) (last : Lexeme) :
    Except Fault Lexeme :=
  links.foldlM (fun _ link ↦ cprocPaste sizes first link.operand) last

theorem cprocConcatenate_links (hjoins : ∀ link ∈ links, link.Joins) (hnone : first.type ≠ .none)
    (hfirst : isgap (scanCurr ⟨first.str, false⟩) = false) (hstr : first.str ≠ [])
    (hlast : isWhitespace last = false) (hroom : sizes.HasRoom lexemeSize (base.length + 1)) :
    cprocConcatenate sizes first false (base ++ [last]) (links.flatMap Link.lexemes ++ rest) = (do
      let final ← pasteAll sizes first links last
      cprocConcatenate sizes first false (base ++ [final]) rest) := by
  induction links generalizing last with
  | nil => rfl
  | cons link links ih =>
    rw [List.flatMap_cons, List.append_assoc,
      cprocConcatenate_link (hjoins link List.mem_cons_self) hnone hlast hroom, pasteAll,
      List.foldlM_cons, bind_assoc]
    cases hpaste : cprocPaste sizes first link.operand with
    | error fault => rfl
    | ok final =>
      obtain ⟨-, more, scan, hrun⟩ := cprocPaste_eq_ok hpaste
      have hcurr : scanCurr ⟨first.str ++ link.operand.str, false⟩ =
          scanCurr ⟨first.str, false⟩ := by
        cases hbytes : first.str with
        | nil => exact absurd hbytes hstr
        | cons byte bytes => rfl
      have hfinal : isWhitespace final = false := by
        rw [Bool.eq_false_iff, Ne, (clex_first hrun).isWhitespace_iff, hcurr, hfirst]
        exact Bool.false_ne_true
      rw [ok_bind, ok_bind]
      exact ih (fun link hmem ↦ hjoins link (List.mem_cons_of_mem _ hmem)) hfinal

/-- Lexemes without a `##` are put out. -/
theorem cprocConcatenate_plain (hplain : ∀ lexeme ∈ before, lexeme.type ≠ .doublePound)
    (lhs : Lexeme) (out rest : List Lexeme) :
    ∃ lhs', cprocConcatenate sizes lhs false out (before ++ rest) =
      cprocConcatenate sizes lhs' false (before.foldl (sizes.push lexemeSize) out) rest := by
  induction before generalizing lhs out with
  | nil => exact ⟨lhs, rfl⟩
  | cons lexeme before ih =>
    have hbefore : ∀ lexeme ∈ before, lexeme.type ≠ .doublePound :=
      fun lexeme hmem ↦ hplain lexeme (List.mem_cons_of_mem _ hmem)
    rw [List.cons_append, cprocConcatenate]
    by_cases hspace : isWhitespace lexeme = true
    · obtain ⟨lhs', hrun⟩ := ih hbefore lhs (sizes.push lexemeSize out lexeme)
      rw [if_pos hspace, hrun]
      exact ⟨lhs', rfl⟩
    · obtain ⟨lhs', hrun⟩ := ih hbefore lexeme (sizes.push lexemeSize out lexeme)
      rw [if_neg hspace, if_neg (hplain lexeme List.mem_cons_self), if_neg Bool.false_ne_true,
        hrun]
      exact ⟨lhs', rfl⟩

/-- The operands are tried one after the other, and the last one is put behind the first. -/
theorem cprocGenConcatenation_chain (hchain : Chain first links)
    (hbefore : ∀ lexeme ∈ before, lexeme.type ≠ .doublePound)
    (hafter : ∀ lexeme ∈ after, lexeme.type ≠ .doublePound)
    (hroom : sizes.HasRoom lexemeSize (out.length + before.length + 1 + after.length)) :
    cprocGenConcatenation sizes out (before ++ first :: (links.flatMap Link.lexemes ++ after)) =
      (do
        let final ← pasteAll sizes first links first
        return out ++ before ++ final :: after) := by
  have hfirst := hchain.lexeme.firstLexeme
  have hgap : isgap (scanCurr ⟨first.str, false⟩) = false := by
    rw [Bool.eq_false_iff, Ne, ← hfirst.isWhitespace_iff, hchain.space]
    exact Bool.false_ne_true
  have hbeforeRoom : sizes.HasRoom lexemeSize (out.length + before.length) := hroom.mono (by omega)
  have hfirstRoom : sizes.HasRoom lexemeSize ((out ++ before).length + 1) := by
    rw [List.length_append]
    exact hroom.mono (Nat.le_add_right _ _)
  obtain ⟨lhs, hrun⟩ := @cprocConcatenate_plain sizes _ hbefore ⟨.none, []⟩ out
    (first :: (links.flatMap Link.lexemes ++ after))
  rw [cprocGenConcatenation, hrun, Sizes.foldl_push_of_room hbeforeRoom, cprocConcatenate,
    if_neg (by simp [hchain.space]), if_neg hchain.operator, if_neg Bool.false_ne_true,
    Sizes.push_of_room hfirstRoom,
    cprocConcatenate_links hchain.joins hfirst.ne_none hgap hchain.lexeme.ne_nil hchain.space
      hfirstRoom]
  refine bind_congr fun final ↦ ?_
  obtain ⟨lhs', hrest⟩ := @cprocConcatenate_plain sizes _ hafter first (out ++ before ++ [final]) []
  have hafterRoom :
      sizes.HasRoom lexemeSize ((out ++ before ++ [final]).length + after.length) := by
    rwa [List.length_append, List.length_append, List.length_singleton]
  rw [List.append_nil] at hrest
  rw [hrest, cprocConcatenate, Sizes.foldl_push_of_room hafterRoom, List.append_assoc,
    List.singleton_append]
  rfl

/-- What is kept is spelled with the first operand and the last one. -/
theorem pasteAll_concat (first last : Lexeme) (links : List Link) (link : Link) :
    pasteAll sizes first (links ++ [link]) last = (do
      let _ ← pasteAll sizes first links last
      cprocPaste sizes first link.operand) := by
  rw [pasteAll, List.foldlM_append, pasteAll]
  refine bind_congr fun final ↦ ?_
  rw [List.foldlM_cons]
  exact bind_pure _

theorem spelling_concat (first : Lexeme) (links : List Link) (link : Link) :
    spelling first (links ++ [link]) = spelling first links ++ link.operand.str := by
  rw [spelling, List.flatMap_append, List.flatMap_singleton, ← List.append_assoc, spelling]

/-- Operands that are spelled with nothing change nothing. -/
theorem pasteAll_empty (hfirst : Single first.str first) (hfits : sizes.Fits first.str.length)
    (hempty : ∀ link ∈ links, link.operand.str = []) :
    pasteAll sizes first links first = .ok first := by
  induction links with
  | nil => rfl
  | cons link links ih =>
    have hpaste : cprocPaste sizes first link.operand = .ok first := by
      have hstr : first.str ++ link.operand.str = first.str := by
        rw [hempty link List.mem_cons_self, List.append_nil]
      apply cprocPaste_single
      · rwa [hstr]
      · rwa [hstr]
    rw [pasteAll, List.foldlM_cons, hpaste, ok_bind]
    exact ih fun link hmem ↦ hempty link (List.mem_cons_of_mem _ hmem)

theorem removeLastNonSpace_length {lexemes : List Lexeme} {removed : List Lexeme}
    (h : removeLastNonSpace lexemes = .ok removed) : removed.length < lexemes.length := by
  induction lexemes with
  | nil => cases h
  | cons last before ih =>
    rw [removeLastNonSpace] at h
    split at h
    · exact (ih h).trans (Nat.lt_succ_self _)
    · cases h
      exact Nat.lt_succ_self _

/-- There are never more lexemes than there is room for, or than there were before. -/
theorem cprocConcatenate_length {source result : List Lexeme} {count : ℕ}
    (hout : out.length ≤ count) (hroom : vecRoom lexemeSize ≤ count)
    (h : cprocConcatenate .int lhs concatenating out source = .ok result) :
    result.length ≤ count := by
  induction source generalizing lhs concatenating out with
  | nil =>
    cases h
    exact hout
  | cons lexeme rest ih =>
    rw [cprocConcatenate] at h
    split at h
    · exact ih (Sizes.length_push_int_le hout hroom lexeme) h
    · split at h
      · exact ih hout h
      · split at h
        · split at h
          · cases h
          · obtain ⟨removed, hremoved, h⟩ := bind_eq_ok.mp h
            obtain ⟨final, -, h⟩ := bind_eq_ok.mp h
            rw [cprocRemoveLastNonSpaceKeyword] at hremoved
            cases hreversed : removeLastNonSpace out.reverse with
            | error fault =>
              rw [hreversed] at hremoved
              cases hremoved
            | ok reversed =>
              rw [hreversed] at hremoved
              cases hremoved
              have hlt := removeLastNonSpace_length hreversed
              rw [List.length_reverse] at hlt
              refine ih (Sizes.length_push_int_le ?_ hroom final) h
              rw [List.length_reverse]
              omega
        · exact ih (Sizes.length_push_int_le hout hroom lexeme) h

/-- A chain is put together exactly when only its first and its last operand are spelled with
anything, when what they are spelled like is no longer than an `int` says, and when there is room
for all that comes out. -/
theorem cprocGenConcatenation_chain_iff (hchain : Chain first links)
    (hsingle : Single (spelling first links) lexeme)
    (hbefore : ∀ lexeme ∈ before, lexeme.type ≠ .doublePound)
    (hafter : ∀ lexeme ∈ after, lexeme.type ≠ .doublePound) (out : List Lexeme) :
    cprocGenConcatenation .int out (before ++ first :: (links.flatMap Link.lexemes ++ after)) =
        .ok (out ++ before ++ lexeme :: after) ↔
      (∀ link ∈ links.dropLast, link.operand.str = []) ∧ (spelling first links).length < 2 ^ 31 ∧
        out.length + before.length + 1 + after.length ≤ vecRoom lexemeSize := by
  obtain ⟨init, link, rfl⟩ := (List.eq_nil_or_concat links).resolve_left hchain.ne_nil
  rw [List.concat_eq_append] at hchain hsingle ⊢
  rw [List.dropLast_concat]
  rw [spelling_concat] at hsingle ⊢
  constructor
  · intro hrun
    have hroom : out.length + before.length + 1 + after.length ≤ vecRoom lexemeSize := by
      rcases Nat.le_total out.length (vecRoom lexemeSize) with hout | hout
      · have hlength := cprocConcatenate_length hout le_rfl hrun
        rw [List.length_append, List.length_append, List.length_cons] at hlength
        omega
      · have hlength := cprocConcatenate_length le_rfl hout hrun
        rw [List.length_append, List.length_append, List.length_cons] at hlength
        omega
    rw [@cprocGenConcatenation_chain .int _ _ _ _ _ hchain hbefore hafter hroom,
      pasteAll_concat] at hrun
    obtain ⟨final, hpaste, hout⟩ := bind_eq_ok.mp hrun
    obtain ⟨_, -, hlast⟩ := bind_eq_ok.mp hpaste
    have hlexeme : final = lexeme := by
      have hsame := List.append_cancel_left (Except.ok.inj hout)
      exact (List.cons.inj hsame).1
    obtain ⟨hfits, more, scan, hclex⟩ := cprocPaste_eq_ok hlast
    have hlength := (clex_first hclex).front.length_le
    rw [hlexeme, hsingle.str, spelling, List.length_append, List.length_append,
      List.length_append] at hlength
    have hnil : init.flatMap (·.operand.str) = [] := by
      apply List.eq_nil_of_length_eq_zero
      omega
    refine ⟨List.flatMap_eq_nil_iff.mp hnil, ?_, hroom⟩
    rw [spelling, hnil, List.append_nil]
    exact hfits
  · rintro ⟨hempty, hlength, hroom⟩
    have hnil : init.flatMap (·.operand.str) = [] := List.flatMap_eq_nil_iff.mpr hempty
    rw [spelling, hnil, List.append_nil] at hsingle hlength
    have hfits : first.str.length < 2 ^ 31 := by
      rw [List.length_append] at hlength
      omega
    rw [@cprocGenConcatenation_chain .int _ _ _ _ _ hchain hbefore hafter hroom, pasteAll_concat,
      @pasteAll_empty .int _ _ hchain.lexeme hfits hempty, ok_bind,
      @cprocPaste_single .int _ _ _ hlength hsingle]
    rfl

/-- The white space around an operator is dropped. -/
theorem cprocGenConcatenation_ab :
    cprocGenConcatenation .int [] [⟨.ident, ascii ['a']⟩, ⟨.whitespace, ascii [' ']⟩,
      ⟨.doublePound, ascii ['#', '#']⟩, ⟨.whitespace, ascii [' ']⟩, ⟨.ident, ascii ['b']⟩] =
        .ok [⟨.ident, ascii ['a', 'b']⟩] := by
  have hchain : Chain ⟨.ident, ascii ['a']⟩ [⟨[⟨.whitespace, ascii [' ']⟩],
      ⟨.doublePound, ascii ['#', '#']⟩, [⟨.whitespace, ascii [' ']⟩], ⟨.ident, ascii ['b']⟩⟩] := by
    refine ⟨by decide, by decide, single_of_clexText (by rfl) rfl, by decide, ?_, ?_⟩
    · intro link hmem
      rw [List.mem_singleton.mp hmem]
      exact ⟨by decide, by decide, by decide, by decide, by decide⟩
    · intro k hk
      obtain rfl | rfl : k = 0 ∨ k = 1 := Nat.le_one_iff_eq_zero_or_eq_one.mp hk
      · exact ⟨⟨.ident, ascii ['a']⟩, single_of_clexText (by rfl) rfl⟩
      · exact ⟨⟨.ident, ascii ['a', 'b']⟩, single_of_clexText (by rfl) rfl⟩
  have hsingle : Single (ascii ['a', 'b']) ⟨.ident, ascii ['a', 'b']⟩ :=
    single_of_clexText (by rfl) rfl
  apply (@cprocGenConcatenation_chain_iff _ _ [] [] _ hchain hsingle nofun nofun []).mpr
  refine ⟨fun link hlink ↦ absurd hlink List.not_mem_nil, by decide, ?_⟩
  rw [vecRoom_lexemeSize]
  decide

/-- `a##b##c` becomes `ac`. -/
theorem cprocGenConcatenation_chain_fails :
    ¬ ∀ first links lexeme, Chain first links → Single (spelling first links) lexeme →
      ∀ before after : List Lexeme, (∀ lexeme ∈ before, lexeme.type ≠ .doublePound) →
        (∀ lexeme ∈ after, lexeme.type ≠ .doublePound) → ∀ out,
          cprocGenConcatenation .int out
            (before ++ first :: (links.flatMap Link.lexemes ++ after)) =
            .ok (out ++ before ++ lexeme :: after) := by
  intro h
  have hjoins : ∀ byte : Char, (⟨[], ⟨.doublePound, ascii ['#', '#']⟩, [],
      ⟨.ident, ascii [byte]⟩⟩ : Link).Joins := fun byte ↦ ⟨nofun, rfl, nofun, rfl, nofun⟩
  have hchain : Chain ⟨.ident, ascii ['a']⟩
      [⟨[], ⟨.doublePound, ascii ['#', '#']⟩, [], ⟨.ident, ascii ['b']⟩⟩,
        ⟨[], ⟨.doublePound, ascii ['#', '#']⟩, [], ⟨.ident, ascii ['c']⟩⟩] := by
    refine ⟨rfl, nofun, single_of_clexText (by rfl) rfl, nofun, ?_, ?_⟩
    · intro link hmem
      rcases List.mem_cons.mp hmem with rfl | hmem
      · exact hjoins 'b'
      · rw [List.mem_singleton.mp hmem]
        exact hjoins 'c'
    · intro k hk
      obtain rfl | rfl | rfl : k = 0 ∨ k = 1 ∨ k = 2 := by
        rw [List.length_cons, List.length_singleton] at hk
        omega
      · exact ⟨⟨.ident, ascii ['a']⟩, single_of_clexText (by rfl) rfl⟩
      · exact ⟨⟨.ident, ascii ['a', 'b']⟩, single_of_clexText (by rfl) rfl⟩
      · exact ⟨⟨.ident, ascii ['a', 'b', 'c']⟩, single_of_clexText (by rfl) rfl⟩
  have hsingle : Single (ascii ['a', 'b', 'c']) ⟨.ident, ascii ['a', 'b', 'c']⟩ :=
    single_of_clexText (by rfl) rfl
  have hrun := h _ _ _ hchain hsingle [] [] nofun nofun []
  have hcode :
      cprocGenConcatenation .int [] [⟨.ident, ascii ['a']⟩, ⟨.doublePound, ascii ['#', '#']⟩,
      ⟨.ident, ascii ['b']⟩, ⟨.doublePound, ascii ['#', '#']⟩, ⟨.ident, ascii ['c']⟩] =
      .ok [⟨.ident, ascii ['a', 'c']⟩] := by rfl
  have hsame := hcode.symm.trans hrun
  revert hsame
  decide

end Brutal.Cc
