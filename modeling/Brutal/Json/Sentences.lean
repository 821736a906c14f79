import Brutal.Json.Missing

/-!
# Sentences

A sentence of the grammar with the comments of C is one for the parser, too, unless it has a comment
that the parser ends at `/*/`; only between the brackets of an empty array or object the parser
takes no space for what it is.
-/

namespace Brutal.JsonFormat

open Base Ds Ds.Growth Lib Text

theorem Gap.suffix {isComment : List UInt8 → Prop} {text rest : List UInt8}
    (h : Gap isComment text rest) : rest <:+ text := by
  induction h with
  | done => exact List.suffix_rfl
  | space _ _ ih => exact ih.trans (List.suffix_cons _ _)
  | comment _ _ ih => exact ih.trans (List.suffix_append _ _)

theorem BeginsMember.suffix {isComment : List UInt8 → Prop} {text name rest : List UInt8}
    (h : BeginsMember isComment text name rest) : rest <:+ text := by
  obtain ⟨behind, hgap, -, hcolon⟩ := h
  calc rest <:+ 58 :: rest := List.suffix_cons _ _
    _ <:+ behind := hcolon.suffix
    _ <:+ 34 :: behind := List.suffix_cons _ _
    _ <:+ name ++ 34 :: behind := List.suffix_append _ _
    _ <:+ 34 :: (name ++ 34 :: behind) := List.suffix_cons _ _
    _ <:+ text := hgap.suffix

theorem Derives.suffix {d : Dialect} {text rest : List UInt8} {phrase : Phrase}
    (h : Derives d text phrase rest) : rest <:+ text := by
  induction h with
  | nullWord rest => exact List.suffix_append _ _
  | trueWord rest => exact List.suffix_append _ _
  | falseWord rest => exact List.suffix_append _ _
  | string _ rest =>
    exact (List.suffix_cons _ _).trans ((List.suffix_append _ _).trans (List.suffix_cons _ _))
  | number _ _ _ _ rest => exact (List.suffix_append _ _).trans (List.suffix_append _ _)
  | array _ _ ih => exact ih.trans (List.suffix_cons _ _)
  | object _ _ ih => exact ih.trans (List.suffix_cons _ _)
  | noElements _ rest => exact List.suffix_cons _ _
  | spacedElements _ before => exact (List.suffix_cons _ _).trans before.suffix
  | lastElement _ before _ after ih =>
    exact (List.suffix_cons _ _).trans (after.suffix.trans (ih.trans before.suffix))
  | element _ before _ after space _ ihel ih =>
    exact ih.trans (space.suffix.trans ((List.suffix_cons _ _).trans
      (after.suffix.trans (ihel.trans before.suffix))))
  | noMembers _ rest => exact List.suffix_cons _ _
  | spacedMembers _ before => exact (List.suffix_cons _ _).trans before.suffix
  | lastMember _ key before _ after ih =>
    exact (List.suffix_cons _ _).trans
      (after.suffix.trans (ih.trans (before.suffix.trans key.suffix)))
  | member _ key before _ after space _ ihel ih =>
    exact ih.trans (space.suffix.trans ((List.suffix_cons _ _).trans
      (after.suffix.trans (ihel.trans (before.suffix.trans key.suffix)))))

/-- A text in which no comment is opened and closed with the same star. -/
def Clear (text : List UInt8) : Prop := ¬ [47, 42, 47] <:+: text

theorem Clear.suffix {text rest : List UInt8} (h : Clear text) (hrest : rest <:+ text) :
    Clear rest :=
  fun hwithin ↦ h (hwithin.trans hrest.isInfix)

theorem isJsonComment_of_clear {comment : List UInt8} (h : IsComment comment)
    (hclear : Clear comment) : IsJsonComment comment := by
  obtain ⟨closing, rfl, body, rfl, hbody⟩ := h
  refine ⟨42 :: (body ++ [42, 47]), rfl, rfl, 42 :: body, rfl, ?_⟩
  rw [List.cons_append, List.infix_cons_iff, not_or]
  refine ⟨fun hends ↦ ?_, hbody⟩
  obtain ⟨tail, htail⟩ := hends
  cases body with
  | nil => cases htail
  | cons first body =>
    obtain rfl : 47 = first := (List.cons.inj (List.cons.inj htail).2).1
    exact hclear ⟨[], body ++ [42, 47], rfl⟩

section Adopted

variable {trailing spaced : Prop}

theorem Gap.adopted {text rest : List UInt8} (h : Gap IsComment text rest)
    (hclear : Clear text) : Gap IsJsonComment text rest := by
  induction h with
  | done text => exact .done text
  | space hspace _ ih => exact .space hspace (ih (hclear.suffix (List.suffix_cons _ _)))
  | @comment comment text rest hcomment _ ih =>
    have hwithin : Clear comment := fun h ↦ hclear (h.trans (List.prefix_append _ _).isInfix)
    exact .comment (isJsonComment_of_clear hcomment hwithin)
      (ih (hclear.suffix (List.suffix_append _ _)))

theorem BeginsMember.adopted {text name rest : List UInt8}
    (h : BeginsMember IsComment text name rest) (hclear : Clear text) :
    BeginsMember IsJsonComment text name rest := by
  obtain ⟨behind, hgap, hname, hcolon⟩ := h
  refine ⟨behind, hgap.adopted hclear, hname, hcolon.adopted (hclear.suffix ?_)⟩
  calc behind <:+ 34 :: behind := List.suffix_cons _ _
    _ <:+ name ++ 34 :: behind := List.suffix_append _ _
    _ <:+ 34 :: (name ++ 34 :: behind) := List.suffix_cons _ _
    _ <:+ text := hgap.suffix

/-- A text with a phrase also begins with it for the parser without limits, or a value is missing
where the phrase is expected. -/
def Adopted (text : List UInt8) (phrase : Phrase) (rest : List UInt8) : Prop :=
  Derives (parserDialect .any) text phrase rest ∨
    match phrase with
    | .value _ => ∀ before, Gap IsJsonComment before text → Missing .any .value before
    | .elements first _ => ∀ start, text = start ∨ first = false ∧
        jsonSkipSpaceAndComment ⟨text, false⟩ = ⟨start, false⟩ →
          ∃ count, Missing .any (.elements count) start
    | .members first _ => ∀ start, text = start ∨ first = false ∧
        jsonSkipSpaceAndComment ⟨text, false⟩ = ⟨start, false⟩ →
          ∃ keys, Missing .any (.members keys) start

theorem not_startsValue_bracket {byte : UInt8} (hbyte : byte = 93 ∨ byte = 125)
    (rest : List UInt8) : ¬ StartsValue (byte :: rest) := by
  rintro (⟨_, ⟨⟩, h⟩ | ⟨tail, h⟩ | ⟨tail, h⟩ | ⟨tail, h⟩)
  · revert h
    rcases hbyte with rfl | rfl <;> decide
  all_goals
    have hfirst := (List.cons.inj h).1
    rcases hbyte with rfl | rfl <;> exact absurd hfirst (by decide)

/-- In front of a gap and a character stands no other one than what is skipped. -/
theorem Gap.ne_of_ne {text rest : List UInt8} (h : Gap IsJsonComment text rest)
    (hne : text ≠ rest) {c : UInt8} (hspace : isspace c = false) (hslash : c ≠ 47) :
    text ≠ [] ∧ text.head? ≠ some c := by
  obtain ⟨byte, tail, rfl, hbyte⟩ := h.head.resolve_left hne
  refine ⟨List.cons_ne_nil _ _, fun heq ↦ ?_⟩
  obtain rfl : byte = c := Option.some.inj heq
  cases hbyte with
  | inl h =>
    rw [hspace] at h
    cases h
  | inr h => exact hslash h

/-- Where elements or members are expected, in front of a gap and of what opens the next one. -/
theorem place_of_adopted {text start : List UInt8} {first : Bool}
    (h : text = start ∨ first = false ∧ jsonSkipSpaceAndComment ⟨text, false⟩ = ⟨start, false⟩) :
    text = start ∨ jsonSkipSpaceAndComment ⟨text, false⟩ = ⟨start, false⟩ :=
  h.imp_right And.right

/-- The parser expects the first or the next element in front of a gap and a value. -/
theorem missing_element {text start opening behind : List UInt8} {v : Json}
    (hplace : text = start ∨ jsonSkipSpaceAndComment ⟨text, false⟩ = ⟨start, false⟩)
    (before : Gap IsJsonComment text opening)
    (el : Derives (standard trailing spaced) opening (.value v) behind)
    (h : ∀ before, Gap IsJsonComment before opening → Missing .any .value before) :
    ∃ count, Missing .any (.elements count) start := by
  obtain ⟨byte, tail, hopening, hopens⟩ := el.head
  have hgap := gap_of_place hplace before el.halts
  obtain ⟨hne, hopen⟩ := goes_iff (hgap.goesOn hopening hopens.bracket rfl (by decide))
  exact ⟨1, .element hne hopen (h start hgap)⟩

theorem Derives.adopted {text rest : List UInt8} {phrase : Phrase}
    (h : Derives (standard trailing spaced) text phrase rest) (hclear : Clear text) :
    Adopted text phrase rest := by
  induction h with
  | nullWord rest => exact Or.inl (.nullWord rest)
  | trueWord rest => exact Or.inl (.trueWord rest)
  | falseWord rest => exact Or.inl (.falseWord rest)
  | string htext rest => exact Or.inl (.string htext rest)
  | number negative hne hdigits hlong rest => exact Or.inl (.number negative hne hdigits hlong rest)
  | array _ _ ih =>
    cases ih (hclear.suffix (List.suffix_cons _ _)) with
    | inl tail => exact Or.inl (.array tail trivial)
    | inr hmissing =>
      refine Or.inr fun before hgap ↦ ?_
      obtain ⟨count, hmissing⟩ := hmissing _ (Or.inl rfl)
      exact .array hgap trivial hmissing
  | object _ _ ih =>
    cases ih (hclear.suffix (List.suffix_cons _ _)) with
    | inl tail => exact Or.inl (.object tail (keysFit_any _))
    | inr hmissing =>
      refine Or.inr fun before hgap ↦ ?_
      obtain ⟨keys, hmissing⟩ := hmissing _ (Or.inl rfl)
      exact .object hgap (keysFit_any keys) hmissing
  | noElements _ rest => exact Or.inl (.noElements (Or.inr trivial) rest)
  | @spacedElements text rest _ before =>
    have hgap := before.adopted hclear
    by_cases hspaces : text = 93 :: rest
    · exact Or.inl (hspaces ▸ .noElements (Or.inr trivial) rest)
    · refine Or.inr fun start hplace ↦ ?_
      obtain rfl : text = start := hplace.resolve_right fun h ↦ nomatch h.1
      have hne := hgap.ne_of_ne hspaces (show isspace 93 = false from rfl) (by decide)
      exact ⟨1, .element hne.1 hne.2 (missing_value hgap (halts_cons rfl (by decide) rest)
        (not_startsValue_bracket (Or.inl rfl) rest))⟩
  | lastElement first before el after ih =>
    have hgap := before.adopted hclear
    cases ih (hclear.suffix before.suffix) with
    | inr hmissing =>
      exact Or.inr fun start hplace ↦ missing_element (place_of_adopted hplace) hgap el hmissing
    | inl hel =>
      exact Or.inl (.lastElement first hgap hel
        (after.adopted (hclear.suffix (el.suffix.trans before.suffix))))
  | @element first text start behind next more rest v els before el after space tail ihel ih =>
    have hgap := before.adopted hclear
    have hbehind := hclear.suffix (el.suffix.trans before.suffix)
    have hafter := after.adopted hbehind
    have hnext := hbehind.suffix ((List.suffix_cons _ _).trans after.suffix)
    have hspace := space.adopted hnext
    have hmore := hnext.suffix space.suffix
    cases ihel (hclear.suffix before.suffix) with
    | inr hmissing =>
      exact Or.inr fun start hplace ↦ missing_element (place_of_adopted hplace) hgap el hmissing
    | inl hel =>
      cases ih hmore with
      | inl htail => exact Or.inl (.element first hgap hel hafter hspace htail)
      | inr hmissing =>
        refine Or.inr fun place hplace ↦ ?_
        obtain ⟨following, hfollowing, hhalts⟩ := halts_of_elements tail
        have hfollowing := hfollowing.adopted hmore
        obtain ⟨count, hmissing⟩ := hmissing _ (Or.inr ⟨rfl, skip_of_halts hfollowing hhalts⟩)
        exact
          ⟨count + 1, .elements (gap_of_place (place_of_adopted hplace) hgap el.halts) hel hafter
          (hspace.trans hfollowing) hhalts hmissing⟩
  | noMembers _ rest => exact Or.inl (.noMembers (Or.inr trivial) rest)
  | @spacedMembers text rest _ before =>
    have hgap := before.adopted hclear
    by_cases hspaces : text = 125 :: rest
    · exact Or.inl (hspaces ▸ .noMembers (Or.inr trivial) rest)
    · refine Or.inr fun start hplace ↦ ?_
      obtain rfl : text = start := hplace.resolve_right fun h ↦ nomatch h.1
      have hne := hgap.ne_of_ne hspaces (show isspace 125 = false from rfl) (by decide)
      refine ⟨_, .key hne.1 hne.2 ?_⟩
      rintro name value ⟨behind, hquote, -, -⟩
      have heq := hquote.halts_unique (halts_cons rfl (by decide) _) hgap
        (halts_cons rfl (by decide) rest)
      exact absurd (List.cons.inj heq).1 (by decide)
  | lastMember first key before el after ih =>
    have hkey := key.adopted hclear
    have hvalue := hclear.suffix key.suffix
    have hgap := before.adopted hvalue
    cases ih (hvalue.suffix before.suffix) with
    | inr hmissing =>
      exact Or.inr fun start hplace ↦
        ⟨_, .member (hkey.place (place_of_adopted hplace)) (hmissing _ hgap)⟩
    | inl hel =>
      exact Or.inl (.lastMember first hkey hgap hel
        (after.adopted (hvalue.suffix (el.suffix.trans before.suffix))))
  | @member first text name value start behind next more rest v entries key before el after space
      tail ihel ih =>
    have hkey := key.adopted hclear
    have hvalue := hclear.suffix key.suffix
    have hgap := before.adopted hvalue
    have hbehind := hvalue.suffix (el.suffix.trans before.suffix)
    have hafter := after.adopted hbehind
    have hnext := hbehind.suffix ((List.suffix_cons _ _).trans after.suffix)
    have hspace := space.adopted hnext
    have hmore := hnext.suffix space.suffix
    cases ihel (hvalue.suffix before.suffix) with
    | inr hmissing =>
      exact Or.inr fun start hplace ↦
        ⟨_, .member (hkey.place (place_of_adopted hplace)) (hmissing _ hgap)⟩
    | inl hel =>
      cases ih hmore with
      | inl htail => exact Or.inl (.member first hkey hgap hel hafter hspace htail)
      | inr hmissing =>
        refine Or.inr fun place hplace ↦ ?_
        obtain ⟨following, hfollowing, hhalts⟩ := halts_of_members tail
        have hfollowing := hfollowing.adopted hmore
        obtain ⟨keys, hmissing⟩ := hmissing _ (Or.inr ⟨rfl, skip_of_halts hfollowing hhalts⟩)
        exact ⟨_, .members (hkey.place (place_of_adopted hplace)) hgap hel hafter
          (hspace.trans hfollowing) hhalts hmissing⟩

theorem Sentence.adopted {text : List UInt8} {v : Json}
    (h : Sentence (standard trailing spaced) text v) (hclear : Clear text) :
    Sentence (parserDialect .any) text v ∨ Missing .any .value text := by
  obtain ⟨start, behind, hgap, hvalue, hbehind⟩ := h
  have hadopted := hgap.adopted hclear
  cases hvalue.adopted (hclear.suffix hgap.suffix) with
  | inl hderives =>
    exact Or.inl ⟨start, behind, hadopted, hderives,
      hbehind.adopted (hclear.suffix (hvalue.suffix.trans hgap.suffix))⟩
  | inr hmissing => exact Or.inr (hmissing text hadopted)

end Adopted

/-- `json_parse_str` comes to an end and returns a value. -/
def Returns (text : List UInt8) (v : Json) : Prop :=
  ∃ enough, ∀ turns, enough ≤ turns → jsonParseStr turns text = .ok v

/-- A value without an error is returned only for a sentence that stands for it, and one with an
error for every other text. -/
def AcceptsExactly (trailing spaced : Prop) (text : List UInt8) : Prop :=
  ∃ v, Returns text v ∧ (¬ HasError v → Sentence (standard trailing spaced) text v) ∧
    (HasError v → ∀ other, ¬ Sentence (standard trailing spaced) text other)

/-- The text fits in a scanner and is a sentence also for the parser with its limits, or it is none
and the parser gets to a place where a value is missing. -/
def WithinReach (trailing spaced : Prop) (text : List UInt8) : Prop :=
  text.length < 2 ^ 31 ∧
    ((∃ v, Sentence (standard trailing spaced) text v ∧ Sentence (parserDialect .int) text v) ∨
      Missing .int .value text ∧ ∀ v, ¬ Sentence (standard trailing spaced) text v)

theorem Returns.unique {text : List UInt8} {v v' : Json} (h : Returns text v)
    (h' : Returns text v') : v = v' := by
  obtain ⟨enough, hreturns⟩ := h
  obtain ⟨enough', hreturns'⟩ := h'
  have heq := hreturns _ (le_max_left enough enough')
  rw [hreturns' _ (le_max_right enough enough')] at heq
  exact (Except.ok.inj heq).symm

/-- A sentence is read to its end. -/
theorem Sentence.reads {sizes : Sizes} {text : List UInt8} {v : Json}
    (h : Sentence (parserDialect sizes) text v) :
    ¬ HasError v ∧ ∃ enough, ∀ turns, enough ≤ turns → ∃ scan,
      jsonParse sizes turns ⟨text, false⟩ = .ok (v, scan) ∧
        jsonSkipSpaceAndComment scan = ⟨[], false⟩ := by
  obtain ⟨start, behind, hgap, hvalue, hbehind⟩ := h
  have hnil : NoDigit [] := fun byte hbyte ↦ nomatch hbyte
  have hends : jsonSkipSpaceAndComment ⟨behind, false⟩ = ⟨[], false⟩ :=
    hbehind.jsonSkip.trans rfl
  rw [← hends]
  exact ⟨hvalue.parses.1, hvalue.parses.2 text hgap (hbehind.noDigit hnil)⟩

theorem Sentence.returns {text : List UInt8} {v : Json} (h : Sentence (parserDialect .int) text v)
    (hlength : text.length < 2 ^ 31) : ¬ HasError v ∧ Returns text v := by
  obtain ⟨hv, enough, hreads⟩ := h.reads
  refine ⟨hv, enough, fun turns hle ↦ jsonParseStr_eq_ok.mpr ⟨hlength, ?_⟩⟩
  obtain ⟨scan, hparse, -⟩ := hreads turns hle
  exact ⟨scan, hparse⟩

theorem Missing.returns {text : List UInt8} (h : Missing .int .value text)
    (hlength : text.length < 2 ^ 31) : ∃ v, HasError v ∧ Returns text v := by
  obtain ⟨v, scan, enough, hv, -, hreads⟩ := h.fails
  exact ⟨v, hv, enough, fun turns hle ↦ jsonParseStr_eq_ok.mpr ⟨hlength, scan, hreads turns hle⟩⟩

/-- An error value is returned only where a value is missing. -/
theorem Returns.missing {text : List UInt8} {v : Json} (h : Returns text v) (hv : HasError v) :
    Missing .int .value text := by
  obtain ⟨enough, hreturns⟩ := h
  obtain ⟨-, scan, hparse⟩ := jsonParseStr_eq_ok.mp (hreturns enough le_rfl)
  cases (readsAll .int enough).value _ _ _ hparse with
  | whole hwhole =>
    obtain ⟨start, rest, -, hvalue, -⟩ := hwhole
    exact absurd hv hvalue.parses.1
  | broken hnone _ => exact absurd hv hnone
  | missing hmissing _ => exact hmissing

theorem Returns.length_lt {text : List UInt8} {v : Json} (h : Returns text v) :
    text.length < 2 ^ 31 := by
  obtain ⟨enough, hreturns⟩ := h
  exact (jsonParseStr_eq_ok.mp (hreturns enough le_rfl)).1

/-- What is returned for a text is read from it without limits, too. -/
theorem Returns.reads_any {text : List UInt8} {v : Json} (h : Returns text v) {enough : ℕ}
    {v' : Json} {P : Scan → Prop}
    (hreads : ∀ turns, enough ≤ turns → ∃ scan,
      jsonParse .any turns ⟨text, false⟩ = .ok (v', scan) ∧ P scan) :
    v' = v ∧ ∃ turns scan, jsonParse .int turns ⟨text, false⟩ = .ok (v, scan) ∧ P scan := by
  obtain ⟨enough', hreturns⟩ := h
  obtain ⟨-, scan, hparse⟩ := jsonParseStr_eq_ok.mp (hreturns _ (le_max_right enough enough'))
  obtain ⟨scan', hread, hscan⟩ := hreads _ (le_max_left enough enough')
  rw [jsonParse_any hparse] at hread
  cases hread
  exact ⟨rfl, _, scan, hparse, hscan⟩

/-- A sentence for which a value is returned has arrays and objects that fit. -/
theorem Returns.sentence {text : List UInt8} {v v' : Json} (h : Returns text v)
    (hany : Sentence (parserDialect .any) text v') : Sentence (parserDialect .int) text v := by
  obtain ⟨-, enough, hreads⟩ := hany.reads
  obtain ⟨-, turns, scan, hparse, hends⟩ := h.reads_any hreads
  have hclean : scan.hasError ≠ true := by
    intro herror
    rw [jsonSkip_of_hasError herror] at hends
    rw [hends] at herror
    cases herror
  cases (readsAll .int turns).value _ _ _ hparse with
  | missing _ hscan => exact absurd hscan hclean
  | broken _ hstuck =>
    obtain ⟨rest, rfl⟩ := hstuck.resolve_left hclean
    rw [(halts_cons rfl (by decide) rest).jsonSkip] at hends
    cases hends
  | whole hwhole =>
    obtain ⟨start, rest, hgap, hvalue, hskip⟩ := hwhole
    rw [hends] at hskip
    cases jsonSkip_cases rest with
    | inr herror =>
      rw [herror.1] at hskip
      cases hskip
    | inl hskips =>
      obtain ⟨behind, hbehind, -, hskips⟩ := hskips
      rw [hskips] at hskip
      cases hskip
      exact ⟨start, rest, hgap, hvalue, hbehind⟩

/-- Where a value is missing for the parser without limits, what is returned has an error. -/
theorem Returns.hasError {text : List UInt8} {v : Json} (h : Returns text v)
    (hany : Missing .any .value text) : HasError v := by
  obtain ⟨v', scan, enough, herror, -, hreads⟩ := hany.fails
  have hread := @Returns.reads_any text v h enough v' (· = scan) fun turns hle ↦
    ⟨scan, hreads turns hle, rfl⟩
  exact hread.1 ▸ herror

theorem acceptsExactly_withinReach (trailing spaced : Prop) (text : List UInt8) :
    (WithinReach trailing spaced text → AcceptsExactly trailing spaced text) ∧
      (AcceptsExactly trailing spaced text → WithinReach trailing spaced text ∨
        ¬ Clear text ∧ ∃ v, Sentence (standard trailing spaced) text v) := by
  constructor
  · rintro ⟨hlength, hreach⟩
    cases hreach with
    | inl hsentence =>
      obtain ⟨v, hv, hparser⟩ := hsentence
      obtain ⟨hnone, hreturns⟩ := hparser.returns hlength
      exact ⟨v, hreturns, fun _ ↦ hv, fun herror ↦ absurd herror hnone⟩
    | inr hmissing =>
      obtain ⟨v, herror, hreturns⟩ := hmissing.1.returns hlength
      exact ⟨v, hreturns, fun hnone ↦ absurd herror hnone, fun _ ↦ hmissing.2⟩
  · rintro ⟨v, hreturns, hsentence, hother⟩
    have hlength := hreturns.length_lt
    by_cases herror : HasError v
    · exact Or.inl ⟨hlength, Or.inr ⟨hreturns.missing herror, hother herror⟩⟩
    by_cases hclear : Clear text
    · cases (hsentence herror).adopted hclear with
      | inl hparser =>
        exact Or.inl ⟨hlength, Or.inl ⟨v, hsentence herror, hreturns.sentence hparser⟩⟩
      | inr hmissing => exact absurd (hreturns.hasError hmissing) herror
    · exact Or.inr ⟨hclear, v, hsentence herror⟩

/-- The bracket of an array that is not closed is not missed. -/
theorem acceptsExactly_fails :
    ¬ ∃ trailing spaced, AcceptsExactly trailing spaced (ascii ['[', '1']) := by
  rintro ⟨trailing, spaced, v, hreturns, hsentence, -⟩
  have hparse (turns : ℕ) : jsonParse .int (turns + 3) ⟨ascii ['[', '1'], false⟩ =
      .ok (.array [.number 1], ⟨[], true⟩) := rfl
  have hvalue : v = .array [.number 1] := by
    apply hreturns.unique
    refine ⟨3, fun turns hle ↦ jsonParseStr_eq_ok.mpr ⟨by decide, ?_⟩⟩
    obtain ⟨turns, rfl⟩ := Nat.exists_eq_add_of_le' hle
    exact ⟨_, hparse turns⟩
  have hnone : ¬ HasError v := by
    rw [hvalue, hasError_array]
    rintro ⟨el, hel, herror⟩
    rw [List.mem_singleton.mp hel] at herror
    cases herror
  cases (hsentence hnone).adopted (by unfold Clear; decide) with
  | inr hmissing => exact hnone (hreturns.hasError hmissing)
  | inl hparser =>
    obtain ⟨-, enough, hreads⟩ := (hreturns.sentence hparser).reads
    obtain ⟨scan, hread, hends⟩ := hreads (enough + 3) (Nat.le_add_right _ _)
    rw [hparse enough] at hread
    cases hread
    cases hends

end Brutal.JsonFormat
