import Brutal.Json.ReadBack
import Brutal.Text.ZeroFill

/-!
# The grammar of a value

Texts as the parser reads them: what starts with a part of a value, and what is left behind it.
Comments are those of C; the parser itself looks for the end of a comment from its first star on,
and so for it `/*/` is a whole comment, and its vectors do not take any number of elements.
-/

namespace Brutal.JsonFormat

open Base Ds Ds.Growth Lib Text

variable {sizes : Sizes}
variable {text rest digits : List UInt8} {scan : Scan} {c : UInt8}

/-- A text up to the first end of a comment. -/
def EndsComment (text : List UInt8) : Prop :=
  ∃ body, text = body ++ [42, 47] ∧ ¬ [42, 47] <:+: body ++ [42]

/-- A comment, from `/*` up to the next `*/`. -/
def IsComment (text : List UInt8) : Prop :=
  ∃ closing, text = 47 :: 42 :: closing ∧ EndsComment closing

/-- A comment as the parser takes it. -/
def IsJsonComment (text : List UInt8) : Prop :=
  ∃ closing, text = 47 :: closing ∧ closing.head? = some 42 ∧ EndsComment closing

/-- What the grammar leaves open: which texts are comments, whether a comma may stand behind the
last element or member, whether there may be spaces between the brackets of what is empty, and the
sizes of arrays and objects. -/
structure Dialect where
  comment : List UInt8 → Prop
  trailing : Prop
  spaced : Prop
  sizes : Sizes

/-- The grammar with the comments of C. -/
def standard (trailing spaced : Prop) : Dialect := ⟨IsComment, trailing, spaced, .any⟩

/-- The grammar as the parser takes it. -/
def parserDialect (sizes : Sizes) : Dialect := ⟨IsJsonComment, True, False, sizes⟩

/-- Spaces and comments in front of a text. -/
inductive Gap (isComment : List UInt8 → Prop) : List UInt8 → List UInt8 → Prop where
  | done (text : List UInt8) : Gap isComment text text
  | space {byte : UInt8} {text rest : List UInt8} (h : isspace byte = true)
    (tail : Gap isComment text rest) : Gap isComment (byte :: text) rest
  | comment {comment text rest : List UInt8} (h : isComment comment)
    (tail : Gap isComment text rest) : Gap isComment (comment ++ text) rest

theorem Gap.trans {isComment : List UInt8 → Prop} {text middle rest : List UInt8}
    (h : Gap isComment text middle) (hrest : Gap isComment middle rest) :
    Gap isComment text rest := by
  induction h with
  | done => exact hrest
  | space hspace _ ih => exact .space hspace (ih hrest)
  | comment hcomment _ ih => exact .comment hcomment (ih hrest)

/-- The number with some digits. -/
def digitsValue (digits : List UInt8) : ℕ :=
  digits.foldl (fun value digit ↦ value * 10 + (digit.toNat - 48)) 0

/-- The number that is read for digits with a sign or without one. -/
def signedValue (negative : Bool) (digits : List UInt8) : ℤ :=
  if negative then digitsValue digits * -1 else digitsValue digits

/-- A value, or what stands behind the bracket that opens an array or an object, up to the one that
closes it; a comma may be in front of what is not the first. -/
inductive Phrase where
  | value (v : Json)
  | elements (first : Bool) (els : List Json)
  | members (first : Bool) (entries : List (List UInt8 × Json))

/-- A string and a colon in front of a text. -/
def BeginsMember (isComment : List UInt8 → Prop) (text name rest : List UInt8) : Prop :=
  ∃ behind, Gap isComment text (34 :: (name ++ 34 :: behind)) ∧ 34 ∉ name ∧
    Gap isComment behind (58 :: rest)

/-- A text begins with a phrase, and the rest is left behind it. -/
inductive Derives (d : Dialect) : List UInt8 → Phrase → List UInt8 → Prop where
  | nullWord (rest : List UInt8) :
    Derives d (ascii ['n', 'u', 'l', 'l'] ++ rest) (.value .null) rest
  | trueWord (rest : List UInt8) :
    Derives d (ascii ['t', 'r', 'u', 'e'] ++ rest) (.value .true) rest
  | falseWord (rest : List UInt8) :
    Derives d (ascii ['f', 'a', 'l', 's', 'e'] ++ rest) (.value .false) rest
  | string {text : List UInt8} (htext : 34 ∉ text) (rest : List UInt8) :
    Derives d (34 :: (text ++ 34 :: rest)) (.value (.string text)) rest
  | number (negative : Bool) {digits : List UInt8} (hne : digits ≠ [])
    (hdigits : ∀ byte ∈ digits, isdigit byte = true) (hlong : digitsValue digits < 2 ^ 63)
    (rest : List UInt8) :
    Derives d ((if negative then [45] else []) ++ (digits ++ rest))
      (.value (.number (signedValue negative digits))) rest
  | array {text rest : List UInt8} {els : List Json}
    (tail : Derives d text (.elements true els) rest)
    (hroom : d.sizes.HasRoom jsonBytes els.length) :
    Derives d (91 :: text) (.value (.array els)) rest
  | object {text rest : List UInt8} {entries : List (List UInt8 × Json)}
    (tail : Derives d text (.members true entries) rest)
    (hfits : KeysFit d.sizes (entries.map (·.1))) :
    Derives d (123 :: text) (.value (.object (mapPutAll [] entries))) rest
  | noElements {first : Bool} (h : first = true ∨ d.trailing) (rest : List UInt8) :
    Derives d (93 :: rest) (.elements first []) rest
  | spacedElements {text rest : List UInt8} (h : d.spaced)
    (before : Gap d.comment text (93 :: rest)) :
    Derives d text (.elements true []) rest
  | lastElement (first : Bool) {text start behind rest : List UInt8} {v : Json}
    (before : Gap d.comment text start) (el : Derives d start (.value v) behind)
    (after : Gap d.comment behind (93 :: rest)) : Derives d text (.elements first [v]) rest
  | element (first : Bool) {text start behind next more rest : List UInt8} {v : Json}
    {els : List Json} (before : Gap d.comment text start) (el : Derives d start (.value v) behind)
    (after : Gap d.comment behind (44 :: next)) (space : Gap d.comment next more)
    (tail : Derives d more (.elements false els) rest) :
    Derives d text (.elements first (v :: els)) rest
  | noMembers {first : Bool} (h : first = true ∨ d.trailing) (rest : List UInt8) :
    Derives d (125 :: rest) (.members first []) rest
  | spacedMembers {text rest : List UInt8} (h : d.spaced)
    (before : Gap d.comment text (125 :: rest)) :
    Derives d text (.members true []) rest
  | lastMember (first : Bool) {text name value start behind rest : List UInt8} {v : Json}
    (key : BeginsMember d.comment text name value) (before : Gap d.comment value start)
    (el : Derives d start (.value v) behind) (after : Gap d.comment behind (125 :: rest)) :
    Derives d text (.members first [(name, v)]) rest
  | member (first : Bool) {text name value start behind next more rest : List UInt8} {v : Json}
    {entries : List (List UInt8 × Json)} (key : BeginsMember d.comment text name value)
    (before : Gap d.comment value start) (el : Derives d start (.value v) behind)
    (after : Gap d.comment behind (44 :: next)) (space : Gap d.comment next more)
    (tail : Derives d more (.members false entries) rest) :
    Derives d text (.members first ((name, v) :: entries)) rest

/-- A text that is a value, apart from spaces and comments around it. -/
def Sentence (d : Dialect) (text : List UInt8) (v : Json) : Prop :=
  ∃ start behind, Gap d.comment text start ∧ Derives d start (.value v) behind ∧
    Gap d.comment behind []

/-- A value that has the one that stands for an error somewhere. -/
inductive HasError : Json → Prop where
  | error : HasError .error
  | array {els : List Json} {el : Json} (hel : el ∈ els) (h : HasError el) : HasError (.array els)
  | object {entries : List (List UInt8 × Json)} {entry : List UInt8 × Json}
    (hentry : entry ∈ entries) (h : HasError entry.2) : HasError (.object entries)

/-- What a value starts with. -/
def StartsValue (text : List UInt8) : Prop :=
  (∃ byte ∈ text.head?, byte = 34 ∨ isdigit byte = true ∨ byte = 45 ∨ byte = 123 ∨ byte = 91) ∨
    ascii ['t', 'r', 'u', 'e'] <+: text ∨ ascii ['f', 'a', 'l', 's', 'e'] <+: text ∨
      ascii ['n', 'u', 'l', 'l'] <+: text

/-- Neither a space nor a comment. -/
def Halts (text : List UInt8) : Prop :=
  (∀ byte ∈ text.head?, isspace byte = false) ∧ ¬ [47, 42] <+: text

/-- Where a value, so many elements of an array or members of an object with these keys are
expected. -/
inductive Expected where
  | value
  | elements (count : ℕ)
  | members (keys : List (List UInt8))
deriving DecidableEq, Repr

/-- A text in which the parser gets to a place where a value or a key with its colon is expected and
there is none, with nothing missing before that place. -/
inductive Missing (sizes : Sizes) : Expected → List UInt8 → Prop where
  | value {text : List UInt8}
    (h : ∀ start, Gap IsJsonComment text start → ¬ StartsValue start) :
    Missing sizes .value text
  | array {text rest : List UInt8} {count : ℕ} (before : Gap IsJsonComment text (91 :: rest))
    (hroom : sizes.HasRoom jsonBytes count) (h : Missing sizes (.elements count) rest) :
    Missing sizes .value text
  | object {text rest : List UInt8} {keys : List (List UInt8)}
    (before : Gap IsJsonComment text (123 :: rest)) (hfits : KeysFit sizes keys)
    (h : Missing sizes (.members keys) rest) : Missing sizes .value text
  | element {text : List UInt8} (hne : text ≠ []) (hopen : text.head? ≠ some 93)
    (h : Missing sizes .value text) : Missing sizes (.elements 1) text
  | elements {text start behind next more : List UInt8} {v : Json} {count : ℕ}
    (before : Gap IsJsonComment text start)
    (el : Derives (parserDialect sizes) start (.value v) behind)
    (after : Gap IsJsonComment behind (44 :: next))
    (space : Gap IsJsonComment next more) (hmore : Halts more)
    (h : Missing sizes (.elements count) more) : Missing sizes (.elements (count + 1)) text
  | key {text : List UInt8} (hne : text ≠ []) (hopen : text.head? ≠ some 125)
    (h : ∀ name rest, ¬ BeginsMember IsJsonComment text name rest) :
    Missing sizes (.members [(parseStr ⟨text, false⟩).1]) text
  | member {text name value : List UInt8} (key : BeginsMember IsJsonComment text name value)
    (h : Missing sizes .value value) : Missing sizes (.members [name]) text
  | members {text name value start behind next more : List UInt8} {v : Json}
    {keys : List (List UInt8)} (key : BeginsMember IsJsonComment text name value)
    (before : Gap IsJsonComment value start)
    (el : Derives (parserDialect sizes) start (.value v) behind)
    (after : Gap IsJsonComment behind (44 :: next))
    (space : Gap IsJsonComment next more) (hmore : Halts more)
    (h : Missing sizes (.members keys) more) : Missing sizes (.members (name :: keys)) text

theorem endsComment_of_take (h : jsonCommentEnd text = some rest) :
    ∃ closing, text = closing ++ rest ∧ EndsComment closing := by
  induction text with
  | nil => cases h
  | cons byte text ih =>
    rw [jsonCommentEnd] at h
    split at h
    next hend =>
      obtain ⟨rfl, hhead⟩ := hend
      cases text with
      | nil => cases hhead
      | cons next text =>
        cases hhead
        cases h
        refine ⟨[42, 47], rfl, [], rfl, ?_⟩
        rintro ⟨front, back, heq⟩
        have hlength := congrArg List.length heq
        simp only [List.length_append, List.length_cons, List.length_nil] at hlength
        omega
    next hend =>
      obtain ⟨closing, rfl, body, rfl, hbody⟩ := ih h
      refine ⟨byte :: (body ++ [42, 47]), rfl, byte :: body, rfl, ?_⟩
      rw [List.cons_append, List.infix_cons_iff]
      rintro (hfront | hback)
      · apply hend
        obtain ⟨back, heq⟩ := hfront
        obtain ⟨rfl, hrest⟩ := List.cons.inj heq
        refine ⟨rfl, ?_⟩
        cases body with
        | nil => cases hrest
        | cons first body =>
          obtain ⟨rfl, -⟩ := List.cons.inj hrest
          rfl
      · exact hbody hback

theorem jsonCommentEnd_of_endsComment {closing : List UInt8} (h : EndsComment closing)
    (rest : List UInt8) : jsonCommentEnd (closing ++ rest) = some rest := by
  obtain ⟨body, rfl, hbody⟩ := h
  induction body with
  | nil => rfl
  | cons byte body ih =>
    rw [List.cons_append, List.infix_cons_iff, not_or] at hbody
    rw [List.cons_append, List.cons_append, jsonCommentEnd, if_neg, ih hbody.2]
    rintro ⟨rfl, hhead⟩
    apply hbody.1
    cases body with
    | nil => cases hhead
    | cons first body =>
      cases hhead
      exact ⟨body ++ [42], rfl⟩

/-- A slash in front of a text does not end a comment. -/
theorem jsonCommentEnd_slash (text : List UInt8) :
    jsonCommentEnd (47 :: text) = jsonCommentEnd text := by
  rw [jsonCommentEnd, if_neg (fun h ↦ absurd h.1 (by decide))]

theorem scanSkipSpace_text (text : List UInt8) :
    scanSkipSpace ⟨text, false⟩ =
      (!(text.takeWhile isspace).isEmpty, ⟨text.dropWhile isspace, false⟩) := rfl

/-- Two bytes at the front of a text open a comment. -/
theorem jsonSkipComment_of_not (h : ¬ [47, 42] <+: text) :
    jsonSkipComment ⟨text, false⟩ = (false, ⟨text, false⟩) := by
  apply if_neg
  rw [Bool.and_eq_true, decide_eq_true_iff, decide_eq_true_iff]
  rintro ⟨hslash, hstar⟩
  apply h
  match text with
  | [] => exact absurd (show (0 : UInt8) = 47 from hslash) (by decide)
  | [_] => exact absurd (show (0 : UInt8) = 42 from hstar) (by decide)
  | first :: second :: rest =>
    refine ⟨rest, ?_⟩
    rw [← show first = 47 from hslash, ← show second = 42 from hstar]
    rfl

theorem jsonSkipComment_open (rest : List UInt8) :
    jsonSkipComment ⟨47 :: 42 :: rest, false⟩ =
      match jsonCommentEnd (42 :: rest) with
      | some rest => (true, ⟨rest, false⟩)
      | none => (false, ⟨[], true⟩) := by
  rw [← jsonCommentEnd_slash]
  rfl

theorem jsonSkipLoop_error (turns : ℕ) (text : List UInt8) :
    jsonSkipLoop turns ⟨text, true⟩ = ⟨text, true⟩ := by
  cases turns <;> rfl

theorem jsonSkip_error (text : List UInt8) :
    jsonSkipSpaceAndComment ⟨text, true⟩ = ⟨text, true⟩ :=
  jsonSkipLoop_error _ _

theorem length_of_jsonCommentEnd (h : jsonCommentEnd text = some rest) :
    rest.length < text.length := by
  obtain ⟨closing, rfl, body, rfl, -⟩ := endsComment_of_take h
  simp only [List.length_append, List.length_cons, List.length_nil]
  omega

theorem gap_dropWhile (isComment : List UInt8 → Prop) (text : List UInt8) :
    Gap isComment text (text.dropWhile isspace) := by
  induction text with
  | nil => exact .done []
  | cons byte text ih =>
    by_cases hbyte : isspace byte = true
    · rw [List.dropWhile_cons_of_pos hbyte]
      exact .space hbyte ih
    · rw [List.dropWhile_cons_of_neg hbyte]
      exact .done _

/-- The spaces at the front of a text are skipped at once. -/
theorem jsonSkipLoop_spaces (h : ∃ byte ∈ text.head?, isspace byte = true) (turns : ℕ) :
    (text.dropWhile isspace).length < text.length ∧
      jsonSkipLoop (turns + 1) ⟨text, false⟩ =
        jsonSkipLoop turns ⟨text.dropWhile isspace, false⟩ := by
  obtain ⟨byte, hbyte, hspace⟩ := h
  cases text with
  | nil => cases hbyte
  | cons first text =>
    cases hbyte
    rw [jsonSkipLoop, scanSkipSpace_text, List.takeWhile_cons_of_pos hspace,
      List.dropWhile_cons_of_pos hspace]
    exact ⟨Nat.lt_succ_of_le (List.dropWhile_suffix _).length_le, rfl⟩

theorem scanSkipSpace_of_not (h : ∀ byte ∈ text.head?, isspace byte = false) :
    scanSkipSpace ⟨text, false⟩ = (false, ⟨text, false⟩) := by
  cases text with
  | nil => rfl
  | cons first text =>
    have hfirst : ¬ isspace first = true := Bool.eq_false_iff.mp (h first rfl)
    rw [scanSkipSpace_text, List.takeWhile_cons_of_neg hfirst, List.dropWhile_cons_of_neg hfirst]
    rfl

/-- What a turn of the loop does: it goes on with a shorter text, or there is nothing to skip, or
there is a comment that is not closed. -/
inductive SkipTurn (text : List UInt8) : Prop where
  | more {shorter : List UInt8} (hlength : shorter.length < text.length)
    (gap : Gap IsJsonComment text shorter)
    (turn : ∀ turns, jsonSkipLoop (turns + 1) ⟨text, false⟩ = jsonSkipLoop turns ⟨shorter, false⟩)
  | halts (h : Halts text)
    (turn : ∀ turns, jsonSkipLoop (turns + 1) ⟨text, false⟩ = ⟨text, false⟩)
  | unclosed (turn : ∀ turns, jsonSkipLoop (turns + 1) ⟨text, false⟩ = ⟨[], true⟩)

theorem skipTurn (text : List UInt8) : SkipTurn text := by
  by_cases hspace : ∃ byte ∈ text.head?, isspace byte = true
  · exact .more (jsonSkipLoop_spaces hspace 0).1 (gap_dropWhile _ _)
      fun turns ↦ (jsonSkipLoop_spaces hspace turns).2
  have hnone : ∀ byte ∈ text.head?, isspace byte = false := fun byte hbyte ↦
    Bool.eq_false_iff.mpr fun h ↦ hspace ⟨byte, hbyte, h⟩
  have hcomment {skipped : Bool} {next : Scan}
      (h : jsonSkipComment ⟨text, false⟩ = (skipped, next)) (turns : ℕ) :
      jsonSkipLoop (turns + 1) ⟨text, false⟩ =
        if skipped then jsonSkipLoop turns next else next := by
    rw [jsonSkipLoop, scanSkipSpace_of_not hnone]
    dsimp only
    rw [h]
    cases skipped <;> rfl
  by_cases hopens : [47, 42] <+: text
  · obtain ⟨rest, rfl⟩ := hopens
    have hskip := jsonSkipComment_open rest
    cases hend : jsonCommentEnd (42 :: rest) with
    | none =>
      rw [hend] at hskip
      exact .unclosed (hcomment hskip)
    | some shorter =>
      rw [hend] at hskip
      obtain ⟨closing, heq, hcloses⟩ := endsComment_of_take hend
      have hlength := length_of_jsonCommentEnd hend
      have hshorter : shorter.length < ([47, 42] ++ rest).length := by
        simp only [List.length_append, List.length_cons, List.length_nil] at hlength ⊢
        omega
      apply SkipTurn.more hshorter ?_ (hcomment hskip)
      have hgap : Gap IsJsonComment ((47 :: closing) ++ shorter) shorter := by
        refine .comment ⟨closing, rfl, ?_, hcloses⟩ (.done shorter)
        obtain ⟨body, rfl, -⟩ := hcloses
        cases body with
        | nil => rfl
        | cons first body =>
          obtain ⟨rfl, -⟩ := List.cons.inj heq
          rfl
      rwa [List.cons_append, ← heq] at hgap
  · exact .halts ⟨hnone, hopens⟩ (hcomment (jsonSkipComment_of_not hopens))

/-- There is always a turn left for the loop. -/
theorem jsonSkipLoop_eq {turns turns' : ℕ} (hturns : text.length < turns)
    (hturns' : text.length < turns') :
    jsonSkipLoop turns ⟨text, false⟩ = jsonSkipLoop turns' ⟨text, false⟩ := by
  induction turns generalizing text turns' with
  | zero => exact absurd hturns (Nat.not_lt_zero _)
  | succ turns ih =>
    obtain ⟨turns', rfl⟩ : ∃ fewer, turns' = fewer + 1 :=
      Nat.exists_eq_add_one_of_ne_zero (Nat.ne_of_gt (Nat.zero_lt_of_lt hturns'))
    cases skipTurn text with
    | more hlength gap turn =>
      rw [turn, turn]
      exact ih (by omega) (by omega)
    | halts h turn => rw [turn, turn]
    | unclosed turn => rw [turn, turn]

/-- What is skipped, turn by turn. -/
theorem jsonSkip_of_turn {text shorter : List UInt8} (hlength : shorter.length < text.length)
    (turn : ∀ turns, jsonSkipLoop (turns + 1) ⟨text, false⟩ = jsonSkipLoop turns ⟨shorter, false⟩) :
    jsonSkipSpaceAndComment ⟨text, false⟩ = jsonSkipSpaceAndComment ⟨shorter, false⟩ := by
  rw [jsonSkipSpaceAndComment, turn]
  exact jsonSkipLoop_eq hlength (Nat.lt_succ_self _)

theorem Halts.jsonSkip (h : Halts text) :
    jsonSkipSpaceAndComment ⟨text, false⟩ = ⟨text, false⟩ := by
  rw [jsonSkipSpaceAndComment, jsonSkipLoop, scanSkipSpace_of_not h.1]
  dsimp only
  rw [jsonSkipComment_of_not h.2]

/-- Skipping goes over a gap. -/
theorem Gap.jsonSkip (h : Gap IsJsonComment text rest) :
    jsonSkipSpaceAndComment ⟨text, false⟩ = jsonSkipSpaceAndComment ⟨rest, false⟩ := by
  induction h with
  | done => rfl
  | @space byte text rest hspace tail ih =>
    rw [← ih]
    have hhead : ∃ first ∈ (byte :: text).head?, isspace first = true := ⟨byte, rfl, hspace⟩
    rw [jsonSkip_of_turn (jsonSkipLoop_spaces hhead 0).1 fun turns ↦
      (jsonSkipLoop_spaces hhead turns).2, List.dropWhile_cons_of_pos hspace]
    by_cases hnext : ∃ first ∈ text.head?, isspace first = true
    · exact (jsonSkip_of_turn (jsonSkipLoop_spaces hnext 0).1 fun turns ↦
        (jsonSkipLoop_spaces hnext turns).2).symm
    · cases text with
      | nil => rfl
      | cons first text =>
        rw [List.dropWhile_cons_of_neg fun h ↦ hnext ⟨first, rfl, h⟩]
  | @comment comment text rest hcomment tail ih =>
    rw [← ih]
    obtain ⟨closing, rfl, hhead, hcloses⟩ := hcomment
    obtain ⟨body, rfl⟩ : ∃ body, closing = 42 :: body := by
      cases closing with
      | nil => cases hhead
      | cons first body =>
        cases hhead
        exact ⟨body, rfl⟩
    have hend : jsonCommentEnd (42 :: (body ++ text)) = some text :=
      jsonCommentEnd_of_endsComment hcloses text
    have hlength := length_of_jsonCommentEnd hend
    apply jsonSkip_of_turn
    · simp only [List.length_cons, List.length_append] at hlength ⊢
      omega
    · intro turns
      rw [jsonSkipLoop, scanSkipSpace_of_not (by rintro _ ⟨⟩; rfl)]
      dsimp only [List.cons_append]
      rw [jsonSkipComment_open, hend]

/-- A gap ends at one place only. -/
theorem Gap.halts_unique {text rest rest' : List UInt8} (h : Gap IsJsonComment text rest)
    (hrest : Halts rest) (h' : Gap IsJsonComment text rest') (hrest' : Halts rest') :
    rest = rest' := by
  have heq := h.jsonSkip.symm.trans h'.jsonSkip
  rw [hrest.jsonSkip, hrest'.jsonSkip] at heq
  exact congrArg Scan.rest heq

/-- The spaces and comments in front of a text are skipped, or one of the comments is not closed. -/
theorem jsonSkip_cases (text : List UInt8) :
    (∃ rest, Gap IsJsonComment text rest ∧ Halts rest ∧
      jsonSkipSpaceAndComment ⟨text, false⟩ = ⟨rest, false⟩) ∨
    (jsonSkipSpaceAndComment ⟨text, false⟩ = ⟨[], true⟩ ∧
      ∀ rest, Gap IsJsonComment text rest → ¬ Halts rest) := by
  induction hlength : text.length using Nat.strong_induction_on generalizing text with
  | _ length ih =>
    cases skipTurn text with
    | @more shorter hshort gap turn =>
      rw [jsonSkip_of_turn hshort turn]
      cases ih _ (hlength ▸ hshort) shorter rfl with
      | inl h =>
        obtain ⟨rest, hgap, hhalts, heq⟩ := h
        exact Or.inl ⟨rest, gap.trans hgap, hhalts, heq⟩
      | inr h =>
        refine Or.inr ⟨h.1, fun rest hgap hhalts ↦ ?_⟩
        have heq := hgap.jsonSkip
        rw [gap.jsonSkip, h.1, hhalts.jsonSkip] at heq
        cases heq
    | halts h turn => exact Or.inl ⟨text, .done text, h, h.jsonSkip⟩
    | unclosed turn =>
      have hskip : jsonSkipSpaceAndComment ⟨text, false⟩ = ⟨[], true⟩ := turn _
      refine Or.inr ⟨hskip, fun rest hgap hhalts ↦ ?_⟩
      have heq := hgap.jsonSkip
      rw [hskip, hhalts.jsonSkip] at heq
      cases heq

theorem jsonSkip_jsonSkip (text : List UInt8) :
    jsonSkipSpaceAndComment (jsonSkipSpaceAndComment ⟨text, false⟩) =
      jsonSkipSpaceAndComment ⟨text, false⟩ := by
  cases jsonSkip_cases text with
  | inl h =>
    obtain ⟨rest, -, hhalts, heq⟩ := h
    rw [heq, hhalts.jsonSkip]
  | inr h => rw [h.1, jsonSkip_error]

theorem halts_cons {byte : UInt8} (hspace : isspace byte = false) (hslash : byte ≠ 47)
    (rest : List UInt8) : Halts (byte :: rest) := by
  refine ⟨?_, ?_⟩
  · rintro _ ⟨⟩
    exact hspace
  · rintro ⟨rest', heq⟩
    exact hslash (List.cons.inj heq).1.symm

/-! ## Strings and keys -/

theorem jsonSkip_of_hasError (h : scan.hasError = true) : jsonSkipSpaceAndComment scan = scan := by
  obtain ⟨text, error⟩ := scan
  cases h
  exact jsonSkip_error text

theorem scanCurr_of_hasError (h : scan.hasError = true) : scanCurr scan = 0 :=
  if_pos h

/-- Where there is a character other than zero, there is a text that starts with it. -/
theorem scanCurr_eq_iff (hc : c ≠ 0) (text : List UInt8) :
    scanCurr ⟨text, false⟩ = c ↔ ∃ rest, text = c :: rest := by
  cases text with
  | nil => exact ⟨fun h ↦ absurd h.symm hc, fun ⟨rest, h⟩ ↦ nomatch h⟩
  | cons first rest =>
    rw [scanCurr_cons]
    exact ⟨fun h ↦ ⟨rest, by rw [h]⟩, fun ⟨rest', h⟩ ↦ (List.cons.inj h).1⟩

/-- A character that is not there is an error. -/
theorem scanExpect_of_ne (h : scanCurr scan ≠ c) : (scanExpect scan c).hasError = true := by
  rw [scanExpect, scanSkip_ne h]
  rfl

theorem scanExpect_of_hasError (h : scan.hasError = true) (hc : c ≠ 0) :
    (scanExpect scan c).hasError = true := by
  apply scanExpect_of_ne
  rw [scanCurr_of_hasError h]
  exact hc.symm

/-- A character is expected behind a gap. -/
theorem expect_cases (hc : c ≠ 0) (text : List UInt8) :
    (∃ rest, Gap IsJsonComment text (c :: rest) ∧
      scanExpect (jsonSkipSpaceAndComment ⟨text, false⟩) c = ⟨rest, false⟩) ∨
    (scanExpect (jsonSkipSpaceAndComment ⟨text, false⟩) c).hasError = true := by
  cases jsonSkip_cases text with
  | inr h =>
    rw [h.1]
    exact Or.inr (scanExpect_of_hasError rfl hc)
  | inl h =>
    obtain ⟨start, hgap, -, hskip⟩ := h
    rw [hskip]
    by_cases hcurr : scanCurr ⟨start, false⟩ = c
    · obtain ⟨rest, rfl⟩ := (scanCurr_eq_iff hc start).mp hcurr
      exact Or.inl ⟨rest, hgap, scanExpect_cons c rest⟩
    · exact Or.inr (scanExpect_of_ne hcurr)

theorem parseStr_of_gap {text name behind : List UInt8}
    (h : Gap IsJsonComment text (34 :: (name ++ 34 :: behind))) (hname : 34 ∉ name) :
    parseStr ⟨text, false⟩ = (name, jsonSkipSpaceAndComment ⟨behind, false⟩) := by
  have heaten : ∀ byte ∈ name, isClosingString byte = true := by
    intro byte hbyte
    exact bne_iff_ne.2 fun heq ↦ hname (heq ▸ hbyte)
  have heat : scanEatMatch ⟨name ++ 34 :: behind, false⟩ isClosingString =
      (name, ⟨34 :: behind, false⟩) := by
    apply scanEatMatch_append heaten
    rintro _ ⟨⟩
    rfl
  rw [parseStr, h.jsonSkip, (halts_cons rfl (by decide) _).jsonSkip, scanExpect_cons, heat]
  dsimp only
  rw [scanExpect_cons]

/-- A key and its colon are read. -/
theorem BeginsMember.read {text name rest : List UInt8}
    (h : BeginsMember IsJsonComment text name rest) :
    parseStr ⟨text, false⟩ = (name, ⟨58 :: rest, false⟩) := by
  obtain ⟨behind, hgap, hname, hcolon⟩ := h
  rw [parseStr_of_gap hgap hname, hcolon.jsonSkip, (halts_cons rfl (by decide) _).jsonSkip]

/-- A string is there, or the text is at an error. -/
theorem parseStr_cases (text : List UInt8) :
    (∃ name behind, Gap IsJsonComment text (34 :: (name ++ 34 :: behind)) ∧ 34 ∉ name) ∨
      (parseStr ⟨text, false⟩).2.hasError = true := by
  have herror {scan : Scan} (h : (scanExpect scan 34).hasError = true) :
      (jsonSkipSpaceAndComment (scanExpect scan 34)).hasError = true := by
    rwa [jsonSkip_of_hasError h]
  cases expect_cases (show (34 : UInt8) ≠ 0 by decide) text with
  | inr h =>
    apply Or.inr
    rw [parseStr]
    apply herror
    apply scanExpect_of_hasError _ (by decide)
    rw [scanEatMatch, if_pos h]
    exact h
  | inl h =>
    obtain ⟨rest, hgap, hexpect⟩ := h
    have hsplit := List.takeWhile_append_dropWhile (p := isClosingString) (l := rest)
    have hname : 34 ∉ rest.takeWhile isClosingString := by
      intro hmem
      exact absurd (List.mem_takeWhile_imp hmem) (by decide)
    by_cases hlast : scanCurr ⟨rest.dropWhile isClosingString, false⟩ = 34
    · obtain ⟨behind, hback⟩ := (scanCurr_eq_iff (by decide) _).mp hlast
      refine Or.inl ⟨rest.takeWhile isClosingString, behind, ?_, hname⟩
      rwa [← hback, hsplit]
    · apply Or.inr
      rw [parseStr, hexpect, scanEatMatch_false]
      exact herror (scanExpect_of_ne hlast)

/-- A key with its colon is there, or the text is at an error. -/
theorem key_cases (text : List UInt8) :
    (∃ name rest, BeginsMember IsJsonComment text name rest) ∨
      (scanExpect (parseStr ⟨text, false⟩).2 58).hasError = true := by
  cases parseStr_cases text with
  | inr h => exact Or.inr (scanExpect_of_hasError h (by decide))
  | inl h =>
    obtain ⟨name, behind, hgap, hname⟩ := h
    rw [parseStr_of_gap hgap hname]
    cases expect_cases (show (58 : UInt8) ≠ 0 by decide) behind with
    | inr h => exact Or.inr h
    | inl h =>
      obtain ⟨rest, hbehind, -⟩ := h
      exact Or.inl ⟨name, rest, behind, hgap, hname, hbehind⟩

theorem foldl_digits_ge (digits : List UInt8) (value : ℕ) :
    value ≤ digits.foldl (fun value digit ↦ value * 10 + (digit.toNat - 48)) value := by
  induction digits generalizing value with
  | nil => exact le_rfl
  | cons digit digits ih =>
    exact le_trans (show value ≤ value * 10 + (digit.toNat - 48) by omega) (ih _)

/-- The loop of `scan_next_int` computes the number as long as it fits. -/
theorem foldlM_scanDigit_eq (hdigits : ∀ byte ∈ digits, isdigit byte = true) {value : ℕ}
    (hvalue : value < 2 ^ 63) :
    digits.foldlM scanDigit (value : ℤ) =
      if digits.foldl (fun value digit ↦ value * 10 + (digit.toNat - 48)) value < 2 ^ 63 then
        .ok ((digits.foldl (fun value digit ↦ value * 10 + (digit.toNat - 48)) value : ℕ) : ℤ)
      else .error .overflow := by
  induction digits generalizing value with
  | nil =>
    rw [List.foldl_nil, if_pos hvalue]
    rfl
  | cons digit digits ih =>
    have hdigit : 48 ≤ digit.toNat := by
      have h := hdigits digit List.mem_cons_self
      rw [isdigit, Bool.and_eq_true, decide_eq_true_iff, decide_eq_true_iff] at h
      exact UInt8.le_iff_toNat_le.mp h.1
    have hnext : (value : ℤ) * 10 + ((digit.toNat : ℤ) - 48) =
        ((value * 10 + (digit.toNat - 48) : ℕ) : ℤ) := by omega
    have hlong : IsLong ((value * 10 + (digit.toNat - 48) : ℕ) : ℤ) ↔
        value * 10 + (digit.toNat - 48) < 2 ^ 63 := by
      rw [IsLong]
      omega
    rw [List.foldlM_cons, List.foldl_cons, scanDigit, hnext]
    by_cases hfits : value * 10 + (digit.toNat - 48) < 2 ^ 63
    · rw [if_pos (hlong.mpr hfits), ok_bind]
      exact ih (fun byte hbyte ↦ hdigits byte (List.mem_cons_of_mem _ hbyte)) hfits
    · have hge := foldl_digits_ge digits (value * 10 + (digit.toNat - 48))
      rw [if_neg (fun h ↦ hfits (hlong.mp h)), if_neg (by omega)]
      rfl

theorem foldlM_digits (hdigits : ∀ byte ∈ digits, isdigit byte = true) :
    digits.foldlM scanDigit 0 =
      if digitsValue digits < 2 ^ 63 then .ok (digitsValue digits : ℤ) else .error .overflow :=
  @foldlM_scanDigit_eq digits hdigits 0 (by decide)

/-- `scan_next_int` in front of digits, with a sign or without one. -/
theorem scanNextInt_signed (negative : Bool) (hne : digits ≠ [])
    (hdigits : ∀ byte ∈ digits, isdigit byte = true)
    (hrest : ∀ byte ∈ rest.head?, isdigit byte = false) :
    scanNextInt ⟨(if negative then [45] else []) ++ (digits ++ rest), false⟩ =
      if digitsValue digits < 2 ^ 63 then
        .ok (some (signedValue negative digits), ⟨rest, false⟩)
      else .error .overflow := by
  cases negative with
  | false =>
    rw [if_neg Bool.false_ne_true, List.nil_append, scanNextInt_digits hne hdigits hrest,
      foldlM_digits hdigits]
    split <;> rfl
  | true =>
    obtain ⟨digit, tail, rfl⟩ := List.exists_cons_of_ne_nil hne
    have hsign : (scanPeek ⟨45 :: (digit :: tail ++ rest), false⟩ 0 = 45 &&
        isdigit (scanPeek ⟨45 :: (digit :: tail ++ rest), false⟩ 1)) = true :=
      hdigits digit List.mem_cons_self
    rw [if_pos rfl, List.singleton_append, scanNextInt, hsign]
    simp only [if_true, scanNext_cons, scanEatMatch_append hdigits hrest, foldlM_digits hdigits]
    split <;> rfl

/-- `scan_next_int` where there is a sign without a digit. -/
theorem scanNextInt_sign (hrest : ∀ byte ∈ rest.head?, isdigit byte = false) :
    scanNextInt ⟨45 :: rest, false⟩ = .ok (none, ⟨45 :: rest, false⟩) := by
  have hsign : (scanPeek ⟨45 :: rest, false⟩ 0 = 45 && isdigit (scanPeek ⟨45 :: rest, false⟩ 1)) =
      false := by
    cases rest with
    | nil => rfl
    | cons first rest => exact hrest first rfl
  rw [scanNextInt, hsign]
  rfl

end Brutal.JsonFormat
