import Brutal.Text.Scan
import Mathlib.Computability.Language
import Mathlib.Data.Int.Order.Lemmas
import Mathlib.Order.Interval.Set.UnorderedInterval

/-!
# Patterns

`libs/brutal-glob` compares a text with a pattern.  A position of a scanner is what is left behind
it, so going back to a position takes up again what was left there; an error of the scanner would
stay.
-/

namespace Brutal.Text

open Base Lib

/-- The value of a `char`, which is signed or not as the target has it. -/
def charValue (signed : Bool) (c : UInt8) : ℤ := if signed then c.toInt8.toInt else c.toNat

section Match

variable (signed : Bool)

/-- The inner loop of `glob_match_group`, which looks for the end of the group. -/
def globLeaveGroup : ℕ → Scan → Scan
  | 0, pattern => pattern
  | turns + 1, pattern =>
    if scanEnded pattern then pattern
    else
      match scanSkip pattern 93 with
      | (true, pattern) => pattern
      | (false, pattern) => globLeaveGroup turns (scanNext pattern).2

/-- The end of the range that starts with a character. -/
def globRangeEnd (pattern : Scan) (first : UInt8) : UInt8 × Scan :=
  if scanPeek pattern 0 = 45 && scanPeek pattern 1 != 93 then
    (scanPeek pattern 1, scanNextN 2 pattern)
  else (first, pattern)

/-- Whether a character is in a range, whose ends are swapped if need be. -/
def globRangeHas (first last current : UInt8) : Bool :=
  let (first, last) :=
    if charValue signed last < charValue signed first then (last, first) else (first, last)
  charValue signed first ≤ charValue signed current &&
    charValue signed current ≤ charValue signed last

/-- The outer loop of `glob_match_group`. -/
def globGroupLoop (neg : Bool) (current : UInt8) : ℕ → Scan → Bool × Scan
  | 0, pattern => (neg, pattern)
  | turns + 1, pattern =>
    if scanEnded pattern then (neg, pattern)
    else
      match scanSkip pattern 93 with
      | (true, pattern) => (neg, pattern)
      | (false, pattern) =>
        let (first, pattern) := scanNext pattern
        let (last, pattern) := globRangeEnd pattern first
        if globRangeHas signed first last current then
          (!neg, globLeaveGroup (pattern.rest.length + 1) pattern)
        else globGroupLoop neg current turns pattern

/-- `glob_match_group` -/
def globMatchGroup (pattern : Scan) (current : UInt8) : Bool × Scan :=
  let (neg, pattern) := scanSkip pattern 94
  globGroupLoop signed neg current (pattern.rest.length + 1) pattern

/-- The loop of `glob_match_wildcard` over positions in the input. -/
def globWildcardLoop (globMatch : Scan → Scan → Except Fault (Bool × Scan × Scan))
    (patternStart : List UInt8) :
    List (List UInt8) → Scan → Scan → Except Fault (Bool × Scan × Scan)
  | [], pattern, input => .ok (false, pattern, input)
  | inputHere :: before, pattern, input => do
    let (matched, pattern, input) ← globMatch pattern { input with rest := inputHere }
    if matched then return (true, pattern, input)
    else globWildcardLoop globMatch patternStart before { pattern with rest := patternStart } input

/-- `glob_match_wildcard`, which goes from the end of the input back to where it was. -/
def globMatchWildcard (globMatch : Scan → Scan → Except Fault (Bool × Scan × Scan))
    (pattern input : Scan) : Except Fault (Bool × Scan × Scan) :=
  globWildcardLoop globMatch pattern.rest input.rest.tails.reverse pattern input

/-- `glob_match`; every turn sees at least one character of the pattern. -/
def globMatch : ℕ → Scan → Scan → Except Fault (Bool × Scan × Scan)
  | 0, _, _ => .error .depth
  | turns + 1, pattern, input =>
    if !scanEnded pattern && !scanEnded input then
      let (operator, pattern) := scanNext pattern
      if operator = 63 then
        if scanEnded input then .ok (false, pattern, input)
        else globMatch turns pattern (scanNext input).2
      else if operator = 91 then
        let (current, input) := scanNext input
        match globMatchGroup signed pattern current with
        | (true, pattern) => globMatch turns pattern input
        | (false, pattern) => .ok (false, pattern, input)
      else if operator = 42 then do
        let (matched, pattern, input) ← globMatchWildcard (globMatch turns) pattern input
        if matched then globMatch turns pattern input else return (false, pattern, input)
      else
        if scanEnded input then .ok (false, pattern, input)
        else
          let (c, input) := scanNext input
          if operator ≠ c then .ok (false, pattern, input) else globMatch turns pattern input
    else .ok (scanEnded pattern && scanEnded input, pattern, input)

/-- `glob_match_str` -/
def globMatchStr (pattern input : List UInt8) : Except Fault Bool := do
  let patternScan ← scanInit pattern
  let inputScan ← scanInit input
  let (matched, _, _) ← globMatch signed (pattern.length + 1) patternScan inputScan
  return matched

end Match

/-- What is listed in a group. -/
inductive GlobItem where
  | one (c : UInt8)
  | range (first last : UInt8)
deriving DecidableEq, Repr

/-- The parts of a pattern. -/
inductive GlobToken where
  | any
  | star
  | group (negated : Bool) (items : List GlobItem)
  | char (c : UInt8)
deriving DecidableEq, Repr

/-- What is listed between the brackets of a group. -/
def globItems : List UInt8 → List GlobItem
  | first :: 45 :: last :: rest => .range first last :: globItems rest
  | c :: rest => .one c :: globItems rest
  | [] => []

/-- What a negated group has in front of its list. -/
def negation (negated : Bool) : List UInt8 := if negated then [94] else []

/-- The parts of a pattern whose groups are closed, each by the first bracket that can close it. -/
inductive GlobParses : List UInt8 → List GlobToken → Prop where
  | done : GlobParses [] []
  | any {pattern tokens} (tail : GlobParses pattern tokens) :
      GlobParses (63 :: pattern) (.any :: tokens)
  | star {pattern tokens} (tail : GlobParses pattern tokens) :
      GlobParses (42 :: pattern) (.star :: tokens)
  | group {pattern tokens} (negated : Bool) {list : List UInt8} (hlist : 93 ∉ list)
      (hnegated : negated = false → list.head? ≠ some 94) (tail : GlobParses pattern tokens) :
      GlobParses (91 :: (negation negated ++ (list ++ 93 :: pattern)))
        (.group negated (globItems list) :: tokens)
  | char {pattern tokens c} (hany : c ≠ 63) (hstar : c ≠ 42) (hgroup : c ≠ 91)
      (tail : GlobParses pattern tokens) : GlobParses (c :: pattern) (.char c :: tokens)

section Language

variable (signed : Bool)

/-- The characters of a range are those between its ends, whichever comes first. -/
def GlobItem.chars : GlobItem → Set UInt8
  | .one c => {c}
  | .range first last =>
    {c | charValue signed c ∈ Set.uIcc (charValue signed first) (charValue signed last)}

instance (item : GlobItem) (c : UInt8) : Decidable (c ∈ item.chars signed) :=
  match item with
  | .one d => inferInstanceAs (Decidable (c = d))
  | .range first _ =>
    decidable_of_iff _ (Set.mem_uIcc (a := charValue signed c) (b := charValue signed first)).symm

/-- The characters that a group takes. -/
def groupChars (negated : Bool) (items : List GlobItem) : Set UInt8 :=
  {c | if negated then ∀ item ∈ items, c ∉ item.chars signed
    else ∃ item ∈ items, c ∈ item.chars signed}

/-- The strings of one character of a set. -/
def single (chars : Set UInt8) : Language UInt8 := {text | ∃ c ∈ chars, text = [c]}

/-- The strings that a part of a pattern stands for. -/
def GlobToken.language : GlobToken → Language UInt8
  | .any => single Set.univ
  | .star => ⊤
  | .group negated items => single (groupChars signed negated items)
  | .char c => single {c}

/-- The strings that a pattern stands for. -/
def globLanguage (tokens : List GlobToken) : Language UInt8 :=
  (tokens.map fun token ↦ token.language signed).prod

/-- All strings but the empty one. -/
def nonemptyTexts : Language UInt8 := {text | text ≠ []}

/-- The strings that the code finds: to a wildcard with nothing behind it, it leaves at least one
character. -/
def acceptedLanguage : List GlobToken → Language UInt8
  | [] => 1
  | token :: tokens =>
    (if token = .star ∧ tokens = [] then nonemptyTexts else token.language signed) *
      acceptedLanguage tokens

end Language

section Groups

variable {signed : Bool} {current : UInt8} {pattern : List UInt8}

attribute [local grind =] globLanguage globGroupLoop acceptedLanguage globMatch

theorem charValue_injective : Function.Injective (charValue signed) := by
  intro c d h
  cases signed with
  | false => exact UInt8.toNat_inj.mp (Int.natCast_inj.mp h)
  | true => exact congrArg Int8.toUInt8 (Int8.toInt_inj.mp h)

/-- What is left of a group is skipped. -/
theorem globLeaveGroup_eq {list : List UInt8} (hlist : 93 ∉ list) {turns : ℕ}
    (hturns : list.length < turns) :
    globLeaveGroup turns ⟨list ++ 93 :: pattern, false⟩ = ⟨pattern, false⟩ := by
  induction list generalizing turns with
  | nil =>
    obtain ⟨turns, rfl⟩ := Nat.exists_eq_add_one_of_ne_zero (Nat.ne_of_gt hturns)
    rw [List.nil_append, globLeaveGroup, scanEnded_cons, if_neg Bool.false_ne_true, scanSkip_cons]
  | cons c list ih =>
    obtain ⟨turns, rfl⟩ : ∃ fewer, turns = fewer + 1 :=
      Nat.exists_eq_add_one_of_ne_zero (Nat.ne_of_gt (Nat.zero_lt_of_lt hturns))
    have hc : scanCurr ⟨c :: (list ++ 93 :: pattern), false⟩ ≠ 93 :=
      fun h ↦ hlist (h ▸ List.mem_cons_self)
    rw [List.cons_append, globLeaveGroup, scanEnded_cons, if_neg Bool.false_ne_true,
      scanSkip_ne hc]
    exact ih (fun h ↦ hlist (List.mem_cons_of_mem c h)) (Nat.lt_of_succ_lt_succ hturns)

theorem globRangeHas_iff {first last : UInt8} :
    globRangeHas signed first last current = true ↔
      current ∈ (GlobItem.range first last).chars signed := by
  rw [GlobItem.chars, Set.mem_ofPred_eq, Set.mem_uIcc, globRangeHas]
  split
  next first' last' h =>
    rw [Bool.and_eq_true, decide_eq_true_iff, decide_eq_true_iff]
    split at h <;> cases h <;> omega

theorem one_chars (c : UInt8) :
    (GlobItem.one c).chars signed = (GlobItem.range c c).chars signed := by
  ext current
  rw [GlobItem.chars, GlobItem.chars, Set.mem_singleton_iff, Set.mem_ofPred_eq, Set.uIcc_self,
    Set.mem_singleton_iff]
  exact ⟨fun h ↦ congrArg _ h, fun h ↦ charValue_injective h⟩

/-- A turn of the loop of `glob_match_group`. -/
theorem globGroupLoop_turn {neg : Bool} {turns : ℕ} {first last : UInt8}
    {list rest : List UInt8} (hfirst : first ≠ 93) (hlist : 93 ∉ list)
    (hrange : globRangeEnd ⟨rest, false⟩ first = (last, ⟨list ++ 93 :: pattern, false⟩)) :
    globGroupLoop signed neg current (turns + 1) ⟨first :: rest, false⟩ =
      if current ∈ (GlobItem.range first last).chars signed then (!neg, ⟨pattern, false⟩)
      else globGroupLoop signed neg current turns ⟨list ++ 93 :: pattern, false⟩ := by
  have hcurr : scanCurr ⟨first :: rest, false⟩ ≠ 93 := hfirst
  rw [globGroupLoop, scanEnded_cons, if_neg Bool.false_ne_true, scanSkip_ne hcurr]
  simp only [scanNext_cons, hrange, globRangeHas_iff]
  rw [globLeaveGroup_eq hlist
    (by rw [List.length_append]; exact Nat.lt_succ_of_le (Nat.le_add_right _ _))]

theorem globRangeEnd_range {first last : UInt8} (hlast : last ≠ 93) (rest : List UInt8) :
    globRangeEnd ⟨45 :: last :: rest, false⟩ first = (last, ⟨rest, false⟩) := by
  apply if_pos
  rw [Bool.and_eq_true]
  exact ⟨rfl, bne_iff_ne.mpr hlast⟩

theorem globRangeEnd_one (c : UInt8) {rest : List UInt8}
    (hrest : ∀ last tail, rest ≠ 45 :: last :: tail) :
    globRangeEnd ⟨rest ++ 93 :: pattern, false⟩ c = (c, ⟨rest ++ 93 :: pattern, false⟩) := by
  apply if_neg
  rw [Bool.and_eq_true]
  rintro ⟨hfirst, hsecond⟩
  have hminus := of_decide_eq_true hfirst
  match rest with
  | [] => exact absurd (show (93 : UInt8) = 45 from hminus) (by decide)
  | [second] => exact absurd rfl (bne_iff_ne.mp hsecond)
  | second :: last :: tail =>
    change second = 45 at hminus
    exact hrest last tail (by rw [hminus])

/-- The loop of `glob_match_group` finds a character that is listed. -/
theorem globGroupLoop_eq {neg : Bool} {list : List UInt8} (hlist : 93 ∉ list) {turns : ℕ}
    (hturns : list.length ≤ turns) :
    globGroupLoop signed neg current (turns + 1) ⟨list ++ 93 :: pattern, false⟩ =
      (if ∃ item ∈ globItems list, current ∈ item.chars signed then !neg else neg,
        ⟨pattern, false⟩) := by
  induction list using globItems.induct generalizing turns with
  | case1 first last rest ih =>
    obtain ⟨hfirst, -, hlast, hrest⟩ : 93 ≠ first ∧ 93 ≠ 45 ∧ 93 ≠ last ∧ 93 ∉ rest := by
      simpa [not_or] using hlist
    obtain ⟨turns, rfl⟩ : ∃ fewer, turns = fewer + 1 :=
      Nat.exists_eq_add_one_of_ne_zero (Nat.ne_of_gt (Nat.zero_lt_of_lt hturns))
    have hrange := @globRangeEnd_range first last hlast.symm (rest ++ 93 :: pattern)
    simp only [List.length_cons] at hturns
    rw [List.cons_append, List.cons_append, List.cons_append,
      globGroupLoop_turn hfirst.symm hrest hrange, ih hrest (by omega), globItems]
    by_cases hin : current ∈ (GlobItem.range first last).chars signed
    · rw [if_pos hin, if_pos ⟨_, List.mem_cons_self, hin⟩]
    · simp [hin]
  | case2 c rest hshape ih =>
    obtain ⟨hc, hrest⟩ : 93 ≠ c ∧ 93 ∉ rest := by simpa [not_or] using hlist
    obtain ⟨turns, rfl⟩ : ∃ fewer, turns = fewer + 1 :=
      Nat.exists_eq_add_one_of_ne_zero (Nat.ne_of_gt (Nat.zero_lt_of_lt hturns))
    have hrange := @globRangeEnd_one pattern c rest
      (fun last tail h ↦ hshape last tail h)
    have hitems : globItems (c :: rest) = .one c :: globItems rest := by
      rw [globItems]
      exact hshape
    rw [List.cons_append, globGroupLoop_turn hc.symm hrest hrange,
      ih hrest (Nat.le_of_succ_le_succ hturns), hitems]
    simp only [← one_chars]
    by_cases hin : current ∈ (GlobItem.one c).chars signed
    · rw [if_pos hin, if_pos ⟨_, List.mem_cons_self, hin⟩]
    · simp [hin]
  | case3 =>
    rw [List.nil_append, globGroupLoop, scanEnded_cons, if_neg Bool.false_ne_true, scanSkip_cons]
    grind [globItems]

/-- `glob_match_group` -/
theorem globMatchGroup_eq {negated : Bool} {list : List UInt8} (hlist : 93 ∉ list)
    (hnegated : negated = false → list.head? ≠ some 94) :
    globMatchGroup signed ⟨negation negated ++ (list ++ 93 :: pattern), false⟩ current =
      (if ∃ item ∈ globItems list, current ∈ item.chars signed then !negated else negated,
        ⟨pattern, false⟩) := by
  have hturns (turns : ℕ) : list.length ≤ list.length + turns := Nat.le_add_right _ _
  cases negated with
  | true =>
    rw [negation, if_pos rfl, List.singleton_append, globMatchGroup, scanSkip_cons]
    simp only [List.length_append]
    exact globGroupLoop_eq hlist (hturns _)
  | false =>
    have hcurr : scanCurr ⟨list ++ 93 :: pattern, false⟩ ≠ 94 := by
      cases list with
      | nil => exact fun h ↦ absurd (show (93 : UInt8) = 94 from h) (by decide)
      | cons c list => exact fun h ↦ hnegated rfl (congrArg some h)
    rw [negation, if_neg Bool.false_ne_true, List.nil_append, globMatchGroup, scanSkip_ne hcurr]
    simp only [List.length_append]
    exact globGroupLoop_eq hlist (hturns _)

end Groups

/-! ## What the code accepts -/

section Accepted

variable {signed : Bool} {token : GlobToken} {tokens : List GlobToken}

theorem cons_mem_single_mul {c : UInt8} {chars : Set UInt8} {text : List UInt8}
    {rest : Language UInt8} : c :: text ∈ single chars * rest ↔ c ∈ chars ∧ text ∈ rest := by
  rw [Language.mem_mul]
  constructor
  · rintro ⟨_, ⟨d, hd, rfl⟩, tail, htail, heq⟩
    obtain ⟨rfl, rfl⟩ := List.cons.inj heq
    exact ⟨hd, htail⟩
  · rintro ⟨hc, htext⟩
    exact ⟨[c], ⟨c, hc, rfl⟩, text, htext, rfl⟩

theorem nil_notMem_single_mul {chars : Set UInt8} {rest : Language UInt8} :
    [] ∉ single chars * rest := by
  rw [Language.mem_mul]
  rintro ⟨_, ⟨d, -, rfl⟩, tail, -, heq⟩
  exact List.cons_ne_nil _ _ heq

theorem acceptedLanguage_cons (h : token = .star → tokens ≠ []) :
    acceptedLanguage signed (token :: tokens) =
      token.language signed * acceptedLanguage signed tokens := by
  rw [acceptedLanguage, if_neg fun hlast ↦ h hlast.1 hlast.2]

theorem acceptedLanguage_star : acceptedLanguage signed [.star] = nonemptyTexts := mul_one _

/-- A part that stands for one character takes the first one of the text. -/
theorem cons_mem_accepted {chars : Set UInt8} (htoken : token.language signed = single chars)
    (hstar : token ≠ .star) {c : UInt8} {text : List UInt8} :
    c :: text ∈ acceptedLanguage signed (token :: tokens) ↔
      c ∈ chars ∧ text ∈ acceptedLanguage signed tokens := by
  rw [acceptedLanguage_cons fun h ↦ absurd h hstar, htoken, cons_mem_single_mul]

/-- A pattern that is not used up is not found at the end of the input. -/
theorem nil_notMem_accepted : [] ∉ acceptedLanguage signed (token :: tokens) := by
  induction tokens generalizing token with
  | nil =>
    cases token with
    | star =>
      rw [acceptedLanguage_star]
      exact fun h ↦ h rfl
    | any | group | char =>
      simp only [acceptedLanguage, reduceCtorEq, false_and, if_false]
      exact nil_notMem_single_mul
  | cons next tokens ih =>
    rw [acceptedLanguage_cons fun _ ↦ List.cons_ne_nil _ _, Language.mem_mul]
    rintro ⟨front, -, back, hback, heq⟩
    rw [(List.append_eq_nil_iff.mp heq).2] at hback
    exact ih hback

/-- A wildcard is found when some end of the text is. -/
theorem mem_accepted_star {text : List UInt8} (h : text ≠ []) :
    text ∈ acceptedLanguage signed (.star :: tokens) ↔
      ∃ back ∈ text.tails.reverse, back ∈ acceptedLanguage signed tokens := by
  simp only [List.mem_reverse, List.mem_tails]
  cases tokens with
  | nil =>
    rw [acceptedLanguage_star]
    exact ⟨fun _ ↦ ⟨[], List.nil_suffix, rfl⟩, fun _ ↦ h⟩
  | cons next tokens =>
    rw [acceptedLanguage_cons fun _ ↦ List.cons_ne_nil _ _, Language.mem_mul]
    constructor
    · rintro ⟨front, -, back, hback, heq⟩
      exact ⟨back, ⟨front, heq⟩, hback⟩
    · rintro ⟨back, ⟨front, heq⟩, hback⟩
      exact ⟨front, trivial, back, hback, heq⟩

/-- A pattern that does not end in a wildcard is treated as it should be. -/
theorem acceptedLanguage_of_ne (h : tokens.getLast? ≠ some .star) :
    acceptedLanguage signed tokens = globLanguage signed tokens := by
  induction tokens with
  | nil => rfl
  | cons token tokens ih =>
    have htoken : token = .star → tokens ≠ [] := by
      rintro rfl rfl
      exact h rfl
    have htokens : tokens.getLast? ≠ some .star := by
      cases tokens with
      | nil => exact nofun
      | cons next tokens => rwa [List.getLast?_cons_cons] at h
    rw [acceptedLanguage_cons htoken, ih htokens, globLanguage, globLanguage, List.map_cons,
      List.prod_cons]

/-- A wildcard at the end of a pattern does not find the empty text there. -/
theorem acceptedLanguage_append_star :
    acceptedLanguage signed (tokens ++ [.star]) =
      globLanguage signed tokens * nonemptyTexts := by
  induction tokens with
  | nil =>
    rw [List.nil_append, acceptedLanguage_star]
    exact (one_mul _).symm
  | cons token tokens ih =>
    have hrest : tokens ++ [.star] ≠ [] :=
      List.append_ne_nil_of_right_ne_nil _ (List.cons_ne_nil _ _)
    rw [List.cons_append, acceptedLanguage_cons fun _ ↦ hrest, ih, ← mul_assoc, globLanguage,
      globLanguage, List.map_cons, List.prod_cons]

end Accepted

section Answers

variable {signed : Bool}

/-- A comparison returns whether a text is found, and it has gone over all of both when it is. -/
def Answers (run : Except Fault (Bool × Scan × Scan)) (found : Prop) : Prop :=
  ∃ matched pattern input, run = .ok (matched, ⟨pattern, false⟩, ⟨input, false⟩) ∧
    (matched = true ↔ found) ∧ (matched = true → pattern = [] ∧ input = [])

theorem Answers.congr {run : Except Fault (Bool × Scan × Scan)} {found found' : Prop}
    (h : Answers run found) (heq : found ↔ found') : Answers run found' := by
  rwa [propext heq] at h

theorem answers_false {pattern input : List UInt8} {found : Prop} (h : ¬ found) :
    Answers (.ok (false, ⟨pattern, false⟩, ⟨input, false⟩)) found :=
  ⟨false, pattern, input, rfl, ⟨nofun, fun hfound ↦ absurd hfound h⟩, nofun⟩

/-- The loop of `glob_match_wildcard` finds a text at one of the positions. -/
theorem globWildcardLoop_answers {compare : Scan → Scan → Except Fault (Bool × Scan × Scan)}
    {start : List UInt8} {found : List UInt8 → Prop}
    (hcompare : ∀ text, Answers (compare ⟨start, false⟩ ⟨text, false⟩) (found text))
    (positions : List (List UInt8)) (input : List UInt8) :
    Answers (globWildcardLoop compare start positions ⟨start, false⟩ ⟨input, false⟩)
      (∃ text ∈ positions, found text) := by
  induction positions generalizing input with
  | nil =>
    apply answers_false
    rintro ⟨text, htext, -⟩
    exact List.not_mem_nil htext
  | cons text positions ih =>
    obtain ⟨matched, pattern, input', hrun, hmatched, hdone⟩ := hcompare text
    rw [globWildcardLoop, hrun, ok_bind]
    cases matched with
    | true =>
      exact ⟨true, pattern, input', rfl,
        ⟨fun _ ↦ ⟨text, List.mem_cons_self, hmatched.mp rfl⟩, fun _ ↦ rfl⟩, hdone⟩
    | false =>
      have hnot : ¬ found text := fun h ↦ Bool.false_ne_true (hmatched.mpr h)
      apply (ih input').congr
      rw [List.exists_mem_cons_iff]
      exact ⟨Or.inr, fun h ↦ h.resolve_left hnot⟩

/-- At the end of the input only a pattern that is used up is found. -/
theorem globMatch_nil (turns : ℕ) (pattern : List UInt8) :
    globMatch signed (turns + 1) ⟨pattern, false⟩ ⟨[], false⟩ =
      .ok (pattern.isEmpty, ⟨pattern, false⟩, ⟨[], false⟩) := by
  rw [globMatch, if_neg (by simp [scanEnded])]
  simp [scanEnded]

/-- A turn of `glob_match`, where neither the pattern nor the input is at its end. -/
theorem globMatch_cons (turns : ℕ) (operator c : UInt8) (pattern input : List UInt8) :
    globMatch signed (turns + 1) ⟨operator :: pattern, false⟩ ⟨c :: input, false⟩ =
      if operator = 63 then globMatch signed turns ⟨pattern, false⟩ ⟨input, false⟩
      else if operator = 91 then
        match globMatchGroup signed ⟨pattern, false⟩ c with
        | (true, pattern) => globMatch signed turns pattern ⟨input, false⟩
        | (false, pattern) => .ok (false, pattern, ⟨input, false⟩)
      else if operator = 42 then do
        let (matched, pattern, input) ←
          globMatchWildcard (globMatch signed turns) ⟨pattern, false⟩ ⟨c :: input, false⟩
        if matched then globMatch signed turns pattern input else return (false, pattern, input)
      else if operator ≠ c then .ok (false, ⟨pattern, false⟩, ⟨input, false⟩)
      else globMatch signed turns ⟨pattern, false⟩ ⟨input, false⟩ := rfl

theorem groupMatched_iff (negated : Bool) (items : List GlobItem) (c : UInt8) :
    (if ∃ item ∈ items, c ∈ item.chars signed then !negated else negated) = true ↔
      c ∈ groupChars signed negated items := by
  rw [groupChars, Set.mem_ofPred_eq]
  cases negated with
  | true => simp
  | false => simp

/-- `glob_match` finds what is in the accepted language. -/
theorem globMatch_answers {pattern : List UInt8} {tokens : List GlobToken}
    (h : GlobParses pattern tokens) {turns : ℕ} (hturns : pattern.length ≤ turns)
    (input : List UInt8) :
    Answers (globMatch signed (turns + 1) ⟨pattern, false⟩ ⟨input, false⟩)
      (input ∈ acceptedLanguage signed tokens) := by
  induction h generalizing turns input with
  | done =>
    refine ⟨input.isEmpty, [], input, ?_, List.isEmpty_iff, fun h ↦ ⟨rfl, List.isEmpty_iff.mp h⟩⟩
    rw [globMatch, if_neg (by simp [scanEnded])]
    simp [scanEnded]
  | @any pattern tokens tail ih =>
    cases input with
    | nil =>
      rw [globMatch_nil]
      exact answers_false nil_notMem_accepted
    | cons c text =>
      obtain ⟨turns, rfl⟩ : ∃ fewer, turns = fewer + 1 :=
        Nat.exists_eq_add_one_of_ne_zero (Nat.ne_of_gt (Nat.zero_lt_of_lt hturns))
      rw [globMatch_cons, if_pos rfl]
      apply (ih (Nat.le_of_succ_le_succ hturns) text).congr
      rw [@cons_mem_accepted signed .any tokens _ rfl nofun]
      exact ⟨fun h ↦ ⟨trivial, h⟩, And.right⟩
  | @star pattern tokens tail ih =>
    cases input with
    | nil =>
      rw [globMatch_nil]
      exact answers_false nil_notMem_accepted
    | cons c text =>
      obtain ⟨turns, rfl⟩ : ∃ fewer, turns = fewer + 1 :=
        Nat.exists_eq_add_one_of_ne_zero (Nat.ne_of_gt (Nat.zero_lt_of_lt hturns))
      have hloop := globWildcardLoop_answers (ih (Nat.le_of_succ_le_succ hturns))
        (c :: text).tails.reverse (c :: text)
      rw [← propext (mem_accepted_star (List.cons_ne_nil c text))] at hloop
      obtain ⟨matched, pattern', input', hrun, hmatched, hdone⟩ := hloop
      rw [globMatch_cons, if_neg (by decide), if_neg (by decide), if_pos rfl, globMatchWildcard,
        hrun, ok_bind]
      cases matched with
      | true =>
        obtain ⟨rfl, rfl⟩ := hdone rfl
        change Answers (globMatch signed (turns + 1) ⟨[], false⟩ ⟨[], false⟩) _
        rw [globMatch_nil]
        exact ⟨true, [], [], rfl, hmatched, fun _ ↦ ⟨rfl, rfl⟩⟩
      | false =>
        exact answers_false fun h ↦ Bool.false_ne_true (hmatched.mpr h)
  | @group pattern tokens negated list hlist hnegated tail ih =>
    cases input with
    | nil =>
      rw [globMatch_nil]
      exact answers_false nil_notMem_accepted
    | cons c text =>
      obtain ⟨turns, rfl⟩ : ∃ fewer, turns = fewer + 1 :=
        Nat.exists_eq_add_one_of_ne_zero (Nat.ne_of_gt (Nat.zero_lt_of_lt hturns))
      rw [globMatch_cons, if_neg (by decide), if_pos rfl, globMatchGroup_eq hlist hnegated]
      have hmember := @groupMatched_iff signed negated (globItems list) c
      cases hmatched : (if ∃ item ∈ globItems list, c ∈ item.chars signed then !negated
        else negated) with
      | true =>
        apply (ih (by simp only [List.length_cons, List.length_append] at hturns; omega) text).congr
        rw [@cons_mem_accepted signed (.group negated (globItems list)) tokens _ rfl nofun]
        exact ⟨fun h ↦ ⟨hmember.mp hmatched, h⟩, And.right⟩
      | false =>
        apply answers_false
        rw [@cons_mem_accepted signed (.group negated (globItems list)) tokens _ rfl nofun]
        exact fun h ↦ Bool.false_ne_true (hmatched ▸ hmember.mpr h.1)
  | @char pattern tokens operator hany hstar hgroup tail ih =>
    cases input with
    | nil =>
      rw [globMatch_nil]
      exact answers_false nil_notMem_accepted
    | cons c text =>
      obtain ⟨turns, rfl⟩ : ∃ fewer, turns = fewer + 1 :=
        Nat.exists_eq_add_one_of_ne_zero (Nat.ne_of_gt (Nat.zero_lt_of_lt hturns))
      rw [globMatch_cons, if_neg hany, if_neg hgroup, if_neg hstar]
      by_cases hc : operator = c
      · rw [if_neg (not_not.mpr hc)]
        apply (ih (Nat.le_of_succ_le_succ hturns) text).congr
        rw [@cons_mem_accepted signed (.char operator) tokens _ rfl nofun]
        exact ⟨fun h ↦ ⟨hc.symm, h⟩, And.right⟩
      · rw [if_pos hc]
        apply answers_false
        rw [@cons_mem_accepted signed (.char operator) tokens _ rfl nofun]
        exact fun h ↦ hc h.1.symm

end Answers

/-- Both texts fit in a scanner, and if the pattern ends in a wildcard, then the input is not what
stands in front of that wildcard, or it is also with less of the input. -/
def LeavesSome (signed : Bool) (pattern input : List UInt8) (tokens : List GlobToken) : Prop :=
  pattern.length < 2 ^ 31 ∧ input.length < 2 ^ 31 ∧
    (tokens.getLast? = some .star → input ∈ globLanguage signed tokens.dropLast →
      ∃ front ∈ globLanguage signed tokens.dropLast, front <+: input ∧ front ≠ input)

/-- `glob_match_str` returns, and what it returns is whether the input is in the language of the
pattern. -/
def FindsLanguage (signed : Bool) (pattern input : List UInt8) (tokens : List GlobToken) : Prop :=
  ∃ matched, globMatchStr signed pattern input = .ok matched ∧
    (matched = true ↔ input ∈ globLanguage signed tokens)

theorem scanInit_eq_ok {text : List UInt8} {scan : Scan} :
    scanInit text = .ok scan ↔ text.length < 2 ^ 31 ∧ scan = ⟨text, false⟩ := by
  rw [scanInit]
  split
  next h => exact ⟨fun heq ↦ ⟨h, (Except.ok.inj heq).symm⟩, fun heq ↦ congrArg _ heq.2.symm⟩
  next h => exact ⟨nofun, fun heq ↦ absurd heq.1 h⟩

/-- `glob_match_str` finds the accepted language. -/
theorem globMatchStr_eq_ok {signed : Bool} {pattern input : List UInt8} {tokens : List GlobToken}
    (h : GlobParses pattern tokens) {matched : Bool} :
    globMatchStr signed pattern input = .ok matched ↔
      pattern.length < 2 ^ 31 ∧ input.length < 2 ^ 31 ∧
        (matched = true ↔ input ∈ acceptedLanguage signed tokens) := by
  obtain ⟨found, _, _, hrun, hfound, -⟩ := @globMatch_answers signed _ _ h _ le_rfl input
  simp only [globMatchStr, bind_eq_ok, scanInit_eq_ok]
  constructor
  · rintro ⟨_, ⟨hpattern, rfl⟩, _, ⟨hinput, rfl⟩, _, hmatch, heq⟩
    rw [hrun] at hmatch
    cases hmatch
    rw [pure_eq_ok] at heq
    exact ⟨hpattern, hinput, heq ▸ hfound⟩
  · rintro ⟨hpattern, hinput, hmatched⟩
    refine ⟨_, ⟨hpattern, rfl⟩, _, ⟨hinput, rfl⟩, _, hrun, ?_⟩
    rw [pure_eq_ok, Bool.eq_iff_iff]
    exact hfound.trans hmatched.symm

/-- Leaving at least one character makes no difference for a text exactly when it can be done. -/
theorem mem_mul_nonempty_iff {front : Language UInt8} {input : List UInt8} :
    (input ∈ front * nonemptyTexts ↔ input ∈ front * ⊤) ↔
      (input ∈ front → ∃ text ∈ front, text <+: input ∧ text ≠ input) := by
  simp only [Language.mem_mul]
  constructor
  · intro h hinput
    obtain ⟨text, htext, back, hback, heq⟩ := h.mpr ⟨input, hinput, [], trivial, List.append_nil _⟩
    refine ⟨text, htext, ⟨back, heq⟩, ?_⟩
    rintro rfl
    exact hback (List.append_right_eq_self.mp heq)
  · intro h
    constructor
    · rintro ⟨text, htext, back, -, heq⟩
      exact ⟨text, htext, back, trivial, heq⟩
    · rintro ⟨text, htext, back, -, heq⟩
      by_cases hback : back = []
      · have hinput : input ∈ front := by
          rwa [← heq, hback, List.append_nil]
        obtain ⟨shorter, hshorter, ⟨rest, hrest⟩, hne⟩ := h hinput
        refine ⟨shorter, hshorter, rest, ?_, hrest⟩
        rintro rfl
        exact hne ((List.append_nil _).symm.trans hrest)
      · exact ⟨text, htext, back, hback, heq⟩

theorem globLanguage_append_star {signed : Bool} (tokens : List GlobToken) :
    globLanguage signed (tokens ++ [.star]) = globLanguage signed tokens * ⊤ := by
  rw [globLanguage, List.map_append, List.prod_append, List.map_singleton, List.prod_singleton]
  rfl

/-- `glob_match_str` is true of the language of a pattern exactly as long as a wildcard at its end
does not have to stand for the empty text. -/
theorem findsLanguage_iff (signed : Bool) (pattern input : List UInt8) (tokens : List GlobToken)
    (h : GlobParses pattern tokens) :
    FindsLanguage signed pattern input tokens ↔ LeavesSome signed pattern input tokens := by
  have haccepted : FindsLanguage signed pattern input tokens ↔
      pattern.length < 2 ^ 31 ∧ input.length < 2 ^ 31 ∧
        (input ∈ acceptedLanguage signed tokens ↔ input ∈ globLanguage signed tokens) := by
    simp only [FindsLanguage, globMatchStr_eq_ok h]
    constructor
    · rintro ⟨matched, ⟨hpattern, hinput, hmatched⟩, hlanguage⟩
      exact ⟨hpattern, hinput, hmatched.symm.trans hlanguage⟩
    · rintro ⟨hpattern, hinput, hsame⟩
      classical
      exact ⟨decide (input ∈ acceptedLanguage signed tokens),
        ⟨hpattern, hinput, decide_eq_true_iff⟩, decide_eq_true_iff.trans hsame⟩
  rw [haccepted, LeavesSome]
  refine and_congr_right fun _ ↦ and_congr_right fun _ ↦ ?_
  by_cases hstar : tokens.getLast? = some .star
  · obtain ⟨front, rfl⟩ := List.getLast?_eq_some_iff.mp hstar
    rw [acceptedLanguage_append_star, globLanguage_append_star, mem_mul_nonempty_iff,
      List.dropLast_concat]
    exact ⟨fun h _ ↦ h, fun h ↦ h hstar⟩
  · rw [acceptedLanguage_of_ne hstar]
    exact ⟨fun _ h ↦ absurd h hstar, fun _ ↦ Iff.rfl⟩

/-- The pattern `a*` and the input `ab`. -/
theorem findsLanguage_iff_ab :
    (GlobParses (ascii ['a', '*']) [.char 97, .star] ∧
      FindsLanguage true (ascii ['a', '*']) (ascii ['a', 'b']) [.char 97, .star]) := by
  have hparses : GlobParses (ascii ['a', '*']) [.char 97, .star] :=
    .char (by decide) (by decide) (by decide) (.star .done)
  refine ⟨hparses, (findsLanguage_iff true _ _ _ hparses).mpr ⟨by decide, by decide, ?_⟩⟩
  intro _ _
  exact ⟨[97], ⟨[97], ⟨97, rfl, rfl⟩, [], rfl, rfl⟩, by decide, by decide⟩

/-- The pattern `a*` does not find the input `a`, although the wildcard may stand for the empty
text. -/
theorem findsLanguage_fails :
    GlobParses (ascii ['a', '*']) [.char 97, .star] ∧
      ascii ['a'] ∈ globLanguage true [.char 97, .star] ∧
      globMatchStr true (ascii ['a', '*']) (ascii ['a']) = .ok false ∧
      ¬ FindsLanguage true (ascii ['a', '*']) (ascii ['a']) [.char 97, .star] := by
  have hin : ascii ['a'] ∈ globLanguage true [.char 97, .star] :=
    ⟨[97], ⟨97, rfl, rfl⟩, [], ⟨[], trivial, [], rfl, rfl⟩, rfl⟩
  have hrun : globMatchStr true (ascii ['a', '*']) (ascii ['a']) = .ok false := by decide
  refine ⟨.char (by decide) (by decide) (by decide) (.star .done), hin, hrun, ?_⟩
  rintro ⟨matched, hmatched, hlanguage⟩
  rw [hrun] at hmatched
  cases hmatched
  exact Bool.false_ne_true (hlanguage.mpr hin)

end Brutal.Text
