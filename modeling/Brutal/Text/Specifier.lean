import Brutal.Text.Emit

/-!
# Where a format specifier ends

The loop of `fmt_parse` looks for the brace only between two options.  An option that needs one
more character takes the brace for it: spaces with nothing behind them, and a zero that is the fill
of a width that does not follow.
-/

namespace Brutal.Text

open Base Lib

/-- A character that may stand at the front of a text, and what follows it. -/
def skipText (c : UInt8) (text : List UInt8) : Bool × List UInt8 :=
  if text.head? = some c then (true, text.tail) else (false, text)

/-- A text without the sign of the number that it starts with. -/
def unsigned (text : List UInt8) : List UInt8 :=
  if text.head? = some 45 ∧ ∃ digit ∈ text.tail.head?, isdigit digit = true then text.tail else text

/-- A number that may stand at the front of a text, and what follows it. -/
def numberEnd (text : List UInt8) : Except Fault (Bool × List UInt8) := do
  let _ ← ((unsigned text).takeWhile isdigit).foldlM scanDigit 0
  return (!((unsigned text).takeWhile isdigit).isEmpty, (unsigned text).dropWhile isdigit)

/-- A width with its fill and a precision that may stand at the front of a text, and what follows
them. -/
def precisionEnd (text : List UInt8) : Except Fault (Bool × List UInt8) := do
  let (width, text) ← numberEnd (skipText 48 text).2
  if (skipText 46 text).1 then
    let (_, text) ← numberEnd (skipText 46 text).2
    return (true, text)
  return (width, (skipText 46 text).2)

/-- What follows the name of a case that may stand at the front of a text. -/
def caseEnd (text : List UInt8) : List UInt8 :=
  match caseNames.find? fun name ↦ name.1 <+: text with
  | some name => text.drop name.1.length
  | none => text

/-- How an option at the front of a text ends. -/
inductive OptionEnd where
  /-- Before the rest of the text. -/
  | whole (rest : List UInt8)
  /-- It needs one more character than there is. -/
  | cutOff
  /-- It has a number that does not fit in a `long`. -/
  | overflow
deriving DecidableEq, Repr

/-- The option at the front of a text without spaces there: `#` or `+`, a case with its name, a
number with an optional zero in front of it and an optional precision behind it, or any other
character with an optional zero in front of it. -/
def bareOptionEnd (text : List UInt8) : OptionEnd :=
  if (skipText 35 text).1 then .whole (skipText 35 text).2
  else if (skipText 43 text).1 then .whole (skipText 43 text).2
  else if ascii ['c', 'a', 's', 'e', '-'] <+: text then .whole (caseEnd (text.drop 5))
  else
    match precisionEnd text with
    | .error _ => .overflow
    | .ok (true, rest) => .whole rest
    | .ok (false, []) => .cutOff
    | .ok (false, _ :: rest) => .whole rest

/-- The option at the front of a text, and the spaces in front of it. -/
def optionEnd (text : List UInt8) : OptionEnd := bareOptionEnd (text.dropWhile isspace)

theorem skipText_of_head {c : UInt8} {text : List UInt8} (h : text.head? = some c) :
    skipText c text = (true, text.tail) := if_pos h

theorem skipText_of_ne {c : UInt8} {text : List UInt8} (h : text.head? ≠ some c) :
    skipText c text = (false, text) := if_neg h

theorem scanSkip_text {c : UInt8} (hc : c ≠ 0) (text : List UInt8) :
    scanSkip ⟨text, false⟩ c = ((skipText c text).1, ⟨(skipText c text).2, false⟩) := by
  rw [scanSkip_eq hc, skipText]
  split <;> rfl

theorem unsigned_eq (text : List UInt8) :
    (if scanPeek ⟨text, false⟩ 0 = 45 && isdigit (scanPeek ⟨text, false⟩ 1) then
      (scanNext ⟨text, false⟩).2 else ⟨text, false⟩) = ⟨unsigned text, false⟩ := by
  cases text with
  | nil => rfl
  | cons byte text =>
    cases text with
    | nil =>
      have hpeek : ¬ (scanPeek ⟨[byte], false⟩ 0 = 45 && isdigit (scanPeek ⟨[byte], false⟩ 1)) := by
        change ¬ (decide (byte = 45) && false) = true
        rw [Bool.and_false]
        exact Bool.false_ne_true
      rw [if_neg hpeek, unsigned, if_neg]
      rintro ⟨-, _, hnext, -⟩
      cases hnext
    | cons next text =>
      have hpeek : (scanPeek ⟨byte :: next :: text, false⟩ 0 = 45 &&
          isdigit (scanPeek ⟨byte :: next :: text, false⟩ 1)) = true ↔
          (byte :: next :: text).head? = some 45 ∧
            ∃ digit ∈ (byte :: next :: text).tail.head?, isdigit digit = true := by
        rw [Bool.and_eq_true, decide_eq_true_eq]
        constructor
        · rintro ⟨hbyte, hdigit⟩
          exact ⟨congrArg some hbyte, next, rfl, hdigit⟩
        · rintro ⟨hbyte, digit, hnext, hdigit⟩
          cases hnext
          exact ⟨Option.some.inj hbyte, hdigit⟩
      rw [unsigned]
      by_cases h : (byte :: next :: text).head? = some 45 ∧
          ∃ digit ∈ (byte :: next :: text).tail.head?, isdigit digit = true
      · rw [if_pos h, if_pos (hpeek.mpr h)]
        rfl
      · rw [if_neg h, if_neg (fun hall ↦ h (hpeek.mp hall))]

/-- Behind a sign there is a digit. -/
theorem takeWhile_unsigned_ne_nil {text : List UInt8}
    (h : (scanPeek ⟨text, false⟩ 0 = 45 && isdigit (scanPeek ⟨text, false⟩ 1)) = true) :
    ((unsigned text).takeWhile isdigit).isEmpty = false := by
  have hsign := unsigned_eq text
  rw [if_pos h] at hsign
  rw [Bool.and_eq_true] at h
  cases text with
  | nil => cases h.1
  | cons byte text =>
    cases text with
    | nil => cases h.2
    | cons next text =>
      have hunsigned : unsigned (byte :: next :: text) = next :: text :=
        (congrArg Scan.rest hsign).symm
      rw [hunsigned, List.takeWhile_cons_of_pos (show isdigit next = true from h.2)]
      rfl

/-- `scan_next_int` on a text. -/
theorem scanNextInt_text (text : List UInt8) :
    (∃ fault, numberEnd text = .error fault ∧ scanNextInt ⟨text, false⟩ = .error fault) ∨
      ∃ value rest, numberEnd text = .ok (Option.isSome value, rest) ∧
        scanNextInt ⟨text, false⟩ = .ok (value, ⟨rest, false⟩) := by
  rw [numberEnd, scanNextInt]
  dsimp only
  rw [unsigned_eq, scanEatMatch_false]
  cases hdigits : ((unsigned text).takeWhile isdigit).foldlM scanDigit 0 with
  | error fault =>
    exact Or.inl ⟨fault, rfl, rfl⟩
  | ok value =>
    rw [ok_bind, ok_bind]
    by_cases hneg : (scanPeek ⟨text, false⟩ 0 = 45 && isdigit (scanPeek ⟨text, false⟩ 1)) = true
    · rw [if_pos hneg, takeWhile_unsigned_ne_nil hneg]
      exact Or.inr ⟨_, _, rfl, rfl⟩
    · rw [if_neg hneg]
      cases hempty : ((unsigned text).takeWhile isdigit).isEmpty with
      | true => exact Or.inr ⟨none, _, rfl, rfl⟩
      | false => exact Or.inr ⟨some value, _, rfl, rfl⟩

/-- `fmt_parse_precision` on a text. -/
theorem fmtParsePrecision_text (fmt : Fmt) (text : List UInt8) :
    (∃ fault, precisionEnd text = .error fault ∧
      fmtParsePrecision fmt ⟨text, false⟩ = .error fault) ∨
      ∃ found rest fmt', precisionEnd text = .ok (found, rest) ∧
        fmtParsePrecision fmt ⟨text, false⟩ = .ok (found, fmt', ⟨rest, false⟩) := by
  rw [precisionEnd, fmtParsePrecision, scanSkip_text (by decide)]
  dsimp only
  obtain ⟨fault, hend, hscan⟩ | ⟨width, rest, hend, hscan⟩ := scanNextInt_text (skipText 48 text).2
  · rw [hend, hscan]
    exact Or.inl ⟨fault, rfl, rfl⟩
  · rw [hend, hscan, ok_bind, ok_bind]
    dsimp only
    rw [scanSkip_text (by decide)]
    cases (skipText 46 rest).1 with
    | false =>
      simp only [Bool.not_false, Bool.false_eq_true, if_false, if_true]
      exact Or.inr ⟨_, _, _, rfl, rfl⟩
    | true =>
      simp only [Bool.not_true, Bool.false_eq_true, if_false, if_true]
      obtain ⟨fault, hend, hscan⟩ | ⟨precision, rest', hend, hscan⟩ :=
        scanNextInt_text (skipText 46 rest).2
      · rw [hend, hscan]
        exact Or.inl ⟨fault, rfl, rfl⟩
      · rw [hend, hscan]
        exact Or.inr ⟨_, _, _, rfl, rfl⟩

/-- The names of the cases are made of letters and dashes. -/
theorem zero_notMem_caseNames : ∀ name ∈ caseNames, (0 : UInt8) ∉ name.1 := by
  decide

theorem brace_notMem_caseNames : ∀ name ∈ caseNames, (125 : UInt8) ∉ name.1 := by
  decide

/-- `case_parse` on a text. -/
theorem caseParse_text (text : List UInt8) :
    ∃ casing, caseParse ⟨text, false⟩ = (casing, ⟨caseEnd text, false⟩) := by
  have hnames : ∀ names : List (List UInt8 × Case), (∀ name ∈ names, (0 : UInt8) ∉ name.1) →
      ∃ casing, caseParseNames names ⟨text, false⟩ = (casing, ⟨match names.find? fun name ↦
        name.1 <+: text with
      | some name => text.drop name.1.length
      | none => text, false⟩) := by
    intro names hzero
    induction names with
    | nil => exact ⟨_, rfl⟩
    | cons name names ih =>
      rw [caseParseNames, scanSkipWord_eq (hzero name List.mem_cons_self), List.find?_cons]
      by_cases h : name.1 <+: text
      · rw [if_pos h, decide_eq_true h]
        exact ⟨_, rfl⟩
      · rw [if_neg h, decide_eq_false h]
        exact ih fun other hother ↦ hzero other (List.mem_cons_of_mem name hother)
  exact hnames caseNames zero_notMem_caseNames

/-- A turn of the loop of `fmt_parse` takes the option at the front of the text. -/
theorem fmtParseLoop_turn (turns : ℕ) (fmt : Fmt) {byte : UInt8} {tail : List UInt8}
    (hbyte : byte ≠ 125) :
    match optionEnd (byte :: tail) with
    | .whole rest => ∃ fmt', fmtParseLoop (turns + 1) fmt ⟨byte :: tail, false⟩ =
        fmtParseLoop turns fmt' ⟨rest, false⟩
    | .cutOff => ∃ fmt', fmtParseLoop (turns + 1) fmt ⟨byte :: tail, false⟩ =
        fmtParseLoop turns fmt' ⟨[], true⟩
    | .overflow => ∃ fault, fmtParseLoop (turns + 1) fmt ⟨byte :: tail, false⟩ = .error fault := by
  have hgo : (scanCurr ⟨byte :: tail, false⟩ = 125 || scanEnded ⟨byte :: tail, false⟩) = false := by
    rw [scanCurr_cons, scanEnded_cons, decide_eq_false hbyte, Bool.false_or]
  have hspace : scanSkipSpace ⟨byte :: tail, false⟩ =
      (!((byte :: tail).takeWhile isspace).isEmpty,
        ⟨(byte :: tail).dropWhile isspace, false⟩) := rfl
  have hcase : (0 : UInt8) ∉ ascii ['c', 'a', 's', 'e', '-'] := by decide
  rw [fmtParseLoop, hgo, hspace, optionEnd]
  generalize (byte :: tail).dropWhile isspace = text
  rw [if_neg Bool.false_ne_true]
  dsimp only
  rw [scanSkip_text (by decide), bareOptionEnd]
  by_cases hhash : text.head? = some 35
  · rw [skipText_of_head hhash, if_pos rfl, if_pos rfl]
    exact ⟨_, rfl⟩
  rw [skipText_of_ne hhash, if_neg Bool.false_ne_true, if_neg Bool.false_ne_true]
  dsimp only
  rw [scanSkip_text (by decide)]
  by_cases hplus : text.head? = some 43
  · rw [skipText_of_head hplus, if_pos rfl, if_pos rfl]
    exact ⟨_, rfl⟩
  rw [skipText_of_ne hplus, if_neg Bool.false_ne_true, if_neg Bool.false_ne_true]
  dsimp only
  rw [scanSkipWord_eq hcase]
  by_cases hword : ascii ['c', 'a', 's', 'e', '-'] <+: text
  · obtain ⟨casing, hcasing⟩ := caseParse_text (text.drop 5)
    rw [if_pos hword, if_pos hword, if_pos rfl]
    refine ⟨{ fmt with casing }, ?_⟩
    change fmtParseLoop turns { fmt with casing := (caseParse ⟨text.drop 5, false⟩).1 }
      (caseParse ⟨text.drop 5, false⟩).2 = _
    rw [hcasing]
  rw [if_neg hword, if_neg hword, if_neg Bool.false_ne_true]
  dsimp only
  obtain ⟨fault, hend, hscan⟩ | ⟨found, rest, fmt', hend, hscan⟩ := fmtParsePrecision_text fmt text
  · rw [hend, hscan]
    exact ⟨fault, rfl⟩
  · rw [hend, hscan, ok_bind]
    cases found with
    | true => exact ⟨fmt', rfl⟩
    | false =>
      cases rest with
      | nil => exact ⟨_, rfl⟩
      | cons next rest => exact ⟨_, rfl⟩

/-! ## What an option takes

An option takes characters from the front of the text, and takes the same ones when a brace stands
behind the text.
-/

/-- What is left of a text, which is shorter if something was found at its front. -/
structure Behind (found : Bool) (rest text : List UInt8) : Prop where
  suffix : rest <:+ text
  shorter : found = true → rest.length < text.length

theorem skipText_behind (c : UInt8) (text : List UInt8) :
    Behind (skipText c text).1 (skipText c text).2 text := by
  by_cases h : text.head? = some c
  · rw [skipText_of_head h]
    cases text with
    | nil => cases h
    | cons byte text => exact ⟨List.suffix_cons byte text, fun _ ↦ Nat.lt_succ_self _⟩
  · rw [skipText_of_ne h]
    exact ⟨List.suffix_refl text, nofun⟩

theorem unsigned_suffix (text : List UInt8) : unsigned text <:+ text := by
  rw [unsigned]
  split
  · exact List.tail_suffix text
  · exact List.suffix_refl text

theorem numberEnd_behind {text rest : List UInt8} {found : Bool}
    (h : numberEnd text = .ok (found, rest)) : Behind found rest text := by
  rw [numberEnd, bind_eq_ok] at h
  obtain ⟨value, -, h⟩ := h
  rw [pure_eq_ok, Prod.mk.injEq] at h
  obtain ⟨rfl, rfl⟩ := h
  refine ⟨(List.dropWhile_suffix _).trans (unsigned_suffix text), fun hfound ↦ ?_⟩
  have hunsigned := (unsigned_suffix text).length_le
  have hsplit : ((unsigned text).takeWhile isdigit).length +
      ((unsigned text).dropWhile isdigit).length = (unsigned text).length := by
    rw [← List.length_append, List.takeWhile_append_dropWhile]
  cases hdigits : (unsigned text).takeWhile isdigit with
  | nil =>
    rw [hdigits] at hfound
    cases hfound
  | cons digit digits =>
    rw [hdigits, List.length_cons] at hsplit
    omega

theorem precisionEnd_behind {text rest : List UInt8} {found : Bool}
    (h : precisionEnd text = .ok (found, rest)) : Behind found rest text := by
  have hzero := (skipText_behind 48 text).suffix
  rw [precisionEnd, bind_eq_ok] at h
  obtain ⟨⟨width, middle⟩, hwidth, h⟩ := h
  have hmiddle := numberEnd_behind hwidth
  have hpoint := skipText_behind 46 middle
  have hafter := hpoint.suffix.trans (hmiddle.suffix.trans hzero)
  have hzeroLe := hzero.length_le
  dsimp only at h
  split at h
  next hfound =>
    rw [bind_eq_ok] at h
    obtain ⟨⟨precision, final⟩, hprecision, h⟩ := h
    rw [pure_eq_ok, Prod.mk.injEq] at h
    obtain ⟨rfl, rfl⟩ := h
    have hfinal : final <:+ (skipText 46 middle).2 := (numberEnd_behind hprecision).suffix
    have hless := hpoint.shorter hfound
    have hfinalLe := hfinal.length_le
    have hmiddleLe := hmiddle.suffix.length_le
    refine ⟨hfinal.trans hafter, fun _ ↦ ?_⟩
    change final.length < text.length
    omega
  next =>
    rw [pure_eq_ok, Prod.mk.injEq] at h
    obtain ⟨rfl, rfl⟩ := h
    refine ⟨hafter, fun hfound ↦ ?_⟩
    have hless := hmiddle.shorter hfound
    have hpointLe := hpoint.suffix.length_le
    omega

theorem caseEnd_suffix (text : List UInt8) : caseEnd text <:+ text := by
  rw [caseEnd]
  split
  · exact List.drop_suffix _ _
  · exact List.suffix_refl text

theorem bareOptionEnd_behind {text rest : List UInt8} (h : bareOptionEnd text = .whole rest) :
    Behind true rest text := by
  rw [bareOptionEnd] at h
  split at h
  next hfound =>
    cases h
    rw [← hfound]
    exact skipText_behind 35 text
  split at h
  next hfound =>
    cases h
    rw [← hfound]
    exact skipText_behind 43 text
  split at h
  next hword =>
    cases h
    have hfive : 5 ≤ text.length := hword.length_le
    have hname := (caseEnd_suffix (text.drop 5)).length_le
    rw [List.length_drop] at hname
    exact ⟨(caseEnd_suffix _).trans (List.drop_suffix 5 text), fun _ ↦ by omega⟩
  split at h
  next => cases h
  next found hend =>
    cases h
    exact precisionEnd_behind hend
  next => cases h
  next byte hend =>
    cases h
    have hsuffix := (precisionEnd_behind hend).suffix
    exact ⟨(List.suffix_cons _ rest).trans hsuffix, fun _ ↦ hsuffix.length_le⟩

/-- A whole option takes a character at least. -/
theorem optionEnd_behind {text rest : List UInt8} (h : optionEnd text = .whole rest) :
    Behind true rest text := by
  have hspaces : text.dropWhile isspace <:+ text := List.dropWhile_suffix _
  have hbare := bareOptionEnd_behind h
  exact ⟨hbare.suffix.trans hspaces,
    fun hfound ↦ Nat.lt_of_lt_of_le (hbare.shorter hfound) hspaces.length_le⟩

section Brace

variable (text rest : List UInt8)

theorem takeWhile_brace {p : UInt8 → Bool} (hp : p 125 = false) :
    (text ++ 125 :: rest).takeWhile p = text.takeWhile p := by
  induction text with
  | nil => exact List.takeWhile_cons_of_neg (by rw [hp]; exact Bool.false_ne_true)
  | cons byte text ih =>
    rw [List.cons_append, List.takeWhile_cons, List.takeWhile_cons, ih]

theorem dropWhile_brace {p : UInt8 → Bool} (hp : p 125 = false) :
    (text ++ 125 :: rest).dropWhile p = text.dropWhile p ++ 125 :: rest := by
  induction text with
  | nil => exact List.dropWhile_cons_of_neg (by rw [hp]; exact Bool.false_ne_true)
  | cons byte text ih =>
    rw [List.cons_append, List.dropWhile_cons, List.dropWhile_cons, ih]
    split <;> rfl

theorem skipText_brace {c : UInt8} (hc : c ≠ 125) : skipText c (text ++ 125 :: rest) =
    ((skipText c text).1, (skipText c text).2 ++ 125 :: rest) := by
  cases text with
  | nil => exact skipText_of_ne fun h ↦ hc (Option.some.inj h).symm
  | cons byte text =>
    by_cases h : (byte :: text).head? = some c
    · rw [skipText_of_head h,
        skipText_of_head (show (byte :: text ++ 125 :: rest).head? = some c from h)]
      rfl
    · rw [skipText_of_ne h,
        skipText_of_ne (show (byte :: text ++ 125 :: rest).head? ≠ some c from h)]

theorem unsigned_brace : unsigned (text ++ 125 :: rest) = unsigned text ++ 125 :: rest := by
  cases text with
  | nil => rfl
  | cons byte text =>
    cases text with
    | nil =>
      rw [unsigned, if_neg, unsigned, if_neg]
      · rintro ⟨-, digit, hnext, -⟩
        cases hnext
      · rintro ⟨-, digit, hnext, hdigit⟩
        cases hnext
        cases hdigit
    | cons next text =>
      by_cases h : (byte :: next :: text).head? = some 45 ∧
          ∃ digit ∈ (byte :: next :: text).tail.head?, isdigit digit = true
      · have hmore : (byte :: next :: text ++ 125 :: rest).head? = some 45 ∧
            ∃ digit ∈ (byte :: next :: text ++ 125 :: rest).tail.head?, isdigit digit = true := h
        rw [unsigned, unsigned, if_pos h, if_pos hmore]
        rfl
      · have hmore : ¬ ((byte :: next :: text ++ 125 :: rest).head? = some 45 ∧
            ∃ digit ∈ (byte :: next :: text ++ 125 :: rest).tail.head?, isdigit digit = true) := h
        rw [unsigned, unsigned, if_neg h, if_neg hmore]

theorem numberEnd_brace : numberEnd (text ++ 125 :: rest) =
    (fun result ↦ (result.1, result.2 ++ 125 :: rest)) <$> numberEnd text := by
  rw [numberEnd, numberEnd, unsigned_brace, takeWhile_brace _ _ rfl, dropWhile_brace _ _ rfl]
  cases ((unsigned text).takeWhile isdigit).foldlM scanDigit 0 with
  | error fault => rfl
  | ok value => rfl

theorem precisionEnd_brace : precisionEnd (text ++ 125 :: rest) =
    (fun result ↦ (result.1, result.2 ++ 125 :: rest)) <$> precisionEnd text := by
  rw [precisionEnd, precisionEnd, skipText_brace _ _ (by decide), numberEnd_brace]
  cases numberEnd (skipText 48 text).2 with
  | error fault => rfl
  | ok result =>
    obtain ⟨width, middle⟩ := result
    change (if (skipText 46 (middle ++ 125 :: rest)).1 = true then _ else _) =
      _ <$> (if (skipText 46 middle).1 = true then _ else _)
    rw [skipText_brace _ _ (by decide)]
    cases (skipText 46 middle).1 with
    | false => rfl
    | true =>
      rw [if_pos rfl, if_pos rfl, numberEnd_brace]
      cases numberEnd (skipText 46 middle).2 with
      | error fault => rfl
      | ok result => rfl

theorem prefix_brace {word : List UInt8} (hword : 125 ∉ word) :
    word <+: text ++ 125 :: rest ↔ word <+: text := by
  have hstop : text ++ [125] <+: text ++ 125 :: rest :=
    (List.prefix_append_right_inj text).mpr ((List.cons_prefix_cons).mpr ⟨rfl, List.nil_prefix⟩)
  constructor
  · intro h
    cases List.prefix_or_prefix_of_prefix h hstop with
    | inl hshort =>
      cases List.prefix_concat_iff.mp hshort with
      | inl heq =>
        rw [heq] at hword
        exact absurd (List.mem_append_right text List.mem_cons_self) hword
      | inr h => exact h
    | inr hlong =>
      exact absurd (hlong.subset (List.mem_append_right text List.mem_cons_self)) hword
  · exact fun h ↦ h.trans (List.prefix_append _ _)

theorem caseEnd_brace : caseEnd (text ++ 125 :: rest) = caseEnd text ++ 125 :: rest := by
  have hfind : ∀ names : List (List UInt8 × Case), (∀ name ∈ names, (125 : UInt8) ∉ name.1) →
      (names.find? fun name ↦ name.1 <+: text ++ 125 :: rest) =
        names.find? fun name ↦ name.1 <+: text := by
    intro names hbrace
    induction names with
    | nil => rfl
    | cons name names ih =>
      have hsame := prefix_brace text rest (hbrace name List.mem_cons_self)
      rw [List.find?_cons, List.find?_cons, ih fun other hother ↦
        hbrace other (List.mem_cons_of_mem name hother), decide_eq_decide.mpr hsame]
  rw [caseEnd, caseEnd, hfind caseNames brace_notMem_caseNames]
  cases hname : caseNames.find? fun name ↦ name.1 <+: text with
  | none => rfl
  | some name =>
    have hprefix : name.1 <+: text := by
      have hfound := List.find?_some hname
      exact of_decide_eq_true hfound
    exact List.drop_append_of_le_length hprefix.length_le

/-- An option that needs one more character takes the brace. -/
theorem optionEnd_brace : optionEnd (text ++ 125 :: rest) =
    match optionEnd text with
    | .whole more => .whole (more ++ 125 :: rest)
    | .cutOff => .whole rest
    | .overflow => .overflow := by
  have hword : (125 : UInt8) ∉ ascii ['c', 'a', 's', 'e', '-'] := by decide
  rw [optionEnd, optionEnd, dropWhile_brace _ _ rfl]
  generalize text.dropWhile isspace = bare
  rw [bareOptionEnd, bareOptionEnd, skipText_brace _ _ (by decide), skipText_brace _ _ (by decide)]
  split
  next => rfl
  split
  next => rfl
  by_cases hcase : ascii ['c', 'a', 's', 'e', '-'] <+: bare
  · have hfive : 5 ≤ bare.length := hcase.length_le
    rw [if_pos hcase, if_pos ((prefix_brace _ _ hword).mpr hcase),
      List.drop_append_of_le_length hfive, caseEnd_brace]
  · rw [if_neg hcase, if_neg fun h ↦ hcase ((prefix_brace _ _ hword).mp h), precisionEnd_brace]
    cases precisionEnd bare with
    | error fault => rfl
    | ok result =>
      obtain ⟨found, after⟩ := result
      cases found with
      | true => rfl
      | false =>
        cases after with
        | nil => rfl
        | cons byte after => rfl

end Brace

/-! ## Specifiers -/

/-- The text in front of the brace is made of whole options.  Where nothing follows the brace, the
last option may be cut off by it. -/
inductive Closed (last : Prop) : List UInt8 → Prop where
  | nil : Closed last []
  | option {text rest : List UInt8} (whole : optionEnd text = .whole rest)
      (tail : Closed last rest) : Closed last text
  | cutOff {text : List UInt8} (cut : optionEnd text = .cutOff) (end_ : last) : Closed last text

/-- `fmt_parse` from the loop on ends where only the given text is left. -/
def EndsAt (turns : ℕ) (fmt : Fmt) (text rest : List UInt8) : Prop :=
  ∃ fmt' scan, fmtParseLoop turns fmt ⟨text, false⟩ = .ok (fmt', scan) ∧
    (scanSkip scan 125).2 = ⟨rest, false⟩

theorem fmtParseLoop_stop (turns : ℕ) (fmt : Fmt) {scan : Scan}
    (h : (scanCurr scan = 125 || scanEnded scan) = true) :
    fmtParseLoop (turns + 1) fmt scan = .ok (fmt, scan) := by
  rw [fmtParseLoop, if_pos h]
  rfl

theorem EndsAt.nil_left {turns : ℕ} {fmt : Fmt} {rest : List UInt8} (h : EndsAt turns fmt [] rest) :
    rest = [] := by
  obtain ⟨fmt', scan, hloop, hskip⟩ := h
  cases turns with
  | zero => cases hloop
  | succ turns =>
    rw [fmtParseLoop_stop turns fmt rfl] at hloop
    cases hloop
    cases hskip
    rfl

/-- From a text that is not empty, something is taken. -/
theorem EndsAt.length_lt {turns : ℕ} {fmt : Fmt} {text rest : List UInt8}
    (h : EndsAt turns fmt text rest) (hne : text ≠ []) : rest.length < text.length := by
  induction turns generalizing fmt text with
  | zero =>
    obtain ⟨fmt', scan, hloop, -⟩ := h
    cases hloop
  | succ turns ih =>
    obtain ⟨byte, tail, rfl⟩ := List.exists_cons_of_ne_nil hne
    by_cases hbrace : byte = 125
    · obtain ⟨fmt', scan, hloop, hskip⟩ := h
      rw [fmtParseLoop_stop _ _ (by rw [hbrace]; rfl)] at hloop
      cases hloop
      rw [hbrace, scanSkip_cons] at hskip
      cases hskip
      exact Nat.lt_succ_self _
    · have hturn := @fmtParseLoop_turn turns fmt byte tail hbrace
      cases hend : optionEnd (byte :: tail) with
      | whole after =>
        rw [hend] at hturn
        obtain ⟨fmt', hturn⟩ := hturn
        have hless := (optionEnd_behind hend).shorter rfl
        rw [EndsAt, hturn] at h
        by_cases hafter : after = []
        · rw [hafter] at h
          rw [EndsAt.nil_left h]
          exact Nat.succ_pos _
        · exact (ih h hafter).trans hless
      | cutOff =>
        rw [hend] at hturn
        obtain ⟨fmt', hturn⟩ := hturn
        obtain ⟨fmt'', scan, hloop, hskip⟩ := h
        rw [hturn] at hloop
        cases turns with
        | zero => cases hloop
        | succ turns =>
          rw [fmtParseLoop_stop turns fmt' rfl] at hloop
          cases hloop
          cases hskip
      | overflow =>
        rw [hend] at hturn
        obtain ⟨fault, hturn⟩ := hturn
        obtain ⟨fmt'', scan, hloop, -⟩ := h
        rw [hturn] at hloop
        cases hloop

theorem endsAt_self_iff {turns : ℕ} {fmt : Fmt} {rest : List UInt8} :
    EndsAt (turns + 1) fmt rest rest ↔ rest = [] := by
  constructor
  · intro h
    by_contra hne
    exact Nat.lt_irrefl _ (h.length_lt hne)
  · rintro rfl
    exact ⟨fmt, ⟨[], false⟩, fmtParseLoop_stop turns fmt rfl, rfl⟩

theorem closed_iff {last : Prop} {byte : UInt8} {tail : List UInt8} :
    Closed last (byte :: tail) ↔
      match optionEnd (byte :: tail) with
      | .whole rest => Closed last rest
      | .cutOff => last
      | .overflow => False := by
  cases hend : optionEnd (byte :: tail) with
  | whole rest =>
    constructor
    · intro h
      cases h with
      | option whole tail =>
        rw [hend] at whole
        cases whole
        exact tail
      | cutOff cut _ =>
        rw [hend] at cut
        cases cut
    · exact Closed.option hend
  | cutOff =>
    constructor
    · intro h
      cases h with
      | option whole _ =>
        rw [hend] at whole
        cases whole
      | cutOff _ end_ => exact end_
    · exact Closed.cutOff hend
  | overflow =>
    constructor
    · intro h
      cases h with
      | option whole _ =>
        rw [hend] at whole
        cases whole
      | cutOff cut _ =>
        rw [hend] at cut
        cases cut
    · exact False.elim

/-- The loop of `fmt_parse` ends behind the first brace exactly when the brace closes the options.
-/
theorem endsAt_brace_iff {turns : ℕ} (fmt : Fmt) {text rest : List UInt8} (hbrace : 125 ∉ text)
    (hturns : (text ++ 125 :: rest).length < turns) :
    EndsAt turns fmt (text ++ 125 :: rest) rest ↔ Closed (rest = []) text := by
  induction turns generalizing fmt text with
  | zero => omega
  | succ turns ih =>
    cases text with
    | nil =>
      refine iff_of_true ⟨fmt, _, fmtParseLoop_stop turns fmt rfl, ?_⟩ Closed.nil
      exact congrArg Prod.snd (scanSkip_cons 125 rest)
    | cons byte tail =>
      have hbyte : byte ≠ 125 := fun h ↦ hbrace (h ▸ List.mem_cons_self)
      have hturn := @fmtParseLoop_turn turns fmt byte (tail ++ 125 :: rest) hbyte
      have hends := optionEnd_brace (byte :: tail) rest
      rw [List.cons_append] at hends
      rw [List.length_append, List.length_cons, List.length_cons] at hturns
      rw [closed_iff]
      cases hend : optionEnd (byte :: tail) with
      | whole more =>
        rw [hend] at hends
        rw [hends] at hturn
        obtain ⟨fmt', hturn⟩ := hturn
        have hbehind := optionEnd_behind hend
        have hmore : 125 ∉ more := fun h ↦ hbrace (hbehind.suffix.subset h)
        have hless := hbehind.shorter rfl
        rw [List.length_cons] at hless
        have hnext := ih fmt' hmore (by rw [List.length_append, List.length_cons]; omega)
        dsimp only
        rw [← hnext, EndsAt, EndsAt, List.cons_append, hturn]
      | cutOff =>
        rw [hend] at hends
        rw [hends] at hturn
        obtain ⟨fmt', hturn⟩ := hturn
        obtain ⟨turns, rfl⟩ : ∃ n, turns = n + 1 := ⟨turns - 1, by omega⟩
        rw [EndsAt, List.cons_append, hturn]
        exact endsAt_self_iff
      | overflow =>
        rw [hend] at hends
        rw [hends] at hturn
        obtain ⟨fault, hturn⟩ := hturn
        apply iff_of_false _ not_false
        rintro ⟨fmt', scan, hloop, -⟩
        rw [List.cons_append, hturn] at hloop
        cases hloop

end Brutal.Text
