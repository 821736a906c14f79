import Brutal.Json.Accepts
import Brutal.Text.Specifier

/-!
# Where a value is missing

The parser returns an error value in one case only: at a place where a value, or a key with its
colon, is expected, and in front of which everything was there.  Whatever else is wrong with a text
sets the error of the scanner, which nobody looks at.
-/

namespace Brutal.JsonFormat

open Base Ds Ds.Growth Lib Text

variable {sizes : Sizes}
variable {text : List UInt8} {scan next : Scan} {turns : ℕ} {v : Json} {c : UInt8}

theorem StartsValue.halts (h : StartsValue text) : Halts text := by
  have hword {word rest : List UInt8} {byte : UInt8} (hspace : isspace byte = false)
      (hslash : byte ≠ 47) (h : byte :: word <+: rest) : Halts rest := by
    obtain ⟨behind, rfl⟩ := h
    exact halts_cons hspace hslash _
  rcases h with ⟨byte, hbyte, h⟩ | h | h | h
  · obtain ⟨tail, rfl⟩ := List.head?_eq_some_iff.mp hbyte
    rcases h with rfl | h | rfl | rfl | rfl
    · exact halts_cons rfl (by decide) tail
    · exact halts_cons (opens_of_isdigit byte h).space (opens_of_isdigit byte h).slash tail
    all_goals exact halts_cons rfl (by decide) tail
  · exact hword rfl (by decide) h
  · exact hword rfl (by decide) h
  · exact hword rfl (by decide) h

/-- No word is skipped by a scanner that has an error. -/
theorem scanSkipWord_of_hasError (h : scan.hasError = true) {word : List UInt8}
    (hword : word.head?.getD 0 ≠ 0) : scanSkipWord scan word = (false, scan) := by
  cases word with
  | nil => exact absurd rfl hword
  | cons first word =>
    apply if_neg
    intro hall
    have hpeek := List.all_eq_true.mp hall 0 (List.mem_range.mpr (Nat.succ_pos _))
    rw [decide_eq_true_iff, scanPeek, if_pos h] at hpeek
    exact hword hpeek.symm

/-- What is left of the characters and of the words that a value starts with. -/
theorem jsonParse_throws (hskip : jsonSkipSpaceAndComment scan = next)
    (hcurr : ∀ c, c = 34 ∨ isdigit c = true ∨ c = 45 ∨ c = 123 ∨ c = 91 → scanCurr next ≠ c)
    (hwords : ∀ word ∈ [ascii ['t', 'r', 'u', 'e'], ascii ['f', 'a', 'l', 's', 'e'],
      ascii ['n', 'u', 'l', 'l']], scanSkipWord next word = (false, next)) (turns : ℕ) :
    jsonParse sizes (turns + 1) scan = .ok (.error, scanThrow next) := by
  have hnumber : ¬ (isdigit (scanCurr next) || decide (scanCurr next = 45)) = true := by
    rw [Bool.or_eq_true, decide_eq_true_iff, not_or]
    exact ⟨fun hdigit ↦ hcurr _ (Or.inr (Or.inl hdigit)) rfl, hcurr 45 (by decide)⟩
  rw [jsonParse, hskip]
  dsimp only
  rw [if_neg (hcurr 34 (by decide)), if_neg hnumber, hwords _ (by decide)]
  dsimp only
  rw [hwords _ (by decide)]
  dsimp only
  rw [hwords _ (by decide)]
  dsimp only
  rw [scanSkip_ne (hcurr 123 (by decide))]
  dsimp only
  rw [scanSkip_ne (hcurr 91 (by decide))]
  rfl

/-- Where there is an error, or nothing that a value starts with, the value is an error. -/
theorem jsonParse_error (hskip : jsonSkipSpaceAndComment scan = next)
    (h : next.hasError = true ∨ ¬ StartsValue next.rest) (turns : ℕ) :
    jsonParse sizes (turns + 1) scan = .ok (.error, scanThrow next) := by
  obtain ⟨text, error⟩ := next
  have hzero {c : UInt8} (hc : c = 34 ∨ isdigit c = true ∨ c = 45 ∨ c = 123 ∨ c = 91) : c ≠ 0 := by
    rintro rfl
    revert hc
    decide
  cases error with
  | true =>
    apply jsonParse_throws hskip
    · intro c hc heq
      exact hzero hc (heq.symm.trans (scanCurr_of_hasError rfl))
    · intro word hword
      apply scanSkipWord_of_hasError rfl
      revert word
      decide
  | false =>
    have hnone : ¬ StartsValue text := h.resolve_left Bool.false_ne_true
    rw [StartsValue, not_or, not_or, not_or] at hnone
    obtain ⟨hhead, htrue, hfalse, hnull⟩ := hnone
    apply jsonParse_throws hskip
    · intro c hc heq
      obtain ⟨rest, rfl⟩ := (scanCurr_eq_iff (hzero hc) text).mp heq
      exact hhead ⟨c, rfl, hc⟩
    · intro word hword
      have hbytes : 0 ∉ word := by
        revert word
        decide
      rw [scanSkipWord_eq hbytes, if_neg]
      intro hfound
      simp only [List.mem_cons, List.not_mem_nil, or_false] at hword
      rcases hword with rfl | rfl | rfl
      · exact htrue hfound
      · exact hfalse hfound
      · exact hnull hfound

/-- With enough turns, what is read is an error value or has one in it. -/
def Fails (sizes : Sizes) (place : Expected) (text : List UInt8) : Prop :=
  match place with
  | .value => ∃ v scan enough, HasError v ∧ scan.hasError = true ∧
      ∀ turns, enough ≤ turns → jsonParse sizes turns ⟨text, false⟩ = .ok (v, scan)
  | .elements count => ∃ els scan enough, HasError (.array els) ∧ scan.hasError = true ∧
      ∀ turns, enough ≤ turns → ∀ before, sizes.HasRoom jsonBytes (before.length + count) →
        jsonParseArray sizes turns before ⟨text, false⟩ = .ok (.array (before ++ els), scan)
  | .members keys => ∃ entries name v scan enough, HasError v ∧ scan.hasError = true ∧
      ∀ turns, enough ≤ turns → ∀ before, KeysFit sizes (keys ++ before.map (·.1)) →
        jsonParseObject sizes turns before ⟨text, false⟩ =
          .ok (.object (mapPut (mapPutAll before entries) name v), scan)

theorem mem_mapPut_self (nodes : List (List UInt8 × Json)) (key : List UInt8) (value : Json) :
    (key, value) ∈ mapPut nodes key value := by
  by_cases h : key ∈ nodes.map (·.1)
  · rw [mapPut_of_mem h]
    obtain ⟨node, hnode, hkey⟩ := List.mem_map.mp h
    exact List.mem_map.mpr ⟨node, hnode, if_pos hkey⟩
  · exact (mapPut_perm h value).mem_iff.mpr List.mem_cons_self

/-- The loop over elements ends behind an element where the scanner has an error. -/
theorem jsonParseArray_stops {els : List Json}
    (hscan : (scanCurr scan != 93 && !scanEnded scan) = true)
    (hparse : jsonParse sizes turns scan = .ok (v, next))
    (h : scanCurr (jsonSkipSpaceAndComment next) ≠ 44)
    (hroom : sizes.HasRoom jsonBytes (els.length + 1)) :
    jsonParseArray sizes (turns + 1) els scan =
      .ok (.array (els ++ [v]), scanExpect (jsonSkipSpaceAndComment next) 93) := by
  rw [jsonParseArray, if_pos hscan, hparse, ok_bind]
  dsimp only
  rw [jsonPush_of_room hroom, ok_bind, scanSkip_ne h]
  rfl

/-- The loop over members ends behind a member where the scanner has an error. -/
theorem jsonParseObject_stops {entries : List (List UInt8 × Json)}
    (hscan : (scanCurr scan != 125 && !scanEnded scan) = true)
    (hparse : jsonParse sizes turns (scanExpect (parseStr scan).2 58) = .ok (v, next))
    (h : scanCurr (jsonSkipSpaceAndComment next) ≠ 44)
    (htakes : TakesKey sizes (entries.map (·.1)) (parseStr scan).1) :
    jsonParseObject sizes (turns + 1) entries scan =
      .ok (.object (mapPut entries (parseStr scan).1 v),
        scanExpect (jsonSkipSpaceAndComment next) 125) := by
  rw [jsonParseObject, if_pos hscan]
  dsimp only
  rw [hparse, ok_bind]
  dsimp only
  rw [jsonPut_of_takes htakes, ok_bind, scanSkip_ne h]
  rfl

theorem Missing.fails {place : Expected} (h : Missing sizes place text) :
    Fails sizes place text := by
  induction h with
  | @value text hnone =>
    have herror (turns : ℕ) : jsonParse sizes (turns + 1) ⟨text, false⟩ =
        .ok (.error, scanThrow (jsonSkipSpaceAndComment ⟨text, false⟩)) := by
      apply jsonParse_error rfl
      cases jsonSkip_cases text with
      | inl hskip =>
        obtain ⟨start, hgap, -, hskip⟩ := hskip
        rw [hskip]
        exact Or.inr (hnone start hgap)
      | inr hskip =>
        rw [hskip.1]
        exact Or.inl rfl
    refine ⟨.error, scanThrow (jsonSkipSpaceAndComment ⟨text, false⟩), 1, .error, rfl,
      fun turns hle ↦ ?_⟩
    obtain ⟨turns, rfl⟩ := Nat.exists_eq_add_of_le' hle
    exact herror turns
  | @array text rest count before hroom _ ih =>
    obtain ⟨els, scan, enough, hels, hscan, hread⟩ := ih
    refine ⟨.array els, scan, enough + 1, hels, hscan, fun turns hle ↦ ?_⟩
    obtain ⟨turns, rfl⟩ := Nat.exists_eq_add_of_le' (Nat.le_of_add_left_le hle)
    rw [jsonParse_array (skip_of_halts before (halts_cons rfl (by decide) rest))]
    exact hread turns (Nat.le_of_succ_le_succ hle) [] (by rwa [List.length_nil, Nat.zero_add])
  | @object text rest keys before hfits _ ih =>
    obtain ⟨entries, name, v, scan, enough, hv, hscan, hread⟩ := ih
    have herror := HasError.object (mem_mapPut_self (mapPutAll [] entries) name v) hv
    refine ⟨_, scan, enough + 1, herror, hscan, fun turns hle ↦ ?_⟩
    obtain ⟨turns, rfl⟩ := Nat.exists_eq_add_of_le' (Nat.le_of_add_left_le hle)
    rw [jsonParse_object (skip_of_halts before (halts_cons rfl (by decide) rest))]
    exact hread turns (Nat.le_of_succ_le_succ hle) [] (by rwa [List.map_nil, List.append_nil])
  | @element text hne hopen _ ih =>
    obtain ⟨v, scan, enough, hv, hscan, hread⟩ := ih
    have hskip := jsonSkip_of_hasError hscan
    refine ⟨[v], _, enough + 1, .array (List.mem_singleton_self v) hv,
      scanExpect_of_hasError (hskip ▸ hscan) (show 93 ≠ 0 by decide),
      fun turns hle before hroom ↦ ?_⟩
    obtain ⟨turns, rfl⟩ := Nat.exists_eq_add_of_le' (Nat.le_of_add_left_le hle)
    obtain ⟨byte, tail, rfl⟩ := List.exists_cons_of_ne_nil hne
    have hgoes := (Gap.done (byte :: tail)).goesOn rfl (fun heq ↦ hopen (congrArg some heq)) rfl
      (by decide)
    apply jsonParseArray_stops hgoes (hread turns (Nat.le_of_succ_le_succ hle))
    · rw [hskip, scanCurr_of_hasError hscan]
      decide
    · exact hroom
  | @elements text start behind next more v count before el after space hmore _ ih =>
    obtain ⟨els, scan, enough, hels, hscan, hread⟩ := ih
    obtain ⟨enough', hel⟩ := el.parses.2 text before (after.noDigit (noDigit_cons rfl next))
    obtain ⟨elem, helem, helemError⟩ := hasError_array.mp hels
    obtain ⟨byte, bytes, hstart, hopens⟩ := el.head
    refine
      ⟨v :: els, scan, max enough enough' + 1, .array (List.mem_cons_of_mem v helem) helemError,
      hscan, fun turns hle others hroom ↦ ?_⟩
    obtain ⟨turns, rfl⟩ := Nat.exists_eq_add_of_le' (Nat.le_of_add_left_le hle)
    have hle' := Nat.le_of_succ_le_succ hle
    obtain ⟨scan', hparse, hnext⟩ := hel turns ((le_max_right _ _).trans hle')
    rw [skip_of_halts after (halts_cons rfl (by decide) next)] at hnext
    have hfirst : sizes.HasRoom jsonBytes (others.length + 1) :=
      hroom.mono (Nat.add_le_add_left (Nat.le_add_left 1 _) _)
    have hrest : sizes.HasRoom jsonBytes ((others ++ [v]).length + count) := by
      rw [List.length_append, List.length_singleton, Nat.add_assoc, Nat.add_comm 1]
      exact hroom
    rw [jsonParseArray_more
      (before.goesOn hstart hopens.bracket rfl (by decide)) hparse hnext hfirst,
      skip_of_halts space hmore, hread turns ((le_max_left _ _).trans hle') _ hrest,
      List.append_assoc]
    rfl
  | @key text hne hopen hnone =>
    have hscan : (scanExpect (parseStr ⟨text, false⟩).2 58).hasError = true := by
      cases key_cases text with
      | inl hkey =>
        obtain ⟨name, rest, hkey⟩ := hkey
        exact absurd hkey (hnone name rest)
      | inr hscan => exact hscan
    have hvalue (turns : ℕ) :=
      @jsonParse_error sizes _ _ (jsonSkip_of_hasError hscan) (Or.inl hscan) turns
    have hthrow : (scanThrow (scanExpect (parseStr ⟨text, false⟩).2 58)).hasError = true := rfl
    have hskip := jsonSkip_of_hasError hthrow
    refine ⟨[], (parseStr ⟨text, false⟩).1, .error, _, 2, .error,
      scanExpect_of_hasError (hskip ▸ hthrow) (show 125 ≠ 0 by decide),
      fun turns hle before hfits ↦ ?_⟩
    obtain ⟨turns, rfl⟩ := Nat.exists_eq_add_of_le' hle
    obtain ⟨byte, tail, rfl⟩ := List.exists_cons_of_ne_nil hne
    have hgoes := (Gap.done (byte :: tail)).goesOn rfl (fun heq ↦ hopen (congrArg some heq)) rfl
      (by decide)
    apply jsonParseObject_stops hgoes (hvalue turns)
    · rw [hskip, scanCurr_of_hasError hthrow]
      decide
    · exact hfits.takes_first
  | @member text name value key _ ih =>
    obtain ⟨v, scan, enough, hv, hscan, hread⟩ := ih
    obtain ⟨hgoes, hkey⟩ := key.atPlace (Or.inl rfl)
    have hskip := jsonSkip_of_hasError hscan
    refine ⟨[], name, v, _, enough + 1, hv,
      scanExpect_of_hasError (hskip ▸ hscan) (show 125 ≠ 0 by decide),
      fun turns hle before hfits ↦ ?_⟩
    obtain ⟨turns, rfl⟩ := Nat.exists_eq_add_of_le' (Nat.le_of_add_left_le hle)
    have hvalue :
        jsonParse sizes turns (scanExpect (parseStr ⟨text, false⟩).2 58) = .ok (v, scan) := by
      rw [hkey, scanExpect_cons]
      exact hread turns (Nat.le_of_succ_le_succ hle)
    have hstops := @jsonParseObject_stops sizes _ _ turns _ before hgoes hvalue (by
      rw [hskip, scanCurr_of_hasError hscan]
      decide) (by
      rw [hkey]
      exact hfits.takes_first)
    rwa [hkey] at hstops
  | @members text name value start behind next more v keys key before el after space hmore _ ih =>
    obtain ⟨entries, last, v', scan, enough, hv', hscan, hread⟩ := ih
    obtain ⟨hgoes, hkey⟩ := key.atPlace (Or.inl rfl)
    obtain ⟨enough', hel⟩ := el.parses.2 value before (after.noDigit (noDigit_cons rfl next))
    refine ⟨(name, v) :: entries, last, v', scan, max enough enough' + 1, hv', hscan,
      fun turns hle others hfits ↦ ?_⟩
    obtain ⟨turns, rfl⟩ := Nat.exists_eq_add_of_le' (Nat.le_of_add_left_le hle)
    have hle' := Nat.le_of_succ_le_succ hle
    obtain ⟨scan', hparse, hnext⟩ := hel turns ((le_max_right _ _).trans hle')
    rw [skip_of_halts after (halts_cons rfl (by decide) next)] at hnext
    rw [jsonParseObject_more hgoes hkey hparse hnext hfits.takes_first, skip_of_halts space hmore,
      hread turns ((le_max_left _ _).trans hle') _ hfits.put]
    rfl

/-! ## What is not missing -/

/-- The scanner has an error, or it is at a sign without digits. -/
def Stuck (scan : Scan) : Prop := scan.hasError = true ∨ ∃ rest, scan = ⟨45 :: rest, false⟩

theorem Stuck.scanCurr_ne (h : Stuck scan) (hc : c ≠ 0) (hsign : c ≠ 45) :
    scanCurr (jsonSkipSpaceAndComment scan) ≠ c := by
  cases h with
  | inl herror =>
    rw [jsonSkip_of_hasError herror, scanCurr_of_hasError herror]
    exact hc.symm
  | inr hrest =>
    obtain ⟨rest, rfl⟩ := hrest
    rw [(halts_cons rfl (by decide) rest).jsonSkip, scanCurr_cons]
    exact hsign.symm

/-- What is read from a text is derived from it, or it has no error although the scanner cannot go
on behind it, or a value is missing. -/
inductive Reading (sizes : Sizes) (place : Expected) (text : List UInt8) (derived : Scan → Prop)
    (isError : Prop) (stuck : Scan → Prop) (scan : Scan) : Prop where
  | whole (h : derived scan)
  | broken (h : ¬ isError) (hscan : stuck scan)
  | missing (h : Missing sizes place text) (hscan : scan.hasError = true)

/-- What is read where a value is expected. -/
def ValueRead (sizes : Sizes) (text : List UInt8) (v : Json) : Scan → Prop :=
  Reading sizes .value text (fun scan ↦ ∃ start rest, Gap IsJsonComment text start ∧
    Derives (parserDialect sizes) start (.value v) rest ∧
      jsonSkipSpaceAndComment scan = jsonSkipSpaceAndComment ⟨rest, false⟩) (HasError v) Stuck

/-- What is read where elements are expected. -/
def ElementsRead (sizes : Sizes) (text : List UInt8) (els : List Json) : Scan → Prop :=
  Reading sizes (.elements els.length) text (fun scan ↦ ∃ rest, scan = ⟨rest, false⟩ ∧
    ∀ first, Derives (parserDialect sizes) text (.elements first els) rest)
      (∃ el ∈ els, HasError el)
    (fun scan ↦ scan.hasError = true)

/-- What is read where members are expected. -/
def MembersRead (sizes : Sizes) (text : List UInt8) (entries : List (List UInt8 × Json)) :
    Scan → Prop :=
  Reading sizes (.members (entries.map (·.1))) text (fun scan ↦ ∃ rest, scan = ⟨rest, false⟩ ∧
    ∀ first, Derives (parserDialect sizes) text (.members first entries) rest)
    (∃ entry ∈ entries, HasError entry.2) (fun scan ↦ scan.hasError = true)

/-- What is read with some number of turns. -/
structure ReadsAll (sizes : Sizes) (turns : ℕ) : Prop where
  value : ∀ text v scan, jsonParse sizes turns ⟨text, false⟩ = .ok (v, scan) →
    ValueRead sizes text v scan
  array : ∀ before text v scan, sizes.HasRoom jsonBytes before.length →
    jsonParseArray sizes turns before ⟨text, false⟩ = .ok (v, scan) →
      ∃ els, v = .array (before ++ els) ∧ sizes.HasRoom jsonBytes (before.length + els.length) ∧
        ElementsRead sizes text els scan
  object : ∀ before text v scan, KeysFit sizes (before.map (·.1)) →
    jsonParseObject sizes turns before ⟨text, false⟩ = .ok (v, scan) →
      ∃ entries, v = .object (mapPutAll before entries) ∧
        KeysFit sizes (entries.map (·.1) ++ before.map (·.1)) ∧ MembersRead sizes text entries scan

/-- No value starts behind a gap if none starts where it ends. -/
theorem missing_value {text start : List UInt8} (hgap : Gap IsJsonComment text start)
    (hhalts : Halts start) (h : ¬ StartsValue start) : Missing sizes .value text := by
  apply Missing.value
  intro start' hgap' hstarts
  rw [hgap'.halts_unique hstarts.halts hgap hhalts] at hstarts
  exact h hstarts

/-- The digits at the front of a text. -/
theorem digits_span (text : List UInt8) : ∃ digits rest, text = digits ++ rest ∧
    (∀ byte ∈ digits, isdigit byte = true) ∧ NoDigit rest := by
  refine ⟨text.takeWhile isdigit, text.dropWhile isdigit, List.takeWhile_append_dropWhile.symm,
    fun _ ↦ List.mem_takeWhile_imp, fun byte hbyte ↦ ?_⟩
  have hnot := List.head?_dropWhile_not isdigit text
  rw [hbyte] at hnot
  exact hnot

theorem readsAll_number {text start digits rest : List UInt8} {negative : Bool}
    (hgap : Gap IsJsonComment text start)
    (hskip : jsonSkipSpaceAndComment ⟨text, false⟩ = ⟨start, false⟩)
    (hstart : start = (if negative then [45] else []) ++ (digits ++ rest)) (hne : digits ≠ [])
    (hdigits : ∀ byte ∈ digits, isdigit byte = true) (hrest : NoDigit rest)
    (hparse : jsonParse sizes (turns + 1) ⟨text, false⟩ = .ok (v, scan)) :
    ValueRead sizes text v scan := by
  have hhead : ∃ byte tail, start = byte :: tail ∧ (isdigit byte = true ∨ byte = 45) := by
    cases negative with
    | true => exact ⟨45, _, hstart, Or.inr rfl⟩
    | false =>
      obtain ⟨digit, tail, rfl⟩ := List.exists_cons_of_ne_nil hne
      exact ⟨digit, _, hstart, Or.inl (hdigits digit List.mem_cons_self)⟩
  obtain ⟨byte, tail, hcons, hbyte⟩ := hhead
  rw [jsonParse_int (hcons ▸ hskip) hbyte, ← hcons, hstart,
    scanNextInt_signed negative hne hdigits hrest] at hparse
  by_cases hlong : digitsValue digits < 2 ^ 63
  · rw [if_pos hlong] at hparse
    cases hparse
    exact .whole ⟨start, rest, hgap, hstart ▸ .number negative hne hdigits hlong rest, rfl⟩
  · rw [if_neg hlong] at hparse
    cases hparse

theorem ReadsAll.value_succ (h : ReadsAll sizes turns)
    (hparse : jsonParse sizes (turns + 1) ⟨text, false⟩ = .ok (v, scan)) :
    ValueRead sizes text v scan := by
  cases jsonSkip_cases text with
  | inr hskip =>
    rw [jsonParse_error hskip.1 (Or.inl rfl)] at hparse
    cases hparse
    exact .missing (.value fun start hgap hstarts ↦ hskip.2 start hgap hstarts.halts) rfl
  | inl hskip =>
  obtain ⟨start, hgap, hhalts, hskip⟩ := hskip
  by_cases hstarts : StartsValue start
  swap
  · rw [jsonParse_error hskip (Or.inr hstarts)] at hparse
    cases hparse
    exact .missing (missing_value hgap hhalts hstarts) rfl
  rcases hstarts with ⟨byte, hbyte, hstarts⟩ | ⟨rest, rfl⟩ | ⟨rest, rfl⟩ | ⟨rest, rfl⟩
  · obtain ⟨tail, rfl⟩ := List.head?_eq_some_iff.mp hbyte
    rcases hstarts with rfl | hdigit | rfl | rfl | rfl
    · rw [jsonParse_string hskip] at hparse
      cases hparse
      cases parseStr_cases (34 :: tail) with
      | inr herror => exact .broken (fun h ↦ nomatch h) (Or.inl herror)
      | inl hstring =>
        obtain ⟨name, behind, hstring, hname⟩ := hstring
        have heq := hstring.halts_unique (halts_cons rfl (by decide) _) (.done _) hhalts
        rw [parseStr_of_gap hstring hname]
        refine .whole ⟨_, behind, hgap, heq ▸ .string hname behind, jsonSkip_jsonSkip behind⟩
    · obtain ⟨digits, rest, hspan, hdigits, hrest⟩ := digits_span (byte :: tail)
      have hne : digits ≠ [] := by
        rintro rfl
        have hnot := hrest byte (congrArg List.head? hspan).symm
        rw [hdigit] at hnot
        cases hnot
      exact @readsAll_number sizes scan turns v text _ digits rest false hgap hskip hspan hne
        hdigits hrest
        hparse
    · obtain ⟨digits, rest, rfl, hdigits, hrest⟩ := digits_span tail
      by_cases hne : digits = []
      · rw [hne, List.nil_append] at hskip
        rw [jsonParse_int hskip (Or.inr rfl), scanNextInt_sign hrest] at hparse
        cases hparse
        exact .broken (fun h ↦ nomatch h) (Or.inr ⟨rest, rfl⟩)
      · exact @readsAll_number sizes scan turns v text _ digits rest true hgap hskip rfl hne hdigits
          hrest
          hparse
    · rw [jsonParse_object hskip] at hparse
      obtain ⟨entries, rfl, hfits, hread⟩ := h.object [] _ _ _ (keysFit_nil sizes) hparse
      rw [List.map_nil, List.append_nil] at hfits
      cases hread with
      | whole hwhole =>
        obtain ⟨rest, rfl, hentries⟩ := hwhole
        exact .whole ⟨_, rest, hgap, .object (hentries true) hfits, rfl⟩
      | broken hentries hscan =>
        refine .broken (fun herror ↦ hentries ?_) (Or.inl hscan)
        obtain ⟨entry, hentry, herror⟩ := hasError_object.mp herror
        exact ⟨entry, (mem_mapPutAll hentry).resolve_left List.not_mem_nil, herror⟩
      | missing hentries hscan => exact .missing (.object hgap hfits hentries) hscan
    · rw [jsonParse_array hskip] at hparse
      obtain ⟨els, rfl, hroom, hread⟩ := h.array [] _ _ _ (sizes.hasRoom_zero _) hparse
      rw [List.length_nil, Nat.zero_add] at hroom
      cases hread with
      | whole hwhole =>
        obtain ⟨rest, rfl, hels⟩ := hwhole
        exact .whole ⟨_, rest, hgap, .array (hels true) hroom, rfl⟩
      | broken hels hscan =>
        exact .broken (fun herror ↦ hels (hasError_array.mp herror)) (Or.inl hscan)
      | missing hels hscan => exact .missing (.array hgap hroom hels) hscan
  · rw [jsonParse_true hskip] at hparse
    cases hparse
    exact .whole ⟨_, rest, hgap, .trueWord rest, rfl⟩
  · rw [jsonParse_false hskip] at hparse
    cases hparse
    exact .whole ⟨_, rest, hgap, .falseWord rest, rfl⟩
  · rw [jsonParse_null hskip] at hparse
    cases hparse
    exact .whole ⟨_, rest, hgap, .nullWord rest, rfl⟩

/-- What stands behind a value that was read. -/
theorem behind_cases {rest : List UInt8}
    (h : jsonSkipSpaceAndComment scan = jsonSkipSpaceAndComment ⟨rest, false⟩) (hc : c ≠ 0) :
    (∃ next, Gap IsJsonComment rest (c :: next) ∧
      jsonSkipSpaceAndComment scan = ⟨c :: next, false⟩) ∨
      scanCurr (jsonSkipSpaceAndComment scan) ≠ c := by
  rw [h]
  cases jsonSkip_cases rest with
  | inr hskip =>
    rw [hskip.1]
    exact Or.inr hc.symm
  | inl hskip =>
    obtain ⟨start, hgap, -, hskip⟩ := hskip
    rw [hskip]
    by_cases hcurr : scanCurr ⟨start, false⟩ = c
    · obtain ⟨next, rfl⟩ := (scanCurr_eq_iff hc start).mp hcurr
      exact Or.inl ⟨next, hgap, rfl⟩
    · exact Or.inr hcurr

/-- The loop over elements ends at once where the scanner has an error. -/
theorem jsonParseArray_ended {els : List Json} (hscan : scan.hasError = true)
    (h : jsonParseArray sizes turns els scan = .ok (v, next)) :
    v = .array els ∧ next.hasError = true := by
  cases turns with
  | zero =>
    rw [jsonParseArray] at h
    cases h
  | succ turns =>
    have hended : scanEnded scan = true := by rw [scanEnded, hscan, Bool.or_true]
    rw [jsonParseArray, hended, Bool.not_true, Bool.and_false, if_neg Bool.false_ne_true] at h
    cases h
    exact ⟨rfl, scanExpect_of_hasError hscan (by decide)⟩

/-- The loop over members ends at once where the scanner has an error. -/
theorem jsonParseObject_ended {entries : List (List UInt8 × Json)} (hscan : scan.hasError = true)
    (h : jsonParseObject sizes turns entries scan = .ok (v, next)) :
    v = .object entries ∧ next.hasError = true := by
  cases turns with
  | zero =>
    rw [jsonParseObject] at h
    cases h
  | succ turns =>
    have hended : scanEnded scan = true := by rw [scanEnded, hscan, Bool.or_true]
    rw [jsonParseObject, hended, Bool.not_true, Bool.and_false, if_neg Bool.false_ne_true] at h
    cases h
    exact ⟨rfl, scanExpect_of_hasError hscan (by decide)⟩

theorem exists_mem_singleton (h : ∃ el ∈ [v], HasError el) : HasError v := by
  obtain ⟨el, hel, herror⟩ := h
  rwa [List.mem_singleton.mp hel] at herror

/-- Where the loop goes on, there is a text that does not start with the closing bracket. -/
theorem goes_iff :
    (scanCurr ⟨text, false⟩ != c && !scanEnded ⟨text, false⟩) = true →
      text ≠ [] ∧ text.head? ≠ some c := by
  intro h
  rw [Bool.and_eq_true, bne_iff_ne] at h
  cases text with
  | nil => cases h.2
  | cons byte tail => exact ⟨List.cons_ne_nil _ _, fun heq ↦ h.1 (Option.some.inj heq)⟩

theorem ReadsAll.array_succ (h : ReadsAll sizes turns) {before : List Json}
    (hbefore : sizes.HasRoom jsonBytes before.length)
    (hparse : jsonParseArray sizes (turns + 1) before ⟨text, false⟩ = .ok (v, scan)) :
    ∃ els, v = .array (before ++ els) ∧ sizes.HasRoom jsonBytes (before.length + els.length) ∧
      ElementsRead sizes text els scan := by
  by_cases hgoes : (scanCurr ⟨text, false⟩ != 93 && !scanEnded ⟨text, false⟩) = true
  swap
  · rw [jsonParseArray, if_neg hgoes] at hparse
    cases hparse
    refine ⟨[], by rw [List.append_nil], hbefore, ?_⟩
    by_cases hclosed : scanCurr ⟨text, false⟩ = 93
    · obtain ⟨rest, rfl⟩ := (scanCurr_eq_iff (by decide) text).mp hclosed
      exact .whole ⟨rest, scanExpect_cons 93 rest, fun first ↦ .noElements (Or.inr trivial) rest⟩
    · exact .broken (by rintro ⟨_, hel, _⟩; exact List.not_mem_nil hel) (scanExpect_of_ne hclosed)
  have hbind := hparse
  rw [jsonParseArray, if_pos hgoes] at hbind
  obtain ⟨⟨res, next⟩, hres, hbind⟩ := bind_eq_ok.mp hbind
  obtain ⟨_, hpush, -⟩ := bind_eq_ok.mp hbind
  obtain ⟨rfl, hpushed⟩ := jsonPush_eq_ok hpush
  have hroom : sizes.HasRoom jsonBytes (before.length + 1) := by rwa [List.length_append] at hpushed
  have hstops (hcomma : scanCurr (jsonSkipSpaceAndComment next) ≠ 44) :
      v = .array (before ++ [res]) ∧ scan = scanExpect (jsonSkipSpaceAndComment next) 93 := by
    rw [jsonParseArray_stops hgoes hres hcomma hroom] at hparse
    cases hparse
    exact ⟨rfl, rfl⟩
  cases h.value _ _ _ hres with
  | missing hmissing hscan =>
    have hskip := jsonSkip_of_hasError hscan
    obtain ⟨rfl, rfl⟩ := hstops (by rw [hskip, scanCurr_of_hasError hscan]; decide)
    refine
      ⟨[res], rfl, hroom, .missing (.element (goes_iff hgoes).1 (goes_iff hgoes).2 hmissing) ?_⟩
    rw [hskip]
    exact scanExpect_of_hasError hscan (by decide)
  | broken hnone hstuck =>
    obtain ⟨rfl, rfl⟩ := hstops (hstuck.scanCurr_ne (by decide) (by decide))
    exact ⟨[res], rfl, hroom, .broken (fun herror ↦ hnone (exists_mem_singleton herror))
      (scanExpect_of_ne (hstuck.scanCurr_ne (by decide) (by decide)))⟩
  | whole hwhole =>
  obtain ⟨start, rest, hgap, hel, hskip⟩ := hwhole
  have hnone : ¬ ∃ el ∈ [res], HasError el := fun herror ↦
    hel.parses.1 (exists_mem_singleton herror)
  cases behind_cases hskip (show 44 ≠ 0 by decide) with
  | inr hcomma =>
    obtain ⟨rfl, rfl⟩ := hstops hcomma
    refine ⟨[res], rfl, hroom, ?_⟩
    cases behind_cases hskip (show 93 ≠ 0 by decide) with
    | inl hclosed =>
      obtain ⟨after, hafter, hclosed⟩ := hclosed
      rw [hclosed]
      exact .whole ⟨after, scanExpect_cons 93 after, fun first ↦ .lastElement first hgap hel hafter⟩
    | inr hopen => exact .broken hnone (scanExpect_of_ne hopen)
  | inl hcomma =>
    obtain ⟨after, hafter, hcomma⟩ := hcomma
    rw [jsonParseArray_more hgoes hres hcomma hroom] at hparse
    cases jsonSkip_cases after with
    | inr hunclosed =>
      rw [hunclosed.1] at hparse
      obtain ⟨rfl, hscan⟩ := jsonParseArray_ended rfl hparse
      exact ⟨[res], rfl, hroom, .broken hnone hscan⟩
    | inl hmore =>
      obtain ⟨more, hspace, hhalts, hmore⟩ := hmore
      rw [hmore] at hparse
      obtain ⟨els, rfl, hall, hread⟩ := h.array _ _ _ _ hpushed hparse
      rw [List.length_append, List.length_singleton, Nat.add_assoc, Nat.add_comm 1] at hall
      refine ⟨res :: els, by rw [List.append_assoc, List.singleton_append], hall, ?_⟩
      cases hread with
      | whole htail =>
        obtain ⟨close, rfl, htail⟩ := htail
        exact .whole ⟨close, rfl, fun first ↦
          .element first hgap hel hafter hspace (htail false)⟩
      | broken hels hscan =>
        refine .broken ?_ hscan
        rintro ⟨el, hmem, herror⟩
        cases List.mem_cons.mp hmem with
        | inl heq => exact hel.parses.1 (heq ▸ herror)
        | inr hmem => exact hels ⟨el, hmem, herror⟩
      | missing hels hscan =>
        exact .missing (.elements hgap hel hafter hspace hhalts hels) hscan

theorem exists_mem_singleton_entry {name : List UInt8}
    (h : ∃ entry ∈ [(name, v)], HasError entry.2) : HasError v := by
  obtain ⟨entry, hentry, herror⟩ := h
  rwa [List.mem_singleton.mp hentry] at herror

theorem ReadsAll.object_succ (h : ReadsAll sizes turns) {before : List (List UInt8 × Json)}
    (hbefore : KeysFit sizes (before.map (·.1)))
    (hparse : jsonParseObject sizes (turns + 1) before ⟨text, false⟩ = .ok (v, scan)) :
    ∃ entries, v = .object (mapPutAll before entries) ∧
      KeysFit sizes (entries.map (·.1) ++ before.map (·.1)) ∧
        MembersRead sizes text entries scan := by
  by_cases hgoes : (scanCurr ⟨text, false⟩ != 125 && !scanEnded ⟨text, false⟩) = true
  swap
  · rw [jsonParseObject, if_neg hgoes] at hparse
    cases hparse
    refine ⟨[], rfl, hbefore, ?_⟩
    by_cases hclosed : scanCurr ⟨text, false⟩ = 125
    · obtain ⟨rest, rfl⟩ := (scanCurr_eq_iff (by decide) text).mp hclosed
      exact .whole ⟨rest, scanExpect_cons 125 rest, fun first ↦ .noMembers (Or.inr trivial) rest⟩
    · exact .broken (by rintro ⟨_, hentry, _⟩; exact List.not_mem_nil hentry)
        (scanExpect_of_ne hclosed)
  have hbind := hparse
  rw [jsonParseObject, if_pos hgoes] at hbind
  dsimp only at hbind
  obtain ⟨⟨res, next⟩, hres, hbind⟩ := bind_eq_ok.mp hbind
  obtain ⟨_, hput, -⟩ := bind_eq_ok.mp hbind
  obtain ⟨-, htakes⟩ := jsonPut_eq_ok hput
  have hfits := hbefore.cons htakes
  have hstops (hcomma : scanCurr (jsonSkipSpaceAndComment next) ≠ 44) :
      v = .object (mapPutAll before [((parseStr ⟨text, false⟩).1, res)]) ∧
        scan = scanExpect (jsonSkipSpaceAndComment next) 125 := by
    rw [jsonParseObject_stops hgoes hres hcomma htakes] at hparse
    cases hparse
    rw [mapPutAll_singleton]
    dsimp only
    exact ⟨rfl, rfl⟩
  have hends (hscan : next.hasError = true)
    (hmissing : Missing sizes (.members [(parseStr ⟨text, false⟩).1]) text) :
      ∃ entries, v = .object (mapPutAll before entries) ∧
        KeysFit sizes (entries.map (·.1) ++ before.map (·.1)) ∧
          MembersRead sizes text entries scan := by
    have hskip := jsonSkip_of_hasError hscan
    obtain ⟨rfl, rfl⟩ := hstops (by rw [hskip, scanCurr_of_hasError hscan]; decide)
    refine ⟨_, rfl, hfits, .missing hmissing ?_⟩
    rw [hskip]
    exact scanExpect_of_hasError hscan (by decide)
  by_cases hkey : ∃ name value, BeginsMember IsJsonComment text name value
  swap
  · have herror : (scanExpect (parseStr ⟨text, false⟩).2 58).hasError = true :=
      (key_cases text).resolve_left hkey
    cases turns with
    | zero =>
      rw [jsonParse] at hres
      cases hres
    | succ turns =>
      rw [jsonParse_error (jsonSkip_of_hasError herror) (Or.inl herror)] at hres
      cases hres
      exact hends rfl (.key (goes_iff hgoes).1 (goes_iff hgoes).2 fun name value hbegins ↦
        hkey ⟨name, value, hbegins⟩)
  obtain ⟨name, value, hkey⟩ := hkey
  rw [hkey.read, scanExpect_cons] at hres
  rw [hkey.read] at hstops hends hfits htakes
  cases h.value _ _ _ hres with
  | missing hmissing hscan => exact hends hscan (.member hkey hmissing)
  | broken hnone hstuck =>
    obtain ⟨rfl, rfl⟩ := hstops (hstuck.scanCurr_ne (by decide) (by decide))
    exact ⟨_, rfl, hfits, .broken (fun herror ↦ hnone (exists_mem_singleton_entry herror))
      (scanExpect_of_ne (hstuck.scanCurr_ne (by decide) (by decide)))⟩
  | whole hwhole =>
  obtain ⟨start, rest, hgap, hel, hskip⟩ := hwhole
  have hnone : ¬ ∃ entry ∈ [(name, res)], HasError entry.2 := fun herror ↦
    hel.parses.1 (exists_mem_singleton_entry herror)
  cases behind_cases hskip (show 44 ≠ 0 by decide) with
  | inr hcomma =>
    obtain ⟨rfl, rfl⟩ := hstops hcomma
    refine ⟨_, rfl, hfits, ?_⟩
    cases behind_cases hskip (show 125 ≠ 0 by decide) with
    | inl hclosed =>
      obtain ⟨after, hafter, hclosed⟩ := hclosed
      rw [hclosed]
      exact .whole ⟨after, scanExpect_cons 125 after, fun first ↦
        .lastMember first hkey hgap hel hafter⟩
    | inr hopen => exact .broken hnone (scanExpect_of_ne hopen)
  | inl hcomma =>
    obtain ⟨after, hafter, hcomma⟩ := hcomma
    rw [jsonParseObject_more hgoes hkey.read hres hcomma htakes] at hparse
    cases jsonSkip_cases after with
    | inr hunclosed =>
      rw [hunclosed.1] at hparse
      obtain ⟨rfl, hscan⟩ := jsonParseObject_ended rfl hparse
      exact ⟨[(name, res)], rfl, hfits, .broken hnone hscan⟩
    | inl hmore =>
      obtain ⟨more, hspace, hhalts, hmore⟩ := hmore
      rw [hmore] at hparse
      have hput := @KeysFit.put sizes [] name before res hfits
      obtain ⟨entries, rfl, hall, hread⟩ := h.object _ _ _ _ hput hparse
      refine ⟨(name, res) :: entries, rfl, hall.of_put, ?_⟩
      cases hread with
      | whole htail =>
        obtain ⟨close, rfl, htail⟩ := htail
        exact .whole ⟨close, rfl, fun first ↦
          .member first hkey hgap hel hafter hspace (htail false)⟩
      | broken hentries hscan =>
        refine .broken ?_ hscan
        rintro ⟨entry, hmem, herror⟩
        cases List.mem_cons.mp hmem with
        | inl heq =>
          rw [heq] at herror
          exact hel.parses.1 herror
        | inr hmem => exact hentries ⟨entry, hmem, herror⟩
      | missing hentries hscan =>
        exact .missing (.members hkey hgap hel hafter hspace hhalts hentries) hscan

theorem readsAll (sizes : Sizes) (turns : ℕ) : ReadsAll sizes turns := by
  induction turns with
  | zero =>
    refine ⟨?_, ?_, ?_⟩
    · intro text v scan hparse
      rw [jsonParse] at hparse
      cases hparse
    · intro before text v scan _ hparse
      rw [jsonParseArray] at hparse
      cases hparse
    · intro before text v scan _ hparse
      rw [jsonParseObject] at hparse
      cases hparse
  | succ turns ih =>
    exact ⟨fun _ _ _ ↦ ih.value_succ, fun _ _ _ _ ↦ ih.array_succ, fun _ _ _ _ ↦ ih.object_succ⟩

end Brutal.JsonFormat
