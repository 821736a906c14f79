import Brutal.Json.Grammar

/-!
# What the parser accepts

A text of the grammar is read, and the value is the one that the text stands for.  What is not in
the grammar is an error value only where the parser finds no value at the place where it expects
one: what is behind the value, and brackets and quotes that are not closed, set the error of the
scanner at most.
-/

namespace Brutal.JsonFormat

open Base Ds Ds.Growth Lib Text

variable {sizes : Sizes}
variable {text rest start : List UInt8} {d : Dialect} {v : Json}

/-- A text that does not go on with a digit. -/
def NoDigit (text : List UInt8) : Prop := ∀ byte ∈ text.head?, isdigit byte = false

/-- A gap starts with a space or with a slash. -/
theorem Gap.head (h : Gap IsJsonComment text rest) :
    text = rest ∨ ∃ byte tail, text = byte :: tail ∧ (isspace byte = true ∨ byte = 47) := by
  cases h with
  | done => exact Or.inl rfl
  | space hspace _ => exact Or.inr ⟨_, _, rfl, Or.inl hspace⟩
  | comment hcomment _ =>
    obtain ⟨closing, rfl, -⟩ := hcomment
    exact Or.inr ⟨47, _, rfl, Or.inr rfl⟩

theorem Gap.noDigit (h : Gap IsJsonComment text rest) (hrest : NoDigit rest) : NoDigit text := by
  cases h.head with
  | inl heq => rwa [heq]
  | inr hhead =>
    obtain ⟨byte, tail, rfl, hbyte⟩ := hhead
    rintro _ ⟨⟩
    cases hbyte with
    | inl hspace => exact not_isdigit_of_isspace byte hspace
    | inr hslash =>
      rw [hslash]
      rfl

theorem noDigit_cons {byte : UInt8} (h : isdigit byte = false) (rest : List UInt8) :
    NoDigit (byte :: rest) := by
  rintro _ ⟨⟩
  exact h

/-- A character that is neither a digit nor skipped, nor one that closes anything. -/
structure Opens (byte : UInt8) : Prop where
  space : isspace byte = false
  slash : byte ≠ 47
  bracket : byte ≠ 93
  brace : byte ≠ 125

theorem opens_of_isdigit : ∀ byte : UInt8, isdigit byte = true → Opens byte := by
  intro byte h
  refine ⟨?_, ?_, ?_, ?_⟩
  · by_contra hspace
    rw [not_isdigit_of_isspace byte (Bool.not_eq_false _ ▸ hspace)] at h
    cases h
  all_goals
    rintro rfl
    cases h

/-- The first character of a value. -/
theorem Derives.head (h : Derives d text (.value v) rest) :
    ∃ byte tail, text = byte :: tail ∧ Opens byte := by
  cases h with
  | nullWord => exact ⟨110, _, rfl, rfl, by decide, by decide, by decide⟩
  | trueWord => exact ⟨116, _, rfl, rfl, by decide, by decide, by decide⟩
  | falseWord => exact ⟨102, _, rfl, rfl, by decide, by decide, by decide⟩
  | string => exact ⟨34, _, rfl, rfl, by decide, by decide, by decide⟩
  | array => exact ⟨91, _, rfl, rfl, by decide, by decide, by decide⟩
  | object => exact ⟨123, _, rfl, rfl, by decide, by decide, by decide⟩
  | number negative hne hdigits =>
    cases negative with
    | true => exact ⟨45, _, rfl, rfl, by decide, by decide, by decide⟩
    | false =>
      obtain ⟨digit, tail, rfl⟩ := List.exists_cons_of_ne_nil hne
      exact ⟨digit, _, rfl, opens_of_isdigit digit (hdigits digit List.mem_cons_self)⟩

theorem Derives.halts (h : Derives d text (.value v) rest) : Halts text := by
  obtain ⟨byte, tail, rfl, hopens⟩ := h.head
  exact halts_cons hopens.space hopens.slash tail

/-- The loop over elements or members goes on in front of a gap and what opens something. -/
theorem Gap.goesOn (h : Gap IsJsonComment text start) {byte c : UInt8} {tail : List UInt8}
    (hstart : start = byte :: tail) (hbyte : byte ≠ c) (hspace : isspace c = false)
    (hslash : c ≠ 47) : (scanCurr ⟨text, false⟩ != c && !scanEnded ⟨text, false⟩) = true := by
  have hcons (first : UInt8) (rest : List UInt8) (hne : first ≠ c) :
      (scanCurr ⟨first :: rest, false⟩ != c && !scanEnded ⟨first :: rest, false⟩) = true := by
    rw [scanCurr_cons, scanEnded_cons, bne_iff_ne.2 hne]
    rfl
  cases h.head with
  | inl heq =>
    rw [heq, hstart]
    exact hcons byte tail hbyte
  | inr hhead =>
    obtain ⟨first, rest, rfl, hfirst⟩ := hhead
    apply hcons
    rintro rfl
    cases hfirst with
    | inl h =>
      rw [hspace] at h
      cases h
    | inr h => exact hslash h

theorem hasError_array {els : List Json} :
    HasError (.array els) ↔ ∃ el ∈ els, HasError el := by
  constructor
  · rintro (_ | ⟨hel, h⟩)
    exact ⟨_, hel, h⟩
  · rintro ⟨el, hel, h⟩
    exact .array hel h

theorem hasError_object {entries : List (List UInt8 × Json)} :
    HasError (.object entries) ↔ ∃ entry ∈ entries, HasError entry.2 := by
  constructor
  · rintro (_ | _ | ⟨hentry, h⟩)
    exact ⟨_, hentry, h⟩
  · rintro ⟨entry, hentry, h⟩
    exact .object hentry h

/-- The members of a map that some were put into come from there or from the map. -/
theorem mem_mapPutAll {nodes puts : List (List UInt8 × Json)} {node : List UInt8 × Json}
    (h : node ∈ mapPutAll nodes puts) : node ∈ nodes ∨ node ∈ puts := by
  induction puts generalizing nodes with
  | nil => exact Or.inl h
  | cons put puts ih =>
    rw [mapPutAll_cons] at h
    cases ih h with
    | inr hputs => exact Or.inr (List.mem_cons_of_mem _ hputs)
    | inl hnodes =>
      cases mem_mapPut hnodes with
      | inl heq =>
        rw [heq]
        exact Or.inr List.mem_cons_self
      | inr hold => exact Or.inl hold

/-- With enough turns a value is read behind a gap, elements and members after others, and what is
left is what stands behind them. -/
def Parses (sizes : Sizes) (text : List UInt8) (phrase : Phrase) (rest : List UInt8) : Prop :=
  match phrase with
  | .value v => ¬ HasError v ∧ ∀ before, Gap IsJsonComment before text → NoDigit rest →
      ∃ enough, ∀ turns, enough ≤ turns → ∃ scan,
        jsonParse sizes turns ⟨before, false⟩ = .ok (v, scan) ∧
          jsonSkipSpaceAndComment scan = jsonSkipSpaceAndComment ⟨rest, false⟩
  | .elements _ els => (∀ el ∈ els, ¬ HasError el) ∧
      ∀ start before, text = start ∨ jsonSkipSpaceAndComment ⟨text, false⟩ = ⟨start, false⟩ →
        sizes.HasRoom jsonBytes (before.length + els.length) → ∃ enough, ∀ turns, enough ≤ turns →
          jsonParseArray sizes turns before ⟨start, false⟩ =
            .ok (.array (before ++ els), ⟨rest, false⟩)
  | .members _ entries => (∀ entry ∈ entries, ¬ HasError entry.2) ∧
      ∀ start before, text = start ∨ jsonSkipSpaceAndComment ⟨text, false⟩ = ⟨start, false⟩ →
        KeysFit sizes (entries.map (·.1) ++ before.map (·.1)) → ∃ enough, ∀ turns, enough ≤ turns →
          jsonParseObject sizes turns before ⟨start, false⟩ =
            .ok (.object (mapPutAll before entries), ⟨rest, false⟩)

/-- A value that is read in one turn. -/
theorem parses_leaf (hv : ¬ HasError v) (hhalts : Halts text)
    (hread : NoDigit rest → ∀ turns scan, jsonSkipSpaceAndComment scan = ⟨text, false⟩ →
      ∃ next, jsonParse sizes (turns + 1) scan = .ok (v, next) ∧
        jsonSkipSpaceAndComment next = jsonSkipSpaceAndComment ⟨rest, false⟩) :
    Parses sizes text (.value v) rest := by
  refine ⟨hv, fun before hgap hrest ↦ ⟨1, fun turns hturns ↦ ?_⟩⟩
  obtain ⟨turns, rfl⟩ := Nat.exists_eq_add_of_le' hturns
  exact hread hrest turns _ (hgap.jsonSkip.trans hhalts.jsonSkip)

/-- A place where elements or members are read, in front of what opens the next one. -/
theorem gap_of_place {text start opening : List UInt8}
    (h : text = start ∨ jsonSkipSpaceAndComment ⟨text, false⟩ = ⟨start, false⟩)
    (hgap : Gap IsJsonComment text opening) (hopening : Halts opening) :
    Gap IsJsonComment start opening := by
  cases h with
  | inl heq => rwa [← heq]
  | inr hskip =>
    rw [hgap.jsonSkip, hopening.jsonSkip] at hskip
    have heq : opening = start := congrArg Scan.rest hskip
    rw [heq]
    exact .done start

theorem BeginsMember.place {text start name value : List UInt8}
    (h : BeginsMember IsJsonComment text name value)
    (hplace : text = start ∨ jsonSkipSpaceAndComment ⟨text, false⟩ = ⟨start, false⟩) :
    BeginsMember IsJsonComment start name value := by
  obtain ⟨behind, hgap, hname, hcolon⟩ := h
  exact ⟨behind, gap_of_place hplace hgap (halts_cons rfl (by decide) _), hname, hcolon⟩

/-- A key with its colon is read where a member is expected. -/
theorem BeginsMember.atPlace {text start name value : List UInt8}
    (h : BeginsMember IsJsonComment text name value)
    (hplace : text = start ∨ jsonSkipSpaceAndComment ⟨text, false⟩ = ⟨start, false⟩) :
    (scanCurr ⟨start, false⟩ != 125 && !scanEnded ⟨start, false⟩) = true ∧
      parseStr ⟨start, false⟩ = (name, ⟨58 :: value, false⟩) := by
  have hstart := h.place hplace
  refine ⟨?_, hstart.read⟩
  obtain ⟨behind, hgap, -⟩ := hstart
  exact hgap.goesOn rfl (by decide) rfl (by decide)

theorem place_of_halts (h : text = start ∨ jsonSkipSpaceAndComment ⟨text, false⟩ = ⟨start, false⟩)
    (hhalts : Halts text) : start = text := by
  cases h with
  | inl heq => exact heq.symm
  | inr hskip =>
    rw [hhalts.jsonSkip] at hskip
    exact (congrArg Scan.rest hskip).symm

/-- Elements are in front of a gap and of a closing bracket or a value. -/
theorem halts_of_elements {first : Bool} {els : List Json}
    (h : Derives d text (.elements first els) rest) :
    ∃ start, Gap d.comment text start ∧ Halts start := by
  cases h with
  | noElements _ rest => exact ⟨_, .done _, halts_cons rfl (by decide) rest⟩
  | spacedElements _ before => exact ⟨_, before, halts_cons rfl (by decide) rest⟩
  | lastElement _ before el _ => exact ⟨_, before, el.halts⟩
  | element _ before el _ _ _ => exact ⟨_, before, el.halts⟩

/-- Members are in front of a gap and of a closing brace or a key. -/
theorem halts_of_members {first : Bool} {entries : List (List UInt8 × Json)}
    (h : Derives d text (.members first entries) rest) :
    ∃ start, Gap d.comment text start ∧ Halts start := by
  cases h with
  | noMembers _ rest => exact ⟨_, .done _, halts_cons rfl (by decide) rest⟩
  | spacedMembers _ before => exact ⟨_, before, halts_cons rfl (by decide) rest⟩
  | lastMember _ key _ _ _ =>
    obtain ⟨_, hgap, -⟩ := key
    exact ⟨_, hgap, halts_cons rfl (by decide) _⟩
  | member _ key _ _ _ _ _ =>
    obtain ⟨_, hgap, -⟩ := key
    exact ⟨_, hgap, halts_cons rfl (by decide) _⟩

theorem skip_of_halts (hgap : Gap IsJsonComment text start) (hhalts : Halts start) :
    jsonSkipSpaceAndComment ⟨text, false⟩ = ⟨start, false⟩ :=
  hgap.jsonSkip.trans hhalts.jsonSkip

theorem Derives.parses {phrase : Phrase} (h : Derives (parserDialect sizes) text phrase rest) :
    Parses sizes text phrase rest := by
  induction h with
  | nullWord rest =>
    refine parses_leaf (fun h ↦ nomatch h) (halts_cons rfl (by decide) _) ?_
    exact fun _ turns scan hskip ↦ ⟨_, jsonParse_null hskip, rfl⟩
  | trueWord rest =>
    refine parses_leaf (fun h ↦ nomatch h) (halts_cons rfl (by decide) _) ?_
    exact fun _ turns scan hskip ↦ ⟨_, jsonParse_true hskip, rfl⟩
  | falseWord rest =>
    refine parses_leaf (fun h ↦ nomatch h) (halts_cons rfl (by decide) _) ?_
    exact fun _ turns scan hskip ↦ ⟨_, jsonParse_false hskip, rfl⟩
  | @string text htext rest =>
    refine parses_leaf (fun h ↦ nomatch h) (halts_cons rfl (by decide) _) ?_
    intro _ turns scan hskip
    have hparse := @jsonParse_string sizes _ _ turns hskip
    rw [parseStr_of_gap (.done (34 :: (text ++ 34 :: rest))) htext] at hparse
    exact ⟨_, hparse, jsonSkip_jsonSkip rest⟩
  | @number negative digits hne hdigits hlong rest =>
    have hhalts : Halts ((if negative then [45] else []) ++ (digits ++ rest)) :=
      (Derives.number negative hne hdigits hlong rest : Derives (parserDialect sizes) _ _ _).halts
    refine parses_leaf (fun h ↦ nomatch h) hhalts ?_
    intro hrest turns scan hskip
    have hread := scanNextInt_signed negative hne hdigits hrest
    rw [if_pos hlong] at hread
    refine ⟨_, ?_, rfl⟩
    cases negative with
    | true => exact jsonParse_number hskip (Or.inr rfl) hread
    | false =>
      obtain ⟨digit, tail, rfl⟩ := List.exists_cons_of_ne_nil hne
      exact jsonParse_number hskip (Or.inl (hdigits digit List.mem_cons_self)) hread
  | @array text rest els tail hroom ih =>
    obtain ⟨hels, hread⟩ := ih
    refine ⟨fun h ↦ ?_, fun before hgap _ ↦ ?_⟩
    · obtain ⟨el, hel, herror⟩ := hasError_array.mp h
      exact hels el hel herror
    · obtain ⟨enough, hturns⟩ := hread text [] (Or.inl rfl) (by
        rw [List.length_nil, Nat.zero_add]
        exact hroom)
      refine ⟨enough + 1, fun turns hle ↦ ?_⟩
      obtain ⟨turns, rfl⟩ := Nat.exists_eq_add_of_le' (Nat.le_of_add_left_le hle)
      have hskip := hgap.jsonSkip.trans (halts_cons rfl (by decide) text).jsonSkip
      exact ⟨_, (jsonParse_array hskip).trans (hturns turns (Nat.le_of_succ_le_succ hle)), rfl⟩
  | @object text rest entries tail hfits ih =>
    obtain ⟨hentries, hread⟩ := ih
    refine ⟨fun h ↦ ?_, fun before hgap _ ↦ ?_⟩
    · obtain ⟨entry, hentry, herror⟩ := hasError_object.mp h
      cases mem_mapPutAll hentry with
      | inl hnone => exact List.not_mem_nil hnone
      | inr hmem => exact hentries entry hmem herror
    · obtain ⟨enough, hturns⟩ := hread text [] (Or.inl rfl) (by
        rw [List.map_nil, List.append_nil]
        exact hfits)
      refine ⟨enough + 1, fun turns hle ↦ ?_⟩
      obtain ⟨turns, rfl⟩ := Nat.exists_eq_add_of_le' (Nat.le_of_add_left_le hle)
      have hskip := hgap.jsonSkip.trans (halts_cons rfl (by decide) text).jsonSkip
      exact ⟨_, (jsonParse_object hskip).trans (hturns turns (Nat.le_of_succ_le_succ hle)), rfl⟩
  | @noElements first hfirst rest =>
    refine ⟨fun el hel ↦ absurd hel List.not_mem_nil,
      fun start before hplace _ ↦ ⟨1, fun turns hle ↦ ?_⟩⟩
    obtain ⟨turns, rfl⟩ := Nat.exists_eq_add_of_le' hle
    rw [place_of_halts hplace (halts_cons rfl (by decide) rest), jsonParseArray,
      if_neg (by rw [scanCurr_cons]; exact Bool.false_ne_true), scanExpect_cons, List.append_nil]
    rfl
  | spacedElements h _ => exact h.elim
  | @lastElement first text start behind rest v before el after ih =>
    obtain ⟨hv, hread⟩ := ih
    refine ⟨fun el hel ↦ by rwa [List.mem_singleton.mp hel], fun place others hplace hroom ↦ ?_⟩
    obtain ⟨byte, tail, hstart, hopens⟩ := el.head
    have hgap := gap_of_place hplace before el.halts
    obtain ⟨enough, hturns⟩ := hread place hgap (after.noDigit (noDigit_cons rfl rest))
    refine ⟨enough + 1, fun turns hle ↦ ?_⟩
    obtain ⟨turns, rfl⟩ := Nat.exists_eq_add_of_le' (Nat.le_of_add_left_le hle)
    obtain ⟨next, hparse, hnext⟩ := hturns turns (Nat.le_of_succ_le_succ hle)
    rw [after.jsonSkip, (halts_cons rfl (by decide) rest).jsonSkip] at hnext
    exact jsonParseArray_last (hgap.goesOn hstart hopens.bracket rfl (by decide)) hparse hnext hroom
  | @element first text start behind next more rest v els before el after space tail ihel ih =>
    obtain ⟨hv, hread⟩ := ihel
    obtain ⟨hels, hrest⟩ := ih
    refine ⟨List.forall_mem_cons.mpr ⟨hv, hels⟩, fun place others hplace hroom ↦ ?_⟩
    obtain ⟨byte, bytes, hstart, hopens⟩ := el.head
    have hgap := gap_of_place hplace before el.halts
    obtain ⟨enough, hturns⟩ := hread place hgap (after.noDigit (noDigit_cons rfl next))
    obtain ⟨element, hgap', hhalts⟩ := halts_of_elements tail
    have hmore := skip_of_halts hgap' hhalts
    have hfirst : sizes.HasRoom jsonBytes (others.length + 1) :=
      hroom.mono (Nat.add_le_add_left (Nat.le_add_left 1 _) _)
    obtain ⟨enough', hturns'⟩ := hrest _ (others ++ [v]) (Or.inr hmore) (by
      rw [List.length_append, List.length_singleton, Nat.add_assoc, Nat.add_comm 1]
      exact hroom)
    refine ⟨max enough enough' + 1, fun turns hle ↦ ?_⟩
    obtain ⟨turns, rfl⟩ := Nat.exists_eq_add_of_le' (Nat.le_of_add_left_le hle)
    have hle' := Nat.le_of_succ_le_succ hle
    obtain ⟨scan, hparse, hscan⟩ := hturns turns ((le_max_left _ _).trans hle')
    rw [after.jsonSkip, (halts_cons rfl (by decide) next).jsonSkip] at hscan
    rw [jsonParseArray_more (hgap.goesOn hstart hopens.bracket rfl (by decide)) hparse hscan hfirst,
      space.jsonSkip, hmore, hturns' turns ((le_max_right _ _).trans hle'), List.append_assoc]
    rfl
  | @noMembers first hfirst rest =>
    refine ⟨fun entry hentry ↦ absurd hentry List.not_mem_nil,
      fun start before hplace _ ↦ ⟨1, fun turns hle ↦ ?_⟩⟩
    obtain ⟨turns, rfl⟩ := Nat.exists_eq_add_of_le' hle
    rw [place_of_halts hplace (halts_cons rfl (by decide) rest), jsonParseObject,
      if_neg (by rw [scanCurr_cons]; exact Bool.false_ne_true), scanExpect_cons]
    rfl
  | spacedMembers h _ => exact h.elim
  | @lastMember first text name value start behind rest v key before el after ih =>
    obtain ⟨hv, hread⟩ := ih
    refine ⟨fun entry hentry ↦ by rwa [List.mem_singleton.mp hentry],
      fun place others hplace hfits ↦ ?_⟩
    obtain ⟨hgoes, hkey⟩ := key.atPlace hplace
    obtain ⟨enough, hturns⟩ := hread value before (after.noDigit (noDigit_cons rfl rest))
    refine ⟨enough + 1, fun turns hle ↦ ?_⟩
    obtain ⟨turns, rfl⟩ := Nat.exists_eq_add_of_le' (Nat.le_of_add_left_le hle)
    obtain ⟨next, hparse, hnext⟩ := hturns turns (Nat.le_of_succ_le_succ hle)
    rw [after.jsonSkip, (halts_cons rfl (by decide) rest).jsonSkip] at hnext
    exact jsonParseObject_last hgoes hkey hparse hnext hfits.takes
  | @member first text name value start behind next more rest v entries key before el after space
      tail ihel ih =>
    obtain ⟨hv, hread⟩ := ihel
    obtain ⟨hentries, hrest⟩ := ih
    refine ⟨List.forall_mem_cons.mpr ⟨hv, hentries⟩, fun place others hplace hfits ↦ ?_⟩
    obtain ⟨hgoes, hkey⟩ := key.atPlace hplace
    obtain ⟨enough, hturns⟩ := hread value before (after.noDigit (noDigit_cons rfl next))
    obtain ⟨member, hgap', hhalts⟩ := halts_of_members tail
    have hmore := skip_of_halts hgap' hhalts
    obtain ⟨enough', hturns'⟩ := hrest _ (mapPut others name v) (Or.inr hmore) hfits.put
    refine ⟨max enough enough' + 1, fun turns hle ↦ ?_⟩
    obtain ⟨turns, rfl⟩ := Nat.exists_eq_add_of_le' (Nat.le_of_add_left_le hle)
    have hle' := Nat.le_of_succ_le_succ hle
    obtain ⟨scan, hparse, hscan⟩ := hturns turns ((le_max_left _ _).trans hle')
    rw [after.jsonSkip, (halts_cons rfl (by decide) next).jsonSkip] at hscan
    rw [jsonParseObject_more hgoes hkey hparse hscan hfits.takes_first, space.jsonSkip, hmore,
      hturns' turns ((le_max_right _ _).trans hle')]
    rfl

end Brutal.JsonFormat
