import Brutal.Json.Text
import Brutal.Lib.Settled

/-!
# Reading the text of a value

What the parser makes of the text that was written for a value: between quotes it takes what was
written as it is, and so a value whose strings have no quotes comes back with the bytes that the
output wrote for them.
-/

namespace Brutal.JsonFormat

open Base Ds Ds.Growth Lib Text

mutual

/-- The value that is read from what was written for a value. -/
def jsonRead (level : ℕ) : Json → Json
  | .array els => .array (elementsRead (level + 1) els)
  | .object entries => .object (mapPutAll [] (entriesRead (level + 1) entries))
  | .string text => .string (content level text)
  | .null => .null
  | .true => .true
  | .false => .false
  | .number n => .number n
  | .error => .error

/-- The elements that are read. -/
def elementsRead (level : ℕ) : List Json → List Json
  | [] => []
  | el :: rest => jsonRead level el :: elementsRead level rest

/-- The members that are read, in the order in which they are put into the map. -/
def entriesRead (level : ℕ) : List (List UInt8 × Json) → List (List UInt8 × Json)
  | [] => []
  | (k, v) :: rest => (content level k, jsonRead level v) :: entriesRead level rest

end

attribute [local grind =] jsonText jsonRead elementsRead entriesRead jsonParse jsonSkipLoop opening
  closing scanEat scanSkipSpace

variable {sizes : Sizes} {keys keys' : List (List UInt8)} {key : List UInt8}

/-- A map takes the keys, whatever their order. -/
structure KeysFit (sizes : Sizes) (keys : List (List UInt8)) : Prop where
  node : ∀ key ∈ keys, sizes.Fits (valueStart key.length + jsonBytes)
  bucket : ∀ b, sizes.HasRoom nodePtrBytes (bucketKeys keys b).card

theorem KeysFit.mono (h : KeysFit sizes keys) (hsub : ∀ key ∈ keys', key ∈ keys) :
    KeysFit sizes keys' := by
  refine ⟨fun key hkey ↦ h.node key (hsub key hkey), fun b ↦ (h.bucket b).mono ?_⟩
  apply Finset.card_le_card
  intro key hkey
  rw [bucketKeys, List.mem_toFinset, List.mem_filter] at hkey ⊢
  exact ⟨hsub key hkey.1, hkey.2⟩

theorem keysFit_any (keys : List (List UInt8)) : KeysFit .any keys :=
  ⟨fun _ _ ↦ trivial, fun _ ↦ trivial⟩

theorem keysFit_nil (sizes : Sizes) : KeysFit sizes [] := by
  exact ⟨fun key hkey ↦ absurd hkey List.not_mem_nil, fun b ↦ sizes.hasRoom_zero _⟩

theorem KeysFit.takes (h : KeysFit sizes (key :: keys)) : TakesKey sizes keys key :=
  ⟨h.node key List.mem_cons_self, h.bucket _⟩

/-- With one key more that it takes, only the bucket of this key has more. -/
theorem KeysFit.cons (h : KeysFit sizes keys) (hkey : TakesKey sizes keys key) :
    KeysFit sizes (key :: keys) := by
  refine ⟨List.forall_mem_cons.2 ⟨hkey.1, h.node⟩, fun b ↦ ?_⟩
  by_cases hb : mapBucket key = b
  · exact hb ▸ hkey.2
  · have hsame : bucketKeys (key :: keys) b = bucketKeys keys b := by
      rw [bucketKeys, List.filter_cons_of_neg (by simpa using hb), bucketKeys]
    exact hsame ▸ h.bucket b

theorem mem_keys_mapPut {entries : List (List UInt8 × Json)} {name : List UInt8} {value : Json} :
    key ∈ (mapPut entries name value).map (·.1) ↔ key = name ∨ key ∈ entries.map (·.1) := by
  by_cases hname : name ∈ entries.map (·.1)
  · rw [keys_mapPut_of_mem hname]
    refine ⟨Or.inr, fun h ↦ ?_⟩
    rcases h with rfl | hkey
    · exact hname
    · exact hkey
  · rw [((mapPut_perm hname value).map (·.1)).mem_iff, List.map_cons, List.mem_cons]

/-- The first of the keys that are put is taken. -/
theorem KeysFit.takes_first {before : List (List UInt8)}
    (h : KeysFit sizes (key :: keys ++ before)) : TakesKey sizes before key := by
  apply KeysFit.takes
  refine h.mono fun other hother ↦ ?_
  rw [List.cons_append]
  rcases List.mem_cons.1 hother with rfl | hother
  · exact List.mem_cons_self
  · exact List.mem_cons_of_mem _ (List.mem_append_right _ hother)

/-- The other keys are put into the map that has the first one. -/
theorem KeysFit.put {before : List (List UInt8 × Json)} {value : Json}
    (h : KeysFit sizes (key :: keys ++ before.map (·.1))) :
    KeysFit sizes (keys ++ (mapPut before key value).map (·.1)) := by
  refine h.mono fun other hother ↦ ?_
  rw [List.mem_append, mem_keys_mapPut] at hother
  rw [List.cons_append, List.mem_cons, List.mem_append]
  tauto

theorem KeysFit.of_put {before : List (List UInt8 × Json)} {value : Json}
    (h : KeysFit sizes (keys ++ (mapPut before key value).map (·.1))) :
    KeysFit sizes (key :: keys ++ before.map (·.1)) := by
  refine h.mono fun other hother ↦ ?_
  rw [List.mem_append, mem_keys_mapPut]
  rw [List.cons_append, List.mem_cons, List.mem_append] at hother
  tauto

theorem jsonPush_of_room {els : List Json} (h : sizes.HasRoom jsonBytes (els.length + 1))
    (res : Json) : jsonPush sizes els res = .ok (els ++ [res]) := if_pos h

theorem jsonPush_eq_ok {els els' : List Json} {res : Json} (h : jsonPush sizes els res = .ok els') :
    els' = els ++ [res] ∧ sizes.HasRoom jsonBytes els'.length := by
  rw [jsonPush] at h
  split at h
  next hroom =>
    cases h
    exact ⟨rfl, by rwa [List.length_append]⟩
  next => cases h

theorem jsonPut_of_takes {entries : List (List UInt8 × Json)}
    (h : TakesKey sizes (entries.map (·.1)) key) (value : Json) :
    jsonPut sizes entries key value = .ok (mapPut entries key value) := if_pos h

theorem jsonPut_eq_ok {entries entries' : List (List UInt8 × Json)} {value : Json}
    (h : jsonPut sizes entries key value = .ok entries') :
    entries' = mapPut entries key value ∧ TakesKey sizes (entries.map (·.1)) key := by
  rw [jsonPut] at h
  split at h
  next htakes =>
    cases h
    exact ⟨rfl, htakes⟩
  next => cases h

theorem elementsRead_eq_map (level : ℕ) (els : List Json) :
    elementsRead level els = els.map (jsonRead level) := by
  induction els with
  | nil => grind
  | cons el rest ih => grind

theorem entriesRead_eq_map (level : ℕ) (entries : List (List UInt8 × Json)) :
    entriesRead level entries =
      entries.map fun entry ↦ (content level entry.1, jsonRead level entry.2) := by
  induction entries with
  | nil => grind
  | cons entry rest ih => grind

/-- Nothing is skipped in front of a text that starts with neither a space nor a slash. -/
def Solid (rest : List UInt8) : Prop := ∀ byte ∈ rest.head?, isspace byte = false ∧ byte ≠ 47

theorem solid_cons {byte : UInt8} (hspace : isspace byte = false) (hslash : byte ≠ 47)
    (rest : List UInt8) : Solid (byte :: rest) := by
  intro other hother
  cases hother
  exact ⟨hspace, hslash⟩

theorem Solid.skipSpace {rest : List UInt8} (h : Solid rest) :
    scanSkipSpace ⟨rest, false⟩ = (false, ⟨rest, false⟩) := by
  have heat : scanEatMatch ⟨[] ++ rest, false⟩ isspace = ([], ⟨rest, false⟩) :=
    scanEatMatch_append (List.forall_mem_nil _) fun byte hbyte ↦ (h byte hbyte).1
  rw [scanSkipSpace, scanEat]
  rw [List.nil_append] at heat
  rw [heat]
  rfl

theorem Solid.skipComment {rest : List UInt8} (h : Solid rest) :
    jsonSkipComment ⟨rest, false⟩ = (false, ⟨rest, false⟩) := by
  have hcurr : scanCurr ⟨rest, false⟩ ≠ 47 := by
    cases rest with
    | nil => decide
    | cons byte rest => exact (h byte rfl).2
  rw [jsonSkipComment, decide_eq_false hcurr]
  rfl

theorem Solid.skipLoop {rest : List UInt8} (h : Solid rest) (turns : ℕ) :
    jsonSkipLoop turns ⟨rest, false⟩ = ⟨rest, false⟩ := by
  cases turns with
  | zero => rfl
  | succ turns =>
    rw [jsonSkipLoop, h.skipSpace]
    dsimp only
    rw [h.skipComment]

/-- The spaces in front of a solid text are skipped. -/
theorem Solid.skip_append {spaces rest : List UInt8} (h : Solid rest)
    (hspaces : ∀ byte ∈ spaces, isspace byte = true) :
    jsonSkipSpaceAndComment ⟨spaces ++ rest, false⟩ = ⟨rest, false⟩ := by
  by_cases hnil : spaces = []
  · rw [hnil, List.nil_append]
    exact h.skipLoop _
  · have heat := scanEatMatch_append hspaces fun byte hbyte ↦ (h byte hbyte).1
    have hskip : scanSkipSpace ⟨spaces ++ rest, false⟩ = (true, ⟨rest, false⟩) := by
      rw [scanSkipSpace, scanEat, heat]
      simp [hnil]
    rw [jsonSkipSpaceAndComment, jsonSkipLoop, hskip]
    exact h.skipLoop _

theorem Solid.skip {rest : List UInt8} (h : Solid rest) :
    jsonSkipSpaceAndComment ⟨rest, false⟩ = ⟨rest, false⟩ :=
  h.skip_append (List.forall_mem_nil _)

theorem isspace_of_mem_indentation {level : ℕ} :
    ∀ byte ∈ indentation level, isspace byte = true := by
  intro byte hbyte
  rw [List.eq_of_mem_replicate hbyte]
  rfl

/-- A line end and the spaces of the next line. -/
theorem isspace_of_mem_line {level : ℕ} : ∀ byte ∈ 10 :: indentation level, isspace byte = true :=
  List.forall_mem_cons.2 ⟨rfl, isspace_of_mem_indentation⟩

theorem not_isdigit_of_isspace : ∀ byte : UInt8, isspace byte = true → isdigit byte = false := by
  intro byte h
  simp only [isspace, Bool.or_eq_true, decide_eq_true_eq] at h
  rcases h with (((rfl | rfl) | rfl) | rfl) | rfl <;> rfl

/-- No quote is written for a string without quotes. -/
theorem quote_notMem_content {level : ℕ} {text : List UInt8} (h : 34 ∉ text) :
    34 ∉ content level text := by
  intro hmem
  obtain ⟨byte, hbyte, hmem⟩ := List.mem_flatMap.1 hmem
  rw [byteText, List.mem_append] at hmem
  cases hmem with
  | inl hmem =>
    apply notMem_utf8FromRune (by decide) ?_ hmem
    rintro rfl
    exact h hbyte
  | inr hmem =>
    split at hmem
    · exact absurd (isspace_of_mem_indentation _ hmem) (by decide)
    · cases hmem

/-- A string is read up to the next quote, and the spaces behind it are skipped. -/
theorem parseStr_stringText {level : ℕ} {spaces text : List UInt8} (h : 34 ∉ text)
    (hspaces : ∀ byte ∈ spaces, isspace byte = true) (rest : List UInt8) :
    parseStr ⟨spaces ++ (stringText level text ++ rest), false⟩ =
      (content level text, jsonSkipSpaceAndComment ⟨rest, false⟩) := by
  have hsolid : Solid (34 :: (content level text ++ 34 :: rest)) :=
    solid_cons rfl (by decide) _
  have htext : stringText level text ++ rest = 34 :: (content level text ++ 34 :: rest) := by
    rw [stringText, List.cons_append, List.append_assoc, List.singleton_append]
  have heaten : ∀ byte ∈ content level text, isClosingString byte = true := by
    intro byte hbyte
    exact bne_iff_ne.2 fun heq ↦ quote_notMem_content h (heq ▸ hbyte)
  have heat : scanEatMatch ⟨content level text ++ 34 :: rest, false⟩ isClosingString =
      (content level text, ⟨34 :: rest, false⟩) := by
    apply scanEatMatch_append heaten
    intro byte hbyte
    cases hbyte
    rfl
  rw [parseStr, htext, hsolid.skip_append hspaces, scanExpect_cons, heat]
  dsimp only
  rw [scanExpect_cons]

section Parse

variable {scan : Scan} {rest : List UInt8} {turns : ℕ}

/-- What is read depends only on what is left once the spaces and comments are skipped. -/
theorem jsonParse_congr {next : Scan}
    (h : jsonSkipSpaceAndComment scan = jsonSkipSpaceAndComment next) :
    jsonParse sizes (turns + 1) scan = jsonParse sizes (turns + 1) next := by
  rw [jsonParse, h, ← jsonParse]

theorem jsonParse_skipped {byte : UInt8} (hspace : isspace byte = false) (hslash : byte ≠ 47)
    (h : jsonSkipSpaceAndComment scan = ⟨byte :: rest, false⟩) :
    jsonParse sizes (turns + 1) scan = jsonParse sizes (turns + 1) ⟨byte :: rest, false⟩ := by
  apply jsonParse_congr
  rw [h, (solid_cons hspace hslash rest).skip]

theorem jsonParse_string (h : jsonSkipSpaceAndComment scan = ⟨34 :: rest, false⟩) :
    jsonParse sizes (turns + 1) scan =
      .ok (.string (parseStr ⟨34 :: rest, false⟩).1, (parseStr ⟨34 :: rest, false⟩).2) := by
  rw [jsonParse, h]
  dsimp only
  rw [if_pos (scanCurr_cons 34 rest)]
  rfl

theorem jsonParse_int {byte : UInt8} (h : jsonSkipSpaceAndComment scan = ⟨byte :: rest, false⟩)
    (hbyte : isdigit byte = true ∨ byte = 45) :
    jsonParse sizes (turns + 1) scan = scanNextInt ⟨byte :: rest, false⟩ >>= fun read ↦
      .ok (.number (read.1.getD 0), read.2) := by
  have hquote : byte ≠ 34 := by
    rintro rfl
    cases hbyte with
    | inl hdigit => cases hdigit
    | inr heq => cases heq
  have hdigit : (isdigit byte || decide (byte = 45)) = true := by
    cases hbyte with
    | inl hdigit => rw [hdigit, Bool.true_or]
    | inr heq => rw [decide_eq_true heq, Bool.or_true]
  rw [jsonParse, h]
  dsimp only
  rw [scanCurr_cons, if_neg hquote, if_pos hdigit]
  rfl

theorem jsonParse_number {byte : UInt8} (h : jsonSkipSpaceAndComment scan = ⟨byte :: rest, false⟩)
    (hbyte : isdigit byte = true ∨ byte = 45) {n : ℤ} {next : Scan}
    (hnext : scanNextInt ⟨byte :: rest, false⟩ = .ok (some n, next)) :
    jsonParse sizes (turns + 1) scan = .ok (.number n, next) := by
  rw [jsonParse_int h hbyte, hnext]
  rfl

theorem jsonParse_true
    (h : jsonSkipSpaceAndComment scan = ⟨ascii ['t', 'r', 'u', 'e'] ++ rest, false⟩) :
    jsonParse sizes (turns + 1) scan = .ok (.true, ⟨rest, false⟩) :=
  (jsonParse_skipped rfl (by decide) h).trans rfl

theorem jsonParse_false
    (h : jsonSkipSpaceAndComment scan = ⟨ascii ['f', 'a', 'l', 's', 'e'] ++ rest, false⟩) :
    jsonParse sizes (turns + 1) scan = .ok (.false, ⟨rest, false⟩) :=
  (jsonParse_skipped rfl (by decide) h).trans rfl

theorem jsonParse_null
    (h : jsonSkipSpaceAndComment scan = ⟨ascii ['n', 'u', 'l', 'l'] ++ rest, false⟩) :
    jsonParse sizes (turns + 1) scan = .ok (.null, ⟨rest, false⟩) :=
  (jsonParse_skipped rfl (by decide) h).trans rfl

theorem jsonParse_array (h : jsonSkipSpaceAndComment scan = ⟨91 :: rest, false⟩) :
    jsonParse sizes (turns + 1) scan = jsonParseArray sizes turns [] ⟨rest, false⟩ :=
  (jsonParse_skipped rfl (by decide) h).trans rfl

theorem jsonParse_object (h : jsonSkipSpaceAndComment scan = ⟨123 :: rest, false⟩) :
    jsonParse sizes (turns + 1) scan = jsonParseObject sizes turns [] ⟨rest, false⟩ :=
  (jsonParse_skipped rfl (by decide) h).trans rfl

end Parse

theorem jsonPush_agrees (els : List Json) (res : Json) :
    AgreesUpTo .overflow (jsonPush .int els res) (jsonPush .any els res) := by
  rw [jsonPush]
  split
  · exact .inr rfl
  · exact .inl rfl

theorem jsonPut_agrees (entries : List (List UInt8 × Json)) (name : List UInt8) (value : Json) :
    AgreesUpTo .overflow (jsonPut .int entries name value) (jsonPut .any entries name value) := by
  rw [jsonPut]
  split
  · exact .inr (@jsonPut_of_takes .any _ _ ⟨trivial, trivial⟩ value)
  · exact .inl rfl

/-- Without a limit, the parser does the same unless a size overflows. -/
structure ParsesAlike (turns : ℕ) : Prop where
  value : ∀ scan, AgreesUpTo .overflow (jsonParse .int turns scan) (jsonParse .any turns scan)
  array : ∀ els scan, AgreesUpTo .overflow (jsonParseArray .int turns els scan)
    (jsonParseArray .any turns els scan)
  object : ∀ entries scan, AgreesUpTo .overflow (jsonParseObject .int turns entries scan)
    (jsonParseObject .any turns entries scan)

theorem parsesAlike (turns : ℕ) : ParsesAlike turns := by
  induction turns with
  | zero => exact ⟨fun _ ↦ .refl _, fun _ _ ↦ .refl _, fun _ _ ↦ .refl _⟩
  | succ turns ih =>
    refine ⟨fun scan ↦ ?_, fun els scan ↦ ?_, fun entries scan ↦ ?_⟩
    · rw [jsonParse, jsonParse]
      dsimp only
      split
      · exact .refl _
      split
      · exact .refl _
      split
      · exact .refl _
      split
      · exact .refl _
      split
      · exact .refl _
      split
      · exact ih.object _ _
      split
      · exact ih.array _ _
      · exact .refl _
    · rw [jsonParseArray, jsonParseArray]
      split
      · refine (ih.value scan).bind fun read ↦ (jsonPush_agrees els read.1).bind fun els ↦ ?_
        split
        · exact .refl _
        · exact ih.array _ _
      · exact .refl _
    · rw [jsonParseObject, jsonParseObject]
      split
      · refine (ih.value _).bind fun read ↦ (jsonPut_agrees entries _ read.1).bind fun entries ↦ ?_
        split
        · exact .refl _
        · exact ih.object _ _
      · exact .refl _

/-- What is parsed is parsed without a limit, too. -/
theorem jsonParse_any {turns : ℕ} {scan next : Scan} {v : Json}
    (h : jsonParse .int turns scan = .ok (v, next)) :
    jsonParse .any turns scan = .ok (v, next) := by
  rcases (parsesAlike turns).value scan with hoverflow | hsame
  · rw [h] at hoverflow
    cases hoverflow
  · exact hsame ▸ h

theorem jsonParseStr_eq_ok {turns : ℕ} {text : List UInt8} {v : Json} :
    jsonParseStr turns text = .ok v ↔
      text.length < 2 ^ 31 ∧ ∃ scan, jsonParse .int turns ⟨text, false⟩ = .ok (v, scan) := by
  rw [jsonParseStr, scanInit]
  by_cases hlength : text.length < 2 ^ 31
  · rw [if_pos hlength, ok_bind, bind_eq_ok]
    constructor
    · rintro ⟨⟨json, scan⟩, hparse, ⟨⟩⟩
      exact ⟨hlength, scan, hparse⟩
    · rintro ⟨-, scan, hparse⟩
      exact ⟨(v, scan), hparse, rfl⟩
  · rw [if_neg hlength]
    exact ⟨fun h ↦ (by cases h), fun h ↦ absurd h.1 hlength⟩

/-- The condition of the values that are read back with the bytes that were written. -/
def readable (sizes : Sizes) : Condition where
  text _ text := 34 ∉ text
  number n := IsLong n ∧ n ≠ -2 ^ 63
  elements count := sizes.HasRoom jsonBytes count
  entries level entries := KeysFit sizes (entries.map fun entry ↦ content level entry.1)
  error := False

/-- The text of a value starts with a byte that is not skipped and does not close an array. -/
theorem jsonText_head {level : ℕ} {v : Json} (h : Meets (readable sizes) level v) :
    ∃ byte rest, jsonText level v = byte :: rest ∧
      isspace byte = false ∧ byte ≠ 47 ∧ byte ≠ 93 := by
  cases h with
  | null => exact ⟨110, _, by rw [jsonText]; rfl, rfl, by decide, by decide⟩
  | true => exact ⟨116, _, by rw [jsonText]; rfl, rfl, by decide, by decide⟩
  | false => exact ⟨102, _, by rw [jsonText]; rfl, rfl, by decide, by decide⟩
  | array _ _ => exact ⟨91, _, by rw [jsonText], rfl, by decide, by decide⟩
  | object _ _ _ => exact ⟨123, _, by rw [jsonText], rfl, by decide, by decide⟩
  | string _ => exact ⟨34, _, by rw [jsonText]; rfl, rfl, by decide, by decide⟩
  | error herror => exact herror.elim
  | @number level n hn =>
    rw [jsonText, numberText]
    by_cases hneg : n < 0
    · exact ⟨45, _, by rw [if_pos hneg]; rfl, rfl, by decide, by decide⟩
    · obtain ⟨digit, digits, hcons⟩ := List.exists_cons_of_ne_nil (decimal_ne_nil n.natAbs)
      have hdigit : isdigit digit = true :=
        isdigit_of_mem_decimal n.natAbs digit (by rw [hcons]; exact List.mem_cons_self)
      refine ⟨digit, digits, by rw [if_neg hneg, hcons]; rfl, ?_, ?_, ?_⟩
      · by_contra hspace
        rw [Bool.not_eq_false] at hspace
        rw [not_isdigit_of_isspace digit hspace] at hdigit
        cases hdigit
      · rintro rfl
        cases hdigit
      · rintro rfl
        cases hdigit

theorem solid_of_meets {level : ℕ} {v : Json} (h : Meets (readable sizes) level v)
    (rest : List UInt8) :
    Solid (jsonText level v ++ rest) := by
  obtain ⟨byte, tail, htext, hspace, hslash, _⟩ := jsonText_head h
  rw [htext, List.cons_append]
  exact solid_cons hspace hslash _

/-- What may stand behind a value: it does not go on with a digit, and a string may have skipped the
spaces already. -/
def Behind (rest : List UInt8) : Prop :=
  (∀ byte ∈ rest.head?, isdigit byte = false) ∧
    jsonSkipSpaceAndComment (jsonSkipSpaceAndComment ⟨rest, false⟩) =
      jsonSkipSpaceAndComment ⟨rest, false⟩

theorem behind_nil : Behind [] := by
  refine ⟨?_, rfl⟩
  intro byte hbyte
  cases hbyte

theorem behind_line {line : List UInt8} (hline : ∀ byte ∈ line, isspace byte = true)
    {bracket : UInt8} (hdigit : isdigit bracket = false) (hspace : isspace bracket = false)
    (hslash : bracket ≠ 47) (rest : List UInt8) : Behind (line ++ bracket :: rest) := by
  have hsolid : Solid (bracket :: rest) := solid_cons hspace hslash rest
  refine ⟨?_, by rw [hsolid.skip_append hline, hsolid.skip]⟩
  intro byte hbyte
  cases line with
  | nil =>
    cases hbyte
    exact hdigit
  | cons first line =>
    cases hbyte
    exact not_isdigit_of_isspace _ (hline _ List.mem_cons_self)

/-- The text of a value is read, and only what stands behind it is left. -/
def Reads (sizes : Sizes) (v : Json) : Prop :=
  ∀ (level : ℕ) (spaces rest : List UInt8), Meets (readable sizes) level v →
    (∀ byte ∈ spaces, isspace byte = true) → Behind rest →
      ∃ enough, ∀ turns, enough ≤ turns → ∃ scan,
        jsonParse sizes turns ⟨spaces ++ (jsonText level v ++ rest), false⟩ =
            .ok (jsonRead level v, scan) ∧
          jsonSkipSpaceAndComment scan = jsonSkipSpaceAndComment ⟨rest, false⟩

/-! ## Elements and members -/

/-- A closing bracket is not seen before the first element or member. -/
theorem scanCurr_ne_of_spaces {spaces : List UInt8} {byte c : UInt8}
    (hspaces : ∀ byte ∈ spaces, isspace byte = true) (hspace : isspace c = false)
    (hbyte : byte ≠ c) (rest : List UInt8) :
    (scanCurr ⟨spaces ++ byte :: rest, false⟩ != c &&
      !scanEnded ⟨spaces ++ byte :: rest, false⟩) = true := by
  cases spaces with
  | nil =>
    rw [List.nil_append, scanCurr_cons, scanEnded_cons, bne_iff_ne.2 hbyte]
    rfl
  | cons first spaces =>
    have hne : first ≠ c := by
      rintro rfl
      rw [hspaces first List.mem_cons_self] at hspace
      cases hspace
    rw [List.cons_append, scanCurr_cons, scanEnded_cons, bne_iff_ne.2 hne]
    rfl

section ParseArray

variable {turns : ℕ} {els : List Json} {scan next : Scan} {v : Json} {rest : List UInt8}

theorem jsonParseArray_last (hscan : (scanCurr scan != 93 && !scanEnded scan) = true)
    (hparse : jsonParse sizes turns scan = .ok (v, next))
    (hnext : jsonSkipSpaceAndComment next = ⟨93 :: rest, false⟩)
    (hroom : sizes.HasRoom jsonBytes (els.length + 1)) :
    jsonParseArray sizes (turns + 1) els scan = .ok (.array (els ++ [v]), ⟨rest, false⟩) := by
  rw [jsonParseArray, if_pos hscan, hparse, ok_bind]
  dsimp only
  rw [jsonPush_of_room hroom, ok_bind, hnext]
  rfl

theorem jsonParseArray_more (hscan : (scanCurr scan != 93 && !scanEnded scan) = true)
    (hparse : jsonParse sizes turns scan = .ok (v, next))
    (hnext : jsonSkipSpaceAndComment next = ⟨44 :: rest, false⟩)
    (hroom : sizes.HasRoom jsonBytes (els.length + 1)) :
    jsonParseArray sizes (turns + 1) els scan =
      jsonParseArray sizes turns (els ++ [v]) (jsonSkipSpaceAndComment ⟨rest, false⟩) := by
  rw [jsonParseArray, if_pos hscan, hparse, ok_bind]
  dsimp only
  rw [jsonPush_of_room hroom, ok_bind, hnext]
  rfl

end ParseArray

section ParseObject

variable {turns : ℕ} {entries : List (List UInt8 × Json)} {scan next : Scan} {k : List UInt8}
  {v : Json} {member rest : List UInt8}

theorem jsonParseObject_last (hscan : (scanCurr scan != 125 && !scanEnded scan) = true)
    (hkey : parseStr scan = (k, ⟨58 :: member, false⟩))
    (hparse : jsonParse sizes turns ⟨member, false⟩ = .ok (v, next))
    (hnext : jsonSkipSpaceAndComment next = ⟨125 :: rest, false⟩)
    (htakes : TakesKey sizes (entries.map (·.1)) k) :
    jsonParseObject sizes (turns + 1) entries scan =
      .ok (.object (mapPut entries k v), ⟨rest, false⟩) := by
  rw [jsonParseObject, if_pos hscan, hkey]
  dsimp only
  rw [scanExpect_cons, hparse, ok_bind]
  dsimp only
  rw [jsonPut_of_takes htakes, ok_bind, hnext]
  rfl

theorem jsonParseObject_more (hscan : (scanCurr scan != 125 && !scanEnded scan) = true)
    (hkey : parseStr scan = (k, ⟨58 :: member, false⟩))
    (hparse : jsonParse sizes turns ⟨member, false⟩ = .ok (v, next))
    (hnext : jsonSkipSpaceAndComment next = ⟨44 :: rest, false⟩)
    (htakes : TakesKey sizes (entries.map (·.1)) k) :
    jsonParseObject sizes (turns + 1) entries scan =
      jsonParseObject sizes turns (mapPut entries k v) (jsonSkipSpaceAndComment ⟨rest, false⟩) := by
  rw [jsonParseObject, if_pos hscan, hkey]
  dsimp only
  rw [scanExpect_cons, hparse, ok_bind]
  dsimp only
  rw [jsonPut_of_takes htakes, ok_bind, hnext]
  rfl

end ParseObject

/-- An element that is next keeps the array from being closed. -/
theorem scanCurr_ne_of_meets {level : ℕ} {el : Json} (h : Meets (readable sizes) level el)
    {spaces : List UInt8} (hspaces : ∀ byte ∈ spaces, isspace byte = true) (rest : List UInt8) :
    (scanCurr ⟨spaces ++ (jsonText level el ++ rest), false⟩ != 93 &&
      !scanEnded ⟨spaces ++ (jsonText level el ++ rest), false⟩) = true := by
  obtain ⟨byte, tail, htext, _, _, hbyte⟩ := jsonText_head h
  rw [htext, List.cons_append]
  exact scanCurr_ne_of_spaces hspaces rfl hbyte _

/-- The spaces behind the comma in front of an element are skipped. -/
theorem skip_line_of_meets {level : ℕ} {el : Json} (h : Meets (readable sizes) level el)
    (rest : List UInt8) :
    jsonSkipSpaceAndComment ⟨10 :: indentation level ++ (jsonText level el ++ rest), false⟩ =
      ⟨[] ++ (jsonText level el ++ rest), false⟩ :=
  (solid_of_meets h rest).skip_append isspace_of_mem_line

/-- The elements of an array are read one after the other. -/
theorem jsonParseArray_elements {level : ℕ} {line : List UInt8}
    (hline : ∀ byte ∈ line, isspace byte = true) (rest : List UInt8) (els : List Json) :
    ∀ (el : Json) (spaces : List UInt8) (before : List Json), (∀ v ∈ el :: els, Reads sizes v) →
      (∀ v ∈ el :: els, Meets (readable sizes) level v) → (∀ byte ∈ spaces, isspace byte = true) →
      sizes.HasRoom jsonBytes (before.length + (el :: els).length) →
      ∃ enough, ∀ turns, enough ≤ turns →
        jsonParseArray sizes turns before ⟨spaces ++ (jsonText level el ++
          (elementsText level false els ++ (line ++ 93 :: rest))), false⟩ =
        .ok (.array (before ++ jsonRead level el :: elementsRead level els), ⟨rest, false⟩) := by
  induction els with
  | nil =>
    intro el spaces before hreads hmeets hspaces hroom
    have hel := hmeets el List.mem_cons_self
    have hclosed : jsonSkipSpaceAndComment ⟨line ++ 93 :: rest, false⟩ = ⟨93 :: rest, false⟩ :=
      (solid_cons rfl (by decide) rest).skip_append hline
    obtain ⟨enough, henough⟩ := hreads el List.mem_cons_self level spaces (line ++ 93 :: rest) hel
      hspaces (behind_line hline rfl rfl (by decide) rest)
    refine ⟨enough + 1, fun turns hturns ↦ ?_⟩
    obtain ⟨turns, rfl⟩ := Nat.exists_eq_add_of_le' (le_trans (Nat.le_add_left 1 enough) hturns)
    obtain ⟨next, hparse, hnext⟩ := henough turns (by omega)
    rw [elementsText, List.nil_append, elementsRead]
    exact jsonParseArray_last (scanCurr_ne_of_meets hel hspaces _) hparse
      (hnext.trans hclosed) hroom
  | cons other els ih =>
    intro el spaces before hreads hmeets hspaces hroom
    have hel := hmeets el List.mem_cons_self
    have hother := hmeets other (List.mem_cons_of_mem _ List.mem_cons_self)
    obtain ⟨enough', henough'⟩ := ih other [] (before ++ [jsonRead level el])
      (fun v hv ↦ hreads v (List.mem_cons_of_mem _ hv))
      (fun v hv ↦ hmeets v (List.mem_cons_of_mem _ hv)) (List.forall_mem_nil _) (by
        rw [List.length_append, List.length_singleton, Nat.add_assoc, Nat.add_comm 1]
        exact hroom)
    have htext : elementsText level false (other :: els) ++ (line ++ 93 :: rest) =
        44 :: (10 :: indentation level ++ (jsonText level other ++
          (elementsText level false els ++ (line ++ 93 :: rest)))) := by
      rw [elementsText, opening, if_neg Bool.false_ne_true]
      simp only [List.append_assoc, List.cons_append, List.nil_append]
    obtain ⟨enough, henough⟩ := hreads el List.mem_cons_self level spaces
      (elementsText level false (other :: els) ++ (line ++ 93 :: rest)) hel hspaces (by
        rw [htext]
        exact behind_line (List.forall_mem_nil _) rfl rfl (by decide) _)
    refine ⟨max enough enough' + 1, fun turns hturns ↦ ?_⟩
    obtain ⟨turns, rfl⟩ := Nat.exists_eq_add_of_le' (le_trans (Nat.le_add_left 1 _) hturns)
    obtain ⟨next, hparse, hnext⟩ := henough turns (by omega)
    have hcomma := hnext
    rw [htext, (solid_cons rfl (by decide) _).skip] at hcomma
    have hfirst : sizes.HasRoom jsonBytes (before.length + 1) :=
      hroom.mono (Nat.add_le_add_left (Nat.le_add_left 1 _) _)
    rw [jsonParseArray_more (scanCurr_ne_of_meets hel hspaces _) hparse hcomma hfirst,
      skip_line_of_meets hother, henough' turns (by omega), elementsRead, List.append_assoc,
      List.singleton_append]

/-- A key that is next keeps the object from being closed. -/
theorem scanCurr_ne_of_key {level : ℕ} (k : List UInt8) {spaces : List UInt8}
    (hspaces : ∀ byte ∈ spaces, isspace byte = true) (rest : List UInt8) :
    (scanCurr ⟨spaces ++ (stringText level k ++ rest), false⟩ != 125 &&
      !scanEnded ⟨spaces ++ (stringText level k ++ rest), false⟩) = true := by
  rw [stringText, List.cons_append]
  exact scanCurr_ne_of_spaces hspaces rfl (by decide) _

/-- A key is read up to the colon. -/
theorem parseStr_key {level : ℕ} {k spaces : List UInt8} (hk : 34 ∉ k)
    (hspaces : ∀ byte ∈ spaces, isspace byte = true) (rest : List UInt8) :
    parseStr ⟨spaces ++ (stringText level k ++ 58 :: rest), false⟩ =
      (content level k, ⟨58 :: rest, false⟩) := by
  rw [parseStr_stringText hk hspaces, (solid_cons rfl (by decide) rest).skip]

theorem isspace_of_mem_space : ∀ byte ∈ [(32 : UInt8)], isspace byte = true := by
  intro byte hbyte
  rw [List.mem_singleton.1 hbyte]
  rfl

/-- The members of an object are read one after the other, and each is put into the map. -/
theorem jsonParseObject_entries {level : ℕ} {line : List UInt8}
    (hline : ∀ byte ∈ line, isspace byte = true) (rest : List UInt8)
    (entries : List (List UInt8 × Json)) :
    ∀ (k : List UInt8) (v : Json) (spaces : List UInt8) (before : List (List UInt8 × Json)),
      (∀ entry ∈ (k, v) :: entries, Reads sizes entry.2) →
      (∀ entry ∈ (k, v) :: entries, 34 ∉ entry.1 ∧ Meets (readable sizes) level entry.2) →
      (∀ byte ∈ spaces, isspace byte = true) →
      KeysFit sizes (((k, v) :: entries).map (fun entry ↦ content level entry.1) ++
        before.map (·.1)) →
      ∃ enough, ∀ turns, enough ≤ turns →
        jsonParseObject sizes turns before ⟨spaces ++ (stringText level k ++ 58 :: ([32] ++
          (jsonText level v ++ (entriesText level false entries ++ (line ++ 125 :: rest))))),
            false⟩ =
        .ok (.object (mapPutAll before ((content level k, jsonRead level v) ::
          entriesRead level entries)), ⟨rest, false⟩) := by
  induction entries with
  | nil =>
    intro k v spaces before hreads hmeets hspaces hfits
    obtain ⟨hk, hv⟩ := hmeets (k, v) List.mem_cons_self
    have hclosed : jsonSkipSpaceAndComment ⟨line ++ 125 :: rest, false⟩ = ⟨125 :: rest, false⟩ :=
      (solid_cons rfl (by decide) rest).skip_append hline
    obtain ⟨enough, henough⟩ := hreads (k, v) List.mem_cons_self level [32] (line ++ 125 :: rest) hv
      isspace_of_mem_space (behind_line hline rfl rfl (by decide) rest)
    refine ⟨enough + 1, fun turns hturns ↦ ?_⟩
    obtain ⟨turns, rfl⟩ := Nat.exists_eq_add_of_le' (le_trans (Nat.le_add_left 1 enough) hturns)
    obtain ⟨next, hparse, hnext⟩ := henough turns (by omega)
    rw [entriesText, List.nil_append, entriesRead, mapPutAll_singleton]
    rw [hclosed] at hnext
    exact jsonParseObject_last (scanCurr_ne_of_key k hspaces _) (parseStr_key hk hspaces _) hparse
      hnext hfits.takes
  | cons other entries ih =>
    intro k v spaces before hreads hmeets hspaces hfits
    obtain ⟨otherKey, otherValue⟩ := other
    obtain ⟨hk, hv⟩ := hmeets (k, v) List.mem_cons_self
    obtain ⟨enough', henough'⟩ := ih otherKey otherValue []
      (mapPut before (content level k) (jsonRead level v))
      (fun entry hentry ↦ hreads entry (List.mem_cons_of_mem _ hentry))
      (fun entry hentry ↦ hmeets entry (List.mem_cons_of_mem _ hentry)) (List.forall_mem_nil _)
      hfits.put
    have htext : entriesText level false ((otherKey, otherValue) :: entries) ++
        (line ++ 125 :: rest) =
        44 :: (10 :: indentation level ++ (stringText level otherKey ++ 58 :: ([32] ++
          (jsonText level otherValue ++
            (entriesText level false entries ++ (line ++ 125 :: rest)))))) := by
      rw [entriesText, opening, if_neg Bool.false_ne_true]
      simp only [List.append_assoc, List.cons_append, List.nil_append]
    obtain ⟨enough, henough⟩ := hreads (k, v) List.mem_cons_self level [32]
      (entriesText level false ((otherKey, otherValue) :: entries) ++ (line ++ 125 :: rest)) hv
      isspace_of_mem_space (by
        rw [htext]
        exact behind_line (List.forall_mem_nil _) rfl rfl (by decide) _)
    refine ⟨max enough enough' + 1, fun turns hturns ↦ ?_⟩
    obtain ⟨turns, rfl⟩ := Nat.exists_eq_add_of_le' (le_trans (Nat.le_add_left 1 _) hturns)
    obtain ⟨next, hparse, hnext⟩ := henough turns (by omega)
    have hcomma := hnext
    rw [htext, (solid_cons rfl (by decide) _).skip] at hcomma
    have hopen : ∀ tail, jsonSkipSpaceAndComment
        ⟨10 :: indentation level ++ (stringText level otherKey ++ tail), false⟩ =
        ⟨[] ++ (stringText level otherKey ++ tail), false⟩ := by
      intro tail
      have hsolid : Solid (stringText level otherKey ++ tail) := solid_cons rfl (by decide) _
      rw [hsolid.skip_append isspace_of_mem_line, List.nil_append]
    rw [jsonParseObject_more (scanCurr_ne_of_key k hspaces _) (parseStr_key hk hspaces _) hparse
      hcomma hfits.takes_first, hopen, henough' turns (by omega), entriesRead]
    rfl

/-- What is parsed at once, with nothing skipped behind it, is read. -/
theorem reads_of_parse {v : Json} (h : ∀ (level : ℕ) (rest : List UInt8) (scan : Scan),
    Meets (readable sizes) level v → Behind rest →
      jsonSkipSpaceAndComment scan = ⟨jsonText level v ++ rest, false⟩ →
        ∃ enough, ∀ turns, enough ≤ turns → ∃ next,
          jsonParse sizes (turns + 1) scan = .ok (jsonRead level v, next) ∧
            jsonSkipSpaceAndComment next =
              jsonSkipSpaceAndComment ⟨rest, false⟩) : Reads sizes v := by
  intro level spaces rest hmeets hspaces hrest
  obtain ⟨enough, henough⟩ :=
    h level rest _ hmeets hrest ((solid_of_meets hmeets rest).skip_append hspaces)
  refine ⟨enough + 1, fun turns hturns ↦ ?_⟩
  obtain ⟨turns, rfl⟩ := Nat.exists_eq_add_of_le' (le_trans (Nat.le_add_left 1 enough) hturns)
  exact henough turns (by omega)

theorem reads_string (text : List UInt8) : Reads sizes (.string text) := by
  apply reads_of_parse
  intro level rest scan hmeets hrest hskip
  have htext : ∀ rest, stringText level text ++ rest = 34 :: (content level text ++ [34] ++ rest) :=
    fun _ ↦ rfl
  have hquotes : 34 ∉ text := meets_string.1 hmeets
  have hstring := @parseStr_stringText level [] text hquotes (List.forall_mem_nil _) rest
  rw [jsonText, htext] at hskip
  rw [List.nil_append, htext] at hstring
  rw [jsonRead]
  refine ⟨0, fun turns _ ↦ ⟨jsonSkipSpaceAndComment ⟨rest, false⟩, ?_, hrest.2⟩⟩
  rw [jsonParse_string hskip, hstring]

theorem reads_number (n : ℤ) : Reads sizes (.number n) := by
  apply reads_of_parse
  intro level rest scan hmeets hrest hskip
  obtain ⟨hlong, hmin⟩ := meets_number.1 hmeets
  have htext : jsonText level (.number n) = numberText n := by rw [jsonText]
  have hread : jsonRead level (.number n) = .number n := by rw [jsonRead]
  have hnext := scanNextInt_numberText hlong hmin hrest.1
  obtain ⟨byte, tail, hcons⟩ := List.exists_cons_of_ne_nil (numberText_ne_nil n)
  have hbyte : isdigit byte = true ∨ byte = 45 := by
    have hmem : byte ∈ numberText n := by
      rw [hcons]
      exact List.mem_cons_self
    rw [numberText, List.mem_append] at hmem
    cases hmem with
    | inl hsign =>
      split at hsign
      · exact Or.inr (List.mem_singleton.1 hsign)
      · cases hsign
    | inr hdigit => exact Or.inl (isdigit_of_mem_decimal _ _ hdigit)
  rw [htext] at hskip
  rw [hcons, List.cons_append] at hskip hnext
  exact ⟨0, fun turns _ ↦ ⟨⟨rest, false⟩, hread ▸ jsonParse_number hskip hbyte hnext, rfl⟩⟩

theorem reads_array {els : List Json} (h : ∀ el ∈ els, Reads sizes el) :
    Reads sizes (.array els) := by
  apply reads_of_parse
  intro level rest scan hmeets _ hskip
  obtain ⟨hcount, hels⟩ := meets_array.1 hmeets
  rw [jsonRead]
  rw [jsonText] at hskip
  cases els with
  | nil =>
    refine ⟨1, fun turns hturns ↦ ?_⟩
    obtain ⟨turns, rfl⟩ := Nat.exists_eq_add_of_le' hturns
    rw [jsonParse_array hskip]
    exact ⟨⟨rest, false⟩, rfl, rfl⟩
  | cons el els =>
    obtain ⟨enough, henough⟩ := @jsonParseArray_elements sizes (level + 1) (10 :: indentation level)
      isspace_of_mem_line rest els el (10 :: indentation (level + 1)) [] h hels isspace_of_mem_line
      (by rwa [List.length_nil, Nat.zero_add])
    have htext : elementsText (level + 1) true (el :: els) ++ closing level (el :: els).isEmpty ++
        [93] ++ rest = 10 :: indentation (level + 1) ++ (jsonText (level + 1) el ++
          (elementsText (level + 1) false els ++ (10 :: indentation level ++ 93 :: rest))) := by
      rw [elementsText, opening, if_pos rfl]
      simp only [closing, List.isEmpty_cons, Bool.false_eq_true, if_false, List.append_assoc,
        List.cons_append, List.nil_append]
    rw [List.cons_append, htext] at hskip
    refine ⟨enough, fun turns hturns ↦ ⟨⟨rest, false⟩, ?_, rfl⟩⟩
    rw [jsonParse_array hskip, henough turns hturns, elementsRead, List.nil_append]

theorem reads_object {entries : List (List UInt8 × Json)}
    (h : ∀ entry ∈ entries, Reads sizes entry.2) : Reads sizes (.object entries) := by
  apply reads_of_parse
  intro level rest scan hmeets _ hskip
  obtain ⟨hfits, hkeys, hvalues⟩ := meets_object.1 hmeets
  rw [jsonRead]
  rw [jsonText] at hskip
  cases entries with
  | nil =>
    refine ⟨1, fun turns hturns ↦ ?_⟩
    obtain ⟨turns, rfl⟩ := Nat.exists_eq_add_of_le' hturns
    rw [jsonParse_object hskip]
    exact ⟨⟨rest, false⟩, rfl, rfl⟩
  | cons entry entries =>
    obtain ⟨k, v⟩ := entry
    obtain ⟨enough, henough⟩ := @jsonParseObject_entries sizes (level + 1) (10 :: indentation level)
      isspace_of_mem_line rest entries k v (10 :: indentation (level + 1)) [] h
      (fun entry hentry ↦ ⟨hkeys entry hentry, hvalues entry hentry⟩) isspace_of_mem_line
      (by rwa [List.map_nil, List.append_nil])
    have htext : entriesText (level + 1) true ((k, v) :: entries) ++
        closing level ((k, v) :: entries).isEmpty ++ [125] ++ rest =
        10 :: indentation (level + 1) ++ (stringText (level + 1) k ++ 58 :: ([32] ++
          (jsonText (level + 1) v ++
            (entriesText (level + 1) false entries ++
              (10 :: indentation level ++ 125 :: rest))))) := by
      rw [entriesText, opening, if_pos rfl]
      simp only [closing, List.isEmpty_cons, Bool.false_eq_true, if_false, List.append_assoc,
        List.cons_append, List.nil_append]
    rw [List.cons_append, htext] at hskip
    refine ⟨enough, fun turns hturns ↦ ⟨⟨rest, false⟩, ?_, rfl⟩⟩
    rw [jsonParse_object hskip, henough turns hturns, entriesRead]

/-- Every value without quotes in its strings is read back from its text. -/
theorem reads (sizes : Sizes) (v : Json) : Reads sizes v := by
  induction v using jsonInduction with
  | null =>
    apply reads_of_parse
    intro level rest scan _ _ hskip
    rw [jsonText] at hskip
    exact ⟨0, fun turns _ ↦ ⟨_, by rw [jsonParse_null hskip, jsonRead], rfl⟩⟩
  | true =>
    apply reads_of_parse
    intro level rest scan _ _ hskip
    rw [jsonText] at hskip
    exact ⟨0, fun turns _ ↦ ⟨_, by rw [jsonParse_true hskip, jsonRead], rfl⟩⟩
  | false =>
    apply reads_of_parse
    intro level rest scan _ _ hskip
    rw [jsonText] at hskip
    exact ⟨0, fun turns _ ↦ ⟨_, by rw [jsonParse_false hskip, jsonRead], rfl⟩⟩
  | array els ih => exact reads_array ih
  | object entries ih => exact reads_object ih
  | string text => exact reads_string text
  | number n => exact reads_number n
  | error =>
    intro level spaces rest hmeets
    exact (meets_error.1 hmeets).elim

end Brutal.JsonFormat
