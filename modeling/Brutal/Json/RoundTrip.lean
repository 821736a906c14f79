import Brutal.Json.ReadBack
import Mathlib.Algebra.Order.BigOperators.Group.List

/-!
# Round trips

A value comes back from its text exactly when nothing in its strings is changed on the way: no
quote, which is written without the backslash in front of it, no byte that is written as two, and
no line end behind which the output puts the indentation of a deeper level; and when the vectors
that it is read into have room.
-/

namespace Brutal.JsonFormat

open Base Ds Ds.Growth Lib Text

variable {level : ℕ} {byte : UInt8} {text : List UInt8} {entries : List (List UInt8 × Json)}
  {els : List Json}

/-- The numbers are those of a `long`, the maps are as they are kept, and no part is an error. -/
def valid : Condition := { number := IsLong, entries := fun _ ↦ MapValid, error := False }

/-- A byte of a string that is written as it is. -/
def PlainByte (level : ℕ) (byte : UInt8) : Prop := byte < 128 ∧ (byte = 10 → level = 0)

instance (level : ℕ) (byte : UInt8) : Decidable (PlainByte level byte) :=
  inferInstanceAs (Decidable (_ ∧ _))

/-- The strings have plain bytes and no quotes, every number has a negation, and the vectors take
the elements of every array and the keys of every object. -/
def plain : Condition where
  text level text := ∀ byte ∈ text, byte ≠ 34 ∧ PlainByte level byte
  number n := n ≠ -2 ^ 63
  elements count := count ≤ vecRoom jsonBytes
  entries _ entries := KeysFit .int (entries.map (·.1))

mutual

/-- The number of bytes in the text of a plain value. -/
def jsonSize (level : ℕ) : Json → ℕ
  | .null => 4
  | .true => 4
  | .false => 5
  | .array els => 2 + elementsSize (level + 1) true els + if els.isEmpty then 0 else 1 + 4 * level
  | .object entries =>
    2 + entriesSize (level + 1) true entries + if entries.isEmpty then 0 else 1 + 4 * level
  | .string text => text.length + 2
  | .number n => (if n < 0 then 1 else 0) + max 1 (Nat.digits 10 n.natAbs).length
  | .error => 0

/-- The number of bytes for the elements of an array, each on a line of its own. -/
def elementsSize (level : ℕ) : Bool → List Json → ℕ
  | _, [] => 0
  | first, el :: rest =>
    (if first then 0 else 1) + (1 + 4 * level) + jsonSize level el + elementsSize level false rest

/-- The number of bytes for the members of an object, each on a line of its own. -/
def entriesSize (level : ℕ) : Bool → List (List UInt8 × Json) → ℕ
  | _, [] => 0
  | first, (k, v) :: rest =>
    (if first then 0 else 1) + (1 + 4 * level) + (k.length + 4) + jsonSize level v +
      entriesSize level false rest

end

/-- Both of two conditions. -/
def Condition.both (c d : Condition) : Condition where
  text level text := c.text level text ∧ d.text level text
  number n := c.number n ∧ d.number n
  elements count := c.elements count ∧ d.elements count
  entries level entries := c.entries level entries ∧ d.entries level entries
  error := c.error ∧ d.error

theorem meets_both {c d : Condition} {v : Json} (hc : Meets c level v) (hd : Meets d level v) :
    Meets (c.both d) level v := by
  induction v using jsonInduction generalizing level with
  | null => exact Meets.null
  | true => exact Meets.true
  | false => exact Meets.false
  | array els ih =>
    rw [meets_array] at *
    exact ⟨⟨hc.1, hd.1⟩, fun el hel ↦ ih el hel (hc.2 el hel) (hd.2 el hel)⟩
  | object entries ih =>
    rw [meets_object] at *
    exact ⟨⟨hc.1, hd.1⟩, fun entry hentry ↦ ⟨hc.2.1 entry hentry, hd.2.1 entry hentry⟩,
      fun entry hentry ↦ ih entry hentry (hc.2.2 entry hentry) (hd.2.2 entry hentry)⟩
  | string text => exact meets_string.2 ⟨meets_string.1 hc, meets_string.1 hd⟩
  | number n => exact meets_number.2 ⟨meets_number.1 hc, meets_number.1 hd⟩
  | error => exact meets_error.2 ⟨meets_error.1 hc, meets_error.1 hd⟩

/-- A condition that implies another in every part. -/
structure Implies (c d : Condition) : Prop where
  text : ∀ level text, c.text level text → d.text level text
  number : ∀ n, c.number n → d.number n
  elements : ∀ count, c.elements count → d.elements count
  entries : ∀ level entries, c.entries level entries → d.entries level entries
  error : c.error → d.error

theorem Implies.meets {c d : Condition} (h : Implies c d) {v : Json} (hc : Meets c level v) :
    Meets d level v := by
  induction hc with
  | null => exact Meets.null
  | true => exact Meets.true
  | false => exact Meets.false
  | array hcount _ ih => exact Meets.array (h.elements _ hcount) ih
  | object hentries hkeys _ ih =>
    exact Meets.object (h.entries _ _ hentries) (fun entry hentry ↦ h.text _ _ (hkeys entry hentry))
      ih
  | string htext => exact Meets.string (h.text _ _ htext)
  | number hn => exact Meets.number (h.number _ hn)
  | error herror => exact Meets.error (h.error herror)

theorem utf8FromRune_of_lt (h : byte < 128) : utf8FromRune byte.toNat = [byte] := by
  have hsmall : byte.toNat ≤ 0x7f := Nat.le_of_lt_succ (UInt8.lt_iff_toNat_lt.1 h)
  rw [utf8FromRune, if_pos hsmall, UInt8.ofNat_toNat]

theorem length_utf8FromRune_of_le : ∀ n < 256, 128 ≤ n → (utf8FromRune n).length = 2 := by
  decide +kernel

theorem byteText_of_plain (h : PlainByte level byte) : byteText level byte = [byte] := by
  rw [byteText, utf8FromRune_of_lt h.1]
  by_cases hten : byte = 10
  · rw [if_pos hten, h.2 hten]
    rfl
  · rw [if_neg hten, List.append_nil]

/-- A byte that is not plain is written as more than one. -/
theorem length_byteText_of_not_plain (h : ¬ PlainByte level byte) :
    1 < (byteText level byte).length := by
  rw [byteText, List.length_append]
  by_cases hsmall : byte < 128
  · have hline : byte = 10 ∧ level ≠ 0 := by
      rw [PlainByte, not_and] at h
      exact Classical.not_imp.1 (h hsmall)
    rw [utf8FromRune_of_lt hsmall, if_pos hline.1, indentation, List.length_replicate,
      List.length_singleton]
    omega
  · have hlarge : 128 ≤ byte.toNat :=
      Nat.le_of_not_lt fun hlt ↦ hsmall (UInt8.lt_iff_toNat_lt.2 hlt)
    rw [length_utf8FromRune_of_le byte.toNat byte.toNat_lt hlarge]
    omega

theorem content_cons (level : ℕ) (byte : UInt8) (text : List UInt8) :
    content level (byte :: text) = byteText level byte ++ content level text := rfl

theorem content_of_plain (h : ∀ byte ∈ text, PlainByte level byte) : content level text = text := by
  induction text with
  | nil => rfl
  | cons byte text ih =>
    rw [List.forall_mem_cons] at h
    rw [content_cons, byteText_of_plain h.1, ih h.2, List.singleton_append]

theorem length_content_le (level : ℕ) (text : List UInt8) :
    text.length ≤ (content level text).length := by
  induction text with
  | nil => exact le_refl _
  | cons byte text ih =>
    have hbyte : 1 ≤ (byteText level byte).length := by
      by_cases hplain : PlainByte level byte
      · rw [byteText_of_plain hplain, List.length_singleton]
      · exact (length_byteText_of_not_plain hplain).le
    rw [content_cons, List.length_append, List.length_cons]
    omega

/-- If a text is written with its own length, nothing in it is changed. -/
theorem plain_of_length_content (h : (content level text).length = text.length) :
    ∀ byte ∈ text, PlainByte level byte := by
  induction text with
  | nil => exact List.forall_mem_nil _
  | cons byte text ih =>
    have hle := length_content_le level text
    rw [content_cons, List.length_append, List.length_cons] at h
    have hplain : PlainByte level byte := by
      by_contra hnot
      have hlt := length_byteText_of_not_plain hnot
      omega
    rw [byteText_of_plain hplain, List.length_singleton] at h
    exact List.forall_mem_cons.2 ⟨hplain, ih (by omega)⟩

theorem content_eq_iff : content level text = text ↔ ∀ byte ∈ text, PlainByte level byte := by
  constructor
  · intro h
    exact plain_of_length_content (congrArg List.length h)
  · exact content_of_plain

/-- The condition of the values that come back from their text if they are read at all. -/
def unchanged : Condition := { text := fun level text ↦ ∀ byte ∈ text, PlainByte level byte }

theorem map_eq_self_iff {α : Type} {f : α → α} {items : List α} :
    items.map f = items ↔ ∀ item ∈ items, f item = item := by
  conv_lhs => rhs; rw [← List.map_id items]
  exact List.map_inj_left

/-- Members that make up the same map have the same keys, as no key gets shorter. -/
theorem content_of_mapPutAll_eq {values : Json → Json} (hvalid : MapValid entries)
    (h : mapPutAll [] (entries.map fun entry ↦ (content level entry.1, values entry.2)) = entries) :
    ∀ entry ∈ entries, content level entry.1 = entry.1 ∧ values entry.2 = entry.2 := by
  have hlength : (mapPutAll [] (entries.map fun entry ↦
      (content level entry.1, values entry.2))).length =
      ([] : List (List UInt8 × Json)).length +
        (entries.map fun entry ↦ (content level entry.1, values entry.2)).length := by
    rw [h, List.length_map, List.length_nil, Nat.zero_add]
  have hempty : (([] : List (List UInt8 × Json)).map (·.1)).Nodup := List.nodup_nil
  have hperm := mapPutAll_perm (nodup_of_length_mapPutAll hempty hlength)
  rw [h, List.nil_append] at hperm
  have hsum : (entries.map fun entry ↦ entry.1.length).sum =
      (entries.map fun entry ↦ (content level entry.1).length).sum := by
    have hsums := (hperm.map fun entry ↦ entry.1.length).sum_eq
    rwa [List.map_map] at hsums
  have hkeys : ∀ entry ∈ entries, content level entry.1 = entry.1 := by
    intro entry hentry
    apply content_of_plain (plain_of_length_content ?_)
    by_contra hne
    have hlt := lt_of_le_of_ne (length_content_le level entry.1) (Ne.symm hne)
    have hsumLt := List.sum_lt_sum (fun entry : List UInt8 × Json ↦ entry.1.length)
      (fun entry ↦ (content level entry.1).length)
      (fun entry _ ↦ length_content_le level entry.1) ⟨entry, hentry, hlt⟩
    omega
  intro entry hentry
  refine ⟨hkeys entry hentry, ?_⟩
  have hmem : (content level entry.1, values entry.2) ∈ entries :=
    hperm.mem_iff.2 (List.mem_map.2 ⟨entry, hentry, rfl⟩)
  rw [hkeys entry hentry] at hmem
  have hsame := List.inj_on_of_nodup_map hvalid.nodup hmem hentry rfl
  exact congrArg (·.2) hsame

theorem jsonRead_eq_iff {v : Json} (hvalid : Meets valid level v) :
    jsonRead level v = v ↔ Meets unchanged level v := by
  induction v using jsonInduction generalizing level with
  | null => exact ⟨fun _ ↦ Meets.null, fun _ ↦ by rw [jsonRead]⟩
  | true => exact ⟨fun _ ↦ Meets.true, fun _ ↦ by rw [jsonRead]⟩
  | false => exact ⟨fun _ ↦ Meets.false, fun _ ↦ by rw [jsonRead]⟩
  | array els ih =>
    have hels := (meets_array.1 hvalid).2
    rw [jsonRead, Json.array.injEq, elementsRead_eq_map, map_eq_self_iff, meets_array,
      and_iff_right (show unchanged.elements els.length from trivial)]
    exact forall₂_congr fun el hel ↦ ih el hel (hels el hel)
  | object entries ih =>
    obtain ⟨hmap, _, hvalues⟩ := meets_object.1 hvalid
    rw [jsonRead, Json.object.injEq, entriesRead_eq_map, meets_object]
    constructor
    · intro h
      have hsame := content_of_mapPutAll_eq hmap h
      refine ⟨trivial, ?_, ?_⟩
      · intro entry hentry
        exact content_eq_iff.1 (hsame entry hentry).1
      · intro entry hentry
        exact (ih entry hentry (hvalues entry hentry)).1 (hsame entry hentry).2
    · rintro ⟨_, hkeys, hmeets⟩
      have hsame : (entries.map fun entry ↦
          (content (level + 1) entry.1, jsonRead (level + 1) entry.2)) = entries := by
        apply map_eq_self_iff.2
        intro entry hentry
        rw [content_eq_iff.2 (hkeys entry hentry),
          (ih entry hentry (hvalues entry hentry)).2 (hmeets entry hentry)]
      rw [hsame]
      exact @MapValid.mapPutAll_eq _ [] entries hmap
  | string text => rw [jsonRead, Json.string.injEq, content_eq_iff, meets_string]; rfl
  | number n => exact ⟨fun _ ↦ Meets.number trivial, fun _ ↦ by rw [jsonRead]⟩
  | error => exact (meets_error.1 hvalid).elim

/-! ## What is parsed -/

/-- The condition of the values that have no quote in any string or key, and that vectors take. -/
def parsed : Condition where
  text _ text := 34 ∉ text
  elements count := count ≤ vecRoom jsonBytes
  entries _ entries := KeysFit .int (entries.map (·.1))

theorem quote_notMem_scanEatMatch (scan : Scan) :
    34 ∉ (scanEatMatch scan isClosingString).1 := by
  intro hmem
  rw [scanEatMatch] at hmem
  split at hmem
  · cases hmem
  · have hclosing := List.mem_takeWhile_imp hmem
    cases hclosing

theorem quote_notMem_parseStr (scan : Scan) : 34 ∉ (parseStr scan).1 :=
  quote_notMem_scanEatMatch _

/-- A member that is put keeps the keys and the values of a map that was parsed. -/
theorem mapPut_parsed {k : List UInt8} {v : Json} (hentries : Meets parsed level (.object entries))
    (hk : 34 ∉ k) (htakes : TakesKey .int (entries.map (·.1)) k) (hv : Meets parsed (level + 1) v) :
    Meets parsed level (.object (mapPut entries k v)) := by
  obtain ⟨hfits, hkeys, hvalues⟩ := meets_object.1 hentries
  refine meets_object.2 ⟨?_, ?_, ?_⟩
  · exact (KeysFit.cons hfits htakes).mono fun key hkey ↦ List.mem_cons.2 (mem_keys_mapPut.1 hkey)
  · intro entry hentry
    cases mem_mapPut hentry with
    | inl heq =>
      rw [heq]
      exact hk
    | inr hentry => exact hkeys entry hentry
  · intro entry hentry
    cases mem_mapPut hentry with
    | inl heq =>
      rw [heq]
      exact hv
    | inr hentry => exact hvalues entry hentry

/-- The elements that were read, with one more. -/
theorem append_parsed {v : Json} (hels : Meets parsed level (.array els))
    (hv : Meets parsed (level + 1) v) (hroom : (els ++ [v]).length ≤ vecRoom jsonBytes) :
    Meets parsed level (.array (els ++ [v])) := by
  refine meets_array.2 ⟨hroom, fun el hel ↦ ?_⟩
  rw [List.mem_append, List.mem_singleton] at hel
  cases hel with
  | inl hel => exact (meets_array.1 hels).2 el hel
  | inr heq =>
    rw [heq]
    exact hv

/-- With some number of turns, no value is parsed with a quote in a string or a key, or with more
than the vectors take. -/
structure ParsesFit (turns : ℕ) : Prop where
  value : ∀ scan v next, jsonParse .int turns scan = .ok (v, next) → ∀ level, Meets parsed level v
  array : ∀ els scan v next, (∀ level, Meets parsed level (.array els)) →
    jsonParseArray .int turns els scan = .ok (v, next) → ∀ level, Meets parsed level v
  object : ∀ entries scan v next, (∀ level, Meets parsed level (.object entries)) →
    jsonParseObject .int turns entries scan = .ok (v, next) → ∀ level, Meets parsed level v

section Turn

variable {turns : ℕ} {scan next : Scan} {v : Json}

theorem ParsesFit.value_succ (h : ParsesFit turns)
    (hparse : jsonParse .int (turns + 1) scan = .ok (v, next)) (level : ℕ) :
    Meets parsed level v := by
  rw [jsonParse] at hparse
  dsimp only at hparse
  split at hparse
  · cases hparse
    exact Meets.string (quote_notMem_parseStr _)
  split at hparse
  · obtain ⟨⟨value, number⟩, _, hvalue⟩ := bind_eq_ok.1 hparse
    cases hvalue
    exact Meets.number trivial
  split at hparse
  · cases hparse
    exact Meets.true
  split at hparse
  · cases hparse
    exact Meets.false
  split at hparse
  · cases hparse
    exact Meets.null
  split at hparse
  · have hempty : ∀ level, Meets parsed level (.object []) := fun _ ↦
      meets_object.2 ⟨keysFit_nil .int, List.forall_mem_nil _, List.forall_mem_nil _⟩
    exact h.object [] _ v next hempty hparse level
  split at hparse
  · have hempty : ∀ level, Meets parsed level (.array []) := fun _ ↦
      meets_array.2 ⟨Nat.zero_le _, List.forall_mem_nil _⟩
    exact h.array [] _ v next hempty hparse level
  · cases hparse
    exact Meets.error trivial

theorem ParsesFit.array_succ (h : ParsesFit turns) (hels : ∀ level, Meets parsed level (.array els))
    (hparse : jsonParseArray .int (turns + 1) els scan = .ok (v, next)) (level : ℕ) :
    Meets parsed level v := by
  rw [jsonParseArray] at hparse
  split at hparse
  · obtain ⟨⟨res, scan'⟩, hres, hnext⟩ := bind_eq_ok.1 hparse
    obtain ⟨els', hpush, hnext⟩ := bind_eq_ok.1 hnext
    obtain ⟨rfl, hroom⟩ := jsonPush_eq_ok hpush
    have hmore : ∀ level, Meets parsed level (.array (els ++ [res])) := fun level ↦
      append_parsed (hels level) (h.value _ _ _ hres (level + 1)) hroom
    split at hnext
    · cases hnext
      exact hmore level
    · exact h.array _ _ v next hmore hnext level
  · cases hparse
    exact hels level

theorem ParsesFit.object_succ (h : ParsesFit turns)
    (hentries : ∀ level, Meets parsed level (.object entries))
    (hparse : jsonParseObject .int (turns + 1) entries scan = .ok (v, next)) (level : ℕ) :
    Meets parsed level v := by
  rw [jsonParseObject] at hparse
  split at hparse
  · dsimp only at hparse
    obtain ⟨⟨value, scan'⟩, hvalue, hnext⟩ := bind_eq_ok.1 hparse
    obtain ⟨entries', hput, hnext⟩ := bind_eq_ok.1 hnext
    obtain ⟨rfl, htakes⟩ := jsonPut_eq_ok hput
    have hmore : ∀ level, Meets parsed level
        (.object (mapPut entries (parseStr scan).1 value)) := fun level ↦
      mapPut_parsed (hentries level) (quote_notMem_parseStr scan) htakes
        (h.value _ _ _ hvalue (level + 1))
    split at hnext
    · cases hnext
      exact hmore level
    · exact h.object _ _ v next hmore hnext level
  · cases hparse
    exact hentries level

end Turn

/-- No value that is parsed has a quote in a string or a key, or more than the vectors take. -/
theorem parsesFit (turns : ℕ) : ParsesFit turns := by
  induction turns with
  | zero =>
    refine ⟨?_, ?_, ?_⟩
    · intro scan v next hparse
      rw [jsonParse] at hparse
      cases hparse
    · intro els scan v next _ hparse
      rw [jsonParseArray] at hparse
      cases hparse
    · intro entries scan v next _ hparse
      rw [jsonParseObject] at hparse
      cases hparse
  | succ turns ih =>
    exact ⟨fun _ _ _ ↦ ih.value_succ, fun _ _ _ _ ↦ ih.array_succ, fun _ _ _ _ ↦ ih.object_succ⟩

theorem length_indentation (level : ℕ) : (indentation level).length = 4 * level :=
  List.length_replicate

theorem length_opening (level : ℕ) (first : Bool) :
    (opening level first).length = (if first then 0 else 1) + (1 + 4 * level) := by
  rw [opening, List.length_append, List.length_cons, length_indentation]
  cases first <;> simp <;> omega

theorem length_closing (level : ℕ) (isEmpty : Bool) :
    (closing level isEmpty).length = if isEmpty then 0 else 1 + 4 * level := by
  rw [closing]
  cases isEmpty <;> simp [length_indentation]
  omega

theorem length_stringText (h : ∀ byte ∈ text, PlainByte level byte) :
    (stringText level text).length = text.length + 2 := by
  rw [stringText, content_of_plain h, List.length_cons, List.length_append, List.length_singleton]

/-- The size of a value that comes back is that of its text. -/
def Sized (v : Json) : Prop :=
  ∀ level, Meets unchanged level v → (jsonText level v).length = jsonSize level v

theorem length_elementsText (hsized : ∀ el ∈ els, Sized el)
    (h : ∀ el ∈ els, Meets unchanged level el) (first : Bool) :
    (elementsText level first els).length = elementsSize level first els := by
  induction els generalizing first with
  | nil => rw [elementsText, elementsSize, List.length_nil]
  | cons el els ih =>
    rw [List.forall_mem_cons] at h hsized
    rw [elementsText, elementsSize, List.length_append, List.length_append, length_opening,
      hsized.1 level h.1, ih hsized.2 h.2]

theorem length_entriesText (hsized : ∀ entry ∈ entries, Sized entry.2)
    (hkeys : ∀ entry ∈ entries, ∀ byte ∈ entry.1, PlainByte level byte)
    (hvalues : ∀ entry ∈ entries, Meets unchanged level entry.2) (first : Bool) :
    (entriesText level first entries).length = entriesSize level first entries := by
  induction entries generalizing first with
  | nil => rw [entriesText, entriesSize, List.length_nil]
  | cons entry entries ih =>
    rw [List.forall_mem_cons] at hsized hkeys hvalues
    rw [entriesText, entriesSize, List.length_append, List.length_append, List.length_append,
      List.length_append, length_opening, length_stringText hkeys.1,
      hsized.1 level hvalues.1, ih hsized.2 hkeys.2 hvalues.2]
    rfl

theorem sized (v : Json) : Sized v := by
  induction v using jsonInduction with
  | null => exact fun _ _ ↦ by rw [jsonText, jsonSize]; rfl
  | true => exact fun _ _ ↦ by rw [jsonText, jsonSize]; rfl
  | false => exact fun _ _ ↦ by rw [jsonText, jsonSize]; rfl
  | array els ih =>
    intro level h
    rw [jsonText, jsonSize, List.length_cons, List.length_append, List.length_append,
      length_elementsText ih (meets_array.1 h).2, length_closing, List.length_singleton]
    omega
  | object entries ih =>
    intro level h
    obtain ⟨_, hkeys, hvalues⟩ := meets_object.1 h
    rw [jsonText, jsonSize, List.length_cons, List.length_append, List.length_append,
      length_entriesText ih hkeys hvalues, length_closing, List.length_singleton]
    omega
  | string text =>
    intro level h
    rw [jsonText, jsonSize]
    exact length_stringText (meets_string.1 h)
  | number n =>
    intro level _
    rw [jsonText, jsonSize, numberText, List.length_append, length_decimal]
    by_cases hneg : n < 0
    · rw [if_pos hneg, if_pos hneg, List.length_singleton]
    · rw [if_neg hneg, if_neg hneg, List.length_nil]
  | error => exact fun _ _ ↦ by rw [jsonText, jsonSize, List.length_nil]

/-- What is written for a value, from the start of the output, is read as that value. -/
def RoundTrips (v : Json) : Prop :=
  ∃ emit, jsonEmit v emitInit = .ok emit ∧
    ∃ enough, ∀ turns, enough ≤ turns → jsonParseStr turns emit.out = .ok v

/-- The text of a value is written from the start of the output. -/
theorem jsonEmit_emitInit {v : Json} {emit : Emit} :
    jsonEmit v emitInit = .ok emit ↔
      Meets emittable 0 v ∧ emit = emitAt 0 false (jsonText 0 v) := by
  have hdue : due 0 true = [] := rfl
  have hinit := emits v 0 true [] emit
  rwa [hdue, List.append_nil, List.nil_append] at hinit

/-- A value is read back from its text. -/
theorem jsonParse_jsonText {sizes : Sizes} {v : Json} (hv : Meets (readable sizes) 0 v) :
    ∃ enough, ∀ turns, enough ≤ turns → ∃ scan,
      jsonParse sizes turns ⟨jsonText 0 v, false⟩ = .ok (jsonRead 0 v, scan) := by
  obtain ⟨enough, henough⟩ := reads sizes v 0 [] [] hv (List.forall_mem_nil _) behind_nil
  refine ⟨enough, fun turns hturns ↦ ?_⟩
  obtain ⟨scan, hparse, _⟩ := henough turns hturns
  rw [List.nil_append, List.append_nil] at hparse
  exact ⟨scan, hparse⟩

/-- A value without quotes whose numbers have negations can be read back where nothing overflows. -/
theorem meets_readable_any {v : Json} (hvalid : Meets valid 0 v) (hemittable : Meets emittable 0 v)
    (hparsed : Meets parsed 0 v) : Meets (readable .any) 0 v := by
  have himplies : Implies ((valid.both emittable).both parsed) (readable .any) :=
    ⟨fun _ _ h ↦ h.2, fun _ h ↦ ⟨h.1.1, h.1.2.1⟩, fun _ _ ↦ trivial, fun _ _ _ ↦ keysFit_any _,
      fun h ↦ h.1.1⟩
  exact himplies.meets (meets_both (meets_both hvalid hemittable) hparsed)

/-- The keys of a plain value are read as they are. -/
theorem meets_readable_int {v : Json} (hplain : Meets plain level v)
    (hvalid : Meets valid level v) : Meets (readable .int) level v := by
  induction v using jsonInduction generalizing level with
  | null => exact Meets.null
  | true => exact Meets.true
  | false => exact Meets.false
  | array els ih =>
    obtain ⟨hcount, hels⟩ := meets_array.1 hplain
    exact Meets.array hcount fun el hel ↦ ih el hel (hels el hel) ((meets_array.1 hvalid).2 el hel)
  | object entries ih =>
    obtain ⟨hfits, hkeys, hvalues⟩ := meets_object.1 hplain
    refine Meets.object ?_ (fun entry hentry hmem ↦ (hkeys entry hentry 34 hmem).1 rfl)
      fun entry hentry ↦ ih entry hentry (hvalues entry hentry)
        ((meets_object.1 hvalid).2.2 entry hentry)
    have hsame : entries.map (fun entry ↦ content (level + 1) entry.1) = entries.map (·.1) :=
      List.map_congr_left fun entry hentry ↦
        content_of_plain fun byte hbyte ↦ (hkeys entry hentry byte hbyte).2
    show KeysFit .int (entries.map fun entry ↦ content (level + 1) entry.1)
    rw [hsame]
    exact hfits
  | string text => exact Meets.string fun hmem ↦ (meets_string.1 hplain 34 hmem).1 rfl
  | number n => exact Meets.number ⟨meets_number.1 hvalid, meets_number.1 hplain⟩
  | error => exact (meets_error.1 hvalid).elim

/-- A value comes back from its text exactly when every string and every key in it has only plain
bytes and no quotes, every number has a negation, the vectors take all of its arrays and objects and
the text fits into an `int`. -/
theorem json_roundTrips_iff {v : Json} (hvalid : Meets valid 0 v) :
    RoundTrips v ↔ Meets plain 0 v ∧ jsonSize 0 v < 2 ^ 31 := by
  constructor
  · rintro ⟨emit, hemit, enough, henough⟩
    obtain ⟨hemittable, rfl⟩ := jsonEmit_emitInit.1 hemit
    obtain ⟨hlength, scan, hparse⟩ := jsonParseStr_eq_ok.1 (henough enough (le_refl _))
    have hparsed := (parsesFit enough).value _ _ _ hparse 0
    obtain ⟨enough', hread⟩ :=
      jsonParse_jsonText (meets_readable_any hvalid hemittable hparsed)
    have hsame : jsonRead 0 v = v := by
      obtain ⟨_, scan', hmax⟩ :=
        jsonParseStr_eq_ok.1 (henough (max enough enough') (le_max_left _ _))
      obtain ⟨scan'', hread⟩ := hread (max enough enough') (le_max_right _ _)
      exact congrArg Prod.fst (Except.ok.inj (hread.symm.trans (jsonParse_any hmax)))
    have hunchanged := (jsonRead_eq_iff hvalid).1 hsame
    have himplies : Implies ((unchanged.both emittable).both parsed) plain :=
      ⟨fun _ _ h byte hbyte ↦ ⟨fun heq ↦ h.2 (heq ▸ hbyte), h.1.1 byte hbyte⟩, fun _ h ↦ h.1.2.1,
        fun _ h ↦ h.2, fun _ _ h ↦ h.2, fun _ ↦ trivial⟩
    refine ⟨himplies.meets (meets_both (meets_both hunchanged hemittable) hparsed), ?_⟩
    rwa [← sized v 0 hunchanged]
  · rintro ⟨hplain, hsize⟩
    have hunchanged : Implies plain unchanged :=
      ⟨fun _ _ h byte hbyte ↦ (h byte hbyte).2, fun _ _ ↦ trivial, fun _ _ ↦ trivial,
        fun _ _ _ ↦ trivial, fun h ↦ h⟩
    have hemits : Implies (plain.both valid) emittable :=
      ⟨fun _ _ _ ↦ trivial, fun _ h ↦ ⟨h.1, length_numberText_le h.2⟩, fun _ _ ↦ trivial,
        fun _ _ _ ↦ trivial, fun h ↦ h.2⟩
    have hemittable := hemits.meets (meets_both hplain hvalid)
    rw [← sized v 0 (hunchanged.meets hplain)] at hsize
    obtain ⟨enough, hread⟩ := jsonParse_jsonText (meets_readable_int hplain hvalid)
    rw [(jsonRead_eq_iff hvalid).2 (hunchanged.meets hplain)] at hread
    exact ⟨_, jsonEmit_emitInit.2 ⟨hemittable, rfl⟩, enough, fun turns hturns ↦
      jsonParseStr_eq_ok.2 ⟨hsize, hread turns hturns⟩⟩

/-- An object with an array of a number and a string. -/
def nested : Json := .object [(ascii ['a'], .array [.number (-5), .string (ascii ['x'])])]

theorem nested_valid : Meets valid 0 nested := by
  refine meets_object.2 ⟨⟨List.pairwise_singleton _ _, List.nodup_singleton _⟩, ?_, ?_⟩
  · exact fun _ _ ↦ trivial
  · intro entry hentry
    rw [List.mem_singleton.1 hentry]
    refine meets_array.2 ⟨trivial, List.forall_mem_cons.2 ⟨meets_number.2 ?_, ?_⟩⟩
    · show IsLong (-5)
      decide
    · exact List.forall_mem_cons.2 ⟨Meets.string trivial, List.forall_mem_nil _⟩

theorem nested_plain : Meets plain 0 nested := by
  refine meets_object.2 ⟨⟨?_, fun b ↦ ?_⟩, ?_, ?_⟩
  · intro key hkey
    rw [List.mem_singleton.1 hkey]
    decide
  · refine @Nat.le_trans _ 1 _ ?_ (by decide)
    exact (List.toFinset_card_le _).trans (List.length_filter_le _ _)
  · intro entry hentry
    rw [List.mem_singleton.1 hentry]
    have hplain : ∀ byte ∈ ascii ['a'], byte ≠ 34 ∧ PlainByte 1 byte :=
      List.forall_mem_cons.2 ⟨by decide, List.forall_mem_nil _⟩
    exact hplain
  · intro entry hentry
    rw [List.mem_singleton.1 hentry]
    refine meets_array.2 ⟨show 2 ≤ vecRoom jsonBytes by decide,
      List.forall_mem_cons.2 ⟨meets_number.2 ?_, ?_⟩⟩
    · show (-5 : ℤ) ≠ -2 ^ 63
      decide
    · refine List.forall_mem_cons.2 ⟨meets_string.2 ?_, List.forall_mem_nil _⟩
      have hplain : ∀ byte ∈ ascii ['x'], byte ≠ 34 ∧ PlainByte 2 byte :=
        List.forall_mem_cons.2 ⟨by decide, List.forall_mem_nil _⟩
      exact hplain

theorem json_roundTrips_nested : Meets valid 0 nested ∧ RoundTrips nested := by
  have hsize : jsonSize 0 nested < 2 ^ 31 := by
    decide +kernel
  exact ⟨nested_valid, (json_roundTrips_iff nested_valid).2 ⟨nested_plain, hsize⟩⟩

/-- The string of one quote is written as three quotes and read as the empty string. -/
theorem json_roundTrips_fails : ¬ ∀ v, Meets valid 0 v → RoundTrips v := by
  intro h
  obtain ⟨emit, hemit, enough, henough⟩ := h (.string [34]) (Meets.string trivial)
  have hwritten : jsonEmit (.string [34]) emitInit = .ok (emitAt 0 false [34, 34, 34]) := by
    rw [jsonEmit]
    rfl
  have hread : jsonParseStr (enough + 1) [34, 34, 34] = .ok (.string []) := by
    rw [jsonParseStr]
    rfl
  rw [hwritten] at hemit
  cases hemit
  have hsame := hread.symm.trans (henough (enough + 1) (Nat.le_succ _))
  cases hsame

end Brutal.JsonFormat
