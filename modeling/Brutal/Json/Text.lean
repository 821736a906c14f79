import Brutal.Json.Json
import Brutal.Text.Decimal

/-!
# The text of a value

What is written for a value when the output is some levels deep: every element and every member
stands on a line of its own, and the indentation is also written into a string or a key that has
line ends.
-/

namespace Brutal.JsonFormat

open Base Ds Ds.Growth Lib Text

/-- A property of values that a value has when its parts have it. -/
@[elab_as_elim]
theorem jsonInduction {motive : Json → Prop} (null : motive .null) (true : motive .true)
    (false : motive .false) (array : ∀ els, (∀ el ∈ els, motive el) → motive (.array els))
    (object : ∀ entries, (∀ entry ∈ entries, motive entry.2) → motive (.object entries))
    (string : ∀ text, motive (.string text)) (number : ∀ n, motive (.number n))
    (error : motive .error) (v : Json) : motive v :=
  @Json.rec motive (fun els ↦ ∀ el ∈ els, motive el)
    (fun entries ↦ ∀ entry ∈ entries, motive entry.2) (fun entry ↦ motive entry.2) null true
    false array object string number error
    (List.forall_mem_nil _) (fun _ _ hel hels ↦ List.forall_mem_cons.2 ⟨hel, hels⟩)
    (List.forall_mem_nil _) (fun _ _ hentry hentries ↦ List.forall_mem_cons.2 ⟨hentry, hentries⟩)
    (fun _ _ h ↦ h) v

/-- Conditions on the strings and keys with their level, the numbers, how many elements there are
and the members with the level of their keys, and whether the value that stands for an error meets
them. -/
structure Condition where
  text : ℕ → List UInt8 → Prop := fun _ _ ↦ True
  number : ℤ → Prop := fun _ ↦ True
  elements : ℕ → Prop := fun _ ↦ True
  entries : ℕ → List (List UInt8 × Json) → Prop := fun _ _ ↦ True
  error : Prop := True

/-- A value meets a condition in all of its parts, when it is some levels deep. -/
inductive Meets (c : Condition) : ℕ → Json → Prop where
  | null {level : ℕ} : Meets c level .null
  | true {level : ℕ} : Meets c level .true
  | false {level : ℕ} : Meets c level .false
  | array {level : ℕ} {els : List Json} (hcount : c.elements els.length)
    (hels : ∀ el ∈ els, Meets c (level + 1) el) : Meets c level (.array els)
  | object {level : ℕ} {entries : List (List UInt8 × Json)}
    (hentries : c.entries (level + 1) entries)
    (hkeys : ∀ entry ∈ entries, c.text (level + 1) entry.1)
    (hvalues : ∀ entry ∈ entries, Meets c (level + 1) entry.2) : Meets c level (.object entries)
  | string {level : ℕ} {text : List UInt8} (htext : c.text level text) :
    Meets c level (.string text)
  | number {level : ℕ} {n : ℤ} (hn : c.number n) : Meets c level (.number n)
  | error {level : ℕ} (herror : c.error) : Meets c level .error

section Meets

variable {c : Condition} {level : ℕ}

theorem meets_array {els : List Json} :
    Meets c level (.array els) ↔ c.elements els.length ∧ ∀ el ∈ els, Meets c (level + 1) el := by
  constructor
  · rintro (_ | _ | _ | ⟨hcount, hels⟩)
    exact ⟨hcount, hels⟩
  · rintro ⟨hcount, hels⟩
    exact Meets.array hcount hels

theorem meets_object {entries : List (List UInt8 × Json)} :
    Meets c level (.object entries) ↔ c.entries (level + 1) entries ∧
      (∀ entry ∈ entries, c.text (level + 1) entry.1) ∧
        ∀ entry ∈ entries, Meets c (level + 1) entry.2 := by
  constructor
  · rintro (_ | _ | _ | _ | ⟨hentries, hkeys, hvalues⟩)
    exact ⟨hentries, hkeys, hvalues⟩
  · rintro ⟨hentries, hkeys, hvalues⟩
    exact Meets.object hentries hkeys hvalues

theorem meets_string {text : List UInt8} : Meets c level (.string text) ↔ c.text level text := by
  constructor
  · rintro (_ | _ | _ | _ | _ | htext)
    exact htext
  · exact Meets.string

theorem meets_number {n : ℤ} : Meets c level (.number n) ↔ c.number n := by
  constructor
  · rintro (_ | _ | _ | _ | _ | _ | hn)
    exact hn
  · exact Meets.number

theorem meets_error : Meets c level .error ↔ c.error := by
  constructor
  · rintro (_ | _ | _ | _ | _ | _ | _ | herror)
    exact herror
  · exact Meets.error

end Meets

/-- The spaces in front of a line. -/
def indentation (level : ℕ) : List UInt8 := List.replicate (4 * level) 32

/-- What is written for a byte of a string, with the spaces of the next line behind a line end. -/
def byteText (level : ℕ) (byte : UInt8) : List UInt8 :=
  utf8FromRune byte.toNat ++ if byte = 10 then indentation level else []

/-- What is written between the quotes of a string. -/
def content (level : ℕ) (text : List UInt8) : List UInt8 := text.flatMap (byteText level)

/-- What is written for a string. -/
def stringText (level : ℕ) (text : List UInt8) : List UInt8 := 34 :: (content level text ++ [34])

/-- What is written in front of an element or a member. -/
def opening (level : ℕ) (first : Bool) : List UInt8 :=
  (if first then [] else [44]) ++ 10 :: indentation level

/-- What is written in front of the bracket that closes. -/
def closing (level : ℕ) (isEmpty : Bool) : List UInt8 :=
  if isEmpty then [] else 10 :: indentation level

mutual

/-- What is written for a value. -/
def jsonText (level : ℕ) : Json → List UInt8
  | .null => ascii ['n', 'u', 'l', 'l']
  | .true => ascii ['t', 'r', 'u', 'e']
  | .false => ascii ['f', 'a', 'l', 's', 'e']
  | .array els => 91 :: (elementsText (level + 1) true els ++ closing level els.isEmpty ++ [93])
  | .object entries =>
    123 :: (entriesText (level + 1) true entries ++ closing level entries.isEmpty ++ [125])
  | .string text => stringText level text
  | .number n => numberText n
  | .error => []

/-- What is written for the elements of an array. -/
def elementsText (level : ℕ) : Bool → List Json → List UInt8
  | _, [] => []
  | first, el :: rest => opening level first ++ jsonText level el ++ elementsText level false rest

/-- What is written for the members of an object. -/
def entriesText (level : ℕ) : Bool → List (List UInt8 × Json) → List UInt8
  | _, [] => []
  | first, (k, v) :: rest =>
    opening level first ++ stringText level k ++ [58, 32] ++ jsonText level v ++
      entriesText level false rest

end

/-- The output when it is some levels deep. -/
def emitAt (level : ℕ) (lineBegin : Bool) (out : List UInt8) : Emit := ⟨level, 4, lineBegin, out⟩

/-- The spaces that are due in front of the next byte. -/
def due (level : ℕ) (lineBegin : Bool) : List UInt8 := if lineBegin then indentation level else []

theorem emitByte_emitAt (level : ℕ) (lineBegin : Bool) (out : List UInt8) (byte : UInt8) :
    emitByte (emitAt level lineBegin out) byte =
      emitAt level (byte = 10) (out ++ due level lineBegin ++ [byte]) := by
  have hsize : ((4 : ℤ) * (level : ℤ)).toNat = 4 * level := by omega
  rw [emitByte, emitAt, hsize]
  rfl

/-- Writing bytes without a line end leaves the output behind them on the same line. -/
theorem emitWrite_emitAt {level : ℕ} {lineBegin : Bool} {out data : List UInt8} (hne : data ≠ [])
    (hdata : 10 ∉ data) : emitWrite (emitAt level lineBegin out) data =
      emitAt level false (out ++ due level lineBegin ++ data) := by
  induction data generalizing lineBegin out with
  | nil => exact absurd rfl hne
  | cons byte rest ih =>
    rw [List.mem_cons, not_or] at hdata
    have hbyte : decide (byte = 10) = false := decide_eq_false fun h ↦ hdata.1 h.symm
    rw [emitWrite, List.foldl_cons, emitByte_emitAt, hbyte]
    by_cases hrest : rest = []
    · rw [hrest]
      rfl
    · have hwrite : emitWrite (emitAt level false (out ++ due level lineBegin ++ [byte])) rest =
          emitAt level false (out ++ due level lineBegin ++ byte :: rest) := by
        have hdue : due level false = [] := rfl
        rw [ih hrest hdata.2, hdue, List.append_nil, List.append_assoc, List.singleton_append]
      exact hwrite

theorem emitWrite_lineEnd (level : ℕ) (lineBegin : Bool) (out : List UInt8) :
    emitWrite (emitAt level lineBegin out) [10] =
      emitAt level true (out ++ due level lineBegin ++ [10]) :=
  emitByte_emitAt level lineBegin out 10

theorem emitFmt_eq {format : List Char} {args : List Any} {data : List UInt8}
    (h : fmtFormat (ascii format) args = .ok data) (emit : Emit) :
    emitFmt emit format args = .ok (emitWrite emit data) := by
  rw [emitFmt, h]
  rfl

theorem emitIdent_emitAt (level : ℕ) (lineBegin : Bool) (out : List UInt8) :
    emitIdent (emitAt level lineBegin out) = emitAt (level + 1) lineBegin out := by
  rw [emitIdent, emitAt, emitAt, Nat.cast_add_one]

theorem emitDeident_emitAt (level : ℕ) (lineBegin : Bool) (out : List UInt8) :
    emitDeident (emitAt (level + 1) lineBegin out) = .ok (emitAt level lineBegin out) := by
  have hlevel : ((level + 1 : ℕ) : ℤ) - 1 = level := by omega
  have hdeep : assertTruth (decide ((0 : ℤ) ≤ ((level + 1 : ℕ) : ℤ))) = .ok () := by
    rw [decide_eq_true (Int.natCast_nonneg _)]
    rfl
  dsimp only [emitDeident, emitAt]
  rw [hdeep, ok_bind, hlevel]
  rfl

/-! ## Writing a value -/

theorem utf8FromRune_ne_nil (rune : ℕ) : utf8FromRune rune ≠ [] := by
  unfold utf8FromRune
  split_ifs <;> exact List.cons_ne_nil _ _

theorem le_toNat_or {low high : ℕ} (hlow : low < 2 ^ 8) (hhigh : high < 2 ^ 8)
    (hle : 128 ≤ high) : 128 ≤ (UInt8.ofNat (low ||| high)).toNat := by
  rw [UInt8.toNat_ofNat', Nat.mod_eq_of_lt (Nat.or_lt_two_pow hlow hhigh)]
  exact hle.trans Nat.right_le_or

theorem mem_utf8FromRune_of_lt :
    ∀ n < 256, ∀ c ∈ utf8FromRune n, c.toNat = n ∨ 128 ≤ c.toNat := by
  intro n hn c hc
  have hsmall (mask : ℕ) (hmask : mask < 2 ^ 8) (m : ℕ) : m &&& mask < 2 ^ 8 :=
    Nat.lt_of_le_of_lt Nat.and_le_right hmask
  by_cases hone : n ≤ 0x7f
  · rw [utf8FromRune, if_pos hone, List.mem_singleton] at hc
    rw [hc, UInt8.toNat_ofNat', Nat.mod_eq_of_lt hn]
    exact Or.inl rfl
  · have htwo : n ≤ 0x7ff := by omega
    rw [utf8FromRune, if_neg hone, if_pos htwo, List.mem_cons, List.mem_singleton] at hc
    rcases hc with hc | hc
    · rw [hc]
      exact Or.inr (le_toNat_or (hsmall 0x1f (by norm_num) _) (by norm_num) (by norm_num))
    · rw [hc]
      exact Or.inr (le_toNat_or (hsmall 0x3f (by norm_num) _) (by norm_num) (by norm_num))

/-- A character is written for itself only. -/
theorem notMem_utf8FromRune {c byte : UInt8} (hc : c.toNat < 128) (h : byte ≠ c) :
    c ∉ utf8FromRune byte.toNat := by
  intro hmem
  cases mem_utf8FromRune_of_lt byte.toNat byte.toNat_lt c hmem with
  | inl heq => exact h (UInt8.toNat_inj.1 heq).symm
  | inr hle => exact absurd hc (Nat.not_lt.2 hle)

/-- A quote is written like any other byte: the backslash in front of it never is. -/
theorem jsonEmitByte_emitAt (level : ℕ) (lineBegin : Bool) (out : List UInt8) (byte : UInt8) :
    jsonEmitByte (emitAt level lineBegin out) byte =
      .ok (emitAt level (byte = 10)
        (out ++ due level lineBegin ++ utf8FromRune byte.toNat)) := by
  have hchar : fmtFormat (ascii ['{', 'c', '}']) [.uint byte.toNat] =
      .ok (utf8FromRune (byte.toNat % 2 ^ 32) ++ []) := rfl
  have hsmall : byte.toNat % 2 ^ 32 = byte.toNat :=
    Nat.mod_eq_of_lt (lt_trans byte.toNat_lt (by decide))
  have hnothing : fmtFormat (ascii ['\\']) [] = .ok [] := rfl
  have hbackslash : ∀ emit : Emit, emitFmt emit ['\\'] [] = .ok emit := emitFmt_eq hnothing
  have hbyte : ∀ emit : Emit,
      jsonEmitByte emit byte = emitFmt emit ['{', 'c', '}'] [.uint byte.toNat] := by
    intro emit
    rw [jsonEmitByte]
    split
    · rw [hbackslash, ok_bind]
    · rfl
  rw [hbyte, emitFmt_eq hchar, List.append_nil, hsmall]
  by_cases hten : byte = 10
  · rw [hten]
    exact congrArg Except.ok (emitWrite_lineEnd level lineBegin out)
  · rw [emitWrite_emitAt (utf8FromRune_ne_nil _) (notMem_utf8FromRune (by decide) hten),
      decide_eq_false hten]

/-- The bytes of a string are written one after the other, with the spaces that are due. -/
theorem foldlM_jsonEmitByte (level : ℕ) (lineBegin : Bool) (out text : List UInt8) :
    ∃ lineBegin' out', text.foldlM jsonEmitByte (emitAt level lineBegin out) =
        .ok (emitAt level lineBegin' out') ∧
      out' ++ due level lineBegin' = out ++ due level lineBegin ++ content level text := by
  induction text generalizing lineBegin out with
  | nil => exact ⟨lineBegin, out, rfl, (List.append_nil _).symm⟩
  | cons byte rest ih =>
    obtain ⟨lineBegin', out', hfold, hout⟩ :=
      ih (byte = 10) (out ++ due level lineBegin ++ utf8FromRune byte.toNat)
    refine ⟨lineBegin', out', ?_, ?_⟩
    · rw [List.foldlM_cons, jsonEmitByte_emitAt, ok_bind, hfold]
    · have hcontent :
        content level (byte :: rest) = byteText level byte ++ content level rest := rfl
      have hdue : due level (decide (byte = 10)) = if byte = 10 then indentation level else [] := by
        rw [due]
        simp only [decide_eq_true_eq]
      rw [hout, hcontent, byteText, hdue]
      simp only [List.append_assoc]

theorem jsonEmitString_emitAt (level : ℕ) (lineBegin : Bool) (out text : List UInt8) :
    jsonEmitString text (emitAt level lineBegin out) =
      .ok (emitAt level false (out ++ due level lineBegin ++ stringText level text)) := by
  have hquote : fmtFormat (ascii ['"']) [] = .ok [34] := rfl
  have hwrite : ∀ lineBegin out, emitWrite (emitAt level lineBegin out) [34] =
      emitAt level false (out ++ due level lineBegin ++ [34]) := fun _ _ ↦
    emitWrite_emitAt (List.cons_ne_nil _ _) (by decide)
  obtain ⟨lineBegin', out', hfold, hout⟩ :=
    foldlM_jsonEmitByte level false (out ++ due level lineBegin ++ [34]) text
  rw [jsonEmitString, emitFmt_eq hquote, ok_bind, hwrite, hfold, ok_bind, emitFmt_eq hquote, hwrite,
    hout, stringText]
  simp [due]

/-- The condition of the values that are written: a number that has no negation is not. -/
def emittable : Condition :=
  { number := fun n ↦ n ≠ -2 ^ 63 ∧ (numberText n).length ≤ fmtBufSize, error := False }

/-- What writing a value does, when the output is some levels deep. -/
def Emits (v : Json) : Prop :=
  ∀ (level : ℕ) (lineBegin : Bool) (out : List UInt8) (emit : Emit),
    jsonEmit v (emitAt level lineBegin out) = .ok emit ↔ Meets emittable level v ∧
      emit = emitAt level false (out ++ due level lineBegin ++ jsonText level v)

/-- A text without a line end is written as it is. -/
theorem emitFmt_word {format : List Char} {args : List Any} {data : List UInt8}
    (h : fmtFormat (ascii format) args = .ok data) (hne : data ≠ []) (hdata : 10 ∉ data)
    (level : ℕ) (lineBegin : Bool) (out : List UInt8) :
    emitFmt (emitAt level lineBegin out) format args =
      .ok (emitAt level false (out ++ due level lineBegin ++ data)) := by
  rw [emitFmt_eq h, emitWrite_emitAt hne hdata]

theorem emitFmt_lineEnd (level : ℕ) (lineBegin : Bool) (out : List UInt8) :
    emitFmt (emitAt level lineBegin out) ['\n'] [] =
      .ok (emitAt level true (out ++ due level lineBegin ++ [10])) := by
  have hline : fmtFormat (ascii ['\n']) [] = .ok [10] := rfl
  rw [emitFmt_eq hline, emitWrite_lineEnd]

theorem due_false (level : ℕ) : due level false = [] := rfl

theorem due_true (level : ℕ) : due level true = indentation level := rfl

/-- The comma and the line end in front of an element or a member. -/
theorem emitOpening (level : ℕ) (first : Bool) (out : List UInt8)
    (next : Emit → Except Fault Emit) :
    (if first = true then pure (emitAt level false out) >>= fun emit ↦
        emitFmt emit ['\n'] [] >>= next
      else emitFmt (emitAt level false out) [','] [] >>= fun emit ↦
        emitFmt emit ['\n'] [] >>= next) =
      next (emitAt level true (out ++ ((if first then [] else [44]) ++ [10]))) := by
  have hcomma : fmtFormat (ascii [',']) [] = .ok [44] := rfl
  cases first with
  | true =>
    rw [if_pos rfl, if_pos rfl, pure_bind, emitFmt_lineEnd, ok_bind, due_false, List.append_nil,
      List.nil_append]
  | false =>
    rw [if_neg Bool.false_ne_true, if_neg Bool.false_ne_true,
      emitFmt_word hcomma (List.cons_ne_nil _ _) (by decide), ok_bind, emitFmt_lineEnd, ok_bind]
    simp only [due_false, List.append_nil, List.append_assoc]

/-- The line end, if anything is on the lines before, and the bracket that closes. -/
theorem emitClosing {bracket : List Char} {byte : UInt8}
    (h : fmtFormat (ascii bracket) [] = .ok [byte]) (hbyte : byte ≠ 10) (level : ℕ)
    (isEmpty : Bool) (out : List UInt8) :
    (if isEmpty = true then pure (emitAt (level + 1) false out) >>= fun emit ↦
        emitDeident emit >>= fun emit ↦ emitFmt emit bracket []
      else emitFmt (emitAt (level + 1) false out) ['\n'] [] >>= fun emit ↦
        emitDeident emit >>= fun emit ↦ emitFmt emit bracket []) =
      .ok (emitAt level false (out ++ closing level isEmpty ++ [byte])) := by
  have hdata : (10 : UInt8) ∉ [byte] := fun hmem ↦ hbyte (List.mem_singleton.1 hmem).symm
  cases isEmpty with
  | true =>
    rw [if_pos rfl, pure_bind, emitDeident_emitAt, ok_bind,
      emitFmt_word h (List.cons_ne_nil _ _) hdata, due_false]
    rfl
  | false =>
    rw [if_neg Bool.false_ne_true, emitFmt_lineEnd, ok_bind, emitDeident_emitAt, ok_bind,
      emitFmt_word h (List.cons_ne_nil _ _) hdata, due_true, due_false]
    simp only [closing, Bool.false_eq_true, if_false, List.append_nil, List.append_assoc,
      List.nil_append, List.cons_append]

/-- The elements of an array are written if each of them is. -/
theorem jsonEmitElements_emitAt {els : List Json} (hels : ∀ el ∈ els, Emits el) (level : ℕ)
    (first : Bool) (out : List UInt8) (emit : Emit) :
    jsonEmitElements first els (emitAt level false out) = .ok emit ↔
      (∀ el ∈ els, Meets emittable level el) ∧
        emit = emitAt level false (out ++ elementsText level first els) := by
  induction els generalizing first out with
  | nil =>
    rw [jsonEmitElements, elementsText, List.append_nil, Except.ok.injEq, eq_comm]
    exact (and_iff_right (List.forall_mem_nil _)).symm
  | cons el rest ih =>
    have hel := hels el List.mem_cons_self
    have hrest := ih fun other hother ↦ hels other (List.mem_cons_of_mem _ hother)
    have hstep : jsonEmitElements first (el :: rest) (emitAt level false out) =
        jsonEmit el (emitAt level true (out ++ ((if first then [] else [44]) ++ [10]))) >>=
          jsonEmitElements false rest := by
      rw [jsonEmitElements]
      exact emitOpening level first out fun emit ↦ jsonEmit el emit >>= jsonEmitElements false rest
    have htext : ∀ tail, out ++ ((if first then [] else [44]) ++ [10]) ++ due level true ++
        jsonText level el ++ tail = out ++ (opening level first ++ jsonText level el ++ tail) := by
      intro tail
      simp only [opening, due_true, List.append_assoc, List.singleton_append]
    rw [hstep, bind_eq_ok, List.forall_mem_cons, elementsText, ← htext]
    constructor
    · rintro ⟨middle, hmiddle, hnext⟩
      obtain ⟨hmeets, rfl⟩ := (hel _ _ _ _).1 hmiddle
      obtain ⟨hmeets', rfl⟩ := (hrest _ _).1 hnext
      exact ⟨⟨hmeets, hmeets'⟩, rfl⟩
    · rintro ⟨⟨hmeets, hmeets'⟩, rfl⟩
      exact ⟨_, (hel _ _ _ _).2 ⟨hmeets, rfl⟩, (hrest _ _).2 ⟨hmeets', rfl⟩⟩

/-- The members of an object are written if their values are. -/
theorem jsonEmitEntries_emitAt {entries : List (List UInt8 × Json)}
    (hentries : ∀ entry ∈ entries, Emits entry.2) (level : ℕ) (first : Bool) (out : List UInt8)
    (emit : Emit) :
    jsonEmitEntries first entries (emitAt level false out) = .ok emit ↔
      (∀ entry ∈ entries, Meets emittable level entry.2) ∧
        emit = emitAt level false (out ++ entriesText level first entries) := by
  induction entries generalizing first out with
  | nil =>
    rw [jsonEmitEntries, entriesText, List.append_nil, Except.ok.injEq, eq_comm]
    exact (and_iff_right (List.forall_mem_nil _)).symm
  | cons entry rest ih =>
    obtain ⟨k, v⟩ := entry
    have hv : Emits v := hentries (k, v) List.mem_cons_self
    have hrest := ih fun other hother ↦ hentries other (List.mem_cons_of_mem _ hother)
    have hcolon : fmtFormat (ascii [':', ' ']) [] = .ok [58, 32] := rfl
    have hstep : jsonEmitEntries first ((k, v) :: rest) (emitAt level false out) =
        jsonEmit v (emitAt level false
          (out ++ opening level first ++ stringText level k ++ [58, 32])) >>=
          jsonEmitEntries false rest := by
      rw [jsonEmitEntries]
      refine (emitOpening level first out fun emit ↦ jsonEmitString k emit >>= fun emit ↦
        emitFmt emit [':', ' '] [] >>= fun emit ↦ jsonEmit v emit >>=
          jsonEmitEntries false rest).trans ?_
      rw [jsonEmitString_emitAt, ok_bind, emitFmt_word hcolon (List.cons_ne_nil _ _) (by decide),
        ok_bind]
      simp only [opening, due_true, due_false, List.append_assoc, List.nil_append, List.cons_append]
    have htext : ∀ tail, out ++ opening level first ++ stringText level k ++ [58, 32] ++
        due level false ++ jsonText level v ++ tail = out ++ (opening level first ++
          stringText level k ++ [58, 32] ++ jsonText level v ++ tail) := by
      intro tail
      simp only [due_false, List.append_assoc, List.nil_append]
    rw [hstep, bind_eq_ok, List.forall_mem_cons, entriesText, ← htext]
    constructor
    · rintro ⟨middle, hmiddle, hnext⟩
      obtain ⟨hmeets, rfl⟩ := (hv _ _ _ _).1 hmiddle
      obtain ⟨hmeets', rfl⟩ := (hrest _ _).1 hnext
      exact ⟨⟨hmeets, hmeets'⟩, rfl⟩
    · rintro ⟨⟨hmeets, hmeets'⟩, rfl⟩
      exact ⟨_, (hv _ _ _ _).2 ⟨hmeets, rfl⟩, (hrest _ _).2 ⟨hmeets', rfl⟩⟩

/-- A word is written whatever comes before it. -/
theorem emits_word {v : Json} {format : List Char} {args : List Any} {data : List UInt8}
    (hemit : ∀ emit, jsonEmit v emit = emitFmt emit format args)
    (h : fmtFormat (ascii format) args = .ok data) (hne : data ≠ []) (hdata : 10 ∉ data)
    (htext : ∀ level, jsonText level v = data) (hmeets : ∀ level, Meets emittable level v) :
    Emits v := by
  intro level lineBegin out emit
  rw [hemit, emitFmt_word h hne hdata, htext, Except.ok.injEq, eq_comm]
  exact (and_iff_right (hmeets level)).symm

theorem lineEnd_notMem_numberText (n : ℤ) : (10 : UInt8) ∉ numberText n := by
  have hsign : ∀ b : Prop, [Decidable b] → (10 : UInt8) ∉ (if b then [45] else []) := by
    intro b _
    split <;> decide
  rw [numberText, List.mem_append, not_or]
  refine ⟨hsign _, fun hmem ↦ ?_⟩
  have hdigit := isdigit_of_mem_decimal _ _ hmem
  exact absurd hdigit (by decide)

theorem numberText_ne_nil (n : ℤ) : numberText n ≠ [] :=
  List.append_ne_nil_of_right_ne_nil _ (decimal_ne_nil _)

/-- A number is written unless it has no negation or is too long for the buffer. -/
theorem emits_number (n : ℤ) : Emits (.number n) := by
  have hformat : fmtFormat (ascii ['{', '}']) [.int n] =
      fmtSigned fmtDefault n >>= fun data ↦ .ok (data ++ []) := rfl
  intro level lineBegin out emit
  rw [jsonEmit, meets_number]
  by_cases hwritten : n ≠ -2 ^ 63 ∧ (numberText n).length ≤ fmtBufSize
  · have hok : fmtFormat (ascii ['{', '}']) [.int n] = .ok (numberText n) := by
      rw [hformat, fmtSigned_default, if_neg hwritten.1, if_pos hwritten.2, ok_bind,
        List.append_nil]
    rw [emitFmt_word hok (numberText_ne_nil n) (lineEnd_notMem_numberText n), Except.ok.injEq,
      eq_comm]
    exact (and_iff_right hwritten).symm
  · have hfault : ∃ fault, fmtSigned fmtDefault n = .error fault := by
      rw [fmtSigned_default]
      by_cases hmin : n = -2 ^ 63
      · exact ⟨_, if_pos hmin⟩
      · rw [if_neg hmin]
        exact ⟨_, if_neg fun hfit ↦ hwritten ⟨hmin, hfit⟩⟩
    obtain ⟨fault, hfault⟩ := hfault
    rw [emitFmt, hformat, hfault]
    constructor
    · intro h
      cases h
    · rintro ⟨h, _⟩
      exact absurd h hwritten

/-- Lines between brackets are written if a loop writes them one level deeper. -/
theorem emits_brackets {v : Json} {opens closes : List Char} {openByte closeByte : UInt8}
    (hopens : fmtFormat (ascii opens) [] = .ok [openByte]) (hopenByte : openByte ≠ 10)
    (hcloses : fmtFormat (ascii closes) [] = .ok [closeByte]) (hcloseByte : closeByte ≠ 10)
    {loop : Emit → Except Fault Emit} {isEmpty : Bool} {lines : ℕ → List UInt8} {parts : ℕ → Prop}
    (hemit : ∀ emit, jsonEmit v emit = emitFmt emit opens [] >>= fun emit ↦
      loop (emitIdent emit) >>= fun emit ↦
        if isEmpty = true then pure emit >>= fun emit ↦
          emitDeident emit >>= fun emit ↦ emitFmt emit closes []
        else emitFmt emit ['\n'] [] >>= fun emit ↦
          emitDeident emit >>= fun emit ↦ emitFmt emit closes [])
    (hloop : ∀ level out emit, loop (emitAt level false out) = .ok emit ↔
      parts level ∧ emit = emitAt level false (out ++ lines level))
    (htext : ∀ level, jsonText level v =
      openByte :: (lines (level + 1) ++ closing level isEmpty ++ [closeByte]))
    (hmeets : ∀ level, Meets emittable level v ↔ parts (level + 1)) : Emits v := by
  intro level lineBegin out emit
  have hword : (10 : UInt8) ∉ [openByte] := fun hmem ↦ hopenByte (List.mem_singleton.1 hmem).symm
  have hparts := hloop (level + 1) (out ++ due level lineBegin ++ [openByte])
  have hclosing := emitClosing hcloses hcloseByte level isEmpty
    (out ++ due level lineBegin ++ [openByte] ++ lines (level + 1))
  have hout : out ++ due level lineBegin ++ jsonText level v = out ++ due level lineBegin ++
      [openByte] ++ lines (level + 1) ++ closing level isEmpty ++ [closeByte] := by
    rw [htext]
    simp only [List.append_assoc, List.cons_append, List.nil_append]
  rw [hemit, emitFmt_word hopens (List.cons_ne_nil _ _) hword, ok_bind, emitIdent_emitAt,
    bind_eq_ok, hmeets, hout]
  constructor
  · rintro ⟨middle, hmiddle, hnext⟩
    obtain ⟨hmeets, rfl⟩ := (hparts _).1 hmiddle
    exact ⟨hmeets, (Except.ok.inj (hclosing.symm.trans hnext)).symm⟩
  · rintro ⟨hmeets, rfl⟩
    exact ⟨_, (hparts _).2 ⟨hmeets, rfl⟩, hclosing⟩

/-- Values are written exactly when they meet the condition, and then as their text. -/
theorem emits (v : Json) : Emits v := by
  induction v using jsonInduction with
  | null =>
    exact emits_word (fun _ ↦ by rw [jsonEmit]) rfl (List.cons_ne_nil _ _) (by decide)
      (fun _ ↦ by rw [jsonText]; rfl) fun _ ↦ Meets.null
  | true =>
    exact emits_word (fun _ ↦ by rw [jsonEmit]) rfl (List.cons_ne_nil _ _) (by decide)
      (fun _ ↦ by rw [jsonText]; rfl) fun _ ↦ Meets.true
  | false =>
    exact emits_word (fun _ ↦ by rw [jsonEmit]) rfl (List.cons_ne_nil _ _) (by decide)
      (fun _ ↦ by rw [jsonText]; rfl) fun _ ↦ Meets.false
  | array els ih =>
    have hopens : fmtFormat (ascii ['[']) [] = .ok [91] := rfl
    have hcloses : fmtFormat (ascii [']']) [] = .ok [93] := rfl
    exact emits_brackets hopens (by decide) hcloses (by decide) (fun _ ↦ by rw [jsonEmit])
      (fun level ↦ jsonEmitElements_emitAt ih level true) (fun _ ↦ by rw [jsonText])
      fun _ ↦ meets_array.trans (and_iff_right trivial)
  | object entries ih =>
    have hopens : fmtFormat (ascii ['{', '{']) [] = .ok [123] := rfl
    have hcloses : fmtFormat (ascii ['}', '}']) [] = .ok [125] := rfl
    have hmeets : ∀ level, Meets emittable level (.object entries) ↔
        ∀ entry ∈ entries, Meets emittable (level + 1) entry.2 := by
      intro level
      rw [meets_object]
      exact ⟨fun h ↦ h.2.2, fun h ↦ ⟨trivial, fun _ _ ↦ trivial, h⟩⟩
    exact emits_brackets hopens (by decide) hcloses (by decide) (fun _ ↦ by rw [jsonEmit])
      (fun level ↦ jsonEmitEntries_emitAt ih level true) (fun _ ↦ by rw [jsonText]) hmeets
  | string text =>
    intro level lineBegin out emit
    rw [jsonEmit, jsonEmitString_emitAt, jsonText, meets_string, Except.ok.injEq, eq_comm]
    exact (and_iff_right trivial).symm
  | number n => exact emits_number n
  | error =>
    intro level lineBegin out emit
    rw [jsonEmit, meets_error]
    constructor
    · intro h
      cases h
    · rintro ⟨h, _⟩
      exact h.elim

end Brutal.JsonFormat
