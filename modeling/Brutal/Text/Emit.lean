import Brutal.Text.Case
import Mathlib.Data.Nat.Digits.Defs

/-!
# Formatted output

`libs/brutal-fmt` writes values in the places that a format string has for them, and
`libs/brutal-io/emit.c` puts the indentation in front of every line that is written.
-/

namespace Brutal.Text

open Base Lib

/-- `utf8_from_rune` -/
def utf8FromRune (rune : ℕ) : List UInt8 :=
  if rune ≤ 0x7f then [UInt8.ofNat rune]
  else if rune ≤ 0x7ff then
    [UInt8.ofNat (rune >>> 6 &&& 0x1f ||| 0xc0), UInt8.ofNat (rune &&& 0x3f ||| 0x80)]
  else if rune ≤ 0xffff then
    [UInt8.ofNat (rune >>> 12 &&& 0x0f ||| 0xe0), UInt8.ofNat (rune >>> 6 &&& 0x3f ||| 0x80),
      UInt8.ofNat (rune &&& 0x3f ||| 0x80)]
  else if rune ≤ 0x10ffff then
    [UInt8.ofNat (rune >>> 18 &&& 0x07 ||| 0xf0), UInt8.ofNat (rune >>> 12 &&& 0x3f ||| 0x80),
      UInt8.ofNat (rune >>> 6 &&& 0x3f ||| 0x80), UInt8.ofNat (rune &&& 0x3f ||| 0x80)]
  else [0xef, 0xbf, 0xbd]

/-- `FmtType` -/
inductive FmtType where
  | none
  | char
  | string
  | binary
  | octal
  | decimal
  | hexadecimal
  | pointer
deriving DecidableEq, Repr

/-- `Fmt` -/
structure Fmt where
  type : FmtType
  casing : Case
  width : ℤ
  precision : ℤ
  fill : UInt8
  withPrefix : Bool
  prefixPlus : Bool
deriving DecidableEq, Repr

/-- `FMT_PRECISION_DEFAULT` -/
def fmtPrecisionDefault : ℤ := -1

/-- `fmt_base` -/
def fmtBase (self : Fmt) : ℕ :=
  match self.type with
  | .binary => 2
  | .octal => 8
  | .pointer | .hexadecimal => 16
  | _ => 10

/-- `fmt_digit` -/
def fmtDigit (self : Fmt) (d : ℕ) : UInt8 :=
  (ascii ['0', '1', '2', '3', '4', '5', '6', '7', '8', '9', 'a', 'b', 'c', 'd', 'e', 'f'])[d %
    fmtBase self]?.getD 0

/-- `fmt_prefix` -/
def fmtPrefixChar (self : Fmt) : UInt8 :=
  match self.type with
  | .binary => 98
  | .octal => 111
  | .pointer | .hexadecimal => 120
  | _ => 48

/-- `fmt_parse_type` -/
def fmtParseType (c : UInt8) : FmtType :=
  if c = 115 then .string
  else if c = 99 then .char
  else if c = 98 then .binary
  else if c = 111 then .octal
  else if c = 100 ∨ c = 105 ∨ c = 117 then .decimal
  else if c = 112 then .pointer
  else if c = 88 ∨ c = 120 then .hexadecimal
  else .none

/-- `fmt_parse_precision` -/
def fmtParsePrecision (fmt : Fmt) (scan : Scan) : Except Fault (Bool × Fmt × Scan) := do
  let (zero, scan) := scanSkip scan 48
  let fmt := if zero then { fmt with fill := 48 } else fmt
  let (width, scan) ← scanNextInt scan
  let fmt := { fmt with width := width.getD fmt.width }
  let (point, scan) := scanSkip scan 46
  if !point then return (width.isSome, fmt, scan)
  let (precision, scan) ← scanNextInt scan
  return (true, { fmt with precision := precision.getD 0 }, scan)

/-- The loop of `fmt_parse`. -/
def fmtParseLoop : ℕ → Fmt → Scan → Except Fault (Fmt × Scan)
  | 0, _, _ => .error .depth
  | turns + 1, fmt, scan => do
    if scanCurr scan = 125 || scanEnded scan then return (fmt, scan)
    let (_, scan) := scanSkipSpace scan
    let (hash, scan) := scanSkip scan 35
    if hash then return ← fmtParseLoop turns { fmt with withPrefix := true } scan
    let (plus, scan) := scanSkip scan 43
    if plus then return ← fmtParseLoop turns { fmt with prefixPlus := true } scan
    let (word, scan) := scanSkipWord scan (ascii ['c', 'a', 's', 'e', '-'])
    if word then
      let (casing, scan) := caseParse scan
      return ← fmtParseLoop turns { fmt with casing } scan
    let (precision, fmt, scan) ← fmtParsePrecision fmt scan
    if precision then return ← fmtParseLoop turns fmt scan
    let (c, scan) := scanNext scan
    fmtParseLoop turns { fmt with type := fmtParseType c } scan

/-- `fmt_parse` -/
def fmtParse (scan : Scan) : Except Fault (Fmt × Scan) := do
  let fmt : Fmt := ⟨.none, .default, 0, fmtPrecisionDefault, 32, false, false⟩
  let (_, scan) := scanSkip scan 123
  let (fmt, scan) ← fmtParseLoop (scan.rest.length + 1) fmt scan
  return (fmt, (scanSkip scan 125).2)

/-- `Any`, of the kinds that are not floating. -/
inductive Any where
  | bool (value : Bool)
  | int (value : ℤ)
  | uint (value : ℕ)
  | str (value : List UInt8)
  | ptr (value : ℕ)
deriving DecidableEq, Repr

/-- The length of the buffer of `fmt_signed` and `fmt_unsigned`. -/
def fmtBufSize : ℕ := 1024

/-- `buf[i++] = byte` -/
def fmtPut (buf : List UInt8) (byte : UInt8) : Except Fault (List UInt8) :=
  if buf.length < fmtBufSize then .ok (buf ++ [byte]) else .error .outOfBounds

/-- `while (i < size) buf[i++] = byte` -/
def fmtFill (size : ℤ) (byte : UInt8) (buf : List UInt8) : Except Fault (List UInt8) :=
  (List.replicate (size.toNat - buf.length) byte).foldlM fmtPut buf

/-- The precision and the fill that `fmt_signed` and `fmt_unsigned` go by. -/
def fmtPrecision (self : Fmt) : ℤ × UInt8 :=
  if self.precision = fmtPrecisionDefault then (1, self.fill) else (self.precision, 32)

/-- What `fmt_signed` and `fmt_unsigned` put in the buffer: the digits from the last to the first,
and what comes in front of them. -/
def fmtNumber (self : Fmt) (value : ℕ) (sign : List UInt8) : Except Fault (List UInt8) := do
  let (precision, fill) := fmtPrecision self
  let buf ← ((Nat.digits (fmtBase self) value).map (fmtDigit self)).foldlM fmtPut []
  let buf ← fmtFill precision 48 buf
  let buf ← (if self.withPrefix then [fmtPrefixChar self, 48] else []).foldlM fmtPut buf
  let buf ← sign.foldlM fmtPut buf
  let buf ← fmtFill self.width fill buf
  return buf.reverse

/-- `fmt_signed`, which negates negative numbers. -/
def fmtSigned (self : Fmt) (value : ℤ) : Except Fault (List UInt8) :=
  if value = -2 ^ 63 then .error .overflow
  else
    fmtNumber self value.natAbs
      (if value < 0 then [45] else if self.prefixPlus then [43] else [])

/-- `fmt_unsigned` -/
def fmtUnsigned (self : Fmt) (value : ℕ) : Except Fault (List UInt8) :=
  fmtNumber self value (if self.prefixPlus then [43] else [])

/-- `fmt_char`, whose argument is an `unsigned int`. -/
def fmtChar (self : Fmt) (character : ℕ) : List UInt8 :=
  let character := character % 2 ^ 32
  match self.casing with
  | .capital | .constant | .upperFirst | .upper => utf8FromRune (toupper character)
  | .no | .camel | .lowerFirst | .lower => utf8FromRune (tolower character)
  | .swap =>
    utf8FromRune (if isupper character then tolower character else toupper character)
  | _ => utf8FromRune character

/-- `fmt_string` -/
def fmtString (self : Fmt) (value : List UInt8) : Except Fault (List UInt8) :=
  if self.casing = .default then .ok value else caseChange self.casing value

/-- `fmt_any` -/
def fmtAny (self : Fmt) : Any → Except Fault (List UInt8)
  | .int value =>
    if self.type = .char then .ok (fmtChar self (value % 2 ^ 32).toNat) else fmtSigned self value
  | .uint value => if self.type = .char then .ok (fmtChar self value) else fmtUnsigned self value
  | .str value => fmtString self value
  | .ptr value => fmtUnsigned self value
  | .bool _ => .ok (ascii ['<', 'u', 'n', 'k', 'n', 'o', 'w', 'n', '>'])

/-- What `fmt_signed` and `fmt_unsigned` write if it fits in the buffer. -/
def fmtDigits (self : Fmt) (value : ℕ) (sign : List UInt8) : List UInt8 :=
  let (precision, fill) := fmtPrecision self
  let buf := (Nat.digits (fmtBase self) value).map (fmtDigit self)
  let buf := buf ++ List.replicate (precision.toNat - buf.length) 48
  let buf := buf ++ (if self.withPrefix then [fmtPrefixChar self, 48] else [])
  let buf := buf ++ sign
  let buf := buf ++ List.replicate (self.width.toNat - buf.length) fill
  buf.reverse

theorem foldlM_fmtPut {buf : List UInt8} (h : buf.length ≤ fmtBufSize) (bytes : List UInt8) :
    bytes.foldlM fmtPut buf =
      if (buf ++ bytes).length ≤ fmtBufSize then .ok (buf ++ bytes) else .error .outOfBounds := by
  induction bytes generalizing buf with
  | nil =>
    rw [List.append_nil, if_pos h]
    rfl
  | cons byte bytes ih =>
    rw [List.foldlM_cons, fmtPut]
    by_cases hlt : buf.length < fmtBufSize
    · have hnext : (buf ++ [byte]).length ≤ fmtBufSize := by
        rw [List.length_append]
        exact hlt
      rw [if_pos hlt, ok_bind, ih hnext, List.append_assoc, List.singleton_append]
    · have hlong : ¬ (buf ++ byte :: bytes).length ≤ fmtBufSize := by
        rw [List.length_append, List.length_cons]
        omega
      rw [if_neg hlt, if_neg hlong]
      rfl

/-- Stores that fit go on with the longer buffer, and the others leave it. -/
theorem foldlM_fmtPut_bind {buf : List UInt8} (h : buf.length ≤ fmtBufSize) (bytes : List UInt8)
    {final : List UInt8} (hfinal : (buf ++ bytes).length ≤ final.length)
    {next : List UInt8 → Except Fault (List UInt8)}
    (hnext : (buf ++ bytes).length ≤ fmtBufSize → next (buf ++ bytes) =
      if final.length ≤ fmtBufSize then .ok final else .error .outOfBounds) :
    bytes.foldlM fmtPut buf >>= next =
      if final.length ≤ fmtBufSize then .ok final else .error .outOfBounds := by
  rw [foldlM_fmtPut h]
  by_cases hfit : (buf ++ bytes).length ≤ fmtBufSize
  · rw [if_pos hfit, ok_bind, hnext hfit]
  · rw [if_neg hfit, if_neg (by omega)]
    rfl

/-- A number is written if it fits in the buffer, and stored outside of it otherwise. -/
theorem fmtNumber_eq (self : Fmt) (value : ℕ) (sign : List UInt8) :
    fmtNumber self value sign =
      if (fmtDigits self value sign).length ≤ fmtBufSize then .ok (fmtDigits self value sign)
      else .error .outOfBounds := by
  rw [fmtNumber, fmtDigits]
  cases fmtPrecision self with
  | mk precision fill =>
    dsimp only [fmtFill]
    apply foldlM_fmtPut_bind (Nat.zero_le _)
    · simp only [List.nil_append, List.length_reverse, List.length_append]
      omega
    intro hdigits
    apply foldlM_fmtPut_bind hdigits
    · simp only [List.nil_append, List.length_reverse, List.length_append]
      omega
    intro hprecision
    apply foldlM_fmtPut_bind hprecision
    · simp only [List.nil_append, List.length_reverse, List.length_append]
      omega
    intro hprefix
    apply foldlM_fmtPut_bind hprefix
    · simp only [List.nil_append, List.length_reverse, List.length_append]
      omega
    intro hsign
    apply foldlM_fmtPut_bind hsign
    · simp only [List.nil_append, List.length_reverse, List.length_append]
      omega
    intro hwidth
    simp only [List.nil_append] at hwidth ⊢
    rw [List.length_reverse, if_pos hwidth]
    rfl

/-- The loop of `fmt_format`, with the values that are left. -/
def fmtFormatLoop : ℕ → Scan → Bool → List Any → Except Fault (List UInt8)
  | 0, _, _, _ => .error .depth
  | turns + 1, scan, skipFmt, args => do
    if scanEnded scan then return []
    let (open', scan) := scanSkipWord scan [123, 123]
    if open' then return 123 :: (← fmtFormatLoop turns scan false args)
    let (close, scan) := scanSkipWord scan [125, 125]
    if close then return 125 :: (← fmtFormatLoop turns scan false args)
    if scanCurr scan = 123 && !skipFmt then
      let (fmt, scan) ← fmtParse scan
      match args with
      | value :: args => return (← fmtAny fmt value) ++ (← fmtFormatLoop turns scan skipFmt args)
      | [] => return [123, 125] ++ (← fmtFormatLoop turns scan skipFmt [])
    if scanCurr scan = 92 && !skipFmt then
      return ← fmtFormatLoop turns (scanNext scan).2 true args
    let (byte, scan) := scanNext scan
    return byte :: (← fmtFormatLoop turns scan false args)

/-- What `fmt_format` writes. -/
def fmtFormat (format : List UInt8) (args : List Any) : Except Fault (List UInt8) := do
  let scan ← scanInit format
  fmtFormatLoop (format.length + 1) scan false args

/-- `Emit`, with what was written. -/
structure Emit where
  indent : ℤ
  indentSize : ℤ
  lineBegin : Bool
  out : List UInt8
deriving DecidableEq, Repr

/-- `emit_init` -/
def emitInit : Emit := ⟨0, 4, true, []⟩

/-- `emit_ident` -/
def emitIdent (self : Emit) : Emit := { self with indent := self.indent + 1 }

/-- `emit_deident` -/
def emitDeident (self : Emit) : Except Fault Emit := do
  assertTruth (0 ≤ self.indent)
  return { self with indent := self.indent - 1 }

/-- What `emit_write_impl` writes for a byte. -/
def emitByte (self : Emit) (byte : UInt8) : Emit :=
  let spaces := if self.lineBegin then
    List.replicate (self.indentSize * self.indent).toNat (32 : UInt8) else []
  { self with lineBegin := byte = 10, out := self.out ++ spaces ++ [byte] }

/-- `emit_write_impl` -/
def emitWrite (self : Emit) (data : List UInt8) : Emit := data.foldl emitByte self

/-- `emit_fmt$` -/
def emitFmt (self : Emit) (format : List Char) (args : List Any) : Except Fault Emit := do
  let data ← fmtFormat (ascii format) args
  return emitWrite self data

end Brutal.Text
