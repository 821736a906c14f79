import Brutal.Text.Emit

/-!
# Format strings with percent signs

`fmt_parse_printf` of `libs/brutal-fmt/fmt.c` and `fmt_vprintf` of `funcs.c`.
-/

namespace Brutal.Text

open Base Lib

/-- `FmtPrintfType`, of the types that are not floating. -/
inductive FmtPrintfType where
  | int
  | long
  | longlong
  | uint
  | ulong
  | ulonglong
  | ptr
  | string
deriving DecidableEq, Repr

/-- The type for a letter, which is one of two by its sign. -/
def fmtPrintfLetter (signed unsigned : FmtPrintfType) (scan : Scan) (fmt : Fmt) :
    FmtPrintfType × Fmt × Scan :=
  let (c, scan) := scanNext scan
  (if c = 100 ∨ c = 105 then signed else unsigned, { fmt with type := fmtParseType c }, scan)

/-- `fmt_parse_printf_type` -/
def fmtParsePrintfType (scan : Scan) (fmt : Fmt) : FmtPrintfType × Fmt × Scan :=
  match scanSkipWord scan (ascii ['l', 'l']) with
  | (true, scan) => fmtPrintfLetter .longlong .ulonglong scan fmt
  | (false, scan) =>
    match scanSkip scan 108 with
    | (true, scan) => fmtPrintfLetter .long .ulong scan fmt
    | (false, scan) =>
      match scanSkip scan 112 with
      | (true, scan) => (.ptr, fmt, scan)
      | (false, scan) =>
        match scanSkip scan 115 with
        | (true, scan) => (.string, fmt, scan)
        | (false, scan) => fmtPrintfLetter .int .uint scan fmt

/-- The loop of `fmt_parse_printf`. -/
def fmtParsePrintfLoop : ℕ → Fmt → Scan → Except Fault (FmtPrintfType × Fmt × Scan)
  | 0, _, _ => .error .depth
  | turns + 1, fmt, scan => do
    if scanEnded scan then return (.int, fmt, scan)
    let (minus, scan) := scanSkip scan 45
    if minus then return ← fmtParsePrintfLoop turns fmt scan
    let (plus, scan) := scanSkip scan 43
    if plus then return ← fmtParsePrintfLoop turns { fmt with prefixPlus := true } scan
    let (hash, scan) := scanSkip scan 35
    if hash then return ← fmtParsePrintfLoop turns { fmt with withPrefix := true } scan
    let (precision, fmt, scan) ← fmtParsePrecision fmt scan
    if precision then return ← fmtParsePrintfLoop turns fmt scan
    return fmtParsePrintfType scan fmt

/-- `fmt_parse_printf` -/
def fmtParsePrintf (scan : Scan) : Except Fault (FmtPrintfType × Fmt × Scan) :=
  let fmt : Fmt := ⟨.none, .default, 1, fmtPrecisionDefault, 32, false, false⟩
  let (_, scan) := scanSkip scan 37
  fmtParsePrintfLoop (scan.rest.length + 1) fmt scan

/-- An argument of a function with a variable number of them: what is in its register, or the
string that it points to. -/
inductive VaArg where
  | word (bits : UInt64)
  | str (value : List UInt8)
deriving DecidableEq, Repr

/-- What `fmt_vprintf` writes for an argument.  An argument of another kind than its type has no
meaning, and stops the model. -/
def fmtPrintfArg (type : FmtPrintfType) (fmt : Fmt) : VaArg → Except Fault (List UInt8)
  | .word bits =>
    match type with
    | .int => fmtSigned fmt bits.toUInt32.toBitVec.toInt
    | .long | .longlong => fmtSigned fmt bits.toBitVec.toInt
    | .uint => fmtUnsigned fmt bits.toUInt32.toNat
    | .ulong | .ulonglong | .ptr => fmtUnsigned fmt bits.toNat
    | .string => .error .panic
  | .str value =>
    match type with
    | .string => fmtString fmt value
    | _ => .error .panic

/-- The loop of `fmt_vprintf`, with the arguments that are left.  An argument that is not there has
no meaning, and stops the model. -/
def fmtVprintfLoop : ℕ → Scan → List VaArg → Except Fault (List UInt8)
  | 0, _, _ => .error .depth
  | turns + 1, scan, args => do
    if scanEnded scan then return []
    let (percent, scan) := scanSkipWord scan [37, 37]
    if percent then return 37 :: (← fmtVprintfLoop turns scan args)
    if scanCurr scan = 37 then
      let (type, fmt, scan) ← fmtParsePrintf scan
      match args with
      | value :: args =>
        return (← fmtPrintfArg type fmt value) ++ (← fmtVprintfLoop turns scan args)
      | [] => .error .panic
    else
      let (byte, scan) := scanNext scan
      return byte :: (← fmtVprintfLoop turns scan args)

/-- What `fmt_vprintf` writes. -/
def fmtVprintf (format : List UInt8) (args : List VaArg) : Except Fault (List UInt8) := do
  let scan ← scanInit format
  fmtVprintfLoop (format.length + 1) scan args

end Brutal.Text
