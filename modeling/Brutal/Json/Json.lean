import Brutal.Ds.MapTable
import Brutal.Ds.VecPush
import Brutal.Text.Emit

/-!
# JSON

`libs/json` writes values through the formatted output, with a line for every element and every
member, and reads them with the scanner.  The strings that are read are parts of the text.  The
vectors of elements and of the nodes of maps grow as long as the bytes of their arrays are an `int`.
-/

namespace Brutal.JsonFormat

open Base Ds Ds.Growth Lib Text

/-- `Json` -/
inductive Json where
  | null
  | true
  | false
  | array (els : List Json)
  | object (entries : List (List UInt8 × Json))
  | string (text : List UInt8)
  | number (n : ℤ)
  | error

/-- What `json_emit_string` writes for a byte. -/
def jsonEmitByte (emit : Emit) (byte : UInt8) : Except Fault Emit := do
  let emit ← if byte = 34 then emitFmt emit ['\\'] [] else pure emit
  emitFmt emit ['{', 'c', '}'] [.uint byte.toNat]

/-- `json_emit_string` -/
def jsonEmitString (text : List UInt8) (emit : Emit) : Except Fault Emit := do
  let emit ← emitFmt emit ['"'] []
  let emit ← text.foldlM jsonEmitByte emit
  emitFmt emit ['"'] []

mutual

/-- `json_emit` -/
def jsonEmit : Json → Emit → Except Fault Emit
  | .null, emit => emitFmt emit ['n', 'u', 'l', 'l'] []
  | .true, emit => emitFmt emit ['t', 'r', 'u', 'e'] []
  | .false, emit => emitFmt emit ['f', 'a', 'l', 's', 'e'] []
  | .array els, emit => do
    let emit ← emitFmt emit ['['] []
    let emit ← jsonEmitElements true els (emitIdent emit)
    let emit ← if els.isEmpty then pure emit else emitFmt emit ['\n'] []
    let emit ← emitDeident emit
    emitFmt emit [']'] []
  | .object entries, emit => do
    let emit ← emitFmt emit ['{', '{'] []
    let emit ← jsonEmitEntries true entries (emitIdent emit)
    let emit ← if entries.isEmpty then pure emit else emitFmt emit ['\n'] []
    let emit ← emitDeident emit
    emitFmt emit ['}', '}'] []
  | .string text, emit => jsonEmitString text emit
  | .number n, emit => emitFmt emit ['{', '}'] [.int n]
  | .error, _ => .error .panic

/-- The loop over an array. -/
def jsonEmitElements : Bool → List Json → Emit → Except Fault Emit
  | _, [], emit => .ok emit
  | first, el :: rest, emit => do
    let emit ← if first then pure emit else emitFmt emit [','] []
    let emit ← emitFmt emit ['\n'] []
    let emit ← jsonEmit el emit
    jsonEmitElements false rest emit

/-- The loop over an object. -/
def jsonEmitEntries : Bool → List (List UInt8 × Json) → Emit → Except Fault Emit
  | _, [], emit => .ok emit
  | first, (k, v) :: rest, emit => do
    let emit ← if first then pure emit else emitFmt emit [','] []
    let emit ← emitFmt emit ['\n'] []
    let emit ← jsonEmitString k emit
    let emit ← emitFmt emit [':', ' '] []
    let emit ← jsonEmit v emit
    jsonEmitEntries false rest emit

end

/-- What is left behind the end of a comment. -/
def jsonCommentEnd : List UInt8 → Option (List UInt8)
  | [] => none
  | byte :: rest => if byte = 42 ∧ rest.head? = some 47 then some rest.tail else jsonCommentEnd rest

/-- `json_skip_comment` -/
def jsonSkipComment (scan : Scan) : Bool × Scan :=
  if scanCurr scan = 47 && scanPeek scan 1 = 42 then
    match jsonCommentEnd scan.rest with
    | some rest => (true, ⟨rest, false⟩)
    | none => (false, ⟨[], true⟩)
  else (false, scan)

/-- The loop of `json_skip_space_and_comment`, which goes on only when something was skipped. -/
def jsonSkipLoop : ℕ → Scan → Scan
  | 0, scan => scan
  | turns + 1, scan =>
    match scanSkipSpace scan with
    | (true, scan) => jsonSkipLoop turns scan
    | (false, scan) =>
      match jsonSkipComment scan with
      | (true, scan) => jsonSkipLoop turns scan
      | (false, scan) => scan

/-- `json_skip_space_and_comment` -/
def jsonSkipSpaceAndComment (scan : Scan) : Scan := jsonSkipLoop (scan.rest.length + 1) scan

/-- `is_closing_string` -/
def isClosingString (c : UInt8) : Bool := c != 34

/-- `parse_str` -/
def parseStr (scan : Scan) : List UInt8 × Scan :=
  let scan := scanExpect (jsonSkipSpaceAndComment scan) 34
  let (name, scan) := scanEatMatch scan isClosingString
  (name, jsonSkipSpaceAndComment (scanExpect scan 34))

/-- `sizeof(Json)` -/
def jsonBytes : ℕ := 56

/-- The size of the pointers to the nodes in the buckets of a map. -/
def nodePtrBytes : ℕ := 8

/-- The different keys of one bucket. -/
def bucketKeys (keys : List (List UInt8)) (b : ℕ) : Finset (List UInt8) :=
  (keys.filter (mapBucket · = b)).toFinset

/-- The node of a key that is put last has a size that is an `int`, and so has the array of its
bucket. -/
def TakesKey (sizes : Sizes) (keys : List (List UInt8)) (key : List UInt8) : Prop :=
  sizes.Fits (valueStart key.length + jsonBytes) ∧
    sizes.HasRoom nodePtrBytes (bucketKeys (key :: keys) (mapBucket key)).card

instance decidableTakesKey (sizes : Sizes) (keys : List (List UInt8)) (key : List UInt8) :
    Decidable (TakesKey sizes keys key) :=
  inferInstanceAs (Decidable (_ ∧ _))

section Parser

variable (sizes : Sizes)

/-- `vec_push` to an array. -/
def jsonPush (els : List Json) (res : Json) : Except Fault (List Json) :=
  if sizes.HasRoom jsonBytes (els.length + 1) then .ok (els ++ [res]) else .error .overflow

/-- `map_put` to an object. -/
def jsonPut (entries : List (List UInt8 × Json)) (name : List UInt8) (value : Json) :
    Except Fault (List (List UInt8 × Json)) :=
  if TakesKey sizes (entries.map (·.1)) name then .ok (mapPut entries name value)
  else .error .overflow

mutual

/-- `json_parse` -/
def jsonParse : ℕ → Scan → Except Fault (Json × Scan)
  | 0, _ => .error .depth
  | turns + 1, scan => do
    let scan := jsonSkipSpaceAndComment scan
    if scanCurr scan = 34 then
      let (text, scan) := parseStr scan
      return (.string text, scan)
    else if isdigit (scanCurr scan) || scanCurr scan = 45 then
      let (value, scan) ← scanNextInt scan
      return (.number (value.getD 0), scan)
    else
      match scanSkipWord scan (ascii ['t', 'r', 'u', 'e']) with
      | (true, scan) => return (.true, scan)
      | (false, scan) =>
        match scanSkipWord scan (ascii ['f', 'a', 'l', 's', 'e']) with
        | (true, scan) => return (.false, scan)
        | (false, scan) =>
          match scanSkipWord scan (ascii ['n', 'u', 'l', 'l']) with
          | (true, scan) => return (.null, scan)
          | (false, scan) =>
            match scanSkip scan 123 with
            | (true, scan) => jsonParseObject turns [] scan
            | (false, scan) =>
              match scanSkip scan 91 with
              | (true, scan) => jsonParseArray turns [] scan
              | (false, scan) => return (.error, scanThrow scan)

/-- `json_parse_array`, with the elements that were read. -/
def jsonParseArray : ℕ → List Json → Scan → Except Fault (Json × Scan)
  | 0, _, _ => .error .depth
  | turns + 1, els, scan => do
    if scanCurr scan != 93 && !scanEnded scan then
      let (res, scan) ← jsonParse turns scan
      let els ← jsonPush sizes els res
      match scanSkip (jsonSkipSpaceAndComment scan) 44 with
      | (false, scan) => return (.array els, scanExpect scan 93)
      | (true, scan) => jsonParseArray turns els (jsonSkipSpaceAndComment scan)
    else
      return (.array els, scanExpect scan 93)

/-- `json_parse_object`, with the members that were read. -/
def jsonParseObject : ℕ → List (List UInt8 × Json) → Scan → Except Fault (Json × Scan)
  | 0, _, _ => .error .depth
  | turns + 1, entries, scan => do
    if scanCurr scan != 125 && !scanEnded scan then
      let (name, scan) := parseStr scan
      let (value, scan) ← jsonParse turns (scanExpect scan 58)
      let entries ← jsonPut sizes entries name value
      match scanSkip (jsonSkipSpaceAndComment scan) 44 with
      | (false, scan) => return (.object entries, scanExpect scan 125)
      | (true, scan) => jsonParseObject turns entries (jsonSkipSpaceAndComment scan)
    else
      return (.object entries, scanExpect scan 125)

end

end Parser

/-- `json_parse_str` -/
def jsonParseStr (turns : ℕ) (text : List UInt8) : Except Fault Json := do
  let scan ← scanInit text
  let (json, _) ← jsonParse .int turns scan
  return json

end Brutal.JsonFormat
