import Brutal.Text.Scan

/-!
# Letter cases

`libs/brutal-fmt/case.c`: the cases that a format can ask for, their names, and what they make of a
string.
-/

namespace Brutal.Text

open Base Lib

/-- `Case` -/
inductive Case where
  | default
  | camel
  | capital
  | constant
  | dot
  | header
  | no
  | param
  | pascal
  | path
  | sentence
  | snake
  | title
  | swap
  | lower
  | lowerFirst
  | upper
  | upperFirst
  | sponge
deriving DecidableEq, Repr

/-- The names of the cases, in the order in which `case_parse` tries them. -/
def caseNames : List (List UInt8 × Case) :=
  [(ascii ['d', 'e', 'f', 'a', 'u', 'l', 't'], .default),
    (ascii ['c', 'a', 'm', 'e', 'l'], .camel),
    (ascii ['c', 'a', 'p', 'i', 't', 'a', 'l'], .capital),
    (ascii ['c', 'o', 'n', 's', 't', 'a', 'n', 't'], .constant),
    (ascii ['d', 'o', 't'], .dot),
    (ascii ['h', 'e', 'a', 'd', 'e', 'r'], .header),
    (ascii ['n', 'o'], .no),
    (ascii ['p', 'a', 'r', 'a', 'm'], .param),
    (ascii ['p', 'a', 's', 'c', 'a', 'l'], .pascal),
    (ascii ['p', 'a', 't', 'h'], .path),
    (ascii ['s', 'e', 'n', 't', 'e', 'n', 'c', 'e'], .sentence),
    (ascii ['s', 'n', 'a', 'k', 'e'], .snake),
    (ascii ['t', 'i', 't', 'l', 'e'], .title),
    (ascii ['s', 'w', 'a', 'p'], .swap),
    (ascii ['l', 'o', 'w', 'e', 'r'], .lower),
    (ascii ['l', 'o', 'w', 'e', 'r', '-', 'f', 'i', 'r', 's', 't'], .lowerFirst),
    (ascii ['u', 'p', 'p', 'e', 'r'], .upper),
    (ascii ['u', 'p', 'p', 'e', 'r', '-', 'f', 'i', 'r', 's', 't'], .upperFirst),
    (ascii ['s', 'p', 'o', 'n', 'g', 'e'], .sponge)]

/-- The tests of `case_parse`, one after the other. -/
def caseParseNames : List (List UInt8 × Case) → Scan → Case × Scan
  | [], scan => (.default, scan)
  | (name, casing) :: names, scan =>
    match scanSkipWord scan name with
    | (true, scan) => (casing, scan)
    | (false, scan) => caseParseNames names scan

/-- `case_parse` -/
def caseParse (scan : Scan) : Case × Scan := caseParseNames caseNames scan

/-- `isupper` -/
def isupper (c : ℕ) : Bool := 65 ≤ c && c ≤ 90

/-- `islower` -/
def islower (c : ℕ) : Bool := 97 ≤ c && c ≤ 122

/-- `toupper` -/
def toupper (c : ℕ) : ℕ := if islower c then c - 32 else c

/-- `tolower` -/
def tolower (c : ℕ) : ℕ := if isupper c then c + 32 else c

def upperByte (byte : UInt8) : UInt8 := UInt8.ofNat (toupper byte.toNat)

def lowerByte (byte : UInt8) : UInt8 := UInt8.ofNat (tolower byte.toNat)

/-- `isblank` -/
def isblank (c : UInt8) : Bool := c = 32 || c = 9

/-- `is_sep` -/
def isSep (c : UInt8) : Bool := isblank c || c = 46 || c = 95 || c = 47 || c = 45

/-- The loop of `case_to_no`, with the byte in front of the scanner. -/
def caseToNoLoop : ℕ → UInt8 → Scan → List UInt8
  | 0, _, _ => []
  | turns + 1, previous, scan =>
    if scanEnded scan then []
    else
      let c := scanCurr scan
      if isSep c then
        let (eaten, scan) := scanEatMatch scan isSep
        (if scanEnded scan then [] else [32]) ++ caseToNoLoop turns (eaten.getLastD c) scan
      else
        (if islower previous.toNat && isupper c.toNat then [32] else []) ++
          lowerByte c :: caseToNoLoop turns c (scanNext scan).2

/-- `case_to_no` -/
def caseToNo (str : List UInt8) : Except Fault (List UInt8) := do
  let scan ← scanInit str
  let (eaten, scan) := scanEatMatch scan isblank
  return caseToNoLoop (str.length + 1) (eaten.getLastD 0) scan

/-- A loop over a buffer that changes every byte, and looks at the byte in front of it. -/
def changeBytes (change : Option UInt8 → UInt8 → UInt8) : Option UInt8 → List UInt8 → List UInt8
  | _, [] => []
  | previous, byte :: rest =>
    let byte := change previous byte
    byte :: changeBytes change (some byte) rest

/-- `case_to_capital` -/
def caseToCapital (str : List UInt8) : Except Fault (List UInt8) := do
  let buf ← caseToNo str
  return changeBytes (fun previous byte ↦
    if previous.isNone || previous = some 32 then upperByte byte else byte) none buf

/-- The case that has another byte in the place of a space. -/
def caseSpaced (space : UInt8) (str : List UInt8) : Except Fault (List UInt8) := do
  let buf ← caseToNo str
  return buf.map fun byte ↦ if byte = 32 then space else byte

/-- `case_to_constant` -/
def caseToConstant (str : List UInt8) : Except Fault (List UInt8) := do
  let buf ← caseToNo str
  return buf.map fun byte ↦ if byte = 32 then 95 else upperByte byte

/-- `case_to_header` -/
def caseToHeader (str : List UInt8) : Except Fault (List UInt8) := do
  let buf ← caseToNo str
  return changeBytes (fun previous byte ↦
    if byte = 32 then 45
    else if previous.isNone || previous = some 45 then upperByte byte else byte) none buf

/-- The loop of `case_to_pascal`. -/
def pascalBytes : Option UInt8 → List UInt8 → List UInt8
  | _, [] => []
  | previous, byte :: rest =>
    (if previous.isNone || previous = some 32 then [upperByte byte]
      else if byte ≠ 32 then [byte] else []) ++ pascalBytes (some byte) rest

/-- `case_to_pascal` -/
def caseToPascal (str : List UInt8) : Except Fault (List UInt8) := do
  let nocase ← caseToNo str
  return pascalBytes none nocase

/-- The first byte of a buffer is changed, if there is one. -/
def changeFirst (change : UInt8 → UInt8) : List UInt8 → List UInt8
  | [] => []
  | byte :: rest => change byte :: rest

/-- `case_to_camel` -/
def caseToCamel (str : List UInt8) : Except Fault (List UInt8) := do
  let buf ← caseToPascal str
  return changeFirst lowerByte buf

/-- `case_to_sentence` -/
def caseToSentence (str : List UInt8) : Except Fault (List UInt8) := do
  let buf ← caseToNo str
  return changeFirst upperByte buf

/-- `case_to_swap` -/
def caseToSwap (str : List UInt8) : List UInt8 :=
  str.map fun c ↦ if isupper c.toNat then lowerByte c else upperByte c

/-- `case_to_sponge` -/
def caseToSponge (str : List UInt8) : List UInt8 :=
  str.mapIdx fun i c ↦ if i % 2 ≠ 0 then lowerByte c else upperByte c

/-- `case_change` -/
def caseChange (c : Case) (str : List UInt8) : Except Fault (List UInt8) :=
  match c with
  | .default => .ok str
  | .camel => caseToCamel str
  | .capital => caseToCapital str
  | .constant => caseToConstant str
  | .dot => caseSpaced 46 str
  | .header => caseToHeader str
  | .no => caseToNo str
  | .param => caseSpaced 45 str
  | .pascal => caseToPascal str
  | .path => caseSpaced 47 str
  | .sentence => caseToSentence str
  | .snake => caseSpaced 95 str
  | .title => caseToCapital str
  | .swap => .ok (caseToSwap str)
  | .lower => .ok (str.map lowerByte)
  | .lowerFirst => .ok (changeFirst lowerByte str)
  | .upper => .ok (str.map upperByte)
  | .upperFirst => .ok (changeFirst upperByte str)
  | .sponge => .ok (caseToSponge str)

end Brutal.Text
