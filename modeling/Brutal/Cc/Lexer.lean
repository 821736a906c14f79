import Brutal.Ds.VecPush
import Brutal.Text.Scan

/-!
# The lexer of C

`libs/cc/lex/lexer.c`, with the loop of `libs/brutal-parse/lex.c` around it.  A lexeme is its type
with the bytes that the scanner went over; the loops take a number of turns, and stop with a fault
when they are used up.
-/

namespace Brutal.Cc

open Base Ds.Growth Lib Text

/-- `CLexemeType`, with `LEXEME_EOF` and `LEXEME_INVALID`; the keywords have a `kw` in front. -/
inductive LexemeType where
  | eof | invalid
  | none | whitespace | comment | newline | ident | integer
  | kwAuto | kwBreak | kwCase | kwChar | kwConst | kwContinue | kwDefault | kwDo | kwDouble
  | kwElse | kwEnum | kwExtern | kwFloat | kwFor | kwGoto | kwIf | kwInline | kwInt | kwLong
  | kwRegister | kwRestrict | kwReturn | kwShort | kwSigned | kwSizeof | kwStatic | kwStruct
  | kwSwitch | kwTypedef | kwUnion | kwUnsigned | kwVoid | kwVolatile | kwWhile
  | kwAlignas | kwAlignof | kwAtomic | kwBool | kwGeneric | kwNoreturn | kwStaticAssert
  | kwThreadLocal
  | lparent | rparent | lbracket | rbracket | lbrace | rbrace | comma
  | lchevron | rchevron | lchevronEq | rchevronEq | lshift | rshift | pound | doublePound
  | plus | plusplus | minus | minusminus | equalequal | equal
  | plusEq | minusEq | starEq | slashEq | percentEq | ampersandEq | barEq | circumflexEq
  | lshiftEq | rshiftEq
  | star | slash | percent | ampersandampersand | ampersand | barbar | bar | circumflex | tilde
  | exclamation | exclamationequal | dot | arrow | semicolon
  | string | character
deriving DecidableEq, Repr

/-- `Lexeme` -/
structure Lexeme where
  type : LexemeType
  str : List UInt8
deriving DecidableEq, Repr

/-- `keywords`, in the order in which they are tried. -/
def keywords : List (LexemeType × List UInt8) :=
  [(.newline, ascii ['\n']),
    (.kwAuto, ascii ['a', 'u', 't', 'o']),
    (.kwBreak, ascii ['b', 'r', 'e', 'a', 'k']),
    (.kwCase, ascii ['c', 'a', 's', 'e']),
    (.kwChar, ascii ['c', 'h', 'a', 'r']),
    (.kwConst, ascii ['c', 'o', 'n', 's', 't']),
    (.kwContinue, ascii ['c', 'o', 'n', 't', 'i', 'n', 'u', 'e']),
    (.kwDefault, ascii ['d', 'e', 'f', 'a', 'u', 'l', 't']),
    (.kwDo, ascii ['d', 'o']),
    (.kwDouble, ascii ['d', 'o', 'u', 'b', 'l', 'e']),
    (.kwElse, ascii ['e', 'l', 's', 'e']),
    (.kwEnum, ascii ['e', 'n', 'u', 'm']),
    (.kwExtern, ascii ['e', 'x', 't', 'e', 'r', 'n']),
    (.kwFloat, ascii ['f', 'l', 'o', 'a', 't']),
    (.kwFor, ascii ['f', 'o', 'r']),
    (.kwGoto, ascii ['g', 'o', 't', 'o']),
    (.kwIf, ascii ['i', 'f']),
    (.kwInline, ascii ['i', 'n', 'l', 'i', 'n', 'e']),
    (.kwInt, ascii ['i', 'n', 't']),
    (.kwLong, ascii ['l', 'o', 'n', 'g']),
    (.kwRegister, ascii ['r', 'e', 'g', 'i', 's', 't', 'e', 'r']),
    (.kwRestrict, ascii ['r', 'e', 's', 't', 'r', 'i', 'c', 't']),
    (.kwReturn, ascii ['r', 'e', 't', 'u', 'r', 'n']),
    (.kwShort, ascii ['s', 'h', 'o', 'r', 't']),
    (.kwSigned, ascii ['s', 'i', 'g', 'n', 'e', 'd']),
    (.kwSizeof, ascii ['s', 'i', 'z', 'e', 'o', 'f']),
    (.kwStatic, ascii ['s', 't', 'a', 't', 'i', 'c']),
    (.kwStruct, ascii ['s', 't', 'r', 'u', 'c', 't']),
    (.kwSwitch, ascii ['s', 'w', 'i', 't', 'c', 'h']),
    (.kwTypedef, ascii ['t', 'y', 'p', 'e', 'd', 'e', 'f']),
    (.kwUnion, ascii ['u', 'n', 'i', 'o', 'n']),
    (.kwUnsigned, ascii ['u', 'n', 's', 'i', 'g', 'n', 'e', 'd']),
    (.kwVoid, ascii ['v', 'o', 'i', 'd']),
    (.kwVolatile, ascii ['v', 'o', 'l', 'a', 't', 'i', 'l', 'e']),
    (.kwWhile, ascii ['w', 'h', 'i', 'l', 'e']),
    (.kwAlignas, ascii ['_', 'A', 'l', 'i', 'g', 'n', 'a', 's']),
    (.kwAlignof, ascii ['_', 'A', 'l', 'i', 'g', 'n', 'o', 'f']),
    (.kwAtomic, ascii ['_', 'A', 't', 'o', 'm', 'i', 'c']),
    (.kwBool, ascii ['_', 'B', 'o', 'o', 'l']),
    (.kwGeneric, ascii ['_', 'G', 'e', 'n', 'e', 'r', 'i', 'c']),
    (.kwNoreturn, ascii ['_', 'N', 'o', 'r', 'e', 't', 'u', 'r', 'n']),
    (.kwStaticAssert,
      ascii ['_', 'S', 't', 'a', 't', 'i', 'c', '_', 'a', 's', 's', 'e', 'r', 't']),
    (.kwThreadLocal, ascii ['_', 'T', 'h', 'r', 'e', 'a', 'd', '_', 'l', 'o', 'c', 'a', 'l']),
    (.lparent, ascii ['(']),
    (.rparent, ascii [')']),
    (.lbracket, ascii ['[']),
    (.rbracket, ascii [']']),
    (.comma, ascii [',']),
    (.lbrace, ascii ['{']),
    (.rbrace, ascii ['}']),
    (.lshiftEq, ascii ['<', '<', '=']),
    (.rshiftEq, ascii ['>', '>', '=']),
    (.lshift, ascii ['<', '<']),
    (.rshift, ascii ['>', '>']),
    (.lchevron, ascii ['<']),
    (.rchevron, ascii ['>']),
    (.doublePound, ascii ['#', '#']),
    (.pound, ascii ['#']),
    (.plusEq, ascii ['+', '=']),
    (.plusplus, ascii ['+', '+']),
    (.plus, ascii ['+']),
    (.arrow, ascii ['-', '>']),
    (.minusEq, ascii ['-', '=']),
    (.minusminus, ascii ['-', '-']),
    (.minus, ascii ['-']),
    (.starEq, ascii ['*', '=']),
    (.star, ascii ['*']),
    (.slashEq, ascii ['/', '=']),
    (.slash, ascii ['/']),
    (.percentEq, ascii ['%', '=']),
    (.percent, ascii ['%']),
    (.ampersandampersand, ascii ['&', '&']),
    (.ampersandEq, ascii ['&', '=']),
    (.ampersand, ascii ['&']),
    (.barbar, ascii ['|', '|']),
    (.barEq, ascii ['|', '=']),
    (.bar, ascii ['|']),
    (.circumflexEq, ascii ['^', '=']),
    (.circumflex, ascii ['^']),
    (.exclamationequal, ascii ['!', '=']),
    (.exclamation, ascii ['!']),
    (.equalequal, ascii ['=', '=']),
    (.equal, ascii ['=']),
    (.tilde, ascii ['~']),
    (.dot, ascii ['.']),
    (.semicolon, ascii [';'])]

/-- `isalpha` -/
def isalpha (c : UInt8) : Bool := (97 ≤ c && c ≤ 122) || (65 ≤ c && c ≤ 90)

/-- `isidentchar` -/
def isidentchar (v : UInt8) : Bool := isalpha v || v = 95 || v = 36 || isdigit v

/-- `isspace`, but for the end of a line. -/
def isgap (c : UInt8) : Bool := isspace c && c != 10

/-- `while (match(scan_curr(scan)) && !scan_ended(scan)) scan_next(scan);` -/
def nextWhile (callback : UInt8 → Bool) : ℕ → Scan → Except Fault Scan
  | 0, _ => .error .depth
  | turns + 1, scan =>
    if callback (scanCurr scan) && !scanEnded scan then
      nextWhile callback turns (scanNext scan).2
    else .ok scan

/-- `while (!skip(scan) && !scan_ended(scan)) scan_next(scan);` -/
def nextUntil (skip : Scan → Bool × Scan) : ℕ → Scan → Except Fault Scan
  | 0, _ => .error .depth
  | turns + 1, scan =>
    let (skipped, scan) := skip scan
    if !skipped && !scanEnded scan then nextUntil skip turns (scanNext scan).2
    else .ok scan

/-- The loop of `clex_impl` over the keywords. -/
def clexKeyword (scan : Scan) : List (LexemeType × List UInt8) → Option (LexemeType × Scan)
  | [] => .none
  | (type, literal) :: keywords =>
    match scanSkipWord scan literal with
    | (true, scan) => some (type, scan)
    | (false, scan) => clexKeyword scan keywords

/-- What `clex_impl` does when the scanner stands behind the first quote of a character. -/
def clexCharacter (scan : Scan) : Scan :=
  let scan := if scanCurr scan != 39 then (scanNext scan).2 else scan
  (scanSkip scan 39).2

/-- `clex_impl`, from the keywords on. -/
def clexWord (turns : ℕ) (scan : Scan) : Except Fault (LexemeType × Scan) := do
  match clexKeyword scan keywords with
  | some (type, scan) => return (type, scan)
  | .none =>
    if isdigit (scanCurr scan) then
      let scan ← nextWhile isdigit turns scan
      return (.integer, scan)
    else if isidentchar (scanCurr scan) then
      let scan ← nextWhile isidentchar turns scan
      return (.ident, scan)
    else return (.invalid, scan)

/-- `clex_impl` -/
def clexImpl (turns : ℕ) (scan : Scan) : Except Fault (LexemeType × Scan) := do
  if isgap (scanCurr scan) then
    let scan ← nextWhile isgap turns scan
    return (.whitespace, scan)
  let (block, scan) := scanSkipWord scan (ascii ['/', '*'])
  if block then
    let scan ← nextUntil (scanSkipWord · (ascii ['*', '/'])) turns scan
    return (.comment, scan)
  let (line, scan) := scanSkipWord scan (ascii ['/', '/'])
  if line then
    let scan ← nextUntil (scanSkip · 10) turns scan
    return (.comment, scan)
  let (quote, scan) := scanSkipWord scan (ascii ['"'])
  if quote then
    let scan ← nextUntil (scanSkip · 34) turns scan
    return (.string, scan)
  let (quote, scan) := scanSkipWord scan [39]
  if quote then return (.character, clexCharacter scan)
  clexWord turns scan

/-- `scan_end`: the bytes from the place of a scanner to that of a later one. -/
def scanToken (start stop : Scan) : List UInt8 :=
  start.rest.take (start.rest.length - stop.rest.length)

/-- The size of a `Lexeme`: its type, and the length and the place of its bytes. -/
def lexemeSize : ℕ := 24

/-- The loop of `lex`, which drops the lexemes that its vector has no room for. -/
def lexLoop (fn : Scan → Except Fault (LexemeType × Scan)) :
    ℕ → Scan → List Lexeme → Except Fault (List Lexeme × Scan)
  | 0, _, _ => .error .depth
  | turns + 1, scan, lexemes =>
    if scanEnded scan then .ok (lexemes, scan)
    else do
      let (type, next) ← fn scan
      if type = .invalid then return (lexemes, scanThrow next)
      lexLoop fn turns next (vecPush lexemeSize lexemes ⟨type, scanToken scan next⟩)

/-- `clex`, which has more turns than there are bytes. -/
def clex (scan : Scan) : Except Fault (List Lexeme × Scan) :=
  let turns := scan.rest.length + 1
  lexLoop (clexImpl turns) turns scan []

/-- `clex` of a text, with the scanner that `scan_init` makes of it. -/
def clexText (text : List UInt8) : Except Fault (List Lexeme × Scan) := do
  let scan ← scanInit text
  clex scan

/-- `lex_collect` -/
def lexCollect (lexemes : List Lexeme) : List UInt8 := lexemes.flatMap Lexeme.str

end Brutal.Cc
