import TaintFlow.Text.Hex

/-!
# Quoted text

Four ways to quote text: basic strings with escapes and literal strings without, each on one line or
on several. The readers start behind the opening quotes and return the text with the rest of the
input. The writer takes the first way that needs no escapes, and a basic string if every way needs
some. On several lines up to two quotes in a row may stand in the text, since only three close it.
-/

namespace TaintFlow.Toml

/-- A space or a tabulator. -/
def isBlank (c : Char) : Bool :=
  c == ' ' || c == '\t'

/-- A character that may stand in a comment or a literal string: all but control characters. -/
def isPlain (c : Char) : Bool :=
  c == '\t' || (decide (' ' ≤ c) && c != '\x7f')

/-- The character that an escape letter stands for. -/
def escaped? : Char → Option Char
  | 'b' => some '\x08'
  | 't' => some '\t'
  | 'n' => some '\n'
  | 'f' => some '\x0c'
  | 'r' => some '\r'
  | '"' => some '"'
  | '\\' => some '\\'
  | _ => none

/-- The character with the given hexadecimal number. -/
def scalar? (digits : List Char) : Option Char := do
  let n ← Hex.foldDigits? 0 digits
  if n.isValidChar then some (Char.ofNat n) else none

/-- Put a character in front of a text that was read. -/
def consText (c : Option Char) (read : Option (List Char × List Char)) :
    Option (List Char × List Char) := do
  let c ← c
  let (text, rest) ← read
  return (c :: text, rest)

/-! ## Reading -/

/-- Read a basic string up to its quote. -/
def basicText : List Char → Option (List Char × List Char)
  | [] => none
  | '"' :: rest => some ([], rest)
  | '\\' :: 'u' :: a :: b :: c :: d :: rest => consText (scalar? [a, b, c, d]) (basicText rest)
  | '\\' :: 'U' :: a :: b :: c :: d :: e :: f :: g :: h :: rest =>
    consText (scalar? [a, b, c, d, e, f, g, h]) (basicText rest)
  | '\\' :: e :: rest => consText (escaped? e) (basicText rest)
  | c :: rest => if isPlain c then consText (some c) (basicText rest) else none

/-- Where the reader of a basic string on several lines stands. -/
inductive LineMode where
  | text
  /-- Behind a backslash that ends its line. -/
  | lineEnd
  /-- In the blank space that such a backslash swallows. -/
  | swallow

/-- Up to two quotes may stand in front of the three that close a string. -/
def closing (quote : Char) : List Char → List Char × List Char
  | a :: b :: rest =>
    if a = quote then if b = quote then ([quote, quote], rest) else ([quote], b :: rest)
    else ([], a :: b :: rest)
  | [a] => if a = quote then ([quote], []) else ([], [a])
  | [] => ([], [])

/-- Read a basic string on several lines up to its quotes. -/
def basicLines : LineMode → List Char → Option (List Char × List Char)
  | _, [] => none
  | .lineEnd, c :: rest =>
    if isBlank c || (c == '\r' && rest.head? == some '\n') then basicLines .lineEnd rest
    else if c == '\n' then basicLines .swallow rest
    else none
  | mode, c :: rest =>
    let swallowing :=
      match mode with
      | .swallow => true
      | _ => false
    if c == '\r' then
      if rest.head? == some '\n' then basicLines mode rest else none
    else if swallowing && (isBlank c || c == '\n') then basicLines .swallow rest
    else if c == '"' then
      match rest with
      | '"' :: '"' :: rest => some (closing '"' rest)
      | _ => consText (some '"') (basicLines .text rest)
    else if c == '\\' then
      match rest with
      | 'u' :: a :: b :: c :: d :: rest => consText (scalar? [a, b, c, d]) (basicLines .text rest)
      | 'U' :: a :: b :: c :: d :: e :: f :: g :: h :: rest =>
        consText (scalar? [a, b, c, d, e, f, g, h]) (basicLines .text rest)
      | e :: rest =>
        if isBlank e || (e == '\r' && rest.head? == some '\n') then basicLines .lineEnd rest
        else if e == '\n' then basicLines .swallow rest
        else consText (escaped? e) (basicLines .text rest)
      | [] => none
    else if isPlain c || c == '\n' then consText (some c) (basicLines .text rest)
    else none

/-- Read a literal string up to its quote. -/
def literalText : List Char → Option (List Char × List Char)
  | [] => none
  | '\'' :: rest => some ([], rest)
  | c :: rest => if isPlain c then consText (some c) (literalText rest) else none

/-- Read a literal string on several lines up to its quotes. -/
def literalLines : List Char → Option (List Char × List Char)
  | [] => none
  | '\'' :: '\'' :: '\'' :: rest => some (closing '\'' rest)
  | '\r' :: rest => if rest.head? == some '\n' then literalLines rest else none
  | c :: rest => if isPlain c || c == '\n' then consText (some c) (literalLines rest) else none

/-- Skip the line end that may follow the opening quotes of a string on several lines. -/
def skipFirstLineEnd : List Char → List Char
  | '\n' :: rest => rest
  | '\r' :: '\n' :: rest => rest
  | cs => cs

/-- Read a quoted text of any kind, opening quotes included. -/
def quotedText : List Char → Option (List Char × List Char)
  | '"' :: '"' :: '"' :: rest => basicLines .text (skipFirstLineEnd rest)
  | '"' :: rest => basicText rest
  | '\'' :: '\'' :: '\'' :: rest => literalLines (skipFirstLineEnd rest)
  | '\'' :: rest => literalText rest
  | _ => none

/-! ## Writing -/

/-- The length of the longest run of `c`. -/
def longestRun (c : Char) : Nat → List Char → Nat
  | run, [] => run
  | run, d :: rest => if d = c then longestRun c (run + 1) rest else max run (longestRun c 0 rest)

/-- The ways to quote a text. -/
inductive Quoting where
  | basic
  | literal
  | basicLines
  | literalLines
deriving DecidableEq, Repr

/-- The way to quote a text. Control characters need escapes in all of them, backslashes in the
basic ones, and a line end asks for several lines. -/
def Quoting.of (cs : List Char) : Quoting :=
  let hasControl := cs.any fun c => !isPlain c && c != '\n'
  let needsEscape := hasControl || cs.contains '\\'
  let hasLineEnd := cs.contains '\n'
  let quotes := longestRun '"' 0 cs
  let apostrophes := longestRun '\'' 0 cs
  if !needsEscape && quotes == 0 && !hasLineEnd then .basic
  else if !hasControl && apostrophes == 0 && !hasLineEnd then .literal
  else if !needsEscape && decide (quotes < 3) then .basicLines
  else if !hasControl && decide (apostrophes < 3) then .literalLines
  else if hasLineEnd then .basicLines
  else .basic

/-- A character of a basic string other than a quote; line ends stay as they are on several
lines. -/
def escapeChar (severalLines : Bool) (c : Char) : List Char :=
  match c with
  | '\x08' => ['\\', 'b']
  | '\t' => ['\\', 't']
  | '\n' => if severalLines then ['\n'] else ['\\', 'n']
  | '\x0c' => ['\\', 'f']
  | '\r' => ['\\', 'r']
  | '\\' => ['\\', '\\']
  | _ =>
    if isPlain c then [c]
    else '\\' :: 'u' :: (Hex.padded 4 c.toNat).map Char.toUpper

/-- The body of a basic string, behind `run` quotes in a row that are not escaped. On several lines
every third quote in a row is escaped, on one line every quote. -/
def escape (severalLines : Bool) : Nat → List Char → List Char
  | _, [] => []
  | run, c :: rest =>
    if c = '"' then
      if severalLines && decide (run < 2) then '"' :: escape severalLines (run + 1) rest
      else '\\' :: '"' :: escape severalLines 0 rest
    else escapeChar severalLines c ++ escape severalLines 0 rest

/-- A text with its quotes. A text with line ends starts on a line of its own. -/
def quote (text : String) : String :=
  let cs := text.toList
  let opening := if cs.contains '\n' then "\n" else ""
  match Quoting.of cs with
  | .basic => "\"" ++ String.ofList (escape false 0 cs) ++ "\""
  | .literal => "'" ++ text ++ "'"
  | .basicLines => "\"\"\"" ++ opening ++ String.ofList (escape true 0 cs) ++ "\"\"\""
  | .literalLines => "'''" ++ opening ++ text ++ "'''"

end TaintFlow.Toml
