import TaintFlow.Toml.Number
import TaintFlow.Toml.Text

/-!
# Documents

A document is a sequence of lines: blank ones, comments, headers and key-value pairs. Values may
nest, to a limited depth. What is no document is refused as a whole.
-/

namespace TaintFlow.Toml

/-- The deepest nesting of arrays and inline tables, and the longest dotted key. -/
def depthLimit : Nat := 79

/-! ## Space -/

def skipBlanks (cs : List Char) : List Char :=
  cs.dropWhile isBlank

/-- Skip a comment up to the end of its line. -/
def skipComment : List Char → List Char
  | '#' :: rest => rest.dropWhile isPlain
  | cs => cs

/-- The end of a line, behind blanks and a comment. -/
def lineEnd? (cs : List Char) : Option (List Char) :=
  match skipComment (skipBlanks cs) with
  | [] => some []
  | '\n' :: rest => some rest
  | '\r' :: '\n' :: rest => some rest
  | _ => none

/-- Skip blanks, line ends and whole comments inside an array. -/
def filler? : Bool → List Char → Option (List Char)
  | inComment, [] => if inComment then none else some []
  | inComment, c :: rest =>
    if c == '\n' then filler? false rest
    else if c == '\r' then if rest.head? == some '\n' then filler? inComment rest else none
    else if inComment then if isPlain c then filler? true rest else none
    else if isBlank c then filler? false rest
    else if c == '#' then filler? true rest
    else some (c :: rest)

/-! ## Keys -/

/-- A character of a key without quotes. -/
def isBare (c : Char) : Bool :=
  c.isAlphanum || c == '-' || c == '_'

/-- One part of a key. -/
def simpleKey? (cs : List Char) : Option (String × List Char) :=
  match cs with
  | '"' :: rest => (basicText rest).map fun (text, rest) => (String.ofList text, rest)
  | '\'' :: rest => (literalText rest).map fun (text, rest) => (String.ofList text, rest)
  | _ =>
    let bare := cs.takeWhile isBare
    if bare.isEmpty then none else some (String.ofList bare, cs.dropWhile isBare)

/-- A key of at most `limit` parts, with the blanks around it. -/
def key? : Nat → List Char → Option (List String × List Char)
  | 0, _ => none
  | limit + 1, cs => do
    let (part, cs) ← simpleKey? (skipBlanks cs)
    match skipBlanks cs with
    | '.' :: cs => do
      let (parts, cs) ← key? limit cs
      return (part :: parts, cs)
    | cs => return ([part], cs)

/-! ## Values -/

mutual

/-- A value, given how much deeper values may nest. -/
def value? : Nat → Nat → List Char → Option (Value × List Char)
  | 0, _, _ => none
  | fuel + 1, depth, cs =>
    match cs with
    | '"' :: _ => (quotedText cs).map fun (text, rest) => (.string (String.ofList text), rest)
    | '\'' :: _ => (quotedText cs).map fun (text, rest) => (.string (String.ofList text), rest)
    | 't' :: 'r' :: 'u' :: 'e' :: rest => some (.boolean true, rest)
    | 'f' :: 'a' :: 'l' :: 's' :: 'e' :: rest => some (.boolean false, rest)
    | '[' :: rest =>
      match depth with
      | 0 => none
      | depth + 1 => (items? fuel depth rest).map fun (items, rest) => (.array items, rest)
    | '\x7b' :: rest =>
      match depth with
      | 0 => none
      | depth + 1 => do
        let (pairs, rest) ← pairs? fuel depth rest
        return (.table .inline (← Entries.defineAll [] pairs), rest)
    | _ => number? cs

/-- The items of an array up to its bracket. -/
def items? : Nat → Nat → List Char → Option (List Value × List Char)
  | 0, _, _ => none
  | fuel + 1, depth, cs => do
    match ← filler? false cs with
    | ']' :: rest => return ([], rest)
    | cs =>
      let (item, cs) ← value? fuel depth cs
      match ← filler? false cs with
      | ',' :: cs => do
        let (items, rest) ← items? fuel depth cs
        return (item :: items, rest)
      | ']' :: rest => return ([item], rest)
      | _ => none

/-- The pairs of an inline table up to its brace. -/
def pairs? : Nat → Nat → List Char → Option (List (List String × Value) × List Char)
  | 0, _, _ => none
  | fuel + 1, depth, cs =>
    match skipBlanks cs with
    | '\x7d' :: rest => some ([], rest)
    | cs => morePairs? fuel depth cs

/-- At least one further pair of an inline table. -/
def morePairs? : Nat → Nat → List Char → Option (List (List String × Value) × List Char)
  | 0, _, _ => none
  | fuel + 1, depth, cs => do
    let (key, cs) ← key? depthLimit cs
    let cs ← char? '=' cs
    let (v, cs) ← value? fuel depth (skipBlanks cs)
    match skipBlanks cs with
    | ',' :: cs => do
      let (pairs, rest) ← morePairs? fuel depth cs
      return ((key, v) :: pairs, rest)
    | '\x7d' :: rest => return ([(key, v)], rest)
    | _ => none

end

/-! ## Lines -/

/-- A line of a document. -/
inductive Line where
  | empty
  | header (h : Header)
  | pair (key : List String) (v : Value)

/-- One line, and what follows it. -/
def line? (cs : List Char) : Option (Line × List Char) :=
  match skipBlanks cs with
  | '[' :: '[' :: rest => do
    let (path, rest) ← key? depthLimit rest
    let rest ← char? ']' rest
    let rest ← char? ']' rest
    return (.header (.element path), ← lineEnd? rest)
  | '[' :: rest => do
    let (path, rest) ← key? depthLimit rest
    let rest ← char? ']' rest
    return (.header (.table path), ← lineEnd? rest)
  | cs =>
    match lineEnd? cs with
    | some rest => some (.empty, rest)
    | none => do
      let (key, cs) ← key? depthLimit cs
      let cs ← char? '=' cs
      let cs := skipBlanks cs
      let (v, rest) ← value? (4 * cs.length + 1) depthLimit cs
      return (.pair key v, ← lineEnd? rest)

/-- At most `limit` lines, which have to make up the whole input. -/
def lines? : Nat → List Char → Option (List Line)
  | _, [] => some []
  | 0, _ => none
  | limit + 1, cs => do
    let (line, rest) ← line? cs
    return line :: (← lines? limit rest)

/-- Gather lines into sections; `current` is the section that is being filled. -/
def sectionsFrom (current : Section) : List Line → List Section
  | [] => [current]
  | .empty :: rest => sectionsFrom current rest
  | .header h :: rest => current :: sectionsFrom ⟨h, []⟩ rest
  | .pair key v :: rest =>
    sectionsFrom { current with pairs := current.pairs ++ [(key, v)] } rest

/-- The table that a document describes. A byte order mark in front is ignored. -/
def read? (document : String) : Option Entries := do
  let cs :=
    match document.toList with
    | '\ufeff' :: rest => rest
    | cs => cs
  let lines ← lines? (cs.length + 1) cs
  Entries.ofSections (sectionsFrom ⟨.root, []⟩ lines)

end TaintFlow.Toml
