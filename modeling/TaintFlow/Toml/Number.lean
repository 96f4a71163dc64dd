import TaintFlow.Text.Hex
import TaintFlow.Toml.Value

/-!
# Numbers and dates

The forms of integers, fractional numbers, dates and times. Integers have to fit into 64 bits, and a
fractional number must not be so large that it would round to infinity.
-/

namespace TaintFlow.Toml

/-- Digits that may be grouped by single underscores: the digits themselves, and the rest. -/
def groupedDigits (isDigit : Char → Bool) : List Char → List Char × List Char
  | [] => ([], [])
  | '_' :: c :: rest =>
    if isDigit c then
      let (more, rest) := groupedDigits isDigit rest
      (c :: more, rest)
    else ([], '_' :: c :: rest)
  | c :: rest =>
    if isDigit c then
      let (more, rest) := groupedDigits isDigit rest
      (c :: more, rest)
    else ([], c :: rest)

/-- At least one digit, the first not an underscore. -/
def digits? (isDigit : Char → Bool) (cs : List Char) : Option (List Char × List Char) :=
  match cs with
  | c :: _ => if isDigit c then some (groupedDigits isDigit cs) else none
  | [] => none

/-- The value of decimal digits. -/
def decimalValue (digits : List Char) : Nat :=
  digits.foldl (fun n c => 10 * n + (c.toNat - '0'.toNat)) 0

/-- A sign, which is negative for `true`. -/
def sign : List Char → Bool × List Char
  | '-' :: rest => (true, rest)
  | '+' :: rest => (false, rest)
  | cs => (false, cs)

/-- The magnitude of a decimal integer, without superfluous leading zeros. -/
def decimal? : List Char → Option (List Char × List Char)
  | '0' :: rest => some (['0'], rest)
  | cs => digits? Char.isDigit cs

/-- An integer, if it fits into 64 bits. -/
def integerOf? (negative : Bool) (magnitude : Nat) : Option Value :=
  let n : Int := if negative then -(magnitude : Int) else magnitude
  if Int64.minValue.toInt ≤ n ∧ n ≤ Int64.maxValue.toInt then some (.integer n) else none

/-- An integer in a radix that is a power of two, without sign. -/
def radix? (radix : Nat) (isDigit : Char → Bool) (cs : List Char) : Option (Value × List Char) := do
  let (digits, rest) ← digits? isDigit cs
  let value := digits.foldl (fun n c => radix * n + (Hex.digitValue? c).getD 0) 0
  return (← integerOf? false value, rest)

def integer? : List Char → Option (Value × List Char)
  | '0' :: 'x' :: rest => radix? 16 (fun c => (Hex.digitValue? c).isSome) rest
  | '0' :: 'o' :: rest => radix? 8 (fun c => decide ('0' ≤ c ∧ c ≤ '7')) rest
  | '0' :: 'b' :: rest => radix? 2 (fun c => c == '0' || c == '1') rest
  | cs => do
    let (negative, cs) := sign cs
    let (digits, rest) ← decimal? cs
    return (← integerOf? negative (decimalValue digits), rest)

/-- Whether `mantissa * 10 ^ exponent` rounds to a finite double. -/
def isFinite (mantissa : Nat) (exponent : Int) : Bool :=
  let magnitude : Int := (Nat.toDigits 10 mantissa).length + exponent
  if mantissa = 0 || magnitude < 300 then true
  else if magnitude > 400 then false
  else
    let limit := 1 <<< 1024 - 1 <<< 970
    if exponent < 0 then decide (mantissa < limit * Nat.pow 10 exponent.natAbs)
    else decide (mantissa * Nat.pow 10 exponent.natAbs < limit)

/-- The exponent part of a number. -/
def exponent? : List Char → Option (Int × List Char)
  | c :: rest => do
    guard (c == 'e' || c == 'E')
    let (negative, rest) := sign rest
    let (digits, rest) ← digits? Char.isDigit rest
    let value : Int := decimalValue digits
    return (if negative then -value else value, rest)
  | [] => none

/-- A number with a fraction, an exponent or both, or one of the special names. -/
def float? (cs : List Char) : Option (Value × List Char) := do
  let (negative, cs) := sign cs
  match cs with
  | 'i' :: 'n' :: 'f' :: rest => return (.float, rest)
  | 'n' :: 'a' :: 'n' :: rest => return (.float, rest)
  | _ =>
    let (whole, cs) ← decimal? cs
    let (fraction, exponent, rest) ←
      match cs with
      | '.' :: cs => do
        let (fraction, cs) ← digits? Char.isDigit cs
        match exponent? cs with
        | some (e, rest) => some (fraction, e, rest)
        | none => some (fraction, 0, cs)
      | _ => do
        let (e, rest) ← exponent? cs
        some ([], e, rest)
    guard (negative || isFinite (decimalValue (whole ++ fraction)) (exponent - fraction.length))
    return (.float, rest)

/-! ## Dates and times -/

/-- Exactly `n` decimal digits, as a number within bounds. -/
def field? (n low high : Nat) (cs : List Char) : Option (Nat × List Char) := do
  let digits := cs.take n
  guard (digits.length = n && digits.all Char.isDigit)
  let value := decimalValue digits
  guard (low ≤ value && value ≤ high)
  return (value, cs.drop n)

/-- A given character. -/
def char? (c : Char) : List Char → Option (List Char)
  | d :: rest => if d = c then some rest else none
  | [] => none

/-- The number of days in a month. -/
def daysIn (year month : Nat) : Nat :=
  if month = 2 then if year % 4 = 0 && (year % 100 != 0 || year % 400 = 0) then 29 else 28
  else if month = 4 || month = 6 || month = 9 || month = 11 then 30
  else 31

def date? (cs : List Char) : Option (List Char) := do
  let (year, cs) ← field? 4 0 9999 cs
  let cs ← char? '-' cs
  let (month, cs) ← field? 2 1 12 cs
  let cs ← char? '-' cs
  let (_, cs) ← field? 2 1 (daysIn year month) cs
  return cs

def time? (cs : List Char) : Option (List Char) := do
  let (_, cs) ← field? 2 0 23 cs
  let cs ← char? ':' cs
  let (_, cs) ← field? 2 0 59 cs
  let cs ← char? ':' cs
  let (_, cs) ← field? 2 0 60 cs
  match cs with
  | '.' :: rest =>
    if rest.head?.any Char.isDigit then return rest.dropWhile Char.isDigit else return cs
  | _ => return cs

/-- The distance from universal time. -/
def zone? : List Char → Option (List Char)
  | [] => none
  | c :: rest =>
    if c == 'Z' || c == 'z' then some rest
    else if c == '+' || c == '-' then do
      let (_, rest) ← field? 2 0 23 rest
      let rest ← char? ':' rest
      let (_, rest) ← field? 2 0 59 rest
      return rest
    else none

/-- A date, a time, or both with or without a zone. -/
def datetime? (cs : List Char) : Option (Value × List Char) :=
  match date? cs with
  | none => (time? cs).map fun rest => (.datetime, rest)
  | some rest =>
    let withTime :=
      match rest with
      | c :: cs => if c == 'T' || c == 't' || c == ' ' then time? cs else none
      | [] => none
    match withTime with
    | none => some (.datetime, rest)
    | some rest => some (.datetime, (zone? rest).getD rest)

/-- A number or a date. -/
def number? (cs : List Char) : Option (Value × List Char) :=
  datetime? cs <|> float? cs <|> integer? cs

end TaintFlow.Toml
