/-!
# Hexadecimal text

Numbers are written in lower case, without leading zeros unless a width is asked for, and read in
either case. A number that is read has to fit into 64 bits.
-/

namespace TaintFlow.Hex

/-- The digits of `n`, most significant first. -/
def digits (n : Nat) : List Char :=
  Nat.toDigits 16 n

/-- The digits of `n`, filled up with zeros on the left to at least `width`. -/
def padded (width n : Nat) : List Char :=
  List.replicate (width - (digits n).length) '0' ++ digits n

/-- A number with its radix mark, as in `0x1f`. -/
def text (n : Nat) : String :=
  "0x" ++ String.ofList (digits n)

/-- The value of one digit in either case. -/
def digitValue? (c : Char) : Option Nat :=
  if '0' ≤ c ∧ c ≤ '9' then some (c.toNat - '0'.toNat)
  else if 'a' ≤ c ∧ c ≤ 'f' then some (c.toNat - 'a'.toNat + 10)
  else if 'A' ≤ c ∧ c ≤ 'F' then some (c.toNat - 'A'.toNat + 10)
  else none

/-- The value of a sequence of digits read after `value`. -/
def foldDigits? (value : Nat) : List Char → Option Nat
  | [] => some value
  | c :: rest =>
    match digitValue? c with
    | some d => foldDigits? (16 * value + d) rest
    | none => none

/-- The 64-bit number written by `cs`. At least one digit is needed and one leading plus sign is
allowed. -/
def word? (cs : List Char) : Option UInt64 :=
  let unsigned :=
    match cs with
    | '+' :: rest => rest
    | _ => cs
  if unsigned.isEmpty then none
  else
    match foldDigits? 0 unsigned with
    | some n => if n < UInt64.size then some (UInt64.ofNat n) else none
    | none => none

end TaintFlow.Hex
