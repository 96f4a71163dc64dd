import TaintFlow.Dump.Format

/-!
# Reading dumps

A reader checks the header and then yields record after record. The first record that cannot be read
ends the dump; its error tells how far the reader had come.
-/

namespace TaintFlow.Dump

/-- Why a dump cannot be read. -/
inductive ReadError where
  /-- The first line is not text. -/
  | notText
  | badHeader
  /-- A record cannot be read; the offset is where the reader stopped. -/
  | malformed (offset : Nat)
deriving DecidableEq, Repr

def ReadError.message : ReadError → String
  | .notText => "stream did not contain valid UTF-8"
  | .badHeader => "Missing dump header"
  | .malformed offset => "Malformed record at offset " ++ Hex.text offset

/-- The most bytes that one buffer can have, the greatest signed number of 64 bits. -/
def longestBuffer : Nat := 0x7fffffffffffffff

/-- How many tags the regions of a dump have. The tags of a region are read together with the line
end behind them, so there has to be a buffer for both. -/
structure RegionSize where
  tags : Nat
  buffered : tags + 1 ≤ longestBuffer := by decide

def RegionSize.ofNat? (tags : Nat) : Option RegionSize :=
  if h : tags + 1 ≤ longestBuffer then some ⟨tags, h⟩ else none

/-- A dump that has been read up to some offset. -/
structure Reader where
  rest : List UInt8
  offset : Nat
  regionSize : RegionSize
  finished : Bool

namespace Reader

/-- Everything up to and including the first `stop`, and what follows. -/
def splitAfter (stop : UInt8) : List UInt8 → List UInt8 × List UInt8
  | [] => ([], [])
  | b :: rest =>
    if b = stop then ([b], rest)
    else
      let (taken, rest) := splitAfter stop rest
      (b :: taken, rest)

/-- Check the header of a dump with regions of a given size. -/
def start (input : List UInt8) (regionSize : RegionSize) : Except ReadError Reader :=
  let (line, rest) := splitAfter lineEnd input
  if line = header then .ok ⟨rest, line.length, regionSize, false⟩
  else if ByteArray.validateUTF8 ⟨line.toArray⟩ then .error .badHeader
  else .error .notText

/-- Read a word that is closed by a space. -/
def token : Action Reader ReadError (List UInt8) :=
  fun r =>
    let (word, rest) := splitAfter space r.rest
    let r := { r with rest, offset := r.offset + word.length }
    if word.getLast? = some space then .ok word.dropLast r else .error (.malformed r.offset) r

/-- Read a named address. -/
def field (name : List UInt8) : Action Reader ReadError Address := do
  let word ← token
  if word != name then
    throw (.malformed (← get).offset)
  let digits ← token
  match Hex.word? (digits.map fun b => Char.ofNat b.toNat) with
  | some a => return a
  | none => throw (.malformed (← get).offset)

/-- Read tags and the line end behind them. -/
def body : Action Reader ReadError (List Tag) :=
  fun r =>
    let buffer := r.regionSize.tags + 1
    let taken := r.rest.take buffer
    if taken.length < buffer then .error (.malformed r.offset) r
    else
      let r := { r with rest := r.rest.drop buffer, offset := r.offset + buffer }
      if taken.getLast? = some lineEnd then .ok taken.dropLast r
      else .error (.malformed r.offset) r

/-- Read a record. -/
def record : Action Reader ReadError Region := do
  let appBase ← field appField
  let shadowBase ← field shadowField
  let tags ← body
  return ⟨appBase, shadowBase, tags⟩

/-- The next record or the error that ends the dump; `none` behind the end. -/
def next (r : Reader) : Option (Except ReadError Region) × Reader :=
  if r.finished then (none, r)
  else if r.rest.isEmpty then (none, { r with finished := true })
  else
    match record r with
    | .ok region r => (some (.ok region), r)
    | .error e r => (some (.error e), { r with finished := true })

/-- At most `limit` further items, and the reader behind them. -/
def upTo : Nat → Reader → List (Except ReadError Region) × Reader
  | 0, r => ([], r)
  | limit + 1, r =>
    match r.next with
    | (none, r) => ([], r)
    | (some item, r) =>
      let (items, r) := upTo limit r
      (item :: items, r)

/-- All further items, and the reader behind them. Every record takes at least one byte. -/
def items (r : Reader) : List (Except ReadError Region) × Reader :=
  upTo (r.rest.length + 1) r

end Reader
end TaintFlow.Dump
