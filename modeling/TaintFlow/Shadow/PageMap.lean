import TaintFlow.Shadow.Memory
import TaintFlow.Text.Hex

/-!
# Page maps

Zero-filled memory as the operating system lends it. It comes in pages, and a page is held in store
from the first time that it is read or written; replacing pages by fresh ones drops them. A page
that was never touched reads as zero.
-/

namespace TaintFlow

/-- Why the operating system refuses to lend or to change memory. -/
inductive MapError where
  /-- No memory of this length: either it is empty, or it does not fit. -/
  | failedToMap (length : Nat)
  | failedToCommit
  | failedToExclude
  /-- There is room for fewer answers than there are pages. -/
  | residencyTooShort (pages room : Nat)
deriving DecidableEq, Repr

def MapError.message : MapError → String
  | .failedToMap length =>
    let reason :=
      if length = 0 then "Invalid argument (os error 22)"
      else "Cannot allocate memory (os error 12)"
    "Failed to map - len: " ++ Hex.text length ++ ", errno: " ++ reason
  | .failedToCommit => "Failed to commit"
  | .failedToExclude => "Failed to exclude from core dumps"
  | .residencyTooShort pages room =>
    "Residency buffer too short - pages: " ++ toString pages ++ ", len: " ++ toString room

/-- Memory lent in pages. -/
structure PageMap where
  length : Nat
  bytes : Memory
  /-- The pages that were touched, in no particular order. -/
  touched : List Nat

namespace PageMap

/-- Bytes in a page. -/
def pageSize : Nat := 4096

/-- Bytes in the address space that memory is lent from. -/
def spaceSize : Nat := 1 <<< 47

/-- The longest free block. The program itself stands at two thirds of the space, and memory is lent
below and above it. -/
def longestBlock : Nat := spaceSize / 3 * 2

/-- Fewer bytes than this follow the start of a memory before the space ends, unless the memory
itself is longer: it is lent from the end of the space downwards. -/
def roomAbove : Nat := 1 <<< 40

/-- Pages needed for some bytes. -/
def pagesOf (length : Nat) : Nat :=
  (length + pageSize - 1) / pageSize

/-- Fresh memory. -/
def create (length : Nat) : Except MapError PageMap :=
  if length = 0 ∨ longestBlock ≤ length then .error (.failedToMap length)
  else .ok ⟨length, .zero, []⟩

/-- The pages of the memory. -/
def pages (m : PageMap) : Nat :=
  pagesOf m.length

def touch (m : PageMap) (page : Nat) : PageMap :=
  { m with touched := page :: m.touched.erase page }

/-- Write a byte. -/
def write (m : PageMap) (offset : Nat) (value : UInt8) : PageMap :=
  { m.touch (offset / pageSize) with bytes := m.bytes.write offset value }

/-- Read a byte. -/
def read (m : PageMap) (offset : Nat) : UInt8 × PageMap :=
  (m.bytes.read offset, m.touch (offset / pageSize))

/-- Read everything; returns the non-zero bytes with their positions. -/
def readAll (m : PageMap) : List (Nat × UInt8) × PageMap :=
  (m.bytes.support.map fun i => (i, m.bytes.read i), { m with touched := List.range m.pages })

/-- Replace pages by fresh ones. The start has to be that of a page, and the pages have to lie in
the address space. -/
def commit (m : PageMap) (offset length : Nat) : Except MapError PageMap :=
  if offset % pageSize ≠ 0 ∨ length = 0 then .error .failedToCommit
  else if max roomAbove (m.pages * pageSize + 1) ≤ offset + length then .error .failedToCommit
  else
    let first := offset / pageSize
    let count := pagesOf length
    .ok { m with
      bytes := m.bytes.zeroFill offset (count * pageSize)
      touched := m.touched.filter fun p => !(decide (first ≤ p) && decide (p < first + count)) }

/-- Leave pages out of core dumps. The start has to be that of a page of the memory. -/
def exclude (m : PageMap) (offset length : Nat) : Except MapError Unit :=
  if offset % pageSize ≠ 0 then .error .failedToExclude
  else if length ≠ 0 ∧ m.pages * pageSize < offset + length then .error .failedToExclude
  else .ok ()

/-- Which pages are held in store, written to `room` places of which those behind the last page stay
unset. -/
def resident (m : PageMap) (room : Nat) : Except MapError (List Bool) :=
  if room < m.pages then .error (.residencyTooShort m.pages room)
  else .ok ((List.range room).map fun p => decide (p < m.pages) && m.touched.contains p)

end PageMap
end TaintFlow
