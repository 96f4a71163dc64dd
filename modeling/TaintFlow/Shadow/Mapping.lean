/-!
# Mappings

The operating system lends the memory that a shadow lives in. It may refuse any request, and it
answers which pages of the lent memory it holds in store. A mapping describes these answers; the
bytes themselves are kept by the shadow.
-/

namespace TaintFlow

/-- A request to the operating system. -/
inductive MapRequest where
  /-- Lend writable memory. -/
  | map
  /-- Lend memory that can only be read. -/
  | reserve
  /-- Replace a region of reserved memory by writable, zero-filled memory. -/
  | commit (region : Nat)
  /-- Leave the memory out of core dumps. -/
  | dontDump
  /-- Tell which pages are held in store. -/
  | resident
deriving DecidableEq, Repr

/-- The name under which a refusal is reported. -/
def MapRequest.name : MapRequest → String
  | .map => "Map"
  | .reserve => "Reserve"
  | .commit _ => "Commit"
  | .dontDump => "DontDump"
  | .resident => "Resident"

/-- How the operating system answers. -/
structure Mapping where
  refuses : MapRequest → Bool
  pageSize : Nat
  pageSize_pos : 0 < pageSize
  /-- Whether a page is held in store. -/
  resident : Nat → Bool

namespace Mapping

/-- Grants everything and holds every page. -/
def granting : Mapping where
  refuses := fun _ => false
  pageSize := 4096
  pageSize_pos := by decide
  resident := fun _ => true

/-- Whether some page that overlaps the `length` bytes from `start` is held in store. -/
def anyResident (m : Mapping) (start length : Nat) : Bool :=
  let firstPage := start / m.pageSize
  let endPage := (start + length + m.pageSize - 1) / m.pageSize
  (List.range (endPage - firstPage)).any fun k => m.resident (firstPage + k)

end Mapping
end TaintFlow
