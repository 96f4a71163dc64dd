import TaintFlow.Action
import TaintFlow.Text.Hex
import TaintFlow.Shadow.Mapping
import TaintFlow.Shadow.Memory
import TaintFlow.Shadow.RegionSet
import TaintFlow.Shadow.Window

/-!
# The shadow store

The store holds the tags of application memory. A lazy store reserves its memory read-only and
commits a private copy of a region when the region is first written; what is not private still reads
as zero. A dense store owns writable memory from the start and notes which regions were written
through it. Both translate addresses alike, so code that works against one works against the other.

A failed operation leaves the store as it was.
-/

namespace TaintFlow

/-- Which kind of store to use. -/
inductive Backend where
  | lazy
  | dense
deriving DecidableEq, Repr

/-- Who owns the memory behind a shadow address. -/
inductive PageKind where
  /-- Read-only memory that all untouched regions share; writing it faults. -/
  | shared
  /-- Writable memory of the region. -/
  | owned
deriving DecidableEq, Repr

def PageKind.name : PageKind → String
  | .shared => "shared"
  | .owned => "private"

/-- A region with its tags, as visitors see it. -/
structure Region where
  appBase : Address
  shadowBase : Address
  tags : List Tag
deriving DecidableEq

/-- Show regions to a visitor until it answers `false`. -/
def Region.visitEach {σ : Type} (visitor : σ → Region → σ × Bool) : σ → List Region → σ
  | acc, [] => acc
  | acc, r :: rest =>
    match visitor acc r with
    | (acc, true) => visitEach visitor acc rest
    | (acc, false) => acc

/-- Why a store refuses an operation. -/
inductive ShadowError where
  /-- The address is not an application address that the layout covers. -/
  | invalidAddress (a : Address)
  /-- The operating system refused a request. -/
  | mapping (request : MapRequest)
  /-- A region that was private already has been committed again. -/
  | committedTwice (regionBase : Address)
deriving DecidableEq

namespace ShadowError

/-- The error written as a term. -/
def term : ShadowError → String
  | .invalidAddress a => "InvalidAddress(" ++ toString a.toNat ++ ")"
  | .mapping r => "MmapError(" ++ r.name ++ ")"
  | .committedTwice a => "DoubleMaterialization(" ++ toString a.toNat ++ ")"

def message : ShadowError → String
  | .invalidAddress a => "Invalid application address: " ++ Hex.text a.toNat
  | .mapping r => "Failed to map shadow: " ++ r.name
  | .committedTwice a => "Region " ++ Hex.text a.toNat ++ " was materialized twice"

end ShadowError

/-- The bookkeeping of the two kinds of store. -/
inductive Backing where
  /-- The private regions, and how many commits have succeeded. -/
  | lazy (owned : RegionSet) (commits : Nat)
  /-- The regions written through the store; inline code writes without telling. -/
  | dense (touched : RegionSet)

/-- The tags of application memory. -/
structure Store where
  window : Window
  mapping : Mapping
  bytes : Memory
  backing : Backing

namespace Store

def layout (s : Store) : Layout :=
  s.window.layout

/-- Obtain memory for a new store, in which every tag is zero. -/
def create (backend : Backend) (window : Window) (mapping : Mapping) : Except ShadowError Store :=
  let request : MapRequest :=
    match backend with
    | .lazy => .reserve
    | .dense => .map
  let marks := RegionSet.empty window.layout.regions
  let backing : Backing :=
    match backend with
    | .lazy => .lazy marks 0
    | .dense => .dense marks
  if mapping.refuses request then .error (.mapping request)
  else if mapping.refuses .dontDump then .error (.mapping .dontDump)
  else .ok ⟨window, mapping, .zero, backing⟩

/-! ## Looking -/

/-- The position of the tag of an application address. -/
def offsetOf (s : Store) (a : Address) : Except ShadowError Nat :=
  match s.window.offset? a with
  | some o => .ok o
  | none => .error (.invalidAddress a)

/-- The shadow address of the tag of an application address. -/
def translate (s : Store) (a : Address) : Except ShadowError Address :=
  (s.offsetOf a).map s.window.addressOf

/-- The tag of an application address. -/
def tagOf (s : Store) (a : Address) : Except ShadowError Tag :=
  (s.offsetOf a).map s.bytes.read

/-- Who owns the memory of a region. -/
def regionKind (s : Store) (region : Nat) : PageKind :=
  match s.backing with
  | .lazy owned _ => if owned.contains region then .owned else .shared
  | .dense _ => .owned

/-- Who owns the memory at a shadow address, `none` outside the shadow. -/
def pageKind (s : Store) (shadow : Address) : Option PageKind :=
  (s.window.locate? shadow).map fun o => s.regionKind (s.layout.regionOf o)

/-- The byte at a shadow address, `none` outside the shadow. -/
def byteAt? (s : Store) (shadow : Address) : Option Tag :=
  (s.window.locate? shadow).map s.bytes.read

/-! ## Writing -/

/-- Write a byte at a shadow address directly, as a machine store does. The page has to be owned. -/
def pokeByte (s : Store) (shadow : Address) (t : Tag) : Store :=
  match s.window.locate? shadow with
  | some o => { s with bytes := s.bytes.write o t }
  | none => s

/-- Give a region writable memory. A lazy store commits it unless it is private already. -/
def materializeRegion (region : Nat) : Action Store ShadowError Unit :=
  fun s =>
    match s.backing with
    | .dense touched => .ok () { s with backing := .dense (touched.insert region) }
    | .lazy owned commits =>
      if owned.contains region then .ok () s
      else if s.mapping.refuses (.commit region) then .error (.mapping (.commit region)) s
      else
        let size := s.layout.regionSize
        let s := { s with bytes := s.bytes.zeroFill (region * size) size }
        match owned.mark region with
        | (true, owned) => .ok () { s with backing := .lazy owned (commits + 1) }
        | (false, _) => .error (.committedTwice (s.window.regionBase region)) s

/-- Give the region of an application address writable memory; returns the shadow address of the
tag. -/
def materialize (a : Address) : Action Store ShadowError Address :=
  fun s =>
    match s.offsetOf a with
    | .error e => .error e s
    | .ok o =>
      match materializeRegion (s.layout.regionOf o) s with
      | .error e s => .error e s
      | .ok () s => .ok (s.window.addressOf o) s

/-- Set the tag of an application address. -/
def setTag (a : Address) (t : Tag) : Action Store ShadowError Unit :=
  fun s =>
    match materialize a s with
    | .error e s => .error e s
    | .ok shadow s => .ok () (s.pokeByte shadow t)

/-! ## Visiting -/

/-- A region as visitors see it. -/
def region (s : Store) (i : Nat) : Region where
  appBase := s.layout.regionStart i
  shadowBase := s.window.regionBase i
  tags := s.bytes.slice (i * s.layout.regionSize) s.layout.regionSize

/-- Whether the operating system may hold a page of the region; if it cannot tell, it may. -/
def mayBeResident (s : Store) (i : Nat) : Bool :=
  s.mapping.refuses .resident
    || s.mapping.anyResident (i * s.layout.regionSize) s.layout.regionSize

/-- The regions that hold a non-zero tag on a page that may be in store, added to `touched`. -/
def withTainted (s : Store) (touched : RegionSet) : RegionSet :=
  s.bytes.support.foldl
    (fun marks o =>
      let i := s.layout.regionOf o
      if s.mayBeResident i then marks.insert i else marks)
    touched

/-- The numbers of the regions that visitors see, ascending. A lazy store shows the private regions,
a dense one those that were written through it or are found to hold a tag. -/
def writtenRegions (s : Store) : List Nat :=
  match s.backing with
  | .lazy owned _ => owned.toList
  | .dense touched => (s.withTainted touched).toList

/-- The regions that visitors see, in address order. -/
def regions (s : Store) : List Region :=
  s.writtenRegions.map s.region

/-- Show the regions to a visitor, up to and including the first for which it answers `false`. -/
def visit {σ : Type} (s : Store) (visitor : σ → Region → σ × Bool) (start : σ) : σ :=
  Region.visitEach visitor start s.regions

/-- The regions that a visitor sees which asks for no more once it has seen `limit` of them. -/
def regionsUpTo (s : Store) (limit : Nat) : List Region :=
  (s.visit (fun seen r => (r :: seen, decide (seen.length + 1 < limit))) []).reverse

/-- The number of materialized regions. -/
def regionCount (s : Store) : Nat :=
  match s.backing with
  | .lazy _ commits => commits
  | .dense _ => s.writtenRegions.length

/-- The request that goes unanswered when the store is visited: a dense store whose pages cannot be
queried looks at all of them. -/
def unanswered? (s : Store) : Option MapRequest :=
  match s.backing with
  | .lazy _ _ => none
  | .dense _ => if s.mapping.refuses .resident then some .resident else none

end Store
end TaintFlow
