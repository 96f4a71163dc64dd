import TaintFlow.Shadow.Store

/-!
# The dump format

A dump is a header line followed by one record for every region: its application address and its
shadow address as text, then its tags as raw bytes and a line end.
-/

namespace TaintFlow.Dump

/-- The bytes of an ASCII text. -/
def ascii (cs : List Char) : List UInt8 :=
  cs.map fun c => c.toNat.toUInt8

/-- The first line of every dump. -/
def header : List UInt8 :=
  ascii "TAINT DUMP\n".toList

def lineEnd : UInt8 := 10

def space : UInt8 := 32

/-- The first field of a record. -/
def appField : List UInt8 := ascii "APP".toList

/-- The second field of a record. -/
def shadowField : List UInt8 := ascii "SHADOW".toList

/-- An address in a record, in at least eight digits. -/
def addressText (a : Address) : List UInt8 :=
  ascii (Hex.padded 8 a.toNat)

/-- The text of a record in front of its tags. -/
def recordHead (r : Region) : List UInt8 :=
  appField ++ space :: addressText r.appBase ++ space :: shadowField ++ space ::
    addressText r.shadowBase ++ [space]

/-- A record. -/
def record (r : Region) : List UInt8 :=
  recordHead r ++ r.tags ++ [lineEnd]

/-- The complete dump of some regions. -/
def encode (regions : List Region) : List UInt8 :=
  header ++ regions.flatMap record

/-- The addresses of a record's granules that carry a tag, with their tags. -/
def tainted (granule : Nat) (r : Region) : List (Address × Tag) :=
  (r.tags.zipIdx.filter fun (t, _) => t != 0).map fun (t, i) =>
    (r.appBase + UInt64.ofNat (i * granule), t)

end TaintFlow.Dump
