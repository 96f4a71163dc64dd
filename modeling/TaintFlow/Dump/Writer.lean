import TaintFlow.Dump.Format

/-!
# Writing dumps

A dump is written piece by piece to a sink that may run out of room. What fits is taken, and the
first piece that does not fit ends the dump. The records are written by a visitor of the regions,
which keeps what became of the last record and asks for no more regions after a failure.
-/

namespace TaintFlow.Dump

/-- Where a dump goes. -/
structure Sink where
  taken : List UInt8
  /-- How many bytes the sink takes in all, if it has a limit. -/
  capacity : Option Nat
  failsFlush : Bool

/-- A sink failed to take or to flush bytes. -/
inductive SinkError where
  | failed
deriving DecidableEq, Repr

namespace Sink

def unlimited : Sink :=
  ⟨[], none, false⟩

/-- How many more bytes fit, of a wish for `n`. -/
def fitting (s : Sink) (n : Nat) : Nat :=
  match s.capacity with
  | none => n
  | some c => min n (c - s.taken.length)

/-- Take a piece, or as much of it as fits. -/
def put (bytes : List UInt8) : Action Sink SinkError Unit :=
  fun s =>
    let n := s.fitting bytes.length
    let s := { s with taken := s.taken ++ bytes.take n }
    if n < bytes.length then .error .failed s else .ok () s

def flush : Action Sink SinkError Unit :=
  fun s => if s.failsFlush then .error .failed s else .ok () s

end Sink

/-- Write one record. -/
def writeRecord (r : Region) : Action Sink SinkError Unit := do
  Sink.put (recordHead r)
  Sink.put r.tags
  Sink.put [lineEnd]

/-- How far the records of a dump have come. -/
structure Progress where
  sink : Sink
  /-- What became of the last record. -/
  result : Except SinkError Unit
  records : Nat

/-- Write the record of a region that is shown, and tell whether to go on. -/
def writeVisited (p : Progress) (r : Region) : Progress × Bool :=
  let (result, sink) := (writeRecord r).outcome p.sink
  (⟨sink, result, p.records + 1⟩, result.isOk)

/-- Write the dump of the regions that visitors are shown; returns how many records it has. -/
def write (visit : (Progress → Region → Progress × Bool) → Progress → Progress) :
    Action Sink SinkError Nat := do
  Sink.put header
  let p := visit writeVisited ⟨← get, .ok (), 0⟩
  set p.sink
  Action.lift id p.result
  Sink.flush
  return p.records

end TaintFlow.Dump
