import TaintFlow.Inline.Code

/-!
# Emitters

An emitter inserts inline code on behalf of the host and lends scratch registers. Any of its calls
may fail. The code buffer is an emitter that keeps what was inserted, lends registers from a pool,
notes every call, and can be told which call to fail.
-/

namespace TaintFlow

/-- The host's side of code insertion, with its state `σ` and its failures `ε`. -/
structure Emitter (σ ε : Type) where
  reserve : Action σ ε Scratch
  release : Scratch → Action σ ε Unit
  insert : InlineInstr → Action σ ε Unit

namespace Emitter

variable {σ ε : Type}

/-- Run `body` with a scratch register, which is released however `body` ends. -/
def withScratch (em : Emitter σ ε) (body : Scratch → Action σ ε Unit) : Action σ ε Unit := do
  let s ← em.reserve
  (body s).closedBy (em.release s)

/-- Run `body` with two scratch registers, released in reverse order however `body` ends. -/
def withTwo (em : Emitter σ ε) (body : Scratch → Scratch → Action σ ε Unit) : Action σ ε Unit :=
  em.withScratch fun a => em.withScratch fun b => body a b

/-- Insert a sequence of instructions. -/
def insertAll (em : Emitter σ ε) (code : List InlineInstr) : Action σ ε Unit :=
  code.forM em.insert

end Emitter

/-- How a code buffer fails. -/
inductive BufferError where
  | outOfScratch
  | insertFailed
  | releaseFailed
deriving DecidableEq, Repr

/-- The error written as a quoted text. -/
def BufferError.term : BufferError → String
  | .outOfScratch => "\"out of scratch registers\""
  | .insertFailed => "\"insert failed\""
  | .releaseFailed => "\"release failed\""

/-- A call to a code buffer. -/
inductive BufferEvent where
  | reserved (s : Scratch)
  | reserveFailed
  | inserted
  | insertFailed
  | released (s : Scratch)
  | releaseFailed (s : Scratch)
deriving DecidableEq, Repr

def BufferEvent.text : BufferEvent → String
  | .reserved s => "reserve " ++ toString s.id.toNat
  | .reserveFailed => "reserve failed"
  | .inserted => "insert"
  | .insertFailed => "insert failed"
  | .released s => "release " ++ toString s.id.toNat
  | .releaseFailed s => "release " ++ toString s.id.toNat ++ " failed"

/-- Inserted code, free scratch registers with the next one to lend in front, and past calls. -/
structure CodeBuffer where
  pool : List Scratch
  code : List InlineInstr
  events : List BufferEvent
  /-- How many instructions there is room for. -/
  room : Option Nat
  /-- How many releases succeed before the one that fails. -/
  failRelease : Option Nat
  releases : Nat

namespace CodeBuffer

def new (pool : List Scratch) (room failRelease : Option Nat) : CodeBuffer :=
  ⟨pool, [], [], room, failRelease, 0⟩

def note (b : CodeBuffer) (e : BufferEvent) : CodeBuffer :=
  { b with events := b.events ++ [e] }

def reserve : Action CodeBuffer BufferError Scratch :=
  fun b =>
    match b.pool with
    | [] => .error .outOfScratch (b.note .reserveFailed)
    | s :: rest => .ok s ({ b with pool := rest }.note (.reserved s))

def release (s : Scratch) : Action CodeBuffer BufferError Unit :=
  fun b =>
    let call := b.releases
    let b := { b with releases := call + 1 }
    if b.failRelease = some call then .error .releaseFailed (b.note (.releaseFailed s))
    else .ok () ({ b with pool := s :: b.pool }.note (.released s))

def insert (i : InlineInstr) : Action CodeBuffer BufferError Unit :=
  fun b =>
    if b.room = some b.code.length then .error .insertFailed (b.note .insertFailed)
    else .ok () ({ b with code := b.code ++ [i] }.note .inserted)

/-- The code buffer as an emitter. -/
def emitter : Emitter CodeBuffer BufferError :=
  ⟨reserve, release, insert⟩

end CodeBuffer
end TaintFlow
