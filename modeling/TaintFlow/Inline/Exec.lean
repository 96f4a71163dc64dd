import TaintFlow.Fault.Recovery
import TaintFlow.Inline.Code

/-!
# Executing inline code

The reference executor runs inline code against a store and a thread's context, with scratch
registers of its own. Bytes are loaded and stored at shadow addresses and in the register bank, and
nowhere else. A store into a shared region takes the way that a machine store takes through the
fault handler: it is recovered once and then repeated.
-/

namespace TaintFlow

namespace Scratch

/-- Number of scratch registers of the executor. -/
abbrev count : Nat := 8

/-- The register written as a term. -/
def term (s : Scratch) : String :=
  "Scratch(" ++ toString s.id.toNat ++ ")"

end Scratch

/-- Why inline code cannot be executed. -/
inductive ExecError where
  | noSuchScratch (s : Scratch)
  /-- The address is neither in the shadow nor in the register bank. -/
  | wildAccess (a : Address)
  | shadow (e : ShadowError)
  | fault (e : FaultError)
  /-- The repeated store would fault again. -/
  | unrecoverable (a : Address)
  | register (e : RegisterError)
  | apply (e : ApplyError)
deriving DecidableEq

def ExecError.message : ExecError → String
  | .noSuchScratch s => "Scratch register " ++ s.term ++ " does not exist"
  | .wildAccess a =>
    "Access to " ++ Hex.text a.toNat ++ " is neither shadow memory nor the register bank"
  | .shadow e => "Shadow error: " ++ e.term
  | .fault e => "Fault recovery failed: " ++ e.message
  | .unrecoverable a => "Store to " ++ Hex.text a.toNat ++ " still faults after recovery"
  | .register e => e.message
  | .apply e => "Out of line emulation failed: " ++ e.message

/-- The state of the executor. -/
structure ExecState where
  tags : TagState
  scratch : Vector Address Scratch.count

/-- An action of the executor. -/
abbrev Exec (α : Type) := Action ExecState ExecError α

namespace Exec

/-- The value of a scratch register. -/
def value (s : Scratch) : Exec Address := do
  if h : s.id.toNat < Scratch.count then
    return (← get).scratch[s.id.toNat]
  else
    throw (.noSuchScratch s)

/-- Set a scratch register. -/
def setValue (s : Scratch) (a : Address) : Exec Unit := do
  if h : s.id.toNat < Scratch.count then
    modify fun st => { st with scratch := st.scratch.set s.id.toNat a }
  else
    throw (.noSuchScratch s)

def thread : Exec ThreadContext :=
  return (← get).tags.thread

def store : Exec Store :=
  return (← get).tags.store

def setStore (s : Store) : Exec Unit :=
  modify fun st => { st with tags := { st.tags with store := s } }

/-- The byte at an address of the shadow or of the register bank. -/
def byteAt (a : Address) : Exec Tag := do
  match (← store).byteAt? a with
  | some t => return t
  | none =>
    let thread ← thread
    match thread.regAt? a with
    | some r => Action.lift .register (thread.tagOf r)
    | none => throw (.wildAccess a)

/-- Store a byte at an address of the register bank. -/
def setBankByte (a : Address) (t : Tag) : Exec Unit := do
  match (← thread).regAt? a with
  | some r =>
    let changed ← Action.lift .register ((← thread).setTag r t)
    modify fun st => { st with tags := { st.tags with thread := changed } }
  | none => throw (.wildAccess a)

/-- Recover from the fault that storing through register `s` at `a` would raise. The register is
pointed at the fresh shadow address. -/
def recover (s : Scratch) (a : Address) : Exec Unit := do
  let patch (_access fresh : Address) : Action (Vector Address Scratch.count) PatchError Unit :=
    if h : s.id.toNat < Scratch.count then
      modify fun scratch => scratch.set s.id.toNat fresh
    else
      throw .noContext
  let saved := (← thread).slot .appAddress
  let action ← Action.focus (fun st => (st.tags.store, st.scratch))
    (fun r st => ⟨{ st.tags with store := r.1 }, r.2⟩) .fault (recoverFault patch a saved)
  match action with
  | .resume => return
  | .deliver => throw (.wildAccess a)

/-- Store a byte through register `s`, recovering from a fault once. -/
def storeThrough (s : Scratch) (t : Tag) : Exec Unit := do
  let a ← value s
  match (← store).pageKind a with
  | some .owned => setStore ((← store).pokeByte a t)
  | none => setBankByte a t
  | some .shared =>
    recover s a
    let a ← value s
    match (← store).pageKind a with
    | some .owned => setStore ((← store).pokeByte a t)
    | none => setBankByte a t
    | some .shared => throw (.unrecoverable a)

end Exec

namespace InlineInstr

open Exec

/-- Execute one instruction, given the values of the application's registers. -/
def exec (f : RegFile) : InlineInstr → Exec Unit
  | .loadAddress dst mem => setValue dst (mem.address f)
  | .saveSlot src slot => do
    let a ← value src
    modify fun st => { st with tags := { st.tags with thread := st.tags.thread.setSlot slot a } }
  | .appToShadow reg => do
    let a ← value reg
    let shadow ← Action.lift .shadow ((← store).translate a)
    setValue reg shadow
  | .regToShadow dst reg => do
    let a ← Action.lift .register ((← thread).tagAddress reg)
    setValue dst a
  | .loadByte dst addr => do
    let t ← byteAt (← value addr)
    setValue dst t.toUInt64
  | .storeByte addr src => do
    let t := (← value src).toUInt8
    storeThrough addr t
  | .moveImm dst imm => setValue dst imm.toUInt64
  | .or dst src => do
    let a := (← value dst) ||| (← value src)
    setValue dst a
  | .cleanCall t =>
    Action.focus ExecState.tags (fun tags st => { st with tags }) .apply (t.apply f)

end InlineInstr

/-- Execute inline code with fresh scratch registers on behalf of a thread. -/
def runInline (f : RegFile) (code : List InlineInstr) : Action TagState ExecError Unit :=
  Action.focus (fun tags => ⟨tags, Vector.replicate Scratch.count 0⟩) (fun st _ => st.tags) id
    (code.forM (InlineInstr.exec f))

end TaintFlow
