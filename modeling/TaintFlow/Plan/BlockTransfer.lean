import TaintFlow.Action
import TaintFlow.Instr
import TaintFlow.Shadow.Store
import TaintFlow.Thread

/-!
# Block transfers

A block transfer moves a list of registers to or from consecutive words. Register `i` of a load
takes the tag of the word `i + 1` above the base; register `i` of a store of `n` registers goes to
the word `n - i` below the base. A register of the list that is also the written-back base takes no
part, but it keeps its place.
-/

namespace TaintFlow

/-- The two block transfers that are propagated. -/
inductive BlockKind where
  | loadIncrement
  | storeDecrement
deriving DecidableEq, Repr

namespace BlockKind

def name : BlockKind → String
  | .loadIncrement => "load_increment"
  | .storeDecrement => "store_decrement"

def ofName? (s : String) : Option BlockKind :=
  [BlockKind.loadIncrement, .storeDecrement].find? fun k => k.name == s

end BlockKind

/-- A decoded block transfer. -/
structure BlockTransfer where
  kind : BlockKind
  base : Reg
  regs : List Reg
  writeback : Option Reg
deriving DecidableEq, Repr

/-- The tags that an instruction can change: those of memory and those of its thread. -/
structure TagState where
  store : Store
  thread : ThreadContext

/-- Why tags cannot be propagated. -/
inductive ApplyError where
  | shadow (e : ShadowError)
  | register (e : RegisterError)
deriving DecidableEq

def ApplyError.message : ApplyError → String
  | .shadow e => "Shadow error: " ++ e.term
  | .register e => e.message

namespace TagState

/-- The tag of an application address. -/
def memTag (a : Address) : Action TagState ApplyError Tag :=
  fun s =>
    match s.store.tagOf a with
    | .ok t => .ok t s
    | .error e => .error (.shadow e) s

/-- Set the tag of an application address. -/
def setMemTag (a : Address) (t : Tag) : Action TagState ApplyError Unit :=
  Action.focus TagState.store (fun store s => { s with store }) .shadow (Store.setTag a t)

/-- The tag of a register. -/
def regTag (r : Reg) : Action TagState ApplyError Tag :=
  fun s =>
    match s.thread.tagOf r with
    | .ok t => .ok t s
    | .error e => .error (.register e) s

/-- Set the tag of a register. -/
def setRegTag (r : Reg) (t : Tag) : Action TagState ApplyError Unit :=
  fun s =>
    match s.thread.setTag r t with
    | .ok thread => .ok () { s with thread }
    | .error e => .error (.register e) s

/-- The tag of a register, zero where none is maintained. -/
def regTagOrClean (r : Reg) : Action TagState ApplyError Tag := do
  if (← get).thread.tracks r then regTag r else pure untainted

end TagState

namespace BlockTransfer

/-- Decode the operands of a block transfer, `none` if they have another shape. The base that is
written back is appended to the list and is not part of it. -/
def ofInstr? (i : Instr) : Option BlockTransfer := do
  let (kind, memOperands, listOperands) ←
    match i.opcode with
    | .ldm => some (BlockKind.loadIncrement, i.srcs, i.dsts)
    | .stmdb => some (BlockKind.storeDecrement, i.dsts, i.srcs)
    | _ => none
  let mem ← memOperands.head?.bind Operand.mem?
  let writeback := memOperands[1]?.bind Operand.reg?
  let listed ← listOperands.mapM Operand.reg?
  let regs :=
    if writeback.isSome && listed.getLast? = writeback then listed.dropLast else listed
  return ⟨kind, mem.base, regs, writeback⟩

/-- The registers that take part, with their places in the list. -/
def transferred (t : BlockTransfer) : List (Nat × Reg) :=
  (t.regs.zipIdx.map fun (r, i) => (i, r)).filter fun (_, r) => some r != t.writeback

/-- The address of the word at a place of the list, given the value of the base. -/
def wordAddress (t : BlockTransfer) (base : Address) (place : Nat) : Address :=
  match t.kind with
  | .loadIncrement => base + wordSize * UInt64.ofNat (place + 1)
  | .storeDecrement => base - wordSize * UInt64.ofNat (t.regs.length - place)

/-- Move the tag of one register of the list. -/
def transferOne (t : BlockTransfer) (base : Address) (place : Nat) (r : Reg) :
    Action TagState ApplyError Unit :=
  match t.kind with
  | .loadIncrement => do
    if (← get).thread.tracks r then
      TagState.setRegTag r (← TagState.memTag (t.wordAddress base place))
  | .storeDecrement => do
    TagState.setMemTag (t.wordAddress base place) (← TagState.regTagOrClean r)

/-- Propagate the tags of the whole list, given the values of the registers. -/
def apply (t : BlockTransfer) (f : RegFile) : Action TagState ApplyError Unit :=
  t.transferred.forM fun (place, r) => t.transferOne (f.value t.base) place r

end BlockTransfer
end TaintFlow
