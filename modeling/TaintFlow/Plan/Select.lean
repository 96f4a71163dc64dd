import TaintFlow.Plan.Effect
import TaintFlow.Plan.Rule

/-!
# Selecting rules

The rules of an instruction follow from the effect of its opcode and the shape of its operands.
Registers without a maintained tag read as untainted and are never written: they disappear from the
rules, and where nothing is left to do there is no rule. Operands that do not fit the effect make
the instruction malformed.
-/

namespace TaintFlow

/-- Drop every register that repeats its predecessor. -/
def dropRepeats : List Reg → List Reg
  | a :: b :: rest => if a = b then dropRepeats (b :: rest) else a :: dropRepeats (b :: rest)
  | rs => rs

namespace Rule

variable (tracksPc : Bool)

/-- The destination becomes untainted. -/
def clear? (dst : Reg) : Option Rule :=
  if dst.isTracked tracksPc then some (.clear dst) else none

/-- The destination takes the tag of one register. -/
def copy? (dst src : Reg) : Option Rule :=
  if !dst.isTracked tracksPc then none
  else if src.isTracked tracksPc then some (.copy dst src)
  else some (.clear dst)

/-- The destination takes the marks of several registers. -/
def union? (dst : Reg) (srcs : List Reg) : Option Rule :=
  match dropRepeats (srcs.filter (Reg.isTracked tracksPc)) with
  | [] => clear? tracksPc dst
  | [src] => copy? tracksPc dst src
  | tracked => if dst.isTracked tracksPc then some (.union dst tracked) else none

end Rule

namespace Instr

variable (tracksPc : Bool)

/-- Loads: the first memory source, and as many register destinations as words are loaded. -/
def loadRules? (words : Nat) (i : Instr) : Option (List Rule) := do
  let mem ← i.srcs.findSome? Operand.mem?
  let dsts := (i.dsts.filterMap Operand.reg?).take words
  guard (dsts.length = words)
  let tracked := dsts.filter (Reg.isTracked tracksPc)
  return if tracked.isEmpty then [] else [.load tracked mem]

/-- Stores: the first memory destination, and as many register sources as words are stored. -/
def storeRules? (words : Nat) (i : Instr) : Option (List Rule) := do
  let mem ← i.dsts.findSome? Operand.mem?
  let srcs := (i.srcs.filterMap Operand.reg?).take words
  guard (srcs.length = words)
  return [.store (srcs.map fun r => if r.isTracked tracksPc then some r else none) mem]

/-- The status register of an exclusive store receives a constant. -/
def statusRules (i : Instr) : List Rule :=
  ((i.dsts.findSome? Operand.reg?).bind (Rule.clear? tracksPc)).toList

/-- One source: a register is copied, an immediate clears. -/
def transformRules? (i : Instr) : Option (List Rule) := do
  let dst ← i.dsts.head?.bind Operand.reg?
  match i.srcs.head? with
  | some (.reg src) => return (Rule.copy? tracksPc dst src).toList
  | some (.imm _) => return (Rule.clear? tracksPc dst).toList
  | _ => none

/-- Two sources: only the first two count, further ones are shift operands. -/
def combineRules? (i : Instr) : Option (List Rule) := do
  let dst ← i.dsts.head?.bind Operand.reg?
  match i.srcs with
  | [.reg a] => return (Rule.copy? tracksPc dst a).toList
  | [.imm _] => return (Rule.clear? tracksPc dst).toList
  | .reg a :: .reg b :: _ => return (Rule.union? tracksPc dst [a, b]).toList
  | .reg a :: .imm _ :: _ => return (Rule.copy? tracksPc dst a).toList
  | .imm _ :: .reg a :: _ => return (Rule.copy? tracksPc dst a).toList
  | .imm _ :: .imm _ :: _ => return (Rule.clear? tracksPc dst).toList
  | _ => none

/-- Every register destination takes the marks of every register source. -/
def accumulateRules? (i : Instr) : Option (List Rule) := do
  let srcs := i.srcs.filterMap Operand.reg?
  let dsts := i.dsts.filterMap Operand.reg?
  guard (!dsts.isEmpty && !srcs.isEmpty)
  return dsts.filterMap fun dst => Rule.union? tracksPc dst srcs

/-- A linking branch leaves the old program counter in the link register. -/
def linkRules : List Rule :=
  if tracksPc then [.copy .lr .pc] else []

/-- A branch to a register leaves the target in the program counter. -/
def branchRules (i : Instr) : List Rule :=
  match i.srcs.head? with
  | some (.reg target) => if tracksPc then (Rule.copy? tracksPc .pc target).toList else []
  | _ => []

end Instr

/-- Why an instruction has no rules. -/
inductive GapKind where
  /-- The tracker has no rule for the opcode. -/
  | unhandled
  /-- The operands do not fit the opcode. -/
  | malformed
deriving DecidableEq, Repr

/-- The rules of an instruction. -/
def Instr.rules (tracksPc : Bool) (i : Instr) : Except GapKind (List Rule) :=
  let orMalformed : Option (List Rule) → Except GapKind (List Rule)
    | some rules => .ok rules
    | none => .error .malformed
  match i.opcode.effect with
  | .load words => orMalformed (i.loadRules? tracksPc words)
  | .store words => orMalformed (i.storeRules? tracksPc words)
  | .storeExclusive => orMalformed ((i.storeRules? tracksPc 1).map (· ++ i.statusRules tracksPc))
  | .transform => orMalformed (i.transformRules? tracksPc)
  | .combine => orMalformed (i.combineRules? tracksPc)
  | .accumulate => orMalformed (i.accumulateRules? tracksPc)
  | .link => .ok (Instr.linkRules tracksPc ++ i.branchRules tracksPc)
  | .branch => .ok (i.branchRules tracksPc)
  | .blockTransfer => orMalformed ((BlockTransfer.ofInstr? i).map fun t => [.block t])
  | .nothing => .ok []
  | .unknown => .error .unhandled

end TaintFlow
