import TaintFlow.Instr.Opcode
import TaintFlow.Instr.Operand

/-!
# Instructions

An instruction is an opcode with its destinations and its sources. In a block transfer the memory
operand comes first: `ldm` has it in the sources and the register list in the destinations, `stmdb`
the other way round, and the base register follows on both sides when it is written back.
-/

namespace TaintFlow

/-- A decoded instruction and the address it stands at. -/
structure Instr where
  pc : Address
  opcode : Opcode
  dsts : List Operand
  srcs : List Operand
deriving DecidableEq

namespace Instr

def operands (i : Instr) : List Operand :=
  i.dsts ++ i.srcs

/-- Whether any source reads the program counter. -/
def readsPc (i : Instr) : Bool :=
  i.srcs.any (Operand.reads .pc)

/-- The instruction as a line of assembly text behind its address. -/
def text (i : Instr) : String :=
  let args := ", ".intercalate (i.operands.map Operand.text)
  let sep := if i.operands.isEmpty then "" else " "
  Hex.text i.pc.toNat ++ ": " ++ i.opcode.name ++ sep ++ args

end Instr
end TaintFlow
