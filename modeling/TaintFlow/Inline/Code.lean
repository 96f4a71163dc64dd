import TaintFlow.Plan.BlockTransfer

/-!
# Inline code

The instructions that are inserted in front of an application instruction to move its tags. They
compute in scratch registers lent by the host, and they find tags by address: in the shadow, or in
the register bank of the running thread.
-/

namespace TaintFlow

/-- A scratch register. -/
structure Scratch where
  id : UInt8
deriving DecidableEq, Repr

/-- One instruction of inline code. -/
inductive InlineInstr where
  /-- `dst` becomes the address of a memory operand of the application. -/
  | loadAddress (dst : Scratch) (mem : MemRef)
  | saveSlot (src : Scratch) (slot : SpillSlot)
  /-- The application address in `reg` becomes the shadow address of its tag. -/
  | appToShadow (reg : Scratch)
  /-- `dst` becomes the address of the tag of `reg`. -/
  | regToShadow (dst : Scratch) (reg : Reg)
  | loadByte (dst addr : Scratch)
  | storeByte (addr src : Scratch)
  | moveImm (dst : Scratch) (imm : Tag)
  | or (dst src : Scratch)
  /-- Call the block transfer that is carried out out of line. -/
  | cleanCall (transfer : BlockTransfer)
deriving DecidableEq

end TaintFlow
