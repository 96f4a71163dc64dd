import TaintFlow.Plan.BlockTransfer

/-!
# Rules and plans

A plan is the list of rules that move the tags of one instruction. It is made once for an
instruction and can then be carried out directly, or be turned into inline code. Rules are carried
out in order; a failing rule ends the plan and what was moved before stays moved.
-/

namespace TaintFlow

/-- One movement of tags. -/
inductive Rule where
  /-- Register `dsts[i]` takes the tag of word `i` of `mem`. -/
  | load (dsts : List Reg) (mem : MemRef)
  /-- Word `i` of `mem` takes the tag of register `srcs[i]`, zero where there is none. -/
  | store (srcs : List (Option Reg)) (mem : MemRef)
  | copy (dst src : Reg)
  | clear (dst : Reg)
  /-- The destination takes the marks of all sources together. -/
  | union (dst : Reg) (srcs : List Reg)
  /-- A block transfer is carried out out of line. -/
  | block (transfer : BlockTransfer)
deriving DecidableEq

/-- The rules of one instruction. -/
structure Plan where
  pc : Address
  opcode : Opcode
  rules : List Rule
deriving DecidableEq

/-- The address of word `i` of a memory operand. -/
def MemRef.wordAddress (m : MemRef) (f : RegFile) (i : Nat) : Address :=
  m.address f + wordSize * UInt64.ofNat i

namespace Rule

/-- The tag that a store finds in one of its sources. -/
def sourceTag : Option Reg → Action TagState ApplyError Tag
  | some r => TagState.regTag r
  | none => pure untainted

/-- The marks of `srcs` together with those of `tag`. -/
def unionTag (tag : Tag) : List Reg → Action TagState ApplyError Tag
  | [] => pure tag
  | r :: rest => do unionTag (tag ||| (← TagState.regTag r)) rest

/-- Carry out a rule, given the values of the registers before the instruction. -/
def apply (f : RegFile) : Rule → Action TagState ApplyError Unit
  | .load dsts mem => dsts.zipIdx.forM fun (dst, i) => do
      TagState.setRegTag dst (← TagState.memTag (mem.wordAddress f i))
  | .store srcs mem => srcs.zipIdx.forM fun (src, i) => do
      TagState.setMemTag (mem.wordAddress f i) (← sourceTag src)
  | .copy dst src => do TagState.setRegTag dst (← TagState.regTag src)
  | .clear dst => TagState.setRegTag dst untainted
  | .union dst srcs => do TagState.setRegTag dst (← unionTag untainted srcs)
  | .block t => t.apply f

end Rule

namespace Plan

def isEmpty (p : Plan) : Bool :=
  p.rules.isEmpty

/-- Carry out the rules of a plan. -/
def apply (f : RegFile) (p : Plan) : Action TagState ApplyError Unit :=
  p.rules.forM (Rule.apply f)

end Plan
end TaintFlow
