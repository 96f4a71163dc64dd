import TaintFlow.Inline.Emitter
import TaintFlow.Plan.Analyzer

/-!
# From plans to inline code

Every rule becomes a short sequence of inline code over two scratch registers, one sequence for each
word that a load or store moves. In front of every shadow access the application address is saved,
so that a fault on the access can be recovered. Block transfers become a call.
-/

namespace TaintFlow

/-- Word `i` of a memory operand, as an operand. -/
def MemRef.word (m : MemRef) (i : Nat) : MemRef :=
  m.displaced (Int32.ofInt (4 * i))

namespace InlineInstr

/-- Put the shadow address of a memory operand into a register, saving the application address. -/
def shadowOf (dst : Scratch) (mem : MemRef) : List InlineInstr :=
  [.loadAddress dst mem, .saveSlot dst .appAddress, .appToShadow dst]

/-- Put the tag of an application register into a scratch register. -/
def tagOf (dst : Scratch) (reg : Reg) : List InlineInstr :=
  [.regToShadow dst reg, .loadByte dst dst]

/-- Store a tag that is held in `src` as that of an application register. -/
def setTag (addr : Scratch) (reg : Reg) (src : Scratch) : List InlineInstr :=
  [.regToShadow addr reg, .storeByte addr src]

/-- A register takes the tag of a memory word. -/
def loadWord (dst : Reg) (mem : MemRef) (app tag : Scratch) : List InlineInstr :=
  shadowOf app mem ++ [.loadByte app app] ++ setTag tag dst app

/-- A memory word takes the tag of a register, or zero. -/
def storeWord (src : Option Reg) (mem : MemRef) (app tag : Scratch) : List InlineInstr :=
  let fetch :=
    match src with
    | some r => tagOf tag r
    | none => [.moveImm tag untainted]
  fetch ++ shadowOf app mem ++ [.storeByte app tag]

def copyTag (dst src : Reg) (tag addr : Scratch) : List InlineInstr :=
  tagOf tag src ++ setTag addr dst tag

def clearTag (dst : Reg) (tag addr : Scratch) : List InlineInstr :=
  .moveImm tag untainted :: setTag addr dst tag

def unionTags (dst : Reg) (srcs : List Reg) (acc tmp : Scratch) : List InlineInstr :=
  .moveImm acc untainted :: srcs.flatMap (fun r => tagOf tmp r ++ [.or acc tmp])
    ++ setTag tmp dst acc

end InlineInstr

variable {σ ε : Type}

/-- Emit the inline code of a rule. -/
def Rule.emit (em : Emitter σ ε) : Rule → Action σ ε Unit
  | .load dsts mem => dsts.zipIdx.forM fun (dst, i) =>
      em.withTwo fun app tag => em.insertAll (InlineInstr.loadWord dst (mem.word i) app tag)
  | .store srcs mem => srcs.zipIdx.forM fun (src, i) =>
      em.withTwo fun app tag => em.insertAll (InlineInstr.storeWord src (mem.word i) app tag)
  | .copy dst src => em.withTwo fun tag addr => em.insertAll (InlineInstr.copyTag dst src tag addr)
  | .clear dst => em.withTwo fun tag addr => em.insertAll (InlineInstr.clearTag dst tag addr)
  | .union dst srcs =>
      em.withTwo fun acc tmp => em.insertAll (InlineInstr.unionTags dst srcs acc tmp)
  | .block t => em.insert (.cleanCall t)

/-- Emit the inline code of a plan. -/
def Plan.emit (em : Emitter σ ε) (p : Plan) : Action σ ε Unit :=
  p.rules.forM (Rule.emit em)

/-- Why an instruction cannot be instrumented. -/
inductive LowerError (ε : Type) where
  | emitter (e : ε)
  | gap (g : Gap)

/-- The error's text, given how the host writes its failures. -/
def LowerError.message (term : ε → String) : LowerError ε → String
  | .emitter e => "Emitter error: " ++ term e
  | .gap g => g.message

/-- Make the plan of an instruction and emit its inline code. -/
def Analyzer.instrument (em : Emitter σ ε) (i : Instr) :
    Action (Analyzer × σ) (LowerError ε) Plan := do
  let plan ← Action.focus Prod.fst (fun a s => (a, s.2)) .gap (Analyzer.analyze i)
  Action.focus Prod.snd (fun b s => (s.1, b)) .emitter (plan.emit em)
  return plan

end TaintFlow
