import TaintFlow.Reg
import TaintFlow.Text.Hex

/-!
# Operands

The three kinds of operand and the address that a memory operand denotes. Address arithmetic wraps
at 64 bits.
-/

namespace TaintFlow

/-- The values of the application's general purpose registers. -/
structure RegFile where
  values : Vector Address Reg.count

namespace RegFile

def zero : RegFile :=
  ⟨Vector.replicate Reg.count 0⟩

/-- A register outside the file reads as zero. -/
def value (f : RegFile) (r : Reg) : Address :=
  if h : r.id.toNat < Reg.count then f.values[r.id.toNat] else 0

/-- Writing a register outside the file has no effect. -/
def set (f : RegFile) (r : Reg) (a : Address) : RegFile :=
  if h : r.id.toNat < Reg.count then ⟨f.values.set r.id.toNat a⟩ else f

end RegFile

/-- A memory operand: a base register, perhaps a shifted index register, and a displacement. -/
structure MemRef where
  base : Reg
  index : Option Reg
  shift : Fin 64
  disp : Int32
deriving DecidableEq

namespace MemRef

/-- The address denoted by the operand, given the values of the registers. -/
def address (m : MemRef) (f : RegFile) : Address :=
  let scaled :=
    match m.index with
    | some r => f.value r <<< UInt64.ofNat m.shift.val
    | none => 0
  f.value m.base + scaled + m.disp.toInt64.toUInt64

/-- The operand with another displacement added, as a 32-bit sum. -/
def displaced (m : MemRef) (extra : Int32) : MemRef :=
  { m with disp := m.disp + extra }

def text (m : MemRef) : String :=
  let index :=
    match m.index with
    | some r => ", " ++ r.name ++ ", lsl #" ++ toString m.shift.val
    | none => ""
  let disp := if m.disp = 0 then "" else ", #" ++ toString m.disp.toInt
  "[" ++ m.base.name ++ index ++ disp ++ "]"

end MemRef

/-- An operand of an instruction. -/
inductive Operand where
  | reg (r : Reg)
  | imm (value : Int64)
  | mem (m : MemRef)
deriving DecidableEq

namespace Operand

def reg? : Operand → Option Reg
  | .reg r => some r
  | _ => none

def mem? : Operand → Option MemRef
  | .mem m => some m
  | _ => none

def isImm : Operand → Bool
  | .imm _ => true
  | _ => false

/-- Whether evaluating the operand reads register `r`. -/
def reads (r : Reg) : Operand → Bool
  | .reg s => s == r
  | .imm _ => false
  | .mem m => m.base == r || m.index == some r

/-- Immediates are written in hexadecimal two's complement. -/
def text : Operand → String
  | .reg r => r.name
  | .imm v => "#" ++ Hex.text v.toUInt64.toNat
  | .mem m => m.text

end Operand
end TaintFlow
