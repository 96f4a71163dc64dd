import TaintFlow.Tag

/-!
# Application registers

A register is named by an eight-bit id. The first sixteen are the general purpose registers, the
program counter among them. Only these can carry a tag, and the program counter only where it is
tracked.
-/

namespace TaintFlow

/-- An application register. -/
@[ext]
structure Reg where
  id : UInt8
deriving DecidableEq, Repr, Inhabited

namespace Reg

def sp : Reg := ⟨13⟩
def lr : Reg := ⟨14⟩
def pc : Reg := ⟨15⟩

/-- Number of general purpose registers. -/
abbrev count : Nat := 16

/-- Whether the register has a place in a register bank. -/
def isGeneral (r : Reg) : Bool :=
  decide (r.id.toNat < count)

/-- Whether a tag is maintained for the register, given whether the program counter is tracked. -/
def isTracked (tracksPc : Bool) (r : Reg) : Bool :=
  r.isGeneral && (tracksPc || r != pc)

/-- The register's name in assembly text; registers outside the bank are named by number. -/
def name (r : Reg) : String :=
  if r = sp then "sp"
  else if r = lr then "lr"
  else if r = pc then "pc"
  else if r.isGeneral then "r" ++ toString r.id.toNat
  else "reg" ++ toString r.id.toNat

end Reg

/-- Why a register's tag cannot be accessed. -/
inductive RegisterError where
  /-- The register has no place in a bank. -/
  | outOfRange (r : Reg)
  /-- The register has a place, but it is not maintained. -/
  | excluded (r : Reg)
deriving DecidableEq, Repr

def RegisterError.message : RegisterError → String
  | .outOfRange r => "Register " ++ r.name ++ " has no shadow slot"
  | .excluded r => "Register " ++ r.name ++ " is not tracked"

end TaintFlow
