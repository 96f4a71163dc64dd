import TaintFlow.Fault.Recovery

/-!
# Machine contexts

The registers of a thread that was stopped by a signal, as the handler sees them. Recovery may have
to change the register through which the faulting store went; a decoder supplied by the host tells
which one that is.
-/

namespace TaintFlow

/-- The general registers of a stopped thread. -/
structure MachineContext where
  registers : Vector Address 23
deriving DecidableEq

namespace MachineContext

/-- The address of the instruction at which the thread was stopped. -/
def pc (c : MachineContext) : Address :=
  c.registers[16]

end MachineContext

/-- Tells the index of the register that the store at an address goes through. -/
structure FaultDecoder where
  register? : Address → Option Nat

/-- Make the register that holds the stale address `access` hold `fresh`. The base of the shadow
never moves, so there is nothing to do when the two are equal. -/
def MachineContext.patch (decoder : Option FaultDecoder) (access fresh : Address) :
    Action (Option MachineContext) PatchError Unit :=
  fun context =>
    if access = fresh then .ok () context
    else
      match context with
      | none => .error .noContext context
      | some c =>
        match decoder with
        | none => .error (.noDecoder c.pc) context
        | some d =>
          match d.register? c.pc with
          | none => .error (.unknownRegister c.pc) context
          | some r =>
            if h : r < 23 then .ok () (some ⟨c.registers.set r fresh⟩)
            else .error (.unknownRegister c.pc) context

end TaintFlow
