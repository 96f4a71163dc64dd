import TaintFlow.Shadow.Store

/-!
# Fault recovery

Inline code that stores into a shared region of a lazy store faults. Recovery gives the region of
the saved application address writable memory and points the faulting register at the fresh shadow
address, after which the store can be repeated. A fault outside the shadow is not ours.
-/

namespace TaintFlow

/-- What is to be done after a fault. -/
inductive FaultAction where
  /-- The fault has nothing to do with the shadow; hand it to whoever was there before. -/
  | deliver
  /-- Repeat the faulting store. -/
  | resume
deriving DecidableEq, Repr

def FaultAction.name : FaultAction → String
  | .deliver => "deliver"
  | .resume => "resume"

/-- Why the faulting register cannot be changed. -/
inductive PatchError where
  | noContext
  | noDecoder (pc : Address)
  | unknownRegister (pc : Address)
  | unsupported
deriving DecidableEq, Repr

def PatchError.message : PatchError → String
  | .noContext => "No machine context available"
  | .noDecoder pc => "No decoder registered to patch the instruction at " ++ Hex.text pc.toNat
  | .unknownRegister pc => "Unable to identify the faulting register at " ++ Hex.text pc.toNat
  | .unsupported => "Register patching is not supported on this architecture"

/-- Why a fault cannot be recovered. -/
inductive FaultError where
  | shadow (e : ShadowError)
  /-- The saved address lies in another region than the access that faulted. -/
  | slotMismatch (access saved : Address)
  | patch (e : PatchError)
deriving DecidableEq

def FaultError.message : FaultError → String
  | .shadow e => "Failed to materialize shadow: " ++ e.term
  | .slotMismatch access saved =>
    "Saved address " ++ Hex.text saved.toNat ++ " does not match the faulting shadow access "
      ++ Hex.text access.toNat
  | .patch e => e.message

/-- Recover from a write fault at the shadow address `access`, given the application address that
was saved before it. `patch access fresh` makes the register that holds `access` hold `fresh`. -/
def recoverFault {σ : Type} (patch : Address → Address → Action σ PatchError Unit)
    (access saved : Address) : Action (Store × σ) FaultError FaultAction := do
  match (← get).1.pageKind access with
  | none => return .deliver
  | some .owned => return .resume
  | some .shared =>
    let fresh ← Action.focus Prod.fst (fun s t => (s, t.2)) .shadow (Store.materialize saved)
    if (← get).1.pageKind access != some .owned then
      throw (.slotMismatch access saved)
    Action.focus Prod.snd (fun m t => (t.1, m)) .patch (patch access fresh)
    return .resume

end TaintFlow
