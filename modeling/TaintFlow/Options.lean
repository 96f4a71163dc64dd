import TaintFlow.Plan.Analyzer
import TaintFlow.Shadow.Store
import TaintFlow.Toml.Document

/-!
# Options

The settings of the tracker, as a value and as a configuration document. Keys that are missing from
a document take their defaults, and keys that are not known are ignored.
-/

namespace TaintFlow

/-- The text of a truth value in documents. -/
def boolText (b : Bool) : String :=
  if b then "true" else "false"

namespace Toml

/-- The name of a constant, written as a string or as a table whose only key is the name and whose
value is empty. -/
def Value.name? : Value → Option String
  | .string text => some text
  | .table _ [(name, .array [])] => some name
  | .table _ [(name, .table _ [])] => some name
  | _ => none

/-- The setting of a key, read by `read`; the default where the key is missing. -/
def Entries.setting? {α : Type} (es : Entries) (key : String) (default : α)
    (read : Value → Option α) : Option α :=
  match es.lookup key with
  | none => some default
  | some v => read v

def Value.bool? : Value → Option Bool
  | .boolean b => some b
  | _ => none

def Value.text? : Value → Option String
  | .string text => some text
  | _ => none

end Toml

namespace GapPolicy

/-- The name of a policy as a term. -/
def term : GapPolicy → String
  | .permissive => "Permissive"
  | .strict => "Strict"

/-- The name of a policy in documents. -/
def key : GapPolicy → String
  | .permissive => "permissive"
  | .strict => "strict"

def ofKey? (s : String) : Option GapPolicy :=
  [GapPolicy.permissive, .strict].find? fun p => p.key == s

end GapPolicy

namespace Backend

/-- The name of a kind of store as a term. -/
def term : Backend → String
  | .lazy => "Lazy"
  | .dense => "Dense"

/-- The name of a kind of store in documents. -/
def key : Backend → String
  | .lazy => "lazy"
  | .dense => "dense"

def ofKey? (s : String) : Option Backend :=
  [Backend.lazy, .dense].find? fun b => b.key == s

end Backend

/-- The settings of the tracker. -/
structure Options where
  policy : GapPolicy
  /-- Whether the program counter carries a tag. -/
  tracksPc : Bool
  backend : Backend
  /-- Whether faults on untouched regions are to be recovered. -/
  installFaultHandler : Bool
deriving DecidableEq

namespace Options

def default : Options :=
  ⟨.permissive, false, .lazy, true⟩

/-- The settings written as a term. -/
def term (o : Options) : String :=
  "TaintOptions \x7b policy: " ++ o.policy.term ++ ", track_pc: " ++ boolText o.tracksPc
    ++ ", backend: " ++ o.backend.term
    ++ ", install_fault_handler: " ++ boolText o.installFaultHandler ++ " \x7d"

/-- The settings as a configuration document. -/
def document (o : Options) : String :=
  "policy = \"" ++ o.policy.key ++ "\"\n"
    ++ "track_pc = " ++ boolText o.tracksPc ++ "\n"
    ++ "backend = \"" ++ o.backend.key ++ "\"\n"
    ++ "install_fault_handler = " ++ boolText o.installFaultHandler ++ "\n"

/-- The settings made by a configuration document. -/
def ofDocument? (document : String) : Option Options := do
  let es ← Toml.read? document
  let policy ← es.setting? "policy" default.policy fun v => v.name?.bind GapPolicy.ofKey?
  let tracksPc ← es.setting? "track_pc" default.tracksPc Toml.Value.bool?
  let backend ← es.setting? "backend" default.backend fun v => v.name?.bind Backend.ofKey?
  let installFaultHandler ←
    es.setting? "install_fault_handler" default.installFaultHandler Toml.Value.bool?
  return { policy, tracksPc, backend, installFaultHandler }

end Options
end TaintFlow
