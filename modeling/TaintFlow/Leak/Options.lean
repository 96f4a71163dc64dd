import TaintFlow.Options

/-!
# Options of the leak guard

Whether a leak makes the system call fail, and where the tags are dumped in the end.
-/

namespace TaintFlow

/-- The settings of the leak guard. -/
structure LeakOptions where
  failAddressLeaks : Bool
  /-- The file that the tags are dumped to when the guard finishes. -/
  dumpOnExit : Option String
deriving DecidableEq

namespace LeakOptions

def default : LeakOptions :=
  ⟨false, none⟩

/-- The settings as a configuration document. -/
def document (o : LeakOptions) : String :=
  let dump :=
    match o.dumpOnExit with
    | some path => "dump_taint_on_exit = " ++ Toml.quote path ++ "\n"
    | none => ""
  "fail_address_leaks = " ++ boolText o.failAddressLeaks ++ "\n" ++ dump

/-- The settings made by a configuration document. -/
def ofDocument? (document : String) : Option LeakOptions := do
  let es ← Toml.read? document
  let failAddressLeaks ←
    es.setting? "fail_address_leaks" default.failAddressLeaks Toml.Value.bool?
  let dumpOnExit ←
    es.setting? "dump_taint_on_exit" default.dumpOnExit fun v => v.text?.map some
  return { failAddressLeaks, dumpOnExit }

end LeakOptions
end TaintFlow
