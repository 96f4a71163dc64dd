import TaintFlow.Dump.Reader
import TaintFlow.Shadow.PageMap
import TaintFlow.Tracker

/-!
# Diagnostics

Every error can be told apart by a code, which names its cause as a path from the component that
failed to the cause inside it, and most have a text besides.
-/

namespace TaintFlow

/-- Errors with a code. -/
class Diagnostic (ε : Type) where
  /-- The cause, as a path of names. -/
  code : ε → String
  /-- The text of the error, where it has one of its own. -/
  message : ε → Option String

namespace Diagnostic

instance : Diagnostic RegisterError where
  code
    | .outOfRange _ => "Register.OutOfRange"
    | .excluded _ => "Register.Excluded"
  message e := e.message

instance : Diagnostic ShadowError where
  code
    | .invalidAddress _ => "Shadow.InvalidAddress"
    | .mapping _ => "Shadow.Mmap"
    | .committedTwice _ => "Shadow.DoubleMaterialization"
  message e := e.message

instance : Diagnostic Gap where
  code g :=
    match g.kind with
    | .unhandled => "Propagation.Unhandled"
    | .malformed => "Propagation.Malformed"
  message g := g.message

instance : Diagnostic PatchError where
  code
    | .noContext => "Patch.NoContext"
    | .noDecoder _ => "Patch.NoDecoder"
    | .unknownRegister _ => "Patch.UnknownRegister"
    | .unsupported => "Patch.Unsupported"
  message e := e.message

instance : Diagnostic ApplyError where
  code
    | .shadow e => "Apply." ++ code e
    | .register e => "Apply." ++ code e
  message e := e.message

instance : Diagnostic FaultError where
  code
    | .shadow e => "Fault." ++ code e
    | .slotMismatch _ _ => "Fault.SlotMismatch"
    | .patch e => "Fault." ++ code e
  message e := e.message

instance : Diagnostic ExecError where
  code
    | .noSuchScratch _ => "Interp.NoSuchScratch"
    | .wildAccess _ => "Interp.WildAccess"
    | .shadow e => "Interp." ++ code e
    | .fault e => "Interp." ++ code e
    | .unrecoverable _ => "Interp.Unrecoverable"
    | .register e => "Interp." ++ code e
    | .apply e => "Interp." ++ code e
  message e := e.message

instance : Diagnostic BufferError where
  code _ := "Emitter"
  message e := "Failed to emit instrumentation: " ++ e.term

instance : Diagnostic (LowerError BufferError) where
  code
    | .emitter _ => "Lower.Emitter"
    | .gap g => "Lower." ++ code g
  message e := e.message BufferError.term

instance : Diagnostic SignalError where
  code
    | .failedToInstall _ _ => "Signal.FailedToInstall"
    | .failedToRestore _ _ => "Signal.FailedToRestore"
    | .alreadyRegistered _ => "Signal.AlreadyRegistered"
  message e := e.message

instance : Diagnostic SetupError where
  code
    | .shadow e => code e
    | .signal e => code e
  message
    | .shadow e => e.message
    | .signal e => e.message

instance : Diagnostic Dump.SinkError where
  code _ := "Dump.Io"
  message _ := none

instance : Diagnostic Dump.ReadError where
  code
    | .notText => "Dump.Io"
    | .badHeader => "Dump.BadHeader"
    | .malformed _ => "Dump.Malformed"
  message e := if e = .notText then none else e.message

instance : Diagnostic FileError where
  code
    | .notCreated => "Io"
    | .sink e => code e
  message _ := none

instance : Diagnostic MapError where
  code
    | .failedToMap _ => "Mmap.FailedToMap"
    | .failedToCommit => "Mmap.FailedToCommit"
    | .failedToExclude => "Mmap.FailedToMadviseDontDump"
    | .residencyTooShort _ _ => "Mmap.ResidencyTooShort"
  message e := e.message

end Diagnostic

/-- A number that stands for nothing in a table of numbered things. -/
structure NotNumbered where
  code : String
  table : String
  number : Int

instance : Diagnostic NotNumbered where
  code e := e.code
  message e :=
    "No discriminant in enum `" ++ e.table ++ "` matches the value `" ++ toString e.number ++ "`"

end TaintFlow
