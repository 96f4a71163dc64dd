import TaintFlow.Fault.Signal
import TaintFlow.Leak.Syscall
import TaintFlow.Options

/-!
# Warnings

What the tracker tells its host besides the results of operations.
-/

namespace TaintFlow

/-- A message to the host that does not stop anything. -/
inductive Warning where
  /-- An instruction without rules, reported for the first time. -/
  | gap (g : Gap)
  /-- The store cannot tell which pages were written and looks at all of them. -/
  | residencyUnknown (r : MapRequest)
  /-- A client asked for other options than those of the live session. -/
  | optionsIgnored (client : UInt32) (live asked : Options)
  /-- A thread that has a context gets another one. -/
  | contextReplaced
  /-- A signal is left alone because another handler has it. -/
  | foreignHandler (s : Signal)
  /-- Without a tag of the program counter the guard cannot see code addresses. -/
  | pcUntracked
  /-- The argument count at the stack pointer cannot be read. -/
  | argcUnreadable (sp : Address)
  | leak (l : Leak)
deriving DecidableEq

namespace Warning

def text : Warning → String
  | .gap g => g.warning
  | .residencyUnknown r => "Unable to query shadow residency: " ++ r.name
  | .optionsIgnored client live asked =>
    "Runtime already initialized by client " ++ toString client.toNat ++ " with " ++ live.term
      ++ ", ignoring " ++ asked.term
  | .contextReplaced => "Replacing the current context of this thread"
  | .foreignHandler s => s.name ++ " is registered to another handler"
  | .pcUntracked => "pc is not tracked, code address leaks will not be detected"
  | .argcUnreadable sp => "Unable to read argc at " ++ Hex.text sp.toNat
  | .leak l => "[ASLR] Address leak: " ++ l.text

/-- The warnings about the gaps that an analyzer has reported since an earlier state. -/
def ofGaps (earlier later : Analyzer) : List Warning :=
  (later.gaps.reports.drop earlier.gaps.reports.length).map .gap

theorem ofGaps_self (a : Analyzer) : ofGaps a a = [] := by
  rw [ofGaps, List.drop_length]
  rfl

/-- The warnings of visiting a store. -/
def ofVisit (s : Store) : List Warning :=
  s.unanswered?.toList.map .residencyUnknown

end Warning
end TaintFlow
