import TaintFlow.Plan.Select

/-!
# Analysis

The analyzer makes the plans. An instruction without rules is a gap: it is reported the first time
that its opcode fails in its way, and either it is an error or it gets an empty plan, by policy.
-/

namespace TaintFlow

/-- What to do with an instruction that has no rules. -/
inductive GapPolicy where
  /-- Report it and let it move no tags. -/
  | permissive
  /-- Fail. -/
  | strict
deriving DecidableEq, Repr

/-- An instruction that has no rules. -/
structure Gap where
  kind : GapKind
  opcode : Opcode
  pc : Address
deriving DecidableEq

namespace Gap

def message (g : Gap) : String :=
  match g.kind with
  | .unhandled => "Unhandled opcode: " ++ g.opcode.name
  | .malformed => "Unexpected operands for " ++ g.opcode.name ++ " at " ++ Hex.text g.pc.toNat

/-- The warning with which a gap is reported. -/
def warning (g : Gap) : String :=
  match g.kind with
  | .unhandled =>
    "coverage gap - " ++ g.message ++ " (first seen at " ++ Hex.text g.pc.toNat ++ ")"
  | .malformed => "malformed instruction - " ++ g.message

/-- Whether two gaps are of the same kind and opcode, so that one report covers both. -/
def sameAs (g h : Gap) : Bool :=
  g.kind == h.kind && g.opcode == h.opcode

end Gap

/-- The gaps that were reported, in the order of their reports. -/
structure GapLog where
  reports : List Gap
deriving DecidableEq

namespace GapLog

def empty : GapLog :=
  ⟨[]⟩

/-- Report a gap, unless one of its kind and opcode has been reported. -/
def report (l : GapLog) (g : Gap) : GapLog :=
  if l.reports.any g.sameAs then l else ⟨l.reports ++ [g]⟩

/-- The opcodes reported for one kind of gap. -/
def opcodes (l : GapLog) (k : GapKind) : List Opcode :=
  (l.reports.filter fun g => g.kind == k).map Gap.opcode

/-- The opcodes without a rule. -/
def unhandled (l : GapLog) : List Opcode :=
  l.opcodes .unhandled

/-- The opcodes met with operands that do not fit. -/
def malformed (l : GapLog) : List Opcode :=
  l.opcodes .malformed

def isEmpty (l : GapLog) : Bool :=
  l.reports.isEmpty

end GapLog

/-- Makes plans and keeps the log of gaps. -/
structure Analyzer where
  policy : GapPolicy
  tracksPc : Bool
  gaps : GapLog

namespace Analyzer

def new (policy : GapPolicy) (tracksPc : Bool) : Analyzer :=
  ⟨policy, tracksPc, .empty⟩

/-- Make the plan of an instruction. -/
def analyze (i : Instr) : Action Analyzer Gap Plan :=
  fun a =>
    match i.rules a.tracksPc with
    | .ok rules => .ok ⟨i.pc, i.opcode, rules⟩ a
    | .error kind =>
      let gap : Gap := ⟨kind, i.opcode, i.pc⟩
      let a := { a with gaps := a.gaps.report gap }
      match a.policy with
      | .strict => .error gap a
      | .permissive => .ok ⟨i.pc, i.opcode, []⟩ a

end Analyzer
end TaintFlow
