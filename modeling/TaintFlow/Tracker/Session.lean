import TaintFlow.Dump.Writer
import TaintFlow.Fault.Signal
import TaintFlow.Inline.Exec
import TaintFlow.Inline.Lower
import TaintFlow.Options

/-!
# Sessions

A session is what the tracker holds while it runs: a store, an analyzer, and how they were set up.
Instructions are propagated either directly or by inline code. What cannot be gone on with ends the
process: an instruction without rules under the strict policy, and a fault that cannot be recovered.
-/

namespace TaintFlow

/-- What ends the process. -/
inductive Fatal where
  /-- An instruction has no rules and the policy is strict. -/
  | gap (i : Instr) (g : Gap)
  | fault (e : FaultError)
deriving DecidableEq

def Fatal.message : Fatal → String
  | .gap i g => i.text ++ ": " ++ g.message
  | .fault e => e.message

/-- How an operation of a session fails. -/
inductive Failure (ε : Type) where
  /-- The operation failed, and the session goes on. -/
  | error (e : ε)
  | fatal (f : Fatal)

/-- Whether write faults are to be recovered. Only a lazy store has any. -/
def Options.handlesFaults (o : Options) : Bool :=
  o.backend == .lazy && o.installFaultHandler

/-- A running tracker. -/
structure Session where
  /-- The client that started it. -/
  client : UInt32
  options : Options
  store : Store
  analyzer : Analyzer
  decoder : Option FaultDecoder

namespace Session

/-- Set up a session with an empty store. -/
def create (client : UInt32) (options : Options) (decoder : Option FaultDecoder) (window : Window)
    (mapping : Mapping) : Except ShadowError Session :=
  (Store.create options.backend window mapping).map fun store =>
    ⟨client, options, store, .new options.policy options.tracksPc, decoder⟩

/-- An action on the store of a session. -/
def onStore {ε α : Type} (act : Action Store ε α) : Action Session ε α :=
  Action.focus Session.store (fun store s => { s with store }) id act

/-- Make the plan of an instruction. -/
def analyze (i : Instr) : Action Session Gap Plan :=
  Action.focus Session.analyzer (fun analyzer s => { s with analyzer }) id (Analyzer.analyze i)

/-- An action on the tags of the session and of one of its threads. -/
def onTags {ε ε' α : Type} (wrap : ε → ε') (act : Action TagState ε α) :
    Action (Session × ThreadContext) ε' α :=
  Action.focus (fun s => ⟨s.1.store, s.2⟩)
    (fun tags s => ({ s.1 with store := tags.store }, tags.thread)) wrap act

/-- Propagate the tags of an instruction that a thread is about to execute with the given values of
its registers. -/
def propagate (i : Instr) (f : RegFile) :
    Action (Session × ThreadContext) (Failure ApplyError) Unit := do
  let plan ← Action.focus Prod.fst (fun session s => (session, s.2)) (fun g => .fatal (.gap i g))
    (analyze i)
  onTags .error (plan.apply f)

/-- Emit the inline code of an instruction. -/
def instrument {σ ε : Type} (em : Emitter σ ε) (i : Instr) :
    Action (Session × σ) (Failure ε) Plan :=
  let wrap : LowerError ε → Failure ε
    | .emitter e => .error e
    | .gap g => .fatal (.gap i g)
  Action.focus (fun s => (s.1.analyzer, s.2))
    (fun part s => ({ s.1 with analyzer := part.1 }, part.2)) wrap (Analyzer.instrument em i)

/-- Execute inline code on behalf of a thread. -/
def execute (f : RegFile) (code : List InlineInstr) :
    Action (Session × ThreadContext) (Failure ExecError) Unit :=
  let wrap : ExecError → Failure ExecError
    | .fault e => .fatal (.fault e)
    | e => .error e
  onTags wrap (runInline f code)

/-- Write the dump of the store. -/
def dump (s : Session) : Action Dump.Sink Dump.SinkError Nat :=
  Dump.write s.store.visit

end Session
end TaintFlow
