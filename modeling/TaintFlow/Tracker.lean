import TaintFlow.Dump.File
import TaintFlow.Leak.Guard
import TaintFlow.Tracker.Session
import TaintFlow.Tracker.Warning

/-!
# The tracker

A session stays in memory as long as something refers to it, which its count of references tells.
Every handle refers to a session, and so does the registry, in which the next client finds the
session to share. The release of a handle therefore has to notice when only the handle and the
registry are left. While a session recovers faults its handler is registered for both fault signals.
A thread of the process has at most one current context, which is where a fault finds the address
that was saved before it.
-/

namespace TaintFlow

/-- Names a session. -/
structure SessionId where
  serial : Nat
deriving DecidableEq, Repr

/-- A reference to a session, held by a client. -/
structure Handle where
  serial : Nat
  session : SessionId
deriving DecidableEq, Repr

/-- A session in memory, and how many references to it there are. -/
structure Shared where
  session : Session
  references : Nat

/-- Names a thread context. -/
structure ThreadId where
  serial : Nat
deriving DecidableEq, Repr

/-- A guard holds a handle until it finishes. -/
structure LeakGuard where
  handle : Handle
  options : LeakOptions

/-- Why a session cannot be started. -/
inductive SetupError where
  | shadow (e : ShadowError)
  | signal (e : SignalError)
deriving DecidableEq

/-- What becomes of a store that a thread makes directly at a shadow address. -/
inductive NativeStore where
  | stored
  /-- The store faulted, and the fault was handed to a disposition that ends the process. -/
  | killed
  /-- The store faulted, and the fault could not be recovered. -/
  | aborted (e : FaultError)
deriving DecidableEq

/-- Why a dump cannot be written to a file. -/
inductive FileError where
  | notCreated
  | sink (e : Dump.SinkError)
deriving DecidableEq, Repr

/-- What the process holds for the tracker. -/
structure Tracker where
  /-- The sessions in memory. -/
  sessions : SessionId → Option Shared
  /-- The registry: a reference to the session that the next client shares. -/
  registered : Option SessionId
  /-- The handles that were not released yet. -/
  handles : List Handle
  threads : List (ThreadId × ThreadContext)
  /-- The thread context that faults are recovered with. -/
  current : Option ThreadId
  signals : SignalTable
  /-- How many serial numbers were given out. -/
  issued : Nat
  warnings : List Warning

namespace Tracker

/-- The state without a session. -/
def initial : Tracker :=
  ⟨fun _ => none, none, [], [], none, .initial, 0, []⟩

/-- A session as those see it who refer to it. -/
def session? (r : SessionId) (tr : Tracker) : Option Session :=
  (tr.sessions r).map Shared.session

/-- How many references to a session there are. -/
def references (r : SessionId) (tr : Tracker) : Nat :=
  (tr.sessions r).elim 0 Shared.references

/-- Whether there is a session to share. -/
def isLive (tr : Tracker) : Bool :=
  tr.registered.isSome

def warn (w : Warning) (tr : Tracker) : Tracker :=
  { tr with warnings := tr.warnings ++ [w] }

/-- A number that was not given out before. -/
def issue (tr : Tracker) : Nat × Tracker :=
  (tr.issued, { tr with issued := tr.issued + 1 })

/-- Change what is in memory for a session. -/
def setShared (r : SessionId) (shared : Option Shared) (tr : Tracker) : Tracker :=
  { tr with sessions := fun q => if q = r then shared else tr.sessions q }

/-- Change a session in its place. -/
def setSession (r : SessionId) (session : Session) (tr : Tracker) : Tracker :=
  tr.setShared r ((tr.sessions r).map fun shared => { shared with session })

/-- Put back a session after an action on it. The gaps that it has newly reported are warned of. -/
def update (r : SessionId) (before after : Session) (tr : Tracker) : Tracker :=
  let tr := tr.setSession r after
  { tr with warnings := tr.warnings ++ Warning.ofGaps before.analyzer after.analyzer }

/-- Run an action on the session of a handle, if it is in memory. -/
def onSession? {ε α : Type} (h : Handle) (act : Action Session ε α) (tr : Tracker) :
    Option (Except ε α × Tracker) :=
  (tr.session? h.session).map fun session =>
    let (result, after) := act.outcome session
    (result, tr.update h.session session after)

/-! ## Signal handlers -/

/-- Register a handler. -/
def registerHandler (h : Handler) (signals : List Signal) : Action Tracker SignalError Unit :=
  Action.focus Tracker.signals (fun signals tr => { tr with signals }) id
    (SignalTable.register h signals)

/-- Deregister a handler, leaving the signals that another handler has. -/
def deregisterHandler (h : Handler) (signals : List Signal) (tr : Tracker) : Tracker :=
  let (table, foreign) := tr.signals.deregister h signals
  { tr with signals := table, warnings := tr.warnings ++ foreign.map .foreignHandler }

/-- Register the tracker's own handler, or leave everything as it was. -/
def registerTracker : Action Tracker SignalError Unit :=
  (registerHandler .tracker Signal.faults).undoneBy
    (modify (deregisterHandler .tracker Signal.faults))

/-! ## References to sessions -/

/-- Take one more reference to a session. -/
def addReference (r : SessionId) (tr : Tracker) : Tracker :=
  tr.setShared r <| (tr.sessions r).map fun shared =>
    { shared with references := shared.references + 1 }

/-- Give up a reference to a session. The session ends with the last one, and with the session the
registration of its handler. -/
def dropReference (r : SessionId) (tr : Tracker) : Tracker :=
  match tr.sessions r with
  | none => tr
  | some shared =>
    if shared.references = 1 then
      let tr := tr.setShared r none
      if shared.session.options.handlesFaults then tr.deregisterHandler .tracker Signal.faults
      else tr
    else tr.setShared r (some { shared with references := shared.references - 1 })

/-- The registry gives up its reference. -/
def unregister (tr : Tracker) : Tracker :=
  match tr.registered with
  | none => tr
  | some r => { tr with registered := none }.dropReference r

/-! ## Handles -/

/-- Make a handle of a reference to a session. -/
def newHandle (r : SessionId) (tr : Tracker) : Handle × Tracker :=
  let (serial, tr) := tr.issue
  (⟨serial, r⟩, { tr with handles := ⟨serial, r⟩ :: tr.handles })

/-- A further handle on a session. -/
def share (r : SessionId) (tr : Tracker) : Handle × Tracker :=
  (tr.addReference r).newHandle r

/-- Take a session that was just set up into memory and register it, with a first handle on it. -/
def found (session : Session) (tr : Tracker) : Handle × Tracker :=
  let (serial, tr) := tr.issue
  let r : SessionId := ⟨serial⟩
  let tr := tr.setShared r (some ⟨session, 1⟩)
  -- The first reference goes to the client, the second one to the registry.
  let tr := { tr.addReference r with registered := some r }
  tr.newHandle r

/-- Warn a client that asks for other options than those of a session. -/
def ignoreOptions (r : SessionId) (asked : Options) (tr : Tracker) : Tracker :=
  match tr.session? r with
  | none => tr
  | some session =>
    if session.options = asked then tr
    else tr.warn (.optionsIgnored session.client session.options asked)

/-- Obtain a handle on the registered session, or start one in the given memory. Options that differ
from those of the registered session are ignored. -/
def acquire (client : UInt32) (options : Options) (decoder : Option FaultDecoder) (window : Window)
    (mapping : Mapping) : Action Tracker SetupError Handle := do
  match (← get).registered with
  | some r =>
    modify (ignoreOptions r options)
    modifyGet (share r)
  | none =>
    let session ← Action.lift .shadow (Session.create client options decoder window mapping)
    if options.handlesFaults then
      Action.focus id (fun tr _ => tr) .signal registerTracker
    modifyGet (found session)

/-- Release a handle. If nothing but the handle and the registry refers to its session, the registry
gives up its reference first, so that the session ends with the handle. -/
def release (h : Handle) (tr : Tracker) : Tracker :=
  let tr := { tr with handles := tr.handles.erase h }
  -- The two are the handle's own reference and the registry's.
  let tr := if tr.references h.session = 2 then tr.unregister else tr
  tr.dropReference h.session

/-! ## Threads -/

/-- Make a clean context at an address and make it the current one. -/
def startThread (session : Session) (address : Address) (tr : Tracker) : ThreadId × Tracker :=
  let tr := if tr.current.isSome then tr.warn .contextReplaced else tr
  let (serial, tr) := tr.issue
  let thread := ThreadContext.new address session.options.tracksPc
  (⟨serial⟩, { tr with threads := (⟨serial⟩, thread) :: tr.threads, current := some ⟨serial⟩ })

/-- Drop a context. Afterwards there is no current one. -/
def endThread (t : ThreadId) (tr : Tracker) : Tracker :=
  { tr with threads := tr.threads.filter (·.1 ≠ t), current := none }

/-- Whatever was current before, the new context is current now. -/
theorem startThread_eq (session : Session) (address : Address) (tr : Tracker) :
    ∃ warnings, tr.startThread session address = (⟨tr.issued⟩,
      { tr with
        threads := (⟨tr.issued⟩, .new address session.options.tracksPc) :: tr.threads
        current := some ⟨tr.issued⟩
        issued := tr.issued + 1
        warnings }) := by
  unfold startThread
  split <;> exact ⟨_, rfl⟩

def context? (tr : Tracker) (t : ThreadId) : Option ThreadContext :=
  tr.threads.lookup t

/-- Replace the contents of a context. -/
def setContext (t : ThreadId) (c : ThreadContext) (tr : Tracker) : Tracker :=
  { tr with threads := tr.threads.map fun (u, d) => if u = t then (u, c) else (u, d) }

/-- Run an action on a context, if it exists. -/
def onThread? {ε α : Type} (t : ThreadId) (act : Action ThreadContext ε α) (tr : Tracker) :
    Option (Except ε α × Tracker) :=
  (tr.context? t).map fun thread =>
    let (result, thread) := act.outcome thread
    (result, tr.setContext t thread)

/-- Run an action on the session of a handle and a context, if both exist. -/
def onTags? {ε α : Type} (h : Handle) (t : ThreadId) (act : Action (Session × ThreadContext) ε α)
    (tr : Tracker) : Option (Except ε α × Tracker) := do
  let session ← tr.session? h.session
  let thread ← tr.context? t
  let (result, after, thread) := act.outcome (session, thread)
  return (result, (tr.update h.session session after).setContext t thread)

def currentContext (tr : Tracker) : Option ThreadContext :=
  tr.current.bind tr.context?

/-- Store a byte at a shadow address of a handle's session without asking its store, as inline code
on the machine does. The machine's registers hold nothing that recovery would have to change. -/
def storeNatively (h : Handle) (session : Session) (shadow : Address) (t : Tag) (tr : Tracker) :
    NativeStore × Tracker :=
  let put (store : Store) : Tracker := tr.update h.session session { session with store }
  match session.store.pageKind shadow with
  | some .owned => (.stored, put (session.store.pokeByte shadow t))
  | none => (.killed, tr)
  | some .shared =>
    if !tr.signals.reachesTracker .segv then (.killed, tr)
    else
      let idle : MachineContext := ⟨Vector.replicate 23 0⟩
      match handleSignal tr.currentContext session.decoder shadow session.store (some idle) with
      | (.resumed, store, _) => (.stored, put (store.pokeByte shadow t))
      | (.delivered, _, _) => (.killed, tr)
      | (.fatal e, _, _) => (.aborted e, tr)

/-! ## Dumps and guards -/

/-- Write the dump of a session to a file. -/
def dumpToFile (session : Session) (files : Dump.FileTree) (path : String) :
    Except FileError (Nat × Dump.Sink) :=
  match files.create? path with
  | none => .error .notCreated
  | some sink =>
    match session.dump sink with
    | .ok records sink => .ok (records, sink)
    | .error e _ => .error (.sink e)

/-- Turn a handle into a guard. -/
def newGuard (session : Session) (h : Handle) (options : LeakOptions) (tr : Tracker) :
    LeakGuard × Tracker :=
  (⟨h, options⟩, if session.options.tracksPc then tr else tr.warn .pcUntracked)

/-- Finish a guard: dump the tags if it is so configured, then release its handle also if the dump
failed. -/
def finish (session : Session) (g : LeakGuard) (files : Dump.FileTree) (tr : Tracker) :
    Except FileError (Option Dump.Sink) × Tracker :=
  let written :=
    match g.options.dumpOnExit with
    | none => .ok none
    | some path => (dumpToFile session files path).map fun (_, sink) => some sink
  (written, tr.release g.handle)

/-- Tag the initial stack. -/
def guardEntry (session : Session) (g : LeakGuard) (m : StackImage) (sp : Address) (tr : Tracker) :
    Except ShadowError Unit × Tracker :=
  let tr := if (m.word? sp).isSome then tr else tr.warn (.argcUnreadable sp)
  let put (store : Store) : Tracker := tr.update g.handle.session session { session with store }
  match LeakGuard.onEntry m sp session.store with
  | .ok _ store => (.ok (), put store)
  | .error e store => (.error e, put store)

/-- Check a system call, warning of a leak. -/
def guardSyscall (session : Session) (g : LeakGuard) (number : UInt32) (buffer length : Address)
    (tr : Tracker) : Except ShadowError Verdict × Tracker :=
  let verdict := LeakGuard.onPreSyscall g.options session.store number buffer length
  match verdict with
  | .ok (.leak l) | .ok (.fail l) => (verdict, tr.warn (.leak l))
  | _ => (verdict, tr)

end Tracker
end TaintFlow
