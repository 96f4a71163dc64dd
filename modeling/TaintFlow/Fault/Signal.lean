import TaintFlow.Fault.MachineContext
import TaintFlow.Thread

/-!
# Signals

Write faults reach the tracker as signals. A table says who handles which signal, and what the
operating system would have done before; registration takes a signal only while it is free, and
deregistration puts back what was there.
-/

namespace TaintFlow

/-- The signals that a fault raises. -/
inductive Signal where
  | bus
  | segv
deriving DecidableEq, Repr

namespace Signal

def number : Signal → Nat
  | .bus => 7
  | .segv => 11

def ofNumber? : Int → Option Signal
  | 7 => some .bus
  | 11 => some .segv
  | _ => none

def name : Signal → String
  | .bus => "SIGBUS"
  | .segv => "SIGSEGV"

def ofName? (s : String) : Option Signal :=
  [Signal.bus, .segv].find? fun x => x.name == s

/-- The signals that the tracker's handler is registered for, in order. -/
def faults : List Signal :=
  [.segv, .bus]

end Signal

/-- Why a handler cannot be registered or deregistered. -/
inductive SignalError where
  | failedToInstall (s : Signal) (errno : Int)
  | failedToRestore (s : Signal) (errno : Int)
  | alreadyRegistered (s : Signal)
deriving DecidableEq, Repr

def SignalError.message : SignalError → String
  | .failedToInstall s errno =>
    "Failed to set up the " ++ s.name ++ " handler, errno: " ++ toString errno
  | .failedToRestore s errno =>
    "Failed to restore the " ++ s.name ++ " handler, errno: " ++ toString errno
  | .alreadyRegistered s => "A handler is already registered for " ++ s.name

/-- Who handles a signal. -/
inductive Handler where
  /-- The tracker's fault handler. -/
  | tracker
  /-- A handler of the host, told apart by a number. -/
  | host (id : Nat)
deriving DecidableEq, Repr

/-- What the operating system does with a signal. -/
inductive Disposition where
  /-- What was set up before any registration; an unrelated fault ends the process. -/
  | inherited
  /-- Call the registered handler. -/
  | registered
deriving DecidableEq, Repr

/-- A registration, and the disposition that it replaced. -/
structure Registration where
  handler : Handler
  previous : Disposition
deriving DecidableEq, Repr

/-- Registrations and dispositions of the two signals. -/
structure SignalTable where
  registration : Signal → Option Registration
  disposition : Signal → Disposition

namespace SignalTable

def initial : SignalTable :=
  ⟨fun _ => none, fun _ => .inherited⟩

/-- Change the entries of one signal. -/
def update (t : SignalTable) (s : Signal) (r : Option Registration) (d : Disposition) :
    SignalTable :=
  ⟨fun x => if x = s then r else t.registration x, fun x => if x = s then d else t.disposition x⟩

/-- Register a handler for one signal. -/
def registerOne (h : Handler) (s : Signal) : Action SignalTable SignalError Unit :=
  fun t =>
    match t.registration s with
    | some _ => .error (.alreadyRegistered s) t
    | none => .ok () (t.update s (some ⟨h, t.disposition s⟩) .registered)

/-- Register a handler for several signals in order. The ones before a failure stay registered. -/
def register (h : Handler) (signals : List Signal) : Action SignalTable SignalError Unit :=
  signals.forM (registerOne h)

/-- Deregister a handler from one signal, and tell whether the signal has another handler. -/
def deregisterOne (h : Handler) (t : SignalTable) (s : Signal) : SignalTable × Bool :=
  match t.registration s with
  | none => (t, false)
  | some r => if r.handler = h then (t.update s none r.previous, false) else (t, true)

/-- Deregister a handler from its signals; returns those that have another handler. -/
def deregister (h : Handler) : List Signal → SignalTable → SignalTable × List Signal
  | [], t => (t, [])
  | s :: rest, t =>
    let (t, foreign) := deregisterOne h t s
    let (t, others) := deregister h rest t
    (t, if foreign then s :: others else others)

/-- Whether a fault that raises the signal is handled by the tracker. -/
def reachesTracker (t : SignalTable) (s : Signal) : Bool :=
  t.disposition s = .registered && (t.registration s).any (·.handler = .tracker)

end SignalTable

/-- What the tracker's handler makes of a signal. -/
inductive SignalOutcome where
  /-- The fault is recovered; the interrupted store is repeated. -/
  | resumed
  /-- The fault is handed to the previous disposition. -/
  | delivered
  /-- The fault is the shadow's, but it cannot be recovered. -/
  | fatal (e : FaultError)
deriving DecidableEq

/-- Handle a fault at the address `access`. Without a current thread context there is no saved
address to recover with. -/
def handleSignal (current : Option ThreadContext) (decoder : Option FaultDecoder)
    (access : Address) (store : Store) (context : Option MachineContext) :
    SignalOutcome × Store × Option MachineContext :=
  match current with
  | none => (.delivered, store, context)
  | some thread =>
    let recovery := recoverFault (MachineContext.patch decoder) access (thread.slot .appAddress)
    match recovery (store, context) with
    | .ok .resume (store, context) => (.resumed, store, context)
    | .ok .deliver (store, context) => (.delivered, store, context)
    | .error e (store, context) => (.fatal e, store, context)

end TaintFlow
