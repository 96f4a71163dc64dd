import Mathlib.Data.List.Induction
import TaintFlow.Proofs.Fault.Registration
import TaintFlow.Proofs.Shadow.Regions
import TaintFlow.Proofs.Tracker.References

/-!
# The life of a session

A session lives from the first handle to the release of the last one, in whatever order handles are
obtained, shared and released. All handles refer to the registered session, so that its count is by
one above their number, and no other session is in memory. Obtaining a handle either starts a
session with an empty store, shares the registered one, or fails and leaves nothing behind.
-/

namespace TaintFlow

open TaintFlow.Action

/-! ## Setting up a session -/

theorem Session.of_create_eq_ok {client : UInt32} {options : Options}
    {decoder : Option FaultDecoder} {window : Window} {mapping : Mapping} {session : Session}
    (h : Session.create client options decoder window mapping = .ok session) :
    ∃ store, Store.create options.backend window mapping = .ok store ∧
      session = ⟨client, options, store, .new options.policy options.tracksPc, decoder⟩ := by
  unfold Session.create at h
  cases hstore : Store.create options.backend window mapping with
  | error e => simp [hstore, Except.map] at h
  | ok store =>
      rw [hstore] at h
      exact ⟨store, rfl, (Except.ok.inj h).symm⟩

/-- Only the store stands in the way of a session. -/
theorem Session.exists_create_iff {client : UInt32} {options : Options}
    {decoder : Option FaultDecoder} {window : Window} {mapping : Mapping} :
    (∃ session, Session.create client options decoder window mapping = .ok session) ↔
      ∃ store, Store.create options.backend window mapping = .ok store := by
  constructor
  · rintro ⟨session, hcreate⟩
    obtain ⟨store, hstore, -⟩ := of_create_eq_ok hcreate
    exact ⟨store, hstore⟩
  · rintro ⟨store, hstore⟩
    refine ⟨⟨client, options, store, .new options.policy options.tracksPc, decoder⟩, ?_⟩
    rw [Session.create, hstore]
    rfl

namespace Tracker

/-- The tracker's handler is registered for both signals if they are free. Otherwise the signals
that it took are given back, with the dispositions that they had. -/
theorem registerTracker_cases {tr : Tracker} (h : tr.signals.Lacks .tracker) :
    (tr.signals.Free ∧ ∃ signals, registerTracker tr = .ok () { tr with signals }) ∨
      (¬ tr.signals.Free ∧ ∃ e warnings, registerTracker tr = .error e { tr with warnings }) := by
  unfold registerTracker registerHandler undoneBy focus
  rcases SignalTable.register_cases h with ⟨hfree, t, hok⟩ | ⟨hfree, e, t, herror, hundone⟩
  · rw [hok]
    exact Or.inl ⟨hfree, t, rfl⟩
  · rw [herror]
    have hundo : deregisterHandler .tracker Signal.faults { tr with signals := t } =
        { tr with
          warnings := tr.warnings ++
            (SignalTable.deregister .tracker Signal.faults t).2.map .foreignHandler } := by
      rw [deregisterHandler]
      dsimp only
      rw [hundone]
    exact Or.inr ⟨hfree, e, _, congrArg (EStateM.Result.error e) hundo⟩

/-! ## Obtaining a handle -/

section Acquire

variable (client : UInt32) (options : Options) (decoder : Option FaultDecoder) (window : Window)
  (mapping : Mapping) {tr : Tracker}

/-- The registered session is shared, whatever the options are. -/
theorem acquire_registered {r : SessionId} (h : tr.registered = some r) :
    ∃ warnings, acquire client options decoder window mapping tr =
      .ok ({ tr with warnings }.share r).1 ({ tr with warnings }.share r).2 := by
  -- Other options are warned of, and nothing else comes of them.
  have hignored : ∃ warnings, ignoreOptions r options tr = { tr with warnings } := by
    unfold ignoreOptions
    split
    · exact ⟨_, rfl⟩
    · split <;> exact ⟨_, rfl⟩
  obtain ⟨warnings, hignored⟩ := hignored
  refine ⟨warnings, ?_⟩
  rw [← hignored]
  unfold acquire
  rw [get_bind]
  dsimp only
  rw [h]
  rfl

/-- Make a session the registered one, and register the tracker's handler if it is to recover
faults. -/
def start (session : Session) (handlesFaults : Bool) : Action Tracker SetupError Handle := do
  if handlesFaults then
    focus id (fun tr _ => tr) .signal registerTracker
  modifyGet (found session)

theorem acquire_idle_eq (h : tr.registered = none) :
    acquire client options decoder window mapping tr =
      match Session.create client options decoder window mapping with
      | .error e => .error (.shadow e) tr
      | .ok session => start session options.handlesFaults tr := by
  unfold acquire
  rw [get_bind]
  dsimp only
  rw [h]
  cases Session.create client options decoder window mapping with
  | error e => rfl
  | ok session => rfl

theorem start_cases (session : Session) (handlesFaults : Bool)
    (hlacks : tr.signals.Lacks .tracker) :
    ((handlesFaults = true → tr.signals.Free) ∧
        ∃ signals, (handlesFaults = false → signals = tr.signals) ∧
          start session handlesFaults tr =
            .ok ({ tr with signals }.found session).1 ({ tr with signals }.found session).2) ∨
      ((handlesFaults = true ∧ ¬ tr.signals.Free) ∧
        ∃ e warnings, start session handlesFaults tr = .error e { tr with warnings }) := by
  cases handlesFaults with
  | false => exact Or.inl ⟨nofun, tr.signals, fun _ => rfl, rfl⟩
  | true =>
      have hstart : start session true =
          focus id (fun tr _ => tr) .signal registerTracker >>= fun _ =>
            modifyGet (found session) := rfl
      rw [hstart]
      rcases registerTracker_cases hlacks with ⟨hfree, signals, hok⟩ | ⟨hfree, e, warnings, herror⟩
      · have hregister : (focus id (fun tr _ => tr) .signal registerTracker :
            Action Tracker SetupError Unit) tr = .ok () { tr with signals } := by
          rw [focus, id, hok]
        rw [bind_ok hregister]
        exact Or.inl ⟨fun _ => hfree, signals, nofun, rfl⟩
      · have hregister : (focus id (fun tr _ => tr) .signal registerTracker :
            Action Tracker SetupError Unit) tr = .error (.signal e) { tr with warnings } := by
          rw [focus, id, herror]
        rw [bind_error hregister]
        exact Or.inr ⟨⟨rfl, hfree⟩, _, warnings, rfl⟩

/-- Without a registered session, one is started if its store can be set up and, where faults are to
be recovered, both signals are free. Otherwise nothing is left behind. -/
theorem acquire_idle (h : tr.registered = none) (hlacks : tr.signals.Lacks .tracker) :
    (∃ session signals, Session.create client options decoder window mapping = .ok session ∧
        (options.handlesFaults = true → tr.signals.Free) ∧
        (options.handlesFaults = false → signals = tr.signals) ∧
        acquire client options decoder window mapping tr =
          .ok ({ tr with signals }.found session).1 ({ tr with signals }.found session).2) ∨
      (¬ ((∃ session, Session.create client options decoder window mapping = .ok session) ∧
          (options.handlesFaults = true → tr.signals.Free)) ∧
        ∃ e warnings, acquire client options decoder window mapping tr =
          .error e { tr with warnings }) := by
  rw [acquire_idle_eq client options decoder window mapping h]
  cases Session.create client options decoder window mapping with
  | error e =>
      refine Or.inr ⟨?_, .shadow e, tr.warnings, rfl⟩
      rintro ⟨⟨session, hsession⟩, -⟩
      cases hsession
  | ok session =>
      rcases start_cases session options.handlesFaults hlacks with
        ⟨hfree, signals, hsignals, hok⟩ | ⟨⟨hfaults, hfree⟩, e, warnings, herror⟩
      · exact Or.inl ⟨session, signals, rfl, hfree, hsignals, hok⟩
      · exact Or.inr ⟨fun hcan => hfree (hcan.2 hfaults), e, warnings, herror⟩

theorem acquire_granted_iff (h : tr.registered = none) (hlacks : tr.signals.Lacks .tracker) :
    (∃ handle tr', acquire client options decoder window mapping tr = .ok handle tr') ↔
      (∃ store, Store.create options.backend window mapping = .ok store) ∧
        (options.handlesFaults = true → tr.signals.Free) := by
  rw [← @Session.exists_create_iff client options decoder window mapping]
  rcases acquire_idle client options decoder window mapping h hlacks with
    ⟨session, signals, hcreate, hfree, -, hok⟩ | ⟨hcannot, e, warnings, herror⟩
  · exact iff_of_true ⟨_, _, hok⟩ ⟨⟨session, hcreate⟩, hfree⟩
  · refine iff_of_false ?_ hcannot
    rintro ⟨handle, tr', hok⟩
    rw [herror] at hok
    cases hok

end Acquire

theorem session?_found (session : Session) (tr : Tracker) (r : SessionId) :
    (tr.found session).2.session? r = if r = ⟨tr.issued⟩ then some session else tr.session? r := by
  change (({ tr with issued := tr.issued + 1 }.setShared ⟨tr.issued⟩
    (some ⟨session, 1⟩)).addReference ⟨tr.issued⟩).session? r = _
  rw [session?_addReference, session?_setShared]
  rfl

/-! ## Releasing a handle -/

/-- The state once a handle is released that was the last one on its session. -/
def ended (h : Handle) (session : Session) (tr : Tracker) : Tracker :=
  let tr := { tr with registered := none, handles := tr.handles.erase h }.setShared h.session none
  if session.options.handlesFaults then tr.deregisterHandler .tracker Signal.faults else tr

theorem ended_frame (h : Handle) (session : Session) (tr : Tracker) :
    (tr.ended h session).registered = none ∧
      (tr.ended h session).handles = tr.handles.erase h ∧
      (tr.ended h session).issued = tr.issued := by
  unfold ended
  dsimp only
  split <;> exact ⟨rfl, rfl, rfl⟩

/-- The release that finds two references, the handle's and the registry's, ends the session. -/
theorem release_eq {tr : Tracker} {session : Session} {h : Handle}
    (hregistered : tr.registered = some h.session)
    (hsession : tr.session? h.session = some session) (hshared : 1 < tr.references h.session) :
    tr.release h =
      if tr.references h.session = 2 then tr.ended h session
      else { tr with handles := tr.handles.erase h }.setShared h.session
        (some ⟨session, tr.references h.session - 1⟩) := by
  have hsessions := sessions_of_session? hsession
  let erased : Tracker := { tr with handles := tr.handles.erase h }
  have hreferences : erased.references h.session = tr.references h.session := rfl
  unfold release
  dsimp only
  rw [hreferences]
  by_cases hlast : tr.references h.session = 2
  · rw [if_pos hlast, if_pos hlast, unregister]
    dsimp only
    rw [hregistered]
    dsimp only
    rw [hlast] at hsessions
    -- First the registry gives up its reference, then the handle.
    let released : Tracker := { tr with registered := none, handles := tr.handles.erase h }
    have hfirst : released.dropReference h.session =
        released.setShared h.session (some ⟨session, 1⟩) :=
      (dropReference_eq released hsessions).trans (if_neg (by decide))
    have hsecond : (released.setShared h.session (some ⟨session, 1⟩)).dropReference h.session =
        tr.ended h session := by
      rw [dropReference_eq _ (n := 1) (if_pos rfl), if_pos rfl, setShared_setShared]
      rfl
    exact (congrArg (dropReference h.session) hfirst).trans hsecond
  · rw [if_neg hlast, if_neg hlast]
    exact (dropReference_eq erased hsessions).trans (if_neg (by omega))

/-! ## Runs -/

/-- What the holders of handles and the host do. -/
inductive Event : Type 1 where
  | acquire (client : UInt32) (options : Options) (decoder : Option FaultDecoder) (window : Window)
      (mapping : Mapping)
  | share (h : Handle)
  | release (h : Handle)
  | finish (g : LeakGuard) (files : Dump.FileTree)
  /-- Anything is done through a handle to the store of its session. -/
  | use (h : Handle) {ε α : Type} (act : Action Store ε α)
  | registerHost (id : Nat) (signals : List Signal)
  | deregisterHost (id : Nat) (signals : List Signal)

namespace Event

/-- The handle that has to be alive. -/
def handle? : Event → Option Handle
  | .share h => some h
  | .release h => some h
  | .finish g _ => some g.handle
  | .use h _ => some h
  | _ => none

def perform : Event → Tracker → Tracker
  | .acquire client options decoder window mapping, tr =>
      (outcome (Tracker.acquire client options decoder window mapping) tr).2
  | .share h, tr => (tr.share h.session).2
  | .release h, tr => tr.release h
  | .finish g files, tr =>
      match tr.session? g.handle.session with
      | some session => (tr.finish session g files).2
      | none => tr
  | .use h act, tr =>
      match tr.onSession? h (Session.onStore act) with
      | some (_, tr) => tr
      | none => tr
  | .registerHost id signals, tr => (outcome (registerHandler (.host id) signals) tr).2
  | .deregisterHost id signals, tr => tr.deregisterHandler (.host id) signals

/-- What the event makes of the store. -/
def touch : Event → Store → Store
  | .use _ act, s => (outcome act s).2
  | _, s => s

end Event

theorem Event.perform_use {ε α : Type} {tr : Tracker} {h : Handle} {session : Session}
    (act : Action Store ε α) (hsession : tr.session? h.session = some session) :
    ∃ warnings, (Event.use h act).perform tr =
      { tr.setSession h.session { session with store := (outcome act session.store).2 } with
        warnings } := by
  have hact : outcome (Session.onStore act) session =
      ((outcome act session.store).1.mapError id,
        { session with store := (outcome act session.store).2 }) :=
    outcome_focus _ _ _ act session
  rw [perform, onSession?, hsession, Option.map_some]
  dsimp only
  rw [hact]
  exact ⟨_, rfl⟩

theorem Event.perform_finish {tr : Tracker} {g : LeakGuard} {session : Session}
    (files : Dump.FileTree) (hsession : tr.session? g.handle.session = some session) :
    (Event.finish g files).perform tr = tr.release g.handle := by
  rw [perform, hsession]
  rfl

/-- The state once events have happened, in order. -/
def performAll (es : List Event) (tr : Tracker) : Tracker :=
  es.foldl (fun tr e => e.perform tr) tr

theorem performAll_concat (es : List Event) (e : Event) (tr : Tracker) :
    performAll (es ++ [e]) tr = e.perform (performAll es tr) := by
  rw [performAll, List.foldl_concat, performAll]

/-- What events make of a store. -/
def used (es : List Event) (s : Store) : Store :=
  es.foldl (fun s e => e.touch s) s

/-- Every event happens while the handle is alive that it needs. -/
def Possible (tr : Tracker) : List Event → Prop
  | [] => True
  | e :: es => (∀ h ∈ e.handle?, h ∈ tr.handles) ∧ Possible (e.perform tr) es

theorem possible_concat {es : List Event} {e : Event} {tr : Tracker} :
    Possible tr (es ++ [e]) ↔
      Possible tr es ∧ ∀ h ∈ e.handle?, h ∈ (performAll es tr).handles := by
  induction es generalizing tr with
  | nil => exact and_comm
  | cons d es ih =>
      rw [List.cons_append, Possible, ih, Possible, and_assoc]
      rfl

/-- The counts of sessions are right and the handles refer to the registered one, which there is
while there are handles. The tracker's handler is registered only while a session recovers
faults. -/
structure Sound (tr : Tracker) : Prop where
  counted : tr.Counted []
  referred : ∀ h ∈ tr.handles, tr.registered = some h.session
  live_iff : tr.isLive = true ↔ tr.handles ≠ []
  nodup : tr.handles.Nodup
  issued : ∀ h ∈ tr.handles, h.serial < tr.issued
  lacks : (∀ r session, tr.session? r = some session → session.options.handlesFaults = false) →
    tr.signals.Lacks .tracker

namespace Sound

variable {tr tr' : Tracker} {r : SessionId} (hs : tr.Sound)
include hs

theorem handles_of_idle (h : tr.registered = none) : tr.handles = [] := by
  by_contra hne
  have hlive := hs.live_iff.mpr hne
  rw [isLive, h] at hlive
  contradiction

theorem idle_of_handles (h : tr.handles = []) : tr.registered = none := by
  by_contra hne
  exact hs.live_iff.mp (Option.isSome_iff_ne_none.mpr hne) h

/-- Everyone holds the registered session, and nobody another one. -/
theorem references_eq (r : SessionId) :
    tr.references r = if tr.registered = some r then tr.handles.length + 1 else 0 := by
  rw [hs.counted.count, holders, List.count_nil, Nat.add_zero]
  by_cases hr : tr.registered = some r
  · have hall : tr.handles.countP (·.session = r) = tr.handles.length :=
      List.countP_eq_length.mpr fun h hh =>
        decide_eq_true (Option.some.inj ((hs.referred h hh).symm.trans hr))
    rw [if_pos hr, if_pos hr, hall]
  · have hnone : tr.handles.countP (·.session = r) = 0 :=
      List.countP_eq_zero.mpr fun h hh heq =>
        hr ((hs.referred h hh).trans (congrArg some (of_decide_eq_true heq)))
    rw [if_neg hr, if_neg hr, hnone]

theorem session?_isSome_iff (r : SessionId) :
    (tr.session? r).isSome = true ↔ tr.registered = some r := by
  rw [hs.counted.session?_isSome_iff, ← hs.counted.count, hs.references_eq]
  split
  · rename_i hr
    exact iff_of_true (Nat.succ_pos _) hr
  · rename_i hr
    exact iff_of_false (Nat.lt_irrefl 0) hr

theorem sessions_of_ne (h : tr.registered ≠ some r) : tr.sessions r = none := by
  have hnone := mt (hs.session?_isSome_iff r).mp h
  rw [session?, Option.isSome_map] at hnone
  simpa using hnone

theorem exists_session (h : tr.registered = some r) : ∃ session, tr.session? r = some session :=
  Option.isSome_iff_exists.mp ((hs.session?_isSome_iff r).mpr h)

theorem session_of_handle {h : Handle} (hh : h ∈ tr.handles) :
    ∃ session, tr.session? h.session = some session :=
  hs.exists_session (hs.referred h hh)

theorem lacks_of_idle (h : tr.registered = none) : tr.signals.Lacks .tracker := by
  refine hs.lacks fun r session hsession => ?_
  have hr := (hs.session?_isSome_iff r).mp (Option.isSome_of_mem hsession)
  rw [h] at hr
  cases hr

/-- A change of neither the handles nor the options of the sessions. -/
theorem congr (hcounted : tr'.Counted []) (hhandles : tr'.handles = tr.handles)
    (hregistered : tr'.registered = tr.registered) (hissued : tr'.issued = tr.issued)
    (hoptions : ∀ r, (tr'.session? r).map Session.options = (tr.session? r).map Session.options)
    (hsignals : tr.signals.Lacks .tracker → tr'.signals.Lacks .tracker) : tr'.Sound where
  counted := hcounted
  referred := by
    rw [hhandles, hregistered]
    exact hs.referred
  live_iff := by
    rw [isLive, hregistered, hhandles]
    exact hs.live_iff
  nodup := hhandles ▸ hs.nodup
  issued := by
    rw [hhandles, hissued]
    exact hs.issued
  lacks := by
    intro hno
    refine hsignals (hs.lacks fun r session hsession => ?_)
    have hsame := hoptions r
    rw [hsession] at hsame
    obtain ⟨session', hsession', hoptions'⟩ := Option.map_eq_some_iff.mp hsame
    rw [← hoptions']
    exact hno r session' hsession'

/-- A further handle on the registered session. -/
theorem newHandle (tr' : Tracker) (hcounted : (tr'.newHandle r).2.Counted [])
    (hhandles : tr'.handles = tr.handles)
    (hissued : tr.issued ≤ tr'.issued) (hregistered : tr'.registered = some r)
    (hreferred : ∀ h ∈ tr.handles, h.session = r)
    (hlacks : (∀ q session, tr'.session? q = some session →
      session.options.handlesFaults = false) → tr'.signals.Lacks .tracker) :
    (tr'.newHandle r).2.Sound := by
  have hnew : (tr'.newHandle r).2 =
      { tr' with handles := ⟨tr'.issued, r⟩ :: tr'.handles, issued := tr'.issued + 1 } := rfl
  have hearlier : ∀ h ∈ tr'.handles, h.serial < tr'.issued := fun h hh =>
    Nat.lt_of_lt_of_le (hs.issued h (hhandles ▸ hh)) hissued
  refine ⟨hcounted, ?_, ?_, ?_, ?_, hlacks⟩ <;> rw [hnew]
  · intro h hh
    rcases List.mem_cons.mp hh with rfl | hh
    · exact hregistered
    · rw [hreferred h (hhandles ▸ hh)]
      exact hregistered
  · simp [isLive, hregistered]
  · -- The serial number of the new handle was not given out before.
    refine List.nodup_cons.mpr ⟨fun hmem => ?_, hhandles ▸ hs.nodup⟩
    exact Nat.lt_irrefl _ (hearlier _ hmem)
  · intro h hh
    rcases List.mem_cons.mp hh with rfl | hh
    · exact Nat.lt_succ_self _
    · exact Nat.lt_succ_of_lt (hearlier h hh)

theorem share (hr : tr.registered = some r) : (tr.share r).2.Sound := by
  have hcounted := hs.counted.share ((hs.session?_isSome_iff r).mpr hr)
  refine hs.newHandle (tr.addReference r) hcounted rfl (Nat.le_refl _) hr
    (fun h hh => Option.some.inj ((hs.referred h hh).symm.trans hr)) fun hno => hs.lacks ?_
  intro q session hsession
  exact hno q session (session?_addReference.trans hsession)

theorem found (hidle : tr.registered = none) {session : Session} {signals : SignalTable}
    (hlacks : session.options.handlesFaults = false → signals.Lacks .tracker) :
    ({ tr with signals }.found session).2.Sound := by
  have hsessions : tr.sessions ⟨tr.issued⟩ = none := hs.sessions_of_ne fun hr => by
    rw [hidle] at hr
    cases hr
  have hcounted : { tr with signals }.Counted [] := hs.counted.handOver rfl fun _ => rfl
  refine hs.newHandle _ (hcounted.found hidle hsessions session) rfl (Nat.le_succ _) rfl
    (fun h hh => ?_) fun hno => hlacks ?_
  · rw [hs.handles_of_idle hidle] at hh
    cases hh
  · exact hno ⟨tr.issued⟩ session
      ((session?_found session { tr with signals } _).trans (if_pos rfl))

theorem ended {h : Handle} {session : Session} (hcounted : (tr.ended h session).Counted [])
    (hsession : tr.session? h.session = some session) (hlast : tr.handles.erase h = [])
    (hr : tr.registered = some h.session) : (tr.ended h session).Sound := by
  obtain ⟨hregistered, hhandles, hissued⟩ := ended_frame h session tr
  rw [hlast] at hhandles
  refine ⟨hcounted, by simp [hhandles], by simp [isLive, hregistered, hhandles],
    by simp [hhandles], by simp [hhandles], fun _ => ?_⟩
  unfold Tracker.ended
  dsimp only
  split
  · exact SignalTable.lacks_deregister
  · rename_i hfaults
    -- The session recovers no faults, and there is no other one that could.
    refine hs.lacks fun q session' hsession' => ?_
    have hq := (hs.session?_isSome_iff q).mp (Option.isSome_of_mem hsession')
    obtain rfl : h.session = q := Option.some.inj (hr.symm.trans hq)
    rw [hsession] at hsession'
    cases hsession'
    exact Bool.eq_false_iff.mpr hfaults

theorem release {h : Handle} (hh : h ∈ tr.handles) : (tr.release h).Sound := by
  obtain ⟨session, hsession⟩ := hs.session_of_handle hh
  have hr := hs.referred h hh
  have hcounted := hs.counted.release hh
  have hcount := hs.references_eq h.session
  have hlength := List.length_erase_of_mem hh
  have hpos := List.length_pos_of_mem hh
  rw [if_pos hr] at hcount
  -- Two references are one handle and the registry, so the handles decide what the count does.
  rw [release_eq hr hsession (by omega)] at hcounted ⊢
  split
  · rename_i hlast
    rw [if_pos hlast] at hcounted
    exact hs.ended hcounted hsession (List.eq_nil_of_length_eq_zero (by omega)) hr
  · rename_i hshared
    rw [if_neg hshared] at hcounted
    have hrest : tr.handles.erase h ≠ [] := fun hempty => by
      rw [hempty, List.length_nil] at hlength
      omega
    refine ⟨hcounted, fun q hq => hs.referred q (List.mem_of_mem_erase hq), ?_, hs.nodup.erase h,
      fun q hq => hs.issued q (List.mem_of_mem_erase hq), fun hno => hs.lacks ?_⟩
    · exact iff_of_true (Option.isSome_of_mem hr) hrest
    · intro q session' hsession'
      refine hno q session' ?_
      rw [session?_setShared]
      split
      · rename_i hq
        rw [hq, hsession] at hsession'
        exact hsession'
      · exact hsession'

theorem acquire (client : UInt32) (options : Options) (decoder : Option FaultDecoder)
    (window : Window) (mapping : Mapping) :
    ((outcome (Tracker.acquire client options decoder window mapping) tr).2).Sound := by
  have hwarned : ∀ warnings, { tr with warnings }.Sound := fun _ =>
    hs.congr (hs.counted.handOver rfl fun _ => rfl) rfl rfl rfl (fun _ => rfl) id
  unfold outcome
  cases hr : tr.registered with
  | some r =>
      obtain ⟨warnings, hacquire⟩ := acquire_registered client options decoder window mapping hr
      rw [hacquire]
      exact (hwarned warnings).share hr
  | none =>
      have hlacks := hs.lacks_of_idle hr
      rcases acquire_idle client options decoder window mapping hr hlacks with
        ⟨session, signals, hcreate, -, hsignals, hok⟩ | ⟨-, e, warnings, herror⟩
      · obtain ⟨store, -, rfl⟩ := Session.of_create_eq_ok hcreate
        rw [hok]
        exact hs.found hr fun hfaults => hsignals hfaults ▸ hlacks
      · rw [herror]
        exact hwarned warnings

theorem use {ε α : Type} {h : Handle} {session : Session} (act : Action Store ε α)
    (hsession : tr.session? h.session = some session) : ((Event.use h act).perform tr).Sound := by
  obtain ⟨warnings, huse⟩ := Event.perform_use act hsession
  rw [huse]
  refine hs.congr ((hs.counted.setSession _).handOver rfl fun _ => rfl) rfl rfl rfl (fun r => ?_) id
  change ((tr.setSession h.session _).session? r).map Session.options = _
  rw [session?_setSession]
  split
  · rename_i hr
    rw [hr, hsession]
    rfl
  · rfl

theorem registerHost (serial : Nat) (signals : List Signal) :
    ((outcome (registerHandler (.host serial) signals) tr).2).Sound := by
  unfold registerHandler
  rw [outcome_focus]
  have hkeeps : Preserves (SignalTable.Lacks · .tracker) (fun _ => True)
      (SignalTable.register (.host serial) signals) :=
    preserves_forM fun s _ => SignalTable.preserves_registerOne (fun heq => by cases heq) s
  exact hs.congr (hs.counted.handOver rfl fun _ => rfl) rfl rfl rfl (fun _ => rfl) fun hlacks =>
    hkeeps.state hlacks

theorem perform {e : Event} (halive : ∀ h ∈ e.handle?, h ∈ tr.handles) : (e.perform tr).Sound := by
  cases e with
  | acquire client options decoder window mapping =>
      exact hs.acquire client options decoder window mapping
  | share h => exact hs.share (hs.referred h (halive h rfl))
  | release h => exact hs.release (halive h rfl)
  | finish g files =>
      obtain ⟨session, hsession⟩ := hs.session_of_handle (halive g.handle rfl)
      rw [Event.perform_finish files hsession]
      exact hs.release (halive g.handle rfl)
  | use h act =>
      obtain ⟨session, hsession⟩ := hs.session_of_handle (halive h rfl)
      exact hs.use act hsession
  | registerHost serial signals => exact hs.registerHost serial signals
  | deregisterHost serial signals =>
      exact hs.congr (hs.counted.handOver rfl fun _ => rfl) rfl rfl rfl (fun _ => rfl) fun h =>
        h.of_deregister

end Sound

theorem sound_performAll {tr : Tracker} (hs : tr.Sound) {es : List Event} (h : Possible tr es) :
    (performAll es tr).Sound := by
  induction es using List.reverseRecOn with
  | nil => exact hs
  | append_singleton es e ih =>
      obtain ⟨hes, halive⟩ := possible_concat.mp h
      rw [performAll_concat]
      exact (ih hes).perform halive

/-! ## The session between its first and its last handle -/

theorem session_release {tr : Tracker} (hs : tr.Sound) {session : Session} {h : Handle}
    (hh : h ∈ tr.handles) (hsession : tr.session? h.session = some session)
    (hstays : (tr.release h).registered ≠ none) :
    (tr.release h).registered = some h.session ∧
      (tr.release h).session? h.session = some session := by
  have hr := hs.referred h hh
  have hpos := List.length_pos_of_mem hh
  have hcount := hs.references_eq h.session
  rw [if_pos hr] at hcount
  rw [release_eq hr hsession (by omega)] at hstays ⊢
  split
  · rename_i hlast
    rw [if_pos hlast] at hstays
    exact absurd (ended_frame h session tr).1 hstays
  · exact ⟨hr, (session?_setShared _).trans (if_pos rfl)⟩

/-- While handles are alive the session stays, and only uses of the store change it. -/
theorem session_perform {tr : Tracker} (hs : tr.Sound) {r : SessionId} {session : Session}
    {e : Event} (halive : ∀ h ∈ e.handle?, h ∈ tr.handles) (hr : tr.registered = some r)
    (hsession : tr.session? r = some session) (hstays : (e.perform tr).registered ≠ none) :
    (e.perform tr).registered = some r ∧
      (e.perform tr).session? r = some { session with store := e.touch session.store } := by
  have hrefers : ∀ h ∈ tr.handles, r = h.session := fun h hh =>
    Option.some.inj (hr.symm.trans (hs.referred h hh))
  cases e with
  | acquire client options decoder window mapping =>
      obtain ⟨warnings, hacquire⟩ := acquire_registered client options decoder window mapping hr
      rw [Event.perform, outcome, hacquire]
      exact ⟨hr, session?_addReference.trans hsession⟩
  | share h => exact ⟨hr, session?_addReference.trans hsession⟩
  | release h =>
      obtain rfl := hrefers h (halive h rfl)
      exact session_release hs (halive h rfl) hsession hstays
  | finish g files =>
      obtain rfl := hrefers g.handle (halive g.handle rfl)
      rw [Event.perform_finish files hsession] at hstays ⊢
      exact session_release hs (halive g.handle rfl) hsession hstays
  | use h act =>
      obtain rfl := hrefers h (halive h rfl)
      obtain ⟨warnings, huse⟩ := Event.perform_use act hsession
      rw [huse]
      refine ⟨hr, (session?_setSession _).trans ?_⟩
      rw [if_pos rfl, hsession]
      rfl
  | registerHost serial signals =>
      rw [Event.perform, registerHandler, outcome_focus]
      exact ⟨hr, hsession⟩
  | deregisterHost serial signals => exact ⟨hr, hsession⟩

/-- A session starts with the first handle. -/
theorem session_perform_idle {tr : Tracker} (hs : tr.Sound) {r : SessionId} {e : Event}
    (halive : ∀ h ∈ e.handle?, h ∈ tr.handles) (hidle : tr.registered = none)
    (hr : (e.perform tr).registered = some r) :
    ∃ client options decoder window mapping session,
      e = .acquire client options decoder window mapping ∧
        Session.create client options decoder window mapping = .ok session ∧
        (e.perform tr).session? r = some session := by
  have hnone : ∀ h, h ∉ tr.handles := by
    intro h hh
    rw [hs.handles_of_idle hidle] at hh
    cases hh
  have hstill : tr.registered ≠ some r := by
    rw [hidle]
    nofun
  cases e with
  | acquire client options decoder window mapping =>
      rw [Event.perform, outcome] at hr ⊢
      rcases acquire_idle client options decoder window mapping hidle (hs.lacks_of_idle hidle) with
        ⟨session, signals, hcreate, -, -, hok⟩ | ⟨-, e, warnings, herror⟩
      · rw [hok] at hr ⊢
        cases hr
        exact ⟨client, options, decoder, window, mapping, session, rfl, hcreate,
          (session?_found session _ _).trans (if_pos rfl)⟩
      · rw [herror] at hr
        exact absurd hr hstill
  | share h => exact absurd (halive h rfl) (hnone h)
  | release h => exact absurd (halive h rfl) (hnone h)
  | finish g files => exact absurd (halive g.handle rfl) (hnone g.handle)
  | use h act => exact absurd (halive h rfl) (hnone h)
  | registerHost serial signals =>
      rw [Event.perform, registerHandler, outcome_focus] at hr
      exact absurd hr hstill
  | deregisterHost serial signals => exact absurd hr hstill

/-- The registered session is the one that an earlier event has started, with the store as the
events since then have left it. Handles have been alive ever since. -/
theorem founded {tr : Tracker} (hs : tr.Sound) {es : List Event} (h : Possible tr es)
    (hidle : tr.registered = none) {r : SessionId}
    (hr : (performAll es tr).registered = some r) :
    ∃ before after client options decoder window mapping fresh,
      es = before ++ .acquire client options decoder window mapping :: after ∧
      (performAll before tr).handles = [] ∧
      (∀ part, part <+: after →
        let now := performAll (before ++ .acquire client options decoder window mapping :: part) tr
        now.handles ≠ [] ∧ now.registered = some r) ∧
      Session.create client options decoder window mapping = .ok fresh ∧
      (performAll es tr).session? r = some { fresh with store := used after fresh.store } := by
  induction es using List.reverseRecOn generalizing r with
  | nil =>
      rw [performAll, List.foldl_nil, hidle] at hr
      cases hr
  | append_singleton es e ih =>
      obtain ⟨hes, halive⟩ := possible_concat.mp h
      have hsound := sound_performAll hs hes
      have hnonempty : (performAll (es ++ [e]) tr).handles ≠ [] :=
        (sound_performAll hs h).live_iff.mp (Option.isSome_of_mem hr)
      have hlast := hr
      rw [performAll_concat] at hlast
      cases hmid : (performAll es tr).registered with
      | none =>
          -- The session starts with the last event.
          obtain ⟨client, options, decoder, window, mapping, session, rfl, hcreate, hsession⟩ :=
            session_perform_idle hsound halive hmid hlast
          refine ⟨es, [], client, options, decoder, window, mapping, session, rfl,
            hsound.handles_of_idle hmid, fun part hpart => ?_, hcreate, ?_⟩
          · rw [List.prefix_nil.mp hpart]
            exact ⟨hnonempty, hr⟩
          · rw [performAll_concat]
            exact hsession
      | some p =>
          -- The session was registered before the last event, which has not ended it.
          obtain ⟨start, after, client, options, decoder, window, mapping, fresh, rfl, hstart,
            hstays, hcreate, hsession⟩ := ih hes hmid
          obtain ⟨hkept, hsession'⟩ := session_perform hsound halive hmid hsession (by simp [hlast])
          obtain rfl : p = r := Option.some.inj (hkept.symm.trans hlast)
          refine ⟨start, after ++ [e], client, options, decoder, window, mapping, fresh, ?_, hstart,
            fun part hpart => ?_, hcreate, ?_⟩
          · simp
          · rcases List.prefix_concat_iff.mp hpart with rfl | hpart
            · rw [← List.cons_append, ← List.append_assoc]
              exact ⟨hnonempty, hr⟩
            · exact hstays part hpart
          · rw [performAll_concat, hsession', used, used, List.foldl_concat]

/-- No session is live, and the host may have registered handlers of its own. -/
def idle (signals : SignalTable) : Tracker :=
  { initial with signals }

theorem sound_idle {signals : SignalTable} (h : signals.Lacks .tracker) : (idle signals).Sound :=
  ⟨⟨fun _ => rfl, nofun⟩, nofun, by simp [idle, initial, isLive], List.nodup_nil, nofun, fun _ => h⟩

end Tracker

namespace Store

/-- A new store holds no tag and no private region. -/
theorem clean_of_create {backend : Backend} {window : Window} {mapping : Mapping} {s : Store}
    (h : create backend window mapping = .ok s) :
    (∀ a, window.layout.covers a = true → s.tagOf a = .ok untainted) ∧ s.regionCount = 0 ∧
      s.regions = [] := by
  rw [of_create_eq_ok h]
  have hsupport : Memory.zero.support = [] :=
    List.eq_nil_iff_forall_not_mem.mpr fun i hi => Memory.mem_support.mp hi rfl
  have hwritten : (⟨window, mapping, .zero, fresh backend window.layout⟩ : Store).writtenRegions =
      [] := by
    cases backend with
    | lazy => simp [writtenRegions, fresh]
    | dense => simp [writtenRegions, fresh, withTainted, hsupport]
  refine ⟨fun a ha => ?_, ?_, by rw [regions, hwritten, List.map_nil]⟩
  · rw [tagOf_eq]
    exact if_pos ha
  · cases backend with
    | lazy => rfl
    | dense => exact congrArg List.length hwritten

end Store

namespace Tracker

/-- A session is live exactly while handles are. They all refer to it, its count is by one above
their number, and no other session is in memory. It is the one that the founding acquisition made of
its own options, and later options change nothing about it; the first acquisition after the last
release starts another one, with an empty store. An acquisition that fails leaves no session and no
registration behind, and one that can be granted is. -/
theorem session_lifecycle {signals : SignalTable} (hsignals : signals.Lacks .tracker)
    {es : List Event} (hes : Possible (idle signals) es) :
    let tr := performAll es (idle signals)
    (tr.isLive = true ↔ ∃ h, h ∈ tr.handles) ∧
      tr.handles.Nodup ∧
      (∀ h ∈ tr.handles, tr.registered = some h.session) ∧
      (∀ r, tr.references r = if tr.registered = some r then tr.handles.length + 1 else 0) ∧
      (∀ r, tr.registered = some r →
        ∃ session before after client options decoder window mapping fresh,
          tr.session? r = some session ∧
          es = before ++ .acquire client options decoder window mapping :: after ∧
          (performAll before (idle signals)).handles = [] ∧
          (∀ part, part <+: after →
            let now := performAll (before ++ .acquire client options decoder window mapping :: part)
              (idle signals)
            now.handles ≠ [] ∧ now.registered = some r) ∧
          session.client = client ∧ session.options = options ∧
          Store.create options.backend window mapping = .ok fresh ∧
          session.store = used after fresh) ∧
      ∀ client options decoder window mapping,
        (tr.handles ≠ [] → ∃ h tr', acquire client options decoder window mapping tr = .ok h tr' ∧
          tr'.handles = h :: tr.handles ∧ tr.registered = some h.session ∧
          tr'.registered = tr.registered ∧ ∀ r, tr'.session? r = tr.session? r) ∧
        (tr.handles = [] →
          match acquire client options decoder window mapping tr with
          | .ok h tr' => tr'.handles = [h] ∧ tr'.registered = some h.session ∧
              ∃ session, tr'.session? h.session = some session ∧ session.options = options ∧
                (∀ a, window.layout.covers a = true → session.store.tagOf a = .ok untainted) ∧
                session.store.regionCount = 0 ∧ session.store.regions = []
          | .error _ tr' => tr'.isLive = false ∧ tr'.handles = [] ∧ (∀ r, tr'.sessions r = none) ∧
              tr'.signals = tr.signals) ∧
        (tr.handles = [] →
          ((∃ h tr', acquire client options decoder window mapping tr = .ok h tr') ↔
            (∃ s, Store.create options.backend window mapping = .ok s) ∧
              (options.handlesFaults = true → tr.signals.Free))) := by
  intro tr
  have hs : tr.Sound := sound_performAll (sound_idle hsignals) hes
  refine ⟨?_, hs.nodup, hs.referred, hs.references_eq, fun r hr => ?_,
    fun client options decoder window mapping =>
      ⟨fun hhandles => ?_, fun hhandles => ?_, fun hhandles => ?_⟩⟩
  · rw [hs.live_iff]
    exact ⟨List.exists_mem_of_ne_nil _, fun ⟨h, hh⟩ => List.ne_nil_of_mem hh⟩
  · obtain ⟨before, after, client, options, decoder, window, mapping, founding, hsplit, hbefore,
      halive, hcreate, hsession⟩ := founded (sound_idle hsignals) hes rfl hr
    obtain ⟨fresh, hfresh, rfl⟩ := Session.of_create_eq_ok hcreate
    exact ⟨_, before, after, client, options, decoder, window, mapping, fresh, hsession, hsplit,
      hbefore, halive, rfl, rfl, hfresh, rfl⟩
  · obtain ⟨r, hr⟩ := Option.isSome_iff_exists.mp (hs.live_iff.mpr hhandles)
    obtain ⟨warnings, hacquire⟩ := acquire_registered client options decoder window mapping hr
    exact ⟨_, _, hacquire, rfl, hr, rfl, fun _ => session?_addReference⟩
  · have hidle := hs.idle_of_handles hhandles
    rcases acquire_idle client options decoder window mapping hidle (hs.lacks_of_idle hidle) with
      ⟨session, signals', hcreate, -, -, hok⟩ | ⟨-, e, warnings, herror⟩
    · obtain ⟨store, hstore, rfl⟩ := Session.of_create_eq_ok hcreate
      rw [hok]
      exact ⟨congrArg _ hhandles, rfl, _, (session?_found _ _ _).trans (if_pos rfl), rfl,
        Store.clean_of_create hstore⟩
    · rw [herror]
      refine ⟨?_, hhandles, fun r => hs.sessions_of_ne ?_, rfl⟩
      · rw [isLive, hidle]
        rfl
      · rw [hidle]
        nofun
  · have hidle := hs.idle_of_handles hhandles
    exact acquire_granted_iff client options decoder window mapping hidle (hs.lacks_of_idle hidle)

/-- Once its last handle is released, a tagged store is followed by a clean one. While there are
three handles the session counts four references. -/
theorem session_lifecycle_restarted :
    let lazy : Options := { Options.default with backend := .lazy }
    let dense : Options := { Options.default with backend := .dense }
    let tagged : List Event :=
      [.acquire 1 lazy none .small .granting, .use ⟨1, ⟨0⟩⟩ (Store.setTag 0x1000 7),
        .share ⟨1, ⟨0⟩⟩, .acquire 2 dense none .small .granting]
    let released : List Event :=
      tagged ++ [.release ⟨1, ⟨0⟩⟩, .release ⟨3, ⟨0⟩⟩, .release ⟨2, ⟨0⟩⟩]
    let tr := performAll released (idle .initial)
    (performAll tagged (idle .initial)).references ⟨0⟩ = 4 ∧ tr.isLive = false ∧
      ∃ h tr' session, acquire 2 dense none .small .granting tr = .ok h tr' ∧
        tr'.session? h.session = some session ∧ session.options = dense ∧
        session.store.tagOf 0x1000 = .ok untainted := by
  intro lazy dense tagged released tr
  have hlacks : SignalTable.initial.Lacks .tracker := nofun
  have hpossible : Possible (idle .initial) released := by
    refine ⟨nofun, ?_, ?_, nofun, ?_, ?_, ?_, trivial⟩ <;>
      · rintro h ⟨⟩
        decide +kernel
  have hhandles : tr.handles = [] := by decide +kernel
  obtain ⟨-, -, -, -, -, hacquire⟩ := session_lifecycle hlacks hpossible
  obtain ⟨-, hstarted, hgranted⟩ := hacquire 2 dense none .small .granting
  have hfaults : dense.handlesFaults = false := rfl
  obtain ⟨h, tr', hok⟩ := (hgranted hhandles).mpr ⟨⟨_, rfl⟩, by simp [hfaults]⟩
  have hnew := hstarted hhandles
  rw [hok] at hnew
  obtain ⟨-, -, session, hsession, hoptions, hclean, -⟩ := hnew
  refine ⟨by decide +kernel, by decide +kernel, h, tr', session, hok, hsession, hoptions, ?_⟩
  exact hclean 0x1000 (by decide)

end Tracker

end TaintFlow
