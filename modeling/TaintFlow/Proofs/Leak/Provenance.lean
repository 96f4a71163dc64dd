import TaintFlow.Proofs.Leak.Guard
import TaintFlow.Proofs.Tracker.References

/-!
# Where leaked tags come from

Every tag that the guard finds in a buffer is a join of tags that its sources have put into the run
before. The sources of a class write the tag of the class, so a leak of a single class should tell
which source it came from. It does so for the stack and the text. The join of these two is the tag
of the heap, which is why a leak may be reported as one of the heap although no heap address was
ever given out.
-/

namespace TaintFlow

open TaintFlow.Action

/-! ## Classes and their tags -/

namespace AddressClass

theorem ofTag?_tag (c : AddressClass) : ofTag? c.tag = some c := by
  cases c <;> rfl

theorem tag_of_ofTag? {t : Tag} {c : AddressClass} (h : ofTag? t = some c) : c.tag = t := by
  have hfound := List.find?_some h
  exact beq_iff_eq.mp hfound

theorem tag_inj {c d : AddressClass} (h : c.tag = d.tag) : c = d := by
  have hclass := ofTag?_tag c
  rw [h, ofTag?_tag] at hclass
  exact (Option.some.inj hclass).symm

def join (c d : AddressClass) : AddressClass :=
  if c = d then c else .heap

/-- The tags of different classes have the tag of the heap as their join. -/
theorem tag_union_tag (c d : AddressClass) : c.tag ||| d.tag = (c.join d).tag := by
  cases c <;> cases d <;> decide

end AddressClass

/-- The tags that can be made of the tags of some classes. -/
inductive Made (S : AddressClass → Prop) : Tag → Prop where
  | untainted : Made S untainted
  | source {c : AddressClass} (h : S c) : Made S c.tag
  | union {t u : Tag} (ht : Made S t) (hu : Made S u) : Made S (t ||| u)

def TagFamily.made (S : AddressClass → Prop) : TagFamily :=
  ⟨Made S, .untainted, fun _ _ => .union⟩

/-- The class is one of the given ones, or it is taken for the join of the other two. -/
def AddressClass.Explained (S : AddressClass → Prop) (c : AddressClass) : Prop :=
  S c ∨ c = .heap ∧ S .stack ∧ S .text

theorem AddressClass.Explained.join {S : AddressClass → Prop} {c d : AddressClass}
    (hc : c.Explained S) (hd : d.Explained S) : (c.join d).Explained S := by
  unfold AddressClass.join
  split
  · exact hc
  · rename_i hne
    -- If neither class is the heap, one of them is the stack and the other one the text.
    rcases hc with hc | ⟨-, hboth⟩ <;> rcases hd with hd | ⟨-, hboth'⟩
    · cases c <;> cases d
      case stack.text => exact Or.inr ⟨rfl, hc, hd⟩
      case text.stack => exact Or.inr ⟨rfl, hd, hc⟩
      case heap.stack | heap.text => exact Or.inl hc
      case stack.heap | text.heap => exact Or.inl hd
      all_goals exact (hne rfl).elim
    · exact Or.inr ⟨rfl, hboth'⟩
    · exact Or.inr ⟨rfl, hboth⟩
    · exact Or.inr ⟨rfl, hboth⟩

theorem Made.cases {S : AddressClass → Prop} {t : Tag} (h : Made S t) :
    t = TaintFlow.untainted ∨ ∃ c : AddressClass, t = c.tag ∧ c.Explained S := by
  induction h with
  | untainted => exact Or.inl rfl
  | @source c h => exact Or.inr ⟨c, rfl, Or.inl h⟩
  | @union t u _ _ iht ihu =>
      rcases iht with rfl | ⟨c, rfl, hc⟩
      · rwa [TaintFlow.untainted, UInt8.zero_or]
      · rcases ihu with rfl | ⟨d, rfl, hd⟩
        · rw [TaintFlow.untainted, UInt8.or_zero]
          exact Or.inr ⟨c, rfl, hc⟩
        · exact Or.inr ⟨c.join d, AddressClass.tag_union_tag c d, hc.join hd⟩

theorem AddressClass.explained_of_made {S : AddressClass → Prop} {t : Tag} {c : AddressClass}
    (h : Made S t) (hc : ofTag? t = some c) : c.Explained S := by
  have htag := tag_of_ofTag? hc
  rcases h.cases with rfl | ⟨d, rfl, hd⟩
  · cases c <;> contradiction
  · rwa [tag_inj htag]

/-! ## The tracker -/

theorem Session.within_create {F : TagFamily} {client : UInt32} {options : Options}
    {decoder : Option FaultDecoder} {window : Window} {mapping : Mapping} {session : Session}
    (h : create client options decoder window mapping = .ok session) :
    session.store.Within F := by
  unfold create at h
  cases hstore : Store.create options.backend window mapping with
  | error e =>
      rw [hstore] at h
      contradiction
  | ok store =>
      rw [hstore] at h
      cases h
      exact Store.within_create hstore

theorem Session.preserves_propagate {F : TagFamily} (i : Instr) (f : RegFile) :
    Preserves (fun s : Session × ThreadContext => s.1.store.Within F ∧ s.2.Within F)
      (fun _ => True) (propagate i f) := by
  have hanalyze : Preserves (fun session : Session => session.store.Within F) (fun _ => True)
      (analyze i) :=
    preserves_focus (preserves_trivial (Analyzer.analyze i)) (fun _ _ => trivial)
      (fun _ _ hs _ => hs) (fun _ _ => trivial)
  refine preserves_bind (preserves_focus hanalyze (fun _ hs => hs.1)
    (fun _ _ hs hsession => ⟨hsession, hs.2⟩) (fun _ _ => trivial)) ?_
  intro plan
  exact preserves_focus (plan.preserves_within f) (fun _ hs => ⟨hs.1, hs.2⟩)
    (fun _ _ _ htags => ⟨htags.store, htags.thread⟩) (fun _ _ => trivial)

namespace Tracker

variable {F : TagFamily} {tr : Tracker}

/-- Every tag that the tracker holds is in the family. -/
structure Within (F : TagFamily) (tr : Tracker) : Prop where
  store : ∀ r session, tr.session? r = some session → session.store.Within F
  threads : ∀ entry ∈ tr.threads, entry.2.Within F

def Shared.under (m : Mapping) (shared : Shared) : Shared :=
  { shared with session := { shared.session with store := shared.session.store.under m } }

def under (m : Mapping) (tr : Tracker) : Tracker :=
  { tr with sessions := fun r => (tr.sessions r).map (Shared.under m) }

namespace Within

theorem context (h : tr.Within F) {t : ThreadId} {c : ThreadContext}
    (hc : tr.context? t = some c) : c.Within F := by
  obtain ⟨before, after, hthreads, -⟩ := List.lookup_eq_some_iff.mp hc
  apply h.threads (t, c)
  rw [hthreads]
  exact List.mem_append_right before List.mem_cons_self

theorem setShared (h : tr.Within F) (r : SessionId) (shared : Option Shared)
    (hshared : ∀ s ∈ shared, s.session.store.Within F) : (tr.setShared r shared).Within F where
  store := by
    intro q session hsession
    rw [session?_setShared] at hsession
    split at hsession
    · obtain ⟨s, hs, rfl⟩ := Option.map_eq_some_iff.mp hsession
      exact hshared s hs
    · exact h.store q session hsession
  threads := h.threads

theorem setSession (h : tr.Within F) (r : SessionId) {session : Session}
    (hsession : session.store.Within F) : (tr.setSession r session).Within F := by
  apply h.setShared r
  intro s hs
  obtain ⟨before, -, rfl⟩ := Option.map_eq_some_iff.mp hs
  exact hsession

theorem update (h : tr.Within F) (r : SessionId) (before : Session) {after : Session}
    (hafter : after.store.Within F) : (tr.update r before after).Within F :=
  ⟨(h.setSession r hafter).store, h.threads⟩

theorem setContext (h : tr.Within F) (t : ThreadId) {c : ThreadContext} (hc : c.Within F) :
    (tr.setContext t c).Within F where
  store := h.store
  threads := by
    intro entry hentry
    obtain ⟨⟨u, d⟩, hold, rfl⟩ := List.mem_map.mp hentry
    dsimp only
    split
    · exact hc
    · exact h.threads (u, d) hold

theorem startThread (h : tr.Within F) (session : Session) (address : Address) :
    (tr.startThread session address).2.Within F := by
  obtain ⟨warnings, heq⟩ := tr.startThread_eq session address
  rw [heq]
  constructor
  · exact h.store
  · exact List.forall_mem_cons.mpr ⟨ThreadContext.within_new _ _, h.threads⟩

variable {ε α : Type} {E : ε → Prop} {result : Except ε α × Tracker}

theorem onThread? (h : tr.Within F) {t : ThreadId} {act : Action ThreadContext ε α}
    (hact : Preserves (ThreadContext.Within F) E act)
    (hresult : tr.onThread? t act = some result) : result.2.Within F := by
  obtain ⟨c, hc, rfl⟩ := Option.map_eq_some_iff.mp hresult
  exact h.setContext t (hact.state (h.context hc))

theorem onStore? (h : tr.Within F) {handle : Handle} {act : Action Store ε α}
    (hact : Preserves (Store.Within F) E act)
    (hresult : tr.onSession? handle (Session.onStore act) = some result) :
    result.2.Within F := by
  obtain ⟨session, hsession, rfl⟩ := Option.map_eq_some_iff.mp hresult
  apply h.update handle.session session
  unfold Session.onStore
  rw [outcome_focus]
  exact hact.state (h.store _ session hsession)

theorem propagate (h : tr.Within F) {handle : Handle} {t : ThreadId} (i : Instr) (f : RegFile)
    {result : Except (Failure ApplyError) Unit × Tracker}
    (hresult : tr.onTags? handle t (Session.propagate i f) = some result) :
    result.2.Within F := by
  obtain ⟨session, hsession, hresult⟩ := Option.bind_eq_some_iff.mp hresult
  obtain ⟨c, hc, hresult⟩ := Option.bind_eq_some_iff.mp hresult
  cases hresult
  have hend := (Session.preserves_propagate i f).state (s := (session, c))
    ⟨h.store _ session hsession, h.context hc⟩
  exact (h.update _ session hend.1).setContext t hend.2

theorem guardEntry (h : tr.Within F) (hF : AddressClass.stack.tag ∈ F) {session : Session}
    (g : LeakGuard) (hsession : session.store.Within F) (m : StackImage) (sp : Address) :
    (tr.guardEntry session g m sp).2.Within F := by
  have hwarned : Within F (if (m.word? sp).isSome then tr else tr.warn (.argcUnreadable sp)) := by
    split
    · exact h
    · exact ⟨h.store, h.threads⟩
  have hentry := LeakGuard.preserves_onEntry hF m sp session.store hsession
  unfold Tracker.guardEntry
  dsimp only
  cases hrun : LeakGuard.onEntry m sp session.store <;> rw [hrun] at hentry
  · exact hwarned.update _ session hentry
  · exact hwarned.update _ session hentry.1

theorem guardSyscall (h : tr.Within F) (session : Session) (g : LeakGuard) (number : UInt32)
    (buffer length : Address) :
    (tr.guardSyscall session g number buffer length).2.Within F := by
  unfold Tracker.guardSyscall
  dsimp only
  split <;> exact ⟨h.store, h.threads⟩

theorem addReference (h : tr.Within F) (r : SessionId) : (tr.addReference r).Within F := by
  apply h.setShared r
  intro s hs
  obtain ⟨before, hbefore, rfl⟩ := Option.map_eq_some_iff.mp hs
  refine h.store r before.session ?_
  rw [session?, hbefore]
  rfl

theorem share (h : tr.Within F) (r : SessionId) : (tr.share r).2.Within F :=
  ⟨(h.addReference r).store, h.threads⟩

theorem found (h : tr.Within F) {session : Session} (hsession : session.store.Within F) :
    (tr.found session).2.Within F := by
  have hissued : { tr with issued := tr.issued + 1 }.Within F := ⟨h.store, h.threads⟩
  have hsetUp := hissued.setShared ⟨tr.issued⟩ (some ⟨session, 1⟩) (by simpa using hsession)
  exact ⟨(hsetUp.addReference ⟨tr.issued⟩).store, h.threads⟩

theorem ignoreOptions (h : tr.Within F) (r : SessionId) (asked : Options) :
    (tr.ignoreOptions r asked).Within F := by
  unfold Tracker.ignoreOptions
  split
  · exact h
  · split
    · exact h
    · exact ⟨h.store, h.threads⟩

/-- Obtaining a handle adds no tags: the store of a session that is started is clean. -/
theorem acquire (client : UInt32) (options : Options) (decoder : Option FaultDecoder)
    (window : Window) (mapping : Mapping) :
    Preserves (Within F) (fun _ => True)
      (Tracker.acquire client options decoder window mapping) := by
  have hregister : Preserves (Within F) (fun _ => True) registerTracker := by
    refine preserves_undoneBy ?_ (preserves_modify fun _ h => ⟨h.store, h.threads⟩)
    exact preserves_focus (preserves_trivial _) (fun _ _ => trivial)
      (fun _ _ h _ => ⟨h.store, h.threads⟩) (fun _ _ => trivial)
  intro tr h
  unfold Tracker.acquire
  rw [get_bind]
  cases tr.registered with
  | some r => exact (h.ignoreOptions r options).share r
  | none =>
      cases hcreate : Session.create client options decoder window mapping with
      | error e => exact ⟨h, trivial⟩
      | ok session =>
          have hstart : Preserves (Within F) (fun _ => True)
              (modifyGet (Tracker.found session) : Action Tracker SetupError Handle) :=
            fun _ h => h.found (Session.within_create hcreate)
          refine (?_ : Preserves (Within F) (fun _ => True) (ite _ _ _)) tr h
          split
          · refine preserves_bind ?_ fun _ => hstart
            exact preserves_focus hregister (fun _ h => h) (fun _ _ _ h => h) (fun _ _ => trivial)
          · exact hstart

theorem under (h : tr.Within F) (m : Mapping) : (tr.under m).Within F where
  store := by
    intro r session hsession
    obtain ⟨shared, hshared, rfl⟩ := Option.map_eq_some_iff.mp hsession
    obtain ⟨before, hbefore, rfl⟩ := Option.map_eq_some_iff.mp hshared
    refine h.store r before.session ?_
    rw [session?, hbefore]
    rfl
  threads := h.threads

end Within

/-- Nothing is done where there is no session or no such thread. -/
def settled {α : Type} (tr : Tracker) : Option (α × Tracker) → Tracker
  | some result => result.2
  | none => tr

theorem Within.settled {α : Type} (h : tr.Within F) {result? : Option (α × Tracker)}
    (hresult : ∀ result, result? = some result → result.2.Within F) :
    (tr.settled result?).Within F := by
  cases result? with
  | none => exact h
  | some result => exact hresult result rfl

/-- The leak that a guard reports when it checks a system call. -/
def reported? (tr : Tracker) (g : LeakGuard) (number : UInt32) (buffer length : Address) :
    Option Leak := do
  let session ← tr.session? g.handle.session
  let verdict ← (tr.guardSyscall session g number buffer length).1.toOption
  verdict.leak?

theorem guardSyscall_verdict (tr : Tracker) (session : Session) (g : LeakGuard) (number : UInt32)
    (buffer length : Address) :
    (tr.guardSyscall session g number buffer length).1 =
      LeakGuard.onPreSyscall g.options session.store number buffer length := by
  unfold guardSyscall
  dsimp only
  split <;> rfl

theorem Within.tag_of_reported? (h : tr.Within F) {g : LeakGuard} {number : UInt32}
    {buffer length : Address} {leak : Leak}
    (hleak : tr.reported? g number buffer length = some leak) : leak.tag ∈ F := by
  obtain ⟨session, hsession, hleak⟩ := Option.bind_eq_some_iff.mp hleak
  obtain ⟨verdict, hverdict, hleak⟩ := Option.bind_eq_some_iff.mp hleak
  rw [guardSyscall_verdict] at hverdict
  cases hcheck : LeakGuard.onPreSyscall g.options session.store number buffer length with
  | error e =>
      rw [hcheck] at hverdict
      contradiction
  | ok v =>
      rw [hcheck] at hverdict
      cases hverdict
      obtain ⟨a, ha⟩ := LeakGuard.tagOf_of_onPreSyscall hcheck hleak
      exact h.store _ session hsession a leak.tag ha

end Tracker

/-! ## Runs -/

/-- What a program does that a guard follows. A system call is seen before it and after it, an
instruction when it reads the program counter and when it is propagated. -/
inductive GuardEvent where
  | threadInit (address : Address)
  | entry (m : StackImage) (sp : Address)
  | taintStack (argv : Address) (argc : Nat) (envp : Address) (envc : Nat)
  | pcRead (t : ThreadId) (i : Instr)
  | propagate (t : ThreadId) (i : Instr) (f : RegFile)
  | postSyscall (t : ThreadId) (number : UInt32) (succeeded : Bool)
  | preSyscall (number : UInt32) (buffer length : Address)

namespace GuardEvent

/-- Follow an event with a guard. A failure leaves what was done before it, and the run goes on,
even where the process would end. -/
def follow (tr : Tracker) (g : LeakGuard) : GuardEvent → Tracker
  | threadInit address =>
    tr.settled <| (tr.session? g.handle.session).bind fun session =>
      let (t, started) := tr.startThread session address
      started.onThread? t LeakGuard.onThreadInit
  | entry m sp =>
    tr.settled <| (tr.session? g.handle.session).map fun session => tr.guardEntry session g m sp
  | taintStack argv argc envp envc =>
    tr.settled <| tr.onSession? g.handle <| Session.onStore <|
      LeakGuard.taintStack argv argc envp envc
  | pcRead t i => tr.settled <| tr.onThread? t <| LeakGuard.onPcRead i
  | propagate t i f => tr.settled <| tr.onTags? g.handle t <| Session.propagate i f
  | postSyscall t number succeeded =>
    tr.settled <| tr.onThread? t <| LeakGuard.onPostSyscall number succeeded
  | preSyscall number buffer length =>
    tr.settled <| (tr.session? g.handle.session).map fun session =>
      tr.guardSyscall session g number buffer length

/-- The class of address that an event gives out. -/
def source? : GuardEvent → Option AddressClass
  | threadInit _ | entry _ _ | taintStack _ _ _ _ => some .stack
  | pcRead _ i => if i.readsPc then some .text else none
  | postSyscall _ number succeeded =>
    if LeakGuard.gaveAddress number succeeded then some .heap else none
  | propagate _ _ _ | preSyscall _ _ _ => none

/-- An event writes no tags but those of its class and joins of tags that were there before. -/
theorem within_follow {F : TagFamily} {tr : Tracker} (h : tr.Within F) (g : LeakGuard)
    (e : GuardEvent) (hF : ∀ c, e.source? = some c → c.tag ∈ F) : (e.follow tr g).Within F := by
  cases e with
  | threadInit address =>
      apply h.settled
      intro result hresult
      obtain ⟨session, -, hresult⟩ := Option.bind_eq_some_iff.mp hresult
      have hinit := LeakGuard.preserves_taintReg .sp (hF .stack rfl)
      exact (h.startThread session address).onThread? hinit hresult
  | entry m sp =>
      apply h.settled
      intro result hresult
      obtain ⟨session, hsession, rfl⟩ := Option.map_eq_some_iff.mp hresult
      exact h.guardEntry (hF .stack rfl) g (h.store _ session hsession) m sp
  | taintStack argv argc envp envc =>
      apply h.settled
      exact fun _ => h.onStore? (LeakGuard.preserves_taintStack (hF .stack rfl) argv argc envp envc)
  | pcRead t i =>
      apply h.settled
      have hread := LeakGuard.preserves_onPcRead (F := F) i fun hi => hF .text (if_pos hi)
      exact fun _ => h.onThread? hread
  | propagate t i f =>
      apply h.settled
      exact fun _ => h.propagate i f
  | postSyscall t number succeeded =>
      apply h.settled
      have hpost := LeakGuard.preserves_onPostSyscall (F := F) number succeeded
        fun hgave => hF .heap (if_pos hgave)
      exact fun _ => h.onThread? hpost
  | preSyscall number buffer length =>
      apply h.settled
      intro result hresult
      obtain ⟨session, -, rfl⟩ := Option.map_eq_some_iff.mp hresult
      exact h.guardSyscall session g number buffer length

end GuardEvent

/-- An event, the guard that follows it, and how the operating system answers meanwhile. -/
structure GuardStep where
  guard : LeakGuard
  event : GuardEvent
  mapping : Mapping

namespace Tracker

def followAll (tr : Tracker) (steps : List GuardStep) : Tracker :=
  steps.foldl (fun tr step => step.event.follow (tr.under step.mapping) step.guard) tr

def GivenOut (steps : List GuardStep) (c : AddressClass) : Prop :=
  ∃ step ∈ steps, step.event.source? = some c

theorem within_followAll {F : TagFamily} {tr : Tracker} (h : tr.Within F) {steps : List GuardStep}
    (hF : ∀ c, GivenOut steps c → c.tag ∈ F) : (tr.followAll steps).Within F := by
  -- On the run from its front. The family is that of the whole run, so it does not grow on the way.
  induction steps generalizing tr with
  | nil => exact h
  | cons step rest ih =>
      have hstep := step.event.within_follow (h.under step.mapping) step.guard
        fun c hc => hF c ⟨step, List.mem_cons_self, hc⟩
      apply ih hstep
      rintro c ⟨later, hlater, hc⟩
      exact hF c ⟨later, List.mem_cons_of_mem step hlater, hc⟩

/-- Where nothing is tracked yet, a run reports a leak of a class only after it has given out an
address of that class; or it reports the heap after it has given out addresses of both the stack and
the text. -/
theorem reported_class_given_out {start : Tracker} (hsessions : ∀ r, start.sessions r = none)
    (hthreads : start.threads = []) {client : UInt32} {options : Options}
    {decoder : Option FaultDecoder} {window : Window} {mapping : Mapping} {handle : Handle}
    {tr : Tracker} (hacquire : acquire client options decoder window mapping start = .ok handle tr)
    (steps : List GuardStep) (g : LeakGuard) (number : UInt32) (buffer length : Address)
    {leak : Leak} (hleak : (tr.followAll steps).reported? g number buffer length = some leak)
    {c : AddressClass} (hc : leak.addressClass = some c) :
    GivenOut steps c ∨ c = .heap ∧ GivenOut steps .stack ∧ GivenOut steps .text := by
  let F := TagFamily.made (GivenOut steps)
  have hstart : start.Within F := by
    refine ⟨fun r session h => ?_, ?_⟩
    · rw [session?, hsessions] at h
      contradiction
    · rw [hthreads]
      exact fun _ h => (List.not_mem_nil h).elim
  have htr : tr.Within F := by
    have h := Within.acquire (F := F) client options decoder window mapping start hstart
    rwa [hacquire] at h
  -- Every tag that the run leaves behind is made of the tags that the run has given out.
  have hend := within_followAll htr fun c hc => Made.source hc
  exact AddressClass.explained_of_made (hend.tag_of_reported? hleak) hc

/-- A session for a 32-bit application, with its shadow above all application addresses. -/
def started32 : EStateM.Result SetupError Tracker Handle :=
  acquire 1 ⟨.permissive, true, .lazy, true⟩ none ⟨.full32, 0x10000000000, by decide⟩ .granting
    .initial

/-- A thread adds two operands and stores the sum. -/
def storedSum (x y : Operand) : List GuardEvent :=
  let add : Instr := ⟨0x100, .add, [.reg ⟨3⟩], [x, y]⟩
  let store : Instr := ⟨0x104, .str, [.mem (.beside ⟨1⟩ 0)], [.reg ⟨3⟩]⟩
  let f := RegFile.zero.set ⟨1⟩ 0x10000
  [.threadInit 0x20000000000, .pcRead ⟨2⟩ add, .propagate ⟨2⟩ add f, .propagate ⟨2⟩ store f]

/-- Events that a guard follows while all requests are granted. -/
def seenBy (g : LeakGuard) (events : List GuardEvent) : List GuardStep :=
  events.map (⟨g, ·, .granting⟩)

theorem reported_class_given_out_pc_relative :
    ∃ handle tr leak, started32 = .ok handle tr ∧
      let g : LeakGuard := ⟨handle, .default⟩
      let steps := seenBy g (storedSum (.reg .pc) (.imm 16))
      (tr.followAll steps).reported? g 4 0x10000 4 = some leak ∧
        leak.addressClass = some .text ∧ GivenOut steps .text := by
  have hrun : ∃ handle tr, started32 = .ok handle tr ∧
      (tr.followAll (seenBy ⟨handle, .default⟩ (storedSum (.reg .pc) (.imm 16)))).reported?
          ⟨handle, .default⟩ 4 0x10000 4 =
        some ⟨.write, 0x10000, AddressClass.text.tag⟩ := ⟨_, _, rfl, by decide +kernel⟩
  obtain ⟨handle, tr, hstarted, hleak⟩ := hrun
  have h := reported_class_given_out (fun _ => rfl) rfl hstarted _ _ _ _ _ hleak (c := .text) rfl
  exact ⟨handle, tr, _, hstarted, hleak, rfl, h.resolve_right fun hheap => nomatch hheap.1⟩

/-- The sum of a code address and a stack address is reported as an address of the heap. -/
theorem mixed_leak_reported_as_heap :
    ∃ handle tr leak, started32 = .ok handle tr ∧
      let g : LeakGuard := ⟨handle, .default⟩
      let steps := seenBy g (storedSum (.reg .pc) (.reg .sp))
      (tr.followAll steps).reported? g 4 0x10000 4 = some leak ∧
        leak.addressClass = some .heap ∧ ¬ GivenOut steps .heap := by
  refine ⟨_, _, ⟨.write, 0x10000, AddressClass.heap.tag⟩, rfl, by decide +kernel, rfl, ?_⟩
  -- Of the four events the first gives out the stack and the second the text.
  have hsources : ∀ e ∈ storedSum (.reg .pc) (.reg .sp), e.source? ≠ some .heap := by
    decide
  rintro ⟨step, hstep, hheap⟩
  obtain ⟨e, he, rfl⟩ := List.mem_map.mp hstep
  exact hsources e he hheap

end Tracker
end TaintFlow
