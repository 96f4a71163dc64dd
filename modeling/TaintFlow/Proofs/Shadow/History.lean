import Mathlib.Data.List.Induction
import TaintFlow.Proofs.Actions
import TaintFlow.Proofs.Shadow.Consistency

/-!
# Stores as maps

Whatever calls a store has answered and whichever commits were refused meanwhile, it reads as the
map from granules to tags that the successful calls of `set` have written. A call that fails cannot
be noticed afterwards.
-/

namespace TaintFlow

inductive Access where
  | get (a : Address)
  | set (a : Address) (t : Tag)
  | materialize (a : Address)
deriving DecidableEq

inductive Answer where
  | tag (t : Tag)
  | done
  | shadow (a : Address)
deriving DecidableEq

/-- A call, and how the operating system answers while it is carried out. -/
structure Call where
  access : Access
  system : Mapping

structure Event where
  access : Access
  outcome : Except ShadowError Answer

namespace Event

def tagSet? (l : Layout) (g : Nat) : Event → Option Tag
  | ⟨.set a t, .ok _⟩ => if l.granule a = g then some t else none
  | _ => none

/-- The tag that granule `g` was given last, zero if there is none. -/
def lastTag (l : Layout) (g : Nat) (events : List Event) : Tag :=
  (events.filterMap (tagSet? l g)).getLast?.getD untainted

theorem lastTag_concat (l : Layout) (g : Nat) (events : List Event) (e : Event) :
    lastTag l g (events ++ [e]) = (tagSet? l g e).getD (lastTag l g events) := by
  unfold lastTag
  rw [List.filterMap_append]
  cases h : tagSet? l g e with
  | none => simp [h]
  | some t => simp [h]

end Event

def Access.perform : Access → Action Store ShadowError Answer
  | .get a => fun s =>
      match s.tagOf a with
      | .ok t => .ok (.tag t) s
      | .error e => .error e s
  | .set a t => do
      Store.setTag a t
      return .done
  | .materialize a => return .shadow (← Store.materialize a)

theorem Access.perform_get (a : Address) (s : Store) :
    (Access.get a).perform s =
      match s.tagOf a with
      | .ok t => .ok (.tag t) s
      | .error e => .error e s := rfl

theorem Access.outcome_get (a : Address) (s : Store) :
    Action.outcome (Access.get a).perform s = ((s.tagOf a).map .tag, s) := by
  rw [Action.outcome, perform_get]
  cases s.tagOf a <;> rfl

theorem Access.outcome_set (a : Address) (t : Tag) (s : Store) :
    Action.outcome (Access.set a t).perform s =
      match s.refusal? a with
      | some e => (.error e, s)
      | none => (.ok .done, s.withTag a t) := by
  have h : (Access.set a t).perform s = (Store.setTag a t >>= fun _ => pure Answer.done) s := rfl
  rw [Action.outcome, h, Action.bind_apply, Store.setTag_eq]
  cases s.refusal? a <;> rfl

theorem Access.outcome_materialize (a : Address) (s : Store) :
    Action.outcome (Access.materialize a).perform s =
      match s.refusal? a with
      | some e => (.error e, s)
      | none =>
        (.ok (.shadow (s.window.addressOf (s.layout.granule a))),
          s.withRegion (s.layout.regionAt a)) := by
  have h : (Access.materialize a).perform s =
      (Store.materialize a >>= fun shadow => pure (Answer.shadow shadow)) s := rfl
  rw [Action.outcome, h, Action.bind_apply, Store.materialize_eq]
  cases s.refusal? a <;> rfl

namespace Store

/-- No query tells the stores apart. -/
structure SameView (s t : Store) : Prop where
  tagOf : ∀ a, s.tagOf a = t.tagOf a
  pageKind : ∀ a, s.pageKind a = t.pageKind a
  regionCount : s.regionCount = t.regionCount
  visit : ∀ {σ : Type} (visitor : σ → Region → σ × Bool) (start : σ),
    s.visit visitor start = t.visit visitor start

def serve (s : Store) (c : Call) : Event × Store :=
  let (outcome, s) := Action.outcome c.access.perform (s.under c.system)
  (⟨c.access, outcome⟩, s)

def serveAll (s : Store) (calls : List Call) : List Event × Store :=
  calls.foldl (fun (events, s) c => let (e, s) := s.serve c; (events ++ [e], s)) ([], s)

theorem serveAll_concat (s : Store) (calls : List Call) (c : Call) :
    s.serveAll (calls ++ [c]) =
      ((s.serveAll calls).1 ++ [((s.serveAll calls).2.serve c).1],
        ((s.serveAll calls).2.serve c).2) := by
  rw [serveAll, List.foldl_append]
  rfl

/-! ## One call -/

theorem serve_get (s : Store) (a : Address) (m : Mapping) :
    s.serve ⟨.get a, m⟩ = (⟨.get a, (s.tagOf a).map .tag⟩, s.under m) := by
  rw [serve, Access.outcome_get]
  rfl

theorem serve_set (s : Store) (a : Address) (t : Tag) (m : Mapping) :
    s.serve ⟨.set a t, m⟩ =
      match (s.under m).refusal? a with
      | some e => (⟨.set a t, .error e⟩, s.under m)
      | none => (⟨.set a t, .ok .done⟩, (s.under m).withTag a t) := by
  rw [serve, Access.outcome_set]
  cases (s.under m).refusal? a <;> rfl

theorem serve_materialize (s : Store) (a : Address) (m : Mapping) :
    s.serve ⟨.materialize a, m⟩ =
      match (s.under m).refusal? a with
      | some e => (⟨.materialize a, .error e⟩, s.under m)
      | none =>
        (⟨.materialize a, .ok (.shadow (s.window.addressOf (s.layout.granule a)))⟩,
          (s.under m).withRegion (s.layout.regionAt a)) := by
  rw [serve, Access.outcome_materialize]
  cases (s.under m).refusal? a <;> rfl

/-- A call that fails changes nothing but the time. -/
theorem serve_error {s : Store} {c : Call} {e : ShadowError}
    (h : (s.serve c).1.outcome = .error e) : (s.serve c).2 = s.under c.system := by
  obtain ⟨access, m⟩ := c
  cases access with
  | get a => rw [serve_get]
  | set a t =>
      rw [serve_set] at h ⊢
      cases hr : (s.under m).refusal? a <;> simp_all
  | materialize a =>
      rw [serve_materialize] at h ⊢
      cases hr : (s.under m).refusal? a <;> simp_all

/-- A refused commit can be asked for again. -/
theorem serve_retry {s : Store} {c : Call} {r : MapRequest}
    (h : (s.serve c).1.outcome = .error (.mapping r)) {m : Mapping} (hm : m.refuses r = false) :
    ∃ answer, ((s.serve c).2.serve ⟨c.access, m⟩).1.outcome = .ok answer := by
  rw [serve_error h]
  obtain ⟨access, m₀⟩ := c
  cases access with
  | get a =>
      -- A `get` asks for no memory.
      rw [serve_get, tagOf_eq] at h
      split at h <;> cases h
  | set a t =>
      rw [serve_set] at h
      cases hr : (s.under m₀).refusal? a with
      | none => simp [hr] at h
      | some e =>
          simp only [hr, Except.error.injEq] at h
          have hgranted := refusal?_of_granted (h ▸ hr) hm
          exact ⟨.done, by rw [serve_set, hgranted]⟩
  | materialize a =>
      rw [serve_materialize] at h
      cases hr : (s.under m₀).refusal? a with
      | none => simp [hr] at h
      | some e =>
          simp only [hr, Except.error.injEq] at h
          have hgranted := refusal?_of_granted (h ▸ hr) hm
          exact ⟨_, by rw [serve_materialize, hgranted]⟩

/-! ## Many calls -/

/-- The store reads as `history` has left it. -/
structure Reads (w : Window) (events : List Event) (s : Store) : Prop where
  consistent : s.Consistent
  window : s.window = w
  read : ∀ o, s.bytes.read o = Event.lastTag w.layout o events

theorem Reads.tagOf {w : Window} {events : List Event} {s : Store} (h : Reads w events s)
    (a : Address) :
    s.tagOf a =
      if w.layout.covers a then .ok (Event.lastTag w.layout (w.layout.granule a) events)
      else .error (.invalidAddress a) := by
  rw [tagOf_eq, layout, h.window, h.read]

theorem Reads.serve {w : Window} {events : List Event} {s : Store} (h : Reads w events s)
    (c : Call) : Reads w (events ++ [(s.serve c).1]) (s.serve c).2 := by
  obtain ⟨access, m⟩ := c
  have hu := h.consistent.under m
  have hl : (s.under m).layout = w.layout := by rw [under_layout, layout, h.window]
  -- A call that writes no tag leaves the last tag of every granule as it was.
  have same : ∀ e : Event, (∀ g, e.tagSet? w.layout g = none) →
      ∀ g, Event.lastTag w.layout g (events ++ [e]) = Event.lastTag w.layout g events := by
    intro e he g
    rw [Event.lastTag_concat, he, Option.getD_none]
  cases access with
  | get a =>
      rw [serve_get]
      exact ⟨hu, h.window, fun o => by rw [same _ fun _ => rfl]; exact h.read o⟩
  | materialize a =>
      rw [serve_materialize]
      cases hr : (s.under m).refusal? a with
      | some e => exact ⟨hu, h.window, fun o => by rw [same _ fun _ => rfl]; exact h.read o⟩
      | none =>
          have hi := Layout.regionAt_lt_regions (covers_of_refusal? hr)
          refine ⟨hu.withRegion hi, by rw [withRegion_window]; exact h.window, fun o => ?_⟩
          rw [same _ fun _ => rfl, read_withRegion hu]
          exact h.read o
  | set a t =>
      rw [serve_set]
      cases hr : (s.under m).refusal? a with
      | some e => exact ⟨hu, h.window, fun o => by rw [same _ fun _ => rfl]; exact h.read o⟩
      | none =>
          refine ⟨hu.withTag (covers_of_refusal? hr) t, by rw [withTag_window]; exact h.window,
            fun o => ?_⟩
          -- Addresses of one granule share a byte, and `lastTag` compares granules.
          rw [read_withTag hu, Event.lastTag_concat, hl]
          change _ = (if w.layout.granule a = o then some t else none).getD _
          split
          · rfl
          · exact h.read o

theorem reads_serveAll {backend : Backend} {w : Window} {m : Mapping} {s : Store}
    (hs : create backend w m = .ok s) (calls : List Call) :
    Reads w (s.serveAll calls).1 (s.serveAll calls).2 := by
  induction calls using List.reverseRecOn with
  | nil =>
      refine ⟨consistent_create hs, by rw [of_create_eq_ok hs]; rfl, fun o => ?_⟩
      rw [of_create_eq_ok hs]
      exact Memory.read_zero o
  | append_singleton calls c ih =>
      rw [serveAll_concat]
      exact ih.serve c

/-- A `get` answers with the last tag that a successful `set` gave to the granule, outside the
window with an error. A call that fails leaves every query as it was, however the operating system
answers meanwhile, and succeeds when it is repeated once the commit is granted. -/
theorem get_answers_last_set {backend : Backend} {w : Window} {m : Mapping} {s₀ : Store}
    (hs : create backend w m = .ok s₀) (calls : List Call) :
    let events := (s₀.serveAll calls).1
    let s := (s₀.serveAll calls).2
    (∀ a system, (s.serve ⟨.get a, system⟩).1.outcome =
        if w.layout.covers a then .ok (.tag (Event.lastTag w.layout (w.layout.granule a) events))
        else .error (.invalidAddress a)) ∧
      (∀ c e, (s.serve c).1.outcome = .error e →
        ∀ system, SameView ((s.serve c).2.under system) (s.under system)) ∧
      ∀ c r, (s.serve c).1.outcome = .error (.mapping r) →
        ∀ system : Mapping, system.refuses r = false →
          ∃ answer, ((s.serve c).2.serve ⟨c.access, system⟩).1.outcome = .ok answer := by
  have hr := reads_serveAll hs calls
  refine ⟨fun a system => ?_, fun c e he system => ?_, fun c r hc system hm => ?_⟩
  · rw [serve_get, hr.tagOf]
    split <;> rfl
  · rw [serve_error he, under_under]
    exact ⟨fun _ => rfl, fun _ => rfl, rfl, fun _ _ => rfl⟩
  · exact serve_retry hc hm

/-- The first `set` is refused its commit; the second one, to the same granule, is not. -/
theorem get_answers_last_set_refused_once :
    ∃ s₀, create .lazy .small .granting = .ok s₀ ∧
      let s := (s₀.serveAll
        [⟨.set 0x1004 7, .refusing (.commit 0)⟩, ⟨.set 0x1006 5, .granting⟩]).2
      (s.serve ⟨.get 0x1005, .granting⟩).1.outcome = .ok (.tag 5) := by
  have hs : create .lazy .small .granting = .ok (.small .lazy) := rfl
  refine ⟨_, hs, ?_⟩
  have h := (get_answers_last_set hs
    [⟨.set 0x1004 7, .refusing (.commit 0)⟩, ⟨.set 0x1006 5, .granting⟩]).1 0x1005 .granting
  exact h.trans rfl

end Store
end TaintFlow
