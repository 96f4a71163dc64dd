import TaintFlow.Plan.BlockTransfer
import TaintFlow.Proofs.Shadow.Changes

/-!
# Block transfers and the store

A block transfer reaches the store only through `setTag` and the thread only through its bank, so it
keeps what the reading and the writing of single tags keeps, however far it gets.
-/

namespace TaintFlow

open TaintFlow.Action

def ApplyError.cause? : ApplyError → Option ShadowError
  | .shadow e => some e
  | .register _ => none

/-- Writing a register's tag changes nothing but the bank. -/
theorem ThreadContext.of_setTag_eq_ok {c d : ThreadContext} {r : Reg} {t : Tag}
    (h : c.setTag r t = .ok d) :
    d.address = c.address ∧ d.slots = c.slots ∧ c.bank.setTag r t = .ok d.bank := by
  unfold setTag at h
  cases hb : c.bank.setTag r t with
  | error e => simp [hb, Except.map] at h
  | ok b =>
      rw [hb] at h
      cases h
      exact ⟨rfl, rfl, rfl⟩

namespace TagState

/-- The state is one that has become of `s₀`. -/
structure Since (s₀ s : TagState) : Prop where
  store : Store.Changed s₀.store s.store
  address : s.thread.address = s₀.thread.address
  tracksPc : s.thread.bank.tracksPc = s₀.thread.bank.tracksPc

theorem Since.trans {s₀ s s' : TagState} (h : Since s₀ s) (h' : Since s s') : Since s₀ s' :=
  ⟨h.store.trans h'.store, h'.address.trans h.address, h'.tracksPc.trans h.tracksPc⟩

theorem Since.withThread {s₀ s : TagState} (h : Since s₀ s) {r : Reg} {t : Tag}
    {thread : ThreadContext} (ht : s.thread.setTag r t = .ok thread) :
    Since s₀ { s with thread } := by
  obtain ⟨haddress, -, hbank⟩ := ThreadContext.of_setTag_eq_ok ht
  exact ⟨h.store, haddress.trans h.address,
    (RegisterBank.tracksPc_of_setTag hbank).trans h.tracksPc⟩

theorem Since.withStore {s₀ s : TagState} (h : Since s₀ s) {store : Store}
    (hstore : Store.Changed s.store store) : Since s₀ { s with store } :=
  ⟨h.store.trans hstore, h.address, h.tracksPc⟩

theorem Since.tracks {s₀ s : TagState} (h : Since s₀ s) (r : Reg) :
    s.thread.tracks r = s₀.thread.tracks r :=
  congrArg r.isTracked h.tracksPc

def OrdinaryFailure (e : ApplyError) : Prop :=
  Ordinary e.cause?

/-- Reading the words `reads`, writing the words `writes` and accessing the registers `regs` keeps
`I` and fails only with what `E` allows. -/
structure Keeps (I : TagState → Prop) (E : ApplyError → Prop) (reads writes : Address → Prop)
    (regs : Reg → Prop) : Prop where
  tracked : ∀ s, I s → ∀ r, s.thread.tracks r = true → regs r
  untracked : ∀ s, I s → ∀ r e, regs r → s.thread.bank.position r = .error e → E (.register e)
  withThread : ∀ s, I s → ∀ r t c, s.thread.setTag r t = .ok c → I { s with thread := c }
  uncovered : ∀ s, I s → ∀ a, reads a → s.store.layout.covers a = false →
    E (.shadow (.invalidAddress a))
  refused : ∀ s, I s → ∀ a e, writes a → s.store.refusal? a = some e → E (.shadow e)
  withTag : ∀ s, I s → ∀ a t, writes a → s.store.layout.covers a = true →
    I { s with store := s.store.withTag a t }

namespace Keeps

variable {I : TagState → Prop} {E : ApplyError → Prop} {reads writes : Address → Prop}
  {regs : Reg → Prop} (h : Keeps I E reads writes regs)
include h

theorem memTag {a : Address} (ha : reads a) : Preserves I E (TagState.memTag a) := by
  intro s hs
  unfold TagState.memTag
  rw [Store.tagOf_eq]
  cases hc : s.store.layout.covers a with
  | true => exact hs
  | false => exact ⟨hs, h.uncovered s hs a ha hc⟩

theorem setMemTag {a : Address} (ha : writes a) (t : Tag) :
    Preserves I E (TagState.setMemTag a t) := by
  intro s hs
  unfold TagState.setMemTag focus
  rw [Store.setTag_eq]
  cases hr : s.store.refusal? a with
  | some e => exact ⟨hs, h.refused s hs a e ha hr⟩
  | none => exact h.withTag s hs a t ha (Store.covers_of_refusal? hr)

theorem regTag {r : Reg} (hr : regs r) : Preserves I E (TagState.regTag r) := by
  intro s hs
  unfold TagState.regTag ThreadContext.tagOf RegisterBank.tagOf
  cases hp : s.thread.bank.position r with
  | ok i => exact hs
  | error e => exact ⟨hs, h.untracked s hs r e hr hp⟩

theorem setRegTag {r : Reg} (hr : regs r) (t : Tag) : Preserves I E (TagState.setRegTag r t) := by
  intro s hs
  have hthread := h.withThread s hs r t
  unfold TagState.setRegTag
  unfold ThreadContext.setTag RegisterBank.setTag at hthread ⊢
  cases hp : s.thread.bank.position r with
  | ok i =>
      rw [hp] at hthread
      exact hthread _ rfl
  | error e => exact ⟨hs, h.untracked s hs r e hr hp⟩

/-- Where nothing is written, no write is refused. -/
theorem readOnly {E' : ApplyError → Prop} (hregister : ∀ e, E (.register e) → E' (.register e))
    (hinvalid : ∀ a, E (.shadow (.invalidAddress a)) → E' (.shadow (.invalidAddress a))) :
    Keeps I E' reads (fun _ => False) regs where
  tracked := h.tracked
  untracked := fun s hs r e hr hp => hregister e (h.untracked s hs r e hr hp)
  withThread := h.withThread
  uncovered := fun s hs a ha hc => hinvalid a (h.uncovered s hs a ha hc)
  refused := fun _ _ _ _ hnone => hnone.elim
  withTag := fun _ _ _ _ hnone => hnone.elim

theorem regTagOrClean (r : Reg) : Preserves I E (TagState.regTagOrClean r) := by
  intro s hs
  unfold TagState.regTagOrClean
  rw [get_bind]
  by_cases hr : s.thread.tracks r = true
  · rw [if_pos hr]
    exact h.regTag (h.tracked s hs r hr) s hs
  · rw [if_neg hr]
    exact hs

end Keeps

theorem Since.keeps {s₀ : TagState} (h₀ : s₀.store.Consistent) :
    Keeps (Since s₀) OrdinaryFailure (fun _ => True) (fun _ => True) (fun _ => True) where
  tracked := fun _ _ _ _ => trivial
  untracked := fun _ _ _ _ _ _ => ordinary_none
  withThread := fun _ hs _ _ _ hc => hs.withThread hc
  uncovered := by
    rintro s - a - - base hbase
    cases hbase
  refused := fun _ _ _ _ _ hr => Store.ordinary_of_refusal? hr
  withTag := fun _ hs _ t _ hc =>
    hs.withStore (Store.changed_withTag (hs.store.consistent h₀) hc t)

end TagState

namespace BlockTransfer

/-- The words whose tags the transfer moves. A load passes over the words of other registers than
`regs`. -/
def Accesses (b : BlockTransfer) (regs : Reg → Prop) (f : RegFile) (a : Address) : Prop :=
  ∃ x ∈ b.transferred, (b.kind = .loadIncrement → regs x.2) ∧
    a = b.wordAddress (f.value b.base) x.1

theorem keeps_apply {I : TagState → Prop} {E : ApplyError → Prop} {reads writes : Address → Prop}
    {regs : Reg → Prop} (h : TagState.Keeps I E reads writes regs) (b : BlockTransfer)
    (f : RegFile) (hreads : ∀ a, b.Accesses regs f a → reads a)
    (hwrites : ∀ a, b.Accesses regs f a → writes a) : Preserves I E (b.apply f) := by
  apply preserves_forM
  rintro ⟨place, r⟩ hx
  unfold transferOne
  cases hkind : b.kind with
  | loadIncrement =>
      intro s hs
      dsimp only
      rw [get_bind]
      by_cases hr : s.thread.tracks r = true
      · have hreg := h.tracked s hs r hr
        have hword := hreads _ ⟨_, hx, fun _ => hreg, rfl⟩
        rw [if_pos hr]
        exact preserves_bind (h.memTag hword) (fun t => h.setRegTag hreg t) s hs
      · rw [if_neg hr]
        exact hs
  | storeDecrement =>
      have hload : b.kind = .loadIncrement → regs r := fun hload => by simp [hkind] at hload
      have hword := hwrites _ ⟨_, hx, hload, rfl⟩
      exact preserves_bind (h.regTagOrClean r) fun t => h.setMemTag hword t

theorem preserves_apply {s₀ : TagState} (h₀ : s₀.store.Consistent) (b : BlockTransfer)
    (f : RegFile) : Preserves (TagState.Since s₀) TagState.OrdinaryFailure (b.apply f) :=
  b.keeps_apply (TagState.Since.keeps h₀) f (fun _ _ => trivial) (fun _ _ => trivial)

end BlockTransfer

end TaintFlow
