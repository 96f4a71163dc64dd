import TaintFlow.Proofs.Plan.Moves

/-!
# Propagation side by side

Two runs of a propagation stay in step as long as tags that correspond are moved and joined into
tags that correspond. Which tags correspond is left open, and so is what else relates the two
states: whatever it is, it has to survive the writing of corresponding tags.
-/

namespace TaintFlow

open TaintFlow.Action

/-- The failures of writing a register's tag depend on the register only. -/
theorem ThreadContext.likewise_setTag {c d : ThreadContext}
    (h : d.bank.tracksPc = c.bank.tracksPc) (r : Reg) (t u : Tag) :
    Likewise Any (c.setTag r t) (d.setTag r u) := by
  have hposition := RegisterBank.position_congr h r
  unfold setTag RegisterBank.setTag
  rw [hposition]
  cases c.bank.position r with
  | ok i => exact trivial
  | error e => exact rfl

namespace TagState

/-- States that `R` relates hold tags that `V` relates and refuse the same writes, and writing tags
that `V` relates keeps them related. Moving tags is all that `V` has to stand. -/
structure Matching (V : Tag → Tag → Prop) (R : TagState → TagState → Prop) : Prop where
  untainted : V untainted untainted
  union : ∀ t t' u u', V t t' → V u u' → V (t ||| u) (t' ||| u')
  tagOf : ∀ s s', R s s' → ∀ a, Likewise V (s.store.tagOf a) (s'.store.tagOf a)
  refusal? : ∀ s s', R s s' → ∀ a, s'.store.refusal? a = s.store.refusal? a
  tracksPc : ∀ s s', R s s' → s'.thread.bank.tracksPc = s.thread.bank.tracksPc
  regTag : ∀ s s', R s s' → ∀ r, Likewise V (s.thread.tagOf r) (s'.thread.tagOf r)
  withTag : ∀ s s', R s s' → ∀ a t t', V t t' → s.store.layout.covers a = true →
    R { s with store := s.store.withTag a t } { s' with store := s'.store.withTag a t' }
  withRegTag : ∀ s s', R s s' → ∀ r t t' c c', V t t' → s.thread.setTag r t = .ok c →
    s'.thread.setTag r t' = .ok c' → R { s with thread := c } { s' with thread := c' }

/-- States whose stores answer alike and whose threads have the same bank. -/
theorem Matching.of_eq {R : TagState → TagState → Prop}
    (htag : ∀ s s', R s s' → ∀ a, s'.store.tagOf a = s.store.tagOf a)
    (hrefusal : ∀ s s', R s s' → ∀ a, s'.store.refusal? a = s.store.refusal? a)
    (hbank : ∀ s s', R s s' → s'.thread.bank = s.thread.bank)
    (hwithTag : ∀ s s', R s s' → ∀ a t, s.store.layout.covers a = true →
      R { s with store := s.store.withTag a t } { s' with store := s'.store.withTag a t })
    (hwithBank : ∀ s s', R s s' → ∀ bank : RegisterBank,
      R { s with thread := { s.thread with bank } } { s' with thread := { s'.thread with bank } }) :
    Matching Eq R where
  untainted := rfl
  union := by
    rintro t _ u _ rfl rfl
    rfl
  tagOf := fun s s' h a => .of_eq (htag s s' h a).symm
  refusal? := hrefusal
  tracksPc := fun s s' h => congrArg RegisterBank.tracksPc (hbank s s' h)
  regTag := by
    intro s s' h r
    apply Likewise.of_eq
    rw [ThreadContext.tagOf, ThreadContext.tagOf, hbank s s' h]
  withTag := by
    rintro s s' h a t _ rfl hc
    exact hwithTag s s' h a t hc
  withRegTag := by
    rintro s s' h r t _ c c' rfl hc hc'
    obtain ⟨haddress, hslots, hset⟩ := ThreadContext.of_setTag_eq_ok hc
    obtain ⟨haddress', hslots', hset'⟩ := ThreadContext.of_setTag_eq_ok hc'
    -- Equal banks become one bank, which both threads go on with.
    have hsame : c'.bank = c.bank := by
      rw [hbank s s' h, hset] at hset'
      exact (Except.ok.inj hset').symm
    have hthread : c = { s.thread with bank := c.bank } := by
      dsimp only
      rw [← haddress, ← hslots]
    have hthread' : c' = { s'.thread with bank := c.bank } := by
      dsimp only
      rw [← haddress', ← hslots', ← hsame]
    rw [hthread, hthread']
    exact hwithBank s s' h c.bank

variable {V : Tag → Tag → Prop} {R : TagState → TagState → Prop} (hR : Matching V R)
include hR

theorem simulates_memTag (a : Address) : Simulates R V Eq (memTag a) (memTag a) := by
  intro s s' h
  have htag := hR.tagOf s s' h a
  unfold memTag
  cases ht : s.store.tagOf a <;> cases ht' : s'.store.tagOf a <;> rw [ht, ht'] at htag
  case ok.ok => exact ⟨htag, h⟩
  case error.error => exact ⟨congrArg ApplyError.shadow htag, h⟩
  all_goals exact htag.elim

theorem simulates_setMemTag (a : Address) {t t' : Tag} (ht : V t t') :
    Simulates R Any Eq (setMemTag a t) (setMemTag a t') := by
  intro s s' h
  unfold setMemTag focus
  rw [Store.setTag_eq, Store.setTag_eq, hR.refusal? s s' h]
  cases hr : s.store.refusal? a with
  | some e => exact ⟨rfl, h⟩
  | none => exact ⟨trivial, hR.withTag s s' h a t t' ht (Store.covers_of_refusal? hr)⟩

theorem simulates_regTag (r : Reg) : Simulates R V Eq (regTag r) (regTag r) := by
  intro s s' h
  have htag := hR.regTag s s' h r
  unfold regTag
  cases ht : s.thread.tagOf r <;> cases ht' : s'.thread.tagOf r <;> rw [ht, ht'] at htag
  case ok.ok => exact ⟨htag, h⟩
  case error.error => exact ⟨congrArg ApplyError.register htag, h⟩
  all_goals exact htag.elim

theorem simulates_setRegTag (r : Reg) {t t' : Tag} (ht : V t t') :
    Simulates R Any Eq (setRegTag r t) (setRegTag r t') := by
  intro s s' h
  have hset := ThreadContext.likewise_setTag (hR.tracksPc s s' h) r t t'
  unfold setRegTag
  cases hc : s.thread.setTag r t <;> cases hc' : s'.thread.setTag r t' <;> rw [hc, hc'] at hset
  case ok.ok => exact ⟨trivial, hR.withRegTag s s' h r t t' _ _ ht hc hc'⟩
  case error.error => exact ⟨congrArg ApplyError.register hset, h⟩
  all_goals exact hset.elim

theorem simulates_regTagOrClean (r : Reg) :
    Simulates R V Eq (regTagOrClean r) (regTagOrClean r) := by
  intro s s' h
  unfold regTagOrClean
  rw [get_bind, get_bind, ThreadContext.tracks, ThreadContext.tracks, RegisterBank.tracks,
    RegisterBank.tracks, hR.tracksPc s s' h]
  by_cases hr : r.isTracked s.thread.bank.tracksPc = true
  · rw [if_pos hr]
    exact simulates_regTag hR r s s' h
  · rw [if_neg hr]
    exact ⟨hR.untainted, h⟩

theorem simulates_sourceTag (src : Option Reg) :
    Simulates R V Eq (Rule.sourceTag src) (Rule.sourceTag src) := by
  cases src with
  | none => exact simulates_pure hR.untainted
  | some r => exact simulates_regTag hR r

theorem simulates_unionTag {t t' : Tag} (ht : V t t') (srcs : List Reg) :
    Simulates R V Eq (Rule.unionTag t srcs) (Rule.unionTag t' srcs) := by
  induction srcs generalizing t t' with
  | nil => exact simulates_pure ht
  | cons r rest ih =>
      apply simulates_bind (simulates_regTag hR r)
      exact fun u u' hu => ih (hR.union t t' u u' ht hu)

end TagState

open TagState

variable {V : Tag → Tag → Prop} {R : TagState → TagState → Prop} (hR : Matching V R)
include hR

theorem BlockTransfer.simulates_transferOne (b : BlockTransfer) (base : Address) (place : Nat)
    (r : Reg) :
    Simulates R Any Eq (b.transferOne base place r) (b.transferOne base place r) := by
  unfold transferOne
  cases b.kind with
  | loadIncrement =>
      intro s s' h
      dsimp only
      -- Both sides skip the same words, because they track the same registers.
      rw [get_bind, get_bind, ThreadContext.tracks, ThreadContext.tracks, RegisterBank.tracks,
        RegisterBank.tracks, hR.tracksPc s s' h]
      by_cases hr : r.isTracked s.thread.bank.tracksPc = true
      · rw [if_pos hr]
        refine simulates_bind (simulates_memTag hR _) ?_ s s' h
        exact fun t t' ht => simulates_setRegTag hR r ht
      · rw [if_neg hr]
        exact ⟨trivial, h⟩
  | storeDecrement =>
      apply simulates_bind (simulates_regTagOrClean hR r)
      exact fun t t' ht => simulates_setMemTag hR _ ht

theorem BlockTransfer.simulates_apply (b : BlockTransfer) (f : RegFile) :
    Simulates R Any Eq (b.apply f) (b.apply f) :=
  simulates_forM fun x _ => b.simulates_transferOne hR _ x.1 x.2

theorem Move.simulates_apply (f : RegFile) (m : Move) :
    Simulates R Any Eq (m.apply f) (m.apply f) := by
  cases m with
  | load dst mem i =>
      apply simulates_bind (simulates_memTag hR _)
      exact fun t t' ht => simulates_setRegTag hR dst ht
  | store src mem i =>
      apply simulates_bind (simulates_sourceTag hR src)
      exact fun t t' ht => simulates_setMemTag hR _ ht
  | copy dst src =>
      apply simulates_bind (simulates_regTag hR src)
      exact fun t t' ht => simulates_setRegTag hR dst ht
  | clear dst => exact simulates_setRegTag hR dst hR.untainted
  | union dst srcs =>
      apply simulates_bind (simulates_unionTag hR hR.untainted srcs)
      exact fun t t' ht => simulates_setRegTag hR dst ht
  | block b => exact b.simulates_apply hR f

theorem Plan.simulates_apply (f : RegFile) (p : Plan) :
    Simulates R Any Eq (p.apply f) (p.apply f) := by
  rw [apply_eq_moves]
  exact simulates_forM fun m _ => m.simulates_apply hR f

end TaintFlow
