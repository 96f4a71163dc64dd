import TaintFlow.Fault.Signal
import TaintFlow.Proofs.Actions

/-!
# Registering handlers

A handler takes one signal after the other and fails at the first that is taken. What it has taken
by then can be given back, and the table is as it was before: the signals that another handler has
are left alone, and the others get back the dispositions that they had.
-/

namespace TaintFlow

open TaintFlow.Action

namespace SignalTable

variable {t : SignalTable} {h : Handler}

theorem update_update (s : Signal) (r q : Option Registration) (d e : Disposition) :
    (t.update s r d).update s q e = t.update s q e := by
  unfold update
  congr 1 <;> funext x <;> by_cases hx : x = s <;> simp [hx]

theorem update_self (s : Signal) : t.update s (t.registration s) (t.disposition s) = t := by
  have hregistration : (t.update s (t.registration s) (t.disposition s)).registration =
      t.registration := by
    funext x
    by_cases hx : x = s <;> simp [update, hx]
  have hdisposition : (t.update s (t.registration s) (t.disposition s)).disposition =
      t.disposition := by
    funext x
    by_cases hx : x = s <;> simp [update, hx]
  exact congrArg₂ SignalTable.mk hregistration hdisposition

/-- The handler is registered for no signal. -/
def Lacks (t : SignalTable) (h : Handler) : Prop :=
  ∀ s r, t.registration s = some r → r.handler ≠ h

theorem Lacks.deregisterOne (hlacks : t.Lacks h) (s : Signal) : (deregisterOne h t s).1 = t := by
  unfold SignalTable.deregisterOne
  split
  · rfl
  · rename_i r hr
    rw [if_neg (hlacks s r hr)]

theorem Lacks.deregister (hlacks : t.Lacks h) (signals : List Signal) :
    (deregister h signals t).1 = t := by
  induction signals with
  | nil => rfl
  | cons s rest ih =>
      rw [SignalTable.deregister]
      dsimp only
      rw [hlacks.deregisterOne s, ih]

/-- Taking a free signal and giving it back restores the table. -/
theorem deregisterOne_registered {s : Signal} (hs : t.registration s = none) :
    (deregisterOne h (t.update s (some ⟨h, t.disposition s⟩) .registered) s).1 = t := by
  have hown : (t.update s (some ⟨h, t.disposition s⟩) .registered).registration s =
      some ⟨h, t.disposition s⟩ := if_pos rfl
  rw [deregisterOne, hown]
  dsimp only
  rw [if_pos rfl, update_update, ← hs, update_self]

theorem registration_deregisterOne (s x : Signal) :
    (deregisterOne h t s).1.registration x =
      if x = s ∧ (t.registration s).any (·.handler = h) then none else t.registration x := by
  unfold deregisterOne
  cases hs : t.registration s with
  | none => simp
  | some r =>
      by_cases hr : r.handler = h
      · by_cases hx : x = s <;> simp [hr, hx, update]
      · simp [hr]

/-- What is registered after a deregistration was registered before. -/
theorem registration_deregister {signals : List Signal} {s : Signal} {r : Registration}
    (hr : (deregister h signals t).1.registration s = some r) :
    t.registration s = some r ∧ (s ∈ signals → r.handler ≠ h) := by
  induction signals generalizing t with
  | nil => exact ⟨hr, nofun⟩
  | cons x rest ih =>
      rw [deregister] at hr
      obtain ⟨hbefore, hrest⟩ := ih hr
      rw [registration_deregisterOne] at hbefore
      split at hbefore
      · cases hbefore
      · rename_i hnot
        refine ⟨hbefore, fun hs => ?_⟩
        rcases List.mem_cons.mp hs with rfl | hs
        · exact fun hh => hnot ⟨rfl, by simp [hbefore, hh]⟩
        · exact hrest hs

/-- A handler that was deregistered from both signals is registered for none. -/
theorem lacks_deregister : (deregister h Signal.faults t).1.Lacks h := by
  intro s r hr
  have hs : s ∈ Signal.faults := by cases s <;> decide
  exact (registration_deregister hr).2 hs

theorem Lacks.of_deregister {q : Handler} {signals : List Signal} (hlacks : t.Lacks h) :
    (SignalTable.deregister q signals t).1.Lacks h :=
  fun s r hr => hlacks s r (registration_deregister hr).1

theorem preserves_registerOne {q : Handler} (hq : q ≠ h) (s : Signal) :
    Preserves (Lacks · h) (fun _ => True) (registerOne q s) := by
  intro t ht
  unfold registerOne
  cases hs : t.registration s with
  | some r => exact ⟨ht, trivial⟩
  | none =>
      intro x r hr
      by_cases hx : x = s
      · simp only [update, hx, if_true, Option.some.injEq] at hr
        rw [← hr]
        exact hq
      · simp only [update, hx, if_false] at hr
        exact ht x r hr

/-- No handler is registered for any signal. -/
def Free (t : SignalTable) : Prop :=
  ∀ s, t.registration s = none

theorem registerOne_free {s : Signal} (hs : t.registration s = none) :
    registerOne h s t = .ok () (t.update s (some ⟨h, t.disposition s⟩) .registered) := by
  rw [registerOne, hs]

theorem registerOne_taken {s : Signal} {r : Registration} (hs : t.registration s = some r) :
    registerOne h s t = .error (.alreadyRegistered s) t := by
  rw [registerOne, hs]

/-- A handler is registered for both signals if they are free. Otherwise what it has taken can be
given back. -/
theorem register_cases (hlacks : t.Lacks h) :
    (t.Free ∧ ∃ t', register h Signal.faults t = .ok () t') ∨
      (¬ t.Free ∧ ∃ e t', register h Signal.faults t = .error e t' ∧
        (deregister h Signal.faults t').1 = t) := by
  have hregister : register h Signal.faults =
      registerOne h .segv >>= fun _ => registerOne h .bus >>= fun _ => pure () := rfl
  rw [hregister]
  cases hsegv : t.registration .segv with
  | some r =>
      have hfree : ¬ t.Free := fun hfree => by simp [hfree .segv] at hsegv
      exact Or.inr ⟨hfree, _, t, bind_error (registerOne_taken hsegv), hlacks.deregister _⟩
  | none =>
      rw [bind_ok (registerOne_free hsegv)]
      cases hbus : t.registration .bus with
      | none =>
          have hfree : t.Free := fun s => by cases s <;> assumption
          exact Or.inl ⟨hfree, _, bind_ok (registerOne_free hbus)⟩
      | some r =>
          have hfree : ¬ t.Free := fun hfree => by simp [hfree .bus] at hbus
          refine Or.inr ⟨hfree, _, _, bind_error (registerOne_taken hbus), ?_⟩
          -- Of the two signals only the first was taken.
          rw [Signal.faults, deregister]
          dsimp only
          rw [deregisterOne_registered hsegv, hlacks.deregister]

end SignalTable

end TaintFlow
