import TaintFlow.Fault.Recovery
import TaintFlow.Proofs.Shadow.Changes

/-!
# Recovered faults

Recovery makes one region writable, that of the saved address, and touches nothing else. It does so
even if the faulting access turns out to lie in another region.
-/

namespace TaintFlow

open TaintFlow.Action

def FaultError.cause? : FaultError → Option ShadowError
  | .shadow e => some e
  | .slotMismatch _ _ => none
  | .patch _ => none

variable {σ : Type}

theorem recoverFault_outside (patch : Address → Address → Action σ PatchError Unit)
    {access : Address} (saved : Address) {s : Store} (m : σ) (h : s.pageKind access = none) :
    recoverFault patch access saved (s, m) = .ok .deliver (s, m) := by
  unfold recoverFault
  rw [get_bind]
  simp only [h]
  rfl

theorem recoverFault_owned (patch : Address → Address → Action σ PatchError Unit)
    {access : Address} (saved : Address) {s : Store} (m : σ) (h : s.pageKind access = some .owned) :
    recoverFault patch access saved (s, m) = .ok .resume (s, m) := by
  unfold recoverFault
  rw [get_bind]
  simp only [h]
  rfl

theorem recoverFault_shared (patch : Address → Address → Action σ PatchError Unit)
    {access : Address} (saved : Address) {s : Store} (m : σ)
    (h : s.pageKind access = some .shared) :
    recoverFault patch access saved (s, m) =
      match s.refusal? saved with
      | some e => .error (.shadow e) (s, m)
      | none =>
        let s' := s.withRegion (s.layout.regionAt saved)
        if s'.pageKind access = some .owned then
          match patch access (s.window.addressOf (s.layout.granule saved)) m with
          | .ok _ m' => .ok .resume (s', m')
          | .error e m' => .error (.patch e) (s', m')
        else .error (.slotMismatch access saved) (s', m) := by
  unfold recoverFault
  rw [get_bind]
  simp only [h]
  rw [bind_apply, focus, Store.materialize_eq]
  cases hr : s.refusal? saved with
  | some e => rfl
  | none =>
      dsimp only
      rw [get_bind]
      cases hk : (s.withRegion (s.layout.regionAt saved)).pageKind access with
      | none => rfl
      | some kind =>
          cases kind with
          | shared => rfl
          | owned =>
              simp only [bne_self_eq_false, Bool.false_eq_true, if_false, if_true]
              rw [bind_apply, focus]
              cases patch access (s.window.addressOf (s.layout.granule saved)) m <;> rfl

theorem preserves_recoverFault {I : Store → Prop}
    (hregion : ∀ s a, I s → s.layout.covers a = true → I (s.withRegion (s.layout.regionAt a)))
    (patch : Address → Address → Action σ PatchError Unit) (access saved : Address) :
    Preserves (fun p : Store × σ => I p.1) (fun e => Ordinary e.cause?)
      (recoverFault patch access saved) := by
  rintro ⟨s, m⟩ hs
  cases hk : s.pageKind access with
  | none =>
      rw [recoverFault_outside patch saved m hk]
      exact hs
  | some kind =>
      cases kind with
      | owned =>
          rw [recoverFault_owned patch saved m hk]
          exact hs
      | shared =>
          rw [recoverFault_shared patch saved m hk]
          cases hr : s.refusal? saved with
          | some e => exact ⟨hs, Store.ordinary_of_refusal? hr⟩
          | none =>
              -- The region is writable from here on, even if the patch or the check then fails.
              have hs' := hregion s saved hs (Store.covers_of_refusal? hr)
              dsimp only
              by_cases ho : (s.withRegion (s.layout.regionAt saved)).pageKind access = some .owned
              · rw [if_pos ho]
                cases patch access (s.window.addressOf (s.layout.granule saved)) m with
                | ok _ m' => exact hs'
                | error e m' => exact ⟨hs', ordinary_none⟩
              · rw [if_neg ho]
                exact ⟨hs', ordinary_none⟩

end TaintFlow
