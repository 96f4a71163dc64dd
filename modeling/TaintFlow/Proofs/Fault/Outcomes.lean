import TaintFlow.Proofs.Fault.Recovery
import TaintFlow.Proofs.Shadow.Reachability

/-!
# Outcomes of recovery

Two unrelated addresses decide what recovery does. The access that faulted says whether there is
anything to recover, the saved address says which region becomes writable, and the register is
patched only if both lie in one region. After that the store that faulted finds writable memory.
-/

namespace TaintFlow

open TaintFlow.Action

/-- The region that a shadow address lies in, `none` outside the shadow. -/
def Window.regionAt? (w : Window) (shadow : Address) : Option Nat :=
  (w.locate? shadow).map w.layout.regionOf

namespace Store

theorem pageKind_eq_map (s : Store) (shadow : Address) :
    s.pageKind shadow = (s.window.regionAt? shadow).map s.regionKind := by
  rw [pageKind, Window.regionAt?, Option.map_map]
  rfl

section WithRegion

variable {s : Store} {i : Nat}

theorem tagOf_withRegion (hs : s.Consistent) (a : Address) :
    (s.withRegion i).tagOf a = s.tagOf a := by
  rw [tagOf_eq, tagOf_eq, withRegion_layout, read_withRegion hs]

theorem pageKind_withRegion_eq (hs : s.Consistent) (hi : i < s.layout.regions) (shadow : Address) :
    (s.withRegion i).pageKind shadow =
      if s.window.regionAt? shadow = some i then some .owned else s.pageKind shadow := by
  rw [pageKind_eq_map, pageKind_eq_map, withRegion_window]
  cases s.window.regionAt? shadow with
  | none => rfl
  | some j =>
      rw [Option.map_some, Option.map_some, regionKind_withRegion hs hi]
      by_cases hij : i = j
      · rw [if_pos hij, if_pos (congrArg some hij.symm)]
      · rw [if_neg hij, if_neg fun h => hij (Option.some.inj h).symm]

theorem eq_of_regionKind_withRegion_ne (hs : s.Consistent) (hi : i < s.layout.regions) {j : Nat}
    (h : (s.withRegion i).regionKind j ≠ s.regionKind j) : j = i := by
  rw [regionKind_withRegion hs hi] at h
  by_contra hij
  exact h (if_neg (Ne.symm hij))

end WithRegion
end Store

variable {σ : Type}

/-- The patch, noting what it is asked for. -/
def noting (patch : Address → Address → Action σ PatchError Unit) (access fresh : Address) :
    Action (σ × List (Address × Address)) PatchError Unit := do
  modify fun (m, calls) => (m, calls ++ [(access, fresh)])
  focus Prod.fst (fun m t => (m, t.2)) id (patch access fresh)

theorem outcome_noting (patch : Address → Address → Action σ PatchError Unit)
    (access fresh : Address) (m : σ) (calls : List (Address × Address)) :
    outcome (noting patch access fresh) (m, calls) =
      ((outcome (patch access fresh) m).1, (outcome (patch access fresh) m).2,
        calls ++ [(access, fresh)]) := by
  change outcome (focus Prod.fst _ id (patch access fresh)) (m, _) = _
  rw [outcome_focus]
  cases (outcome (patch access fresh) m).1 <;> rfl

section Outcome

variable (patch : Address → Address → Action σ PatchError Unit) {access saved : Address} {s : Store}
  (m : σ)

theorem outcome_recoverFault_outside (hk : s.pageKind access = none) :
    outcome (recoverFault patch access saved) (s, m) = (.ok .deliver, s, m) := by
  rw [outcome, recoverFault_outside patch saved m hk]

theorem outcome_recoverFault_owned (hk : s.pageKind access = some .owned) :
    outcome (recoverFault patch access saved) (s, m) = (.ok .resume, s, m) := by
  rw [outcome, recoverFault_owned patch saved m hk]

theorem outcome_recoverFault_refused (hk : s.pageKind access = some .shared) {e : ShadowError}
    (hrefused : s.refusal? saved = some e) :
    outcome (recoverFault patch access saved) (s, m) = (.error (.shadow e), s, m) := by
  rw [outcome, recoverFault_shared patch saved m hk, hrefused]

theorem outcome_recoverFault_granted (hs : s.Consistent) (hk : s.pageKind access = some .shared)
    (hgranted : s.refusal? saved = none) :
    outcome (recoverFault patch access saved) (s, m) =
      let s' := s.withRegion (s.layout.regionAt saved)
      if s.window.regionAt? access = some (s.layout.regionAt saved) then
        let patched := outcome (patch access (s.window.addressOf (s.layout.granule saved))) m
        ((patched.1.map fun _ => .resume).mapError .patch, s', patched.2)
      else (.error (.slotMismatch access saved), s', m) := by
  have hi := Layout.regionAt_lt_regions (Store.covers_of_refusal? hgranted)
  have hkind := Store.pageKind_withRegion_eq hs hi access
  unfold outcome
  rw [recoverFault_shared patch saved m hk, hgranted]
  dsimp only
  by_cases hsame : s.window.regionAt? access = some (s.layout.regionAt saved)
  · rw [if_pos hsame] at hkind ⊢
    rw [if_pos hkind]
    cases patch access (s.window.addressOf (s.layout.granule saved)) m <;> rfl
  · rw [if_neg hsame] at hkind ⊢
    rw [if_neg (by rw [hkind, hk]; decide)]

end Outcome

/-- What holds after any recovery. No tag changes, and no region but that of the saved address. If
the store is to be repeated, it finds writable memory, and its fault has nothing left to be done. -/
structure Recovered (access saved : Address) (s : Store) (answer : Except FaultError FaultAction)
    (s' : Store) (calls : List (Address × Address)) : Prop where
  tags : ∀ a, s'.tagOf a = s.tagOf a
  regions : ∀ i, s'.regionKind i ≠ s.regionKind i →
    s.layout.covers saved = true ∧ i = s.layout.regionAt saved
  writable : answer = .ok .resume →
    s'.pageKind access = some .owned ∧ ∀ call ∈ calls, s'.pageKind call.2 = some .owned
  again : answer = .ok .resume →
    ∀ {τ : Type} (patch : Address → Address → Action τ PatchError Unit) (n : τ),
      recoverFault patch access saved (s', n) = .ok .resume (s', n)

namespace Recovered

variable {access saved : Address} {s : Store} {answer : Except FaultError FaultAction}

theorem unchanged (saved : Address)
    (h : answer = .ok .resume → s.pageKind access = some .owned) :
    Recovered access saved s answer s [] where
  tags := fun _ => rfl
  regions := fun _ hne => absurd rfl hne
  writable := fun hresume => ⟨h hresume, nofun⟩
  again := fun hresume _ patch n => recoverFault_owned patch saved n (h hresume)

/-- The region of the saved address has become writable, and the patch was called for that address
only. -/
theorem withRegion (hs : s.Consistent) (hc : s.layout.covers saved = true)
    {calls : List (Address × Address)}
    (hcalls : ∀ call ∈ calls, call.2 = s.window.addressOf (s.layout.granule saved))
    (h : answer = .ok .resume → s.window.regionAt? access = some (s.layout.regionAt saved)) :
    Recovered access saved s answer (s.withRegion (s.layout.regionAt saved)) calls := by
  have hi := Layout.regionAt_lt_regions hc
  have haccess : answer = .ok .resume →
      (s.withRegion (s.layout.regionAt saved)).pageKind access = some .owned := fun hresume =>
    (Store.pageKind_withRegion_eq hs hi access).trans (if_pos (h hresume))
  exact
    { tags := Store.tagOf_withRegion hs
      regions := fun i hne => ⟨hc, Store.eq_of_regionKind_withRegion_ne hs hi hne⟩
      writable := fun hresume => ⟨haccess hresume, fun call hcall => by
        rw [hcalls call hcall]
        exact Store.pageKind_withRegion hs hc⟩
      again := fun hresume _ patch n => recoverFault_owned patch saved n (haccess hresume) }

end Recovered

/-- Recovery answers, calls the patch and changes the store as the region of the access and that of
the saved address say. -/
theorem recovery_outcomes {w : Window} {s : Store} (h : Store.Reachable .lazy w s)
    (patch : Address → Address → Action σ PatchError Unit) (access saved : Address) (m : σ) :
    let region := s.layout.regionAt saved
    ∃ answer s' m' calls,
      outcome (recoverFault patch access saved) (s, m) = (answer, s', m') ∧
      outcome (recoverFault (noting patch) access saved) (s, m, []) = (answer, s', m', calls) ∧
      (match s.pageKind access with
        | none => answer = .ok .deliver ∧ s' = s ∧ m' = m ∧ calls = []
        | some .owned => answer = .ok .resume ∧ s' = s ∧ m' = m ∧ calls = []
        | some .shared =>
          if s.layout.covers saved = false then
            answer = .error (.shadow (.invalidAddress saved)) ∧ s' = s ∧ m' = m ∧ calls = []
          else if s.regionKind region = .shared ∧ s.mapping.refuses (.commit region) = true then
            answer = .error (.shadow (.mapping (.commit region))) ∧ s' = s ∧ m' = m ∧ calls = []
          else
            s'.regionKind region = .owned ∧
            if w.regionAt? access = some region then
              ∃ fresh, s.translate saved = .ok fresh ∧ calls = [(access, fresh)] ∧
                let patched := outcome (patch access fresh) m
                answer = (patched.1.map fun _ => .resume).mapError .patch ∧ m' = patched.2
            else answer = .error (.slotMismatch access saved) ∧ m' = m ∧ calls = []) ∧
      Recovered access saved s answer s' calls := by
  intro region
  have hs := h.consistent
  have hw := h.window_eq
  rcases hk : s.pageKind access with _ | _ | _
  case none =>
    exact ⟨.ok .deliver, s, m, [], outcome_recoverFault_outside patch m hk,
      outcome_recoverFault_outside (noting patch) (m, []) hk, ⟨rfl, rfl, rfl, rfl⟩,
      .unchanged saved nofun⟩
  case some.owned =>
    exact ⟨.ok .resume, s, m, [], outcome_recoverFault_owned patch m hk,
      outcome_recoverFault_owned (noting patch) (m, []) hk, ⟨rfl, rfl, rfl, rfl⟩,
      .unchanged saved fun _ => hk⟩
  case some.shared =>
    -- Only here does the saved address matter: first whether its region can be had at all.
    cases hr : s.refusal? saved with
    | some e =>
        refine ⟨.error (.shadow e), s, m, [], outcome_recoverFault_refused patch m hk hr,
          outcome_recoverFault_refused (noting patch) (m, []) hk hr, ?_, .unchanged saved nofun⟩
        dsimp only
        rcases Store.refusal?_cases hr with ⟨rfl, hc⟩ | ⟨rfl, hc, -, hshared, hrefuses⟩
        · rw [if_pos hc]
          exact ⟨rfl, rfl, rfl, rfl⟩
        · rw [if_neg (by rw [hc]; decide), if_pos ⟨hshared, hrefuses⟩]
          exact ⟨rfl, rfl, rfl, rfl⟩
    | none =>
        have hc := Store.covers_of_refusal? hr
        have hcommits := Store.not_refused_of_refusal? hr
        have howned := (Store.regionKind_withRegion hs (Layout.regionAt_lt_regions hc) region).trans
          (if_pos rfl)
        have hrun := outcome_recoverFault_granted patch m hs hk hr
        have hnoted := outcome_recoverFault_granted (noting patch) (m, []) hs hk hr
        rw [outcome_noting] at hnoted
        -- The region is writable from here on, whether it is that of the access or not.
        by_cases hsame : s.window.regionAt? access = some region
        · rw [if_pos hsame] at hrun hnoted
          refine ⟨_, _, _, _, hrun, hnoted, ?_, .withRegion hs hc ?_ fun _ => hsame⟩
          · have hfresh := s.translate_eq saved
            rw [if_pos hc] at hfresh
            dsimp only
            rw [if_neg (by rw [hc]; decide), if_neg hcommits, if_pos (by rw [← hw]; exact hsame)]
            exact ⟨howned, _, hfresh, rfl, rfl, rfl⟩
          · intro call hcall
            rw [List.mem_singleton.mp hcall]
        · rw [if_neg hsame] at hrun hnoted
          refine ⟨_, _, _, _, hrun, hnoted, ?_, .withRegion hs hc nofun nofun⟩
          dsimp only
          rw [if_neg (by rw [hc]; decide), if_neg hcommits, if_neg (by rw [← hw]; exact hsame)]
          exact ⟨howned, rfl, rfl, rfl⟩

/-- A store to the first tag of a new shadow faults with a stale address in the slot, one that lies
in the same region. The register is made to hold the shadow address of the slot. -/
theorem recovery_outcomes_same_region :
    let patch : Address → Address → Action Address PatchError Unit := fun _ fresh => set fresh
    ∃ s', outcome (recoverFault (noting patch) 0x700000 0x1004) (.small .lazy, 0x700000, []) =
        (.ok .resume, s', 0x700001, [(0x700000, 0x700001)]) ∧
      s'.pageKind 0x700000 = some .owned := by
  intro patch
  have hreach : Store.Reachable .lazy .small (.small .lazy) := ⟨.granting, _, rfl, .refl⟩
  have hk : (Store.small .lazy).pageKind 0x700000 = some .shared := by decide
  obtain ⟨answer, s', m', calls, -, hnoted, htable, hrecovered⟩ :=
    recovery_outcomes hreach patch 0x700000 0x1004 0x700000
  rw [hk] at htable
  dsimp only at htable
  rw [if_neg (by decide), if_neg (by decide), if_pos (by decide)] at htable
  obtain ⟨-, fresh, hfresh, rfl, rfl, rfl⟩ := htable
  cases hfresh
  exact ⟨s', hnoted, (hrecovered.writable rfl).1⟩

end TaintFlow
