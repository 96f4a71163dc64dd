import Mathlib.Data.List.Count
import TaintFlow.Tracker

/-!
# References to sessions

A reference to a session is held by a handle, by the registry, or for a moment by nobody: it was
just taken on behalf of one of them, or one of them has just let go of it. The count that a session
keeps is that of all these references. So the count of a handle's session tells whether anybody but
the handle and the registry holds it.
-/

namespace TaintFlow

namespace Tracker

variable {tr tr' : Tracker} {r q : SessionId}

/-! ## Sessions and their counts -/

theorem setShared_setShared (s t : Option Shared) :
    (tr.setShared r s).setShared r t = tr.setShared r t := by
  have hsessions : ((tr.setShared r s).setShared r t).sessions = (tr.setShared r t).sessions := by
    funext q
    by_cases hq : q = r <;> simp [setShared, hq]
  exact congrArg (fun sessions => { tr with sessions }) hsessions

theorem references_setShared (s : Option Shared) :
    (tr.setShared r s).references q =
      if q = r then s.elim 0 Shared.references else tr.references q := by
  by_cases hq : q = r <;> simp [references, setShared, hq]

theorem session?_setShared (s : Option Shared) :
    (tr.setShared r s).session? q = if q = r then s.map Shared.session else tr.session? q := by
  by_cases hq : q = r <;> simp [session?, setShared, hq]

theorem references_setSession (session : Session) :
    (tr.setSession r session).references q = tr.references q := by
  rw [setSession, references_setShared]
  split
  · rename_i hq
    rw [hq, references]
    cases tr.sessions r <;> rfl
  · rfl

theorem session?_setSession (session : Session) :
    (tr.setSession r session).session? q =
      if q = r then (tr.session? r).map fun _ => session else tr.session? q := by
  rw [setSession, session?_setShared, Option.map_map]
  split
  · rw [session?, Option.map_map]
    rfl
  · rfl

theorem setSession_self {session : Session} (h : tr.session? r = some session) :
    tr.setSession r session = tr := by
  obtain ⟨shared, hshared, rfl⟩ := Option.map_eq_some_iff.mp h
  have hsessions : (tr.setSession r shared.session).sessions = tr.sessions := by
    funext q
    by_cases hq : q = r <;> simp [setSession, setShared, hq, hshared]
  exact congrArg (fun sessions => { tr with sessions }) hsessions

/-- What is in memory for a session that someone sees. -/
theorem sessions_of_session? {session : Session} (h : tr.session? r = some session) :
    tr.sessions r = some ⟨session, tr.references r⟩ := by
  obtain ⟨shared, hshared, rfl⟩ := Option.map_eq_some_iff.mp h
  rw [references, hshared]
  rfl

theorem session?_addReference : (tr.addReference r).session? q = tr.session? q := by
  rw [addReference, session?_setShared, Option.map_map]
  split
  · rename_i hq
    rw [hq]
    rfl
  · rfl

/-- Giving up a reference changes sessions and, where a session ends, the signal table. -/
theorem dropReference_frame (r : SessionId) (tr : Tracker) :
    (tr.dropReference r).handles = tr.handles ∧
      (tr.dropReference r).registered = tr.registered := by
  unfold dropReference
  split
  · exact ⟨rfl, rfl⟩
  · split
    · dsimp only
      split <;> exact ⟨rfl, rfl⟩
    · exact ⟨rfl, rfl⟩

/-- The sessions once a reference is given up: one that had no other is gone. -/
theorem sessions_dropReference (r : SessionId) (tr : Tracker) :
    (tr.dropReference r).sessions =
      (tr.setShared r ((tr.sessions r).bind fun shared =>
        if shared.references = 1 then none
        else some { shared with references := shared.references - 1 })).sessions := by
  unfold dropReference
  split
  · rename_i hnone
    funext q
    by_cases hq : q = r <;> simp [setShared, hnone, hq]
  · rename_i shared hshared
    rw [hshared, Option.bind_some]
    split
    · dsimp only
      split <;> rfl
    · rfl

theorem references_dropReference :
    (tr.dropReference r).references q = tr.references q - if q = r then 1 else 0 := by
  have hsessions := congrFun (sessions_dropReference r tr) q
  rw [references, hsessions, ← references, references_setShared]
  by_cases hq : q = r
  · rw [if_pos hq, if_pos hq, hq, references]
    cases tr.sessions r with
    | none => rfl
    | some shared =>
        rw [Option.bind_some, Option.elim_some]
        by_cases hlast : shared.references = 1
        · rw [if_pos hlast, hlast]
          rfl
        · rw [if_neg hlast]
          rfl
  · rw [if_neg hq, if_neg hq, Nat.sub_zero]

theorem dropReference_eq (tr : Tracker) {session : Session} {n : Nat}
    (h : tr.sessions r = some ⟨session, n⟩) :
    tr.dropReference r =
      if n = 1 then
        if session.options.handlesFaults then
          (tr.setShared r none).deregisterHandler .tracker Signal.faults
        else tr.setShared r none
      else tr.setShared r (some ⟨session, n - 1⟩) := by
  rw [dropReference, h]

/-! ## Holders of sessions -/

/-- How many references to a session the handles and the registry hold. -/
def holders (r : SessionId) (tr : Tracker) : Nat :=
  tr.handles.countP (·.session = r) + if tr.registered = some r then 1 else 0

/-- The count of every session is that of its holders, with the references that nobody holds at the
moment. A session without a reference is not in memory. -/
structure Counted (loose : List SessionId) (tr : Tracker) : Prop where
  count : ∀ r, tr.references r = tr.holders r + loose.count r
  positive : ∀ r shared, tr.sessions r = some shared → 0 < shared.references

theorem count_loose {loose : List SessionId} :
    (r :: loose).count q = loose.count q + if q = r then 1 else 0 := by
  rw [List.count_cons]
  by_cases hq : q = r
  · simp [hq]
  · simp [hq, Ne.symm hq]

namespace Counted

variable {loose loose' : List SessionId}

theorem session?_isSome_iff (hc : tr.Counted loose) :
    (tr.session? r).isSome = true ↔ 0 < tr.holders r + loose.count r := by
  rw [← hc.count, session?, Option.isSome_map, references]
  cases hshared : tr.sessions r with
  | none => simp
  | some shared => simpa using hc.positive r shared hshared

/-- References change hands, while no session changes its count. -/
theorem handOver (hc : tr.Counted loose) (hsessions : tr'.sessions = tr.sessions)
    (hheld : ∀ q, tr'.holders q + loose'.count q = tr.holders q + loose.count q) :
    tr'.Counted loose' where
  count q := by
    rw [hheld, ← hc.count, references, hsessions, references]
  positive := hsessions ▸ hc.positive

/-- There is one more reference to a session, which may be the first. -/
theorem setShared (hc : tr.Counted loose) (session : Session) :
    (tr.setShared r (some ⟨session, tr.references r + 1⟩)).Counted (r :: loose) where
  count q := by
    change _ = tr.holders q + (r :: loose).count q
    rw [references_setShared, count_loose, ← Nat.add_assoc, ← hc.count]
    by_cases hq : q = r <;> simp [hq]
  positive q shared hshared := by
    by_cases hq : q = r
    · simp [Tracker.setShared, hq] at hshared
      rw [← hshared]
      exact Nat.succ_pos _
    · simp [Tracker.setShared, hq] at hshared
      exact hc.positive q shared hshared

theorem addReference (hc : tr.Counted loose) (hr : (tr.session? r).isSome = true) :
    (tr.addReference r).Counted (r :: loose) := by
  obtain ⟨session, hsession⟩ := Option.isSome_iff_exists.mp hr
  rw [Tracker.addReference, sessions_of_session? hsession]
  exact hc.setShared session

theorem setSession (hc : tr.Counted loose) (session : Session) :
    (tr.setSession r session).Counted loose where
  count q := (references_setSession session).trans (hc.count q)
  positive q shared hshared := by
    by_cases hq : q = r
    · simp [Tracker.setSession, Tracker.setShared, hq] at hshared
      obtain ⟨before, hbefore, rfl⟩ := hshared
      exact hc.positive r before hbefore
    · simp [Tracker.setSession, Tracker.setShared, hq] at hshared
      exact hc.positive q shared hshared

theorem dropReference (hc : tr.Counted (r :: loose)) : (tr.dropReference r).Counted loose where
  count q := by
    obtain ⟨hhandles, hregistered⟩ := dropReference_frame r tr
    rw [references_dropReference, hc.count, holders, holders, hhandles, hregistered, count_loose,
      ← Nat.add_assoc, Nat.add_sub_cancel]
  positive q shared hshared := by
    rw [sessions_dropReference, Tracker.setShared] at hshared
    dsimp only at hshared
    split at hshared
    · -- With its last reference the session is gone, so none is left that counts zero.
      obtain ⟨before, hbefore, hshared⟩ := Option.bind_eq_some_iff.mp hshared
      have hpos := hc.positive r before hbefore
      split at hshared
      · cases hshared
      · cases hshared
        dsimp only
        omega
    · exact hc.positive q shared hshared

theorem newHandle (hc : tr.Counted (r :: loose)) : (tr.newHandle r).2.Counted loose := by
  refine hc.handOver rfl fun q => ?_
  change (⟨tr.issued, r⟩ :: tr.handles).countP (·.session = q) +
    (if tr.registered = some q then 1 else 0) + loose.count q = _
  rw [List.countP_cons, List.count_cons, holders]
  simp
  omega

/-- A handle lets go of its reference. -/
theorem erase (hc : tr.Counted loose) {h : Handle} (hh : h ∈ tr.handles) :
    { tr with handles := tr.handles.erase h }.Counted (h.session :: loose) := by
  refine hc.handOver rfl fun q => ?_
  have hcount := (List.perm_cons_erase hh).countP_eq (·.session = q)
  rw [List.countP_cons] at hcount
  rw [holders, holders, hcount, List.count_cons]
  simp
  omega

theorem register (hc : tr.Counted (r :: loose)) (hnone : tr.registered = none) :
    { tr with registered := some r }.Counted loose := by
  refine hc.handOver rfl fun q => ?_
  rw [holders, holders, hnone, List.count_cons]
  simp
  omega

theorem unregister (hc : tr.Counted loose) : tr.unregister.Counted loose := by
  unfold Tracker.unregister
  split
  · exact hc
  · rename_i p hp
    -- Between the two steps the registry's reference is loose.
    apply dropReference
    refine hc.handOver rfl fun q => ?_
    rw [holders, holders, hp, List.count_cons]
    simp
    omega

theorem share (hc : tr.Counted loose) (hr : (tr.session? r).isSome = true) :
    (tr.share r).2.Counted loose :=
  (hc.addReference hr).newHandle

theorem found (hc : tr.Counted loose) (hnone : tr.registered = none)
    (hfresh : tr.sessions ⟨tr.issued⟩ = none) (session : Session) :
    (tr.found session).2.Counted loose := by
  have hissued : { tr with issued := tr.issued + 1 }.Counted loose :=
    hc.handOver rfl fun _ => rfl
  have hsetUp := hissued.setShared (r := ⟨tr.issued⟩) session
  have hfirst : { tr with issued := tr.issued + 1 }.references ⟨tr.issued⟩ = 0 := by
    rw [references, hfresh]
    rfl
  rw [hfirst] at hsetUp
  -- Two references are loose now. The registry takes one of them, the handle the other.
  have hadded := hsetUp.addReference (r := ⟨tr.issued⟩) (by simp [session?_setShared])
  exact (hadded.register hnone).newHandle

theorem release (hc : tr.Counted loose) {h : Handle} (hh : h ∈ tr.handles) :
    (tr.release h).Counted loose := by
  have herased := hc.erase hh
  unfold Tracker.release
  dsimp only
  split
  · exact herased.unregister.dropReference
  · exact herased.dropReference

end Counted

end Tracker
end TaintFlow
