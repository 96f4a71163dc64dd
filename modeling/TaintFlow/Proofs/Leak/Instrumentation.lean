import TaintFlow.Leak.Guard
import TaintFlow.Proofs.Inline.Calls

/-!
# Instrumented reads of the program counter

The code that tags the program counter needs two scratch registers. The guard gives them back one
after the other and stops at the first that is refused, so the register that was lent first can stay
lent. If the second register is not lent, the first one is given back at once, and if that fails as
well, this is the failure that is reported. Nothing else is lost or covered up.
-/

namespace TaintFlow

open TaintFlow.Action

variable {σ ε : Type}

namespace EmitterCall

/-- How a run ends that reports the first failure among its calls. -/
def conclusion : Option ε → Except ε Unit
  | none => .ok ()
  | some e => .error e

/-- The last call failed to give back one of two registers. -/
def LeavesOne (calls : List (EmitterCall ε)) : Prop :=
  ∃ past s e, calls = past ++ [.release s (.error e)] ∧ (held past).length = 2

/-- No second register was lent, and giving back the first one failed with `e`. -/
def CoversUp (e : ε) (calls : List (EmitterCall ε)) : Prop :=
  ∃ s e₀, calls = [.reserve (.ok s), .reserve (.error e₀), .release s (.error e)]

theorem Orderly.length_held_of_leavesOne {calls : List (EmitterCall ε)} (h : Orderly calls)
    (hleaves : LeavesOne calls) : (held calls).length = 1 := by
  obtain ⟨past, s, e, rfl, hheld⟩ := hleaves
  -- The register given back is the one in front.
  obtain ⟨others, hothers⟩ := List.head?_eq_some_iff.mp (h.permitted rfl)
  rw [hothers, List.length_cons] at hheld
  rw [held_concat, hothers, heldAfter, List.erase_cons_head]
  exact Nat.succ.inj hheld

end EmitterCall

namespace Emitter

/-- Later calls are written down behind earlier ones. -/
theorem preserves_noted {α : Type} {past : List (EmitterCall ε)}
    (call : Except ε α → EmitterCall ε) (act : Action σ ε α) :
    Preserves (fun s => past <+: s.2) (fun _ => True) (noted call act) := by
  intro s hs
  unfold noted
  cases act s.1 with
  | ok a x => exact hs.trans (List.prefix_append _ _)
  | error e x => exact ⟨hs.trans (List.prefix_append _ _), trivial⟩

theorem calls_of_noted_eq_ok {α : Type} {call : Except ε α → EmitterCall ε} {act : Action σ ε α}
    {s s' : σ × List (EmitterCall ε)} {a : α} (h : noted call act s = .ok a s') :
    s'.2 = s.2 ++ [call (.ok a)] := by
  unfold noted at h
  split at h <;> cases h
  rfl

theorem calls_of_noted_eq_error {α : Type} {call : Except ε α → EmitterCall ε}
    {act : Action σ ε α} {s s' : σ × List (EmitterCall ε)} {e : ε}
    (h : noted call act s = .error e s') : s'.2 = s.2 ++ [call (.error e)] := by
  unfold noted at h
  split at h <;> cases h
  rfl

theorem Alike.instrumentPcRead {τ : Type} {R : σ → τ → Prop} {em : Emitter σ ε}
    {em' : Emitter τ ε} (h : Alike R em em') (tracksPc : Bool) (i : Instr) :
    Simulates R Any Eq (LeakGuard.instrumentPcRead em tracksPc i)
      (LeakGuard.instrumentPcRead em' tracksPc i) := by
  unfold LeakGuard.instrumentPcRead
  split
  · refine simulates_bind h.reserve ?_
    rintro tag _ rfl
    refine simulates_bind (simulates_undoneBy h.reserve (h.release tag)) ?_
    rintro addr _ rfl
    refine simulates_closedBy (simulates_forM fun i _ => h.insert i) ?_
    exact simulates_bind (h.release addr) fun _ _ _ => h.release tag
  · exact simulates_pure trivial

/-- The calls have been made in order, a register is left only by a refused release, and the result
is that of the first call that failed unless a later one covers it up. -/
structure Settled (s : σ × List (EmitterCall ε)) (result : Except ε Unit) : Prop where
  orderly : EmitterCall.Orderly s.2
  held : EmitterCall.held s.2 = [] ∨ EmitterCall.LeavesOne s.2
  result : (∃ e, EmitterCall.CoversUp e s.2 ∧ result = .error e) ∨
    (∀ e, ¬ EmitterCall.CoversUp e s.2) ∧
      result = EmitterCall.conclusion (EmitterCall.firstFailure? s.2)

variable {em : Emitter σ ε} {s : σ × List (EmitterCall ε)}

theorem Standing.settled {held : List Scratch} {failure : Option ε} (h : Standing held failure s)
    (hleft : held = [] ∨ EmitterCall.LeavesOne s.2)
    (hopen : ∀ e, ¬ EmitterCall.CoversUp e s.2) : Settled s (EmitterCall.conclusion failure) :=
  ⟨h.orderly, hleft.imp_left h.held.trans, Or.inr ⟨hopen, by rw [h.failure]⟩⟩

/-- The second release is not tried if the first one fails. -/
theorem standing_releases (em : Emitter σ ε) {addr tag : Scratch} {failure : Option ε}
    (h : Standing [addr, tag] failure s) :
    let run := outcome (em.noting.release addr >>= fun _ => em.noting.release tag) s
    ∃ held later, Standing held (failure.or later) run.2 ∧ run.1 = EmitterCall.conclusion later ∧
      (held = [] ∨ EmitterCall.LeavesOne run.2.2) := by
  have hfirst := release_standing em h
  unfold outcome
  rw [bind_apply]
  cases haddr : em.noting.release addr s with
  | error e s₁ =>
      rw [haddr] at hfirst
      refine ⟨[tag], some e, hfirst, rfl, Or.inr ⟨s.2, addr, e, calls_of_noted_eq_error haddr, ?_⟩⟩
      rw [h.held]
      rfl
  | ok _ s₁ =>
      rw [haddr] at hfirst
      have hsecond := release_standing em hfirst
      dsimp only
      cases htag : em.noting.release tag s₁ with
      | ok _ s₂ =>
          rw [htag] at hsecond
          exact ⟨[], none, by rwa [Option.or_none], rfl, Or.inl rfl⟩
      | error e s₂ =>
          rw [htag] at hsecond
          exact ⟨[], some e, hsecond, rfl, Or.inl rfl⟩

/-- A failure of the body is reported before one of the releases. -/
theorem standing_closedBy (em : Emitter σ ε) {addr tag : Scratch}
    {body : Action (σ × List (EmitterCall ε)) ε Unit}
    (hbody : Steady [addr, tag] body) (h : Standing [addr, tag] none s) :
    let run := outcome
      (body.closedBy (em.noting.release addr >>= fun _ => em.noting.release tag)) s
    ∃ held failure, Standing held failure run.2 ∧ run.1 = EmitterCall.conclusion failure ∧
      (held = [] ∨ EmitterCall.LeavesOne run.2.2) := by
  have hrun := hbody s h
  cases hb : body s with
  | ok _ s₁ =>
      rw [hb] at hrun
      rw [outcome_closedBy_ok hb]
      exact standing_releases em hrun
  | error e s₁ =>
      rw [hb] at hrun
      rw [outcome_closedBy_error hb]
      obtain ⟨held, later, hstanding, -, hleft⟩ := standing_releases em hrun
      exact ⟨held, some e, hstanding, rfl, hleft⟩

/-- With both registers lent, the code is inserted and they are given back. -/
theorem settled_insert (em : Emitter σ ε) {addr tag : Scratch} (h : Standing [addr, tag] none s)
    (hcalls : s.2 = [.reserve (.ok tag), .reserve (.ok addr)]) :
    let act := (em.noting.insertAll (LeakGuard.pcCode tag addr)).closedBy
      (em.noting.release addr >>= fun _ => em.noting.release tag)
    Settled (outcome act s).2 (outcome act s).1 := by
  intro act
  have hcode : Steady [addr, tag] (em.noting.insertAll (LeakGuard.pcCode tag addr)) :=
    steady_forM fun i hi => steady_insert (by
      revert i
      simp [LeakGuard.pcCode])
  have hbehind : Preserves (fun s' => s.2 <+: s'.2) (fun _ => True) act :=
    preserves_closedBy (preserves_forM fun i _ => preserves_noted (.insert i) _)
      (preserves_bind (preserves_noted (.release addr) _) fun _ => preserves_noted (.release tag) _)
  obtain ⟨held, failure, hstanding, hresult, hleft⟩ := standing_closedBy em hcode h
  have hsettled := hstanding.settled hleft ?_
  · rwa [← hresult] at hsettled
  · -- Both reservations succeeded, and no later call can change that.
    rintro e ⟨r, e₀, heq⟩
    obtain ⟨later, hlater⟩ := hbehind.state (List.prefix_refl s.2)
    rw [hcalls, heq] at hlater
    cases hlater

/-- With the first register lent, the second one is asked for. -/
theorem settled_reserve (em : Emitter σ ε) {tag : Scratch} (h : Standing [tag] none s)
    (hcalls : s.2 = [.reserve (.ok tag)]) :
    let act := em.noting.reserve.undoneBy (em.noting.release tag) >>= fun addr =>
      (em.noting.insertAll (LeakGuard.pcCode tag addr)).closedBy
        (em.noting.release addr >>= fun _ => em.noting.release tag)
    Settled (outcome act s).2 (outcome act s).1 := by
  intro act
  have hsecond := reserve_standing em h Nat.one_lt_two
  dsimp only [act, outcome]
  rw [bind_apply]
  unfold undoneBy
  cases haddr : em.noting.reserve s with
  | ok addr s₁ =>
      rw [haddr] at hsecond
      have hcalls₁ := calls_of_noted_eq_ok haddr
      rw [hcalls] at hcalls₁
      exact settled_insert em hsecond hcalls₁
  | error e s₁ =>
      rw [haddr] at hsecond
      have hcalls₁ := calls_of_noted_eq_error haddr
      have hrelease := release_standing em hsecond
      dsimp only
      cases htag : em.noting.release tag s₁ with
      | ok _ s₂ =>
          rw [htag] at hrelease
          refine hrelease.settled (Or.inl rfl) ?_
          rintro e' ⟨r, e₀, heq⟩
          rw [calls_of_noted_eq_ok htag, hcalls₁, hcalls] at heq
          cases heq
      | error e' s₂ =>
          rw [htag] at hrelease
          have hcovers : EmitterCall.CoversUp e' s₂.2 := by
            refine ⟨tag, e, ?_⟩
            rw [calls_of_noted_eq_error htag, hcalls₁, hcalls]
            rfl
          exact ⟨hrelease.orderly, Or.inl hrelease.held, Or.inl ⟨e', hcovers, rfl⟩⟩

theorem settled_instrumentPcRead (em : Emitter σ ε) (tracksPc : Bool) (i : Instr) (x : σ) :
    let run := outcome (LeakGuard.instrumentPcRead em.noting tracksPc i) (x, [])
    Settled run.2 run.1 := by
  have hstart : Standing [] none (x, ([] : List (EmitterCall ε))) := ⟨.nil, rfl, rfl⟩
  have hfirst := reserve_standing em hstart Nat.zero_lt_two
  unfold LeakGuard.instrumentPcRead
  cases i.readsPc && tracksPc with
  | false => exact hstart.settled (Or.inl rfl) nofun
  | true =>
      rw [if_pos rfl]
      unfold outcome
      rw [bind_apply]
      cases htag : em.noting.reserve (x, []) with
      | ok tag s₁ =>
          rw [htag] at hfirst
          exact settled_reserve em hfirst (calls_of_noted_eq_ok htag)
      | error e s₁ =>
          rw [htag] at hfirst
          refine hfirst.settled (Or.inl rfl) ?_
          rintro e' ⟨r, e₀, heq⟩
          rw [calls_of_noted_eq_error htag] at heq
          cases heq

end Emitter

namespace LeakGuard

/-- Whatever the emitter refuses: nothing is asked unless the program counter is tracked and read;
every register that was lent is given back in one call, the last one first, unless the first of two
releases is refused; and the first failure is reported, unless it is the refusal of the second
register and giving back the first one fails as well. -/
theorem instrument_pc_read_calls (em : Emitter σ ε) (tracksPc : Bool) (i : Instr) (x : σ) :
    let run := outcome (instrumentPcRead em.noting tracksPc i) (x, [])
    let calls := run.2.2
    outcome (instrumentPcRead em tracksPc i) x = (run.1, run.2.1) ∧
      ((i.readsPc && tracksPc) = false → calls = []) ∧
      (∀ past s result rest, calls = past ++ .release s result :: rest →
        (EmitterCall.held past).head? = some s) ∧
      (¬ EmitterCall.LeavesOne calls →
        (EmitterCall.returned calls).Perm (EmitterCall.lent calls)) ∧
      (EmitterCall.LeavesOne calls →
        ∃ s, (s :: EmitterCall.returned calls).Perm (EmitterCall.lent calls)) ∧
      (∀ e, EmitterCall.CoversUp e calls → run.1 = .error e) ∧
      ((∀ e, ¬ EmitterCall.CoversUp e calls) →
        run.1 = EmitterCall.conclusion (EmitterCall.firstFailure? calls)) := by
  intro run calls
  have hsame : run.1 = (outcome (instrumentPcRead em tracksPc i) x).1 ∧
      run.2.1 = (outcome (instrumentPcRead em tracksPc i) x).2 :=
    ((Emitter.alike_noting em).instrumentPcRead tracksPc i).outcome_eq rfl
  obtain ⟨horderly, hheld, hresult⟩ := Emitter.settled_instrumentPcRead em tracksPc i x
  have hperm := horderly.perm
  refine ⟨Prod.ext hsame.1.symm hsame.2.symm, fun hsilent => ?_,
    fun past s result rest heq => horderly.permitted heq, fun hnone => ?_, fun hleaves => ?_,
    fun e hcovers => ?_, fun hopen => ?_⟩
  · dsimp only [calls, run, instrumentPcRead]
    rw [hsilent]
    rfl
  · rw [hheld.resolve_right hnone, List.nil_append] at hperm
    exact hperm.symm
  · obtain ⟨s, hs⟩ := List.length_eq_one_iff.mp (horderly.length_held_of_leavesOne hleaves)
    rw [hs] at hperm
    exact ⟨s, hperm.symm⟩
  · obtain ⟨r, e₀, heq⟩ := hcovers
    rcases hresult with ⟨e', ⟨r', e₀', heq'⟩, hresult⟩ | ⟨hopen, -⟩
    · cases heq.symm.trans heq'
      exact hresult
    · exact absurd ⟨r, e₀, heq⟩ (hopen e)
  · rcases hresult with ⟨e, hcovers, -⟩ | ⟨-, hresult⟩
    · exact absurd hcovers (hopen e)
    · exact hresult

/-- The first of two releases fails: the other register stays lent. And the second register is
refused, behind which the release of the first one fails: the refusal is not reported. -/
theorem instrument_pc_read_leaves_register :
    let i : Instr := ⟨0x100, .add, [.reg ⟨3⟩], [.reg .pc, .imm 16]⟩
    let run := fun pool => outcome
      (instrumentPcRead CodeBuffer.emitter.noting true i) (CodeBuffer.new pool none (some 0), [])
    EmitterCall.lent (run [⟨3⟩, ⟨2⟩]).2.2 = [⟨3⟩, ⟨2⟩] ∧
      EmitterCall.returned (run [⟨3⟩, ⟨2⟩]).2.2 = [⟨2⟩] ∧
      ¬ (EmitterCall.returned (run [⟨3⟩, ⟨2⟩]).2.2).Perm (EmitterCall.lent (run [⟨3⟩, ⟨2⟩]).2.2) ∧
      EmitterCall.firstFailure? (run [⟨3⟩]).2.2 = some .outOfScratch ∧
      (run [⟨3⟩]).1 = .error .releaseFailed :=
  ⟨rfl, rfl, fun h => absurd h.length_eq (by decide), rfl, rfl⟩

end LeakGuard
end TaintFlow
