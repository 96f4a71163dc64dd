import TaintFlow.Proofs.Inline.Execution
import TaintFlow.Proofs.Plan.Moves

/-!
# Emitted code

With an emitter that never fails, the code inserted for an instruction is the code of the moves of
its plan, each over two registers of its own choice.
-/

namespace TaintFlow

open TaintFlow.Action

variable {σ ε : Type}

namespace Emitter

theorem withScratch_ok {em : Emitter σ ε} {body : Scratch → Action σ ε Unit} {r : Scratch}
    {x x₁ x₂ x₃ : σ} (hreserve : em.reserve x = .ok r x₁) (hbody : body r x₁ = .ok () x₂)
    (hrelease : em.release r x₂ = .ok () x₃) : em.withScratch body x = .ok () x₃ := by
  unfold withScratch
  rw [bind_ok hreserve, closedBy, hbody]
  exact hrelease

/-- No call fails while two registers are lent at most. What is lent is distinct and known to the
executor. `lent held x` says which registers are lent in state `x`, the last one first. -/
structure Reliable (em : Emitter σ ε) (lent : List Scratch → σ → Prop) : Prop where
  reserve : ∀ held x, lent held x → held.length < 2 →
    ∃ r x', em.reserve x = .ok r x' ∧ r.Valid ∧ r ∉ held ∧ lent (r :: held) x'
  release : ∀ r held x, lent (r :: held) x → ∃ x', em.release r x = .ok () x' ∧ lent held x'
  insert : ∀ i held x, lent held x → ∃ x', em.insert i x = .ok () x' ∧ lent held x'

/-- The emitter, writing down what is inserted. -/
def recording (em : Emitter σ ε) : Emitter (σ × List InlineInstr) ε where
  reserve := focus Prod.fst (fun x s => (x, s.2)) id em.reserve
  release := fun r => focus Prod.fst (fun x s => (x, s.2)) id (em.release r)
  insert := fun i => do
    focus Prod.fst (fun x s => (x, s.2)) id (em.insert i)
    modify fun s => (s.1, s.2 ++ [i])

end Emitter

/-- The code of some moves, each with two scratch registers of its own choice. -/
inductive Lowered : List Move → List InlineInstr → Prop where
  | nil : Lowered [] []
  | cons {m : Move} {moves : List Move} {code : List InlineInstr} {a b : Scratch} (ha : a.Valid)
      (hb : b.Valid) (hab : a ≠ b) (h : Lowered moves code) :
      Lowered (m :: moves) (m.code a b ++ code)

def Analyzer.inlineCode (em : Emitter σ ε) (i : Instr) :
    Action (Analyzer × σ) (LowerError ε) (List InlineInstr) :=
  fun s =>
    match Analyzer.instrument em.recording i (s.1, (s.2, [])) with
    | .ok _ s' => .ok s'.2.2 (s'.1, s'.2.1)
    | .error e s' => .error e (s'.1, s'.2.1)

section Reliable

variable {em : Emitter σ ε} {lent : List Scratch → σ → Prop} (hem : em.Reliable lent)
include hem

theorem insertAll_reliable (code : List InlineInstr) {held : List Scratch} {x : σ}
    (hx : lent held x) (pre : List InlineInstr) :
    ∃ x', em.recording.insertAll code (x, pre) = .ok () (x', pre ++ code) ∧ lent held x' := by
  induction code generalizing x pre with
  | nil => exact ⟨x, by rw [List.append_nil]; rfl, hx⟩
  | cons i code ih =>
      obtain ⟨x₁, hi, hx₁⟩ := hem.insert i held x hx
      obtain ⟨x₂, hrest, hx₂⟩ := ih hx₁ (pre ++ [i])
      refine ⟨x₂, ?_, hx₂⟩
      have hinsert : em.recording.insert i (x, pre) = .ok () (x₁, pre ++ [i]) := by
        dsimp only [Emitter.recording]
        rw [bind_apply, focus, hi]
        rfl
      rw [List.append_assoc, List.singleton_append] at hrest
      change (em.recording.insert i >>= fun _ => em.recording.insertAll code) _ = _
      rw [bind_ok hinsert, hrest]

theorem withTwo_reliable {x : σ} (hx : lent [] x) (pre : List InlineInstr)
    (code : Scratch → Scratch → List InlineInstr) :
    ∃ a b x', a.Valid ∧ b.Valid ∧ a ≠ b ∧
      em.recording.withTwo (fun a b => em.recording.insertAll (code a b)) (x, pre) =
        .ok () (x', pre ++ code a b) ∧ lent [] x' := by
  -- Two registers are taken, the code inserted, and the registers given back in reverse.
  obtain ⟨a, x₁, ha, hva, -, hx₁⟩ := hem.reserve [] x hx (by decide)
  obtain ⟨b, x₂, hb, hvb, hnew, hx₂⟩ :=
    hem.reserve [a] x₁ hx₁ (Nat.lt_succ_self 1)
  obtain ⟨x₃, hcode, hx₃⟩ := insertAll_reliable hem (code a b) hx₂ pre
  obtain ⟨x₄, hrb, hx₄⟩ := hem.release b [a] x₃ hx₃
  obtain ⟨x₅, hra, hx₅⟩ := hem.release a [] x₄ hx₄
  refine ⟨a, b, x₅, hva, hvb, fun hab => hnew (by simp [hab]), ?_, hx₅⟩
  have hreserve₁ : em.recording.reserve (x, pre) = .ok a (x₁, pre) := by
    dsimp only [Emitter.recording]
    rw [focus, ha]
  have hreserve₂ : em.recording.reserve (x₁, pre) = .ok b (x₂, pre) := by
    dsimp only [Emitter.recording]
    rw [focus, hb]
  have hrelease₁ : em.recording.release b (x₃, pre ++ code a b) = .ok () (x₄, pre ++ code a b) := by
    dsimp only [Emitter.recording]
    rw [focus, hrb]
  have hrelease₂ : em.recording.release a (x₄, pre ++ code a b) = .ok () (x₅, pre ++ code a b) := by
    dsimp only [Emitter.recording]
    rw [focus, hra]
  exact Emitter.withScratch_ok hreserve₁
    (Emitter.withScratch_ok hreserve₂ hcode hrelease₁) hrelease₂

theorem emitMoves_reliable (moves : List Move) {x : σ} (hx : lent [] x)
    (pre : List InlineInstr) :
    ∃ code x', moves.forM (Move.emit em.recording) (x, pre) = .ok () (x', pre ++ code) ∧
      lent [] x' ∧ Lowered moves code := by
  induction moves generalizing x pre with
  | nil => exact ⟨[], x, by rw [List.append_nil]; rfl, hx, .nil⟩
  | cons m moves ih =>
      have hm : ∃ a b x', a.Valid ∧ b.Valid ∧ a ≠ b ∧
          m.emit em.recording (x, pre) = .ok () (x', pre ++ m.code a b) ∧ lent [] x' := by
        cases m with
        | block t =>
            obtain ⟨x', ht, hx'⟩ := insertAll_reliable hem [.cleanCall t] hx pre
            rw [Emitter.insertAll, forM_singleton] at ht
            -- A call needs no registers; any two will do.
            exact ⟨⟨0⟩, ⟨1⟩, x', by decide, by decide, by decide, ht, hx'⟩
        | _ => exact withTwo_reliable hem hx pre fun a b => Move.code a b _
      obtain ⟨a, b, x₁, ha, hb, hab, hrun, hx₁⟩ := hm
      obtain ⟨code, x₂, hrest, hx₂, hlowered⟩ := ih hx₁ (pre ++ m.code a b)
      refine ⟨m.code a b ++ code, x₂, ?_, hx₂, .cons ha hb hab hlowered⟩
      change (m.emit em.recording >>= fun _ => moves.forM (Move.emit em.recording)) _ = _
      rw [bind_ok hrun, hrest, List.append_assoc]

/-- The code of an instruction is the code of its plan, and there is none if there is no plan. -/
theorem inlineCode_reliable {a : Analyzer} {x : σ} (hx : lent [] x) (i : Instr) :
    match Analyzer.analyze i a with
    | .error g a' => Analyzer.inlineCode em i (a, x) = .error (.gap g) (a', x)
    | .ok plan a' => ∃ code x', Analyzer.inlineCode em i (a, x) = .ok code (a', x') ∧
        lent [] x' ∧ Lowered plan.moves code := by
  unfold Analyzer.inlineCode Analyzer.instrument
  rw [bind_apply, focus]
  cases h : Analyzer.analyze i a with
  | error g a' => rfl
  | ok plan a' =>
      obtain ⟨code, x', hrun, hx', hlowered⟩ := emitMoves_reliable hem plan.moves hx []
      refine ⟨code, x', ?_, hx', hlowered⟩
      have hemit : plan.emit em.recording (x, []) = .ok () (x', code) := by
        rw [Plan.emit_eq_moves, hrun, List.nil_append]
      dsimp only
      rw [bind_apply, focus]
      simp only [hemit]
      rfl

end Reliable

/-- A code buffer without limits is reliable if its pool holds two different registers. -/
theorem CodeBuffer.reliable (pool : List Scratch) (hdistinct : pool.Nodup)
    (hvalid : ∀ r ∈ pool, r.Valid) (hpool : 2 ≤ pool.length) :
    emitter.Reliable fun held b =>
      b.room = none ∧ b.failRelease = none ∧ held.reverse ++ b.pool = pool where
  reserve := by
    rintro held b ⟨hroom, hfail, rfl⟩ hlen
    cases hb : b.pool with
    | nil =>
        rw [hb, List.append_nil, List.length_reverse] at hpool
        omega
    | cons r rest =>
        rw [hb] at hdistinct hvalid
        refine ⟨r, { b with pool := rest }.note (.reserved r), ?_, hvalid r (by simp), ?_, hroom,
          hfail, ?_⟩
        · change CodeBuffer.reserve b = _
          unfold CodeBuffer.reserve
          rw [hb]
        · intro hr
          -- A register that is lent is not in the pool any more.
          exact (List.nodup_append.mp hdistinct).2.2 r (by simpa using hr) r (by simp) rfl
        · rw [List.reverse_cons, List.append_assoc]
          rfl
  release := by
    rintro r held b ⟨hroom, hfail, hpool'⟩
    refine ⟨{ b with releases := b.releases + 1, pool := r :: b.pool }.note (.released r), ?_,
      hroom, hfail, ?_⟩
    · change CodeBuffer.release r b = _
      unfold CodeBuffer.release
      dsimp only
      rw [hfail]
      rfl
    · rw [← hpool', List.reverse_cons, List.append_assoc]
      rfl
  insert := by
    rintro i held b ⟨hroom, hfail, hpool'⟩
    refine ⟨{ b with code := b.code ++ [i] }.note .inserted, ?_, hroom, hfail, hpool'⟩
    change CodeBuffer.insert i b = _
    unfold CodeBuffer.insert
    rw [hroom]
    rfl

end TaintFlow
