import TaintFlow.Proofs.Inline.Agreement

/-!
# Failures of propagation

What the registers of an instruction are used for is settled when its plan is made, and its code
saves every address before it is used. Only memory can then stand in the way: a word outside the
window, or a region that the operating system does not commit. A plan that is carried out reports
the one or the other; its code reports a refused commit as the recovery of a store, and the failure
of a block transfer as that of the call.
-/

namespace TaintFlow

open TaintFlow.Action

/-! ## Causes -/

/-- What refuses the tags of `words`. -/
def Store.Blocked (s : Store) (words : Address → Prop) : ShadowError → Prop
  | .invalidAddress a => words a ∧ s.layout.covers a = false
  | .mapping r =>
      s.backend = .lazy ∧ s.mapping.refuses r = true ∧
        ∃ a, words a ∧ s.layout.covers a = true ∧ r = .commit (s.layout.regionAt a) ∧
          s.regionKind (s.layout.regionAt a) = .shared
  | .committedTwice _ => False

def ApplyError.BlamedOn (blocked : ShadowError → Prop) : ApplyError → Prop
  | .shadow cause => blocked cause
  | .register _ => False

/-- A word outside the window is met by a translation or in a call, a refused commit by a recovery
or in a call. -/
def ExecError.BlamedOn (blocked : ShadowError → Prop) : ExecError → Prop
  | .shadow (.invalidAddress a) => blocked (.invalidAddress a)
  | .fault (.shadow (.mapping r)) => blocked (.mapping r)
  | .apply e => e.BlamedOn blocked
  | _ => False

/-- The words whose tags the plan reads or writes. -/
def Plan.Accesses (place : MemRef → RegFile → Nat → Address) (tracksPc : Bool) (f : RegFile)
    (p : Plan) (a : Address) : Prop :=
  ∃ m ∈ p.moves, m.Accesses place (fun r => r.isTracked tracksPc = true) f a

/-! ## Moves -/

namespace TagState

/-- The state is one that has become of `s₀`, and the operating system answers as it did. -/
structure Steady (s₀ s : TagState) : Prop where
  since : Since s₀ s
  mapping : s.store.mapping = s₀.store.mapping

namespace Steady

variable {s₀ s : TagState} {words : Address → Prop}

theorem trans {s' : TagState} (h : Steady s₀ s) (h' : Steady s s') : Steady s₀ s' :=
  ⟨h.since.trans h'.since, h'.mapping.trans h.mapping⟩

theorem covers (h : Steady s₀ s) (a : Address) :
    s.store.layout.covers a = s₀.store.layout.covers a := by
  rw [h.since.store.layout]

/-- What refuses a write now has stood in its way from the start. -/
theorem blocked (h : Steady s₀ s) (h₀ : s₀.store.Consistent) {a : Address} {e : ShadowError}
    (ha : words a) (hr : s.store.refusal? a = some e) : s₀.store.Blocked words e := by
  have hlayout := h.since.store.layout
  rcases Store.refusal?_cases hr with ⟨rfl, hc⟩ | ⟨rfl, hc, hlazy, hshared, hrefuses⟩
  · exact ⟨ha, h.covers a ▸ hc⟩
  · rw [hlayout] at hc hshared hrefuses ⊢
    rw [h.mapping] at hrefuses
    refine ⟨h.since.store.backend ▸ hlazy, hrefuses, a, ha, hc, rfl, ?_⟩
    -- Had the region been private before, it would be private now.
    cases hkind : s₀.store.regionKind (s₀.store.layout.regionAt a) with
    | shared => rfl
    | owned =>
        rw [h.since.store.regionKind h₀ hkind] at hshared
        contradiction

theorem withThread (h : Steady s₀ s) {r : Reg} {t : Tag} {c : ThreadContext}
    (hc : s.thread.setTag r t = .ok c) : Steady s₀ { s with thread := c } :=
  ⟨h.since.withThread hc, h.mapping⟩

theorem position_ne_error (h : Steady s₀ s) {r : Reg}
    (hr : r.isTracked s₀.thread.bank.tracksPc = true) (e : RegisterError) :
    s.thread.bank.position r ≠ .error e := by
  obtain ⟨i, hi⟩ := RegisterBank.position_tracked (b := s.thread.bank) ((h.since.tracks r).trans hr)
  rw [hi]
  exact nofun

theorem withTag (h : Steady s₀ s) (h₀ : s₀.store.Consistent) {a : Address}
    (hc : s.store.layout.covers a = true) (t : Tag) :
    Steady s₀ { s with store := s.store.withTag a t } where
  since := h.since.withStore (Store.changed_withTag (h.since.store.consistent h₀) hc t)
  mapping := (Store.withTag_mapping _ _ _).trans h.mapping

theorem withInlineTag (h : Steady s₀ s) (h₀ : s₀.store.Consistent) {a : Address}
    (hc : s.store.layout.covers a = true) (t : Tag) :
    Steady s₀ { s with store := s.store.withInlineTag a t } where
  since := h.since.withStore (Store.changed_withInlineTag (h.since.store.consistent h₀) hc t)
  mapping := by
    dsimp only
    unfold Store.withInlineTag
    split
    · exact (Store.withTag_mapping _ _ _).trans h.mapping
    · exact h.mapping

theorem keeps (h₀ : s₀.store.Consistent) :
    Keeps (Steady s₀) (ApplyError.BlamedOn (s₀.store.Blocked words)) words words
      (fun r => r.isTracked s₀.thread.bank.tracksPc = true) where
  tracked := fun _ hs r hr => (hs.since.tracks r).symm.trans hr
  untracked := fun _ hs _ e hr hp => absurd hp (hs.position_ne_error hr e)
  withThread := fun _ hs _ _ _ hc => hs.withThread hc
  uncovered := fun _ hs a ha hc => ⟨ha, hs.covers a ▸ hc⟩
  refused := fun _ hs _ _ ha hr => hs.blocked h₀ ha hr
  withTag := fun _ hs _ t _ hc => hs.withTag h₀ hc t

theorem keepsInline (h₀ : s₀.store.Consistent) :
    KeepsInline (Steady s₀) (ExecError.BlamedOn (s₀.store.Blocked words)) words
      (fun r => r.isTracked s₀.thread.bank.tracksPc = true) where
  direct := (keeps h₀).readOnly (fun _ he => he) (fun _ he => he)
  withSaved := fun _ hs _ => ⟨⟨hs.since.store, hs.since.address, hs.since.tracksPc⟩, hs.mapping⟩
  refused := fun _ hs _ _ ha hr => hs.blocked h₀ ha hr
  withInlineTag := fun _ hs _ t _ hc => hs.withInlineTag h₀ hc t

end Steady

end TagState

/-! ## Plans and their code -/

section Plans

variable {s₀ : TagState} (h₀ : s₀.store.Consistent) {tracksPc : Bool}
  (hpc : s₀.thread.bank.tracksPc = tracksPc) (f : RegFile) {p : Plan}
  (hp : ∀ m ∈ p.moves, m.Tracked tracksPc)
include h₀ hpc hp

theorem Plan.blamedOn_apply :
    Preserves (TagState.Steady s₀)
      (ApplyError.BlamedOn (s₀.store.Blocked (p.Accesses MemRef.wordAddress tracksPc f)))
      (p.apply f) := by
  subst hpc
  rw [apply_eq_moves]
  refine preserves_forM fun m hm => ?_
  have hwords : ∀ a, m.Accesses MemRef.wordAddress _ f a →
      p.Accesses MemRef.wordAddress s₀.thread.bank.tracksPc f a := fun a ha => ⟨m, hm, ha⟩
  exact m.keeps_apply (TagState.Steady.keeps h₀) f (hp m hm).regs hwords hwords

theorem Plan.blamedOn_inline :
    Preserves (TagState.Steady s₀)
      (ExecError.BlamedOn (s₀.store.Blocked (p.Accesses MemRef.codeAddress tracksPc f)))
      (p.moves.forM (Move.inline f)) := by
  subst hpc
  refine preserves_forM fun m hm => ?_
  have hwords : ∀ a, m.Accesses MemRef.codeAddress _ f a →
      p.Accesses MemRef.codeAddress s₀.thread.bank.tracksPc f a := fun a ha => ⟨m, hm, ha⟩
  apply m.keeps_inline (TagState.Steady.keepsInline h₀) f (hp m hm).regs hwords
  rintro b rfl
  -- A call carries the transfer out directly and passes its failure on.
  have hcall := b.keeps_apply (TagState.Steady.keeps h₀) f hwords hwords
  exact preserves_focus hcall (fun _ hs => hs) (fun _ _ _ hs => hs) (fun _ he => he)

end Plans

/-- Carrying out the plan of an instruction fails only on memory: on a word that it accesses and
that the window does not cover, or on a commit of the region of such a word that is refused while
the region is shared. Its code fails on nothing else, wherever the emitter takes its registers from
and whatever they hold. -/
theorem failures_blamed_on_memory {σ ε : Type} {backend : Backend} {w : Window} {em : Emitter σ ε}
    {lent : List Scratch → σ → Prop} (hem : em.Reliable lent) {y : σ} (hlent : lent [] y)
    (a : Analyzer) (i : Instr) (f : RegFile) (tags : TagState)
    (hreach : Store.Reachable backend w tags.store)
    (hpc : tags.thread.bank.tracksPc = a.tracksPc) {plan : Plan} {a' : Analyzer}
    (hplan : Analyzer.analyze i a = .ok plan a') :
    (∀ e, (outcome (plan.apply f) tags).1 = .error e →
        e.BlamedOn (tags.store.Blocked (plan.Accesses MemRef.wordAddress a.tracksPc f))) ∧
      ∃ code y', Analyzer.inlineCode em i (a, y) = .ok code (a', y') ∧
        (tags.thread.Outside w → ∀ scratch e,
          (outcome (InlineInstr.run f code) ⟨tags, scratch⟩).1 = .error e →
            e.BlamedOn (tags.store.Blocked (plan.Accesses MemRef.codeAddress a.tracksPc f))) := by
  have htracked := Analyzer.analyze_tracked i a
  have hcode := inlineCode_reliable hem (a := a) hlent i
  rw [hplan] at htracked hcode
  have hmoves : ∀ m ∈ plan.moves, m.Tracked a.tracksPc := htracked.2
  have hstart : tags.Steady tags := ⟨⟨.refl, rfl, rfl⟩, rfl⟩
  constructor
  · exact fun e he => (Plan.blamedOn_apply hreach.consistent hpc f hmoves).failure hstart he
  · obtain ⟨code, y', hinsert, -, hlowered⟩ := hcode
    refine ⟨code, y', hinsert, fun hout scratch e he => ?_⟩
    have hsound : tags.Sound := ⟨hreach.consistent, by rw [hreach.window_eq]; exact hout⟩
    have hkeep := Plan.blamedOn_inline hreach.consistent hpc f hmoves
    have hmoves := InlineInstr.outcome_lowered (f := f) hlowered (s := ⟨tags, scratch⟩) hsound
    -- The code runs as the moves do, whatever the scratch registers held.
    exact hkeep.failure hstart ((congrArg Prod.fst hmoves).trans he)

/-- A store where the first region is not given memory. -/
def Store.reluctant : Store :=
  (Store.small .lazy).under (.refusing (.commit 0))

theorem failures_blamed_on_memory_refused_commit :
    let plan : Plan := ⟨0x100, .str, [.store [some ⟨1⟩] (.beside ⟨4⟩ 8)]⟩
    let regs := RegFile.zero.set ⟨4⟩ 0x1000
    Store.reluctant.Blocked (plan.Accesses MemRef.wordAddress true regs) (.mapping (.commit 0)) ∧
      Store.reluctant.Blocked (plan.Accesses MemRef.codeAddress true regs)
        (.mapping (.commit 0)) := by
  intro plan regs
  have hem := CodeBuffer.reliable [⟨0⟩, ⟨1⟩] (by decide) (by decide) (by decide)
  have hstep : Store.Step (.small .lazy) .reluctant :=
    ⟨.call (.get 0x1000), .refusing (.commit 0), rfl⟩
  have hreach : Store.Reachable .lazy .small .reluctant := ⟨.granting, _, rfl, .single hstep⟩
  have hout : ThreadContext.tainted.Outside .small := by decide
  let instr : Instr := ⟨0x100, .str, [.mem (.beside ⟨4⟩ 8)], [.reg ⟨1⟩]⟩
  let stored := InlineInstr.storeWord (some ⟨1⟩) (.beside ⟨4⟩ 8) ⟨0⟩ ⟨1⟩
  have hplan : Analyzer.analyze instr (.new .strict true) = .ok plan (.new .strict true) := rfl
  obtain ⟨hdirect, code, y', hcode, hinline⟩ := failures_blamed_on_memory hem
    (y := .new [⟨0⟩, ⟨1⟩] none none) ⟨rfl, rfl, rfl⟩ (.new .strict true) instr regs
    ⟨.reluctant, .tainted⟩ hreach rfl hplan
  have hlist : (outcome (Analyzer.inlineCode CodeBuffer.emitter instr)
      (.new .strict true, .new [⟨0⟩, ⟨1⟩] none none)).1.toOption = some stored := by
    decide +kernel
  rw [outcome, hcode] at hlist
  cases hlist
  constructor
  · exact hdirect (.shadow (.mapping (.commit 0))) (by decide +kernel)
  · exact hinline hout (Vector.replicate Scratch.count 7) (.fault (.shadow (.mapping (.commit 0))))
      (by decide +kernel)

end TaintFlow
