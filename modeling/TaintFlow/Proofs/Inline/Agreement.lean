import TaintFlow.Proofs.Inline.Meaning
import TaintFlow.Proofs.Plan.Parallel
import TaintFlow.Proofs.Plan.Selection
import TaintFlow.Proofs.Shadow.Reachability

/-!
# Direct and inline propagation agree

Carrying out plans directly and executing their inline code leaves the same tags, and either both
get through or both stop at the same instruction for the same reason. What a dense store notes of
its writes may differ, and the application address that inline code leaves in its slot.
-/

namespace TaintFlow

open TaintFlow.Action

/-! ## Stores that agree -/

namespace Store

/-- The stores hold the same. A dense store may have noted other writes. -/
structure Alike (s t : Store) : Prop where
  window : t.window = s.window
  mapping : t.mapping = s.mapping
  bytes : t.bytes = s.bytes
  backend : t.backend = s.backend
  records : s.backend = .lazy → t.backing = s.backing

namespace Alike

variable {s t : Store}

theorem refl (s : Store) : Alike s s :=
  ⟨rfl, rfl, rfl, rfl, fun _ => rfl⟩

theorem layout (h : Alike s t) : t.layout = s.layout := by
  rw [Store.layout, h.window, Store.layout]

theorem tagOf (h : Alike s t) (a : Address) : t.tagOf a = s.tagOf a := by
  rw [tagOf_eq, tagOf_eq, h.layout, h.bytes]

theorem eq_of_lazy (h : Alike s t) (hb : s.backend = .lazy) : t = s := by
  have hbacking := h.records hb
  cases s
  cases t
  cases h.window
  cases h.mapping
  cases h.bytes
  cases hbacking
  rfl

/-- Alike stores are one store, or two dense ones. -/
theorem cases (h : Alike s t) :
    t = s ∨ ∃ touched touched', s.backing = .dense touched ∧ t.backing = .dense touched' := by
  cases hs : s.backing with
  | lazy owned commits => exact Or.inl (h.eq_of_lazy (by rw [Store.backend, hs]))
  | dense touched =>
      have hb := h.backend
      unfold Store.backend at hb
      rw [hs] at hb
      cases ht : t.backing with
      | lazy owned commits =>
          rw [ht] at hb
          cases hb
      | dense touched' => exact Or.inr ⟨touched, touched', rfl, rfl⟩

theorem regionKind (h : Alike s t) (i : Nat) : t.regionKind i = s.regionKind i := by
  rcases h.cases with rfl | ⟨touched, touched', hs, ht⟩
  · rfl
  · rw [regionKind_of_dense hs, regionKind_of_dense ht]

theorem pageKind (h : Alike s t) (shadow : Address) : t.pageKind shadow = s.pageKind shadow := by
  unfold Store.pageKind
  rw [h.window, h.layout]
  exact congrArg (fun kind => Option.map kind _) (funext fun o => h.regionKind _)

theorem refusal? (h : Alike s t) (a : Address) : t.refusal? a = s.refusal? a := by
  rcases h.cases with rfl | ⟨touched, touched', hs, ht⟩
  · rfl
  · unfold Store.refusal? refusesRegion
    rw [h.layout, hs, ht]

theorem under (h : Alike s t) (m : Mapping) : Alike (s.under m) (t.under m) :=
  ⟨h.window, rfl, h.bytes, h.backend, h.records⟩

theorem withTag (h : Alike s t) (a : Address) (u : Tag) :
    Alike (s.withTag a u) (t.withTag a u) := by
  rcases h.cases with rfl | ⟨touched, touched', hs, ht⟩
  · exact refl _
  · unfold Store.withTag Store.withRegion
    rw [hs, ht]
    dsimp only
    refine ⟨h.window, h.mapping, ?_, rfl, nofun⟩
    change t.bytes.write _ u = s.bytes.write _ u
    rw [h.bytes, h.layout]

/-- A tag that is set directly, and one that is set by inline code. -/
theorem withInlineTag (h : Alike s t) (a : Address) (u : Tag) :
    Alike (s.withTag a u) (t.withInlineTag a u) := by
  unfold Store.withInlineTag
  rcases h.cases with rfl | ⟨touched, touched', hs, ht⟩
  · cases ht : t.backing with
    | lazy owned commits => exact refl _
    | dense touched =>
        dsimp only
        unfold Store.withTag Store.withRegion
        rw [ht]
        exact ⟨rfl, rfl, rfl, by unfold Store.backend; rw [writeAt_backing, ht]; rfl, nofun⟩
  · rw [ht]
    dsimp only
    unfold Store.withTag Store.withRegion
    rw [hs]
    refine ⟨h.window, h.mapping, ?_, ?_, nofun⟩
    · change t.bytes.write _ u = s.bytes.write _ u
      rw [h.bytes, h.layout]
    · unfold Store.backend
      rw [writeAt_backing, ht]
      rfl

end Alike

end Store

/-! ## Moves carried out side by side -/

namespace TagState

/-- The tags agree. The second thread's slot for application addresses may hold anything. -/
structure Agrees (d l : TagState) : Prop where
  store : d.store.Alike l.store
  address : l.thread.address = d.thread.address
  bank : l.thread.bank = d.thread.bank
  slots : ∀ slot, slot ≠ .appAddress → l.thread.slot slot = d.thread.slot slot

theorem Agrees.refl (s : TagState) : Agrees s s :=
  ⟨.refl _, rfl, rfl, fun _ _ => rfl⟩

theorem Agrees.withSaved {d l : TagState} (h : Agrees d l) (a : Address) :
    Agrees d (l.withSaved a) where
  store := h.store
  address := h.address
  bank := h.bank
  slots := by
    intro slot hslot
    rw [TagState.withSaved, ThreadContext.slot_setSlot, if_neg (Ne.symm hslot)]
    exact h.slots slot hslot

theorem Agrees.matching : Matching Eq Agrees :=
  .of_eq (fun _ _ h => h.store.tagOf) (fun _ _ h => h.store.refusal?) (fun _ _ h => h.bank)
    (fun _ _ h a t _ => ⟨h.store.withTag a t, h.address, h.bank, h.slots⟩)
    (fun _ _ h _ => ⟨h.store, h.address, rfl, h.slots⟩)

end TagState

open TagState

/-- How inline code reports the failure of a propagation. -/
def ApplyError.ReportedAs (e : ApplyError) (e' : ExecError) : Prop :=
  e' = .ofApply e ∨ e' = .apply e ∨ ∃ cause, e = .shadow cause ∧ e' = .fault (.shadow cause)

theorem simulates_renamed {α : Type} {V : α → α → Prop} {E : ApplyError → ExecError → Prop}
    {wrap : ApplyError → ExecError} {act : Action TagState ApplyError α}
    (h : Simulates Agrees V Eq act act) (hwrap : ∀ e, E e (wrap e)) :
    Simulates Agrees V E act (focus id (fun s _ => s) wrap act) := by
  have hfocus : Simulates Agrees V E (focus id (fun s _ => s) id act)
      (focus id (fun s _ => s) wrap act) :=
    simulates_focus h (fun _ _ hst => hst) (fun _ _ _ _ _ hpq => hpq)
      (fun e _ he => he ▸ hwrap e)
  rw [focus_id] at hfocus
  exact hfocus

theorem simulates_reported {α : Type} {V : α → α → Prop} {act : Action TagState ApplyError α}
    (h : Simulates Agrees V Eq act act) :
    Simulates Agrees V ApplyError.ReportedAs act (reported act) :=
  simulates_renamed h fun _ => Or.inl rfl

theorem simulates_saveAddress {α β : Type} {V : α → β → Prop} {E : ApplyError → ExecError → Prop}
    {act : Action TagState ApplyError α} {act' : Action TagState ExecError β} (a : Address)
    (h : Simulates Agrees V E act act') :
    Simulates Agrees V E act (saveAddress a >>= fun _ => act') :=
  fun d l hdl => h d (l.withSaved a) (hdl.withSaved a)

theorem simulates_storeInline (a : Address) (t : Tag) :
    Simulates Agrees Any ApplyError.ReportedAs (setMemTag a t) (storeInline a t) := by
  intro d l h
  unfold setMemTag focus storeInline
  rw [Store.setTag_eq, h.store.refusal?]
  cases d.store.refusal? a with
  | none => exact ⟨trivial, h.store.withInlineTag a t, h.address, h.bank, h.slots⟩
  | some e =>
      cases e with
      | invalidAddress a => exact ⟨Or.inl rfl, h⟩
      | mapping r => exact ⟨Or.inr (Or.inr ⟨_, rfl, rfl⟩), h⟩
      | committedTwice base => exact ⟨Or.inr (Or.inr ⟨_, rfl, rfl⟩), h⟩

theorem Move.simulates_inline (f : RegFile) {m : Move} (hfits : m.Fits) :
    Simulates Agrees Any ApplyError.ReportedAs (m.apply f) (m.inline f) := by
  have hdirect := m.simulates_apply Agrees.matching f
  cases m with
  | load dst mem i =>
      dsimp only [Move.inline]
      rw [MemRef.address_word hfits f]
      exact simulates_saveAddress _ (simulates_reported hdirect)
  | store src mem i =>
      dsimp only [Move.inline]
      rw [MemRef.address_word hfits f]
      apply simulates_bind (simulates_reported (simulates_sourceTag Agrees.matching src))
      rintro t _ rfl
      exact simulates_saveAddress _ (simulates_storeInline _ t)
  | copy dst src => exact simulates_reported hdirect
  | clear dst => exact simulates_reported hdirect
  | union dst srcs => exact simulates_reported hdirect
  | block t => exact simulates_renamed hdirect fun _ => Or.inr (Or.inl rfl)

/-! ## Runs -/

/-- An executed instruction: the values of the registers before it, how the operating system
answers meanwhile, and what an earlier run has left in the scratch registers. -/
structure Occurrence where
  instr : Instr
  regs : RegFile
  system : Mapping
  scratch : Vector Address Scratch.count

inductive DirectError where
  | gap (g : Gap)
  | apply (e : ApplyError)

inductive InlineError (ε : Type) where
  | lower (e : LowerError ε)
  | exec (e : ExecError)

def TagState.under (s : TagState) (m : Mapping) : TagState :=
  { s with store := s.store.under m }

theorem TagState.since_under (s : TagState) (m : Mapping) : s.Since (s.under m) :=
  ⟨.single (.system m), rfl, rfl⟩

theorem TagState.Agrees.under {d l : TagState} (h : Agrees d l) (m : Mapping) :
    Agrees (d.under m) (l.under m) :=
  ⟨h.store.under m, h.address, h.bank, h.slots⟩

variable {σ ε : Type}

def Occurrence.direct (x : Occurrence) : Action (Analyzer × TagState) DirectError Unit := do
  let plan ← focus Prod.fst (fun a s => (a, s.2)) .gap (Analyzer.analyze x.instr)
  focus (fun s => s.2.under x.system) (fun tags s => (s.1, tags)) .apply (plan.apply x.regs)

def Occurrence.inlined (em : Emitter σ ε) (x : Occurrence) :
    Action ((Analyzer × σ) × TagState) (InlineError ε) Unit := do
  let code ← focus Prod.fst (fun s t => (s, t.2)) .lower (Analyzer.inlineCode em x.instr)
  focus (fun s => ⟨s.2.under x.system, x.scratch⟩) (fun st s => (s.1, st.tags)) .exec
    (code.forM (InlineInstr.exec x.regs))

def ExecError.Reports (e : ExecError) (cause : ShadowError) : Prop :=
  e = .shadow cause ∨ e = .fault (.shadow cause) ∨ e = .apply (.shadow cause)

inductive SameFailure : DirectError → InlineError ε → Prop where
  | gap (g : Gap) : SameFailure (.gap g) (.lower (.gap g))
  | shadow {cause : ShadowError} {e : ExecError} (h : e.Reports cause) :
      SameFailure (.apply (.shadow cause)) (.exec e)

/-- The two runs have come equally far. -/
structure Abreast (tracksPc : Bool) (lent : List Scratch → σ → Prop) (s : Analyzer × TagState)
    (t : (Analyzer × σ) × TagState) : Prop where
  analyzer : t.1.1 = s.1
  lent : lent [] t.1.2
  agrees : s.2.Agrees t.2
  direct : s.2.Sound
  inlined : t.2.Sound
  tracks : s.2.TracksPc tracksPc
  plans : s.1.tracksPc = tracksPc

theorem moves_abreast (f : RegFile) {tracksPc : Bool} {moves : List Move}
    (hmoves : ∀ m ∈ moves, m.Tracked tracksPc ∧ m.Fits) {d l : TagState} (h : d.Agrees l)
    (hd : d.Sound) (hl : l.Sound) (hpc : d.TracksPc tracksPc) :
    match moves.forM (Move.apply f) d, moves.forM (Move.inline f) l with
    | .ok _ d', .ok _ l' => d'.Agrees l' ∧ d'.Sound ∧ l'.Sound ∧ d'.TracksPc tracksPc
    | .error e d', .error e' l' => (∃ cause, e = .shadow cause ∧ e'.Reports cause) ∧
        d'.Agrees l' ∧ d'.Sound ∧ l'.Sound ∧ d'.TracksPc tracksPc
    | _, _ => False := by
  -- One simulation for what happens, three invariants for what the states keep on the way.
  have hsame : Simulates Agrees Any ApplyError.ReportedAs (moves.forM (Move.apply f))
      (moves.forM (Move.inline f)) :=
    simulates_forM fun m hm => m.simulates_inline f (hmoves m hm).2
  have hkeep : Preserves d.Since OrdinaryFailure (moves.forM (Move.apply f)) :=
    preserves_forM fun m _ => m.preserves_apply hd.consistent f
  have hkeep' : Preserves l.Since (fun _ => True) (moves.forM (Move.inline f)) :=
    preserves_forM fun m _ => m.preserves_inline hl.consistent f
  have hshadow : Preserves (TracksPc tracksPc) ShadowFailure (moves.forM (Move.apply f)) :=
    preserves_forM fun m hm => m.shadowFailure_apply f (hmoves m hm).1
  replace hsame := hsame d l h
  replace hkeep := hkeep d ⟨.refl, rfl, rfl⟩
  replace hkeep' := hkeep' l ⟨.refl, rfl, rfl⟩
  replace hshadow := hshadow d hpc
  cases ha : moves.forM (Move.apply f) d <;> cases hi : moves.forM (Move.inline f) l <;>
    rw [ha, hi] at hsame <;> rw [ha] at hkeep hshadow <;> rw [hi] at hkeep'
  case ok.ok => exact ⟨hsame.2, hd.since hkeep, hl.since hkeep', hshadow⟩
  case error.error =>
    refine ⟨?_, hsame.2, hd.since hkeep.1, hl.since hkeep'.1, hshadow.1⟩
    obtain ⟨cause, rfl⟩ := hshadow.2
    refine ⟨cause, rfl, ?_⟩
    -- Registers do not fail, so the cause is the store's, in one of its three guises.
    rcases hsame.1 with he | he | ⟨_, hc, he⟩
    · exact Or.inl he
    · exact Or.inr (Or.inr he)
    · cases hc
      exact Or.inr (Or.inl he)
  all_goals exact hsame.elim

/-- Every word that the plan of the instruction transfers has a 32-bit displacement. -/
def Instr.WordsFit (tracksPc : Bool) (i : Instr) : Prop :=
  ∀ rules ∈ (i.rules tracksPc).toOption, ∀ r ∈ rules, ∀ m ∈ r.moves, m.Fits

instance (tracksPc : Bool) (i : Instr) : Decidable (i.WordsFit tracksPc) :=
  inferInstanceAs (Decidable (∀ rules ∈ (i.rules tracksPc).toOption, _))

theorem Occurrence.simulates_inlined {em : Emitter σ ε} {lent : List Scratch → σ → Prop}
    (hem : em.Reliable lent) {tracksPc : Bool} (x : Occurrence)
    (hfits : x.instr.WordsFit tracksPc) :
    Simulates (Abreast tracksPc lent) Any SameFailure x.direct (x.inlined em) := by
  rintro ⟨a, d⟩ ⟨⟨a', y⟩, l⟩ ⟨han, hlent, hagrees, hd, hl, hpc, hplans⟩
  cases han
  have hcode := inlineCode_reliable hem (a := a) hlent x.instr
  have hplan := Analyzer.analyze_tracked x.instr a
  unfold direct inlined
  rw [bind_apply, bind_apply, focus, focus]
  dsimp only
  cases hanalyze : Analyzer.analyze x.instr a with
  | error g a₁ =>
      rw [hanalyze] at hcode hplan
      rw [hcode]
      -- A gap stops both before anything is carried out.
      exact ⟨.gap g, rfl, hlent, hagrees, hd, hl, hpc, hplan.trans hplans⟩
  | ok plan a₁ =>
      rw [hanalyze] at hcode hplan
      obtain ⟨code, y', hinsert, hlent', hlowered⟩ := hcode
      have hd' : (d.under x.system).Sound := hd.since (d.since_under x.system)
      have hl' : (l.under x.system).Sound := hl.since (l.since_under x.system)
      have hmoves : ∀ m ∈ plan.moves, m.Tracked tracksPc ∧ m.Fits := by
        intro m hm
        obtain ⟨r, hr, hmr⟩ := List.mem_flatMap.mp hm
        obtain ⟨rules, hrules, hr⟩ := Analyzer.exists_rules hanalyze hr
        rw [hplans] at hrules
        exact ⟨hplans ▸ hplan.2 m hm, hfits rules (by rw [hrules]; rfl) r hr m hmr⟩
      have hsame := moves_abreast x.regs hmoves (hagrees.under x.system) hd' hl' hpc
      -- What is executed is code; what is compared is its meaning.
      have hrun : ExecState.forget (code.forM (InlineInstr.exec x.regs)
          ⟨l.under x.system, x.scratch⟩) =
            plan.moves.forM (Move.inline x.regs) (l.under x.system) :=
        InlineInstr.run_lowered hlowered hl' rfl
      rw [← hrun] at hsame
      rw [hinsert]
      dsimp only
      rw [focus, focus, Plan.apply_eq_moves]
      dsimp only
      cases hdirect : plan.moves.forM (Move.apply x.regs) (d.under x.system) <;>
        cases hinline : code.forM (InlineInstr.exec x.regs) ⟨l.under x.system, x.scratch⟩ <;>
        rw [hdirect, hinline] at hsame
      case ok.ok =>
        obtain ⟨hagrees', hd'', hl'', hpc'⟩ := hsame
        exact ⟨trivial, rfl, hlent', hagrees', hd'', hl'', hpc', hplan.1.trans hplans⟩
      case error.error =>
        obtain ⟨⟨cause, rfl, hreports⟩, hagrees', hd'', hl'', hpc'⟩ := hsame
        exact ⟨.shadow hreports, rfl, hlent', hagrees', hd'', hl'', hpc', hplan.1.trans hplans⟩
      all_goals exact hsame.elim

/-- Both runs get through, or both stop at the same instruction for the same reason. -/
inductive SameEnd : Except (Nat × DirectError) Unit → Except (Nat × InlineError ε) Unit → Prop where
  | done : SameEnd (.ok ()) (.ok ())
  | stopped (place : Nat) {e : DirectError} {e' : InlineError ε} (h : SameFailure e e') :
      SameEnd (.error (place, e)) (.error (place, e'))

/-- Direct and inline propagation end alike and leave the same tags, the same gaps and, on a lazy
store, the same private regions. Only the slot for application addresses may differ. -/
theorem inline_code_agrees {backend : Backend} {w : Window} {em : Emitter σ ε}
    {lent : List Scratch → σ → Prop} (hem : em.Reliable lent) (y : σ) (hlent : lent [] y)
    (a : Analyzer) (tags : TagState) (hreach : Store.Reachable backend w tags.store)
    (hbank : tags.thread.Outside w) (hpc : tags.thread.bank.tracksPc = a.tracksPc)
    (xs : List Occurrence) (hfits : ∀ x ∈ xs, x.instr.WordsFit a.tracksPc) :
    let direct := outcome (each Occurrence.direct 0 xs) (a, tags)
    let inlined := outcome (each (Occurrence.inlined em) 0 xs) ((a, y), tags)
    SameEnd direct.1 inlined.1 ∧
      inlined.2.1.1 = direct.2.1 ∧
      (∀ r, inlined.2.2.thread.tagOf r = direct.2.2.thread.tagOf r) ∧
      (∀ address, inlined.2.2.store.tagOf address = direct.2.2.store.tagOf address) ∧
      (∀ shadow, inlined.2.2.store.pageKind shadow = direct.2.2.store.pageKind shadow) ∧
      ∀ slot, slot ≠ .appAddress → inlined.2.2.thread.slot slot = direct.2.2.thread.slot slot := by
  have hsound : tags.Sound := ⟨hreach.consistent, by rw [hreach.window_eq]; exact hbank⟩
  have hstart : Abreast a.tracksPc lent (a, tags) ((a, y), tags) :=
    ⟨rfl, hlent, .refl _, hsound, hsound, hpc, rfl⟩
  have hrun : Simulates (Abreast a.tracksPc lent) Any
      (fun e e' => e.1 = e'.1 ∧ SameFailure e.2 e'.2) (each Occurrence.direct 0 xs)
      (each (Occurrence.inlined em) 0 xs) :=
    simulates_each (fun x hx => x.simulates_inlined hem (hfits x hx)) 0
  replace hrun := hrun _ _ hstart
  -- Everything that is claimed of the ends follows from their being abreast.
  have hend : ∀ {s t}, Abreast a.tracksPc lent s t → t.1.1 = s.1 ∧
      (∀ r, t.2.thread.tagOf r = s.2.thread.tagOf r) ∧
      (∀ address, t.2.store.tagOf address = s.2.store.tagOf address) ∧
      (∀ shadow, t.2.store.pageKind shadow = s.2.store.pageKind shadow) ∧
      ∀ slot, slot ≠ .appAddress → t.2.thread.slot slot = s.2.thread.slot slot := by
    intro s t h
    have htag : ∀ r, t.2.thread.tagOf r = s.2.thread.tagOf r := by
      intro r
      rw [ThreadContext.tagOf, h.agrees.bank, ThreadContext.tagOf]
    exact ⟨h.analyzer, htag, h.agrees.store.tagOf, h.agrees.store.pageKind, h.agrees.slots⟩
  unfold outcome
  cases hd : each Occurrence.direct 0 xs (a, tags) <;>
    cases hi : each (Occurrence.inlined em) 0 xs ((a, y), tags) <;> rw [hd, hi] at hrun
  case ok.ok => exact ⟨.done, hend hrun.2⟩
  case error.error e s e' t =>
    obtain ⟨place, e⟩ := e
    obtain ⟨place', e'⟩ := e'
    obtain ⟨⟨hplace, hfailure⟩, hstate⟩ := hrun
    cases hplace
    exact ⟨.stopped place hfailure, hend hstate⟩
  all_goals exact hrun.elim

def Occurrence.storeLoad : List Occurrence :=
  let word : Operand := .mem (.beside ⟨4⟩ 8)
  let regs := RegFile.zero.set ⟨4⟩ 0x1000
  [⟨⟨0x100, .str, [word], [.reg ⟨1⟩]⟩, regs, .granting, Vector.replicate Scratch.count 7⟩,
    ⟨⟨0x104, .ldr, [.reg ⟨2⟩], [word]⟩, regs, .granting, Vector.replicate Scratch.count 7⟩]

theorem inline_code_agrees_store_load :
    (outcome (each (Occurrence.inlined CodeBuffer.emitter) 0 Occurrence.storeLoad)
      ((.new .strict true, .new [⟨0⟩, ⟨1⟩] none none), ⟨.small .lazy, .tainted⟩)).2.2.thread.tagOf
        ⟨2⟩ = .ok 5 := by
  have hem := CodeBuffer.reliable [⟨0⟩, ⟨1⟩] (by decide) (by decide) (by decide)
  have hreach : Store.Reachable .lazy .small (.small .lazy) := ⟨.granting, _, rfl, .refl⟩
  have hbank : ThreadContext.tainted.Outside .small := by decide
  have hfits : ∀ x ∈ Occurrence.storeLoad, x.instr.WordsFit true := by decide
  have h := inline_code_agrees hem (.new [⟨0⟩, ⟨1⟩] none none) ⟨rfl, rfl, rfl⟩
    (.new .strict true) ⟨.small .lazy, .tainted⟩ hreach hbank rfl Occurrence.storeLoad hfits
  exact (h.2.2.1 ⟨2⟩).trans rfl

end TaintFlow
