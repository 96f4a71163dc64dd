import Mathlib.Logic.Function.Basic
import TaintFlow.Proofs.Inline.Requests
import TaintFlow.Proofs.Plan.Parallel
import TaintFlow.Proofs.Shadow.Reachability

/-!
# Lazy and dense stores are interchangeable

Calls and inline code that run against a lazy and against a dense store have the same outcome on
both, wherever the two shadows lie, and the stores read alike afterwards. Visiting the dense store
shows the regions of the lazy one that were asked memory for or that hold a tag.
-/

namespace TaintFlow

open TaintFlow.Action

/-! ## Moves -/

namespace TagState

structure Mirrors (l d : TagState) : Prop where
  store : l.store.Mirrors d.store
  bank : d.thread.bank = l.thread.bank

theorem Mirrors.matching : Matching Eq Mirrors :=
  .of_eq (fun _ _ h => h.store.tagOf) (fun _ _ h => h.store.refusal?) (fun _ _ h => h.bank)
    (fun _ _ h _ t hc => ⟨h.store.withTag hc t, h.bank⟩) (fun _ _ h _ => ⟨h.store, rfl⟩)

theorem mirrors_reported {α : Type} {V : α → α → Prop} {act : Action TagState ApplyError α}
    (h : Simulates Mirrors V Eq act act) : Simulates Mirrors V Eq (reported act) (reported act) :=
  simulates_focus h (fun _ _ hld => hld) (fun _ _ _ _ _ hld => hld) fun _ _ he => congrArg _ he

theorem mirrors_saveAddress (a : Address) :
    Simulates Mirrors Any Eq (saveAddress a) (saveAddress a) :=
  fun _ _ h => ⟨trivial, h.store, h.bank⟩

/-- A store that is recovered on the lazy side goes through on the dense side. -/
theorem mirrors_storeInline (a : Address) (t : Tag) :
    Simulates Mirrors Any Eq (storeInline a t) (storeInline a t) := by
  intro l d h
  unfold storeInline
  rw [h.store.refusal?]
  cases hr : l.store.refusal? a with
  | some e => cases e <;> exact ⟨rfl, h⟩
  | none =>
      have hlazy : l.store.withInlineTag a t = l.store.withTag a t := by
        unfold Store.withInlineTag
        cases hb : l.store.backing with
        | lazy owned commits => rfl
        | dense touched =>
            have hbackend := h.store.lazy
            simp [Store.backend, hb] at hbackend
      have hdense : d.store.withInlineTag a t = d.store.writeAt (d.store.layout.granule a) t := by
        unfold Store.withInlineTag
        cases hb : d.store.backing with
        | dense touched => rfl
        | lazy owned commits =>
            have hbackend := h.store.dense
            simp [Store.backend, hb] at hbackend
      dsimp only
      rw [hlazy, hdense]
      exact ⟨trivial, h.store.withTag_writeAt (Store.covers_of_refusal? hr) t, h.bank⟩

end TagState

open TagState

theorem Move.mirrors_inline (f : RegFile) (m : Move) :
    Simulates Mirrors Any Eq (m.inline f) (m.inline f) := by
  have hdirect := m.simulates_apply Mirrors.matching f
  cases m with
  | load dst mem i =>
      refine simulates_bind (mirrors_saveAddress _) fun _ _ _ => mirrors_reported ?_
      apply simulates_bind (simulates_memTag Mirrors.matching _)
      rintro t _ rfl
      exact simulates_setRegTag Mirrors.matching dst rfl
  | store src mem i =>
      apply simulates_bind (mirrors_reported (simulates_sourceTag Mirrors.matching src))
      rintro t _ rfl
      exact simulates_bind (mirrors_saveAddress _) fun _ _ _ => mirrors_storeInline _ t
  | copy dst src => exact mirrors_reported hdirect
  | clear dst => exact mirrors_reported hdirect
  | union dst srcs => exact mirrors_reported hdirect
  | block b =>
      exact simulates_focus hdirect (fun _ _ hld => hld) (fun _ _ _ _ _ hld => hld)
        fun _ _ he => congrArg _ he

/-! ## Jobs -/

/-- Code that a reliable emitter was given for some instructions, one after the other. -/
inductive Emitted : List InlineInstr → Prop where
  | nil : Emitted []
  | cons {σ ε : Type} {em : Emitter σ ε} {lent : List Scratch → σ → Prop} (hem : em.Reliable lent)
      {x x' : σ} (hx : lent [] x) {a a' : Analyzer} {i : Instr} {code rest : List InlineInstr}
      (h : Analyzer.inlineCode em i (a, x) = .ok code (a', x')) (hrest : Emitted rest) :
      Emitted (code ++ rest)

theorem Lowered.append {moves moves' : List Move} {code code' : List InlineInstr}
    (h : Lowered moves code) (h' : Lowered moves' code') :
    Lowered (moves ++ moves') (code ++ code') := by
  induction h with
  | nil => exact h'
  | cons ha hb hab _ ih =>
      rw [List.cons_append, List.append_assoc]
      exact .cons ha hb hab ih

theorem Emitted.lowered {code : List InlineInstr} (h : Emitted code) :
    ∃ moves, Lowered moves code := by
  induction h with
  | nil => exact ⟨[], .nil⟩
  | @cons _ _ em _ hem x _ hx a _ i code _ hcode _ ih =>
      obtain ⟨moves, hmoves⟩ := ih
      have hinstr := inlineCode_reliable hem (a := a) hx i
      cases hplan : Analyzer.analyze i a with
      | error g a₁ =>
          rw [hplan, hcode] at hinstr
          cases hinstr
      | ok plan a₁ =>
          rw [hplan] at hinstr
          obtain ⟨code', x₁, hcode', -, hlowered⟩ := hinstr
          rw [hcode] at hcode'
          cases hcode'
          exact ⟨_, hlowered.append hmoves⟩

/-- A store, the threads whose inline code runs against it, and what the code's executors have left
in their scratch registers. -/
structure World where
  store : Store
  threads : Nat → ThreadContext
  scratch : Nat → Vector Address Scratch.count

/-- What is done to a store: a call, or inline code that an executor runs on behalf of a thread. -/
inductive Job where
  | call (access : Access)
  | run (thread executor : Nat) (code : List InlineInstr) (f : RegFile)

namespace World

def entered (w : World) (thread executor : Nat) : ExecState :=
  ⟨⟨w.store, w.threads thread⟩, w.scratch executor⟩

def left (w : World) (thread executor : Nat) (st : ExecState) : World :=
  ⟨st.tags.store, Function.update w.threads thread st.tags.thread,
    Function.update w.scratch executor st.scratch⟩

end World

namespace Job

def perform : Job → Action World OperationError Answer
  | .call access => focus World.store (fun store w => { w with store }) .shadow access.perform
  | .run thread executor code f => do
      focus (fun w => w.entered thread executor) (fun st w => w.left thread executor st) .exec
        (InlineInstr.run f code)
      return .done

def requests (w : World) : Job → List Nat
  | .call access => access.requests w.store.layout
  | .run thread executor code f => InlineInstr.requested f code (w.entered thread executor)

def Lowered : Job → Prop
  | .call _ => True
  | .run _ _ code _ => Emitted code

end Job

/-! ## Jobs side by side -/

/-- An answer where shadow addresses are counted from the start of the shadow. -/
def Answer.relative (base : Address) : Answer → Answer
  | .shadow a => .shadow (a - base)
  | x => x

/-- The store in `w'` mirrors the one in `w`, the threads have the same tags, and the dense store
was asked memory for `requested`. -/
structure World.Mirrors (w w' : Window) (requested : List Nat) (l d : World) : Prop where
  store : l.store.Mirrors d.store
  bank : ∀ k, (d.threads k).bank = (l.threads k).bank
  window : l.store.window = w
  dense_window : d.store.window = w'
  outside : ∀ k, (l.threads k).Outside w
  dense_outside : ∀ k, (d.threads k).Outside w'
  requested : ∀ i, d.store.marks.contains i = true ↔ i ∈ requested

theorem InlineInstr.mirrors_run {f : RegFile} {moves : List Move} {code : List InlineInstr}
    (h : Lowered moves code) {st st' : ExecState} (hs : st.tags.Sound) (hs' : st'.tags.Sound)
    (hm : st.tags.Mirrors st'.tags) :
    (outcome (run f code) st').1 = (outcome (run f code) st).1 ∧
      (outcome (run f code) st).2.tags.Mirrors (outcome (run f code) st').2.tags ∧
      st.tags.Since (outcome (run f code) st).2.tags ∧
      st'.tags.Since (outcome (run f code) st').2.tags := by
  have hsame : Simulates TagState.Mirrors Any Eq (moves.forM (Move.inline f))
      (moves.forM (Move.inline f)) := simulates_forM fun m _ => m.mirrors_inline f
  have hkeep : ∀ {s : TagState}, s.Sound → s.Since (outcome (moves.forM (Move.inline f)) s).2 := by
    intro s hs
    have hmoves : Preserves s.Since (fun _ => True) (moves.forM (Move.inline f)) :=
      preserves_forM fun m _ => m.preserves_inline hs.consistent f
    exact hmoves.state ⟨.refl, rfl, rfl⟩
  have hend := hsame.outcome_eq hm
  have hkept := hkeep hs
  have hkept' := hkeep hs'
  -- Running the code and running the moves end alike, but for the scratch registers.
  rw [outcome_lowered h hs, outcome_lowered h hs'] at hend
  rw [outcome_lowered h hs] at hkept
  rw [outcome_lowered h hs'] at hkept'
  exact ⟨hend.1, hend.2, hkept, hkept'⟩

theorem Access.mirrors_perform (x : Access) {l d : Store} (h : l.Mirrors d) :
    (outcome x.perform d).1.map (Answer.relative d.window.base) =
        (outcome x.perform l).1.map (Answer.relative l.window.base) ∧
      (outcome x.perform l).2.Mirrors (outcome x.perform d).2 ∧
      Store.Noted d (x.requests d.layout) (outcome x.perform d).2 ∧
      (outcome x.perform l).2.window = l.window ∧ (outcome x.perform d).2.window = d.window := by
  have hrefusal := Store.refusal?_willing (Store.refusesRegion_dense h.dense)
  cases x with
  | get a =>
      rw [outcome_get, outcome_get, h.tagOf]
      refine ⟨?_, h, .of_marks_eq rfl, rfl, rfl⟩
      cases l.tagOf a <;> rfl
  | set a t =>
      rw [outcome_set, outcome_set, ← h.refusal?, hrefusal, requests]
      cases hc : d.layout.covers a with
      | false => exact ⟨rfl, h, .of_marks_eq rfl, rfl, rfl⟩
      | true =>
          exact ⟨rfl, h.withTag (h.layout ▸ hc) t, .withTag h.dense_consistent hc t,
            l.withTag_window a t, d.withTag_window a t⟩
  | materialize a =>
      rw [outcome_materialize, outcome_materialize, ← h.refusal?, hrefusal, requests]
      cases hc : d.layout.covers a with
      | false => exact ⟨rfl, h, .of_marks_eq rfl, rfl, rfl⟩
      | true =>
          -- Counted from its base, a shadow address is the offset of the granule.
          have hanswer : ∀ (w : Window) o, (Answer.shadow (w.addressOf o)).relative w.base =
              .shadow (UInt64.ofNat o) := by
            intro w o
            rw [Answer.relative, Window.addressOf, UInt64.add_comm, UInt64.add_sub_cancel]
          have hregion := h.withRegion (Layout.regionAt_lt_regions (h.layout ▸ hc))
          rw [if_pos rfl]
          dsimp only [Except.map]
          rw [hanswer, hanswer, h.layout]
          exact ⟨rfl, hregion, h.layout ▸ .withRegion h.dense_consistent hc,
            l.withRegion_window _, d.withRegion_window _⟩

namespace World

variable {w w' : Window} {requested : List Nat} {l d : World}

theorem Mirrors.sound (h : Mirrors w w' requested l d) (thread executor : Nat) :
    (l.entered thread executor).tags.Sound ∧ (d.entered thread executor).tags.Sound :=
  ⟨⟨h.store.consistent, h.window ▸ h.outside thread⟩,
    ⟨h.store.dense_consistent, h.dense_window ▸ h.dense_outside thread⟩⟩

end World

namespace Job

theorem outcome_call (access : Access) (w : World) :
    outcome (Job.call access).perform w =
      ((outcome access.perform w.store).1.mapError .shadow,
        { w with store := (outcome access.perform w.store).2 }) :=
  outcome_focus _ _ _ _ w

theorem outcome_run (thread executor : Nat) (code : List InlineInstr) (f : RegFile) (w : World) :
    outcome (Job.run thread executor code f).perform w =
      (((outcome (InlineInstr.run f code) (w.entered thread executor)).1.mapError .exec).map
          fun _ => .done,
        w.left thread executor
          (outcome (InlineInstr.run f code) (w.entered thread executor)).2) := by
  have hperform : (Job.run thread executor code f).perform =
      focus (fun w => w.entered thread executor) (fun st w => w.left thread executor st) .exec
        (InlineInstr.run f code) >>= fun _ => pure Answer.done := rfl
  rw [hperform, outcome_map, outcome_focus]

theorem mirrors_perform {x : Job} (hx : x.Lowered) {w w' : Window} {requested : List Nat}
    {l d : World} (h : World.Mirrors w w' requested l d) :
    (outcome x.perform d).1.map (Answer.relative w'.base) =
        (outcome x.perform l).1.map (Answer.relative w.base) ∧
      World.Mirrors w w' (requested ++ x.requests d) (outcome x.perform l).2
        (outcome x.perform d).2 := by
  have hnoted : ∀ {regions : List Nat} {s : Store}, Store.Noted d.store regions s →
      ∀ i, s.marks.contains i = true ↔ i ∈ requested ++ regions := by
    intro regions s hs i
    rw [hs i, h.requested, List.mem_append]
  cases x with
  | call access =>
      obtain ⟨hsame, hmirrors, hmarks, hwindow, hwindow'⟩ := access.mirrors_perform h.store
      rw [h.window, h.dense_window] at hsame
      rw [outcome_call, outcome_call]
      refine ⟨?_, hmirrors, h.bank, hwindow.trans h.window, hwindow'.trans h.dense_window,
        h.outside, h.dense_outside, hnoted hmarks⟩
      have hwrap : ∀ (base : Address) (o : Except ShadowError Answer),
          (o.mapError OperationError.shadow).map (Answer.relative base) =
            (o.map (Answer.relative base)).mapError .shadow := by
        intro base o
        cases o <;> rfl
      rw [hwrap, hwrap, hsame]
  | run thread executor code f =>
      obtain ⟨moves, hlowered⟩ := Emitted.lowered hx
      obtain ⟨hs, hs'⟩ := h.sound thread executor
      obtain ⟨hsame, hmirrors, hkept, hkept'⟩ :=
        InlineInstr.mirrors_run (f := f) hlowered hs hs' ⟨h.store, h.bank thread⟩
      have hmarks := InlineInstr.noted_run (f := f) hlowered hs' h.store.dense
      rw [outcome_run, outcome_run]
      refine ⟨?_, hmirrors.store, ?_, hkept.store.window.trans h.window,
        hkept'.store.window.trans h.dense_window, ?_, ?_, hnoted hmarks⟩
      · rw [hsame]
        cases (outcome (InlineInstr.run f code) (l.entered thread executor)).1 <;> rfl
      · intro k
        dsimp only [World.left]
        -- Only the thread that the code runs for has changed.
        by_cases hk : k = thread
        · subst hk
          rw [Function.update_self, Function.update_self]
          exact hmirrors.bank
        · rw [Function.update_of_ne hk, Function.update_of_ne hk]
          exact h.bank k
      · have hout := (hs.since hkept).outside
        rw [hkept.store.window, World.entered, h.window] at hout
        exact (Function.forall_update_iff l.threads fun _ c => c.Outside w).mpr
          ⟨hout, fun k _ => h.outside k⟩
      · have hout := (hs'.since hkept').outside
        rw [hkept'.store.window, World.entered, h.dense_window] at hout
        exact (Function.forall_update_iff d.threads fun _ c => c.Outside w').mpr
          ⟨hout, fun k _ => h.dense_outside k⟩

end Job

namespace World

/-- Carry out jobs in order, whether the ones before failed or not. -/
def performAll : List Job → World → List (Except OperationError Answer) × World
  | [], w => ([], w)
  | x :: xs, w =>
    let ends := outcome x.perform w
    let rest := performAll xs ends.2
    (ends.1 :: rest.1, rest.2)

def requests : List Job → World → List Nat
  | [], _ => []
  | x :: xs, w => x.requests w ++ requests xs (outcome x.perform w).2

theorem mirrors_performAll {jobs : List Job} (hjobs : ∀ x ∈ jobs, x.Lowered) {w w' : Window}
    {requested : List Nat} {l d : World} (h : Mirrors w w' requested l d) :
    (performAll jobs d).1.map (·.map (Answer.relative w'.base)) =
        (performAll jobs l).1.map (·.map (Answer.relative w.base)) ∧
      Mirrors w w' (requested ++ requests jobs d) (performAll jobs l).2 (performAll jobs d).2 := by
  -- On the jobs; the requests so far travel with the invariant.
  induction jobs generalizing requested l d with
  | nil =>
      rw [requests, List.append_nil]
      exact ⟨rfl, h⟩
  | cons x xs ih =>
      obtain ⟨hfirst, hmirrors⟩ := Job.mirrors_perform (hjobs x List.mem_cons_self) h
      obtain ⟨hrest, hend⟩ := ih (fun y hy => hjobs y (List.mem_cons_of_mem x hy)) hmirrors
      rw [requests, ← List.append_assoc]
      refine ⟨?_, hend⟩
      rw [performAll, performAll, List.map_cons, List.map_cons, hfirst, hrest]

end World

/-- Jobs have the same outcomes on a lazy and on a dense store, shadow addresses counted from the
start of the shadow, and after each of them the tags are the same. A visitor of the dense store then
sees the regions of the lazy one that were asked memory for or hold a tag. -/
theorem World.backends_agree {w w' : Window} (hlayout : w'.layout = w.layout) {m m' : Mapping}
    {l d : World} (hl : Store.create .lazy w m = .ok l.store)
    (hd : Store.create .dense w' m' = .ok d.store) (hgranted : ∀ i, m.refuses (.commit i) = false)
    (hbank : ∀ k, (d.threads k).bank = (l.threads k).bank)
    (hout : ∀ k, (l.threads k).Outside w) (hout' : ∀ k, (d.threads k).Outside w')
    {jobs : List Job} (hjobs : ∀ x ∈ jobs, x.Lowered) :
    (performAll jobs d).1.map (·.map (Answer.relative w'.base)) =
        (performAll jobs l).1.map (·.map (Answer.relative w.base)) ∧
      ∀ n,
        let lazy := (performAll (jobs.take n) l).2
        let dense := (performAll (jobs.take n) d).2
        let shown := lazy.store.shown (requests (jobs.take n) d)
        (∀ k r, (dense.threads k).tagOf r = (lazy.threads k).tagOf r) ∧
          (∀ a, dense.store.tagOf a = lazy.store.tagOf a) ∧
          ∀ system, (dense.store.under system).Holds →
            (dense.store.under system).regions.map Region.sight =
                (lazy.store.writtenRegions.filter shown).map (Region.sight ∘ lazy.store.region) ∧
              ∀ i ∈ lazy.store.writtenRegions, i ∉ (dense.store.under system).writtenRegions →
                ∀ t ∈ (lazy.store.region i).tags, t = 0 := by
  have hstart : World.Mirrors w w' [] l d := by
    refine ⟨.of_create hlayout hl hd hgranted, hbank, ?_, ?_, hout, hout', ?_⟩
    · rw [Store.of_create_eq_ok hl]
    · rw [Store.of_create_eq_ok hd]
    · intro i
      rw [Store.of_create_eq_ok hd]
      simp [Store.marks, Store.fresh]
  refine ⟨(mirrors_performAll hjobs hstart).1, fun n => ?_⟩
  have htake : ∀ x ∈ jobs.take n, x.Lowered := fun x hx => hjobs x (List.mem_of_mem_take hx)
  have hend := (mirrors_performAll htake hstart).2
  refine ⟨fun k r => ?_, hend.store.tagOf, fun system hholds => ?_⟩
  · rw [ThreadContext.tagOf, hend.bank, ThreadContext.tagOf]
  have hmirrors := hend.store.under system
  have hregions := hmirrors.writtenRegions hholds hend.requested
  constructor
  · rw [Store.regions, List.map_map, hregions]
    exact List.map_congr_left fun i _ => hmirrors.sight_region i
  · intro i hi hunseen t ht
    rw [hregions, List.mem_filter] at hunseen
    -- A region with a tag would have been shown.
    by_contra hne
    refine hunseen ⟨hi, ?_⟩
    rw [Store.shown, Bool.or_eq_true]
    exact Or.inr (List.any_eq_true.mpr ⟨t, ht, by simpa using hne⟩)

def Instr.storing : Instr :=
  ⟨0x100, .str, [.mem (.beside ⟨4⟩ 8)], [.reg ⟨1⟩]⟩

/-- Memory is asked for in two ways, then inline code stores a tag. -/
def Job.mixed : List Job :=
  let code := InlineInstr.storeWord (some ⟨1⟩) (.beside ⟨4⟩ 8) ⟨0⟩ ⟨1⟩
  [.call (.materialize 0x2000), .call (.set 0x3000 0),
    .run 0 0 code (RegFile.zero.set ⟨4⟩ 0x1000)]

def Window.aside : Window :=
  { Window.small with base := 0x900000, fits := by decide }

def World.fresh (backend : Backend) (window : Window) : World :=
  ⟨⟨window, .granting, .zero, Store.fresh backend window.layout⟩, fun _ => .tainted,
    fun _ => Vector.replicate Scratch.count 7⟩

theorem World.backends_agree_mixed :
    ((performAll Job.mixed (.fresh .dense .aside)).2.store.under .granting).regions.map
      Region.appBase = [0x1000, 0x2000, 0x3000] := by
  have hem := CodeBuffer.reliable [⟨0⟩, ⟨1⟩] (by decide) (by decide) (by decide)
  have hcode : ∀ code, (outcome (Analyzer.inlineCode CodeBuffer.emitter .storing)
      (.new .strict true, .new [⟨0⟩, ⟨1⟩] none none)).1.toOption = some code → Emitted code := by
    intro code hrun
    unfold outcome at hrun
    cases h : Analyzer.inlineCode CodeBuffer.emitter .storing
        (.new .strict true, .new [⟨0⟩, ⟨1⟩] none none) with
    | error e s =>
        rw [h] at hrun
        cases hrun
    | ok code' s =>
        rw [h] at hrun
        cases hrun
        rw [← List.append_nil code]
        exact .cons hem ⟨rfl, rfl, rfl⟩ h .nil
  have hjobs : ∀ x ∈ Job.mixed, x.Lowered := by
    intro x hx
    rcases hx with _ | ⟨_, _ | ⟨_, _ | ⟨_, hx⟩⟩⟩
    · trivial
    · trivial
    · exact hcode _ (by decide +kernel)
    · cases hx
  have hout : ThreadContext.tainted.Outside .small := by decide
  have hout' : ThreadContext.tainted.Outside .aside := by decide
  have hl : Store.create .lazy .small .granting = .ok (fresh .lazy .small).store := rfl
  have hd : Store.create .dense .aside .granting = .ok (fresh .dense .aside).store := rfl
  have hlayout : Window.aside.layout = Window.small.layout := rfl
  have h := backends_agree hlayout hl hd (fun _ => rfl) (fun _ => rfl) (fun _ => hout)
    (fun _ => hout') hjobs
  have hseen := congrArg (List.map Prod.fst) ((h.2 3).2.2 .granting fun _ _ => rfl).1
  rw [List.map_map] at hseen
  exact hseen.trans (by decide +kernel)

end TaintFlow
