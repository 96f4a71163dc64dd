import Mathlib.Data.Set.Card
import TaintFlow.Proofs.Inline.Backends
import TaintFlow.Proofs.Inline.Isolation

/-!
# Interleavings

Threads that share a lazy store set tags and execute inline code, one instruction at a time and in
any order. If none of them accesses a granule that another one writes, the order does not matter:
each thread ends as if it had run alone, and the store holds what all of them have written.
-/

namespace TaintFlow

open TaintFlow.Action

/-! ## Tasks -/

/-- What a thread does without being interrupted. -/
inductive ThreadStep where
  | set (a : Address) (t : Tag)
  | exec (f : RegFile) (i : InlineInstr)

def ThreadStep.perform : ThreadStep → Exec Unit
  | .set a t => focus (fun st => st.tags.store) (fun store st => st.withStore store) .shadow
      (Store.setTag a t)
  | .exec f i => i.exec f

/-- What a thread is to do: set a tag, or execute the inline code of an instruction, given the
values of the registers before it. -/
inductive Task where
  | set (a : Address) (t : Tag)
  | code (i : Instr) (f : RegFile) (code : List InlineInstr)

/-- The moves of an instruction, none if it has no rules. -/
def Instr.moves (tracksPc : Bool) (i : Instr) : List Move :=
  match i.rules tracksPc with
  | .ok rules => rules.flatMap Rule.moves
  | .error _ => []

namespace Task

def steps : Task → List ThreadStep
  | .set a t => [.set a t]
  | .code _ f instrs => instrs.map (.exec f)

/-- The words whose tags the task reads or writes. -/
def Accesses (tracksPc : Bool) : Task → Address → Prop
  | .set b _, a => a = b
  | .code i f _, a => ∃ m ∈ i.moves tracksPc,
      m.Accesses MemRef.codeAddress (fun r => r.isTracked tracksPc = true) f a

/-- The words whose tags the task writes. -/
def Writes (tracksPc : Bool) : Task → Address → Prop
  | .set b _, a => a = b
  | .code i f _, a => ∃ m ∈ i.moves tracksPc, m.Stores MemRef.codeAddress f a

/-- The code is what a reliable emitter was given for the instruction, with the program counter
tracked or not. -/
inductive Issued (tracksPc : Bool) : Task → Prop where
  | set (a : Address) (t : Tag) : Issued tracksPc (.set a t)
  | code {σ ε : Type} {em : Emitter σ ε} {lent : List Scratch → σ → Prop} (hem : em.Reliable lent)
      {y y' : σ} (hy : lent [] y) {a a' : Analyzer} (hpc : a.tracksPc = tracksPc) {i : Instr}
      {code : List InlineInstr} (h : Analyzer.inlineCode em i (a, y) = .ok code (a', y'))
      (f : RegFile) : Issued tracksPc (.code i f code)

end Task

theorem Analyzer.analyze_moves {i : Instr} {a a' : Analyzer} {plan : Plan}
    (h : Analyzer.analyze i a = .ok plan a') : plan.moves = i.moves a.tracksPc := by
  have hcases := analyze_cases i a
  rw [h] at hcases
  unfold Plan.moves Instr.moves
  rcases hcases.2 with hrules | ⟨hnone, kind, hrules⟩
  · rw [hrules]
  · rw [hrules, hnone]
    rfl

theorem Move.accesses_of_stores {place : MemRef → RegFile → Nat → Address} {regs : Reg → Prop}
    {f : RegFile} {m : Move} {a : Address} (h : m.Stores place f a) :
    m.Accesses place regs f a := by
  cases m with
  | load | copy | clear | union => exact h.elim
  | store src mem i => exact h
  | block b =>
      change a ∈ b.stored f at h
      unfold BlockTransfer.stored at h
      cases hkind : b.kind with
      | loadIncrement =>
          rw [hkind] at h
          cases h
      | storeDecrement =>
          rw [hkind] at h
          obtain ⟨x, hx, rfl⟩ := List.mem_map.mp h
          exact ⟨x, hx, fun hload => by simp [hkind] at hload, rfl⟩

theorem Task.accesses_of_writes {tracksPc : Bool} {x : Task} {a : Address}
    (h : x.Writes tracksPc a) : x.Accesses tracksPc a := by
  cases x with
  | set b t => exact h
  | code i f code =>
      obtain ⟨m, hm, ha⟩ := h
      exact ⟨m, hm, Move.accesses_of_stores ha⟩

/-! ## A thread alone -/

namespace TagState

/-- Whenever the action succeeds, the regions of the words are private. -/
def Owns {ε : Type} (words : Address → Prop) (act : Action TagState ε Unit) : Prop :=
  ∀ s s', s.store.Consistent → act s = .ok () s' →
    s.Since s' ∧ ∀ a, words a → s'.store.regionKind (s.store.layout.regionAt a) = .owned

theorem owns_forM {ε β : Type} {words : β → Address → Prop} {act : β → Action TagState ε Unit}
    {xs : List β} (h : ∀ x ∈ xs, Owns (words x) (act x)) :
    Owns (fun a => ∃ x ∈ xs, words x a) (xs.forM act) := by
  induction xs with
  | nil =>
      rintro s _ - ⟨⟩
      exact ⟨⟨.refl, rfl, rfl⟩, nofun⟩
  | cons x xs ih =>
      intro s s' hs hrun
      obtain ⟨s₁, hx, hrest⟩ := forM_cons_eq_ok.mp hrun
      obtain ⟨hsince, howned⟩ := h x List.mem_cons_self s s₁ hs hx
      have hs₁ := hsince.store.consistent hs
      obtain ⟨hsince', howned'⟩ := ih (fun y hy => h y (List.mem_cons_of_mem x hy)) s₁ s' hs₁ hrest
      refine ⟨hsince.trans hsince', ?_⟩
      rintro a ⟨y, hy, ha⟩
      -- A region stays private.
      rcases List.mem_cons.mp hy with rfl | hy
      · exact hsince'.store.regionKind hs₁ (howned a ha)
      · rw [← hsince.store.layout]
        exact howned' a ⟨y, hy, ha⟩

theorem owns_setMemTag (a : Address) (t : Tag) : Owns (· = a) (setMemTag a t) := by
  intro s s' hs hrun
  unfold setMemTag focus at hrun
  rw [Store.setTag_eq] at hrun
  cases hr : s.store.refusal? a with
  | some e =>
      rw [hr] at hrun
      cases hrun
  | none =>
      rw [hr] at hrun
      cases hrun
      have htakes := Store.takes_withTag hs (Store.covers_of_refusal? hr) t
      refine ⟨⟨htakes.changed, rfl, rfl⟩, ?_⟩
      rintro _ rfl
      exact (htakes.regionKind _).trans (if_pos rfl)

end TagState

open TagState

theorem BlockTransfer.owns_apply (b : BlockTransfer) (f : RegFile) :
    Owns (· ∈ b.stored f) (b.apply f) := by
  intro s s' hs hrun
  cases hkind : b.kind with
  | loadIncrement =>
      have hsince : s.Since s' := by
        have hkeep := b.preserves_apply hs f s ⟨.refl, rfl, rfl⟩
        rw [hrun] at hkeep
        exact hkeep
      refine ⟨hsince, fun a ha => ?_⟩
      rw [stored, hkind] at ha
      cases ha
  | storeDecrement =>
      have hword : ∀ x ∈ b.transferred, Owns (· = b.wordAddress (f.value b.base) x.1)
          (b.transferOne (f.value b.base) x.1 x.2) := by
        intro x _ s s' hs hrun
        obtain ⟨u, hu⟩ := b.transferOne_store hkind s (f.value b.base) x
        exact owns_setMemTag _ u s s' hs (hu.symm.trans hrun)
      obtain ⟨hsince, howned⟩ := owns_forM hword s s' hs hrun
      refine ⟨hsince, fun a ha => howned a ?_⟩
      rw [stored, hkind] at ha
      obtain ⟨x, hx, rfl⟩ := List.mem_map.mp ha
      exact ⟨x, hx, rfl⟩

theorem TagState.owns_storeInline (a : Address) (t : Tag) : Owns (· = a) (storeInline a t) := by
  intro s s' hs hrun
  unfold storeInline at hrun
  cases hr : s.store.refusal? a with
  | some e => cases e <;> (rw [hr] at hrun; cases hrun)
  | none =>
      rw [hr] at hrun
      cases hrun
      have htakes := Store.takes_withInlineTag hs (Store.covers_of_refusal? hr) t
      refine ⟨⟨htakes.changed, rfl, rfl⟩, ?_⟩
      rintro _ rfl
      exact (htakes.regionKind _).trans (if_pos rfl)

theorem Move.owns_inline (m : Move) (f : RegFile) :
    Owns (m.Stores MemRef.codeAddress f) (m.inline f) := by
  intro s s' hs hrun
  have hsince : s.Since s' := by
    have hkeep := m.preserves_inline hs f s ⟨.refl, rfl, rfl⟩
    rw [hrun] at hkeep
    exact hkeep
  refine ⟨hsince, fun a ha => ?_⟩
  cases m with
  | load | copy | clear | union => exact ha.elim
  | block b =>
      dsimp only [inline] at hrun
      unfold focus at hrun
      cases hb : b.apply f s with
      | error e s₁ =>
          dsimp only [id] at hrun
          rw [hb] at hrun
          cases hrun
      | ok _ s₁ =>
          dsimp only [id] at hrun
          rw [hb] at hrun
          cases hrun
          exact (b.owns_apply f s s' hs hb).2 a ha
  | store src mem i =>
      have hsource : Preserves (· = s) (fun _ => True) (reported (Rule.sourceTag src)) :=
        preserves_reported (preserves_sourceTag src)
      replace hsource := hsource s rfl
      change (reported (Rule.sourceTag src) >>= fun t => saveAddress (mem.codeAddress f i) >>=
        fun _ => storeInline (mem.codeAddress f i) t) s = _ at hrun
      rw [bind_apply] at hrun
      cases ht : reported (Rule.sourceTag src) s with
      | error e s₁ =>
          rw [ht] at hrun
          cases hrun
      | ok t s₁ =>
          rw [ht] at hrun hsource
          cases hsource
          exact (owns_storeInline _ t (s.withSaved (mem.codeAddress f i)) s' hs hrun).2 a ha

theorem Store.not_blocked {s : Store} {words : Address → Prop}
    (hcovers : ∀ a, words a → s.layout.covers a = true)
    (hgranted : ∀ i, s.mapping.refuses (.commit i) = false) (e : ShadowError) :
    ¬ s.Blocked words e := by
  cases e with
  | invalidAddress a =>
      rintro ⟨ha, hc⟩
      rw [hcovers a ha] at hc
      contradiction
  | mapping r =>
      rintro ⟨-, hrefuses, a, -, -, rfl, -⟩
      rw [hgranted] at hrefuses
      contradiction
  | committedTwice base => exact id

theorem ExecError.not_blamedOn {blocked : ShadowError → Prop} (h : ∀ e, ¬ blocked e)
    (e : ExecError) : ¬ e.BlamedOn blocked := by
  intro he
  unfold BlamedOn at he
  split at he
  · exact h _ he
  · exact h _ he
  · rename_i e
    cases e with
    | shadow cause => exact h cause he
    | register e => exact he
  · exact he

/-- The store grants all commits and is as the store of a new world. -/
structure TagState.Ready (w : Window) (tracksPc : Bool) (s : TagState) : Prop where
  sound : s.Sound
  granted : ∀ i, s.store.mapping.refuses (.commit i) = false
  window : s.store.window = w
  tracksPc : s.thread.bank.tracksPc = tracksPc

theorem TagState.Ready.steady {w : Window} {tracksPc : Bool} {s s' : TagState}
    (h : s.Ready w tracksPc) (hsteady : s.Steady s') : s'.Ready w tracksPc where
  sound := h.sound.since hsteady.since
  granted := by
    rw [hsteady.mapping]
    exact h.granted
  window := hsteady.since.store.window.trans h.window
  tracksPc := hsteady.since.tracksPc.trans h.tracksPc

theorem InlineInstr.run_ready {w : Window} {tracksPc : Bool} {st : ExecState}
    (h : st.tags.Ready w tracksPc) {f : RegFile} {p : Plan} {code : List InlineInstr}
    (hcode : Lowered p.moves code) (hp : ∀ m ∈ p.moves, m.Tracked tracksPc)
    (hcovers : ∀ a, p.Accesses MemRef.codeAddress tracksPc f a → w.layout.covers a = true) :
    ∃ q, run f code st = .ok () q ∧ st.tags.Steady q.tags ∧
      ∀ m ∈ p.moves, ∀ a, m.Stores MemRef.codeAddress f a →
        q.tags.store.regionKind (w.layout.regionAt a) = .owned := by
  have hlayout : st.tags.store.layout = w.layout := congrArg Window.layout h.window
  have hblocked : ∀ e, ¬ st.tags.store.Blocked (p.Accesses MemRef.codeAddress tracksPc f) e :=
    Store.not_blocked (fun a ha => by rw [hlayout]; exact hcovers a ha) h.granted
  have hkeep := Plan.blamedOn_inline h.sound.consistent h.tracksPc f hp st.tags
    ⟨⟨.refl, rfl, rfl⟩, rfl⟩
  have howns := owns_forM (fun m (_ : m ∈ p.moves) => m.owns_inline f) st.tags
  have hmeaning : ExecState.forget (run f code st) = p.moves.forM (Move.inline f) st.tags :=
    run_lowered hcode h.sound rfl
  cases hrun : run f code st with
  | error e q =>
      -- A failure would have to be blamed on a word or on a commit, and none is to blame.
      rw [hrun] at hmeaning
      rw [← hmeaning] at hkeep
      exact absurd hkeep.2 (ExecError.not_blamedOn hblocked e)
  | ok _ q =>
      rw [hrun] at hmeaning
      rw [← hmeaning] at hkeep
      refine ⟨q, rfl, hkeep, fun m hm a ha => ?_⟩
      rw [← hlayout]
      exact (howns q.tags h.sound.consistent hmeaning.symm).2 a ⟨m, hm, ha⟩

theorem ThreadStep.perform_set (a : Address) (t : Tag) (st : ExecState) :
    (ThreadStep.set a t).perform st =
      match st.tags.store.refusal? a with
      | some e => .error (.shadow e) st
      | none => .ok () (st.withStore (st.tags.store.withTag a t)) := by
  have h : (ThreadStep.set a t).perform st = focus (fun st : ExecState => st.tags.store)
      (fun store st => st.withStore store) ExecError.shadow (Store.setTag a t) st := rfl
  rw [h, focus, Store.setTag_eq]
  cases st.tags.store.refusal? a <;> rfl

/-- A step keeps to the footprint in the state that it is taken in. -/
def ThreadStep.KeepsTo (F : Footprint) : ThreadStep → ExecState → Prop
  | .set a _, st => st.tags.store.layout.covers a = true ∧ F.writes (st.tags.store.layout.granule a)
  | .exec f i, st => i.KeepsTo F f st

namespace Task

variable {w : Window} {tracksPc : Bool} {F : Footprint}

/-- A task can be carried out to its end, keeps to the footprint meanwhile and gives memory to the
regions that it writes. -/
theorem alone {x : Task} (hx : x.Issued tracksPc)
    (hF : F.Holds w.layout (x.Accesses tracksPc) (x.Writes tracksPc)) {st : ExecState}
    (h : st.tags.Ready w tracksPc) :
    ∃ q, x.steps.forM ThreadStep.perform st = .ok () q ∧ st.tags.Steady q.tags ∧
      Along (ThreadStep.KeepsTo F) ThreadStep.perform x.steps st ∧
      ∀ a, x.Writes tracksPc a → q.tags.store.regionKind (w.layout.regionAt a) = .owned := by
  have hlayout : st.tags.store.layout = w.layout := congrArg Window.layout h.window
  cases hx with
  | set a t =>
      have hc : st.tags.store.layout.covers a = true := by
        rw [hlayout]
        exact hF.covers a rfl
      have hrun : (ThreadStep.set a t).perform st =
          .ok () (st.withStore (st.tags.store.withTag a t)) := by
        rw [ThreadStep.perform_set,
          Store.refusal?_willing fun i => Store.refusesRegion_granted (h.granted i), hc]
        rfl
      have htakes := Store.takes_withTag h.sound.consistent hc t
      refine ⟨st.withStore (st.tags.store.withTag a t), ?_,
        ⟨⟨htakes.changed, rfl, rfl⟩, htakes.mapping⟩, ⟨⟨hc, ?_⟩, fun _ _ => trivial⟩, ?_⟩
      · rw [steps, forM_singleton]
        exact hrun
      · rw [hlayout]
        exact hF.writes a rfl
      · rintro _ rfl
        rw [← hlayout]
        exact (htakes.regionKind _).trans (if_pos rfl)
  | @code _ _ em _ hem y _ hy a a' hpc i code hcode f =>
      have hplan := inlineCode_reliable hem (a := a) hy i
      have htracked := Analyzer.analyze_tracked i a
      cases hanalyze : Analyzer.analyze i a with
      | error g a₁ =>
          rw [hanalyze, hcode] at hplan
          cases hplan
      | ok plan a₁ =>
          rw [hanalyze] at hplan htracked
          obtain ⟨code', y₁, hcode', -, hlowered⟩ := hplan
          rw [hcode] at hcode'
          cases hcode'
          have hmoves := Analyzer.analyze_moves hanalyze
          rw [hpc] at hmoves
          have hp : ∀ m ∈ plan.moves, m.Tracked tracksPc := hpc ▸ htracked.2
          obtain ⟨q, hrun, hsteady, howned⟩ := InlineInstr.run_ready (f := f) h hlowered hp
            fun a ⟨m, hm, ha⟩ => hF.covers a ⟨m, hmoves ▸ hm, ha⟩
          refine ⟨q, ?_, hsteady, ?_, fun a ⟨m, hm, ha⟩ => howned m (hmoves ▸ hm) a ha⟩
          · rw [steps, forM_map]
            exact hrun
          · refine along_map (ThreadStep.exec f) (fun _ => rfl) (fun _ _ hi => hi)
              (InlineInstr.confined_lowered hlowered h.sound fun m hm => ?_)
            have htracks : ∀ r, st.tags.thread.tracks r = r.isTracked tracksPc := fun r =>
              congrArg r.isTracked h.tracksPc
            simp only [hlayout, htracks]
            exact ⟨fun a ha => hF.covers a ⟨m, hmoves ▸ hm, ha⟩,
              fun a ha => hF.accesses a ⟨m, hmoves ▸ hm, ha⟩,
              fun a ha => hF.writes a ⟨m, hmoves ▸ hm, ha⟩⟩

theorem all_alone {xs : List Task} (hissued : ∀ x ∈ xs, x.Issued tracksPc)
    (hF : ∀ x ∈ xs, F.Holds w.layout (x.Accesses tracksPc) (x.Writes tracksPc)) {st : ExecState}
    (h : st.tags.Ready w tracksPc) :
    ∃ q, (xs.flatMap steps).forM ThreadStep.perform st = .ok () q ∧ st.tags.Steady q.tags ∧
      Along (ThreadStep.KeepsTo F) ThreadStep.perform (xs.flatMap steps) st ∧
      ∀ x ∈ xs, ∀ a, x.Writes tracksPc a →
        q.tags.store.regionKind (w.layout.regionAt a) = .owned := by
  induction xs generalizing st with
  | nil => exact ⟨st, rfl, ⟨⟨.refl, rfl, rfl⟩, rfl⟩, trivial, nofun⟩
  | cons x xs ih =>
      obtain ⟨q₁, hx, hsteady, halong, howned⟩ :=
        alone (hissued x List.mem_cons_self) (hF x List.mem_cons_self) h
      obtain ⟨q, hxs, hsteady', halong', howned'⟩ :=
        ih (fun y hy => hissued y (List.mem_cons_of_mem x hy))
          (fun y hy => hF y (List.mem_cons_of_mem x hy)) (h.steady hsteady)
      rw [List.flatMap_cons]
      refine ⟨q, ?_, hsteady.trans hsteady', along_append halong fun q₂ hx' => ?_, ?_⟩
      · rw [forM_append, bind_ok hx, hxs]
      · rw [hx] at hx'
        cases hx'
        exact halong'
      · intro y hy a ha
        rcases List.mem_cons.mp hy with rfl | hy
        · exact hsteady'.since.store.regionKind (h.steady hsteady).sound.consistent (howned a ha)
        · exact howned' y hy a ha

end Task

/-! ## Threads together -/

theorem ThreadStep.follows_perform {F : Footprint} {st : ExecState} {shared : TagState}
    (h : Sees F st.tags shared) {x : ThreadStep} (hx : x.KeepsTo F st) {q : ExecState}
    (hrun : x.perform st = .ok () q) :
    ∃ shared', x.perform (st.withTags shared) = .ok () (q.withTags shared') ∧
      Follows F st.tags shared q.tags shared' := by
  cases x with
  | exec f i => exact InlineInstr.follows_exec h hx hrun
  | set a t =>
      obtain ⟨hc, hwrites⟩ := hx
      have hrefusal : ∀ {s : Store}, s.layout = st.tags.store.layout →
          (∀ i, s.mapping.refuses (.commit i) = false) → s.refusal? a = none := by
        intro s hlayout hgranted
        rw [Store.refusal?_willing fun i => Store.refusesRegion_granted (hgranted i), hlayout, hc]
        rfl
      have hc' : shared.store.layout.covers a = true := by
        rw [h.layout]
        exact hc
      have htakes' := Store.takes_withTag h.shared_consistent hc' t
      rw [h.layout] at htakes'
      rw [perform_set, hrefusal rfl h.granted] at hrun
      cases hrun
      refine ⟨{ shared with store := shared.store.withTag a t }, ?_,
        (Follows.refl h).takes hwrites (Store.takes_withTag h.consistent hc t) htakes'⟩
      rw [perform_set, ExecState.tags_withTags, hrefusal h.layout h.shared_granted]
      rfl

namespace World

/-- Thread `k` takes a step. It has an executor of its own. -/
def turn (k : Nat) (x : ThreadStep) : Action World ExecError Unit :=
  focus (fun v => v.entered k k) (fun st v => v.left k k st) id x.perform

/-- Threads take steps in the order of the schedule. -/
def perform (schedule : List (Nat × ThreadStep)) : Action World ExecError Unit :=
  schedule.forM fun x => turn x.1 x.2

/-- The steps that a thread takes in a schedule. -/
def stepsOf (schedule : List (Nat × ThreadStep)) (k : Nat) : List ThreadStep :=
  (schedule.filter fun x => x.1 == k).map Prod.snd

/-- Every thread has come as far as it has come alone, and the store holds what the threads have
written. -/
structure Composed (w : Window) (F : Nat → Footprint) (alone : Nat → ExecState) (v : World) :
    Prop where
  window : v.store.window = w
  lazy : v.store.backend = .lazy
  sees : ∀ k, Sees (F k) (alone k).tags ⟨v.store, v.threads k⟩
  scratch : ∀ k, v.scratch k = (alone k).scratch
  clean : ∀ o, (∀ k, ¬ (F k).writes o) → v.store.bytes.read o = 0
  gained : ∀ i, v.store.regionKind i = .owned → ∃ k o, (F k).writes o ∧ w.layout.regionOf o = i

namespace Composed

variable {w : Window} {F : Nat → Footprint} {alone : Nat → ExecState} {v : World}

theorem of_create {m : Mapping} (hnew : Store.create .lazy w m = .ok v.store)
    (hgranted : ∀ i, m.refuses (.commit i) = false) : Composed w F (fun k => v.entered k k) v := by
  have hstore := Store.of_create_eq_ok hnew
  have hconsistent := Store.consistent_create hnew
  have hmapping : ∀ i, v.store.mapping.refuses (.commit i) = false := by
    rw [hstore]
    exact hgranted
  refine ⟨?_, ?_, fun k => ⟨hconsistent, hconsistent, hmapping, hmapping, rfl, rfl,
    fun _ _ => rfl, fun _ hi => hi⟩, fun _ => rfl, fun o _ => ?_, fun i hi => ?_⟩
  · rw [hstore]
  · rw [hstore]
    rfl
  · rw [hstore]
    exact Memory.read_zero o
  · rw [hstore] at hi
    simp [Store.regionKind, Store.fresh] at hi

section Schedules

variable (hapart : ∀ k l, k ≠ l → ∀ o, (F k).accesses o → ¬ (F l).writes o)
include hapart

theorem turn (h : Composed w F alone v) {k : Nat} {x : ThreadStep}
    (hx : x.KeepsTo (F k) (alone k)) {q : ExecState} (hrun : x.perform (alone k) = .ok () q) :
    ∃ v', World.turn k x v = .ok () v' ∧ Composed w F (Function.update alone k q) v' := by
  obtain ⟨shared, hshared, hfollows⟩ := x.follows_perform (h.sees k) hx hrun
  have hentered : v.entered k k = (alone k).withTags ⟨v.store, v.threads k⟩ := by
    rw [entered, h.scratch]
    rfl
  refine ⟨v.left k k (q.withTags shared), ?_, ?_⟩
  · rw [World.turn, focus, hentered, hshared]
  have hsince := hfollows.shared.since
  refine ⟨hsince.store.window.trans h.window, hsince.store.backend.trans h.lazy, fun l => ?sees,
    fun l => ?scratch, fun o ho => ?clean, fun i hi => ?gained⟩
  case sees =>
    dsimp only [left]
    by_cases hl : l = k
    · subst hl
      rw [Function.update_self, Function.update_self]
      exact hfollows.sees
    -- What the other thread accesses has not been written.
    · rw [Function.update_of_ne hl, Function.update_of_ne hl]
      have hother := h.sees l
      refine ⟨hother.consistent, hfollows.sees.shared_consistent, hother.granted,
        hfollows.sees.shared_granted, hsince.store.window.trans hother.window, hother.thread,
        fun o ho => ?_, fun i hi => ?_⟩
      · exact (hfollows.kept o (hapart l k hl o ho)).trans (hother.read o ho)
      · exact hsince.store.regionKind hother.shared_consistent (hother.owned i hi)
  case scratch =>
    dsimp only [left]
    by_cases hl : l = k
    · subst hl
      rw [Function.update_self, Function.update_self]
      rfl
    · rw [Function.update_of_ne hl, Function.update_of_ne hl, h.scratch]
  case clean => exact (hfollows.kept o (ho k)).trans (h.clean o ho)
  case gained =>
    rcases hfollows.gained i hi with hi | ⟨o, ho, hregion⟩
    · exact h.gained i hi
    · exact ⟨k, o, ho, h.window ▸ hregion⟩

/-- Whatever the schedule, every thread ends where it ends alone. -/
theorem perform {schedule : List (Nat × ThreadStep)} (h : Composed w F alone v)
    (halong : ∀ k, Along (ThreadStep.KeepsTo (F k)) ThreadStep.perform (stepsOf schedule k)
      (alone k)) {final : Nat → ExecState}
    (hruns : ∀ k, (stepsOf schedule k).forM ThreadStep.perform (alone k) = .ok () (final k)) :
    ∃ v', World.perform schedule v = .ok () v' ∧ Composed w F final v' := by
  -- The thread that is next takes its first step alone as well; the others wait in both.
  induction schedule generalizing alone v with
  | nil =>
      have hfinal : final = alone := funext fun k => by
        injection hruns k with _ hk
        exact hk.symm
      exact ⟨v, rfl, hfinal ▸ h⟩
  | cons step rest ih =>
      obtain ⟨k, x⟩ := step
      have hfirst : stepsOf ((k, x) :: rest) k = x :: stepsOf rest k := by simp [stepsOf]
      have hothers : ∀ l, l ≠ k → stepsOf ((k, x) :: rest) l = stepsOf rest l := by
        intro l hl
        simp [stepsOf, Ne.symm hl]
      have hrun := hruns k
      have hkeeps := halong k
      rw [hfirst] at hrun hkeeps
      obtain ⟨q, hx, hrest⟩ := forM_cons_eq_ok.mp hrun
      obtain ⟨v₁, hturn, h₁⟩ := h.turn hapart hkeeps.1 hx
      have halong' : ∀ l, Along (ThreadStep.KeepsTo (F l)) ThreadStep.perform (stepsOf rest l)
          (Function.update alone k q l) := by
        intro l
        by_cases hl : l = k
        · subst hl
          rw [Function.update_self]
          exact hkeeps.2 q hx
        · rw [Function.update_of_ne hl, ← hothers l hl]
          exact halong l
      have hruns' : ∀ l, (stepsOf rest l).forM ThreadStep.perform (Function.update alone k q l) =
          .ok () (final l) := by
        intro l
        by_cases hl : l = k
        · subst hl
          rw [Function.update_self]
          exact hrest
        · rw [Function.update_of_ne hl, ← hothers l hl]
          exact hruns l
      obtain ⟨v', hperform, hend⟩ := ih h₁ halong' hruns'
      exact ⟨v', forM_cons_eq_ok.mpr ⟨v₁, hturn, hperform⟩, hend⟩

end Schedules

/-! ## What the order leaves open -/

variable {v' : World}

theorem threads (h : Composed w F alone v) (h' : Composed w F alone v') : v'.threads = v.threads :=
  funext fun k => (h'.sees k).thread.trans (h.sees k).thread.symm

theorem tagOf (h : Composed w F alone v) (h' : Composed w F alone v')
    (hF : ∀ k o, (F k).writes o → (F k).accesses o) (a : Address) :
    v'.store.tagOf a = v.store.tagOf a := by
  have hread : ∀ o, v'.store.bytes.read o = v.store.bytes.read o := by
    intro o
    by_cases ho : ∃ k, (F k).writes o
    · obtain ⟨k, ho⟩ := ho
      exact ((h'.sees k).read o (hF k o ho)).trans ((h.sees k).read o (hF k o ho)).symm
    · have hnone : ∀ k, ¬ (F k).writes o := fun k hk => ho ⟨k, hk⟩
      exact (h'.clean o hnone).trans (h.clean o hnone).symm
  rw [Store.tagOf_eq, Store.tagOf_eq, Store.layout, h'.window, Store.layout, h.window, hread]

theorem mem_privateRegions (h : Composed w F alone v)
    (hin : ∀ k o, (F k).writes o → o < w.layout.shadowLength)
    (howned : ∀ k o, (F k).writes o →
      (alone k).tags.store.regionKind (w.layout.regionOf o) = .owned) (i : Nat) :
    i ∈ v.store.privateRegions ↔ ∃ k o, (F k).writes o ∧ w.layout.regionOf o = i := by
  rw [Store.mem_privateRegions, Store.layout, h.window]
  constructor
  · exact fun hi => h.gained i hi.2
  · rintro ⟨k, o, ho, rfl⟩
    exact ⟨Layout.regionOf_lt_regions (hin k o ho), (h.sees k).owned _ (howned k o ho)⟩

theorem regionCount (h : Composed w F alone v) :
    v.store.regionCount = {i | i ∈ v.store.privateRegions}.ncard := by
  have hdistinct : v.store.privateRegions.Nodup := v.store.privateRegions_sorted.imp Nat.ne_of_lt
  have hset : {i | i ∈ v.store.privateRegions} = (v.store.privateRegions.toFinset : Set Nat) :=
    (List.coe_toFinset _).symm
  rw [hset, Set.ncard_coe_finset, List.toFinset_card_of_nodup hdistinct]
  exact Store.regionCount_eq (h.sees 0).shared_consistent h.lazy

end Composed

/-- The words whose tags a thread reads or writes. -/
def Accesses (v : World) (tasks : Nat → List Task) (k : Nat) (a : Address) : Prop :=
  ∃ x ∈ tasks k, x.Accesses (v.threads k).bank.tracksPc a

/-- The words whose tags a thread writes. -/
def Writes (v : World) (tasks : Nat → List Task) (k : Nat) (a : Address) : Prop :=
  ∃ x ∈ tasks k, x.Writes (v.threads k).bank.tracksPc a

theorem Writes.accesses {v : World} {tasks : Nat → List Task} {k : Nat} {a : Address}
    (h : v.Writes tasks k a) : v.Accesses tasks k a :=
  let ⟨x, hx, ha⟩ := h
  ⟨x, hx, x.accesses_of_writes ha⟩

/-- The granules of the words that a thread accesses. -/
def footprint (v : World) (tasks : Nat → List Task) (k : Nat) : Footprint where
  accesses := fun o => ∃ a, v.Accesses tasks k a ∧ v.store.layout.granule a = o
  writes := fun o => ∃ a, v.Writes tasks k a ∧ v.store.layout.granule a = o

/-- The schedule takes all steps of all threads, those of each thread in their order. -/
def Interleaves (tasks : Nat → List Task) (schedule : List (Nat × ThreadStep)) : Prop :=
  ∀ k, stepsOf schedule k = (tasks k).flatMap Task.steps

/-- The threads have ends that they reach in every order. -/
theorem exists_composed {m : Mapping} {v : World}
    (hnew : Store.create .lazy v.store.window m = .ok v.store)
    (hgranted : ∀ i, m.refuses (.commit i) = false)
    (hout : ∀ k, (v.threads k).Outside v.store.window) {tasks : Nat → List Task}
    (hissued : ∀ k, ∀ x ∈ tasks k, x.Issued (v.threads k).bank.tracksPc)
    (hcovers : ∀ k a, v.Accesses tasks k a → v.store.layout.covers a = true)
    (hapart : ∀ k l, k ≠ l → ∀ a b, v.Accesses tasks k a → v.Writes tasks l b →
      v.store.layout.granule a ≠ v.store.layout.granule b) :
    ∃ final : Nat → ExecState,
      (∀ k a, v.Writes tasks k a →
        (final k).tags.store.regionKind (v.store.layout.regionAt a) = .owned) ∧
      ∀ schedule, Interleaves tasks schedule → ∃ u, perform schedule v = .ok () u ∧
        Composed v.store.window (v.footprint tasks) final u := by
  have hstart : Composed v.store.window (v.footprint tasks) (fun k => v.entered k k) v :=
    .of_create hnew hgranted
  have hready : ∀ k,
      (v.entered k k).tags.Ready v.store.window (v.threads k).bank.tracksPc := fun k =>
    ⟨⟨Store.consistent_create hnew, hout k⟩, (hstart.sees k).granted, rfl, rfl⟩
  have hF : ∀ k, ∀ x ∈ tasks k, (v.footprint tasks k).Holds v.store.layout
      (x.Accesses (v.threads k).bank.tracksPc) (x.Writes (v.threads k).bank.tracksPc) :=
    fun k x hx => ⟨fun a ha => hcovers k a ⟨x, hx, ha⟩, fun a ha => ⟨a, ⟨x, hx, ha⟩, rfl⟩,
      fun a ha => ⟨a, ⟨x, hx, ha⟩, rfl⟩⟩
  -- Every thread can run alone from the state that it starts in.
  choose final hruns _ halong howned using
    fun k => Task.all_alone (hissued k) (hF k) (hready k)
  refine ⟨final, fun k a ⟨x, hx, ha⟩ => howned k x hx a ha, fun schedule hschedule => ?_⟩
  have hapart' : ∀ k l, k ≠ l → ∀ o, (v.footprint tasks k).accesses o →
      ¬ (v.footprint tasks l).writes o := by
    rintro k l hkl o ⟨a, ha, rfl⟩ ⟨b, hb, hab⟩
    exact hapart k l hkl a b ha hb hab.symm
  refine hstart.perform hapart' (fun k => ?_) fun k => ?_
  · rw [hschedule k]
    exact halong k
  · rw [hschedule k]
    exact hruns k

/-- Threads that share a new lazy store, and none of which accesses a granule that another one
writes, end alike in whichever order they take their steps: with the same tags and slots, the same
tags in the store, and private regions exactly where they have written. No step fails. -/
theorem interleavings_agree {w : Window} {m : Mapping} {v : World}
    (hnew : Store.create .lazy w m = .ok v.store) (hgranted : ∀ i, m.refuses (.commit i) = false)
    (hout : ∀ k, (v.threads k).Outside w) {tasks : Nat → List Task}
    (hissued : ∀ k, ∀ x ∈ tasks k, x.Issued (v.threads k).bank.tracksPc)
    (hcovers : ∀ k a, v.Accesses tasks k a → w.layout.covers a = true)
    (hapart : ∀ k l, k ≠ l → ∀ a b, v.Accesses tasks k a → v.Writes tasks l b →
      w.layout.granule a ≠ w.layout.granule b)
    {xs ys : List (Nat × ThreadStep)} (hxs : Interleaves tasks xs) (hys : Interleaves tasks ys) :
    ∃ u u', perform xs v = .ok () u ∧ perform ys v = .ok () u' ∧ u'.threads = u.threads ∧
      (∀ a, u'.store.tagOf a = u.store.tagOf a) ∧
      u'.store.privateRegions = u.store.privateRegions ∧
      u'.store.regionCount = u.store.regionCount ∧
      (∀ i, i ∈ u.store.privateRegions ↔ ∃ k a, v.Writes tasks k a ∧ w.layout.regionAt a = i) ∧
      u.store.regionCount = {i | ∃ k a, v.Writes tasks k a ∧ w.layout.regionAt a = i}.ncard := by
  have hwindow : v.store.window = w := by rw [Store.of_create_eq_ok hnew]
  subst hwindow
  obtain ⟨final, howned, hend⟩ := exists_composed hnew hgranted hout hissued hcovers hapart
  -- The ends of the threads do not depend on the schedule, and neither does what they compose.
  obtain ⟨u, hu, hcomposed⟩ := hend xs hxs
  obtain ⟨u', hu', hcomposed'⟩ := hend ys hys
  -- Every thread has stored to the words it writes, so their regions are private.
  have hprivate : ∀ {u}, Composed v.store.window (v.footprint tasks) final u → ∀ i,
      i ∈ u.store.privateRegions ↔ ∃ k a, v.Writes tasks k a ∧ v.store.layout.regionAt a = i := by
    intro u hu i
    rw [hu.mem_privateRegions]
    · constructor
      · rintro ⟨k, _, ⟨a, ha, rfl⟩, hi⟩
        exact ⟨k, a, ha, hi⟩
      · rintro ⟨k, a, ha, hi⟩
        exact ⟨k, _, ⟨a, ha, rfl⟩, hi⟩
    · rintro k _ ⟨a, ha, rfl⟩
      exact Layout.granule_lt_shadowLength (hcovers k a ha.accesses)
    · rintro k _ ⟨a, ha, rfl⟩
      exact howned k a ha
  have hregions : u'.store.privateRegions = u.store.privateRegions := by
    apply u'.store.privateRegions_sorted.eq_of_mem_iff u.store.privateRegions_sorted
    intro i
    rw [hprivate hcomposed', hprivate hcomposed]
  refine ⟨u, u', hu, hu', hcomposed.threads hcomposed', hcomposed.tagOf hcomposed' ?_, hregions,
    ?_, hprivate hcomposed, ?_⟩
  · rintro k _ ⟨a, ha, rfl⟩
    exact ⟨a, ha.accesses, rfl⟩
  · rw [hcomposed'.regionCount, hregions, hcomposed.regionCount]
  · rw [hcomposed.regionCount]
    exact congrArg Set.ncard (Set.ext (hprivate hcomposed))

/-- One thread stores a tag, another one sets that of a word nearby. -/
def neighbours : Nat → List Task
  | 0 => [.code .storing (RegFile.zero.set ⟨4⟩ 0x1000)
      (InlineInstr.storeWord (some ⟨1⟩) (.beside ⟨4⟩ 8) ⟨0⟩ ⟨1⟩)]
  | 1 => [.set 0x1018 3]
  | _ => []

/-- The first thread takes some steps, then the second one its only step. -/
def overtaking (n : Nat) : List (Nat × ThreadStep) :=
  let steps := ((neighbours 0).flatMap Task.steps).map fun x => (0, x)
  steps.take n ++ (1, .set 0x1018 3) :: steps.drop n

/-- Alone, the store of the first thread would fault; here its region has been given memory since
the address was translated. -/
theorem interleavings_agree_overtaken :
    let v := outcome (perform (overtaking 5)) (fresh .lazy .small)
    v.2.store.tagOf 0x1008 = .ok 5 ∧ v.2.store.regionCount = 1 := by
  intro v
  have hnew : Store.create .lazy .small .granting = .ok (fresh .lazy .small).store := rfl
  have hout : ThreadContext.tainted.Outside .small := by decide
  have hissued : ∀ k, ∀ x ∈ neighbours k, x.Issued true := by
    intro k x hx
    rcases k with _ | _ | k
    · have hem := CodeBuffer.reliable [⟨0⟩, ⟨1⟩] (by decide) (by decide) (by decide)
      obtain ⟨code, y, hcode, -⟩ := inlineCode_reliable hem (a := .new .strict true)
        (x := .new [⟨0⟩, ⟨1⟩] none none) ⟨rfl, rfl, rfl⟩ .storing
      have hlist : (outcome (Analyzer.inlineCode CodeBuffer.emitter .storing)
          (.new .strict true, .new [⟨0⟩, ⟨1⟩] none none)).1.toOption =
            some (InlineInstr.storeWord (some ⟨1⟩) (.beside ⟨4⟩ 8) ⟨0⟩ ⟨1⟩) := by
        decide +kernel
      rw [outcome, hcode] at hlist
      cases hlist
      cases List.mem_singleton.mp hx
      exact .code hem ⟨rfl, rfl, rfl⟩ rfl hcode _
    · cases List.mem_singleton.mp hx
      exact .set _ _
    · cases hx
  have haccesses : ∀ k a, (fresh .lazy .small).Accesses neighbours k a →
      (k = 0 ∧ a = 0x1008) ∨ (k = 1 ∧ a = 0x1018) := by
    rintro k a ⟨x, hx, ha⟩
    rcases k with _ | _ | k
    · cases List.mem_singleton.mp hx
      obtain ⟨m, hm, ha⟩ := ha
      cases List.mem_singleton.mp hm
      exact Or.inl ⟨rfl, ha⟩
    · cases List.mem_singleton.mp hx
      exact Or.inr ⟨rfl, ha⟩
    · cases hx
  have hcovers : ∀ k a, (fresh .lazy .small).Accesses neighbours k a →
      Window.small.layout.covers a = true := by
    intro k a ha
    rcases haccesses k a ha with ⟨-, rfl⟩ | ⟨-, rfl⟩ <;> decide
  have hapart : ∀ k l, k ≠ l → ∀ a b, (fresh .lazy .small).Accesses neighbours k a →
      (fresh .lazy .small).Writes neighbours l b →
        Window.small.layout.granule a ≠ Window.small.layout.granule b := by
    intro k l hkl a b ha hb
    rcases haccesses k a ha with ⟨rfl, rfl⟩ | ⟨rfl, rfl⟩ <;>
      rcases haccesses l b hb.accesses with ⟨rfl, rfl⟩ | ⟨rfl, rfl⟩
    · exact absurd rfl hkl
    · decide
    · decide
    · exact absurd rfl hkl
  have hschedule : ∀ n, n = 5 ∨ n = 6 → Interleaves neighbours (overtaking n) := by
    rintro n (rfl | rfl) (_ | _ | k) <;> rfl
  obtain ⟨u, u', hu, hu', -, htag, -, hcount, -⟩ := interleavings_agree hnew (fun _ => rfl)
    (fun _ => hout) hissued hcovers hapart (hschedule 6 (by decide)) (hschedule 5 (by decide))
  have hfirst : (outcome (perform (overtaking 6)) (fresh .lazy .small)).2 = u := by
    rw [outcome, hu]
  have hv : v.2 = u' := by
    dsimp only [v]
    rw [outcome, hu']
  rw [hv, htag, hcount, ← hfirst]
  exact ⟨by decide +kernel, by decide +kernel⟩

end World

end TaintFlow
