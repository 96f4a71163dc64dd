import Mathlib.Data.List.Basic
import TaintFlow.Proofs.Plan.Moves

/-!
# Selected rules

The rules of an instruction name only registers whose tag is maintained, whatever its operands are.
Carrying them out can therefore not fail on a register. What they write are destinations of the
instruction, or registers that a branch sets.
-/

namespace TaintFlow

theorem mem_of_mem_dropRepeats {r : Reg} {rs : List Reg} (h : r ∈ dropRepeats rs) : r ∈ rs := by
  induction rs using dropRepeats.induct with
  | case1 b rest ih =>
      rw [dropRepeats, if_pos rfl] at h
      exact List.mem_cons_of_mem _ (ih h)
  | case2 a b rest hne ih =>
      rw [dropRepeats, if_neg hne, List.mem_cons] at h
      rcases h with h | h
      · exact h ▸ List.mem_cons_self
      · exact List.mem_cons_of_mem _ (ih h)
  | case3 rs hshort =>
      rw [dropRepeats] at h
      · exact h
      · exact hshort

namespace Rule

/-- Every register of the rule has a tag. -/
def Tracked (tracksPc : Bool) : Rule → Prop
  | .load dsts _ => ∀ r ∈ dsts, r.isTracked tracksPc = true
  | .store srcs _ => ∀ r, some r ∈ srcs → r.isTracked tracksPc = true
  | .copy dst src => dst.isTracked tracksPc = true ∧ src.isTracked tracksPc = true
  | .clear dst => dst.isTracked tracksPc = true
  | .union dst srcs =>
      dst.isTracked tracksPc = true ∧ ∀ r ∈ srcs, r.isTracked tracksPc = true
  | .block _ => True

/-- The rule writes nothing but the register. -/
def Targets (dst : Reg) : Rule → Prop
  | .copy d _ => d = dst
  | .clear d => d = dst
  | .union d _ => d = dst
  | _ => False

/-- The rule sets the tag of the register, and all registers that it names have tags. -/
structure Sets (tracksPc : Bool) (dst : Reg) (r : Rule) : Prop where
  tracked : r.Tracked tracksPc
  targets : r.Targets dst

variable {tracksPc : Bool} {dst : Reg}

theorem sets_clear? : ∀ r ∈ clear? tracksPc dst, r.Sets tracksPc dst := by
  intro r h
  unfold clear? at h
  split at h
  · rename_i hdst
    cases h
    exact ⟨hdst, rfl⟩
  · cases h

theorem sets_copy? {src : Reg} : ∀ r ∈ copy? tracksPc dst src, r.Sets tracksPc dst := by
  intro r h
  unfold copy? at h
  split at h
  · cases h
  · rename_i hdst
    have hdst' : dst.isTracked tracksPc = true := by simpa using hdst
    -- A copy from an untracked register becomes a clear.
    split at h
    · rename_i hsrc
      cases h
      exact ⟨⟨hdst', hsrc⟩, rfl⟩
    · cases h
      exact ⟨hdst', rfl⟩

theorem sets_union? {srcs : List Reg} :
    ∀ r ∈ union? tracksPc dst srcs, r.Sets tracksPc dst := by
  intro r h
  unfold union? at h
  split at h
  · exact sets_clear? r h
  · exact sets_copy? r h
  · split at h
    · rename_i hdst
      cases h
      refine ⟨⟨hdst, fun q hq => ?_⟩, rfl⟩
      exact (List.mem_filter.mp (mem_of_mem_dropRepeats hq)).2
    · cases h

end Rule

namespace Instr

variable {tracksPc : Bool} {i : Instr} {rules : List Rule}

theorem eq_reg_of_reg?_eq_some {o : Operand} {r : Reg} (h : o.reg? = some r) : o = .reg r := by
  cases o <;> cases h
  rfl

theorem reg_mem_of_head? {ops : List Operand} {r : Reg} (h : ops.head?.bind Operand.reg? = some r) :
    .reg r ∈ ops := by
  obtain ⟨o, ho, hr⟩ := Option.bind_eq_some_iff.mp h
  exact eq_reg_of_reg?_eq_some hr ▸ List.mem_of_head? ho

theorem reg_mem_of_filterMap {ops : List Operand} {r : Reg}
    (h : r ∈ ops.filterMap Operand.reg?) : .reg r ∈ ops := by
  obtain ⟨o, ho, hr⟩ := List.mem_filterMap.mp h
  exact eq_reg_of_reg?_eq_some hr ▸ ho

/-- The rule loads registers among the destinations. -/
def Loads (tracksPc : Bool) (i : Instr) (r : Rule) : Prop :=
  ∃ dsts mem, r = .load dsts mem ∧
    ∀ dst ∈ dsts, .reg dst ∈ i.dsts ∧ dst.isTracked tracksPc = true

/-- The rule stores through the first memory destination. -/
def Stores (tracksPc : Bool) (words : Nat) (i : Instr) (r : Rule) : Prop :=
  ∃ srcs mem, r = .store srcs mem ∧ i.dsts.findSome? Operand.mem? = some mem ∧
    srcs.length ≤ words ∧ ∀ src, some src ∈ srcs → src.isTracked tracksPc = true

/-- The rule sets a register among the destinations. -/
def SetsDst (tracksPc : Bool) (i : Instr) (r : Rule) : Prop :=
  ∃ dst, .reg dst ∈ i.dsts ∧ r.Sets tracksPc dst

/-- What a rule of the instruction may be, for each effect of the opcode. -/
def Selects (tracksPc : Bool) (i : Instr) (r : Rule) : Prop :=
  match i.opcode.effect with
  | .load _ => i.Loads tracksPc r
  | .store words => i.Stores tracksPc words r
  | .storeExclusive => i.Stores tracksPc 1 r ∨ i.SetsDst tracksPc r
  | .transform => i.SetsDst tracksPc r
  | .combine => i.SetsDst tracksPc r
  | .accumulate => i.SetsDst tracksPc r
  | .link => tracksPc = true ∧ (r.Sets tracksPc .lr ∨ r.Sets tracksPc .pc)
  | .branch => tracksPc = true ∧ r.Sets tracksPc .pc
  | .blockTransfer => ∃ b, BlockTransfer.ofInstr? i = some b ∧ r = .block b
  | .nothing => False
  | .unknown => False

theorem loads_loadRules? {words : Nat} (h : i.loadRules? tracksPc words = some rules) :
    ∀ r ∈ rules, i.Loads tracksPc r := by
  unfold loadRules? at h
  obtain ⟨mem, -, h⟩ := Option.bind_eq_some_iff.mp h
  obtain ⟨-, -, h⟩ := Option.bind_eq_some_iff.mp h
  cases h
  intro r hr
  split at hr
  · cases hr
  · cases List.mem_singleton.mp hr
    refine ⟨_, mem, rfl, fun dst hdst => ?_⟩
    obtain ⟨hdst, htracked⟩ := List.mem_filter.mp hdst
    exact ⟨reg_mem_of_filterMap (List.mem_of_mem_take hdst), htracked⟩

theorem stores_storeRules? {words : Nat} (h : i.storeRules? tracksPc words = some rules) :
    ∀ r ∈ rules, i.Stores tracksPc words r := by
  unfold storeRules? at h
  obtain ⟨mem, hmem, h⟩ := Option.bind_eq_some_iff.mp h
  obtain ⟨-, -, h⟩ := Option.bind_eq_some_iff.mp h
  cases h
  intro r hr
  cases List.mem_singleton.mp hr
  refine ⟨_, mem, rfl, hmem, ?_, fun src hsrc => ?_⟩
  · rw [List.length_map]
    exact List.length_take_le _ _
  · obtain ⟨q, -, hq⟩ := List.mem_map.mp hsrc
    split at hq
    · rename_i htracked
      cases hq
      exact htracked
    · cases hq

theorem setsDst_toList {dst : Reg} (hdst : .reg dst ∈ i.dsts) {rule? : Option Rule}
    (h : ∀ r ∈ rule?, r.Sets tracksPc dst) : ∀ r ∈ rule?.toList, i.SetsDst tracksPc r :=
  fun r hr => ⟨dst, hdst, h r (Option.mem_toList.mp hr)⟩

theorem setsDst_statusRules : ∀ r ∈ i.statusRules tracksPc, i.SetsDst tracksPc r := by
  intro r hr
  rw [statusRules, Option.mem_toList] at hr
  obtain ⟨dst, hdst, hr⟩ := Option.bind_eq_some_iff.mp hr
  obtain ⟨o, ho, hreg⟩ := List.exists_of_findSome?_eq_some hdst
  exact ⟨dst, eq_reg_of_reg?_eq_some hreg ▸ ho, Rule.sets_clear? r hr⟩

theorem setsDst_transformRules? (h : i.transformRules? tracksPc = some rules) :
    ∀ r ∈ rules, i.SetsDst tracksPc r := by
  unfold transformRules? at h
  obtain ⟨dst, hdst, h⟩ := Option.bind_eq_some_iff.mp h
  have hmem := reg_mem_of_head? hdst
  split at h <;> cases h
  · exact setsDst_toList hmem Rule.sets_copy?
  · exact setsDst_toList hmem Rule.sets_clear?

theorem setsDst_combineRules? (h : i.combineRules? tracksPc = some rules) :
    ∀ r ∈ rules, i.SetsDst tracksPc r := by
  unfold combineRules? at h
  obtain ⟨dst, hdst, h⟩ := Option.bind_eq_some_iff.mp h
  have hmem := reg_mem_of_head? hdst
  split at h <;> cases h
  · exact setsDst_toList hmem Rule.sets_copy?
  · exact setsDst_toList hmem Rule.sets_clear?
  · exact setsDst_toList hmem Rule.sets_union?
  · exact setsDst_toList hmem Rule.sets_copy?
  · exact setsDst_toList hmem Rule.sets_copy?
  · exact setsDst_toList hmem Rule.sets_clear?

theorem setsDst_accumulateRules? (h : i.accumulateRules? tracksPc = some rules) :
    ∀ r ∈ rules, i.SetsDst tracksPc r := by
  unfold accumulateRules? at h
  obtain ⟨-, -, h⟩ := Option.bind_eq_some_iff.mp h
  cases h
  intro r hr
  obtain ⟨dst, hdst, hr⟩ := List.mem_filterMap.mp hr
  exact ⟨dst, reg_mem_of_filterMap hdst, Rule.sets_union? r hr⟩

theorem sets_branchRules :
    ∀ r ∈ i.branchRules tracksPc, tracksPc = true ∧ r.Sets tracksPc .pc := by
  intro r hr
  unfold branchRules at hr
  split at hr
  · split at hr
    · rename_i htracks
      exact ⟨htracks, Rule.sets_copy? r (Option.mem_toList.mp hr)⟩
    · cases hr
  · cases hr

theorem sets_linkRules : ∀ r ∈ linkRules tracksPc, tracksPc = true ∧ r.Sets tracksPc .lr := by
  cases tracksPc with
  | false => nofun
  | true =>
      intro r hr
      cases List.mem_singleton.mp hr
      exact ⟨rfl, ⟨by decide, by decide⟩, rfl⟩

theorem selects_rules (h : i.rules tracksPc = .ok rules) : ∀ r ∈ rules, i.Selects tracksPc r := by
  unfold Instr.rules at h
  unfold Selects
  -- One case for each effect, each with the lemma of its rules.
  cases he : i.opcode.effect <;> rw [he] at h <;> dsimp only at h ⊢
  case load words =>
    split at h <;> cases h
    rename_i ho
    exact loads_loadRules? ho
  case store words =>
    split at h <;> cases h
    rename_i ho
    exact stores_storeRules? ho
  case storeExclusive =>
    split at h <;> cases h
    rename_i ho
    obtain ⟨stores, hstores, rfl⟩ := Option.map_eq_some_iff.mp ho
    intro r hr
    rcases List.mem_append.mp hr with hr | hr
    · exact Or.inl (stores_storeRules? hstores r hr)
    · exact Or.inr (setsDst_statusRules r hr)
  case transform =>
    split at h <;> cases h
    rename_i ho
    exact setsDst_transformRules? ho
  case combine =>
    split at h <;> cases h
    rename_i ho
    exact setsDst_combineRules? ho
  case accumulate =>
    split at h <;> cases h
    rename_i ho
    exact setsDst_accumulateRules? ho
  case link =>
    cases h
    intro r hr
    rcases List.mem_append.mp hr with hr | hr
    · exact (sets_linkRules r hr).imp_right Or.inl
    · exact (sets_branchRules r hr).imp_right Or.inr
  case branch =>
    cases h
    exact sets_branchRules
  case blockTransfer =>
    split at h <;> cases h
    rename_i ho
    obtain ⟨b, hb, rfl⟩ := Option.map_eq_some_iff.mp ho
    exact fun r hr => ⟨b, hb, List.mem_singleton.mp hr⟩
  case nothing =>
    cases h
    nofun
  case unknown => cases h

variable {r : Rule}

theorem Loads.tracked (h : i.Loads tracksPc r) : r.Tracked tracksPc := by
  obtain ⟨dsts, mem, rfl, hdsts⟩ := h
  exact fun dst hdst => (hdsts dst hdst).2

theorem Stores.tracked {words : Nat} (h : i.Stores tracksPc words r) : r.Tracked tracksPc := by
  obtain ⟨srcs, mem, rfl, -, -, hsrcs⟩ := h
  exact hsrcs

theorem SetsDst.tracked (h : i.SetsDst tracksPc r) : r.Tracked tracksPc :=
  let ⟨_, _, hsets⟩ := h
  hsets.tracked

theorem Selects.tracked (h : i.Selects tracksPc r) : r.Tracked tracksPc := by
  unfold Selects at h
  cases he : i.opcode.effect <;> rw [he] at h <;> dsimp only at h
  case load => exact h.tracked
  case store => exact h.tracked
  case storeExclusive => exact h.elim Stores.tracked SetsDst.tracked
  case transform => exact h.tracked
  case combine => exact h.tracked
  case accumulate => exact h.tracked
  case link => exact h.2.elim Rule.Sets.tracked Rule.Sets.tracked
  case branch => exact h.2.tracked
  case blockTransfer =>
    obtain ⟨b, -, rfl⟩ := h
    trivial

end Instr

/-! ## Moves of tracked registers -/

open TaintFlow.Action

def Move.Tracked (tracksPc : Bool) : Move → Prop
  | .load dst _ _ => dst.isTracked tracksPc = true
  | .store src _ _ => ∀ r, src = some r → r.isTracked tracksPc = true
  | .copy dst src => dst.isTracked tracksPc = true ∧ src.isTracked tracksPc = true
  | .clear dst => dst.isTracked tracksPc = true
  | .union dst srcs =>
      dst.isTracked tracksPc = true ∧ ∀ r ∈ srcs, r.isTracked tracksPc = true
  | .block _ => True

variable {tracksPc : Bool}

theorem Rule.Tracked.moves {r : Rule} (h : r.Tracked tracksPc) :
    ∀ m ∈ r.moves, m.Tracked tracksPc := by
  intro m hm
  cases r with
  | load dsts mem =>
      obtain ⟨⟨dst, i⟩, hd, rfl⟩ := List.mem_map.mp hm
      exact h dst (List.fst_mem_of_mem_zipIdx hd)
  | store srcs mem =>
      obtain ⟨⟨src, i⟩, hsrc, rfl⟩ := List.mem_map.mp hm
      rintro r rfl
      exact h r (List.fst_mem_of_mem_zipIdx hsrc)
  | copy dst src =>
      cases List.mem_singleton.mp hm
      exact h
  | clear dst =>
      cases List.mem_singleton.mp hm
      exact h
  | union dst srcs =>
      cases List.mem_singleton.mp hm
      exact h
  | block t =>
      cases List.mem_singleton.mp hm
      trivial

theorem RegisterBank.position_tracked {b : RegisterBank} {r : Reg}
    (h : r.isTracked b.tracksPc = true) : ∃ i, b.position r = .ok i := by
  have hgeneral : r.isGeneral = true := (Bool.and_eq_true_iff.mp h).1
  exact ⟨⟨r.id.toNat, of_decide_eq_true hgeneral⟩, position_eq_ok_iff.mpr ⟨rfl, h⟩⟩

namespace TagState

def TracksPc (tracksPc : Bool) (s : TagState) : Prop :=
  s.thread.bank.tracksPc = tracksPc

def ShadowFailure (e : ApplyError) : Prop :=
  ∃ cause, e = .shadow cause

theorem TracksPc.keeps (tracksPc : Bool) :
    Keeps (TracksPc tracksPc) ShadowFailure (fun _ => True) (fun _ => True)
      (fun r => r.isTracked tracksPc = true) where
  tracked := fun _ hs _ hr => hs ▸ hr
  untracked := by
    intro s hs r e hr hp
    obtain ⟨i, hi⟩ := RegisterBank.position_tracked (b := s.thread.bank) (hs.symm ▸ hr)
    rw [hi] at hp
    contradiction
  withThread := fun _ hs _ _ _ hc =>
    (RegisterBank.tracksPc_of_setTag (ThreadContext.of_setTag_eq_ok hc).2.2).trans hs
  uncovered := fun _ _ _ _ _ => ⟨_, rfl⟩
  refused := fun _ _ _ e _ _ => ⟨e, rfl⟩
  withTag := fun _ hs _ _ _ _ => hs

end TagState

theorem Move.Tracked.regs {m : Move} (h : m.Tracked tracksPc) :
    ∀ r ∈ m.regs, r.isTracked tracksPc = true := by
  cases m with
  | load dst mem i => exact List.forall_mem_singleton.mpr h
  | store src mem i => exact fun r hr => h r (Option.mem_toList.mp hr)
  | copy dst src => exact List.forall_mem_cons.mpr ⟨h.1, List.forall_mem_singleton.mpr h.2⟩
  | clear dst => exact List.forall_mem_singleton.mpr h
  | union dst srcs => exact List.forall_mem_cons.mpr h
  | block b => exact List.forall_mem_nil _

theorem Move.shadowFailure_apply (f : RegFile) {m : Move} (h : m.Tracked tracksPc) :
    Preserves (TagState.TracksPc tracksPc) TagState.ShadowFailure (m.apply f) :=
  m.keeps_apply (TagState.TracksPc.keeps tracksPc) f h.regs (fun _ _ => trivial)
    (fun _ _ => trivial)

/-- The analyzer plans the rules of the instruction, or nothing where it has none. It goes on
tracking what it tracked. -/
theorem Analyzer.analyze_cases (i : Instr) (a : Analyzer) :
    match Analyzer.analyze i a with
    | .error _ a' => a'.tracksPc = a.tracksPc
    | .ok plan a' => a'.tracksPc = a.tracksPc ∧ (i.rules a.tracksPc = .ok plan.rules ∨
        plan.rules = [] ∧ ∃ kind, i.rules a.tracksPc = .error kind) := by
  unfold Analyzer.analyze
  cases hrules : i.rules a.tracksPc with
  | ok rules => exact ⟨rfl, Or.inl rfl⟩
  | error kind =>
      cases a.policy with
      | strict => rfl
      | permissive => exact ⟨rfl, Or.inr ⟨rfl, kind, rfl⟩⟩

theorem Analyzer.analyze_rules {i : Instr} {a : Analyzer} {rules : List Rule}
    (h : i.rules a.tracksPc = .ok rules) :
    Analyzer.analyze i a = .ok ⟨i.pc, i.opcode, rules⟩ a := by
  unfold Analyzer.analyze
  rw [h]

section Planned

variable {i : Instr} {a a' : Analyzer} {plan : Plan} (h : Analyzer.analyze i a = .ok plan a')
include h

theorem Analyzer.exists_rules {r : Rule} (hr : r ∈ plan.rules) :
    ∃ rules, i.rules a.tracksPc = .ok rules ∧ r ∈ rules := by
  have hcases := analyze_cases i a
  rw [h] at hcases
  rcases hcases.2 with hrules | ⟨hnone, -⟩
  · exact ⟨plan.rules, hrules, hr⟩
  · rw [hnone] at hr
    cases hr

theorem Analyzer.analyze_selects : ∀ r ∈ plan.rules, i.Selects a.tracksPc r := by
  intro r hr
  obtain ⟨rules, hrules, hr⟩ := exists_rules h hr
  exact Instr.selects_rules hrules r hr

end Planned

/-- The analyzer plans moves of tracked registers, and goes on tracking what it tracked. -/
theorem Analyzer.analyze_tracked (i : Instr) (a : Analyzer) :
    match Analyzer.analyze i a with
    | .error _ a' => a'.tracksPc = a.tracksPc
    | .ok plan a' => a'.tracksPc = a.tracksPc ∧ ∀ m ∈ plan.moves, m.Tracked a.tracksPc := by
  have hcases := analyze_cases i a
  cases h : Analyzer.analyze i a with
  | error gap a' =>
      rw [h] at hcases
      exact hcases
  | ok plan a' =>
      rw [h] at hcases
      refine ⟨hcases.1, fun m hm => ?_⟩
      obtain ⟨r, hr, hmr⟩ := List.mem_flatMap.mp hm
      exact (analyze_selects h r hr).tracked.moves m hmr

end TaintFlow
