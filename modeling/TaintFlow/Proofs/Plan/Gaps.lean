import Mathlib.Data.List.Induction
import TaintFlow.Proofs.Plan.Selection
import TaintFlow.Tracker.Warning

/-!
# Gaps

However many instructions are analyzed and in whatever order, an opcode is warned of once for each
way in which it fails, at the first instruction that fails so. The opcodes in the log are those of
the failed instructions, so they do not depend on the order. The policy decides on the plans and not
on the log.
-/

namespace TaintFlow

open TaintFlow.Action

theorem Gap.sameAs_iff {g h : Gap} : g.sameAs h = true ↔ h.kind = g.kind ∧ h.opcode = g.opcode := by
  rw [sameAs, Bool.and_eq_true, beq_iff_eq, beq_iff_eq, eq_comm, @eq_comm _ g.opcode]

namespace GapLog

variable {l : GapLog} {g : Gap} {kind : GapKind} {op : Opcode}

theorem mem_opcodes : op ∈ l.opcodes kind ↔ ∃ g ∈ l.reports, g.kind = kind ∧ g.opcode = op := by
  unfold opcodes
  simp only [List.mem_map, List.mem_filter, beq_iff_eq, and_assoc]

theorem any_sameAs : l.reports.any g.sameAs = true ↔ g.opcode ∈ l.opcodes g.kind := by
  rw [List.any_eq_true, mem_opcodes]
  simp only [Gap.sameAs_iff]

theorem report_known (h : g.opcode ∈ l.opcodes g.kind) : l.report g = l := by
  rw [report, if_pos (any_sameAs.mpr h)]

theorem report_new (h : g.opcode ∉ l.opcodes g.kind) : l.report g = ⟨l.reports ++ [g]⟩ := by
  rw [report, if_neg (mt any_sameAs.mp h)]

/-- A report adds its own opcode to those of its kind, if it is not among them. -/
theorem mem_opcodes_report :
    op ∈ (l.report g).opcodes kind ↔ op ∈ l.opcodes kind ∨ g.kind = kind ∧ g.opcode = op := by
  by_cases h : g.opcode ∈ l.opcodes g.kind
  · rw [report_known h, or_iff_left_of_imp]
    rintro ⟨rfl, rfl⟩
    exact h
  · rw [report_new h, mem_opcodes, mem_opcodes]
    simp only [List.mem_append, List.mem_singleton, or_and_right, exists_or, exists_eq_left]

end GapLog

namespace Instr

variable {tracksPc : Bool} {i : Instr}

/-- The instruction has the opcode and fails in the given way. -/
def Fails (tracksPc : Bool) (kind : GapKind) (op : Opcode) (i : Instr) : Prop :=
  i.opcode = op ∧ i.rules tracksPc = .error kind

instance (tracksPc : Bool) (kind : GapKind) (op : Opcode) (i : Instr) :
    Decidable (i.Fails tracksPc kind op) :=
  inferInstanceAs (Decidable (_ ∧ _))

/-- The gap that an instruction without rules leaves. -/
def gap (i : Instr) (kind : GapKind) : Gap :=
  ⟨kind, i.opcode, i.pc⟩

/-- Whether there is a rule for the opcode does not depend on the operands. -/
theorem rules_unhandled_iff (tracksPc : Bool) (i : Instr) :
    i.rules tracksPc = .error .unhandled ↔ i.opcode.effect = .unknown := by
  unfold rules
  cases i.opcode.effect
  case unknown => simp
  case link | branch | nothing => simp
  -- The other effects have a rule, and operands that do not fit it are malformed.
  all_goals
    refine iff_of_false (fun h => ?_) nofun
    dsimp only at h
    split at h <;> cases h

/-- No opcode fails in both ways. -/
theorem Fails.kind_eq {kind kind' : GapKind} {op : Opcode} {j : Instr}
    (hi : i.Fails tracksPc kind op) (hj : j.Fails tracksPc kind' op) : kind = kind' := by
  have hunhandled := rules_unhandled_iff tracksPc i
  rw [hi.1, ← hj.1, ← rules_unhandled_iff tracksPc j, hi.2, hj.2] at hunhandled
  cases kind <;> cases kind' <;> simp at hunhandled ⊢

end Instr

namespace Analyzer

variable {a : Analyzer} {i : Instr} {is : List Instr}

/-! ## One instruction -/

/-- What the analyzer answers. -/
def answer (policy : GapPolicy) (tracksPc : Bool) (i : Instr) : Except Gap Plan :=
  match i.rules tracksPc, policy with
  | .ok rules, _ => .ok ⟨i.pc, i.opcode, rules⟩
  | .error kind, .strict => .error (i.gap kind)
  | .error _, .permissive => .ok ⟨i.pc, i.opcode, []⟩

/-- The analyzer once it has seen the instruction. -/
def noting (a : Analyzer) (i : Instr) : Analyzer :=
  match i.rules a.tracksPc with
  | .ok _ => a
  | .error kind => { a with gaps := a.gaps.report (i.gap kind) }

theorem outcome_analyze (i : Instr) (a : Analyzer) :
    outcome (analyze i) a = (answer a.policy a.tracksPc i, a.noting i) := by
  unfold outcome analyze answer noting
  cases hrules : i.rules a.tracksPc with
  | ok rules => rfl
  | error kind => cases a.policy <;> rfl

theorem noting_ok {rules : List Rule} (h : i.rules a.tracksPc = .ok rules) : a.noting i = a := by
  rw [noting, h]

theorem noting_error {kind : GapKind} (h : i.rules a.tracksPc = .error kind) :
    a.noting i = { a with gaps := a.gaps.report (i.gap kind) } := by
  rw [noting, h]

@[simp] theorem noting_policy (a : Analyzer) (i : Instr) : (a.noting i).policy = a.policy := by
  unfold noting
  split <;> rfl

@[simp] theorem noting_tracksPc (a : Analyzer) (i : Instr) :
    (a.noting i).tracksPc = a.tracksPc := by
  unfold noting
  split <;> rfl

theorem mem_opcodes_noting {kind : GapKind} {op : Opcode} :
    op ∈ (a.noting i).gaps.opcodes kind ↔
      op ∈ a.gaps.opcodes kind ∨ i.Fails a.tracksPc kind op := by
  unfold Instr.Fails
  cases h : i.rules a.tracksPc with
  | ok rules => simp [noting_ok h]
  | error kind' =>
      rw [noting_error h, GapLog.mem_opcodes_report]
      simp only [Instr.gap, Except.error.injEq, and_comm]

/-- Only the first failure of its kind is warned of. -/
theorem ofGaps_noting (a : Analyzer) {kind : GapKind} (h : i.rules a.tracksPc = .error kind) :
    Warning.ofGaps a (a.noting i) =
      if i.opcode ∈ a.gaps.opcodes kind then [] else [.gap (i.gap kind)] := by
  rw [noting_error h, Warning.ofGaps]
  by_cases hknown : i.opcode ∈ a.gaps.opcodes kind
  · rw [GapLog.report_known (g := i.gap kind) hknown, if_pos hknown, List.drop_length]
    rfl
  · rw [GapLog.report_new (g := i.gap kind) hknown, if_neg hknown]
    dsimp only
    rw [List.drop_left]
    rfl

/-! ## Many instructions -/

/-- Analyze instructions one after the other. -/
def analyzeAll (a : Analyzer) (is : List Instr) : List (Except Gap Plan) × Analyzer :=
  is.foldl
    (fun (answers, a) i =>
      let (answer, a) := outcome (analyze i) a
      (answers ++ [answer], a))
    ([], a)

theorem analyzeAll_concat (a : Analyzer) (is : List Instr) (i : Instr) :
    a.analyzeAll (is ++ [i]) =
      ((a.analyzeAll is).1 ++ [answer (a.analyzeAll is).2.policy (a.analyzeAll is).2.tracksPc i],
        (a.analyzeAll is).2.noting i) := by
  rw [analyzeAll, List.foldl_append, List.foldl_cons, List.foldl_nil]
  change (let (answer, a') := outcome (analyze i) (a.analyzeAll is).2; (_ ++ [answer], a')) = _
  rw [outcome_analyze]
  rfl

/-- What the analyzer knows of the instructions it has seen. -/
structure Seen (policy : GapPolicy) (tracksPc : Bool) (is : List Instr) (a : Analyzer) : Prop where
  opcodes : ∀ kind op, op ∈ a.gaps.opcodes kind ↔ ∃ i ∈ is, i.Fails tracksPc kind op
  policy : a.policy = policy
  tracksPc : a.tracksPc = tracksPc

theorem seen_new (policy : GapPolicy) (tracksPc : Bool) :
    Seen policy tracksPc [] (.new policy tracksPc) :=
  ⟨fun kind op => by simp [new, GapLog.empty, GapLog.opcodes], rfl, rfl⟩

theorem Seen.noting {policy : GapPolicy} {tracksPc : Bool} (h : Seen policy tracksPc is a)
    (i : Instr) : Seen policy tracksPc (is ++ [i]) (a.noting i) where
  policy := (noting_policy a i).trans h.policy
  tracksPc := (noting_tracksPc a i).trans h.tracksPc
  opcodes := by
    intro kind op
    rw [mem_opcodes_noting, h.opcodes, h.tracksPc]
    simp only [List.mem_append, List.mem_singleton, or_and_right, exists_or, exists_eq_left]

theorem analyzeAll_new (policy : GapPolicy) (tracksPc : Bool) (is : List Instr) :
    let run := (new policy tracksPc).analyzeAll is
    run.1 = is.map (answer policy tracksPc) ∧ Seen policy tracksPc is run.2 := by
  induction is using List.reverseRecOn with
  | nil => exact ⟨rfl, seen_new policy tracksPc⟩
  | append_singleton is i ih =>
      obtain ⟨hanswers, hseen⟩ := ih
      rw [analyzeAll_concat, hanswers, hseen.policy, hseen.tracksPc, List.map_append]
      exact ⟨rfl, hseen.noting i⟩

/-- An instruction is warned of if it fails as no instruction in front of it has. -/
theorem ofGaps_analyzeAll (policy : GapPolicy) (tracksPc : Bool) {is : List Instr} {k : Nat}
    {i : Instr} (hi : is[k]? = some i) :
    let run := fun is => ((new policy tracksPc).analyzeAll is).2
    Warning.ofGaps (run (is.take k)) (run (is.take (k + 1))) =
      match i.rules tracksPc with
      | .ok _ => []
      | .error kind =>
        if ∃ j ∈ is.take k, j.Fails tracksPc kind i.opcode then [] else [.gap (i.gap kind)] := by
  intro run
  obtain ⟨-, hseen⟩ := analyzeAll_new policy tracksPc (is.take k)
  have hnext : run (is.take (k + 1)) = (run (is.take k)).noting i := by
    change (analyzeAll _ _).2 = _
    rw [List.take_add_one, hi, Option.toList_some, analyzeAll_concat]
  rw [hnext]
  cases hrules : i.rules tracksPc with
  | ok rules =>
      rw [← hseen.tracksPc] at hrules
      rw [noting_ok hrules, Warning.ofGaps_self]
  | error kind =>
      have hknown := hseen.opcodes kind i.opcode
      rw [← hseen.tracksPc] at hrules
      rw [ofGaps_noting _ hrules]
      simp only [hknown]

/-- The two policies differ in what becomes of an instruction without rules, and in nothing else. -/
theorem answer_policies (tracksPc : Bool) (i : Instr) :
    ∃ plan, answer .permissive tracksPc i = .ok plan ∧
      match i.rules tracksPc with
      | .ok rules => plan = ⟨i.pc, i.opcode, rules⟩ ∧ answer .strict tracksPc i = .ok plan
      | .error kind =>
        plan = ⟨i.pc, i.opcode, []⟩ ∧ answer .strict tracksPc i = .error (i.gap kind) := by
  unfold answer
  cases i.rules tracksPc with
  | ok rules => exact ⟨_, rfl, rfl, rfl⟩
  | error kind => exact ⟨_, rfl, rfl, rfl⟩

/-- Whatever is analyzed, an instruction is warned of exactly if it fails as no instruction in front
of it has, and the two lists of the log have the opcodes of the instructions that failed in either
way. They have no opcode in common and do not depend on order and repetition. Under the permissive
policy every instruction gets a plan, an empty one if it fails, and otherwise the one that it gets
under the strict policy, under which every instruction that fails is an error. -/
theorem gaps_reported_once (tracksPc : Bool) (is : List Instr) :
    let run := fun (policy : GapPolicy) (is : List Instr) => (new policy tracksPc).analyzeAll is
    (∀ policy,
      let log := (run policy is).2.gaps
      (∀ k i, is[k]? = some i →
        Warning.ofGaps (run policy (is.take k)).2 (run policy (is.take (k + 1))).2 =
          match i.rules tracksPc with
          | .ok _ => []
          | .error kind =>
            if ∃ j ∈ is.take k, j.Fails tracksPc kind i.opcode then []
            else [.gap ⟨kind, i.opcode, i.pc⟩]) ∧
      (∀ op, (op ∈ log.unhandled ↔ ∃ i ∈ is, i.Fails tracksPc .unhandled op) ∧
        (op ∈ log.malformed ↔ ∃ i ∈ is, i.Fails tracksPc .malformed op) ∧
        ¬ (op ∈ log.unhandled ∧ op ∈ log.malformed)) ∧
      ∀ is' : List Instr, (∀ i, i ∈ is' ↔ i ∈ is) → ∀ op,
        (op ∈ (run policy is').2.gaps.unhandled ↔ op ∈ log.unhandled) ∧
        (op ∈ (run policy is').2.gaps.malformed ↔ op ∈ log.malformed)) ∧
    ∀ (k : Nat) (i : Instr), is[k]? = some i →
      ∃ plan checked, (run .permissive is).1[k]? = some (.ok plan) ∧
        (run .strict is).1[k]? = some checked ∧
        match i.rules tracksPc with
        | .ok rules => plan = ⟨i.pc, i.opcode, rules⟩ ∧ checked = .ok plan
        | .error kind =>
          plan = ⟨i.pc, i.opcode, []⟩ ∧ checked = .error ⟨kind, i.opcode, i.pc⟩ := by
  intro run
  have hopcodes : ∀ policy is kind op,
      op ∈ (run policy is).2.gaps.opcodes kind ↔ ∃ i ∈ is, i.Fails tracksPc kind op :=
    fun policy is => (analyzeAll_new policy tracksPc is).2.opcodes
  refine ⟨fun policy => ⟨fun k i hi => ofGaps_analyzeAll policy tracksPc hi, fun op => ?_,
    fun is' hsame op => ?_⟩, fun k i hi => ?_⟩
  · refine ⟨hopcodes policy is _ op, hopcodes policy is _ op, ?_⟩
    rintro ⟨hunhandled, hmalformed⟩
    obtain ⟨i, -, hi⟩ := (hopcodes policy is _ op).mp hunhandled
    obtain ⟨j, -, hj⟩ := (hopcodes policy is _ op).mp hmalformed
    cases hi.kind_eq hj
  · have hkind : ∀ kind, op ∈ (run policy is').2.gaps.opcodes kind ↔
        op ∈ (run policy is).2.gaps.opcodes kind := by
      intro kind
      rw [hopcodes, hopcodes]
      simp only [hsame]
    exact ⟨hkind _, hkind _⟩
  · have hanswers : ∀ policy, (run policy is).1[k]? = some (answer policy tracksPc i) := by
      intro policy
      change ((new policy tracksPc).analyzeAll is).1[k]? = _
      rw [(analyzeAll_new policy tracksPc is).1, List.getElem?_map, hi, Option.map_some]
    obtain ⟨plan, hplan, hstrict⟩ := answer_policies tracksPc i
    refine ⟨plan, answer .strict tracksPc i, ?_, hanswers .strict, hstrict⟩
    rw [hanswers, hplan]

/-- A table branch fails twice, with a load without operands between the two. -/
theorem gaps_reported_once_repeated :
    let is : List Instr := [⟨0x100, .tbb, [], []⟩, ⟨0x104, .ldr, [], []⟩, ⟨0x108, .tbb, [], []⟩]
    let run := fun is => ((new .strict false).analyzeAll is).2
    Warning.ofGaps (run (is.take 1)) (run (is.take 2)) = [.gap ⟨.malformed, .ldr, 0x104⟩] ∧
      Warning.ofGaps (run (is.take 2)) (run (is.take 3)) = [] ∧
      .tbb ∈ (run is).gaps.unhandled ∧ .tbb ∉ (run is).gaps.malformed := by
  intro is run
  obtain ⟨hlog, -⟩ := gaps_reported_once false is
  obtain ⟨hwarned, hopcodes, -⟩ := hlog .strict
  obtain ⟨hunhandled, -, hdisjoint⟩ := hopcodes .tbb
  have htbb : .tbb ∈ (run is).gaps.unhandled := hunhandled.mpr ⟨_, List.mem_cons_self, rfl, rfl⟩
  exact ⟨(hwarned 1 _ rfl).trans rfl, (hwarned 2 _ rfl).trans rfl, htbb,
    fun h => hdisjoint ⟨htbb, h⟩⟩

end Analyzer
end TaintFlow
