import TaintFlow.Proofs.Plan.Registers

/-!
# Branches

Where the program counter is tracked, a branch may move two tags: a linking branch gives the link
register the tag of the program counter, and a branch to a register gives the program counter the
tag of the target. The link register is written first, so that a linking branch through the link
register finds there what it has just written.
-/

namespace TaintFlow

open TaintFlow.Action

/-- A branch has the link rule in front of its own. -/
theorem Instr.rules_of_mem_branches {i : Instr} (h : i.opcode ∈ Opcode.branches) (tracksPc : Bool) :
    i.rules tracksPc = .ok ((if i.opcode ∈ Opcode.linking then linkRules tracksPc else []) ++
      i.branchRules tracksPc) := by
  unfold rules
  rw [Opcode.effect_of_mem_branches h]
  by_cases hlinks : i.opcode ∈ Opcode.linking
  · rw [if_pos hlinks, if_pos hlinks]
  · rw [if_neg hlinks, if_neg hlinks]
    rfl

namespace TagState

/-- The state after the link register has taken the tag of the program counter, if `op` links. -/
def linked (s : TagState) (op : Opcode) : TagState :=
  if op ∈ Opcode.linking then s.withRegTag .lr (s.thread.tagOrClean .pc) else s

/-- The state after the program counter has taken the tag of the target, if that is a register. -/
def branched (s : TagState) (target? : Option Operand) : TagState :=
  match target? with
  | some (.reg target) => s.withRegTag .pc (s.thread.tagOrClean target)
  | _ => s

theorem linked_frame (s : TagState) (op : Opcode) :
    (s.linked op).store = s.store ∧ (s.linked op).thread.slots = s.thread.slots ∧
      (s.linked op).thread.bank.tracksPc = s.thread.bank.tracksPc := by
  unfold linked
  split
  · exact ⟨rfl, (ThreadContext.withTag_frame _ _ _).2⟩
  · exact ⟨rfl, rfl, rfl⟩

theorem branched_elsewhere {s : TagState} {target? : Option Operand}
    (h : ∀ target, target? ≠ some (.reg target)) : s.branched target? = s := by
  unfold branched
  split
  · rename_i target
    exact absurd rfl (h target)
  · rfl

section TracksPc

variable {s : TagState} (hpc : s.thread.bank.tracksPc = true)
include hpc

theorem tracked_general {r : Reg} (hr : r.isGeneral = true) :
    r.isTracked s.thread.bank.tracksPc = true := by
  rw [hpc, Reg.isTracked, hr]
  rfl

theorem apply_linkRules (f : RegFile) (op : Opcode) :
    (if op ∈ Opcode.linking then Instr.linkRules true else []).forM (Rule.apply f) s =
      .ok () (s.linked op) := by
  unfold linked
  by_cases hlinks : op ∈ Opcode.linking
  · have hcopy := Rule.apply_copy? (tracked_general hpc (r := .lr) rfl) f .pc
    rw [hpc] at hcopy
    rw [if_pos hlinks, if_pos hlinks]
    exact hcopy
  · rw [if_neg hlinks, if_neg hlinks]
    rfl

theorem apply_branchRules (f : RegFile) (i : Instr) :
    (i.branchRules true).forM (Rule.apply f) s = .ok () (s.branched i.srcs.head?) := by
  unfold Instr.branchRules branched
  cases i.srcs.head? with
  | none => rfl
  | some operand =>
      cases operand with
      | reg target =>
          have hcopy := Rule.apply_copy? (tracked_general hpc (r := .pc) rfl) f target
          rw [hpc] at hcopy
          exact hcopy
      | imm value => rfl
      | mem m => rfl

theorem tagOf_linked (op : Opcode) (r : Reg) :
    (s.linked op).thread.tagOf r =
      if op ∈ Opcode.linking ∧ .lr = r then s.thread.tagOf .pc else s.thread.tagOf r := by
  unfold linked
  by_cases hlinks : op ∈ Opcode.linking
  · rw [if_pos hlinks, ThreadContext.tagOf_tracked (tracked_general hpc (r := .pc) rfl)]
    simp only [hlinks, true_and]
    exact ThreadContext.tagOf_withTag (tracked_general hpc rfl) _ r
  · rw [if_neg hlinks, if_neg fun h => hlinks h.1]

theorem tagOf_branched (target r : Reg) :
    (s.branched (some (.reg target))).thread.tagOf r =
      if .pc = r then .ok (s.thread.tagOrClean target) else s.thread.tagOf r :=
  ThreadContext.tagOf_withTag (tracked_general hpc rfl) _ r

theorem branched_frame (target? : Option Operand) :
    (s.branched target?).store = s.store ∧ (s.branched target?).thread.slots = s.thread.slots ∧
      ∀ r, .pc ≠ r → (s.branched target?).thread.tagOf r = s.thread.tagOf r := by
  by_cases hreg : ∃ target, target? = some (.reg target)
  · obtain ⟨target, rfl⟩ := hreg
    exact ⟨rfl, (ThreadContext.withTag_frame _ _ _).2.1, fun r hr =>
      (tagOf_branched hpc target r).trans (if_neg hr)⟩
  · rw [branched_elsewhere (not_exists.mp hreg)]
    exact ⟨rfl, rfl, fun _ _ => rfl⟩

end TracksPc

end TagState

/-- A branch gives the link register the tag of the program counter if it links, and gives the
program counter the tag of the register it branches to. A linking branch through the link register
finds the tag of the program counter there. No other tag changes. -/
theorem branch_tags {i : Instr} {a : Analyzer} {f : RegFile} {tags : TagState}
    (hop : i.opcode ∈ Opcode.branches) (ha : a.tracksPc = true)
    (hpc : tags.thread.bank.tracksPc = true) :
    let links := i.opcode ∈ Opcode.linking
    let before := tags.thread
    ∃ plan after, Analyzer.analyze i a = .ok plan a ∧ plan.apply f tags = .ok () after ∧
      (links → after.thread.tagOf .lr = before.tagOf .pc) ∧
      (¬ links → after.thread.tagOf .lr = before.tagOf .lr) ∧
      (∀ target, i.srcs.head? = some (.reg target) → ¬ (links ∧ target = .lr) →
        after.thread.tagOf .pc = .ok (before.tagOrClean target)) ∧
      (links → i.srcs.head? = some (.reg .lr) → after.thread.tagOf .pc = before.tagOf .pc) ∧
      ((∀ target, i.srcs.head? ≠ some (.reg target)) →
        after.thread.tagOf .pc = before.tagOf .pc) ∧
      (∀ r, r ≠ .lr → r ≠ .pc → after.thread.tagOf r = before.tagOf r) ∧
      after.store = tags.store ∧ after.thread.slots = before.slots := by
  intro links before
  -- What the link rule leaves is what the branch rule finds.
  obtain ⟨hstore, hslots, htracksPc⟩ := tags.linked_frame i.opcode
  have hmidpc := htracksPc.trans hpc
  have hmid := TagState.tagOf_linked hpc i.opcode
  obtain ⟨hstore', hslots', hothers⟩ := TagState.branched_frame hmidpc i.srcs.head?
  have hold : before.tagOf .pc = .ok (before.tagOrClean .pc) :=
    ThreadContext.tagOf_tracked (TagState.tracked_general hpc rfl)
  refine ⟨⟨i.pc, i.opcode, _⟩, (tags.linked i.opcode).branched i.srcs.head?,
    Analyzer.analyze_rules (Instr.rules_of_mem_branches hop a.tracksPc), ?_,
    fun hlinks => ?_, fun hlinks => ?_, fun target hs htarget => ?_, fun hlinks hs => ?_,
    fun hnone => ?_, fun r hlr hr => ?_, hstore'.trans hstore, hslots'.trans hslots⟩
  · rw [ha, Plan.apply, forM_append, bind_ok (TagState.apply_linkRules hpc f i.opcode)]
    exact TagState.apply_branchRules hmidpc f i
  · rw [hothers .lr (by decide), hmid, if_pos ⟨hlinks, rfl⟩]
  · rw [hothers .lr (by decide), hmid, if_neg fun h => hlinks h.1]
  · have hsame : (tags.linked i.opcode).thread.tagOf target = before.tagOf target := by
      rw [hmid, if_neg fun h => htarget ⟨h.1, h.2.symm⟩]
    rw [hs, TagState.tagOf_branched hmidpc, if_pos rfl, ThreadContext.tagOrClean_congr hsame]
  · have hlinked : (tags.linked i.opcode).thread.tagOf .lr = before.tagOf .pc := by
      rw [hmid, if_pos ⟨hlinks, rfl⟩]
    rw [hs, TagState.tagOf_branched hmidpc, if_pos rfl, ThreadContext.tagOrClean_congr hlinked,
      hold]
  · rw [TagState.branched_elsewhere hnone, hmid, if_neg fun h => absurd h.2 (by decide)]
  · rw [hothers r (Ne.symm hr), hmid, if_neg fun h => hlr h.2.symm]

/-- A call of the address in a tainted register. -/
theorem branch_tags_call :
    let i : Instr := ⟨0x100, .blx, [], [.reg ⟨1⟩]⟩
    let tags : TagState := ⟨.small .lazy, ThreadContext.tainted.withTag .pc 0x42⟩
    ∃ plan after, Analyzer.analyze i (.new .strict true) = .ok plan (.new .strict true) ∧
      plan.apply .zero tags = .ok () after ∧
      after.thread.tagOf .lr = .ok 0x42 ∧ after.thread.tagOf .pc = .ok 5 := by
  intro i tags
  have hpc : tags.thread.bank.tracksPc = true := rfl
  obtain ⟨plan, after, hplan, hrun, hlr, -, htarget, -⟩ :=
    branch_tags (i := i) (f := .zero) (by decide) (a := .new .strict true) rfl hpc
  exact ⟨plan, after, hplan, hrun, (hlr (by decide)).trans rfl,
    (htarget ⟨1⟩ rfl (by decide)).trans rfl⟩

/-- A call of the address in the link register: the program counter keeps its tag, and does not take
the one that the link register had. -/
theorem branch_tags_through_lr :
    let i : Instr := ⟨0x100, .blx, [], [.reg .lr]⟩
    let plan : Plan := ⟨0x100, .blx, [.copy .lr .pc, .copy .pc .lr]⟩
    let tags : TagState :=
      ⟨.small .lazy, (ThreadContext.tainted.withTag .lr 0x41).withTag .pc 0x42⟩
    Analyzer.analyze i (.new .strict true) = .ok plan (.new .strict true) ∧
      tags.thread.tagOf .lr = .ok 0x41 ∧
      (outcome (plan.apply .zero) tags).1.isOk ∧
      (outcome (plan.apply .zero) tags).2.thread.tagByte .pc = some 0x42 :=
  ⟨rfl, rfl, by decide +kernel, by decide +kernel⟩

end TaintFlow
