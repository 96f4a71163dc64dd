import TaintFlow.Proofs.Plan.Registers

/-!
# Data processing

Instructions that compute on registers give their results the marks of the registers they compute
from. Whether a rule copies, clears or unites is a matter of how many of these registers are tracked
and distinct: each rule is the union over all of them. The rules of an instruction read a bank that
the rules in front of them have written, but what these have written is the union itself.
-/

namespace TaintFlow

open TaintFlow.Action

namespace Opcode

/-- Moves and transforms of one source. -/
def transforms : List Opcode :=
  [.mov, .movs, .mvn, .mvns, .movw, .movt, .sbfx, .ubfx, .uxtb, .uxth, .sxtb, .sxth, .rev, .rev16,
   .clz]

/-- Arithmetic and logic on two sources. -/
def combinations : List Opcode :=
  [.adc, .adcs, .add, .adds, .addw, .rsb, .rsbs, .rsc, .sbc, .sbcs, .sub, .subw, .subs, .and, .ands,
   .bic, .bics, .eor, .eors, .mul, .orr, .orrs, .orn, .ror, .lsl, .lsls, .lsr, .lsrs, .asr, .asrs,
   .uadd8, .uqsub8, .sel]

/-- Multiply-accumulate and long multiply. -/
def multiplies : List Opcode :=
  [.mla, .mls, .umull, .smull]

def dataProcessing : List Opcode :=
  transforms ++ combinations ++ multiplies

theorem effect_of_mem_transforms {op : Opcode} (h : op ∈ transforms) : op.effect = .transform := by
  revert h
  cases op <;> decide

theorem effect_of_mem_combinations {op : Opcode} (h : op ∈ combinations) :
    op.effect = .combine := by
  revert h
  cases op <;> decide

theorem effect_of_mem_multiplies {op : Opcode} (h : op ∈ multiplies) : op.effect = .accumulate := by
  revert h
  cases op <;> decide

end Opcode

/-- The registers that the instruction computes. -/
def Instr.results (i : Instr) : List Reg :=
  if i.opcode ∈ Opcode.multiplies then i.dsts.filterMap Operand.reg?
  else (i.dsts.take 1).filterMap Operand.reg?

/-- The registers that the instruction computes from. -/
def Instr.arguments (i : Instr) : List Reg :=
  if i.opcode ∈ Opcode.multiplies then i.srcs.filterMap Operand.reg?
  else if i.opcode ∈ Opcode.combinations then (i.srcs.take 2).filterMap Operand.reg?
  else (i.srcs.take 1).filterMap Operand.reg?

/-! ## Rules as unions -/

namespace Rule

variable (tracksPc : Bool) (dst src : Reg)

theorem union?_untracked {tracksPc : Bool} {dst : Reg} (h : dst.isTracked tracksPc = false)
    (srcs : List Reg) : union? tracksPc dst srcs = none := by
  unfold union? copy? clear?
  rw [h]
  split <;> rfl

theorem union?_singleton : union? tracksPc dst [src] = copy? tracksPc dst src := by
  unfold union? copy? clear?
  cases hsrc : src.isTracked tracksPc with
  | true =>
      rw [List.filter_cons_of_pos hsrc]
      cases dst.isTracked tracksPc <;> simp [dropRepeats, hsrc]
  | false =>
      rw [List.filter_cons_of_neg (Bool.not_eq_true _ ▸ hsrc)]
      cases dst.isTracked tracksPc <;> rfl

end Rule

namespace Instr

variable {tracksPc : Bool} {i : Instr} {rules : List Rule}

theorem results_of_head? {dst : Reg} (h : i.opcode ∉ Opcode.multiplies)
    (hdst : i.dsts.head?.bind Operand.reg? = some dst) : i.results = [dst] := by
  rw [results, if_neg h]
  cases hdsts : i.dsts with
  | nil =>
      rw [hdsts] at hdst
      cases hdst
  | cons d dsts =>
      rw [hdsts] at hdst
      cases eq_reg_of_reg?_eq_some hdst
      rfl

theorem of_transformRules? (h : i.transformRules? tracksPc = some rules) :
    ∃ dst, i.dsts.head?.bind Operand.reg? = some dst ∧
      rules = (Rule.union? tracksPc dst ((i.srcs.take 1).filterMap Operand.reg?)).toList := by
  unfold transformRules? at h
  obtain ⟨dst, hdst, h⟩ := Option.bind_eq_some_iff.mp h
  refine ⟨dst, hdst, ?_⟩
  cases hsrcs : i.srcs with
  | nil =>
      rw [hsrcs] at h
      cases h
  | cons src srcs =>
      rw [hsrcs] at h
      cases src with
      | reg r =>
          cases h
          exact (congrArg Option.toList (Rule.union?_singleton tracksPc dst r)).symm
      | imm v =>
          cases h
          rfl
      | mem m => cases h

theorem of_combineRules? (h : i.combineRules? tracksPc = some rules) :
    ∃ dst, i.dsts.head?.bind Operand.reg? = some dst ∧
      rules = (Rule.union? tracksPc dst ((i.srcs.take 2).filterMap Operand.reg?)).toList := by
  unfold combineRules? at h
  obtain ⟨dst, hdst, h⟩ := Option.bind_eq_some_iff.mp h
  refine ⟨dst, hdst, ?_⟩
  have hcopy := fun r => congrArg Option.toList (Rule.union?_singleton tracksPc dst r).symm
  split at h <;> cases h <;> rename_i hsrcs <;> rw [hsrcs]
  · exact hcopy _
  · rfl
  · rfl
  · exact hcopy _
  · exact hcopy _
  · rfl

theorem of_accumulateRules? (h : i.accumulateRules? tracksPc = some rules) :
    rules = (i.dsts.filterMap Operand.reg?).filterMap fun dst =>
      Rule.union? tracksPc dst (i.srcs.filterMap Operand.reg?) := by
  unfold accumulateRules? at h
  obtain ⟨-, -, h⟩ := Option.bind_eq_some_iff.mp h
  exact (Option.some.inj h).symm

/-- The rules of data processing are unions of all arguments, one for each result. -/
theorem rules_of_mem_dataProcessing (h : i.opcode ∈ Opcode.dataProcessing)
    (hrules : i.rules tracksPc = .ok rules) :
    rules = i.results.filterMap fun dst => Rule.union? tracksPc dst i.arguments := by
  -- Where there is one result, its rule is the whole list.
  have hone : ∀ (dst : Reg) (srcs : List Reg), (Rule.union? tracksPc dst srcs).toList =
      [dst].filterMap fun dst => Rule.union? tracksPc dst srcs := by
    intro dst srcs
    cases hr : Rule.union? tracksPc dst srcs <;> simp [hr]
  unfold Instr.rules at hrules
  rcases List.mem_append.mp h with h | hmul
  · rcases List.mem_append.mp h with htransform | hcombine
    · have heffect := Opcode.effect_of_mem_transforms htransform
      have hmul : i.opcode ∉ Opcode.multiplies :=
        mt Opcode.effect_of_mem_multiplies (by rw [heffect]; decide)
      have hcombine : i.opcode ∉ Opcode.combinations :=
        mt Opcode.effect_of_mem_combinations (by rw [heffect]; decide)
      rw [heffect] at hrules
      dsimp only at hrules
      split at hrules <;> cases hrules
      rename_i ho
      obtain ⟨dst, hdst, rfl⟩ := of_transformRules? ho
      rw [results_of_head? hmul hdst, arguments, if_neg hmul, if_neg hcombine, hone]
    · have heffect := Opcode.effect_of_mem_combinations hcombine
      have hmul : i.opcode ∉ Opcode.multiplies :=
        mt Opcode.effect_of_mem_multiplies (by rw [heffect]; decide)
      rw [heffect] at hrules
      dsimp only at hrules
      split at hrules <;> cases hrules
      rename_i ho
      obtain ⟨dst, hdst, rfl⟩ := of_combineRules? ho
      rw [results_of_head? hmul hdst, arguments, if_neg hmul, if_pos hcombine, hone]
  · rw [Opcode.effect_of_mem_multiplies hmul] at hrules
    dsimp only at hrules
    split at hrules <;> cases hrules
    rename_i ho
    rw [of_accumulateRules? ho, results, if_pos hmul, arguments, if_pos hmul]

end Instr

namespace ThreadContext

/-- The marks of some registers together. -/
def joined (c : ThreadContext) (rs : List Reg) : Tag :=
  rs.foldr (fun r t => c.tagOrClean r ||| t) untainted

variable {c : ThreadContext}

theorem joined_cons (c : ThreadContext) (r : Reg) (rs : List Reg) :
    c.joined (r :: rs) = c.tagOrClean r ||| c.joined rs := rfl

/-- A register that is among others adds no marks to theirs. -/
theorem tagOrClean_or_joined {r : Reg} {rs : List Reg} (h : r ∈ rs) :
    c.tagOrClean r ||| c.joined rs = c.joined rs := by
  induction rs with
  | nil => cases h
  | cons q rs ih =>
      rw [joined_cons]
      rcases List.mem_cons.mp h with rfl | h
      · rw [← UInt8.or_assoc, UInt8.or_self]
      · rw [← UInt8.or_assoc, UInt8.or_comm (c.tagOrClean r), UInt8.or_assoc, ih h]

theorem joined_filter (c : ThreadContext) (rs : List Reg) :
    c.joined (rs.filter (Reg.isTracked c.bank.tracksPc)) = c.joined rs := by
  induction rs with
  | nil => rfl
  | cons r rs ih =>
      cases hr : r.isTracked c.bank.tracksPc with
      | true => rw [List.filter_cons_of_pos hr, joined_cons, joined_cons, ih]
      | false =>
          rw [List.filter_cons_of_neg (Bool.not_eq_true _ ▸ hr), joined_cons,
            tagOrClean_untracked hr, ih]
          exact UInt8.zero_or.symm

theorem joined_dropRepeats (c : ThreadContext) (rs : List Reg) :
    c.joined (dropRepeats rs) = c.joined rs := by
  induction rs using dropRepeats.induct with
  | case1 b rest ih =>
      rw [dropRepeats, if_pos rfl, ih]
      exact (tagOrClean_or_joined List.mem_cons_self).symm
  | case2 a b rest hne ih => rw [dropRepeats, if_neg hne, joined_cons, ih, joined_cons c a]
  | case3 rs hshort =>
      rw [dropRepeats]
      exact hshort

/-- Raising the tag of a register raises what some registers have together by as much, if it is one
of them. -/
theorem joined_withTag {r : Reg} (hr : r.isTracked c.bank.tracksPc = true) {t : Tag}
    {rs : List Reg} (ht : r ∈ rs → c.tagOrClean r ||| t = t) :
    (c.withTag r t).joined rs = if r ∈ rs then t ||| c.joined rs else c.joined rs := by
  induction rs with
  | nil => rfl
  | cons q rs ih =>
      rw [joined_cons, joined_cons, ih fun hr => ht (List.mem_cons_of_mem q hr)]
      by_cases hq : r = q
      · have hnew : (c.withTag r t).tagOrClean q = t := by
          rw [tagOrClean, tagOf_withTag hr, if_pos hq]
        have hmem : r ∈ q :: rs := List.mem_cons.mpr (Or.inl hq)
        rw [if_pos hmem, hnew, ← hq, ← UInt8.or_assoc, UInt8.or_comm t (c.tagOrClean r), ht hmem]
        split
        · rw [← UInt8.or_assoc, UInt8.or_self]
        · rfl
      · have hsame : (c.withTag r t).tagOrClean q = c.tagOrClean q :=
          tagOrClean_congr ((tagOf_withTag hr t q).trans (if_neg hq))
        have hmem : r ∈ q :: rs ↔ r ∈ rs := by simp [hq]
        simp only [hmem, hsame]
        split
        · rw [← UInt8.or_assoc, UInt8.or_comm _ t, UInt8.or_assoc]
        · rfl

theorem tagByte_withTag_eq (c : ThreadContext) (r : Reg) (t : Tag) (q : Reg) :
    (c.withTag r t).tagByte q =
      if q = r ∧ q.isTracked c.bank.tracksPc = true then some t else c.tagByte q := by
  cases hr : r.isTracked c.bank.tracksPc with
  | true =>
      rw [tagByte_withTag hr]
      by_cases hq : q = r
      · rw [if_pos hq.symm, if_pos ⟨hq, hq ▸ hr⟩]
      · rw [if_neg (Ne.symm hq), if_neg fun h => hq h.1]
  | false =>
      rw [withTag_untracked hr, if_neg]
      rintro ⟨rfl, hq⟩
      exact Bool.false_ne_true (hr.symm.trans hq)

/-- Giving a register the marks that some registers have together leaves them as they are. -/
theorem joined_withTag_joined (c : ThreadContext) (r : Reg) (rs : List Reg) :
    (c.withTag r (c.joined rs)).joined rs = c.joined rs := by
  cases hr : r.isTracked c.bank.tracksPc with
  | false => rw [withTag_untracked hr]
  | true =>
      rw [joined_withTag hr tagOrClean_or_joined, UInt8.or_self]
      exact ite_self _

end ThreadContext

/-! ## Running the unions -/

theorem Rule.unionTag_tracked {s : TagState} {rs : List Reg}
    (hrs : ∀ r ∈ rs, r.isTracked s.thread.bank.tracksPc = true) (t : Tag) :
    unionTag t rs s = .ok (t ||| s.thread.joined rs) s := by
  induction rs generalizing t with
  | nil => exact congrArg (EStateM.Result.ok · s) UInt8.or_zero.symm
  | cons r rs ih =>
      obtain ⟨hr, hrs⟩ := List.forall_mem_cons.mp hrs
      rw [unionTag, bind_ok (TagState.regTag_tracked hr), ih hrs, ThreadContext.joined_cons,
        UInt8.or_assoc]

/-- However it degrades, the rule is the union of all sources. -/
theorem Rule.apply_union? (s : TagState) (f : RegFile) (dst : Reg) (srcs : List Reg) :
    (union? s.thread.bank.tracksPc dst srcs).toList.forM (Rule.apply f) s =
      .ok () (s.withRegTag dst (s.thread.joined srcs)) := by
  cases hdst : dst.isTracked s.thread.bank.tracksPc with
  | false =>
      rw [union?_untracked hdst, TagState.withRegTag, ThreadContext.withTag_untracked hdst]
      rfl
  | true =>
      -- Dropping untracked and repeated sources leaves the marks that the sources have together.
      have hkept : s.thread.joined (dropRepeats (srcs.filter
          (Reg.isTracked s.thread.bank.tracksPc))) = s.thread.joined srcs := by
        rw [ThreadContext.joined_dropRepeats, ThreadContext.joined_filter]
      have htracked : ∀ r ∈ dropRepeats (srcs.filter (Reg.isTracked s.thread.bank.tracksPc)),
          r.isTracked s.thread.bank.tracksPc = true :=
        fun r hr => (List.mem_filter.mp (mem_of_mem_dropRepeats hr)).2
      unfold union?
      rw [← hkept]
      generalize dropRepeats (srcs.filter (Reg.isTracked s.thread.bank.tracksPc)) = kept at htracked
      cases kept with
      | nil => exact Rule.apply_clear? s f dst
      | cons q rest =>
          cases rest with
          | nil =>
              have hcopy := apply_copy? hdst f q
              rwa [← UInt8.or_zero (a := s.thread.tagOrClean q)] at hcopy
          | cons r rest =>
              dsimp only
              rw [if_pos hdst]
              change ([Rule.union dst (q :: r :: rest)].forM (Rule.apply f)) s = _
              rw [forM_singleton]
              change (unionTag untainted (q :: r :: rest) >>= TagState.setRegTag dst) s = _
              rw [bind_ok (unionTag_tracked htracked untainted), TagState.setRegTag_tracked hdst]
              exact congrArg (fun t => EStateM.Result.ok () (s.withRegTag dst t)) UInt8.zero_or

namespace TagState

/-- Every result takes the marks that the arguments have together, be it an argument or not. -/
theorem forM_union? (s : TagState) (f : RegFile) (dsts srcs : List Reg) :
    (dsts.filterMap fun dst => Rule.union? s.thread.bank.tracksPc dst srcs).forM (Rule.apply f) s =
      .ok () (s.withRegTags (dsts.map (·, s.thread.joined srcs))) := by
  rw [List.filterMap_eq_flatMap_toList, forM_flatMap]
  induction dsts generalizing s with
  | nil => rfl
  | cons dst dsts ih =>
      -- The next rules find the union in one register more and still join the same marks.
      have hrest := ih (s.withRegTag dst (s.thread.joined srcs))
      rw [tracksPc_withRegTag] at hrest
      have hjoined := s.thread.joined_withTag_joined dst srcs
      refine (bind_ok (Rule.apply_union? s f dst srcs)).trans (hrest.trans ?_)
      exact congrArg (fun t => EStateM.Result.ok () ((s.withRegTag dst _).withRegTags
        (dsts.map (·, t)))) hjoined

theorem tagByte_withRegTags_same (s : TagState) (dsts : List Reg) (t : Tag) (r : Reg) :
    (s.withRegTags (dsts.map (·, t))).thread.tagByte r =
      if r ∈ dsts ∧ r.isTracked s.thread.bank.tracksPc = true then some t
      else s.thread.tagByte r := by
  induction dsts generalizing s with
  | nil => rfl
  | cons dst dsts ih =>
      have hrest := ih (s.withRegTag dst t)
      rw [tracksPc_withRegTag] at hrest
      refine hrest.trans ?_
      rw [withRegTag, ThreadContext.tagByte_withTag_eq]
      by_cases hlater : r ∈ dsts <;>
        by_cases htracked : r.isTracked s.thread.bank.tracksPc = true <;> simp [hlater, htracked]

end TagState

/-- A data processing instruction that has rules gives every tracked result the marks that its
arguments had together before, and changes nothing else. -/
theorem data_processing_tags {i : Instr} {a : Analyzer} {f : RegFile} {tags : TagState}
    {rules : List Rule} (hop : i.opcode ∈ Opcode.dataProcessing)
    (hrules : i.rules a.tracksPc = .ok rules) (hpc : tags.thread.bank.tracksPc = a.tracksPc) :
    let tracked := Reg.isTracked a.tracksPc
    let before := tags.thread
    ∃ plan after, Analyzer.analyze i a = .ok plan a ∧ plan.apply f tags = .ok () after ∧
      (∀ r ∈ i.results, tracked r = true →
        after.thread.tagOf r = .ok (before.joined i.arguments)) ∧
      (∀ r, r ∉ i.results ∨ tracked r = false →
        after.thread.tagByte r = before.tagByte r) ∧
      after.store = tags.store ∧ after.thread.slots = before.slots := by
  intro tracked before
  have hrun := TagState.forM_union? tags f i.results i.arguments
  rw [hpc, ← Instr.rules_of_mem_dataProcessing hop hrules] at hrun
  obtain ⟨hstore, -, hslots, htracksPc⟩ := TagState.withRegTags_frame (s := tags)
    (i.results.map (·, before.joined i.arguments))
  have hbytes := tags.tagByte_withRegTags_same i.results (before.joined i.arguments)
  refine ⟨⟨i.pc, i.opcode, rules⟩, _, Analyzer.analyze_rules hrules, hrun, fun r hr htracked => ?_,
    fun r hr => ?_, hstore, hslots⟩
  · rw [← ThreadContext.tagByte_eq_some_iff (by rwa [htracksPc, hpc]), hbytes,
      if_pos ⟨hr, by rwa [hpc]⟩]
  · rw [hbytes, hpc, if_neg]
    rintro ⟨hmem, htracked⟩
    rcases hr with hr | hr
    · exact hr hmem
    · exact Bool.false_ne_true (hr.symm.trans htracked)

/-- A long multiply into registers that it also multiplies. The first result is an argument of the
second one, and the program counter, which is not tracked, adds nothing. -/
theorem data_processing_tags_long_multiply :
    let i : Instr := ⟨0x100, .umull, [.reg ⟨1⟩, .reg ⟨2⟩], [.reg ⟨1⟩, .reg ⟨2⟩, .reg .pc]⟩
    let tags : TagState :=
      ⟨.small .lazy, ((ThreadContext.new 0x10000000 false).withTag ⟨1⟩ 5).withTag ⟨2⟩ 0x42⟩
    ∃ plan after, Analyzer.analyze i (.new .strict false) = .ok plan (.new .strict false) ∧
      plan.apply .zero tags = .ok () after ∧
      after.thread.tagOf ⟨1⟩ = .ok 0x47 ∧ after.thread.tagOf ⟨2⟩ = .ok 0x47 ∧
      after.thread.tagByte .pc = tags.thread.tagByte .pc := by
  intro i tags
  have hpc : tags.thread.bank.tracksPc = (Analyzer.new .strict false).tracksPc := rfl
  obtain ⟨plan, after, hplan, hrun, hresults, hothers, -⟩ :=
    data_processing_tags (i := i) (f := .zero) (by decide) rfl hpc
  have hjoined : tags.thread.joined i.arguments = 0x47 := by decide +kernel
  rw [hjoined] at hresults
  exact ⟨plan, after, hplan, hrun, hresults ⟨1⟩ (by decide) (by decide),
    hresults ⟨2⟩ (by decide) (by decide), hothers .pc (by decide)⟩

end TaintFlow
