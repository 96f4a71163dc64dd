import TaintFlow.Proofs.Plan.Blocks
import TaintFlow.Proofs.Plan.Unions

/-!
# Stores

A store writes its words one after the other and stops at the first one that cannot be written. All
sources are read from the bank as it was before: the status register of an exclusive store is
cleared behind the last word, and only if that word was written.
-/

namespace TaintFlow

open TaintFlow.Action

namespace Instr

/-- The instruction stores consecutive words of `mem`, one for each register of `srcs`. -/
structure IsStore (i : Instr) (mem : MemRef) (srcs : List Reg) : Prop where
  opcode : i.opcode = .strd ∧ srcs.length = 2 ∨
    i.opcode ∈ [.str, .strb, .strh, .strex] ∧ srcs.length = 1
  mem : i.dsts.findSome? Operand.mem? = some mem
  srcs : (i.srcs.filterMap Operand.reg?).take srcs.length = srcs

/-- The register that receives the status of an exclusive store. -/
def status? (i : Instr) : Option Reg :=
  if i.opcode = .strex then i.dsts.findSome? Operand.reg? else none

variable {i : Instr} {mem : MemRef} {srcs : List Reg}

theorem IsStore.storeRules (h : i.IsStore mem srcs) (tracksPc : Bool) :
    i.storeRules? tracksPc srcs.length =
      some [.store (srcs.map fun r => if r.isTracked tracksPc then some r else none) mem] := by
  unfold storeRules?
  rw [h.mem, h.srcs]
  simp [guard]

theorem IsStore.rules (h : i.IsStore mem srcs) (tracksPc : Bool) :
    i.rules tracksPc =
      .ok (.store (srcs.map fun r => if r.isTracked tracksPc then some r else none) mem ::
        (i.status?.bind (Rule.clear? tracksPc)).toList) := by
  have hstore := h.storeRules tracksPc
  unfold Instr.rules status?
  rcases h.opcode with ⟨hop, hwords⟩ | ⟨hop, hwords⟩
  · rw [hwords] at hstore
    simp only [hop, Opcode.effect, hstore]
    rfl
  · rw [hwords] at hstore
    simp only [List.mem_cons, List.not_mem_nil, or_false] at hop
    rcases hop with hop | hop | hop | hop <;> simp only [hop, Opcode.effect, hstore] <;> rfl

end Instr

/-- A source that is not tracked is stored as zero. -/
theorem Rule.sourceTag_eq (r : Reg) (s : TagState) :
    sourceTag (if r.isTracked s.thread.bank.tracksPc then some r else none) s =
      .ok (s.thread.tagOrClean r) s := by
  cases hr : r.isTracked s.thread.bank.tracksPc with
  | true => exact TagState.regTag_tracked hr
  | false =>
      rw [ThreadContext.tagOrClean_untracked hr]
      rfl

namespace TagState

/-- The place of a store that fails: its word cannot be written. -/
def StoreFails (before : TagState) (word : Nat → Address) (count k : Nat) (e : ApplyError) : Prop :=
  k < count ∧ ∃ cause, before.store.refusal? (word k) = some cause ∧ e = .shadow cause

variable {before : TagState} {word : Nat → Address} {srcs : List Reg}

theorem advances_store {k : Nat} {r : Reg} (hr : srcs[k]? = some r) :
    Advances (fun k s => before.StoredTo (fun k r => srcs[k]? = some r) word k s ∧
        s.store.Consistent) (before.StoreFails word srcs.length) k
      (Rule.sourceTag (if r.isTracked before.thread.bank.tracksPc then some r else none) >>=
        setMemTag (word k)) := by
  rintro s ⟨h, hs⟩
  -- The words in front have left the bank alone.
  have hsource := Rule.sourceTag_eq r s
  rw [h.thread] at hsource
  have honly : ∀ q, srcs[k]? = some q ↔ q = r := fun q => by
    rw [hr, Option.some_inj, eq_comm]
  have hlt : k < srcs.length := (List.getElem?_eq_some_iff.mp hr).1
  rw [bind_ok hsource]
  exact (StoredTo.advances_setMemTag honly).imp (G := before.StoreFails word srcs.length)
    (fun e he => ⟨hlt, he⟩) s ⟨h, hs⟩

end TagState

/-- A store goes through its words as far as they can be written. -/
theorem Rule.storedTo_apply {before : TagState} (hs : before.store.Consistent) (f : RegFile)
    (mem : MemRef) (srcs : List Reg) :
    let word := mem.wordAddress f
    let source := fun r : Reg =>
      if r.isTracked before.thread.bank.tracksPc then some r else none
    let run := outcome ((Rule.store (srcs.map source) mem).apply f) before
    ∃ stop ≤ srcs.length,
      before.StoredTo (fun k r => srcs[k]? = some r) word stop run.2 ∧
      (run.1 = .ok () ∧ stop = srcs.length ∨
        ∃ e, run.1 = .error e ∧ before.StoreFails word srcs.length stop e) := by
  intro word source run
  have hplace : ∀ k r, srcs[k]? = some r →
      Advances (fun k s => before.StoredTo (fun k r => srcs[k]? = some r) word k s ∧
          s.store.Consistent) (before.StoreFails word srcs.length) k
        (sourceTag (source r) >>= TagState.setMemTag (word k)) :=
    fun k r hr => TagState.advances_store hr
  have hrun := forM_zipIdx_stops hplace ⟨.start _ _ _, hs⟩
  have happly : (Rule.store (srcs.map source) mem).apply f =
      srcs.zipIdx.forM fun x => sourceTag (source x.1) >>= TagState.setMemTag (word x.2) := by
    rw [Rule.apply, List.zipIdx_map, forM_map]
    rfl
  rw [← happly] at hrun
  obtain ⟨stop, hstop, hend, hresult⟩ := hrun
  exact ⟨stop, hstop, hend.1, hresult⟩

/-- Clearing a status register changes its tag only, and nothing if it is not tracked. -/
theorem Rule.apply_status (s : TagState) (f : RegFile) (status : Option Reg) :
    ∃ thread : ThreadContext,
      (status.bind (clear? s.thread.bank.tracksPc)).toList.forM (Rule.apply f) s =
        .ok () { s with thread } ∧
      (∀ r, thread.tagByte r =
        if status = some r ∧ r.isTracked s.thread.bank.tracksPc = true then some untainted
        else s.thread.tagByte r) ∧
      thread.slots = s.thread.slots ∧ thread.address = s.thread.address ∧
      thread.bank.tracksPc = s.thread.bank.tracksPc := by
  cases status with
  | none => exact ⟨s.thread, rfl, fun r => (if_neg fun h => nomatch h.1).symm, rfl, rfl, rfl⟩
  | some q =>
      obtain ⟨haddress, hslots, htracksPc⟩ := s.thread.withTag_frame q untainted
      refine ⟨_, Rule.apply_clear? s f q, fun r => ?_, hslots, haddress, htracksPc⟩
      rw [ThreadContext.tagByte_withTag_eq]
      simp only [Option.some_inj, eq_comm]

/-- A store goes through its words up to the first one that cannot be written, and fails there as
that word does. The words in front of it have the tags that their registers had, zero where none is
maintained, the last one counting for a granule. If no word fails, the status register of an
exclusive store is cleared. Nothing else has changed. -/
theorem store_tags_words {backend : Backend} {w : Window} {i : Instr} {mem : MemRef}
    {srcs : List Reg} {a : Analyzer} {tags : TagState} (f : RegFile)
    (hreach : Store.Reachable backend w tags.store) (hstore : i.IsStore mem srcs)
    (hpc : tags.thread.bank.tracksPc = a.tracksPc) :
    let word := mem.wordAddress f
    let before := tags.thread
    ∃ plan result after stop, Analyzer.analyze i a = .ok plan a ∧
      outcome (plan.apply f) tags = (result, after) ∧
      tags.StoredTo (fun k r => srcs[k]? = some r) word stop { after with thread := before } ∧
      (result = .ok () ∧ stop = srcs.length ∧
        (∀ r, after.thread.tagByte r =
          if i.status? = some r ∧ r.isTracked a.tracksPc = true then some untainted
          else before.tagByte r) ∧
        after.thread.slots = before.slots ∧ after.thread.address = before.address ∧
        after.thread.bank.tracksPc = before.bank.tracksPc ∨
      ∃ cause, stop < srcs.length ∧ tags.store.refusal? (word stop) = some cause ∧
        result = .error (.shadow cause) ∧ after.thread = before) := by
  intro word before
  have hplan := Analyzer.analyze_rules (a := a) (hstore.rules a.tracksPc)
  obtain ⟨stop, hstop, hstored, hresult⟩ := Rule.storedTo_apply hreach.consistent f mem srcs
  rw [hpc] at hstored hresult
  generalize Rule.store (srcs.map fun r =>
    if r.isTracked a.tracksPc then some r else none) mem = rule at hplan hstored hresult
  -- The status is cleared by the rule behind the store, which fails as the store does.
  have hrun := outcome_bind (rule.apply f)
    (fun _ => (i.status?.bind (Rule.clear? a.tracksPc)).toList.forM (Rule.apply f)) tags
  generalize outcome (rule.apply f) tags = run at hstored hresult hrun
  obtain ⟨result, mid⟩ := run
  have hthread : mid.thread = before := hstored.thread
  rcases hresult with ⟨rfl, hend⟩ | ⟨_, rfl, hlt, cause, hrefusal, rfl⟩
  · obtain ⟨thread, hclear, htags, hslots, haddress, htracksPc⟩ := Rule.apply_status mid f i.status?
    rw [hthread, hpc] at hclear htags
    refine ⟨_, _, _, stop, hplan, hrun.trans (outcome_of_eq_ok hclear), ?_,
      Or.inl ⟨rfl, hend, htags, ?_, ?_, ?_⟩⟩
    · rwa [← hthread]
    · rw [hslots, hthread]
    · rw [haddress, hthread]
    · rw [htracksPc, hthread]
  · refine ⟨_, _, _, stop, hplan, hrun, ?_, Or.inr ⟨cause, hlt, hrefusal, rfl, hthread⟩⟩
    rwa [← hthread]

/-- The source of an exclusive store is also its status register. What is stored is the tag from
before the register was cleared. -/
theorem store_tags_words_own_status :
    let i : Instr := ⟨0x100, .strex, [.reg ⟨1⟩, .mem (.beside ⟨4⟩ 8)], [.reg ⟨1⟩]⟩
    let f := RegFile.zero.set ⟨4⟩ 0x1000
    let tags : TagState := ⟨.small .lazy, .tainted⟩
    ∃ plan after, Analyzer.analyze i (.new .strict true) = .ok plan (.new .strict true) ∧
      outcome (plan.apply f) tags = (.ok (), after) ∧
      after.store.tagOf 0x1008 = .ok 5 ∧ after.thread.tagByte ⟨1⟩ = some 0 := by
  intro i f tags
  have hreach : Store.Reachable .lazy .small tags.store := ⟨.granting, _, rfl, .refl⟩
  have hstore : i.IsStore (.beside ⟨4⟩ 8) [⟨1⟩] := ⟨Or.inr ⟨by decide, rfl⟩, rfl, rfl⟩
  have hpc : tags.thread.bank.tracksPc = (Analyzer.new .strict true).tracksPc := rfl
  obtain ⟨plan, result, after, stop, hplan, hrun, hstored, hresult⟩ :=
    store_tags_words f hreach hstore hpc
  have hgranted : tags.store.refusal? ((MemRef.beside ⟨4⟩ 8).wordAddress f 0) = none := by decide
  rcases hresult with ⟨rfl, rfl, htags, -⟩ | ⟨cause, hlt, hrefusal, -⟩
  · have hword := hstored.stored 0 ⟨1⟩ 0x1008 (by decide) rfl ⟨by decide, by decide, by decide⟩
      fun later q hlater hstop => absurd hstop (Nat.not_lt.mpr hlater)
    exact ⟨plan, after, hplan, hrun, hword.trans rfl, (htags ⟨1⟩).trans (if_pos (by decide))⟩
  · cases Nat.lt_one_iff.mp hlt
    cases hgranted.symm.trans hrefusal

end TaintFlow
