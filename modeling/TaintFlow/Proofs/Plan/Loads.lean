import TaintFlow.Proofs.Plan.Registers

/-!
# Loads

A load leaves out the destinations that are not tracked before it numbers its words. A tracked
destination takes the tag of the word whose number is that of the tracked destinations in front of
it, which is its own word only if all of them are tracked.
-/

namespace TaintFlow

open TaintFlow.Action

/-- The instruction loads consecutive words of `mem`, one for each register of `dsts`. -/
structure Instr.IsLoad (i : Instr) (mem : MemRef) (dsts : List Reg) : Prop where
  opcode : i.opcode = .ldrd ∧ dsts.length = 2 ∨
    i.opcode ∈ [.ldr, .ldrb, .ldrh, .ldrex, .ldrsb, .ldrsh] ∧ dsts.length = 1
  mem : i.srcs.findSome? Operand.mem? = some mem
  dsts : (i.dsts.filterMap Operand.reg?).take dsts.length = dsts

variable {i : Instr} {mem : MemRef} {dsts : List Reg}

theorem Instr.IsLoad.effect (h : i.IsLoad mem dsts) : i.opcode.effect = .load dsts.length := by
  rcases h.opcode with ⟨hop, hwords⟩ | ⟨hop, hwords⟩
  · rw [hop, hwords]
    rfl
  · rw [hwords]
    revert hop
    generalize i.opcode = op
    cases op <;> decide

theorem Instr.IsLoad.rules (h : i.IsLoad mem dsts) (tracksPc : Bool) :
    i.rules tracksPc = .ok (if (dsts.filter (Reg.isTracked tracksPc)).isEmpty then []
      else [.load (dsts.filter (Reg.isTracked tracksPc)) mem]) := by
  unfold Instr.rules loadRules?
  rw [h.effect, h.mem]
  dsimp only
  rw [h.dsts]
  simp [guard]

/-- A load without destinations does what no rule does. -/
theorem Rule.forM_load (f : RegFile) (regs : List Reg) :
    (if regs.isEmpty then [] else [Rule.load regs mem]).forM (Rule.apply f) =
      (Rule.load regs mem).apply f := by
  cases regs with
  | nil => rfl
  | cons r regs => exact forM_singleton _ _

namespace TagState

variable (s : TagState) (mem : MemRef) (f : RegFile)

/-- The tags that registers take from consecutive words, the first of which has number `first`. -/
def loaded (first : Nat) (regs : List Reg) : List (Reg × Tag) :=
  (regs.zipIdx first).map fun x => (x.1, s.store.tagAt (mem.wordAddress f x.2))

theorem loaded_split (first : Nat) (before later : List Reg) (r : Reg) :
    s.loaded mem f first (before ++ r :: later) =
      s.loaded mem f first before ++
        (r, s.store.tagAt (mem.wordAddress f (first + before.length))) ::
          s.loaded mem f (first + before.length + 1) later := by
  unfold loaded
  rw [List.zipIdx_append, List.map_append, List.zipIdx_cons, List.map_cons]

theorem map_fst_loaded (first : Nat) (regs : List Reg) :
    (s.loaded mem f first regs).map Prod.fst = regs := by
  unfold loaded
  rw [List.map_map]
  exact List.zipIdx_map_fst first regs

theorem tracked_loaded {s : TagState} {tracked : Reg → Prop} {regs : List Reg}
    (h : ∀ r ∈ regs, tracked r) (first : Nat) : ∀ w ∈ s.loaded mem f first regs, tracked w.1 := by
  intro w hw
  refine h w.1 ?_
  rw [← s.map_fst_loaded mem f first regs]
  exact List.mem_map_of_mem hw

end TagState

/-- The words are read in turn, all from the store as it is. -/
theorem Rule.apply_load {s : TagState} {f : RegFile} {regs : List Reg}
    (hregs : ∀ r ∈ regs, r.isTracked s.thread.bank.tracksPc = true)
    (hwords : ∀ k < regs.length, s.store.layout.covers (mem.wordAddress f k) = true) :
    (Rule.load regs mem).apply f s = .ok () (s.withRegTags (s.loaded mem f 0 regs)) := by
  have hrun := TagState.forM_loads (s := s)
    (regs.zipIdx.map fun x => (x.1, mem.wordAddress f x.2)) ?_ ?_
  · rw [forM_map, List.map_map] at hrun
    exact hrun
  · rw [List.forall_mem_map]
    exact fun x hx => hregs x.1 (List.fst_mem_of_mem_zipIdx hx)
  · rw [List.forall_mem_map]
    exact fun x hx => hwords x.2 (List.snd_lt_of_mem_zipIdx hx)

/-- A load whose words are covered changes the tags of its tracked destinations only. Such a
destination takes the tag of the word that is numbered by the tracked destinations in front of it:
the word of its own place if these are tracked, too. Of equal destinations the last one counts. -/
theorem load_tags_destinations {a : Analyzer} {f : RegFile} {tags : TagState}
    (hload : i.IsLoad mem dsts) (hpc : tags.thread.bank.tracksPc = a.tracksPc)
    (hwords : ∀ k < dsts.length, tags.store.layout.covers (mem.wordAddress f k) = true) :
    let tracked := Reg.isTracked a.tracksPc
    ∃ plan after, Analyzer.analyze i a = .ok plan a ∧ plan.apply f tags = .ok () after ∧
      (∀ before r later, dsts = before ++ r :: later → tracked r = true → r ∉ later →
        let word := before.countP tracked
        (∃ t, tags.store.tagOf (mem.wordAddress f word) = .ok t ∧ after.thread.tagOf r = .ok t) ∧
          ((∀ q ∈ before, tracked q = true) → word = before.length)) ∧
      (∀ r, r ∉ dsts ∨ tracked r = false →
        after.thread.tagByte r = tags.thread.tagByte r) ∧
      after.store = tags.store ∧ after.thread.slots = tags.thread.slots := by
  intro tracked
  have hregs : ∀ r ∈ dsts.filter tracked, r.isTracked tags.thread.bank.tracksPc = true := by
    intro r hr
    rw [hpc]
    exact (List.mem_filter.mp hr).2
  have hwrites := TagState.tracked_loaded mem f (s := tags) hregs 0
  have hshort : (dsts.filter tracked).length ≤ dsts.length := List.length_filter_le _ _
  have hrun := Rule.apply_load (f := f) hregs fun k hk => hwords k (Nat.lt_of_lt_of_le hk hshort)
  obtain ⟨hstore, -, hslots, -⟩ := TagState.withRegTags_frame (s := tags)
    (tags.loaded mem f 0 (dsts.filter tracked))
  refine ⟨⟨i.pc, i.opcode, _⟩, _, Analyzer.analyze_rules (hload.rules a.tracksPc),
    (congrFun (Rule.forM_load f _) tags).trans hrun, ?_, ?_, hstore, hslots⟩
  · intro before r later hdsts hr hlast word
    have hword : word < dsts.length := by
      have hle : word ≤ before.length := List.countP_le_length
      rw [hdsts, List.length_append, List.length_cons]
      omega
    have hsplit : dsts.filter tracked = before.filter tracked ++ r :: later.filter tracked := by
      rw [hdsts, List.filter_append, List.filter_cons_of_pos hr]
    -- The register is numbered among the tracked ones only.
    have hlast' : r ∉ later.filter tracked := fun hmem => hlast (List.mem_filter.mp hmem).1
    have hnumber : (before.filter tracked).length = word := List.countP_eq_length_filter.symm
    refine ⟨⟨_, Store.tagOf_covered (hwords word hword), ?_⟩, List.countP_eq_length.mpr⟩
    rw [hsplit, TagState.loaded_split, Nat.zero_add, hnumber] at hwrites ⊢
    refine TagState.tagOf_withRegTags hwrites ?_
    rwa [TagState.map_fst_loaded]
  · intro r hr
    refine TagState.tagByte_withRegTags_of_notMem hwrites ?_
    rw [TagState.map_fst_loaded, List.mem_filter]
    rcases hr with hr | hr
    · exact fun h => hr h.1
    · exact fun h => Bool.false_ne_true (hr.symm.trans h.2)

/-- A pair is loaded: the second register takes the tag of the second word. -/
theorem load_tags_destinations_pair :
    let i : Instr := ⟨0x100, .ldrd, [.reg ⟨2⟩, .reg ⟨3⟩], [.mem (.beside ⟨4⟩ 8)]⟩
    let f := RegFile.zero.set ⟨4⟩ 0x1000
    let tags : TagState := ⟨(Store.small .lazy).withTag 0x100c 5, .tainted⟩
    ∃ plan after, Analyzer.analyze i (.new .strict true) = .ok plan (.new .strict true) ∧
      plan.apply f tags = .ok () after ∧ after.thread.tagOf ⟨3⟩ = .ok 5 ∧
      after.thread.tagByte ⟨1⟩ = some 5 := by
  intro i f tags
  have hload : i.IsLoad (.beside ⟨4⟩ 8) [⟨2⟩, ⟨3⟩] := ⟨Or.inl ⟨rfl, rfl⟩, rfl, rfl⟩
  have hpc : tags.thread.bank.tracksPc = (Analyzer.new .strict true).tracksPc := rfl
  obtain ⟨plan, after, hplan, hrun, htags, hothers, -⟩ :=
    load_tags_destinations (f := f) hload hpc (by decide)
  obtain ⟨⟨t, hword, htag⟩, -⟩ := htags [⟨2⟩] ⟨3⟩ [] rfl (by decide) (by decide)
  have hfive : ((Store.small .lazy).withTag 0x100c 5).tagOf 0x100c = .ok 5 := rfl
  have ht : t = 5 := Except.ok.inj (hword.symm.trans hfive)
  exact ⟨plan, after, hplan, hrun, ht ▸ htag, hothers ⟨1⟩ (by decide)⟩

/-- The program counter is not tracked. The register behind it takes the tag of the first word, and
not that of the second word, which is its own. -/
theorem load_tags_destinations_behind_pc :
    let i : Instr := ⟨0x100, .ldrd, [.reg .pc, .reg ⟨0⟩], [.mem (.beside ⟨1⟩ 0)]⟩
    let plan : Plan := ⟨0x100, .ldrd, [.load [⟨0⟩] (.beside ⟨1⟩ 0)]⟩
    let f := RegFile.zero.set ⟨1⟩ 0x1000
    let tags : TagState :=
      ⟨((Store.small .lazy).withTag 0x1000 0x41).withTag 0x1004 0x42, .new 0x10000000 false⟩
    i.IsLoad (.beside ⟨1⟩ 0) [.pc, ⟨0⟩] ∧
      Analyzer.analyze i (.new .strict false) = .ok plan (.new .strict false) ∧
      tags.store.tagOf ((MemRef.beside ⟨1⟩ 0).wordAddress f 1) = .ok 0x42 ∧
      (outcome (plan.apply f) tags).2.thread.tagByte ⟨0⟩ = some 0x41 :=
  ⟨⟨Or.inl ⟨rfl, rfl⟩, rfl, rfl⟩, rfl, rfl, by decide +kernel⟩

end TaintFlow
