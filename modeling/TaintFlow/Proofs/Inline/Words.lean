import TaintFlow.Proofs.Inline.Meaning

/-!
# Addresses of words

A rule that is carried out adds the offset of a word to the address of its operand, in 64 bits.
Inline code adds it to the displacement, in 32 bits, and widens the sum. The addresses differ by
the multiples of 2^32 that the displacement has lost, so they are the same as long as it does not
wrap around.
-/

namespace TaintFlow

open TaintFlow.Action

/-- The addresses do not meet again as long as the words fill no more than half of all memory. -/
theorem MemRef.codeAddress_eq_iff (m : MemRef) (f : RegFile) {i : Nat} (hi : 8 * i < UInt64.size) :
    m.codeAddress f i = m.wordAddress f i ↔ m.Fits i := by
  have hhigh := m.disp.toInt_le
  have hlow := (m.word i).disp.minValue_le_toInt
  have hmin : Int32.minValue.toInt = -2147483648 := rfl
  have hmax : Int32.maxValue.toInt = 2147483647 := rfl
  have hword := m.toInt_disp_word i
  have hspace : UInt64.size = 18446744073709551616 := rfl
  have hdistance : (UInt64.ofNat (0x100000000 * m.wraps i)).toNat = 0x100000000 * m.wraps i := by
    rw [UInt64.toNat_ofNat']
    omega
  rw [← m.address_word_add i f, codeAddress, eq_comm, UInt64.add_eq_left, ← UInt64.toNat_inj,
    hdistance, ← wraps_eq_zero_iff, UInt64.toNat_zero]
  omega

/-! ## What code does with application addresses -/

/-- A step of inline code that handles an application address. -/
inductive AddressUse where
  | computed (a : Address)
  | saved (a : Address)
  | translated (a : Address)
deriving DecidableEq

/-- A shadow access computes its address, saves it and translates it. -/
def AddressUse.ofWord (a : Address) : List AddressUse :=
  [.computed a, .saved a, .translated a]

namespace InlineInstr

/-- How an instruction handles an application address in the state before it. -/
def use? (f : RegFile) (st : ExecState) : InlineInstr → Option AddressUse
  | .loadAddress _ mem => some (.computed (mem.address f))
  | .saveSlot src .appAddress => some (.saved (st.held src))
  | .appToShadow reg => some (.translated (st.held reg))
  | _ => none

/-- The addresses that code handles up to its end, or up to the instruction that fails. -/
def uses (f : RegFile) : List InlineInstr → ExecState → List AddressUse
  | [], _ => []
  | i :: code, st =>
    (i.use? f st).toList ++
      match i.exec f st with
      | .ok _ st' => uses f code st'
      | .error _ _ => []

/-- Wherever the code starts it handles the addresses `expected` in turn, unless it fails first. -/
def Handles (f : RegFile) (code : List InlineInstr) (expected : List AddressUse) : Prop :=
  ∀ st, uses f code st <+: expected ∧ ∀ st', run f code st = .ok () st' → uses f code st = expected

variable {f : RegFile}

theorem uses_append (xs ys : List InlineInstr) (st : ExecState) :
    uses f (xs ++ ys) st = uses f xs st ++
      match run f xs st with
      | .ok _ st' => uses f ys st'
      | .error _ _ => [] := by
  induction xs generalizing st with
  | nil => rfl
  | cons i xs ih =>
      rw [List.cons_append, uses, uses, List.append_assoc]
      cases h : i.exec f st with
      | ok _ st' => rw [run_cons h, ← ih]
      | error e st' => rw [run_cons_error h]; rfl

theorem handles_nil : Handles f [] [] :=
  fun _ => ⟨List.prefix_rfl, fun _ _ => rfl⟩

theorem Handles.append {xs ys : List InlineInstr} {expected rest : List AddressUse}
    (hx : Handles f xs expected) (hy : Handles f ys rest) :
    Handles f (xs ++ ys) (expected ++ rest) := by
  intro st
  obtain ⟨hinit, hwhole⟩ := hx st
  rw [uses_append]
  cases h : run f xs st with
  | error e st' =>
      -- Nothing of `ys` is reached.
      rw [run_append_error h]
      dsimp only
      rw [List.append_nil]
      exact ⟨hinit.trans (List.prefix_append _ _), fun st' hok => nomatch hok⟩
  | ok _ st' =>
      obtain ⟨hinit', hwhole'⟩ := hy st'
      rw [run_append h, hwhole st' h]
      exact ⟨(List.prefix_append_right_inj _).mpr hinit', fun st'' hok =>
        congrArg (expected ++ ·) (hwhole' st'' hok)⟩

/-- Code that handles no application address. -/
theorem handles_nothing {code : List InlineInstr} (h : ∀ i ∈ code, ∀ st, i.use? f st = none) :
    Handles f code [] := by
  have hnone : ∀ st, uses f code st = [] := by
    induction code with
    | nil => exact fun _ => rfl
    | cons i code ih =>
        intro st
        rw [uses, h i List.mem_cons_self st]
        cases i.exec f st with
        | ok _ st' => exact ih (fun j hj => h j (List.mem_cons_of_mem i hj)) st'
        | error _ _ => rfl
  exact fun st => ⟨(hnone st).symm ▸ List.nil_prefix, fun _ _ => hnone st⟩

/-- The address is translated after it was computed and saved, whether it is covered or not. -/
theorem handles_shadowOf {dst : Scratch} (hd : dst.Valid) (mem : MemRef) :
    Handles f (shadowOf dst mem) (AddressUse.ofWord (mem.address f)) := by
  have huses : ∀ st, uses f (shadowOf dst mem) st = AddressUse.ofWord (mem.address f) := by
    intro st
    have hheld := ExecState.held_hold_self st hd (mem.address f)
    have hlast : ∀ st', uses f [appToShadow dst] st' = [.translated (st'.held dst)] := by
      intro st'
      rw [uses]
      cases (appToShadow dst).exec f st' <;> rfl
    rw [shadowOf, uses, exec_loadAddress f st hd]
    dsimp only
    rw [uses, exec_saveSlot f _ hd]
    dsimp only
    rw [hlast]
    -- The register holds the address until it is translated.
    change [AddressUse.computed _, .saved ((st.hold dst _).held dst),
      .translated ((st.hold dst _).held dst)] = _
    rw [hheld]
    rfl
  exact fun st => ⟨huses st ▸ List.prefix_rfl, fun _ _ => huses st⟩

end InlineInstr

def Move.addressUses (f : RegFile) : Move → List AddressUse
  | .load _ mem i => AddressUse.ofWord (mem.codeAddress f i)
  | .store _ mem i => AddressUse.ofWord (mem.codeAddress f i)
  | _ => []

section Handles

open InlineInstr

variable {f : RegFile} {a b : Scratch}

theorem InlineInstr.handles_fetchSource (dst : Scratch) (src : Option Reg) :
    Handles f (fetchSource dst src) [] := by
  cases src with
  | none => exact handles_nothing (by simp [fetchSource, use?])
  | some r => exact handles_nothing (by simp [fetchSource, InlineInstr.tagOf, use?])

/-- The code of a move handles the address of its word and no other address. -/
theorem Move.handles_code (ha : a.Valid) (m : Move) : Handles f (m.code a b) (m.addressUses f) := by
  cases m with
  | load dst mem i =>
      have hrest : Handles f (.loadByte a a :: InlineInstr.setTag b dst a) [] :=
        handles_nothing (by simp [InlineInstr.setTag, use?])
      exact (handles_shadowOf ha (mem.word i)).append hrest
  | store src mem i =>
      have hrest : Handles f [.storeByte a b] [] := handles_nothing (by simp [use?])
      rw [code, storeWord_eq]
      exact (handles_fetchSource b src).append ((handles_shadowOf ha (mem.word i)).append hrest)
  | copy dst src =>
      exact handles_nothing (by simp [code, copyTag, InlineInstr.tagOf, setTag, use?])
  | clear dst => exact handles_nothing (by simp [code, clearTag, setTag, use?])
  | union dst srcs =>
      refine handles_nothing ?_
      simp only [code, unionTags, InlineInstr.tagOf, setTag, List.cons_append, List.mem_cons,
        List.mem_append, List.mem_flatMap, List.not_mem_nil, or_false, false_or]
      rintro _ (rfl | ⟨r, -, rfl | rfl | rfl⟩ | rfl | rfl) st
      all_goals rfl
  | block t => exact handles_nothing (by simp [code, use?])

theorem Lowered.handles {moves : List Move} {code : List InlineInstr} (h : Lowered moves code) :
    Handles f code (moves.flatMap (Move.addressUses f)) := by
  induction h with
  | nil => exact handles_nil
  | cons ha _ _ _ ih => exact (Move.handles_code ha _).append ih

end Handles

/-! ## Rules over words -/

namespace Rule

/-- The operand of a load or a store, and what the rule does at the address of each word. -/
def accesses? : Rule → Option (MemRef × List (Address → Action TagState ApplyError Unit))
  | .load dsts mem =>
    some (mem, dsts.map fun dst a => do TagState.setRegTag dst (← TagState.memTag a))
  | .store srcs mem =>
    some (mem, srcs.map fun src a => do TagState.setMemTag a (← sourceTag src))
  | _ => none

variable {r : Rule} {mem : MemRef} {accesses : List (Address → Action TagState ApplyError Unit)}

theorem apply_accesses (h : r.accesses? = some (mem, accesses)) (f : RegFile) :
    r.apply f = accesses.zipIdx.forM fun (access, i) => access (mem.wordAddress f i) := by
  cases r <;> cases h <;> rw [List.zipIdx_map, forM_map] <;> rfl

theorem addressUses_moves (h : r.accesses? = some (mem, accesses)) (f : RegFile) :
    r.moves.flatMap (Move.addressUses f) =
      (List.range accesses.length).flatMap fun i => AddressUse.ofWord (mem.codeAddress f i) := by
  cases r <;> cases h
  all_goals
    rw [moves, List.flatMap_map, List.length_map, List.range_eq_range', ← List.zipIdx_map_snd,
      List.flatMap_map]
    rfl

/-- The code of a load or store computes, saves and translates one address for each word in turn.
The word's own address, which is accessed when the rule is carried out, is the same as long as the
displacement of the word is a 32-bit number, and lies higher by a multiple of 2^32 otherwise. -/
theorem emitted_word_addresses {σ ε : Type} {em : Emitter σ ε} {lent : List Scratch → σ → Prop}
    (hem : em.Reliable lent) {x : σ} (hx : lent [] x) (h : r.accesses? = some (mem, accesses))
    (f : RegFile) :
    let coded := (List.range accesses.length).flatMap fun i =>
      AddressUse.ofWord (mem.codeAddress f i)
    (∃ code x', r.emit em.recording (x, []) = .ok () (x', code) ∧ lent [] x' ∧
      ∀ st, InlineInstr.uses f code st <+: coded ∧
        ∀ st', InlineInstr.run f code st = .ok () st' → InlineInstr.uses f code st = coded) ∧
    (r.apply f = accesses.zipIdx.forM fun (access, i) => access (mem.wordAddress f i)) ∧
    (∀ i, mem.codeAddress f i + UInt64.ofNat (0x100000000 * mem.wraps i) = mem.wordAddress f i) ∧
    ∀ i, 8 * i < UInt64.size → (mem.codeAddress f i = mem.wordAddress f i ↔ mem.Fits i) := by
  intro coded
  obtain ⟨code, x', hrun, hx', hlowered⟩ := emitMoves_reliable hem r.moves hx []
  have hhandles : InlineInstr.Handles f code (r.moves.flatMap (Move.addressUses f)) :=
    hlowered.handles
  rw [addressUses_moves h f] at hhandles
  rw [← emit_eq_moves, List.nil_append] at hrun
  exact ⟨⟨code, x', hrun, hx', hhandles⟩, apply_accesses h f,
    fun i => mem.address_word_add i f, fun i hi => mem.codeAddress_eq_iff f hi⟩

/-- Two registers are stored side by side: the code runs to its end and handles the two addresses
that the rule accesses. -/
theorem emitted_word_addresses_pair :
    let mem := MemRef.beside ⟨4⟩ 8
    let f := RegFile.zero.set ⟨4⟩ 0x1000
    let st : ExecState := ⟨⟨.small .lazy, .tainted⟩, Vector.replicate Scratch.count 0⟩
    ∃ code x', emit CodeBuffer.emitter.recording (.store [some ⟨1⟩, none] mem)
        (.new [⟨0⟩, ⟨1⟩] none none, []) = .ok () (x', code) ∧
      InlineInstr.uses f code st =
        [.computed 0x1008, .saved 0x1008, .translated 0x1008,
          .computed 0x100c, .saved 0x100c, .translated 0x100c] ∧
      mem.wordAddress f 1 = 0x100c := by
  intro mem f st
  have hem := CodeBuffer.reliable [⟨0⟩, ⟨1⟩] (by decide) (by decide) (by decide)
  obtain ⟨⟨code, x', hemit, -, huses⟩, -, -, hsame⟩ := emitted_word_addresses hem
    (x := .new [⟨0⟩, ⟨1⟩] none none) ⟨rfl, rfl, rfl⟩
    (r := .store [some ⟨1⟩, none] mem) rfl f
  have hword : mem.codeAddress f 1 = mem.wordAddress f 1 := (hsame 1 (by decide)).mpr (by decide)
  have hcode : code = (outcome (emit CodeBuffer.emitter.recording (.store [some ⟨1⟩, none] mem))
      (.new [⟨0⟩, ⟨1⟩] none none, [])).2.2 := by
    rw [outcome, hemit]
  have hok : (outcome (InlineInstr.run f code) st).1.isOk := by
    rw [hcode]
    decide +kernel
  cases hrun : InlineInstr.run f code st with
  | ok _ st' => exact ⟨code, x', hemit, (huses st).2 st' hrun, hword.symm.trans rfl⟩
  | error e st' =>
      rw [outcome, hrun] at hok
      exact absurd hok Bool.false_ne_true

end Rule

/-- The shadow of a whole 32-bit address space. -/
def Window.wide : Window :=
  ⟨.full32, 0x100000000, by decide⟩

/-- The second word of a pair lies past the largest displacement. It is accessed when the rule is
carried out, but its code saves and translates an address that is not covered. -/
theorem emitted_word_addresses_wrapped :
    let mem := MemRef.beside ⟨1⟩ 0x7ffffffc
    let instr : Instr := ⟨0x100, .ldrd, [.reg ⟨2⟩, .reg ⟨3⟩], [.mem mem]⟩
    let rule := Rule.load [⟨2⟩, ⟨3⟩] mem
    let code := (outcome (rule.emit CodeBuffer.emitter) (.new [⟨0⟩, ⟨1⟩] none none)).2.code
    let f := RegFile.zero.set ⟨1⟩ 0x40000000
    let tags : TagState := ⟨⟨.wide, .granting, .zero, Store.fresh .lazy .full32⟩, .tainted⟩
    instr.rules false = .ok [rule] ∧
      InlineInstr.uses f code ⟨tags, Vector.replicate Scratch.count 0⟩ =
        [.computed 0xbffffffc, .saved 0xbffffffc, .translated 0xbffffffc,
          .computed 0xffffffffc0000000, .saved 0xffffffffc0000000,
          .translated 0xffffffffc0000000] ∧
      mem.wordAddress f 1 = 0xc0000000 ∧
      (outcome (rule.apply f) tags).1.isOk :=
  ⟨rfl, by decide +kernel, by decide, by decide +kernel⟩

end TaintFlow
