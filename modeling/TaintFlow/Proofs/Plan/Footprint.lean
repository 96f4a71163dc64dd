import TaintFlow.Proofs.Inline.Requests
import TaintFlow.Proofs.Plan.Selection
import TaintFlow.Proofs.Shadow.Reachability

/-!
# What an instruction leaves alone

A plan writes the tags of some registers and of some words, which its moves name. What the moves of
an instruction name comes from the destinations of the instruction, or is a register that a branch
writes. Everything else keeps its tag, however far the plan gets.
-/

namespace TaintFlow

open TaintFlow.Action

/-! ## What moves write -/

namespace Move

/-- The registers whose tags the move writes. -/
def Writes : Move → Reg → Prop
  | .load dst _ _, r => r = dst
  | .store _ _ _, _ => False
  | .copy dst _, r => r = dst
  | .clear dst, r => r = dst
  | .union dst _, r => r = dst
  | .block b, r => b.kind = .loadIncrement ∧ ∃ x ∈ b.transferred, r = x.2

/-- The words whose tags the move writes. -/
def Stores (place : MemRef → RegFile → Nat → Address) (f : RegFile) : Move → Address → Prop
  | .store _ mem i, a => a = place mem f i
  | .block b, a => a ∈ b.stored f
  | _, _ => False

end Move

/-- The byte that holds the tag of a register, also if the tag is not maintained. -/
def ThreadContext.tagByte (c : ThreadContext) (r : Reg) : Option Tag :=
  c.bank.tags[r.id.toNat]?

/-- Only the tag of a tracked register is written, and only its byte changes. -/
theorem ThreadContext.tagByte_of_setTag {c d : ThreadContext} {r : Reg} {t : Tag}
    (h : c.setTag r t = .ok d) :
    r.isTracked c.bank.tracksPc = true ∧ ∀ q, q ≠ r → d.tagByte q = c.tagByte q := by
  obtain ⟨-, -, hbank⟩ := of_setTag_eq_ok h
  unfold RegisterBank.setTag at hbank
  cases hp : c.bank.position r with
  | error e => simp [hp, Except.map] at hbank
  | ok i =>
      obtain ⟨hid, htracked⟩ := RegisterBank.position_eq_ok_iff.mp hp
      refine ⟨htracked, fun q hq => ?_⟩
      have hdiffer : i.val ≠ q.id.toNat := fun heq =>
        hq (Reg.ext (UInt8.toNat_inj.mp (heq.symm.trans hid.symm)))
      rw [hp] at hbank
      have hd : d.bank = { c.bank with tags := c.bank.tags.set i.val t i.isLt } :=
        (Except.ok.inj hbank).symm
      rw [tagByte, hd, Vector.getElem?_set_ne _ hdiffer]
      rfl

namespace TagState

/-- The state has become of `s₀` by writing the tags of tracked registers among `regs` and those of
`words`. -/
structure Framed (regs : Reg → Prop) (words : Address → Prop) (s₀ s : TagState) : Prop where
  consistent : s.store.Consistent
  window : s.store.window = s₀.store.window
  tracksPc : s.thread.bank.tracksPc = s₀.thread.bank.tracksPc
  slots : s.thread.slots = s₀.thread.slots
  tagByte : ∀ r, (regs r → r.isTracked s₀.thread.bank.tracksPc = false) →
    s.thread.tagByte r = s₀.thread.tagByte r
  read : ∀ k, (∀ a, words a → s₀.store.layout.covers a = true → s₀.store.layout.granule a ≠ k) →
    s.store.bytes.read k = s₀.store.bytes.read k
  store : (∀ a, ¬ words a) → s.store = s₀.store

namespace Framed

variable {regs : Reg → Prop} {words : Address → Prop} {s₀ s : TagState}

theorem refl (h : s.store.Consistent) : Framed regs words s s :=
  ⟨h, rfl, rfl, rfl, fun _ _ => rfl, fun _ _ => rfl, fun _ => rfl⟩

theorem withThread (h : Framed regs words s₀ s) {r : Reg} (hr : regs r) {t : Tag}
    {thread : ThreadContext} (ht : s.thread.setTag r t = .ok thread) :
    Framed regs words s₀ { s with thread } := by
  obtain ⟨-, hslots, hbank⟩ := ThreadContext.of_setTag_eq_ok ht
  obtain ⟨htracked, hbytes⟩ := ThreadContext.tagByte_of_setTag ht
  refine ⟨h.consistent, h.window, (RegisterBank.tracksPc_of_setTag hbank).trans h.tracksPc,
    hslots.trans h.slots, fun q hq => ?_, h.read, h.store⟩
  have hne : q ≠ r := by
    rintro rfl
    rw [h.tracksPc, hq hr] at htracked
    contradiction
  exact (hbytes q hne).trans (h.tagByte q hq)

theorem withTag (h : Framed regs words s₀ s) {a : Address} (ha : words a)
    (hc : s.store.layout.covers a = true) (t : Tag) :
    Framed regs words s₀ { s with store := s.store.withTag a t } := by
  have hlayout : s.store.layout = s₀.store.layout := congrArg Window.layout h.window
  refine ⟨h.consistent.withTag hc t, (s.store.withTag_window a t).trans h.window, h.tracksPc,
    h.slots, h.tagByte, fun k hk => ?_, fun hnone => absurd ha (hnone a)⟩
  have hother : s.store.layout.granule a ≠ k := by
    rw [hlayout] at hc ⊢
    exact hk a ha hc
  dsimp only
  rw [Store.read_withTag h.consistent, if_neg hother, h.read k hk]

end Framed

section Preserves

variable {I : TagState → Prop}

/-! Reading tags changes nothing. -/

theorem preserves_memTag (a : Address) : Preserves I (fun _ => True) (memTag a) := by
  intro s hs
  unfold memTag
  cases s.store.tagOf a with
  | ok t => exact hs
  | error e => exact ⟨hs, trivial⟩

theorem preserves_regTag (r : Reg) : Preserves I (fun _ => True) (regTag r) := by
  intro s hs
  unfold regTag
  cases s.thread.tagOf r with
  | ok t => exact hs
  | error e => exact ⟨hs, trivial⟩

theorem preserves_regTagOrClean (r : Reg) : Preserves I (fun _ => True) (regTagOrClean r) := by
  intro s hs
  unfold regTagOrClean
  rw [get_bind]
  by_cases hr : s.thread.tracks r = true
  · rw [if_pos hr]
    exact preserves_regTag r s hs
  · rw [if_neg hr]
    exact hs

theorem preserves_sourceTag (src : Option Reg) :
    Preserves I (fun _ => True) (Rule.sourceTag src) := by
  cases src with
  | none => exact preserves_pure _
  | some r => exact preserves_regTag r

theorem preserves_unionTag (t : Tag) (srcs : List Reg) :
    Preserves I (fun _ => True) (Rule.unionTag t srcs) := by
  induction srcs generalizing t with
  | nil => exact preserves_pure _
  | cons r rest ih => exact preserves_bind (preserves_regTag r) fun _ => ih _

variable {regs : Reg → Prop} {words : Address → Prop} {s₀ : TagState}

theorem framed_setRegTag {r : Reg} (hr : regs r) (t : Tag) :
    Preserves (Framed regs words s₀) (fun _ => True) (setRegTag r t) := by
  intro s hs
  unfold setRegTag
  cases hset : s.thread.setTag r t with
  | ok thread => exact hs.withThread hr hset
  | error e => exact ⟨hs, trivial⟩

theorem framed_setMemTag {a : Address} (ha : words a) (t : Tag) :
    Preserves (Framed regs words s₀) (fun _ => True) (setMemTag a t) := by
  intro s hs
  unfold setMemTag focus
  rw [Store.setTag_eq]
  cases hr : s.store.refusal? a with
  | some e => exact ⟨hs, trivial⟩
  | none => exact hs.withTag ha (Store.covers_of_refusal? hr) t

end Preserves

end TagState

section Framed

variable {regs : Reg → Prop} {words : Address → Prop} {s₀ : TagState} {f : RegFile}

theorem BlockTransfer.framed_apply (b : BlockTransfer)
    (hregs : ∀ r, (Move.block b).Writes r → regs r) (hwords : ∀ a ∈ b.stored f, words a) :
    Preserves (TagState.Framed regs words s₀) (fun _ => True) (b.apply f) := by
  apply preserves_forM
  rintro ⟨place, r⟩ hx
  unfold transferOne
  cases hkind : b.kind with
  | loadIncrement =>
      have hr : regs r := hregs r ⟨hkind, _, hx, rfl⟩
      intro s hs
      dsimp only
      rw [get_bind]
      by_cases htracks : s.thread.tracks r = true
      · rw [if_pos htracks]
        exact preserves_bind (TagState.preserves_memTag _)
          (fun t => TagState.framed_setRegTag hr t) s hs
      · rw [if_neg htracks]
        exact hs
  | storeDecrement =>
      have ha : words (b.wordAddress (f.value b.base) place) := by
        apply hwords
        rw [stored, hkind]
        exact List.mem_map.mpr ⟨_, hx, rfl⟩
      exact preserves_bind (TagState.preserves_regTagOrClean r) fun t =>
        TagState.framed_setMemTag ha t

theorem Move.framed_apply (m : Move) (hregs : ∀ r, m.Writes r → regs r)
    (hwords : ∀ a, m.Stores MemRef.wordAddress f a → words a) :
    Preserves (TagState.Framed regs words s₀) (fun _ => True) (m.apply f) := by
  cases m with
  | load dst mem i =>
      exact preserves_bind (TagState.preserves_memTag _) fun t =>
        TagState.framed_setRegTag (hregs dst rfl) t
  | store src mem i =>
      exact preserves_bind (TagState.preserves_sourceTag src) fun t =>
        TagState.framed_setMemTag (hwords _ rfl) t
  | copy dst src =>
      exact preserves_bind (TagState.preserves_regTag src) fun t =>
        TagState.framed_setRegTag (hregs dst rfl) t
  | clear dst => exact TagState.framed_setRegTag (hregs dst rfl) _
  | union dst srcs =>
      exact preserves_bind (TagState.preserves_unionTag _ srcs) fun t =>
        TagState.framed_setRegTag (hregs dst rfl) t
  | block b => exact b.framed_apply hregs hwords

end Framed

/-! ## What instructions write -/

namespace Opcode

def branches : List Opcode :=
  [.b, .bshort, .bl, .blx, .blxind, .bx, .bxj]

/-- The branches that leave a return address in the link register. -/
def linking : List Opcode :=
  [.bl, .blx, .blxind]

/-- The stores, and how many words each of them writes. -/
def stores : List (Opcode × Nat) :=
  [(.str, 1), (.strb, 1), (.strh, 1), (.strd, 2), (.strex, 1)]

variable {op : Opcode}

theorem effect_of_mem_branches (h : op ∈ branches) :
    op.effect = if op ∈ linking then .link else .branch := by
  revert h
  cases op <;> decide

theorem mem_branches_of_effect (h : op.effect = .link ∨ op.effect = .branch) : op ∈ branches := by
  revert h
  cases op <;> decide

theorem mem_stores_of_effect_store {words : Nat} (h : op.effect = .store words) :
    (op, words) ∈ stores := by
  cases op <;> cases h <;> decide

theorem mem_stores_of_effect_storeExclusive (h : op.effect = .storeExclusive) :
    (op, 1) ∈ stores := by
  revert h
  cases op <;> decide

end Opcode

namespace Instr

/-- The register that a block transfer writes back its base to. -/
def writeback? (i : Instr) : Option Reg :=
  match i.opcode with
  | .ldm => i.srcs[1]?.bind Operand.reg?
  | .stmdb => i.dsts[1]?.bind Operand.reg?
  | _ => none

/-- The registers whose tags the instruction may write. -/
def MayTag (tracksPc : Bool) (i : Instr) (r : Reg) : Prop :=
  if i.opcode ∈ Opcode.branches then
    tracksPc = true ∧ (r = .pc ∨ i.opcode ∈ Opcode.linking ∧ r = .lr)
  else .reg r ∈ i.dsts ∧ i.writeback? ≠ some r

/-- A block transfer to memory stores these registers. A base that is written back may stand behind
them once more. -/
def Lists (i : Instr) (list : List Reg) : Prop :=
  i.srcs = list.map .reg ∧ (i.writeback? = none ∨ list.getLast? ≠ i.writeback?) ∨
    ∃ base, i.writeback? = some base ∧ i.srcs = (list ++ [base]).map .reg

/-- The words that a store, or a block transfer to memory, addresses through its memory
destination. -/
def Addresses (i : Instr) (f : RegFile) (a : Address) : Prop :=
  (∃ words mem, (i.opcode, words) ∈ Opcode.stores ∧ i.dsts.findSome? Operand.mem? = some mem ∧
    ∃ k < words, a = mem.wordAddress f k) ∨
  i.opcode = .stmdb ∧ ∃ mem list place r, i.dsts.head? = some (.mem mem) ∧ i.Lists list ∧
    list[place]? = some r ∧ i.writeback? ≠ some r ∧
    a = f.value mem.base - 4 * UInt64.ofNat (list.length - place)

variable {i : Instr} {r : Reg}

theorem effect_of_writeback? (h : i.writeback? = some r) : i.opcode.effect = .blockTransfer := by
  unfold writeback? at h
  split at h
  case h_1 hop => rw [hop, Opcode.effect]
  case h_2 hop => rw [hop, Opcode.effect]
  case h_3 => cases h

theorem mayTag_of_mem_dsts {tracksPc : Bool} (hbranch : i.opcode ∉ Opcode.branches)
    (hblock : i.opcode.effect ≠ .blockTransfer) (hr : .reg r ∈ i.dsts) : i.MayTag tracksPc r := by
  rw [MayTag, if_neg hbranch]
  exact ⟨hr, fun hwriteback => hblock (effect_of_writeback? hwriteback)⟩

end Instr

namespace Rule

/-- The moves of the rule write only these registers and words. -/
def Within (regs : Reg → Prop) (words : Address → Prop) (f : RegFile) (r : Rule) : Prop :=
  ∀ m ∈ r.moves, (∀ q, m.Writes q → regs q) ∧ ∀ a, m.Stores MemRef.wordAddress f a → words a

theorem Targets.within {dst : Reg} {regs : Reg → Prop} {words : Address → Prop} {f : RegFile}
    {r : Rule} (h : r.Targets dst) (hdst : regs dst) : r.Within regs words f := by
  intro m hm
  cases r with
  | load | store | block => exact h.elim
  | copy | clear | union =>
      cases List.mem_singleton.mp hm
      cases h
      exact ⟨fun q hq => hq ▸ hdst, fun _ => False.elim⟩

end Rule

namespace Instr

variable {tracksPc : Bool} {i : Instr} {r : Rule} {regs : Reg → Prop} {words : Address → Prop}
  {f : RegFile}

theorem Loads.within (h : i.Loads tracksPc r) (hregs : ∀ q, .reg q ∈ i.dsts → regs q) :
    r.Within regs words f := by
  obtain ⟨dsts, mem, rfl, hdsts⟩ := h
  intro m hm
  obtain ⟨⟨dst, k⟩, hdst, rfl⟩ := List.mem_map.mp hm
  refine ⟨?_, fun _ => False.elim⟩
  rintro q rfl
  exact hregs _ (hdsts _ (List.fst_mem_of_mem_zipIdx hdst)).1

theorem Stores.within {n : Nat} (h : i.Stores tracksPc n r)
    (hwords : ∀ mem, i.dsts.findSome? Operand.mem? = some mem →
      ∀ k < n, words (mem.wordAddress f k)) : r.Within regs words f := by
  obtain ⟨srcs, mem, rfl, hmem, hlength, -⟩ := h
  intro m hm
  obtain ⟨⟨src, k⟩, hk, rfl⟩ := List.mem_map.mp hm
  refine ⟨fun _ => False.elim, ?_⟩
  rintro a rfl
  exact hwords mem hmem k (Nat.lt_of_lt_of_le (List.snd_lt_of_mem_zipIdx hk) hlength)

theorem SetsDst.within (h : i.SetsDst tracksPc r) (hregs : ∀ q, .reg q ∈ i.dsts → regs q) :
    r.Within regs words f :=
  let ⟨dst, hdst, hsets⟩ := h
  hsets.targets.within (hregs dst hdst)

theorem eq_mem_of_mem?_eq_some {o : Operand} {m : MemRef} (h : o.mem? = some m) : o = .mem m := by
  cases o <;> cases h
  rfl

theorem eq_map_of_mapM {ops : List Operand} {rs : List Reg} (h : ops.mapM Operand.reg? = some rs) :
    ops = rs.map .reg := by
  induction ops generalizing rs with
  | nil =>
      rw [List.mapM_nil] at h
      cases h
      rfl
  | cons o ops ih =>
      rw [List.mapM_cons] at h
      obtain ⟨q, hq, h⟩ := Option.bind_eq_some_iff.mp h
      obtain ⟨qs, hqs, h⟩ := Option.bind_eq_some_iff.mp h
      cases h
      rw [eq_reg_of_reg?_eq_some hq, ih hqs, List.map_cons]

/-- The list of a block transfer to memory, less the written-back base at its end. -/
theorem lists_of_mapM {listed : List Reg} (h : i.srcs.mapM Operand.reg? = some listed) :
    i.Lists (if i.writeback?.isSome && listed.getLast? = i.writeback? then listed.dropLast
      else listed) := by
  have hsrcs := eq_map_of_mapM h
  cases hwriteback : i.writeback? with
  | none => exact Or.inl ⟨hsrcs, Or.inl hwriteback⟩
  | some base =>
      by_cases hlast : listed.getLast? = some base
      · refine Or.inr ⟨base, hwriteback, ?_⟩
        simp only [hlast, Option.isSome_some, decide_true, Bool.and_true, if_true]
        rw [List.dropLast_append_getLast? base hlast]
        exact hsrcs
      · refine Or.inl ⟨?_, Or.inr ?_⟩
        · simpa [hlast] using hsrcs
        · simp [hlast, hwriteback]

/-- A decoded block transfer loads registers among the destinations, or it stores the listed
registers below the base of a memory operand in front. -/
theorem of_ofInstr? {b : BlockTransfer} (h : BlockTransfer.ofInstr? i = some b) :
    b.writeback = i.writeback? ∧
      (b.kind = .loadIncrement → ∀ r ∈ b.regs, .reg r ∈ i.dsts) ∧
      (b.kind = .storeDecrement → i.opcode = .stmdb ∧ i.Lists b.regs ∧
        ∃ mem, i.dsts.head? = some (.mem mem) ∧ mem.base = b.base) := by
  unfold BlockTransfer.ofInstr? at h
  split at h
  -- A load lists its destinations.
  case h_1 hop =>
    obtain ⟨_, hoperands, h⟩ := Option.bind_eq_some_iff.mp h
    cases hoperands
    obtain ⟨mem, -, h⟩ := Option.bind_eq_some_iff.mp h
    obtain ⟨listed, hlisted, h⟩ := Option.bind_eq_some_iff.mp h
    cases h
    refine ⟨by rw [writeback?, hop], fun _ r hr => ?_, nofun⟩
    rw [eq_map_of_mapM hlisted]
    apply List.mem_map_of_mem
    dsimp only at hr
    split at hr
    · exact List.dropLast_subset _ hr
    · exact hr
  -- A store lists its sources, and its base is that of the memory operand in front.
  case h_2 hop =>
    obtain ⟨_, hoperands, h⟩ := Option.bind_eq_some_iff.mp h
    cases hoperands
    obtain ⟨mem, hmem, h⟩ := Option.bind_eq_some_iff.mp h
    obtain ⟨listed, hlisted, h⟩ := Option.bind_eq_some_iff.mp h
    cases h
    obtain ⟨o, ho, hmem⟩ := Option.bind_eq_some_iff.mp hmem
    have hwriteback : i.writeback? = i.dsts[1]?.bind Operand.reg? := by rw [writeback?, hop]
    rw [eq_mem_of_mem?_eq_some hmem] at ho
    refine ⟨hwriteback.symm, nofun, fun _ => ⟨hop, ?_, mem, ho, rfl⟩⟩
    have hlists := lists_of_mapM hlisted
    rwa [hwriteback] at hlists
  case h_3 =>
    obtain ⟨_, hoperands, -⟩ := Option.bind_eq_some_iff.mp h
    cases hoperands

/-- What takes part in a decoded block transfer stands in its list, and is not the base that is
written back. -/
theorem of_mem_transferred {b : BlockTransfer} (h : BlockTransfer.ofInstr? i = some b) {place : Nat}
    {q : Reg} (hq : (place, q) ∈ b.transferred) :
    b.regs[place]? = some q ∧ i.writeback? ≠ some q := by
  obtain ⟨hplaced, hne⟩ := List.mem_filter.mp hq
  obtain ⟨⟨q', k⟩, hk, heq⟩ := List.mem_map.mp hplaced
  obtain ⟨rfl, rfl⟩ : k = place ∧ q' = q := Prod.mk.inj heq
  refine ⟨List.mem_zipIdx_iff_getElem?.mp hk, fun hwriteback => ?_⟩
  rw [(of_ofInstr? h).1, hwriteback] at hne
  simp at hne

theorem addresses_of_mem_stored {b : BlockTransfer} (h : BlockTransfer.ofInstr? i = some b)
    {a : Address} (ha : a ∈ b.stored f) : i.Addresses f a := by
  unfold BlockTransfer.stored at ha
  cases hkind : b.kind with
  | loadIncrement =>
      rw [hkind] at ha
      cases ha
  | storeDecrement =>
      rw [hkind] at ha
      obtain ⟨⟨place, q⟩, hx, rfl⟩ := List.mem_map.mp ha
      obtain ⟨hop, hlists, mem, hmem, hbase⟩ := (of_ofInstr? h).2.2 hkind
      obtain ⟨hplace, hne⟩ := of_mem_transferred h hx
      refine Or.inr ⟨hop, mem, b.regs, place, q, hmem, hlists, hplace, hne, ?_⟩
      rw [BlockTransfer.wordAddress, hkind, hbase]
      rfl

theorem within_block {b : BlockTransfer} (h : BlockTransfer.ofInstr? i = some b)
    (hbranch : i.opcode ∉ Opcode.branches) :
    (Rule.block b).Within (i.MayTag tracksPc) (i.Addresses f) f := by
  intro m hm
  cases List.mem_singleton.mp hm
  refine ⟨?_, fun a => addresses_of_mem_stored h⟩
  rintro q ⟨hkind, ⟨place, r⟩, hx, rfl⟩
  obtain ⟨hplace, hne⟩ := of_mem_transferred h hx
  rw [MayTag, if_neg hbranch]
  exact ⟨(of_ofInstr? h).2.1 hkind q (List.mem_of_getElem? hplace), hne⟩

/-- A rule of a branch writes the link register or the program counter. -/
theorem Selects.within_branch (h : i.Selects tracksPc r) (hbranch : i.opcode ∈ Opcode.branches) :
    r.Within (i.MayTag tracksPc) (i.Addresses f) f := by
  have hmay : ∀ q, tracksPc = true → (q = .pc ∨ i.opcode ∈ Opcode.linking ∧ q = .lr) →
      i.MayTag tracksPc q := by
    intro q htracks hq
    rw [MayTag, if_pos hbranch]
    exact ⟨htracks, hq⟩
  unfold Selects at h
  rw [Opcode.effect_of_mem_branches hbranch] at h
  by_cases hlinks : i.opcode ∈ Opcode.linking
  · rw [if_pos hlinks] at h
    obtain ⟨htracks, h | h⟩ := h
    · exact h.targets.within (hmay _ htracks (Or.inr ⟨hlinks, rfl⟩))
    · exact h.targets.within (hmay _ htracks (Or.inl rfl))
  · rw [if_neg hlinks] at h
    exact h.2.targets.within (hmay _ h.1 (Or.inl rfl))

/-- A rule of an instruction writes only what the instruction may write. -/
theorem Selects.within (h : i.Selects tracksPc r) :
    r.Within (i.MayTag tracksPc) (i.Addresses f) f := by
  by_cases hbranch : i.opcode ∈ Opcode.branches
  · exact h.within_branch hbranch
  · have hdsts : i.opcode.effect ≠ .blockTransfer → ∀ q, .reg q ∈ i.dsts → i.MayTag tracksPc q :=
      fun hblock _ => mayTag_of_mem_dsts hbranch hblock
    unfold Selects at h
    cases he : i.opcode.effect <;> rw [he] at h hdsts <;> dsimp only at h
    case load => exact h.within (hdsts nofun)
    case store n =>
      exact h.within fun mem hmem k hk =>
        Or.inl ⟨n, mem, Opcode.mem_stores_of_effect_store he, hmem, k, hk, rfl⟩
    case storeExclusive =>
      rcases h with h | h
      · exact h.within fun mem hmem k hk =>
          Or.inl ⟨1, mem, Opcode.mem_stores_of_effect_storeExclusive he, hmem, k, hk, rfl⟩
      · exact h.within (hdsts nofun)
    case transform => exact h.within (hdsts nofun)
    case combine => exact h.within (hdsts nofun)
    case accumulate => exact h.within (hdsts nofun)
    case link => exact absurd (Opcode.mem_branches_of_effect (Or.inl he)) hbranch
    case branch => exact absurd (Opcode.mem_branches_of_effect (Or.inr he)) hbranch
    case blockTransfer =>
      obtain ⟨b, hb, rfl⟩ := h
      exact within_block hb hbranch

end Instr

theorem Plan.framed_apply {regs : Reg → Prop} {words : Address → Prop} {s₀ : TagState}
    {f : RegFile} (p : Plan) (h : ∀ r ∈ p.rules, r.Within regs words f) :
    Preserves (TagState.Framed regs words s₀) (fun _ => True) (p.apply f) := by
  rw [p.apply_eq_moves]
  refine preserves_forM fun m hm => ?_
  obtain ⟨r, hr, hmr⟩ := List.mem_flatMap.mp hm
  obtain ⟨hregs, hwords⟩ := h r hr m hmr
  exact m.framed_apply hregs hwords

/-- The registers that an instruction writes: those among its destination operands, and those that
a branch writes. -/
def Instr.destinations (i : Instr) : List Reg :=
  (if i.opcode ∈ Opcode.branches then [.pc] else []) ++
    (if i.opcode ∈ Opcode.linking then [.lr] else []) ++ i.dsts.filterMap Operand.reg?

theorem Instr.MayTag.mem_destinations {tracksPc : Bool} {i : Instr} {r : Reg}
    (h : i.MayTag tracksPc r) : r ∈ i.destinations := by
  unfold MayTag at h
  unfold destinations
  split at h
  · obtain ⟨-, rfl | ⟨hlinks, rfl⟩⟩ := h
    · simp [*]
    · simp [hlinks]
  · exact List.mem_append_right _ (List.mem_filterMap.mpr ⟨_, h.1, rfl⟩)

/-- Only an instruction with a memory destination stores. -/
theorem Instr.Addresses.exists_mem_dsts {i : Instr} {f : RegFile} {a : Address}
    (h : i.Addresses f a) : ∃ mem, .mem mem ∈ i.dsts := by
  rcases h with ⟨-, mem, -, hmem, -⟩ | ⟨-, mem, -, -, -, hmem, -⟩
  · obtain ⟨o, ho, hmem⟩ := List.exists_of_findSome?_eq_some hmem
    exact ⟨mem, eq_mem_of_mem?_eq_some hmem ▸ ho⟩
  · exact ⟨mem, List.mem_of_head? hmem⟩

/-- However far the plan of an instruction gets, it changes the tags of no registers but those among
its destinations that a block transfer does not write back, or those that a branch writes, and of no
words but those that its memory destination addresses. Untracked registers keep their tags as well,
and the spill slots are not touched. -/
theorem plan_footprint {backend : Backend} {w : Window} {i : Instr} {a a' : Analyzer} {plan : Plan}
    {f : RegFile} {tags : TagState} (hreach : Store.Reachable backend w tags.store)
    (hpc : tags.thread.bank.tracksPc = a.tracksPc) (hplan : Analyzer.analyze i a = .ok plan a') :
    let after := (outcome (plan.apply f) tags).2
    let retags := fun r => after.thread.tagByte r ≠ tags.thread.tagByte r
    (∀ r, retags r → i.opcode ∉ Opcode.branches → .reg r ∈ i.dsts) ∧
      (∀ r, retags r → i.opcode ∈ Opcode.branches →
        a.tracksPc = true ∧ (r = .pc ∨ i.opcode ∈ Opcode.linking ∧ r = .lr)) ∧
      (∀ r, i.writeback? = some r → ¬ retags r) ∧
      (a.tracksPc = false → ¬ retags .pc) ∧
      (∀ mem, .mem mem ∈ i.operands → ∀ r ∈ mem.base :: mem.index.toList,
        r ∉ i.destinations → ¬ retags r) ∧
      (∀ addr, after.store.tagOf addr ≠ tags.store.tagOf addr →
        ∃ word, i.Addresses f word ∧ w.layout.covers word = true ∧
          w.layout.granule word = w.layout.granule addr) ∧
      ((∀ mem, .mem mem ∉ i.dsts) → after.store = tags.store) ∧
      after.thread.slots = tags.thread.slots := by
  intro after retags
  have hlayout : tags.store.layout = w.layout := congrArg Window.layout hreach.window_eq
  have hframed : TagState.Framed (i.MayTag a.tracksPc) (i.Addresses f) tags after :=
    (plan.framed_apply fun r hr => (Analyzer.analyze_selects hplan r hr).within).state
      (.refl hreach.consistent)
  have hretags : ∀ r, retags r → i.MayTag a.tracksPc r ∧ r.isTracked a.tracksPc = true := by
    intro r hr
    by_contra hnot
    exact hr (hframed.tagByte r fun hmay => by simpa [hpc, hmay] using hnot)
  refine ⟨fun r hr hbranch => ?_, fun r hr hbranch => ?_, fun r hwriteback hr => ?_,
    fun hpc' hr => ?_, fun _ _ r _ hdst hr => ?_, fun addr haddr => ?_, fun hnone => ?_,
    hframed.slots⟩
  · have hmay := (hretags r hr).1
    rw [Instr.MayTag, if_neg hbranch] at hmay
    exact hmay.1
  · have hmay := (hretags r hr).1
    rwa [Instr.MayTag, if_pos hbranch] at hmay
  · -- Only block transfers write a base back, and these are no branches.
    have hbranch : i.opcode ∉ Opcode.branches := fun hbranch => by
      have heffect := Opcode.effect_of_mem_branches hbranch
      rw [Instr.effect_of_writeback? hwriteback] at heffect
      split at heffect <;> cases heffect
    have hmay := (hretags r hr).1
    rw [Instr.MayTag, if_neg hbranch] at hmay
    exact hmay.2 hwriteback
  · have htracked := (hretags .pc hr).2
    rw [hpc'] at htracked
    exact absurd htracked (by decide)
  · exact hdst (hretags r hr).1.mem_destinations
  · -- A granule that no addressed word lies in reads as before.
    by_contra hnone
    refine haddr ?_
    have hread := hframed.read (w.layout.granule addr) fun word hword hc heq =>
      hnone ⟨word, hword, hlayout ▸ hc, (congrArg (Layout.granule · word) hlayout).symm.trans heq⟩
    have hlayout' : after.store.layout = w.layout :=
      (congrArg Window.layout hframed.window).trans hlayout
    rw [Store.tagOf_eq, Store.tagOf_eq, hlayout, hlayout', hread]
  · refine hframed.store fun word hword => ?_
    obtain ⟨mem, hmem⟩ := hword.exists_mem_dsts
    exact hnone mem hmem

/-- The base of a block transfer that is written back keeps its tag, though it is in the list. -/
theorem plan_footprint_load_writeback :
    let i : Instr :=
      ⟨0x100, .ldm, [.reg ⟨1⟩, .reg ⟨4⟩, .reg ⟨5⟩], [.mem (.beside ⟨4⟩ 0), .reg ⟨4⟩]⟩
    let plan : Plan := ⟨0x100, .ldm, [.block ⟨.loadIncrement, ⟨4⟩, [⟨1⟩, ⟨4⟩, ⟨5⟩], some ⟨4⟩⟩]⟩
    let tags : TagState := ⟨.small .lazy, .tainted⟩
    let after := (outcome (plan.apply (RegFile.zero.set ⟨4⟩ 0x1000)) tags).2
    Analyzer.analyze i (.new .strict true) = .ok plan (.new .strict true) ∧
      after.thread.tagByte ⟨1⟩ ≠ tags.thread.tagByte ⟨1⟩ ∧
      after.thread.tagByte ⟨4⟩ = tags.thread.tagByte ⟨4⟩ ∧ after.store = tags.store := by
  intro i plan tags after
  have hreach : Store.Reachable .lazy .small (.small .lazy) := ⟨.granting, _, rfl, .refl⟩
  have hplan : Analyzer.analyze i (.new .strict true) = .ok plan (.new .strict true) := rfl
  have hpc : tags.thread.bank.tracksPc = true := rfl
  obtain ⟨-, -, hwriteback, -, -, -, hstore, -⟩ :=
    plan_footprint (f := RegFile.zero.set ⟨4⟩ 0x1000) hreach hpc hplan
  refine ⟨hplan, by decide +kernel, not_not.mp (hwriteback ⟨4⟩ rfl), hstore fun mem => ?_⟩
  simp [i]

end TaintFlow
