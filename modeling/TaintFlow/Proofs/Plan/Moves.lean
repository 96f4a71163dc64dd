import TaintFlow.Inline.Lower
import TaintFlow.Proofs.Plan.Transfers

/-!
# Moves

A load or store of several words is one rule, but its words are moved one after the other. Cut into
moves, a plan is a list whose elements are carried out in order, directly or by their code.
-/

namespace TaintFlow

open TaintFlow.Action

/-- One word of a rule. -/
inductive Move where
  | load (dst : Reg) (mem : MemRef) (word : Nat)
  | store (src : Option Reg) (mem : MemRef) (word : Nat)
  | copy (dst src : Reg)
  | clear (dst : Reg)
  | union (dst : Reg) (srcs : List Reg)
  | block (transfer : BlockTransfer)

namespace Move

def apply (f : RegFile) : Move → Action TagState ApplyError Unit
  | .load dst mem i => do TagState.setRegTag dst (← TagState.memTag (mem.wordAddress f i))
  | .store src mem i => do TagState.setMemTag (mem.wordAddress f i) (← Rule.sourceTag src)
  | .copy dst src => do TagState.setRegTag dst (← TagState.regTag src)
  | .clear dst => TagState.setRegTag dst untainted
  | .union dst srcs => do TagState.setRegTag dst (← Rule.unionTag untainted srcs)
  | .block t => t.apply f

def code (a b : Scratch) : Move → List InlineInstr
  | .load dst mem i => InlineInstr.loadWord dst (mem.word i) a b
  | .store src mem i => InlineInstr.storeWord src (mem.word i) a b
  | .copy dst src => InlineInstr.copyTag dst src a b
  | .clear dst => InlineInstr.clearTag dst a b
  | .union dst srcs => InlineInstr.unionTags dst srcs a b
  | .block t => [.cleanCall t]

def emit {σ ε : Type} (em : Emitter σ ε) : Move → Action σ ε Unit
  | .block t => em.insert (.cleanCall t)
  | m => em.withTwo fun a b => em.insertAll (m.code a b)

end Move

/-- The words of a rule, in order. -/
def Rule.moves : Rule → List Move
  | .load dsts mem => dsts.zipIdx.map fun (dst, i) => .load dst mem i
  | .store srcs mem => srcs.zipIdx.map fun (src, i) => .store src mem i
  | .copy dst src => [.copy dst src]
  | .clear dst => [.clear dst]
  | .union dst srcs => [.union dst srcs]
  | .block t => [.block t]

def Plan.moves (p : Plan) : List Move :=
  p.rules.flatMap Rule.moves

theorem Rule.apply_eq_moves (f : RegFile) (r : Rule) :
    r.apply f = r.moves.forM (Move.apply f) := by
  cases r with
  | load dsts mem => rw [moves, forM_map]; rfl
  | store srcs mem => rw [moves, forM_map]; rfl
  | copy dst src => rw [moves, forM_singleton]; rfl
  | clear dst => rw [moves, forM_singleton]; rfl
  | union dst srcs => rw [moves, forM_singleton]; rfl
  | block t => rw [moves, forM_singleton]; rfl

theorem Rule.emit_eq_moves {σ ε : Type} (em : Emitter σ ε) (r : Rule) :
    r.emit em = r.moves.forM (Move.emit em) := by
  cases r with
  | load dsts mem => rw [moves, forM_map]; rfl
  | store srcs mem => rw [moves, forM_map]; rfl
  | copy dst src => rw [moves, forM_singleton]; rfl
  | clear dst => rw [moves, forM_singleton]; rfl
  | union dst srcs => rw [moves, forM_singleton]; rfl
  | block t => rw [moves, forM_singleton]; rfl

theorem Plan.apply_eq_moves (f : RegFile) (p : Plan) :
    p.apply f = p.moves.forM (Move.apply f) := by
  rw [apply, moves, forM_flatMap]
  exact congrArg p.rules.forM (funext fun r => r.apply_eq_moves f)

theorem Plan.emit_eq_moves {σ ε : Type} (em : Emitter σ ε) (p : Plan) :
    p.emit em = p.moves.forM (Move.emit em) := by
  rw [emit, moves, forM_flatMap]
  exact congrArg p.rules.forM (funext fun r => r.emit_eq_moves em)

/-! ## Addresses of words -/

/-- The operand `disp` bytes from where a register points. -/
def MemRef.beside (base : Reg) (disp : Int32) : MemRef :=
  ⟨base, none, ⟨0, by decide⟩, disp⟩

/-- The displacement of word `i` is a 32-bit number. -/
def MemRef.Fits (m : MemRef) (i : Nat) : Prop :=
  Int32.minValue.toInt ≤ m.disp.toInt + 4 * i ∧ m.disp.toInt + 4 * i ≤ Int32.maxValue.toInt

instance (m : MemRef) (i : Nat) : Decidable (m.Fits i) :=
  inferInstanceAs (Decidable (_ ∧ _))

/-- How often the displacement of word `i` wraps around. -/
def MemRef.wraps (m : MemRef) (i : Nat) : Nat :=
  ((m.disp.toInt + 4 * i).bdiv 0x100000000).toNat

/-- A displacement, widened to 64 bits, as a number. -/
theorem toUInt64_disp (d : Int32) : d.toInt64.toUInt64 = ⟨BitVec.ofInt 64 d.toInt⟩ := by
  rw [← Int32.toInt_toInt64, ← UInt64.toBitVec_inj]
  exact BitVec.ofInt_toInt.symm

namespace MemRef

variable (m : MemRef) (i : Nat)

/-- Words are counted upwards, so a displacement wraps around at its upper end only. -/
theorem toInt_wraps : (m.wraps i : Int) = (m.disp.toInt + 4 * i).bdiv 0x100000000 := by
  have hlow := m.disp.minValue_le_toInt
  have hmin : Int32.minValue.toInt = -2147483648 := rfl
  have hsum := Int.bmod_add_bdiv (m.disp.toInt + 4 * i) 0x100000000
  have hrem := Int.bmod_lt (x := m.disp.toInt + 4 * i) (m := 0x100000000) (by decide)
  -- A negative quotient would leave a remainder of more than half of 2^32.
  exact Int.toNat_of_nonneg (by omega)

theorem toInt_disp_word :
    (m.word i).disp.toInt + (0x100000000 * m.wraps i : Nat) = m.disp.toInt + 4 * i := by
  have hword : (m.word i).disp = Int32.ofInt (m.disp.toInt + 4 * i) := by
    rw [Int32.ofInt_add, Int32.ofInt_toInt]
    rfl
  rw [hword, Int32.toInt_ofInt, Int.natCast_mul, toInt_wraps]
  exact Int.bmod_add_bdiv _ _

theorem wraps_eq_zero_iff : m.wraps i = 0 ↔ m.Fits i := by
  have hword := m.toInt_disp_word i
  have hlow := (m.word i).disp.minValue_le_toInt
  have hhigh := (m.word i).disp.toInt_le
  have hmin : Int32.minValue.toInt = -2147483648 := rfl
  have hmax : Int32.maxValue.toInt = 2147483647 := rfl
  unfold Fits
  omega

/-- Displacing an operand by some words adds their length to its address, up to the multiples of
2^32 that the displacement loses. -/
theorem address_word_add (f : RegFile) :
    (m.word i).address f + UInt64.ofNat (0x100000000 * m.wraps i) = m.wordAddress f i := by
  have hoffset : UInt64.ofNat (4 * i) = wordSize * UInt64.ofNat i := UInt64.ofNat_mul 4 i
  have hdisp : (m.word i).disp.toInt64.toUInt64 + UInt64.ofNat (0x100000000 * m.wraps i) =
      m.disp.toInt64.toUInt64 + wordSize * UInt64.ofNat i := by
    -- Both sides are the sum `disp + 4 * i` of integers, cut to 64 bits.
    rw [← hoffset, toUInt64_disp, toUInt64_disp, ← UInt64.toBitVec_inj]
    change BitVec.ofInt 64 _ + BitVec.ofNat 64 _ = BitVec.ofInt 64 _ + BitVec.ofNat 64 _
    rw [← BitVec.ofInt_natCast, ← BitVec.ofInt_natCast, ← BitVec.ofInt_add, ← BitVec.ofInt_add,
      toInt_disp_word, Int.natCast_mul]
    rfl
  unfold wordAddress address
  rw [UInt64.add_assoc, hdisp, ← UInt64.add_assoc]
  rfl

theorem address_word {m : MemRef} {i : Nat} (h : m.Fits i) (f : RegFile) :
    (m.word i).address f = m.wordAddress f i := by
  have hsum := m.address_word_add i f
  rw [(m.wraps_eq_zero_iff i).mpr h] at hsum
  exact (UInt64.add_zero _).symm.trans hsum

end MemRef

/-- Every word that the move transfers has a 32-bit displacement. -/
def Move.Fits : Move → Prop
  | .load _ mem i => mem.Fits i
  | .store _ mem i => mem.Fits i
  | _ => True

instance : (m : Move) → Decidable m.Fits
  | .load _ mem i => inferInstanceAs (Decidable (mem.Fits i))
  | .store _ mem i => inferInstanceAs (Decidable (mem.Fits i))
  | .copy _ _ | .clear _ | .union _ _ | .block _ => .isTrue trivial

/-! ## What moves keep -/

namespace Move

def regs : Move → List Reg
  | .load dst _ _ => [dst]
  | .store src _ _ => src.toList
  | .copy dst src => [dst, src]
  | .clear dst => [dst]
  | .union dst srcs => dst :: srcs
  | .block _ => []

/-- The words whose tags the move reads or writes. `place` says where the words of an operand
are. -/
def Accesses (place : MemRef → RegFile → Nat → Address) (regs : Reg → Prop) (f : RegFile) :
    Move → Address → Prop
  | .load _ mem i, a => a = place mem f i
  | .store _ mem i, a => a = place mem f i
  | .copy _ _, _ => False
  | .clear _, _ => False
  | .union _ _, _ => False
  | .block b, a => b.Accesses regs f a

end Move

section Keeps

variable {I : TagState → Prop} {E : ApplyError → Prop} {reads writes : Address → Prop}
  {regs : Reg → Prop} (h : TagState.Keeps I E reads writes regs)
include h

theorem TagState.Keeps.sourceTag {src : Option Reg} (hsrc : ∀ r ∈ src.toList, regs r) :
    Preserves I E (Rule.sourceTag src) := by
  cases src with
  | none => exact preserves_pure _
  | some r => exact h.regTag (hsrc r List.mem_cons_self)

theorem TagState.Keeps.unionTag (t : Tag) {srcs : List Reg} (hsrcs : ∀ r ∈ srcs, regs r) :
    Preserves I E (Rule.unionTag t srcs) := by
  induction srcs generalizing t with
  | nil => exact preserves_pure _
  | cons r rest ih =>
      exact preserves_bind (h.regTag (hsrcs r List.mem_cons_self)) fun _ =>
        ih _ fun q hq => hsrcs q (List.mem_cons_of_mem r hq)

theorem Move.keeps_apply (f : RegFile) (m : Move) (hregs : ∀ r ∈ m.regs, regs r)
    (hreads : ∀ a, m.Accesses MemRef.wordAddress regs f a → reads a)
    (hwrites : ∀ a, m.Accesses MemRef.wordAddress regs f a → writes a) :
    Preserves I E (m.apply f) := by
  cases m with
  | load dst mem i =>
      have hdst := hregs dst List.mem_cons_self
      exact preserves_bind (h.memTag (hreads _ rfl)) fun t => h.setRegTag hdst t
  | store src mem i =>
      exact preserves_bind (h.sourceTag hregs) fun t => h.setMemTag (hwrites _ rfl) t
  | copy dst src =>
      have hdst := hregs dst List.mem_cons_self
      have hsrc := hregs src (List.mem_cons_of_mem dst List.mem_cons_self)
      exact preserves_bind (h.regTag hsrc) fun t => h.setRegTag hdst t
  | clear dst => exact h.setRegTag (hregs dst List.mem_cons_self) _
  | union dst srcs =>
      have hdst := hregs dst List.mem_cons_self
      have hsrcs : ∀ r ∈ srcs, regs r := fun r hr => hregs r (List.mem_cons_of_mem dst hr)
      exact preserves_bind (h.unionTag _ hsrcs) fun t => h.setRegTag hdst t
  | block b => exact b.keeps_apply h f hreads hwrites

end Keeps

theorem Move.preserves_apply {s₀ : TagState} (h₀ : s₀.store.Consistent) (f : RegFile) (m : Move) :
    Preserves (TagState.Since s₀) TagState.OrdinaryFailure (m.apply f) :=
  m.keeps_apply (TagState.Since.keeps h₀) f (fun _ _ => trivial) (fun _ _ => trivial)
    (fun _ _ => trivial)

end TaintFlow
