import TaintFlow.Reg.Bank

/-!
# Thread contexts

What inline code finds in memory for the thread it runs on: the register bank, and four slots that
it may spill words to. Both lie at fixed offsets from the address of the context.
-/

namespace TaintFlow

/-- A place that inline code may spill a word to. -/
inductive SpillSlot where
  /-- The application address of the shadow access that is under way. -/
  | appAddress
  | host0
  | host1
  | host2
deriving DecidableEq, Repr

namespace SpillSlot

/-- Number of slots. -/
abbrev count : Nat := 4

def index : SpillSlot → Fin count
  | .appAddress => 0
  | .host0 => 1
  | .host1 => 2
  | .host2 => 3

def ofIndex? : Nat → Option SpillSlot
  | 0 => some .appAddress
  | 1 => some .host0
  | 2 => some .host1
  | 3 => some .host2
  | _ => none

end SpillSlot

/-- The tags and spilled words of one thread, and the address they are kept at. -/
structure ThreadContext where
  address : Address
  bank : RegisterBank
  slots : Vector Address SpillSlot.count

namespace ThreadContext

/-- The context of a new thread. -/
def new (address : Address) (tracksPc : Bool) : ThreadContext :=
  ⟨address, .clean tracksPc, Vector.replicate SpillSlot.count 0⟩

def tracks (c : ThreadContext) (r : Reg) : Bool :=
  c.bank.tracks r

def tagOf (c : ThreadContext) (r : Reg) : Except RegisterError Tag :=
  c.bank.tagOf r

def setTag (c : ThreadContext) (r : Reg) (t : Tag) : Except RegisterError ThreadContext :=
  (c.bank.setTag r t).map fun b => { c with bank := b }

def slot (c : ThreadContext) (s : SpillSlot) : Address :=
  c.slots[s.index]

def setSlot (c : ThreadContext) (s : SpillSlot) (a : Address) : ThreadContext :=
  { c with slots := c.slots.set s.index.val a s.index.isLt }

/-! ## Layout in memory -/

/-- Offset of a register's tag from the address of the context. -/
def regOffset (r : Reg) : Except RegisterError Nat :=
  RegisterBank.offset r

/-- Offset of a slot from the address of the context. The slots follow the bank and its flag,
aligned to their size. -/
def slotOffset (s : SpillSlot) : Nat :=
  24 + 8 * s.index.val

/-- The address of a register's tag. -/
def tagAddress (c : ThreadContext) (r : Reg) : Except RegisterError Address :=
  (regOffset r).map fun o => c.address + UInt64.ofNat o

/-- The register whose tag lies at an address. -/
def regAt? (c : ThreadContext) (a : Address) : Option Reg :=
  if (a - c.address).toNat < Reg.count then some ⟨(a - c.address).toUInt8⟩ else none

/-! ## Reading what was written -/

theorem slot_setSlot (c : ThreadContext) (s u : SpillSlot) (a : Address) :
    (c.setSlot s a).slot u = if s = u then a else c.slot u := by
  rw [slot, setSlot, Fin.getElem_fin, Vector.getElem_set]
  by_cases h : s = u
  · rw [if_pos h, if_pos (by rw [h])]
  · have hne : s.index.val ≠ u.index.val := by
      revert h
      cases s <;> cases u <;> decide
    rw [if_neg h, if_neg hne]
    rfl

/-- Writing a register's tag changes the tag of that register only. -/
theorem tagOf_of_setTag {c d : ThreadContext} {r : Reg} {t : Tag} (h : c.setTag r t = .ok d)
    (q : Reg) : d.tagOf q = if r = q then .ok t else c.tagOf q := by
  unfold setTag at h
  cases hb : c.bank.setTag r t with
  | error e => simp [hb, Except.map] at h
  | ok b =>
    rw [hb] at h
    cases h
    exact RegisterBank.tagOf_of_setTag hb q

end ThreadContext
end TaintFlow
