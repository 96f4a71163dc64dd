import TaintFlow.Reg

/-!
# The register bank

One tag per general purpose register. Access is checked: registers without a place in the bank and
an untracked program counter are refused and nothing is changed. Reading returns what was last
written.
-/

namespace TaintFlow

/-- The tags of one thread's registers. -/
structure RegisterBank where
  tags : Vector Tag Reg.count
  tracksPc : Bool

namespace RegisterBank

/-- The bank of a new thread. -/
def clean (tracksPc : Bool) : RegisterBank :=
  ⟨Vector.replicate Reg.count untainted, tracksPc⟩

/-- Whether the bank maintains a tag for the register. -/
def tracks (b : RegisterBank) (r : Reg) : Bool :=
  r.isTracked b.tracksPc

/-- The register's position in the bank, if it may be accessed. -/
def position (b : RegisterBank) (r : Reg) : Except RegisterError (Fin Reg.count) :=
  if h : r.id.toNat < Reg.count then
    if b.tracks r then .ok ⟨r.id.toNat, h⟩ else .error (.excluded r)
  else .error (.outOfRange r)

def tagOf (b : RegisterBank) (r : Reg) : Except RegisterError Tag :=
  (b.position r).map fun i => b.tags[i]

def setTag (b : RegisterBank) (r : Reg) (t : Tag) : Except RegisterError RegisterBank :=
  (b.position r).map fun i => { b with tags := b.tags.set i.val t i.isLt }

/-- Forget every tag. -/
def clear (b : RegisterBank) : RegisterBank :=
  clean b.tracksPc

/-- Byte offset of a register's tag from the start of the bank. -/
def offset (r : Reg) : Except RegisterError Nat :=
  if r.isGeneral then .ok r.id.toNat else .error (.outOfRange r)

/-! ## Reading what was written -/

theorem position_eq_ok_iff {b : RegisterBank} {r : Reg} {i : Fin Reg.count} :
    b.position r = .ok i ↔ r.id.toNat = i.val ∧ b.tracks r = true := by
  unfold position
  constructor
  · intro h
    split at h
    · split at h
      · rename_i tracked
        cases h
        exact ⟨rfl, tracked⟩
      · contradiction
    · contradiction
  · rintro ⟨hid, tracked⟩
    have hlt : r.id.toNat < Reg.count := hid ▸ i.isLt
    rw [dif_pos hlt, if_pos tracked]
    exact congrArg Except.ok (Fin.ext hid)

theorem position_congr {b c : RegisterBank} (h : b.tracksPc = c.tracksPc) (r : Reg) :
    b.position r = c.position r := by
  unfold position tracks
  rw [h]

theorem tracksPc_of_setTag {b c : RegisterBank} {r : Reg} {t : Tag} (h : b.setTag r t = .ok c) :
    c.tracksPc = b.tracksPc := by
  unfold setTag at h
  cases hr : b.position r with
  | error e => simp [hr, Except.map] at h
  | ok i =>
    rw [hr] at h
    cases h
    rfl

/-- Writing a tag changes the tag of that register only. -/
theorem tagOf_of_setTag {b c : RegisterBank} {r : Reg} {t : Tag} (h : b.setTag r t = .ok c)
    (q : Reg) : c.tagOf q = if r = q then .ok t else b.tagOf q := by
  have hpos := position_congr (tracksPc_of_setTag h) q
  unfold setTag at h
  cases hr : b.position r with
  | error e => simp [hr, Except.map] at h
  | ok i =>
    rw [hr] at h
    cases h
    rw [tagOf, hpos, tagOf]
    have hid := (position_eq_ok_iff.mp hr).1
    by_cases hq : r = q
    · rw [if_pos hq, ← hq, hr]
      simp [Except.map]
    · rw [if_neg hq]
      cases hk : b.position q with
      | error e => rfl
      | ok k =>
        have hidq := (position_eq_ok_iff.mp hk).1
        have hne : i.val ≠ k.val := fun heq => hq (Reg.ext (UInt8.toNat_inj.mp (by omega)))
        simp [Except.map, Vector.getElem_set_ne _ _ hne]

end RegisterBank
end TaintFlow
