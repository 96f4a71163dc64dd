import TaintFlow.Shadow.Layout

/-!
# Windows

A layout placed in the address space. The tag of a covered application address has a shadow address.
Inside the shadow, bytes are counted from the base, and every position has exactly one address.
-/

namespace TaintFlow

/-- A layout, and the address its shadow starts at. -/
structure Window where
  layout : Layout
  base : Address
  fits : base.toNat + layout.shadowLength < UInt64.size

namespace Window

/-- Place a layout at a base, if the whole shadow has addresses there. -/
def place? (layout : Layout) (base : Address) : Option Window :=
  if h : base.toNat + layout.shadowLength < UInt64.size then some ⟨layout, base, h⟩ else none

/-- The position in the shadow of the tag of an application address. -/
def offset? (w : Window) (a : Address) : Option Nat :=
  if w.layout.covers a then some (w.layout.granule a) else none

/-- The shadow address of a position. -/
def addressOf (w : Window) (offset : Nat) : Address :=
  w.base + UInt64.ofNat offset

/-- The position of a shadow address, `none` outside the shadow. -/
def locate? (w : Window) (shadow : Address) : Option Nat :=
  let offset := (shadow - w.base).toNat
  if offset < w.layout.shadowLength then some offset else none

/-- The shadow address at which a region starts. -/
def regionBase (w : Window) (region : Nat) : Address :=
  w.addressOf (region * w.layout.regionSize)

/-! ## Positions and addresses -/

theorem shadowLength_lt (w : Window) : w.layout.shadowLength < UInt64.size :=
  Nat.lt_of_le_of_lt (Nat.le_add_left _ _) w.fits

theorem toNat_addressOf (w : Window) {offset : Nat} (inside : offset ≤ w.layout.shadowLength) :
    (w.addressOf offset).toNat = w.base.toNat + offset := by
  have hfits : w.base.toNat + w.layout.shadowLength < 2 ^ 64 := w.fits
  rw [addressOf, UInt64.toNat_add, UInt64.toNat_ofNat']
  omega

theorem locate?_addressOf (w : Window) {offset : Nat} (inside : offset < w.layout.shadowLength) :
    w.locate? (w.addressOf offset) = some offset := by
  have hlt : w.layout.shadowLength < 2 ^ 64 := w.shadowLength_lt
  have hsub : (w.addressOf offset - w.base).toNat = offset := by
    rw [addressOf, UInt64.add_comm, UInt64.add_sub_cancel, UInt64.toNat_ofNat']
    omega
  rw [locate?, hsub]
  exact if_pos inside

theorem of_locate?_eq_some {w : Window} {shadow : Address} {offset : Nat}
    (h : w.locate? shadow = some offset) :
    offset < w.layout.shadowLength ∧ shadow = w.addressOf offset := by
  unfold locate? at h
  simp only at h
  split at h
  · rename_i hlt
    cases h
    refine ⟨hlt, ?_⟩
    rw [addressOf, UInt64.ofNat_toNat, UInt64.add_comm, UInt64.sub_add_cancel]
  · contradiction

end Window
end TaintFlow
