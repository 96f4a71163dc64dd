import TaintFlow.Tag

/-!
# Layouts

The shadow holds one tag for every granule of a window of application addresses. Granules are
numbered from the start of the window, and the tag of granule `k` is byte `k` of the shadow. The
shadow is managed in regions of equal size, so its length is rounded up to whole regions and every
covered address has its tag inside.
-/

namespace TaintFlow

/-- Which application addresses are covered, how coarsely, and how the shadow is divided. -/
structure Layout where
  first : Address
  last : Address
  /-- Binary logarithm of the number of application bytes that share a tag. -/
  granuleShift : Fin 64
  /-- Tags in one region. -/
  regionSize : Nat
  first_le_last : first ≤ last := by decide
  regionSize_pos : 0 < regionSize := by decide
  shadow_fits : ((last - first).toNat >>> granuleShift.val + regionSize) / regionSize * regionSize
    < UInt64.size := by decide
  region_fits : regionSize <<< granuleShift.val < UInt64.size := by decide

namespace Layout

/-- The number of a covered address's granule. -/
def granule (l : Layout) (a : Address) : Nat :=
  (a - l.first).toNat >>> l.granuleShift.val

/-- Whether the layout covers an address. -/
def covers (l : Layout) (a : Address) : Bool :=
  decide (l.first ≤ a ∧ a ≤ l.last)

/-- Application bytes that share one tag. -/
def granuleSize (l : Layout) : Nat :=
  1 <<< l.granuleShift.val

/-- Granules in the window. -/
def granules (l : Layout) : Nat :=
  l.granule l.last + 1

/-- Regions needed to hold a tag for every granule. -/
def regions (l : Layout) : Nat :=
  (l.granules + l.regionSize - 1) / l.regionSize

/-- Bytes of shadow, the unused end of the last region included. -/
def shadowLength (l : Layout) : Nat :=
  l.regions * l.regionSize

/-- Application bytes covered by one region. -/
def regionSpan (l : Layout) : Nat :=
  l.regionSize <<< l.granuleShift.val

/-- The region that holds a byte of the shadow. -/
def regionOf (l : Layout) (offset : Nat) : Nat :=
  offset / l.regionSize

/-- The first application address covered by a region. -/
def regionStart (l : Layout) (region : Nat) : Address :=
  l.first + UInt64.ofNat (region * l.regionSpan)

/-- The layout of a 32-bit application: a tag for every word of the address space. -/
def full32 : Layout where
  first := 0
  last := 0xffffffff
  granuleShift := 2
  regionSize := 4096
  regionSize_pos := Nat.two_pow_pos 12

/-! ## Room for every granule -/

theorem covers_iff {l : Layout} {a : Address} : l.covers a = true ↔ l.first ≤ a ∧ a ≤ l.last := by
  rw [covers, decide_eq_true_iff]

theorem toNat_sub_first {l : Layout} {a : Address} (h : l.first ≤ a) :
    (a - l.first).toNat = a.toNat - l.first.toNat :=
  UInt64.toNat_sub_of_le a l.first h

theorem granule_mono {l : Layout} {a b : Address} (first : l.first ≤ a) (le : a ≤ b) :
    l.granule a ≤ l.granule b := by
  have hab : a.toNat ≤ b.toNat := UInt64.le_iff_toNat_le.mp le
  unfold granule
  rw [toNat_sub_first first, toNat_sub_first (UInt64.le_trans first le), Nat.shiftRight_eq_div_pow,
    Nat.shiftRight_eq_div_pow]
  exact Nat.div_le_div_right (by omega)

theorem granule_lt_granules {l : Layout} {a : Address} (h : l.covers a = true) :
    l.granule a < l.granules := by
  obtain ⟨hfirst, hlast⟩ := covers_iff.mp h
  exact Nat.lt_succ_of_le (granule_mono hfirst hlast)

theorem granules_le_shadowLength (l : Layout) : l.granules ≤ l.shadowLength := by
  have hpos := l.regionSize_pos
  have hmod := Nat.mod_lt (l.granules + l.regionSize - 1) hpos
  have hdiv := Nat.div_add_mod (l.granules + l.regionSize - 1) l.regionSize
  rw [shadowLength, regions, Nat.mul_comm]
  omega

theorem granule_lt_shadowLength {l : Layout} {a : Address} (h : l.covers a = true) :
    l.granule a < l.shadowLength :=
  Nat.lt_of_lt_of_le (granule_lt_granules h) l.granules_le_shadowLength

theorem regionOf_lt_regions {l : Layout} {offset : Nat} (h : offset < l.shadowLength) :
    l.regionOf offset < l.regions :=
  Nat.div_lt_of_lt_mul (by rw [Nat.mul_comm]; exact h)

end Layout
end TaintFlow
