import Mathlib.Data.List.Sort
import TaintFlow.Proofs.Shadow.Consistency

/-!
# Visited regions

Regions are numbered in address order, on the side of the application and in the shadow. A visitor
therefore meets them in ascending order, once each. A lazy store shows it exactly the private ones,
a dense store those that it has noted and those in which it finds a tag.
-/

namespace TaintFlow

namespace Layout

variable {l : Layout} {i j : Nat}

theorem regionSpan_pos (l : Layout) : 0 < l.regionSpan := by
  rw [regionSpan, Nat.shiftLeft_eq]
  exact Nat.mul_pos l.regionSize_pos (Nat.two_pow_pos _)

/-- Every region begins at a granule of the window. -/
theorem regionStart_fits (h : i < l.regions) :
    l.first.toNat + i * l.regionSpan ≤ l.last.toNat := by
  have hpos := l.regionSize_pos
  have hspan : i * l.regionSpan = i * l.regionSize * 2 ^ l.granuleShift.val := by
    rw [regionSpan, Nat.shiftLeft_eq, Nat.mul_assoc]
  have hstart : i * l.regionSize ≤ l.granule l.last := by
    -- The last region may be cut short: only its start has to lie in the window.
    have hmul : (i + 1) * l.regionSize ≤ l.granules + l.regionSize - 1 :=
      (Nat.le_div_iff_mul_le hpos).mp h
    rw [Nat.succ_mul, granules] at hmul
    omega
  have hlast : l.granule l.last * 2 ^ l.granuleShift.val ≤ l.last.toNat - l.first.toNat := by
    rw [granule, toNat_sub_first l.first_le_last, Nat.shiftRight_eq_div_pow]
    exact Nat.div_mul_le_self _ _
  have hle : l.first.toNat ≤ l.last.toNat := UInt64.le_iff_toNat_le.mp l.first_le_last
  have hmono := Nat.mul_le_mul_right (2 ^ l.granuleShift.val) hstart
  omega

/-- The start of a region does not wrap around if it is a 64-bit number. -/
theorem toNat_regionStart_of_lt (h : l.first.toNat + i * l.regionSpan < UInt64.size) :
    (l.regionStart i).toNat = l.first.toNat + i * l.regionSpan := by
  have hfits : l.first.toNat + i * l.regionSpan < 2 ^ 64 := h
  rw [regionStart, UInt64.toNat_add, UInt64.toNat_ofNat']
  omega

theorem toNat_regionStart (h : i < l.regions) :
    (l.regionStart i).toNat = l.first.toNat + i * l.regionSpan :=
  toNat_regionStart_of_lt (Nat.lt_of_le_of_lt (regionStart_fits h) l.last.toNat_lt)

theorem regionStart_lt (hij : i < j) (hj : j < l.regions) :
    l.regionStart i < l.regionStart j := by
  rw [UInt64.lt_iff_toNat_lt, toNat_regionStart (Nat.lt_trans hij hj), toNat_regionStart hj]
  exact Nat.add_lt_add_left (Nat.mul_lt_mul_of_pos_right hij l.regionSpan_pos) _

end Layout

theorem Window.regionBase_lt {w : Window} {i j : Nat} (hij : i < j) (hj : j < w.layout.regions) :
    w.regionBase i < w.regionBase j := by
  have hin : ∀ k, k < w.layout.regions → k * w.layout.regionSize ≤ w.layout.shadowLength :=
    fun k hk => Nat.mul_le_mul_right _ (Nat.le_of_lt hk)
  rw [UInt64.lt_iff_toNat_lt, regionBase, regionBase,
    w.toNat_addressOf (hin i (Nat.lt_trans hij hj)), w.toNat_addressOf (hin j hj)]
  exact Nat.add_lt_add_left (Nat.mul_lt_mul_of_pos_right hij w.layout.regionSize_pos) _

theorem Region.visitEach_all {σ : Type} {visitor : σ → Region → σ × Bool}
    (h : ∀ acc r, (visitor acc r).2 = true) (acc : σ) (regions : List Region) :
    visitEach visitor acc regions = regions.foldl (fun acc r => (visitor acc r).1) acc := by
  induction regions generalizing acc with
  | nil => rfl
  | cons r rest ih =>
      have hr := h acc r
      rw [visitEach, List.foldl_cons]
      cases hv : visitor acc r with
      | mk acc' more =>
          rw [hv] at hr
          cases hr
          exact ih acc'

namespace Store

/-- The numbers of the regions that have memory of their own, ascending. -/
def privateRegions (s : Store) : List Nat :=
  (List.range s.layout.regions).filter fun i => s.regionKind i == .owned

theorem mem_privateRegions {s : Store} {i : Nat} :
    i ∈ s.privateRegions ↔ i < s.layout.regions ∧ s.regionKind i = .owned := by
  rw [privateRegions, List.mem_filter, List.mem_range, beq_iff_eq]

theorem privateRegions_sorted (s : Store) : s.privateRegions.Pairwise (· < ·) :=
  List.Pairwise.filter _ List.pairwise_lt_range

theorem writtenRegions_eq_privateRegions {s : Store} (h : s.Consistent)
    (hlazy : s.backend = .lazy) : s.writtenRegions = s.privateRegions := by
  cases hb : s.backing with
  | dense touched => simp [backend, hb] at hlazy
  | lazy owned commits =>
      have hwithin := h.within
      rw [marks, hb] at hwithin
      rw [writtenRegions, hb]
      apply owned.toList_sorted.eq_of_mem_iff s.privateRegions_sorted
      intro i
      rw [RegionSet.mem_toList, mem_privateRegions, regionKind_of_lazy hb]
      constructor
      · intro hi
        exact ⟨hwithin i hi, by rw [hi]; rfl⟩
      · rintro ⟨-, hi⟩
        split at hi
        · assumption
        · contradiction

theorem regionCount_eq {s : Store} (h : s.Consistent) (hlazy : s.backend = .lazy) :
    s.regionCount = s.privateRegions.length := by
  rw [← writtenRegions_eq_privateRegions h hlazy]
  cases hb : s.backing with
  | dense touched => simp [backend, hb] at hlazy
  | lazy owned commits =>
      rw [regionCount, writtenRegions, hb]
      exact (h.counted owned commits hb).symm

theorem contains_foldl_mark {region : Nat → Nat} {p : Nat → Bool} (os : List Nat)
    (marks : RegionSet) (h : ∀ o ∈ os, region o / 64 < marks.words.size) (i : Nat) :
    (os.foldl (fun marks o => if p (region o) then marks.insert (region o) else marks)
      marks).contains i = true ↔ marks.contains i = true ∨ ∃ o ∈ os, p i = true ∧ region o = i := by
  induction os generalizing marks with
  | nil => simp
  | cons o os ih =>
      -- The marked words stay as many, so there is room for the rest.
      have hrest : ∀ q ∈ os, region q / 64 < marks.words.size :=
        fun q hq => h q (List.mem_cons_of_mem o hq)
      rw [List.foldl_cons, List.exists_mem_cons_iff, ← or_assoc]
      cases hp : p (region o) with
      | true =>
          rw [if_pos rfl, ih _ fun q hq => by rw [RegionSet.size_insert]; exact hrest q hq,
            RegionSet.contains_insert _ (h o List.mem_cons_self), Bool.or_eq_true,
            decide_eq_true_iff]
          refine or_congr_left ⟨?_, ?_⟩
          · rintro (rfl | hi)
            · exact Or.inr ⟨hp, rfl⟩
            · exact Or.inl hi
          · rintro (hi | ⟨-, hi⟩)
            · exact Or.inr hi
            · exact Or.inl hi
      | false =>
          rw [if_neg Bool.false_ne_true, ih _ hrest]
          refine or_congr_left ⟨Or.inl, ?_⟩
          rintro (hi | ⟨hi, rfl⟩)
          · exact hi
          · rw [hp] at hi
            contradiction

/-- The operating system holds the pages of all non-zero tags, as far as it can tell. -/
def Holds (s : Store) : Prop :=
  ∀ o, s.bytes.read o ≠ 0 → s.mapping.resident (o / s.mapping.pageSize) = true

theorem Holds.mayBeResident {s : Store} (h : s.Holds) {o : Nat} (ho : s.bytes.read o ≠ 0) :
    s.mayBeResident (s.layout.regionOf o) = true := by
  have hpos := s.mapping.pageSize_pos
  have hstart : s.layout.regionOf o * s.layout.regionSize ≤ o := Nat.div_mul_le_self _ _
  have hend : o < s.layout.regionOf o * s.layout.regionSize + s.layout.regionSize :=
    Nat.lt_div_mul_add s.layout.regionSize_pos
  have hfirst : s.layout.regionOf o * s.layout.regionSize / s.mapping.pageSize ≤
      o / s.mapping.pageSize := Nat.div_le_div_right hstart
  have hlast : o / s.mapping.pageSize + 1 ≤
      (s.layout.regionOf o * s.layout.regionSize + s.layout.regionSize + s.mapping.pageSize - 1) /
        s.mapping.pageSize := by
    rw [← Nat.add_div_right o hpos]
    exact Nat.div_le_div_right (by omega)
  rw [Store.mayBeResident, Bool.or_eq_true]
  -- The page of the byte is one of those that overlap its region.
  refine Or.inr (List.any_eq_true.mpr ⟨o / s.mapping.pageSize -
    s.layout.regionOf o * s.layout.regionSize / s.mapping.pageSize, ?_, ?_⟩)
  · rw [List.mem_range]
    omega
  · rw [Nat.add_sub_cancel' hfirst]
    exact h o ho

/-- A dense store shows the regions that it has noted, and those that hold a tag and may have a page
in store. -/
theorem mem_writtenRegions_dense {s : Store} (h : s.Consistent) (hdense : s.backend = .dense)
    (i : Nat) :
    i ∈ s.writtenRegions ↔ s.marks.contains i = true ∨
      s.mayBeResident i = true ∧ ∃ o, s.bytes.read o ≠ 0 ∧ s.layout.regionOf o = i := by
  cases hb : s.backing with
  | lazy owned commits => simp [backend, hb] at hdense
  | dense touched =>
      -- Bytes outside the shadow read as zero, so every scanned byte has a region to mark.
      have hfits : ∀ o ∈ s.bytes.support, s.layout.regionOf o / 64 < touched.words.size := by
        intro o ho
        have hin := h.inside o (Memory.mem_support.mp ho)
        have hmark := h.mark_fits (Layout.regionOf_lt_regions hin)
        rw [marks, hb] at hmark
        exact hmark
      rw [writtenRegions, marks, hb]
      dsimp only
      rw [RegionSet.mem_toList, withTainted, contains_foldl_mark _ _ hfits]
      simp only [Memory.mem_support, ← exists_and_left, and_left_comm]

/-- If no page of a tag is overlooked, a dense store shows the regions that it has noted and those
that hold a tag. -/
theorem mem_writtenRegions {s : Store} (h : s.Consistent) (hdense : s.backend = .dense)
    (hseen : ∀ o, s.bytes.read o ≠ 0 → s.mayBeResident (s.layout.regionOf o) = true) (i : Nat) :
    i ∈ s.writtenRegions ↔ s.marks.contains i = true ∨
      ∃ o, s.bytes.read o ≠ 0 ∧ s.layout.regionOf o = i := by
  rw [mem_writtenRegions_dense h hdense]
  refine or_congr_right ⟨And.right, ?_⟩
  rintro ⟨o, ho, rfl⟩
  exact ⟨hseen o ho, o, ho, rfl⟩

theorem writtenRegions_sorted (s : Store) : s.writtenRegions.Pairwise (· < ·) := by
  unfold writtenRegions
  cases s.backing <;> exact RegionSet.toList_sorted _

end Store
end TaintFlow
