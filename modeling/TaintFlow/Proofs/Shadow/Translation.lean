import TaintFlow.Proofs.Shadow.Regions

/-!
# Addresses and regions

Addresses of the window are translated in order, and two of them have one shadow address exactly if
they lie in one granule. The regions of the shadow divide the window into spans of equal length that
follow one another from its start, the last one cut short where the window ends. None of the numbers
computed on the way leaves 64 bits, wherever the window lies.
-/

namespace TaintFlow

namespace Layout

variable {l : Layout} {a : Address} {i : Nat}

theorem shadowLength_div (l : Layout) : l.shadowLength / l.regionSize = l.regions :=
  Nat.mul_div_cancel _ l.regionSize_pos

/-- Regions are counted on the side of the application as they are in the shadow. -/
theorem regionAt_eq (h : l.covers a = true) :
    l.regionAt a = (a.toNat - l.first.toNat) / l.regionSpan := by
  rw [regionAt, regionOf, granule, toNat_sub_first (covers_iff.mp h).1,
    Nat.shiftRight_eq_div_pow, Nat.div_div_eq_div_mul, regionSpan, Nat.shiftLeft_eq, Nat.mul_comm]

/-- A region holds the tags of the addresses less than a span behind its start. -/
theorem regionAt_eq_iff (h : l.covers a = true)
    (fits : l.first.toNat + i * l.regionSpan < UInt64.size) :
    l.regionAt a = i ↔ l.regionStart i ≤ a ∧ (a - l.regionStart i).toNat < l.regionSpan := by
  have hfirst : l.first.toNat ≤ a.toNat := UInt64.le_iff_toNat_le.mp (covers_iff.mp h).1
  have hpos := l.regionSpan_pos
  have hstart := toNat_regionStart_of_lt fits
  rw [regionAt_eq h, Nat.div_eq_iff hpos]
  -- An address in front of the start has a difference that wraps around, so it is not computed.
  by_cases hle : l.regionStart i ≤ a
  · have hbelow := UInt64.le_iff_toNat_le.mp hle
    rw [UInt64.toNat_sub_of_le a _ hle]
    refine ⟨fun hdiv => ⟨hle, ?_⟩, fun hspan => ?_⟩ <;> omega
  · refine iff_of_false (fun hdiv => hle (UInt64.le_iff_toNat_le.mpr ?_)) (fun hspan => hle hspan.1)
    omega

theorem covers_regionStart (h : i < l.regions) : l.covers (l.regionStart i) = true := by
  have hfits := regionStart_fits h
  rw [covers_iff, UInt64.le_iff_toNat_le, UInt64.le_iff_toNat_le, toNat_regionStart h]
  omega

end Layout

/-- The shadow lies from its base on, and positions are counted from there. -/
theorem Window.locate?_eq_some_iff (w : Window) {x : Address} {o : Nat} :
    w.locate? x = some o ↔ w.base.toNat ≤ x.toNat ∧ o = x.toNat - w.base.toNat ∧
      x.toNat < w.base.toNat + w.layout.shadowLength := by
  constructor
  · intro h
    obtain ⟨hin, rfl⟩ := of_locate?_eq_some h
    rw [w.toNat_addressOf (Nat.le_of_lt hin)]
    omega
  · rintro ⟨hbase, rfl, hend⟩
    have hin : x.toNat - w.base.toNat < w.layout.shadowLength := by omega
    have hx : w.addressOf (x.toNat - w.base.toNat) = x := by
      rw [← UInt64.toNat_inj, w.toNat_addressOf (Nat.le_of_lt hin)]
      omega
    rw [← hx]
    exact (w.locate?_addressOf hin).trans (by rw [hx])

namespace Store

variable {s : Store} {a b t u : Address}

theorem translate_eq_ok_iff :
    s.translate a = .ok t ↔
      s.layout.covers a = true ∧ t = s.window.addressOf (s.layout.granule a) := by
  rw [translate_eq]
  cases s.layout.covers a with
  | false => simp
  | true => simp [eq_comm]

theorem toNat_of_translate (h : s.translate a = .ok t) :
    t.toNat = s.window.base.toNat + s.layout.granule a := by
  obtain ⟨hcovers, rfl⟩ := translate_eq_ok_iff.mp h
  exact s.window.toNat_addressOf (Nat.le_of_lt (Layout.granule_lt_shadowLength hcovers))

/-- For every window, translation keeps the order of addresses and tells apart exactly the granules.
The region of a translated address is the one whose span the address lies in. Every region starts
within the window, and every shadow address has a region with a place among the marks. -/
theorem translation_exact (s : Store) :
    let l := s.layout
    let base := s.window.base.toNat
    let regions := l.shadowLength / l.regionSize
    (∀ a, l.covers a = true →
        ∃ t, s.translate a = .ok t ∧ base ≤ t.toNat ∧ t.toNat < base + l.shadowLength) ∧
      (∀ a b t u, s.translate a = .ok t → s.translate b = .ok u →
        (a ≤ b → t ≤ u) ∧ (t = u ↔ l.granule a = l.granule b)) ∧
      (∀ a t, s.translate a = .ok t →
        ∃ o, s.window.locate? t = some o ∧
          ∀ i, l.first.toNat + i * l.regionSpan < UInt64.size →
            (l.regionOf o = i ↔
              l.regionStart i ≤ a ∧ (a - l.regionStart i).toNat < l.regionSpan)) ∧
      (∀ i, i < regions →
        l.first.toNat + i * l.regionSpan < UInt64.size ∧
          (l.regionStart i).toNat = l.first.toNat + i * l.regionSpan ∧
          l.covers (l.regionStart i) = true) ∧
      (∀ x, (∃ o, s.window.locate? x = some o) ↔
        base ≤ x.toNat ∧ x.toNat < base + l.shadowLength) ∧
      ∀ x o, s.window.locate? x = some o →
        o = x.toNat - base ∧ l.regionOf o < regions ∧
          l.regionOf o / 64 < (RegionSet.empty regions).words.size := by
  intro l base regions
  have hregions : regions = l.regions := l.shadowLength_div
  refine ⟨fun a ha => ?_, fun a b t u ht hu => ⟨fun hab => ?_, ?_⟩, fun a t ht => ?_,
    fun i hi => ?_, fun x => ?_, fun x o hx => ?_⟩
  · have ht := translate_eq_ok_iff.mpr ⟨ha, rfl⟩
    have hgranule := Layout.granule_lt_shadowLength ha
    refine ⟨_, ht, ?_, ?_⟩ <;> rw [toNat_of_translate ht]
    · exact Nat.le_add_right _ _
    · exact Nat.add_lt_add_left hgranule _
  · have hfirst := (Layout.covers_iff.mp (translate_eq_ok_iff.mp ht).1).1
    rw [UInt64.le_iff_toNat_le, toNat_of_translate ht, toNat_of_translate hu]
    exact Nat.add_le_add_left (Layout.granule_mono hfirst hab) _
  · rw [← UInt64.toNat_inj, toNat_of_translate ht, toNat_of_translate hu]
    exact Nat.add_left_cancel_iff
  · obtain ⟨ha, rfl⟩ := translate_eq_ok_iff.mp ht
    refine ⟨l.granule a, s.window.locate?_addressOf (Layout.granule_lt_shadowLength ha), ?_⟩
    exact fun i hfits => Layout.regionAt_eq_iff ha hfits
  · rw [hregions] at hi
    have hlast := l.last.toNat_lt
    have hfits := Layout.regionStart_fits hi
    exact ⟨Nat.lt_of_le_of_lt hfits hlast, Layout.toNat_regionStart hi,
      Layout.covers_regionStart hi⟩
  · constructor
    · rintro ⟨o, ho⟩
      obtain ⟨hbase, -, hend⟩ := s.window.locate?_eq_some_iff.mp ho
      exact ⟨hbase, hend⟩
    · rintro ⟨hbase, hend⟩
      exact ⟨_, s.window.locate?_eq_some_iff.mpr ⟨hbase, rfl, hend⟩⟩
  · obtain ⟨-, ho, -⟩ := s.window.locate?_eq_some_iff.mp hx
    have hin : l.regionOf o < regions := by
      rw [hregions]
      exact Layout.regionOf_lt_regions (Window.of_locate?_eq_some hx).1
    exact ⟨ho, hin, RegionSet.word_in_empty hin⟩

/-- The last addresses there are, from the middle of a word on, in regions of a hundred words. -/
def topmost : Store :=
  let layout : Layout :=
    { first := 0xffffffffffff0003
      last := 0xffffffffffffffff
      granuleShift := Layout.full32.granuleShift
      regionSize := 100 }
  ⟨⟨layout, 0x700000, by decide⟩, .granting, .zero, fresh .lazy layout⟩

/-- The last address of all has its tag in the last region, and behind it the shadow is filled up. -/
theorem translation_exact_topmost :
    topmost.translate 0xffffffffffffffff = .ok 0x703fff ∧ 0x700000 ≤ (0x703fff : Address).toNat ∧
      (∃ o, topmost.window.locate? 0x703fff = some o ∧ topmost.layout.regionOf o = 163) ∧
      topmost.layout.covers (topmost.layout.regionStart 163) = true ∧
      topmost.window.locate? 0x70400f = some 16399 ∧
      topmost.layout.regionOf 16399 / 64 < (RegionSet.empty 164).words.size := by
  obtain ⟨hinside, -, hspans, hstarts, -, hplaces⟩ := translation_exact topmost
  have hlast : topmost.translate 0xffffffffffffffff = .ok 0x703fff := by decide +kernel
  obtain ⟨t, ht, hbase, -⟩ := hinside 0xffffffffffffffff (by decide)
  obtain rfl : (0x703fff : Address) = t := Except.ok.inj (hlast.symm.trans ht)
  obtain ⟨o, ho, hregion⟩ := hspans _ _ hlast
  have hend : topmost.window.locate? 0x70400f = some 16399 := by decide +kernel
  exact ⟨hlast, hbase, ⟨o, ho, (hregion 163 (by decide)).mpr (by decide)⟩,
    (hstarts 163 (by decide)).2.2, hend, (hplaces _ _ hend).2.2⟩

end Store
end TaintFlow
