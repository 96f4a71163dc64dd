import TaintFlow.Proofs.Shadow.Regions

/-!
# A lazy and a dense store side by side

The two kinds of store record writes by different means: a lazy store knows its private regions, a
dense one those that were written through it and whatever a scan of its pages brings up. While they
are given the same tags, the scan brings up exactly those private regions that hold a tag.
-/

namespace TaintFlow

/-- What a visitor sees of a region, apart from where its shadow lies. -/
def Region.sight (r : Region) : Address × List Tag :=
  (r.appBase, r.tags)

namespace Store

/-- The lazy store `l` and the dense store `d` hold the same tags, and what `d` has noted is private
in `l`. -/
structure Mirrors (l d : Store) : Prop where
  layout : d.layout = l.layout
  lazy : l.backend = .lazy
  dense : d.backend = .dense
  consistent : l.Consistent
  dense_consistent : d.Consistent
  reads : ∀ o, d.bytes.read o = l.bytes.read o
  granted : ∀ i, l.mapping.refuses (.commit i) = false
  noted : ∀ i, d.marks.contains i = true → l.marks.contains i = true

theorem refusal?_willing {s : Store} (h : ∀ i, s.refusesRegion i = false) (a : Address) :
    s.refusal? a = if s.layout.covers a then none else some (.invalidAddress a) := by
  rw [refusal?, h]
  rfl

theorem refusesRegion_dense {s : Store} (h : s.backend = .dense) (i : Nat) :
    s.refusesRegion i = false := by
  unfold refusesRegion
  cases hb : s.backing with
  | lazy owned commits => simp [backend, hb] at h
  | dense touched => rfl

theorem refusesRegion_granted {s : Store} {i : Nat} (h : s.mapping.refuses (.commit i) = false) :
    s.refusesRegion i = false := by
  unfold refusesRegion
  cases s.backing with
  | lazy owned commits => simp [h]
  | dense touched => rfl

/-- The regions that visitors of a lazy store see and that a dense store would show as well:
`requested` were asked memory for, the others hold a tag. -/
def shown (s : Store) (requested : List Nat) (i : Nat) : Bool :=
  requested.contains i || (s.region i).tags.any (· != 0)

theorem any_tags_region {s : Store} {i : Nat} :
    (s.region i).tags.any (· != 0) = true ↔
      ∃ o, s.bytes.read o ≠ 0 ∧ s.layout.regionOf o = i := by
  have hpos := s.layout.regionSize_pos
  rw [region, List.any_eq_true]
  dsimp only
  constructor
  · rintro ⟨t, ht, hne⟩
    obtain ⟨k, hk, rfl⟩ := List.mem_map.mp ht
    rw [List.mem_range] at hk
    refine ⟨i * s.layout.regionSize + k, by simpa using hne, ?_⟩
    rw [Layout.regionOf, Nat.mul_comm, Nat.mul_add_div hpos, Nat.div_eq_of_lt hk, Nat.add_zero]
  · rintro ⟨o, hne, rfl⟩
    have hsplit : s.layout.regionOf o * s.layout.regionSize + o % s.layout.regionSize = o := by
      rw [Layout.regionOf, Nat.mul_comm]
      exact Nat.div_add_mod o s.layout.regionSize
    refine ⟨s.bytes.read o, List.mem_map.mpr ⟨o % s.layout.regionSize, ?_, ?_⟩, by simpa using hne⟩
    · exact List.mem_range.mpr (Nat.mod_lt o hpos)
    · rw [hsplit]

namespace Mirrors

variable {l d : Store}

theorem of_create {w w' : Window} {m m' : Mapping} (hlayout : w'.layout = w.layout)
    (hl : create .lazy w m = .ok l) (hd : create .dense w' m' = .ok d)
    (hgranted : ∀ i, m.refuses (.commit i) = false) : Mirrors l d where
  layout := by rw [of_create_eq_ok hl, of_create_eq_ok hd]; exact hlayout
  lazy := by rw [of_create_eq_ok hl]; rfl
  dense := by rw [of_create_eq_ok hd]; rfl
  consistent := consistent_create hl
  dense_consistent := consistent_create hd
  reads := by rw [of_create_eq_ok hl, of_create_eq_ok hd]; exact fun _ => rfl
  granted := by rw [of_create_eq_ok hl]; exact hgranted
  noted := by
    intro i hi
    rw [of_create_eq_ok hd] at hi
    simp [marks, fresh] at hi

theorem tagOf (h : Mirrors l d) (a : Address) : d.tagOf a = l.tagOf a := by
  rw [tagOf_eq, tagOf_eq, h.layout, h.reads]

theorem refusal? (h : Mirrors l d) (a : Address) : d.refusal? a = l.refusal? a := by
  rw [refusal?_willing (refusesRegion_dense h.dense),
    refusal?_willing fun i => refusesRegion_granted (h.granted i), h.layout]

theorem withRegion (h : Mirrors l d) {i : Nat} (hi : i < l.layout.regions) :
    Mirrors (l.withRegion i) (d.withRegion i) where
  layout := by rw [withRegion_layout, withRegion_layout, h.layout]
  lazy := by rw [withRegion_backend, h.lazy]
  dense := by rw [withRegion_backend, h.dense]
  consistent := h.consistent.withRegion hi
  dense_consistent := h.dense_consistent.withRegion (h.layout ▸ hi)
  reads := by
    intro o
    rw [read_withRegion h.dense_consistent, read_withRegion h.consistent, h.reads]
  granted := by
    intro j
    rw [withRegion_mapping]
    exact h.granted j
  noted := by
    intro j hj
    rw [contains_withRegion h.dense_consistent (h.layout ▸ hi), Bool.or_eq_true] at hj
    rw [contains_withRegion h.consistent hi, Bool.or_eq_true]
    exact hj.imp_right (h.noted j)

theorem withTag (h : Mirrors l d) {a : Address} (hc : l.layout.covers a = true) (t : Tag) :
    Mirrors (l.withTag a t) (d.withTag a t) where
  layout := by rw [withTag_layout, withTag_layout, h.layout]
  lazy := by rw [withTag_backend, h.lazy]
  dense := by rw [withTag_backend, h.dense]
  consistent := h.consistent.withTag hc t
  dense_consistent := h.dense_consistent.withTag (h.layout ▸ hc) t
  reads := by
    intro o
    rw [read_withTag h.dense_consistent, read_withTag h.consistent, h.layout, h.reads]
  granted := by
    rw [withTag_mapping]
    exact h.granted
  noted := by
    rw [withTag_marks, withTag_marks, h.layout]
    exact (h.withRegion (Layout.regionAt_lt_regions hc)).noted

theorem withTag_writeAt (h : Mirrors l d) {a : Address} (hc : l.layout.covers a = true) (t : Tag) :
    Mirrors (l.withTag a t) (d.writeAt (d.layout.granule a) t) where
  layout := by rw [writeAt_layout, withTag_layout, h.layout]
  lazy := by rw [withTag_backend, h.lazy]
  dense := by rw [writeAt_backend, h.dense]
  consistent := h.consistent.withTag hc t
  dense_consistent := by
    refine h.dense_consistent.writeAt (Layout.granule_lt_shadowLength (h.layout ▸ hc)) ?_ t
    cases hb : d.backing with
    | lazy owned commits =>
        have hdense := h.dense
        simp [backend, hb] at hdense
    | dense touched => exact regionKind_of_dense hb _
  reads := by
    intro o
    rw [read_writeAt, read_withTag h.consistent, h.layout, h.reads]
  granted := by
    rw [withTag_mapping]
    exact h.granted
  noted := by
    intro i hi
    rw [writeAt_marks] at hi
    -- The dense store notes nothing, the lazy one at most one region more.
    rw [withTag_marks, contains_withRegion h.consistent (Layout.regionAt_lt_regions hc),
      Bool.or_eq_true]
    exact Or.inr (h.noted i hi)

theorem sight_region (h : Mirrors l d) (i : Nat) : (d.region i).sight = (l.region i).sight := by
  have htags : ∀ start length, d.bytes.slice start length = l.bytes.slice start length :=
    fun start length => List.map_congr_left fun k _ => h.reads (start + k)
  unfold Region.sight region
  rw [h.layout, htags]

theorem under (h : Mirrors l d) (m : Mapping) : Mirrors l (d.under m) :=
  ⟨h.layout, h.lazy, h.dense, h.consistent, h.dense_consistent.under m, h.reads, h.granted, h.noted⟩

/-- A dense store shows of the regions that are private in the lazy store those that memory was
asked for and those that hold a tag. -/
theorem writtenRegions (h : Mirrors l d) (hholds : d.Holds) {requested : List Nat}
    (hrequested : ∀ i, d.marks.contains i = true ↔ i ∈ requested) :
    d.writtenRegions = l.writtenRegions.filter (l.shown requested) := by
  -- Both lists ascend, so it is enough that they have the same members.
  apply d.writtenRegions_sorted.eq_of_mem_iff (l.writtenRegions_sorted.filter _)
  intro i
  rw [mem_writtenRegions h.dense_consistent h.dense fun _ => hholds.mayBeResident, hrequested,
    List.mem_filter, shown, Bool.or_eq_true, List.contains_iff_mem, any_tags_region,
    writtenRegions_eq_privateRegions h.consistent h.lazy, mem_privateRegions]
  simp only [h.reads, h.layout]
  refine ⟨fun hi => ⟨?_, hi⟩, And.right⟩
  rcases hi with hi | ⟨o, ho, rfl⟩
  case inl =>
    have hmark := h.noted i ((hrequested i).mpr hi)
    refine ⟨h.consistent.within i hmark, ?_⟩
    cases hb : l.backing with
    | dense touched => exact regionKind_of_dense hb i
    | lazy owned commits =>
        rw [marks, hb] at hmark
        rw [regionKind_of_lazy hb, if_pos hmark]
  case inr =>
    refine ⟨Layout.regionOf_lt_regions (h.consistent.inside o ho), ?_⟩
    -- What is not private reads as zero.
    cases hk : l.regionKind (l.layout.regionOf o) with
    | owned => rfl
    | shared => exact absurd (h.consistent.clean o hk) ho

end Mirrors

end Store
end TaintFlow
