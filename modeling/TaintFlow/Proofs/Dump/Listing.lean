import TaintFlow.Proofs.Dump.RoundTrip
import TaintFlow.Proofs.Inline.Backends

/-!
# Dumps list the tags

Tags are written only where the window has a granule, so the unused end of the last region stays
clean. The regions that a dump shows hold every tag that is not zero, and they come in address
order. So the tainted addresses of the records, one record after the other, are the tainted granules
of the window in ascending order.
-/

namespace TaintFlow

open TaintFlow.Action

/-! ## Granules -/

namespace Layout

variable {l : Layout} {i j k : Nat}

/-- The first address of a granule. -/
def granuleStart (l : Layout) (k : Nat) : Address :=
  l.first + UInt64.ofNat (k * l.granuleSize)

theorem granuleStart_fits (h : k < l.granules) :
    l.first.toNat + k * l.granuleSize ≤ l.last.toNat := by
  have hle : l.first.toNat ≤ l.last.toNat := UInt64.le_iff_toNat_le.mp l.first_le_last
  have hk : k ≤ l.granule l.last := Nat.le_of_lt_succ h
  have hlast : l.granule l.last * 2 ^ l.granuleShift.val ≤ l.last.toNat - l.first.toNat := by
    rw [granule, toNat_sub_first l.first_le_last, Nat.shiftRight_eq_div_pow]
    exact Nat.div_mul_le_self _ _
  have hmono := Nat.mul_le_mul_right (2 ^ l.granuleShift.val) hk
  rw [granuleSize, Nat.one_shiftLeft]
  omega

theorem toNat_granuleStart (h : k < l.granules) :
    (l.granuleStart k).toNat = l.first.toNat + k * l.granuleSize := by
  have hfits := granuleStart_fits h
  have hlast := l.last.toNat_lt
  rw [granuleStart, UInt64.toNat_add, UInt64.toNat_ofNat']
  omega

theorem covers_granuleStart (h : k < l.granules) : l.covers (l.granuleStart k) = true := by
  have hfits := granuleStart_fits h
  rw [covers_iff, UInt64.le_iff_toNat_le, UInt64.le_iff_toNat_le, toNat_granuleStart h]
  omega

theorem granule_of_toNat {a : Address} (ha : l.covers a = true)
    (h : a.toNat = l.first.toNat + k * l.granuleSize) : l.granule a = k := by
  rw [granule, toNat_sub_first (covers_iff.mp ha).1, h, Nat.add_sub_cancel_left,
    granuleSize, Nat.one_shiftLeft, Nat.shiftRight_eq_div_pow]
  exact Nat.mul_div_cancel k (Nat.two_pow_pos _)

theorem granule_granuleStart (h : k < l.granules) : l.granule (l.granuleStart k) = k :=
  granule_of_toNat (covers_granuleStart h) (toNat_granuleStart h)

theorem granuleStart_lt (hij : i < j) (hj : j < l.granules) :
    l.granuleStart i < l.granuleStart j := by
  have hpos : 0 < l.granuleSize := by
    rw [granuleSize, Nat.one_shiftLeft]
    exact Nat.two_pow_pos _
  rw [UInt64.lt_iff_toNat_lt, toNat_granuleStart (Nat.lt_trans hij hj), toNat_granuleStart hj]
  exact Nat.add_lt_add_left (Nat.mul_lt_mul_of_pos_right hij hpos) _

/-- The granules of a region follow its start. -/
theorem regionStart_add (i j : Nat) :
    l.regionStart i + UInt64.ofNat (j * l.granuleSize) =
      l.granuleStart (i * l.regionSize + j) := by
  have hsum : i * l.regionSpan + j * l.granuleSize = (i * l.regionSize + j) * l.granuleSize := by
    rw [regionSpan, granuleSize, Nat.one_shiftLeft, Nat.shiftLeft_eq, Nat.add_mul, Nat.mul_assoc]
  rw [regionStart, granuleStart, UInt64.add_assoc, ← UInt64.ofNat_add, hsum]

end Layout

/-! ## Where tags are written -/

namespace Store

/-- Only granules of the window carry tags. -/
def Fitted (s : Store) : Prop :=
  ∀ o, s.bytes.read o ≠ 0 → o < s.layout.granules

namespace Fitted

variable {s : Store}

theorem withRegion (h : s.Fitted) (i : Nat) : (s.withRegion i).Fitted := by
  intro o ho
  rw [withRegion_layout]
  apply h o
  rcases read_withRegion_eq_or_zero s i o with hr | hr
  · rwa [hr] at ho
  · exact absurd hr ho

theorem writeAt (h : s.Fitted) {a : Address} (hc : s.layout.covers a = true) (t : Tag) :
    (s.writeAt (s.layout.granule a) t).Fitted := by
  intro o ho
  rw [read_writeAt] at ho
  split at ho
  · rename_i ha
    exact ha ▸ Layout.granule_lt_granules hc
  · exact h o ho

theorem withTag (h : s.Fitted) {a : Address} (hc : s.layout.covers a = true) (t : Tag) :
    (s.withTag a t).Fitted := by
  have hregion := h.withRegion (s.layout.regionAt a)
  have hwrite := hregion.writeAt (a := a) (by rw [withRegion_layout]; exact hc) t
  rw [withRegion_layout] at hwrite
  exact hwrite

theorem withInlineTag (h : s.Fitted) {a : Address} (hc : s.layout.covers a = true) (t : Tag) :
    (s.withInlineTag a t).Fitted := by
  unfold Store.withInlineTag
  split
  · exact h.withTag hc t
  · exact h.writeAt hc t

theorem keeps :
    TagState.Keeps (fun s => s.store.Fitted) (fun _ => True) (fun _ => True) (fun _ => True)
      (fun _ => True) where
  tracked := fun _ _ _ _ => trivial
  untracked := fun _ _ _ _ _ _ => trivial
  withThread := fun _ hs _ _ _ _ => hs
  uncovered := fun _ _ _ _ _ => trivial
  refused := fun _ _ _ _ _ _ => trivial
  withTag := fun _ hs _ t _ hc => hs.withTag hc t

theorem keepsInline :
    TagState.KeepsInline (fun s => s.store.Fitted) (fun _ => True) (fun _ => True)
      (fun _ => True) where
  direct := keeps.readOnly (fun _ _ => trivial) (fun _ _ => trivial)
  withSaved := fun _ hs _ => hs
  refused := fun _ _ _ _ _ _ => trivial
  withInlineTag := fun _ hs _ t _ hc => hs.withInlineTag hc t

end Fitted

end Store

/-- Inline code comes from plans and runs for a thread whose registers lie outside the shadow. Any
other operation is allowed. -/
def Operation.Lowered (w : Window) : Operation → Prop
  | .execute code _ thread _ => Emitted code ∧ thread.Outside w
  | _ => True

theorem Access.fitted (x : Access) {s : Store} (h : s.Fitted) : (outcome x.perform s).2.Fitted := by
  cases x with
  | get a =>
      rw [outcome_get]
      exact h
  | set a t =>
      rw [outcome_set]
      cases hr : s.refusal? a with
      | some e => exact h
      | none => exact h.withTag (Store.covers_of_refusal? hr) t
  | materialize a =>
      rw [outcome_materialize]
      cases s.refusal? a with
      | some e => exact h
      | none => exact h.withRegion _

theorem Operation.fitted {op : Operation} {s : Store} (hop : op.Lowered s.window)
    (hs : s.Consistent) (h : s.Fitted) : (outcome op.perform s).2.Fitted := by
  cases op with
  | call access =>
      change (outcome (focus id (fun s _ => s) OperationError.shadow access.perform >>=
        fun _ => pure ()) s).2.Fitted
      rw [outcome_map, outcome_focus]
      exact access.fitted h
  | visit visitor start => exact h
  | transfer t f thread =>
      have hkeep : Preserves (fun s => s.store.Fitted) (fun _ => True) (t.apply f) :=
        t.keeps_apply Store.Fitted.keeps f (fun _ _ => trivial) (fun _ _ => trivial)
      change (outcome (focus _ _ OperationError.apply (t.apply f)) s).2.Fitted
      rw [outcome_focus]
      exact hkeep.state h
  | recover patch access saved machine =>
      have hkeep := preserves_recoverFault (I := Store.Fitted) (fun _ _ hs _ => hs.withRegion _)
        patch access saved
      change (outcome (focus _ _ OperationError.fault (recoverFault patch access saved) >>=
        fun _ => pure ()) s).2.Fitted
      rw [outcome_map, outcome_focus]
      exact hkeep.state (s := (s, machine)) h
  | execute code f thread scratch =>
      obtain ⟨moves, hlowered⟩ := Emitted.lowered hop.1
      -- What the code does to the store, its moves do.
      have hend := InlineInstr.outcome_lowered (f := f) hlowered
        (s := ⟨⟨s, thread⟩, scratch⟩) ⟨hs, hop.2⟩
      have hkeep : Preserves (fun s => s.store.Fitted) (fun _ => True)
          (moves.forM (Move.inline f)) := by
        refine preserves_forM fun m _ => ?_
        apply m.keeps_inline Store.Fitted.keepsInline f (fun _ _ => trivial) (fun _ _ => trivial)
        intro b _
        have hcall : Preserves (fun s => s.store.Fitted) (fun _ => True) (b.apply f) :=
          b.keeps_apply Store.Fitted.keeps f (fun _ _ => trivial) (fun _ _ => trivial)
        exact preserves_focus hcall (fun _ hs => hs) (fun _ _ _ hs => hs) (fun _ he => he)
      have hfitted := hkeep.state (s := ⟨s, thread⟩) h
      rw [hend] at hfitted
      change (outcome (focus _ _ OperationError.exec (InlineInstr.run f code)) s).2.Fitted
      rw [outcome_focus]
      exact hfitted

namespace Store

/-- Operations have run on a new store, inline code among them only if it is that of plans. -/
def Served (backend : Backend) (w : Window) (s : Store) : Prop :=
  ∃ system s₀, create backend w system = .ok s₀ ∧
    Relation.ReflTransGen (fun s s' => ∃ (op : Operation) (system : Mapping), op.Lowered w ∧
      s' = (outcome op.perform (s.under system)).2) s₀ s

namespace Served

variable {backend : Backend} {w : Window} {s : Store}

theorem reachable (h : Served backend w s) : Reachable backend w s := by
  obtain ⟨system, s₀, hs₀, hsteps⟩ := h
  refine ⟨system, s₀, hs₀, Relation.ReflTransGen.mono ?_ _ _ hsteps⟩
  rintro s s' ⟨op, system, -, hs'⟩
  exact ⟨op, system, hs'⟩

theorem fitted (h : Served backend w s) : s.Fitted := by
  obtain ⟨system, s₀, hs₀, hsteps⟩ := h
  induction hsteps with
  | refl =>
      intro o ho
      rw [of_create_eq_ok hs₀] at ho
      exact absurd (Memory.read_zero o) ho
  | tail hbefore hstep ih =>
      obtain ⟨op, system', hop, rfl⟩ := hstep
      have hreach : Reachable backend w _ := reachable ⟨system, s₀, hs₀, hbefore⟩
      rw [← hreach.window_eq] at hop
      exact Operation.fitted hop (hreach.consistent.under system') ih

end Served

/-! ## Listing the regions -/

/-- Every byte that is not zero lies in a region that visitors see. -/
theorem regionOf_mem_writtenRegions {s : Store} (hs : s.Consistent)
    (hresident : s.backend = .dense → s.mapping.refuses .resident = true ∨ s.Holds) {o : Nat}
    (ho : s.bytes.read o ≠ 0) : s.layout.regionOf o ∈ s.writtenRegions := by
  cases hbackend : s.backend with
  | lazy =>
      rw [writtenRegions_eq_privateRegions hs hbackend, mem_privateRegions]
      refine ⟨Layout.regionOf_lt_regions (hs.inside o ho), ?_⟩
      cases hkind : s.regionKind (s.layout.regionOf o) with
      | owned => rfl
      | shared => exact absurd (hs.clean o hkind) ho
  | dense =>
      have hseen : ∀ o, s.bytes.read o ≠ 0 → s.mayBeResident (s.layout.regionOf o) = true := by
        intro o ho
        rcases hresident hbackend with hrefused | hholds
        · rw [mayBeResident, hrefused]
          rfl
        · exact hholds.mayBeResident ho
      exact (mem_writtenRegions hs hbackend hseen _).mpr (Or.inr ⟨o, ho, rfl⟩)

/-- The positions of the tags that visitors see. -/
def shownOffsets (s : Store) : List Nat :=
  s.writtenRegions.flatMap fun i =>
    (List.range s.layout.regionSize).map (i * s.layout.regionSize + ·)

theorem mem_shownOffsets {s : Store} {o : Nat} :
    o ∈ s.shownOffsets ↔ s.layout.regionOf o ∈ s.writtenRegions := by
  have hpos := s.layout.regionSize_pos
  rw [shownOffsets, List.mem_flatMap]
  constructor
  · rintro ⟨i, hi, ho⟩
    obtain ⟨j, hj, rfl⟩ := List.mem_map.mp ho
    have hregion : s.layout.regionOf (i * s.layout.regionSize + j) = i := by
      rw [Layout.regionOf, Nat.mul_comm, Nat.mul_add_div hpos,
        Nat.div_eq_of_lt (List.mem_range.mp hj), Nat.add_zero]
    rw [hregion]
    exact hi
  · intro hi
    refine ⟨_, hi, List.mem_map.mpr ⟨o % s.layout.regionSize, ?_, ?_⟩⟩
    · exact List.mem_range.mpr (Nat.mod_lt o hpos)
    · exact Nat.div_add_mod' o s.layout.regionSize

theorem shownOffsets_sorted (s : Store) : s.shownOffsets.Pairwise (· < ·) := by
  rw [shownOffsets, List.pairwise_flatMap]
  constructor
  · intro i _
    rw [List.pairwise_map]
    exact List.pairwise_lt_range.imp fun hlt => Nat.add_lt_add_left hlt _
  · refine s.writtenRegions_sorted.imp fun {i j} hij x hx y hy => ?_
    obtain ⟨m, hm, rfl⟩ := List.mem_map.mp hx
    obtain ⟨n, -, rfl⟩ := List.mem_map.mp hy
    have hnext : (i + 1) * s.layout.regionSize ≤ j * s.layout.regionSize :=
      Nat.mul_le_mul_right _ hij
    have hm' := List.mem_range.mp hm
    rw [Nat.succ_mul] at hnext
    omega

theorem tainted_region (s : Store) (i : Nat) :
    Dump.tainted s.layout.granuleSize (s.region i) =
      (((List.range s.layout.regionSize).map (i * s.layout.regionSize + ·)).filter
        fun o => s.bytes.read o != 0).map fun o => (s.layout.granuleStart o, s.bytes.read o) := by
  have hnumbered : (s.region i).tags.zipIdx =
      (List.range s.layout.regionSize).map fun j =>
        (s.bytes.read (i * s.layout.regionSize + j), j) := by
    apply List.ext_getElem
    · simp [region]
    · intro j hj hj'
      simp [region, Memory.slice]
  rw [Dump.tainted, hnumbered, List.filter_map, List.map_map, List.filter_map, List.map_map]
  refine List.map_congr_left fun j _ => ?_
  exact Prod.ext (Layout.regionStart_add i j) rfl

theorem listed_eq (s : Store) :
    s.regions.flatMap (Dump.tainted s.layout.granuleSize) =
      (s.shownOffsets.filter fun o => s.bytes.read o != 0).map
        fun o => (s.layout.granuleStart o, s.bytes.read o) := by
  rw [regions, List.flatMap_map, shownOffsets, List.filter_flatMap, List.map_flatMap]
  exact congrArg (fun f => s.writtenRegions.flatMap f) (funext s.tainted_region)

theorem listed_sorted {s : Store} (h : s.Fitted) :
    ((s.regions.flatMap (Dump.tainted s.layout.granuleSize)).map Prod.fst).Pairwise (· < ·) := by
  rw [listed_eq, List.map_map, List.pairwise_map]
  refine (s.shownOffsets_sorted.filter _).imp_of_mem fun {i j} _ hj hij => ?_
  have hne : s.bytes.read j ≠ 0 := by simpa using (List.mem_filter.mp hj).2
  exact Layout.granuleStart_lt hij (h j hne)

theorem mem_listed {s : Store} (hs : s.Consistent) (h : s.Fitted)
    (hresident : s.backend = .dense → s.mapping.refuses .resident = true ∨ s.Holds)
    (a : Address) (t : Tag) :
    (a, t) ∈ s.regions.flatMap (Dump.tainted s.layout.granuleSize) ↔
      s.tagOf a = .ok t ∧ t ≠ untainted ∧
        ∃ k, a.toNat = s.layout.first.toNat + k <<< s.layout.granuleShift.val := by
  have hsize : ∀ k, k <<< s.layout.granuleShift.val = k * s.layout.granuleSize := by
    intro k
    rw [Layout.granuleSize, Nat.one_shiftLeft, Nat.shiftLeft_eq]
  rw [listed_eq, List.mem_map, tagOf_eq]
  constructor
  · rintro ⟨o, ho, hpair⟩
    cases hpair
    have hne : s.bytes.read o ≠ 0 := by simpa using (List.mem_filter.mp ho).2
    have hin := h o hne
    rw [if_pos (Layout.covers_granuleStart hin), Layout.granule_granuleStart hin]
    exact ⟨rfl, hne, o, by rw [hsize, Layout.toNat_granuleStart hin]⟩
  · rintro ⟨htag, hne, k, hk⟩
    split at htag
    case isFalse => contradiction
    case isTrue hc =>
      cases htag
      rw [hsize] at hk
      have hgranule := Layout.granule_of_toNat hc hk
      have hin : k < s.layout.granules := hgranule ▸ Layout.granule_lt_granules hc
      have hread : s.bytes.read k ≠ 0 := hgranule ▸ hne
      refine ⟨k, List.mem_filter.mpr ⟨?_, by simpa using hread⟩, ?_⟩
      · exact mem_shownOffsets.mpr (regionOf_mem_writtenRegions hs hresident hread)
      · have haddress : s.layout.granuleStart k = a := by
          rw [← UInt64.toNat_inj, Layout.toNat_granuleStart hin, hk]
        rw [haddress, hgranule]

/-- A dump that is read back yields the regions that visitors see, in their order and with their
tags, and then nothing more. The tainted addresses of its records are, in ascending order, the
granules of the window whose tag is not zero, provided that the operating system reports the pages
of a dense store as resident that were written, or cannot tell. -/
theorem dump_lists_tags {backend : Backend} {w : Window} {s : Store} (h : Served backend w s)
    (hresident : backend = .dense → s.mapping.refuses .resident = true ∨ s.Holds) :
    ∃ sink, Dump.write s.visit .unlimited = .ok s.regions.length sink ∧
      s.visit (fun seen region => (seen ++ [region], true)) [] = s.regions ∧
      (∀ size : Dump.RegionSize, size.tags = w.layout.regionSize →
        ∃ r, Dump.Reader.start sink.taken size = .ok r ∧
          r.items.1 = s.regions.map .ok ∧ r.items.2.next.1 = none ∧
          ∀ limit, (r.upTo limit).1 = (s.regions.map .ok).take limit) ∧
      let listed := s.regions.flatMap (Dump.tainted w.layout.granuleSize)
      (listed.map Prod.fst).Pairwise (· < ·) ∧
        ∀ a t, (a, t) ∈ listed ↔ s.tagOf a = .ok t ∧ t ≠ untainted ∧
          ∃ k, a.toNat = w.layout.first.toNat + k <<< w.layout.granuleShift.val := by
  have hlayout : s.layout = w.layout := congrArg Window.layout h.reachable.window_eq
  have hvisit : s.visit (fun seen region => (seen ++ [region], true)) [] = s.regions := by
    rw [visit, Region.visitEach_all fun _ _ => rfl, List.foldl_append_eq_append, List.nil_append,
      ← List.flatMap_def, List.flatMap_singleton']
  have hdense : s.backend = .dense → s.mapping.refuses .resident = true ∨ s.Holds := fun hb =>
    hresident (h.reachable.backend_eq.symm.trans hb)
  refine ⟨_, Dump.write_unlimited s.regions, hvisit, fun size hsize => ?_, ?_⟩
  · refine Dump.Reader.items_encode fun region hregion => ?_
    obtain ⟨i, -, rfl⟩ := List.mem_map.mp hregion
    rw [hsize, ← hlayout]
    exact Memory.length_slice _ _ _
  · rw [← hlayout]
    exact ⟨listed_sorted h.fitted, mem_listed h.reachable.consistent h.fitted hdense⟩

/-- The dump of a store with one tag is read back, and the tag is in the list. -/
theorem dump_lists_tags_after_set :
    ∃ s sink r, Served .dense .small s ∧ Dump.write s.visit .unlimited = .ok s.regions.length sink ∧
      Dump.Reader.start sink.taken ⟨Window.small.layout.regionSize, by decide⟩ = .ok r ∧
      r.items.1 = s.regions.map .ok ∧
      ((0x1004, 7) : Address × Tag) ∈ s.regions.flatMap (Dump.tainted 4) := by
  have hs₀ : create .dense .small .granting = .ok (.small .dense) := rfl
  have h : Served .dense .small _ :=
    ⟨.granting, _, hs₀, .single ⟨.call (.set 0x1004 7), .granting, trivial, rfl⟩⟩
  obtain ⟨sink, hwrite, -, hread, -, hlisted⟩ :=
    dump_lists_tags h fun _ => Or.inr fun _ _ => rfl
  obtain ⟨r, hstart, hitems, -, -⟩ := hread ⟨Window.small.layout.regionSize, by decide⟩ rfl
  refine ⟨_, sink, r, h, hwrite, hstart, hitems, ?_⟩
  exact (hlisted 0x1004 7).mpr ⟨rfl, by decide, 1, rfl⟩

end Store

end TaintFlow
