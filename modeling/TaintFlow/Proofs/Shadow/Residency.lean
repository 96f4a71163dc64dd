import TaintFlow.Proofs.Inline.Requests
import TaintFlow.Proofs.Shadow.Reachability

/-!
# What a dense store shows

A dense store is not told of inline writes. It asks which pages of the shadow are held in store and
looks for tags in the regions on them. Regions and pages divide the shadow in their own ways; still
every page that overlaps a region is among those asked for, and no region with a tag is missed. What
a visitor sees are the regions that memory was asked for and the regions that hold a tag.
-/

namespace TaintFlow

open TaintFlow.Action

/-! ## Visitors that stop -/

/-- The answer of a visitor to a region, once it has seen the regions in front of it. -/
def Region.answered {σ : Type} (visitor : σ → Region → σ × Bool) (start : σ) (front : List Region)
    (r : Region) : Bool :=
  (visitor (front.foldl (fun acc r => (visitor acc r).1) start) r).2

/-- A visitor sees the first `n` regions. It answers `true` to all in front of the last of them, and
if there are more, `false` to the last. -/
theorem Region.visitEach_stops {σ : Type} (visitor : σ → Region → σ × Bool) (start : σ)
    (regions : List Region) :
    ∃ n ≤ regions.length,
      visitEach visitor start regions =
        (regions.take n).foldl (fun acc r => (visitor acc r).1) start ∧
      (∀ k r, k + 1 < n → regions[k]? = some r →
        answered visitor start (regions.take k) r = true) ∧
      (n < regions.length → ∃ k r, n = k + 1 ∧ regions[k]? = some r ∧
        answered visitor start (regions.take k) r = false) := by
  induction regions generalizing start with
  | nil => exact ⟨0, Nat.le_refl 0, rfl, fun k _ hk => absurd hk (Nat.not_lt_zero _), nofun⟩
  | cons r rest ih =>
      rw [visitEach]
      cases hr : visitor start r with
      | mk acc more =>
        have hfirst : (visitor start r).1 = acc := by rw [hr]
        have hanswer : answered visitor start [] r = more := by
          change (visitor start r).2 = more
          rw [hr]
        cases more with
        | false =>
            refine ⟨1, Nat.succ_le_succ (Nat.zero_le _), hfirst.symm, ?_,
              fun _ => ⟨0, r, rfl, rfl, hanswer⟩⟩
            exact fun k _ hk => absurd hk (Nat.not_lt.mpr (Nat.le_add_left 1 k))
        | true =>
            obtain ⟨n, hn, hvisit, hbefore, hlast⟩ := ih acc
            -- What the rest is asked is what the whole list is asked one place later.
            have hshift : ∀ k q, answered visitor start ((r :: rest).take (k + 1)) q =
                answered visitor acc (rest.take k) q := by
              intro k q
              rw [answered, List.take_succ_cons, List.foldl_cons, hfirst]
              rfl
            refine ⟨n + 1, Nat.succ_le_succ hn, ?_, fun k q hk hq => ?_, fun hlt => ?_⟩
            · rw [List.take_succ_cons, List.foldl_cons, hfirst]
              exact hvisit
            · cases k with
              | zero =>
                  cases hq
                  exact hanswer
              | succ k => exact (hshift k q).trans (hbefore k q (Nat.lt_of_succ_lt_succ hk) hq)
            · obtain ⟨k, q, hk, hq, hfalse⟩ := hlast (Nat.lt_of_succ_lt_succ hlt)
              exact ⟨k + 1, q, congrArg (· + 1) hk, hq, (hshift k q).trans hfalse⟩

/-! ## Pages -/

namespace Store

variable {s : Store} {i : Nat}

/-- What the operating system answers for each page of the shadow; nothing if it cannot tell. -/
def residency? (s : Store) : Option (List Bool) :=
  if s.mapping.refuses .resident then none
  else
    let pages := (s.layout.shadowLength + s.mapping.pageSize - 1) / s.mapping.pageSize
    some ((List.range pages).map s.mapping.resident)

/-- The answers for the pages that overlap a region; nothing if there is no answer for one. -/
def answersFor? (s : Store) (answers : List Bool) (i : Nat) : Option (List Bool) :=
  let start := i * s.layout.regionSize
  let first := start / s.mapping.pageSize
  let stop := (start + s.layout.regionSize + s.mapping.pageSize - 1) / s.mapping.pageSize
  if first ≤ stop ∧ stop ≤ answers.length then some ((answers.take stop).drop first) else none

/-- Whether a page of a region is held in store, or may be. -/
def held? (s : Store) (i : Nat) : Option Bool :=
  match s.residency? with
  | none => some true
  | some answers => (s.answersFor? answers i).map (·.any id)

/-- Go through the regions with some numbers. A region is passed over if no page of it is held in
store and it was not noted, and if it was not noted and has no tag. There is no result if an answer
is looked up that was not given. -/
def scan? {σ : Type} (s : Store) (visitor : σ → Region → σ × Bool) : List Nat → σ → Option σ
  | [], acc => some acc
  | i :: rest, acc =>
    match s.held? i with
    | none => none
    | some held =>
      let noted := s.marks.contains i
      if !held && !noted then s.scan? visitor rest acc
      else if !noted && (s.region i).tags.all (· == 0) then s.scan? visitor rest acc
      else
        match visitor acc (s.region i) with
        | (acc, true) => s.scan? visitor rest acc
        | (acc, false) => some acc

theorem region_in_shadow (hi : i < s.layout.regions) :
    i * s.layout.regionSize + s.layout.regionSize ≤ s.layout.shadowLength := by
  rw [← Nat.succ_mul, Layout.shadowLength]
  exact Nat.mul_le_mul_right _ hi

/-- Every page that overlaps a region has an answer. -/
theorem held?_eq (hi : i < s.layout.regions) : s.held? i = some (s.mayBeResident i) := by
  unfold held? residency? mayBeResident
  cases s.mapping.refuses .resident with
  | true => rfl
  | false =>
      have hin := region_in_shadow hi
      have hbounds : i * s.layout.regionSize / s.mapping.pageSize ≤
            (i * s.layout.regionSize + s.layout.regionSize + s.mapping.pageSize - 1) /
              s.mapping.pageSize ∧
          (i * s.layout.regionSize + s.layout.regionSize + s.mapping.pageSize - 1) /
              s.mapping.pageSize ≤
            (s.layout.shadowLength + s.mapping.pageSize - 1) / s.mapping.pageSize := by
        have hpage := s.mapping.pageSize_pos
        exact ⟨Nat.div_le_div_right (by omega), Nat.div_le_div_right (by omega)⟩
      simp only [Bool.false_eq_true, if_false, Bool.false_or, answersFor?, List.length_map,
        List.length_range, if_pos hbounds, Option.map_some, Mapping.anyResident]
      -- The answers that are looked up are those for the pages from the first to the last.
      rw [← List.map_take, ← List.map_drop, List.take_range, Nat.min_eq_left hbounds.2,
        List.range_eq_range', List.drop_range', List.range'_eq_map_range, List.any_map,
        List.any_map, Nat.mul_one, Nat.zero_add]
      rfl

/-- Whether the region is noted, or holds a tag and may have a page in store. -/
def scanned (s : Store) (i : Nat) : Bool :=
  s.marks.contains i || (s.mayBeResident i && (s.region i).tags.any (· != 0))

theorem scan?_eq {σ : Type} (visitor : σ → Region → σ × Bool) (is : List Nat)
    (hin : ∀ i ∈ is, i < s.layout.regions) (start : σ) :
    s.scan? visitor is start =
      some (Region.visitEach visitor start ((is.filter s.scanned).map s.region)) := by
  induction is generalizing start with
  | nil => rfl
  | cons i rest ih =>
      obtain ⟨hi, hrest⟩ := List.forall_mem_cons.mp hin
      have htags : (s.region i).tags.all (· == 0) = !(s.region i).tags.any (· != 0) :=
        List.all_eq_not_any_not
      rw [scan?, held?_eq hi]
      dsimp only
      rw [htags, List.filter_cons, scanned]
      cases hnoted : s.marks.contains i <;> cases hheld : s.mayBeResident i <;>
        cases htagged : (s.region i).tags.any (· != 0)
      case false.true.true | true.false.false | true.false.true | true.true.false |
          true.true.true =>
        -- The region is shown, and the visitor decides whether the scan goes on.
        simp only [Bool.not_true, Bool.not_false, Bool.and_false, Bool.or_false, Bool.or_true,
          Bool.and_true, Bool.false_eq_true, if_false, if_true, List.map_cons, Region.visitEach]
        cases visitor start (s.region i) with
        | mk acc more =>
          cases more with
          | true => exact ih hrest acc
          | false => rfl
      all_goals exact ih hrest start

theorem lt_regions_of_mem_writtenRegions (hs : s.Consistent) (hdense : s.backend = .dense) :
    ∀ i ∈ s.writtenRegions, i < s.layout.regions := by
  intro i hi
  rcases (mem_writtenRegions_dense hs hdense i).mp hi with hnoted | ⟨-, o, ho, rfl⟩
  · exact hs.within i hnoted
  · exact Layout.regionOf_lt_regions (hs.inside o ho)

/-- What a visitor sees of a dense store is what a scan of all regions shows, which never looks up
an answer that was not given. -/
theorem scan?_eq_visit (hs : s.Consistent) (hdense : s.backend = .dense) {σ : Type}
    (visitor : σ → Region → σ × Bool) (start : σ) :
    s.scan? visitor (List.range s.layout.regions) start = some (s.visit visitor start) := by
  have hwritten : s.writtenRegions = (List.range s.layout.regions).filter s.scanned := by
    apply s.writtenRegions_sorted.eq_of_mem_iff (List.pairwise_lt_range.filter _)
    intro i
    rw [mem_writtenRegions_dense hs hdense, List.mem_filter, List.mem_range, scanned,
      Bool.or_eq_true, Bool.and_eq_true, any_tags_region]
    refine ⟨fun h => ⟨?_, h⟩, And.right⟩
    have hi := (mem_writtenRegions_dense hs hdense i).mpr h
    exact lt_regions_of_mem_writtenRegions hs hdense i hi
  rw [scan?_eq visitor _ (fun i hi => List.mem_range.mp hi), ← hwritten]
  rfl

end Store

/-! ## Histories of a dense store -/

/-- What a dense store is put through: calls, and stores that inline code makes without telling. -/
inductive Traffic where
  | call (access : Access)
  | inline (shadow : Address) (t : Tag)

namespace Traffic

def perform : Traffic → Store → Store
  | .call access, s => (outcome access.perform s).2
  | .inline shadow t, s => s.pokeByte shadow t

/-- The regions of the addresses that are passed to the store to be written. -/
def requests (l : Layout) : Traffic → List Nat
  | .call access => access.requests l
  | .inline _ _ => []

def performAll (s : Store) (events : List Traffic) : Store :=
  events.foldl (fun s e => e.perform s) s

end Traffic

namespace Store

variable {s : Store}

/-- Every page of a dense store can be written, so no store to it faults. -/
theorem changed_pokeByte (hdense : s.backend = .dense) (shadow : Address) (t : Tag) :
    Changed s (s.pokeByte shadow t) := by
  cases hloc : s.window.locate? shadow with
  | none =>
      rw [pokeByte, hloc]
  | some o =>
      have hkind : s.pageKind shadow = some .owned := by
        rw [pageKind, hloc, Option.map_some]
        cases hb : s.backing with
        | lazy owned commits => simp [backend, hb] at hdense
        | dense touched => rw [regionKind_of_dense hb]
      exact .single (change_pokeByte hkind t)

/-- A dense store that has noted the regions requested of it. -/
structure Records (w : Window) (requested : List Nat) (s : Store) : Prop where
  consistent : s.Consistent
  dense : s.backend = .dense
  window : s.window = w
  noted : ∀ i, s.marks.contains i = true ↔ i ∈ requested

namespace Records

variable {w : Window} {requested : List Nat} {s : Store}

theorem of_create {m : Mapping} (hs : create .dense w m = .ok s) : Records w [] s where
  consistent := consistent_create hs
  dense := by rw [of_create_eq_ok hs]; rfl
  window := by rw [of_create_eq_ok hs]
  noted := by
    intro i
    rw [of_create_eq_ok hs]
    simp [marks, fresh]

theorem changed {regions : List Nat} {s' : Store} (h : Records w requested s)
    (hchanged : Changed s s') (hnoted : Noted s regions s') :
    Records w (requested ++ regions) s' where
  consistent := hchanged.consistent h.consistent
  dense := hchanged.backend.trans h.dense
  window := hchanged.window.trans h.window
  noted := by
    intro i
    rw [hnoted i, h.noted, List.mem_append]

/-- A dense store refuses nothing but addresses outside the window, and notes the region of every
other address. -/
theorem noted_perform (h : Records w requested s) (x : Access) :
    Noted s (x.requests w.layout) (outcome x.perform s).2 := by
  have hlayout : s.layout = w.layout := congrArg Window.layout h.window
  have hwilling := refusal?_willing (refusesRegion_dense h.dense)
  cases x with
  | get a =>
      rw [Access.outcome_get]
      exact .of_marks_eq rfl
  | set a t =>
      rw [Access.outcome_set, hwilling, Access.requests, ← hlayout]
      by_cases hc : s.layout.covers a = true
      · rw [if_pos hc, if_pos hc]
        exact .withTag h.consistent hc t
      · rw [if_neg hc, if_neg hc]
        exact .of_marks_eq rfl
  | materialize a =>
      rw [Access.outcome_materialize, hwilling, Access.requests, ← hlayout]
      by_cases hc : s.layout.covers a = true
      · rw [if_pos hc, if_pos hc]
        exact .withRegion h.consistent hc
      · rw [if_neg hc, if_neg hc]
        exact .of_marks_eq rfl

theorem perform (h : Records w requested s) (e : Traffic) :
    Records w (requested ++ e.requests w.layout) (e.perform s) := by
  cases e with
  | call access =>
      have hchanged := (access.preserves_perform h.consistent).state .refl
      exact h.changed hchanged (h.noted_perform access)
  | inline shadow t =>
      have hquiet : Noted s [] (s.pokeByte shadow t) := by
        apply Noted.of_marks_eq
        unfold pokeByte
        split <;> rfl
      exact h.changed (changed_pokeByte h.dense shadow t) hquiet

theorem performAll (h : Records w requested s) (events : List Traffic) :
    Records w (requested ++ events.flatMap (Traffic.requests w.layout))
      (Traffic.performAll s events) := by
  induction events generalizing requested s with
  | nil =>
      rw [List.flatMap_nil, List.append_nil]
      exact h
  | cons e events ih =>
      rw [List.flatMap_cons, ← List.append_assoc]
      exact ih (h.perform e)

theorem under (h : Records w requested s) (m : Mapping) : Records w requested (s.under m) :=
  ⟨h.consistent.under m, h.dense, h.window, h.noted⟩

end Records

/-- Whatever a dense store was put through, and however it divides its shadow and the operating
system the pages, a visitor sees the regions of the addresses that were passed to the store to be
written and the regions that hold a tag, in ascending order, up to the first for which it answers
`false`. What it sees is what a scan over the answers for the pages shows, which looks up no answer
that was not given. The operating system may answer what it likes for pages without a tag, or not at
all. -/
theorem dense_shows_written {w : Window} {m : Mapping} {s₀ : Store}
    (hs₀ : create .dense w m = .ok s₀) (events : List Traffic) {system : Mapping}
    (hheld : system.refuses .resident = false →
      ∀ o, (Traffic.performAll s₀ events).bytes.read o ≠ 0 →
        system.resident (o / system.pageSize) = true) :
    let s := (Traffic.performAll s₀ events).under system
    let passed := events.flatMap (Traffic.requests w.layout)
    (∀ r, r ∈ s.regions ↔
      ∃ i < w.layout.regions, r = s.region i ∧ (i ∈ passed ∨ ∃ t ∈ r.tags, t ≠ 0)) ∧
    s.regions.Pairwise (fun r r' => r.appBase < r'.appBase ∧ r.shadowBase < r'.shadowBase) ∧
    s.regionCount = s.regions.length ∧
    ∀ {σ : Type} (visitor : σ → Region → σ × Bool) (start : σ),
      s.scan? visitor (List.range w.layout.regions) start = some (s.visit visitor start) ∧
      ∃ n ≤ s.regions.length,
        s.visit visitor start =
          (s.regions.take n).foldl (fun acc r => (visitor acc r).1) start ∧
        (∀ k r, k + 1 < n → s.regions[k]? = some r →
          Region.answered visitor start (s.regions.take k) r = true) ∧
        (n < s.regions.length → ∃ k r, n = k + 1 ∧ s.regions[k]? = some r ∧
          Region.answered visitor start (s.regions.take k) r = false) := by
  intro s passed
  have hrecords : Records w passed s := ((Records.of_create hs₀).performAll events).under system
  have hs := hrecords.consistent
  have hlayout : s.layout = w.layout := congrArg Window.layout hrecords.window
  have hmem : ∀ i, i ∈ s.writtenRegions ↔ i ∈ passed ∨ ∃ t ∈ (s.region i).tags, t ≠ 0 := by
    intro i
    rw [mem_writtenRegions hs hrecords.dense, hrecords.noted, ← any_tags_region, List.any_eq_true]
    · simp only [bne_iff_ne]
    · -- If the operating system cannot tell, every page may be in store.
      intro o ho
      cases hanswers : system.refuses .resident with
      | true => exact Bool.or_eq_true_iff.mpr (Or.inl hanswers)
      | false =>
          have hholds : s.Holds := hheld hanswers
          exact hholds.mayBeResident ho
  have hin := lt_regions_of_mem_writtenRegions hs hrecords.dense
  refine ⟨fun r => ?_, ?_, ?_, fun visitor start => ⟨?_, Region.visitEach_stops visitor start _⟩⟩
  · rw [regions, List.mem_map, ← hlayout]
    constructor
    · rintro ⟨i, hi, rfl⟩
      exact ⟨i, hin i hi, rfl, (hmem i).mp hi⟩
    · rintro ⟨i, -, rfl, hi⟩
      exact ⟨i, (hmem i).mpr hi, rfl⟩
  · rw [regions, List.pairwise_map]
    refine s.writtenRegions_sorted.imp_of_mem fun _ hj hij => ?_
    exact ⟨Layout.regionStart_lt hij (hin _ hj), Window.regionBase_lt hij (hin _ hj)⟩
  · cases hb : s.backing with
    | lazy owned commits =>
        have hdense := hrecords.dense
        simp [backend, hb] at hdense
    | dense touched => rw [regionCount, hb, regions, List.length_map]
  · rw [← hlayout]
    exact scan?_eq_visit hs hrecords.dense visitor start

/-- Pages of twenty-four bytes hold regions of sixteen. Inline code has tagged a byte of the third
region, which starts on the second page. -/
theorem dense_shows_written_unaligned :
    let events : List Traffic := [.call (.set 0x1004 7), .inline 0x700028 5]
    let system : Mapping :=
      { Mapping.granting with pageSize := 24, pageSize_pos := by decide, resident := (· ≤ 1) }
    let s := (Traffic.performAll (small .dense) events).under system
    s.region 0 ∈ s.regions ∧ s.region 2 ∈ s.regions := by
  intro events system s
  have hs₀ : create .dense .small .granting = .ok (small .dense) := rfl
  have hread : ∀ o, s.bytes.read o = if 40 = o then 5 else if 1 = o then 7 else 0 := by
    intro o
    have hbytes : s.bytes = (Memory.zero.write 1 7).write 40 5 := rfl
    rw [hbytes, Memory.read_write, Memory.read_write, Memory.read_zero]
  have hheld : system.refuses .resident = false →
      ∀ o, s.bytes.read o ≠ 0 → system.resident (o / system.pageSize) = true := by
    intro _ o ho
    change system.resident (o / 24) = true
    rw [hread] at ho
    split at ho
    · rename_i h
      exact h ▸ rfl
    · split at ho
      · rename_i h
        exact h ▸ rfl
      · exact absurd rfl ho
  obtain ⟨hmem, -⟩ := dense_shows_written hs₀ events hheld
  refine ⟨(hmem _).mpr ⟨0, by decide, rfl, Or.inl ?called⟩,
    (hmem _).mpr ⟨2, by decide, rfl, Or.inr ⟨5, ?inline, by decide⟩⟩⟩
  case called => decide
  case inline => exact List.mem_map.mpr ⟨8, by decide, hread 40⟩

end Store
end TaintFlow
