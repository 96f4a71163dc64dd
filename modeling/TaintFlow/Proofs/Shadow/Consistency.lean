import Mathlib.Data.List.Basic
import Mathlib.Data.List.Nodup
import TaintFlow.Shadow.Store

/-!
# Consistent stores

A store keeps three records of what was written: the bytes, the marked regions and, on the lazy
backend, a count of commits. `Store.Consistent` says how they belong together. Every operation is
described by one equation over two changes of the store, `withRegion` and `writeAt`, and both keep
the store consistent.
-/

namespace TaintFlow

/-- The region that holds the tag of a covered address. -/
def Layout.regionAt (l : Layout) (a : Address) : Nat :=
  l.regionOf (l.granule a)

/-- The two addresses have one tag. -/
def Layout.Shares (l : Layout) (a b : Address) : Prop :=
  l.covers a = true ∧ l.covers b = true ∧ l.granule a = l.granule b

theorem Layout.regionAt_lt_regions {l : Layout} {a : Address} (h : l.covers a = true) :
    l.regionAt a < l.regions :=
  regionOf_lt_regions (granule_lt_shadowLength h)

def Mapping.refusing (r : MapRequest) : Mapping :=
  { Mapping.granting with refuses := (· == r) }

/-- A window of eight thousand words, with a shadow of regions of sixteen tags. -/
def Window.small : Window where
  layout :=
    { first := 0x1000
      last := 0x8fff
      granuleShift := Layout.full32.granuleShift
      regionSize := 16 }
  base := 0x700000
  fits := by decide

namespace RegionSet

theorem toList_nodup (s : RegionSet) : s.toList.Nodup :=
  s.toList_sorted.imp Nat.ne_of_lt

theorem insert_perm {s : RegionSet} {i : Nat} (hroom : i / 64 < s.words.size)
    (hnew : s.contains i = false) : (s.insert i).toList.Perm (i :: s.toList) := by
  have hi : i ∉ s.toList := by rw [mem_toList, hnew]; decide
  -- Neither list has repeats, so the members decide.
  rw [List.perm_ext_iff_of_nodup (toList_nodup _) (List.nodup_cons.mpr ⟨hi, s.toList_nodup⟩)]
  intro j
  rw [mem_toList, contains_insert s hroom, List.mem_cons, mem_toList, Bool.or_eq_true,
    decide_eq_true_iff, eq_comm]

@[simp] theorem size_insert (s : RegionSet) (i : Nat) :
    (s.insert i).words.size = s.words.size :=
  Array.size_modify

@[simp] theorem toList_empty (bound : Nat) : (empty bound).toList = [] := by
  rw [List.eq_nil_iff_forall_not_mem]
  intro i hi
  rw [mem_toList, contains_empty] at hi
  contradiction

end RegionSet

namespace Store

/-- The regions that a store marks: the private ones, or those that were written through it. -/
def marks (s : Store) : RegionSet :=
  match s.backing with
  | .lazy owned _ => owned
  | .dense touched => touched

/-- Whether the region would have to be committed, and the commit is refused. -/
def refusesRegion (s : Store) (i : Nat) : Bool :=
  match s.backing with
  | .lazy owned _ => !owned.contains i && s.mapping.refuses (.commit i)
  | .dense _ => false

/-- Why a write to an address is refused. -/
def refusal? (s : Store) (a : Address) : Option ShadowError :=
  if s.layout.covers a then
    if s.refusesRegion (s.layout.regionAt a) then some (.mapping (.commit (s.layout.regionAt a)))
    else none
  else some (.invalidAddress a)

/-- The store after a region was given writable memory. -/
def withRegion (s : Store) (i : Nat) : Store :=
  match s.backing with
  | .dense touched => { s with backing := .dense (touched.insert i) }
  | .lazy owned commits =>
    if owned.contains i then s
    else
      { s with
        bytes := s.bytes.zeroFill (i * s.layout.regionSize) s.layout.regionSize
        backing := .lazy (owned.insert i) (commits + 1) }

def writeAt (s : Store) (o : Nat) (t : Tag) : Store :=
  { s with bytes := s.bytes.write o t }

def backend (s : Store) : Backend :=
  match s.backing with
  | .lazy _ _ => .lazy
  | .dense _ => .dense

def fresh (backend : Backend) (layout : Layout) : Backing :=
  match backend with
  | .lazy => .lazy (RegionSet.empty layout.regions) 0
  | .dense => .dense (RegionSet.empty layout.regions)

def small (backend : Backend) : Store :=
  ⟨.small, .granting, .zero, fresh backend Window.small.layout⟩

theorem of_create_eq_ok {backend : Backend} {window : Window} {mapping : Mapping} {s : Store}
    (h : create backend window mapping = .ok s) :
    s = ⟨window, mapping, .zero, fresh backend window.layout⟩ := by
  unfold create at h
  cases backend <;> dsimp only at h <;> split at h <;> try contradiction
  -- There is a store only if the second request is granted, too.
  all_goals
    split at h
    · contradiction
    · cases h
      rfl

def withTag (s : Store) (a : Address) (t : Tag) : Store :=
  (s.withRegion (s.layout.regionAt a)).writeAt (s.layout.granule a) t

/-- The store where the operating system answers as `m` from now on. -/
def under (s : Store) (m : Mapping) : Store :=
  { s with mapping := m }

@[simp] theorem under_layout (s : Store) (m : Mapping) : (s.under m).layout = s.layout := rfl

@[simp] theorem under_mapping (s : Store) (m : Mapping) : (s.under m).mapping = m := rfl

@[simp] theorem under_under (s : Store) (m m' : Mapping) : (s.under m).under m' = s.under m' := rfl

/-! ## Operations as changes -/

theorem offsetOf_eq (s : Store) (a : Address) :
    s.offsetOf a =
      if s.layout.covers a then .ok (s.layout.granule a) else .error (.invalidAddress a) := by
  unfold offsetOf Window.offset? layout
  cases s.window.layout.covers a <;> rfl

theorem tagOf_eq (s : Store) (a : Address) :
    s.tagOf a =
      if s.layout.covers a then .ok (s.bytes.read (s.layout.granule a))
      else .error (.invalidAddress a) := by
  rw [tagOf, offsetOf_eq]
  split <;> rfl

theorem translate_eq (s : Store) (a : Address) :
    s.translate a =
      if s.layout.covers a then .ok (s.window.addressOf (s.layout.granule a))
      else .error (.invalidAddress a) := by
  rw [translate, offsetOf_eq]
  split <;> rfl

theorem materializeRegion_eq (i : Nat) (s : Store) :
    materializeRegion i s =
      if s.refusesRegion i then .error (.mapping (.commit i)) s else .ok () (s.withRegion i) := by
  unfold materializeRegion refusesRegion withRegion
  cases hb : s.backing with
  | dense touched => simp
  | lazy owned commits =>
      cases ho : owned.contains i with
      | true => simp [ho]
      | false => cases s.mapping.refuses (.commit i) <;> simp [ho, RegionSet.mark]

/-! ## What the changes leave alone -/

@[simp] theorem withRegion_window (s : Store) (i : Nat) : (s.withRegion i).window = s.window := by
  unfold withRegion
  split <;> first | rfl | (split <;> rfl)

@[simp] theorem withRegion_mapping (s : Store) (i : Nat) :
    (s.withRegion i).mapping = s.mapping := by
  unfold withRegion
  split <;> first | rfl | (split <;> rfl)

@[simp] theorem withRegion_backend (s : Store) (i : Nat) :
    (s.withRegion i).backend = s.backend := by
  unfold withRegion backend
  cases hb : s.backing with
  | dense touched => rfl
  | lazy owned commits => cases ho : owned.contains i <;> simp [ho, hb]

@[simp] theorem withRegion_layout (s : Store) (i : Nat) : (s.withRegion i).layout = s.layout := by
  rw [layout, withRegion_window, layout]

@[simp] theorem writeAt_window (s : Store) (o : Nat) (t : Tag) :
    (s.writeAt o t).window = s.window := rfl

@[simp] theorem writeAt_layout (s : Store) (o : Nat) (t : Tag) :
    (s.writeAt o t).layout = s.layout := rfl

@[simp] theorem writeAt_mapping (s : Store) (o : Nat) (t : Tag) :
    (s.writeAt o t).mapping = s.mapping := rfl

@[simp] theorem writeAt_backing (s : Store) (o : Nat) (t : Tag) :
    (s.writeAt o t).backing = s.backing := rfl

@[simp] theorem writeAt_backend (s : Store) (o : Nat) (t : Tag) :
    (s.writeAt o t).backend = s.backend := rfl

@[simp] theorem writeAt_marks (s : Store) (o : Nat) (t : Tag) :
    (s.writeAt o t).marks = s.marks := rfl

@[simp] theorem writeAt_regionKind (s : Store) (o : Nat) (t : Tag) (i : Nat) :
    (s.writeAt o t).regionKind i = s.regionKind i := rfl

@[simp] theorem read_writeAt (s : Store) (o : Nat) (t : Tag) (k : Nat) :
    (s.writeAt o t).bytes.read k = if o = k then t else s.bytes.read k :=
  s.bytes.read_write o k t

theorem read_withRegion_eq_or_zero (s : Store) (i o : Nat) :
    (s.withRegion i).bytes.read o = s.bytes.read o ∨
      (s.withRegion i).bytes.read o = untainted := by
  unfold withRegion
  split
  · exact Or.inl rfl
  · split
    · exact Or.inl rfl
    · dsimp only
      rw [Memory.read_zeroFill]
      split
      · exact Or.inr rfl
      · exact Or.inl rfl

/-! ## Operations on addresses -/

theorem covers_of_refusal? {s : Store} {a : Address} (h : s.refusal? a = none) :
    s.layout.covers a = true := by
  unfold refusal? at h
  split at h
  · assumption
  · contradiction

theorem refusal?_uncovered {s : Store} {a : Address} (hc : s.layout.covers a = false) :
    s.refusal? a = some (.invalidAddress a) := by
  rw [refusal?, hc]
  rfl

theorem refusesRegion_iff {s : Store} {i : Nat} :
    s.refusesRegion i = true ↔
      s.regionKind i = .shared ∧ s.mapping.refuses (.commit i) = true := by
  unfold refusesRegion regionKind
  cases s.backing with
  | dense touched => simp
  | lazy owned commits => cases owned.contains i <;> simp

theorem refusesRegion_of_refusal? {s : Store} {a : Address} (h : s.refusal? a = none) :
    s.refusesRegion (s.layout.regionAt a) = false := by
  rw [refusal?, if_pos (covers_of_refusal? h)] at h
  split at h
  · contradiction
  · rename_i hr
    exact Bool.eq_false_iff.mpr hr

theorem not_refused_of_refusal? {s : Store} {a : Address} (h : s.refusal? a = none) :
    ¬ (s.regionKind (s.layout.regionAt a) = .shared ∧
      s.mapping.refuses (.commit (s.layout.regionAt a)) = true) := by
  rw [← refusesRegion_iff, refusesRegion_of_refusal? h]
  decide

theorem refusal?_congr {s s' : Store} {a : Address} (hlayout : s'.layout = s.layout)
    (hrefuses : s'.refusesRegion (s.layout.regionAt a) = s.refusesRegion (s.layout.regionAt a)) :
    s'.refusal? a = s.refusal? a := by
  rw [refusal?, hlayout, hrefuses, refusal?]

theorem refusal?_cases {s : Store} {a : Address} {e : ShadowError} (h : s.refusal? a = some e) :
    (e = .invalidAddress a ∧ s.layout.covers a = false) ∨
      (e = .mapping (.commit (s.layout.regionAt a)) ∧ s.layout.covers a = true ∧
        s.backend = .lazy ∧ s.regionKind (s.layout.regionAt a) = .shared ∧
        s.mapping.refuses (.commit (s.layout.regionAt a)) = true) := by
  unfold refusal? at h
  split at h
  · rename_i hc
    split at h
    · rename_i hr
      cases h
      refine Or.inr ⟨rfl, hc, ?_⟩
      unfold refusesRegion at hr
      cases hb : s.backing with
      | dense touched => simp [hb] at hr
      | lazy owned commits =>
          simp only [hb, Bool.and_eq_true, Bool.not_eq_true'] at hr
          exact ⟨by rw [backend, hb], by simp [regionKind, hb, hr.1], hr.2⟩
    · contradiction
  · rename_i hc
    cases h
    exact Or.inl ⟨rfl, Bool.eq_false_iff.mpr hc⟩

/-- A refused commit is the only obstacle: once it is granted, nothing else is in the way. -/
theorem refusal?_of_granted {s : Store} {a : Address} {r : MapRequest} {m : Mapping}
    (h : s.refusal? a = some (.mapping r)) (hm : m.refuses r = false) :
    (s.under m).refusal? a = none := by
  rcases refusal?_cases h with ⟨he, -⟩ | ⟨he, hc, -⟩ <;> cases he
  cases hr : (s.under m).refusal? a with
  | none => rfl
  | some e =>
      rcases refusal?_cases hr with ⟨-, hc'⟩ | ⟨-, -, -, -, hm'⟩
      · rw [under_layout, hc] at hc'
        contradiction
      · rw [under_layout, under_mapping, hm] at hm'
        contradiction

theorem materialize_eq (a : Address) (s : Store) :
    materialize a s =
      match s.refusal? a with
      | some e => .error e s
      | none =>
        .ok (s.window.addressOf (s.layout.granule a)) (s.withRegion (s.layout.regionAt a)) := by
  rw [materialize, offsetOf_eq, refusal?]
  cases s.layout.covers a with
  | false => rfl
  | true =>
      have hm := materializeRegion_eq (s.layout.regionAt a) s
      rw [Layout.regionAt] at hm ⊢
      simp only [if_true, hm]
      cases s.refusesRegion (s.layout.regionOf (s.layout.granule a)) with
      | true => rfl
      | false => simp only [Bool.false_eq_true, if_false, withRegion_window]

@[simp] theorem withTag_window (s : Store) (a : Address) (t : Tag) :
    (s.withTag a t).window = s.window := by
  rw [withTag, writeAt_window, withRegion_window]

@[simp] theorem withTag_layout (s : Store) (a : Address) (t : Tag) :
    (s.withTag a t).layout = s.layout := by
  rw [layout, withTag_window, layout]

@[simp] theorem withTag_backend (s : Store) (a : Address) (t : Tag) :
    (s.withTag a t).backend = s.backend := by
  rw [withTag, writeAt_backend, withRegion_backend]

@[simp] theorem withTag_mapping (s : Store) (a : Address) (t : Tag) :
    (s.withTag a t).mapping = s.mapping := by
  rw [withTag, writeAt_mapping, withRegion_mapping]

theorem withTag_marks (s : Store) (a : Address) (t : Tag) :
    (s.withTag a t).marks = (s.withRegion (s.layout.regionAt a)).marks := by
  rw [withTag, writeAt_marks]

theorem pokeByte_addressOf (s : Store) {o : Nat} (ho : o < s.layout.shadowLength) (t : Tag) :
    s.pokeByte (s.window.addressOf o) t = s.writeAt o t := by
  rw [pokeByte, Window.locate?_addressOf s.window ho]
  rfl

theorem pokeByte_withRegion {s : Store} {a : Address} (h : s.layout.covers a = true) (t : Tag) :
    (s.withRegion (s.layout.regionAt a)).pokeByte (s.window.addressOf (s.layout.granule a)) t =
      s.withTag a t := by
  have hin := Layout.granule_lt_shadowLength h
  have hp := pokeByte_addressOf (s.withRegion (s.layout.regionAt a)) (by simpa using hin) t
  rw [withRegion_window] at hp
  exact hp

theorem setTag_eq (a : Address) (t : Tag) (s : Store) :
    setTag a t s =
      match s.refusal? a with
      | some e => .error e s
      | none => .ok () (s.withTag a t) := by
  rw [setTag, materialize_eq]
  cases h : s.refusal? a with
  | some e => rfl
  | none => simp only [pokeByte_withRegion (covers_of_refusal? h)]

theorem pageKind_addressOf (s : Store) {o : Nat} (ho : o < s.layout.shadowLength) :
    s.pageKind (s.window.addressOf o) = some (s.regionKind (s.layout.regionOf o)) := by
  rw [pageKind, Window.locate?_addressOf s.window ho, Option.map_some]

theorem byteAt?_addressOf (s : Store) {o : Nat} (ho : o < s.layout.shadowLength) :
    s.byteAt? (s.window.addressOf o) = some (s.bytes.read o) := by
  rw [byteAt?, Window.locate?_addressOf s.window ho, Option.map_some]

/-! ## Consistency -/

/-- The records of a store belong together. -/
structure Consistent (s : Store) : Prop where
  room : s.layout.regions ≤ 64 * s.marks.words.size
  within : ∀ i, s.marks.contains i = true → i < s.layout.regions
  inside : ∀ o, s.bytes.read o ≠ 0 → o < s.layout.shadowLength
  /-- Every commit made one more region private. -/
  counted : ∀ owned commits, s.backing = .lazy owned commits → owned.toList.length = commits
  /-- What is not private reads as zero. -/
  clean : ∀ o, s.regionKind (s.layout.regionOf o) = .shared → s.bytes.read o = 0

theorem regionKind_of_lazy {s : Store} {owned : RegionSet} {commits : Nat}
    (h : s.backing = .lazy owned commits) (i : Nat) :
    s.regionKind i = if owned.contains i then .owned else .shared := by
  rw [regionKind, h]

theorem regionKind_of_dense {s : Store} {touched : RegionSet} (h : s.backing = .dense touched)
    (i : Nat) : s.regionKind i = .owned := by
  rw [regionKind, h]

theorem marks_withRegion (s : Store) (i : Nat) :
    (s.withRegion i).marks = s.marks ∨ (s.withRegion i).marks = s.marks.insert i := by
  unfold withRegion marks
  cases hb : s.backing with
  | dense touched => exact Or.inr rfl
  | lazy owned commits =>
      cases ho : owned.contains i with
      | true => exact Or.inl (by simp [ho, hb])
      | false => exact Or.inr (by simp [ho])

theorem consistent_create {backend : Backend} {window : Window} {mapping : Mapping} {s : Store}
    (h : create backend window mapping = .ok s) : s.Consistent := by
  rw [of_create_eq_ok h]
  cases backend
  all_goals
    constructor
    case room =>
      change _ ≤ 64 * (Array.replicate _ _).size
      rw [Array.size_replicate]
      change window.layout.regions ≤ _
      omega
    case within =>
      intro i hi
      simp [marks, fresh] at hi
    case inside =>
      intro o ho
      simp at ho
    case counted =>
      intro owned commits hb
      cases hb
      try rw [RegionSet.toList_empty, List.length_nil]
    case clean =>
      intro o _
      exact Memory.read_zero o

section Consistent

variable {s : Store} {i : Nat}

theorem Consistent.mark_fits (h : s.Consistent) (hi : i < s.layout.regions) :
    i / 64 < s.marks.words.size := by
  have := h.room
  omega

theorem contains_withRegion (h : s.Consistent) (hi : i < s.layout.regions) (j : Nat) :
    (s.withRegion i).marks.contains j = (decide (i = j) || s.marks.contains j) := by
  have hfits := h.mark_fits hi
  unfold withRegion marks at *
  cases hb : s.backing with
  | dense touched =>
      rw [hb] at hfits
      exact touched.contains_insert hfits j
  | lazy owned commits =>
      rw [hb] at hfits
      cases ho : owned.contains i with
      | false => simpa [ho] using owned.contains_insert hfits j
      -- The region is private already and nothing is marked.
      | true =>
          by_cases hj : i = j
          · simp [ho, hb, ← hj]
          · simp [ho, hb, hj]

theorem regionKind_withRegion (h : s.Consistent) (hi : i < s.layout.regions) (j : Nat) :
    (s.withRegion i).regionKind j = if i = j then .owned else s.regionKind j := by
  have hc := contains_withRegion h hi j
  unfold withRegion marks at hc
  unfold withRegion
  -- A dense store owns every region to begin with.
  cases hb : s.backing with
  | dense touched => simp [regionKind, hb]
  | lazy owned commits =>
      rw [hb] at hc
      cases ho : owned.contains i with
      | false =>
          simp only [ho, Bool.false_eq_true, if_false] at hc ⊢
          by_cases hj : i = j <;> simp_all [regionKind]
      | true =>
          by_cases hj : i = j
          · simp [regionKind, hb, ho, ← hj]
          · simp [ho, hj]

theorem pageKind_withRegion (h : s.Consistent) {a : Address} (hc : s.layout.covers a = true) :
    (s.withRegion (s.layout.regionAt a)).pageKind (s.window.addressOf (s.layout.granule a)) =
      some .owned := by
  have hin := Layout.granule_lt_shadowLength hc
  have hk := pageKind_addressOf (s.withRegion (s.layout.regionAt a)) (by simpa using hin)
  rw [withRegion_window, withRegion_layout,
    regionKind_withRegion h (Layout.regionAt_lt_regions hc)] at hk
  rw [hk]
  exact congrArg some (if_pos rfl)

theorem read_withRegion (h : s.Consistent) (i o : Nat) :
    (s.withRegion i).bytes.read o = s.bytes.read o := by
  unfold withRegion
  cases hb : s.backing with
  | dense touched => rfl
  | lazy owned commits =>
      cases ho : owned.contains i with
      | true => simp [ho]
      | false =>
          simp only [ho, Bool.false_eq_true, if_false]
          -- A commit replaces the bytes of a region that was shared, and those were zero.
          rw [Memory.read_zeroFill]
          split
          · rename_i hin
            have hregion : s.layout.regionOf o = i :=
              Nat.div_eq_of_lt_le hin.1 (by rw [Nat.succ_mul]; exact hin.2)
            refine (h.clean o ?_).symm
            rw [hregion, regionKind_of_lazy hb, ho]
            rfl
          · rfl

theorem Consistent.withRegion (h : s.Consistent) (hi : i < s.layout.regions) :
    (s.withRegion i).Consistent where
  room := by
    have := h.room
    rcases marks_withRegion s i with hm | hm <;> rw [withRegion_layout, hm] <;> simpa
  within := by
    intro j hj
    rw [contains_withRegion h hi, Bool.or_eq_true, decide_eq_true_iff] at hj
    rw [withRegion_layout]
    exact hj.elim (fun he => he ▸ hi) (h.within j)
  inside := by
    intro o ho
    rw [read_withRegion h] at ho
    rw [withRegion_layout]
    exact h.inside o ho
  counted := by
    intro owned' commits' hb'
    have hfits := h.mark_fits hi
    unfold Store.withRegion at hb'
    cases hb : s.backing with
    | dense touched => simp [hb] at hb'
    | lazy owned commits =>
        have hcount := h.counted owned commits hb
        simp only [hb] at hb'
        split at hb'
        · exact h.counted owned' commits' hb'
        · rename_i ho
          cases hb'
          rw [marks, hb] at hfits
          -- The commit that is counted goes with the region that is added.
          have hperm := RegionSet.insert_perm hfits (by simpa using ho)
          rw [hperm.length_eq, List.length_cons, hcount]
  clean := by
    intro o ho
    rw [withRegion_layout, regionKind_withRegion h hi] at ho
    rw [read_withRegion h]
    split at ho
    · contradiction
    · exact h.clean o ho

theorem Consistent.under (h : s.Consistent) (m : Mapping) : (s.under m).Consistent :=
  ⟨h.room, h.within, h.inside, h.counted, h.clean⟩

theorem Consistent.writeAt (h : s.Consistent) {o : Nat} (hin : o < s.layout.shadowLength)
    (howned : s.regionKind (s.layout.regionOf o) = .owned) (t : Tag) :
    (s.writeAt o t).Consistent where
  room := h.room
  within := h.within
  inside := by
    intro k hk
    rw [read_writeAt] at hk
    split at hk
    · rename_i he
      exact he ▸ hin
    · exact h.inside k hk
  counted := h.counted
  clean := by
    intro k hk
    rw [read_writeAt]
    split
    · rename_i he
      -- The written region is private, so it is not one of those that read as zero.
      rw [writeAt_regionKind, writeAt_layout, ← he, howned] at hk
      contradiction
    · exact h.clean k hk

theorem Consistent.withTag (h : s.Consistent) {a : Address} (hc : s.layout.covers a = true)
    (t : Tag) : (s.withTag a t).Consistent := by
  have hi := Layout.regionAt_lt_regions hc
  apply (h.withRegion hi).writeAt
  · rw [withRegion_layout]
    exact Layout.granule_lt_shadowLength hc
  · rw [withRegion_layout, regionKind_withRegion h hi]
    exact if_pos rfl

theorem regionKind_withTag (h : s.Consistent) {a : Address} (hc : s.layout.covers a = true)
    (t : Tag) (i : Nat) :
    (s.withTag a t).regionKind i = if s.layout.regionAt a = i then .owned else s.regionKind i := by
  rw [Store.withTag, writeAt_regionKind, regionKind_withRegion h (Layout.regionAt_lt_regions hc)]

/-- A write that goes through gets nothing granted or refused that was not before. -/
theorem refusal?_withTag (hs : s.Consistent) {a : Address} (h : s.refusal? a = none) (t : Tag)
    (b : Address) : (s.withTag a t).refusal? b = s.refusal? b := by
  have hfree := refusesRegion_of_refusal? h
  refine refusal?_congr (withTag_layout s a t) (Bool.eq_iff_iff.mpr ?_)
  rw [refusesRegion_iff, refusesRegion_iff, regionKind_withTag hs (covers_of_refusal? h),
    withTag_mapping]
  by_cases hsame : s.layout.regionAt a = s.layout.regionAt b
  · rw [if_pos hsame, ← hsame, ← refusesRegion_iff, hfree]
    simp
  · rw [if_neg hsame]

theorem read_withTag (h : s.Consistent) (a : Address) (t : Tag) (o : Nat) :
    (s.withTag a t).bytes.read o = if s.layout.granule a = o then t else s.bytes.read o := by
  rw [Store.withTag, read_writeAt, read_withRegion h]

theorem tagOf_withTag (h : s.Consistent) (a : Address) (t : Tag) (b : Address) :
    (s.withTag a t).tagOf b =
      if s.layout.covers b = true ∧ s.layout.granule a = s.layout.granule b then .ok t
      else s.tagOf b := by
  rw [tagOf_eq, tagOf_eq, withTag_layout, read_withTag h]
  cases s.layout.covers b with
  | false => simp
  | true => by_cases hg : s.layout.granule a = s.layout.granule b <;> simp [hg]

end Consistent

end Store
end TaintFlow
