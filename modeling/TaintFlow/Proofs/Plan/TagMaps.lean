import TaintFlow.Proofs.Inline.Agreement
import TaintFlow.Proofs.Plan.TagFamilies

/-!
# Maps of tags

Propagation copies tags, joins them and clears them, and it never looks at what it moves. A map of
tags that keeps the clean tag and joins therefore passes through every run: it makes no difference
whether the tags are mapped before the run or after it. A mask of marks is such a map, so each mark
travels as if it were alone, and forgetting all marks is one, so none appears from nowhere.
-/

namespace TaintFlow

open TaintFlow.Action

/-- A map of tags that keeps the clean tag and joins. -/
structure TagMap where
  toFun : Tag → Tag
  map_untainted : toFun untainted = untainted
  map_union : ∀ t u, toFun (t ||| u) = toFun t ||| toFun u

namespace TagMap

instance : CoeFun TagMap fun _ => Tag → Tag := ⟨toFun⟩

/-- Keep the marks of `m` and forget the others. -/
def mask (m : Tag) : TagMap where
  toFun := (· &&& m)
  map_untainted := UInt8.zero_and
  map_union := fun _ _ => UInt8.toBitVec_inj.mp BitVec.and_or_distrib_right

theorem mask_untainted (t : Tag) : mask untainted t = untainted :=
  UInt8.and_zero

end TagMap

namespace Memory

variable (f : TagMap)

/-- Map every byte. Bytes that become zero are not kept. -/
def map (m : Memory) : Memory where
  cells := m.cells.filterMap fun _ t => if f t = 0 then none else some (f t)
  cells_ne_zero := by
    intro i h
    rw [Std.TreeMap.getElem?_filterMap'] at h
    obtain ⟨t, -, ht⟩ := Option.bind_eq_some_iff.mp h
    split at ht
    · contradiction
    · rename_i hne
      exact hne (Option.some.inj ht)

theorem read_map (m : Memory) (i : Nat) : (m.map f).read i = f (m.read i) := by
  unfold map read
  rw [Std.TreeMap.getD_eq_getD_getElem?, Std.TreeMap.getElem?_filterMap',
    Std.TreeMap.getD_eq_getD_getElem?]
  cases m.cells[i]? with
  | none => exact f.map_untainted.symm
  | some t => by_cases ht : f t = 0 <;> simp [ht]

end Memory

namespace Store

variable {s s' : Store}

theorem backing_withRegion (hbacking : s'.backing = s.backing) (i : Nat) :
    (s'.withRegion i).backing = (s.withRegion i).backing := by
  unfold withRegion
  rw [hbacking]
  cases hb : s.backing with
  | dense touched => rfl
  | lazy owned commits => by_cases ho : owned.contains i = true <;> simp [ho, hb, hbacking]

/-- A commit clears the same bytes in both stores, and a cleared byte is mapped to a cleared one. -/
theorem map_read_withRegion (f : TagMap) (hwindow : s'.window = s.window)
    (hbacking : s'.backing = s.backing) {o : Nat} (h : s'.bytes.read o = f (s.bytes.read o))
    (i : Nat) : (s'.withRegion i).bytes.read o = f ((s.withRegion i).bytes.read o) := by
  have hlayout : s'.layout = s.layout := congrArg Window.layout hwindow
  unfold withRegion
  rw [hbacking, hlayout]
  cases s.backing with
  | dense touched => exact h
  | lazy owned commits =>
      by_cases ho : owned.contains i = true
      · simp only [ho, if_true]
        exact h
      · simp only [ho, Bool.false_eq_true, if_false, Memory.read_zeroFill]
        split
        · exact f.map_untainted.symm
        · exact h

end Store

namespace TagState

variable (f : TagMap)

/-- Map the tag of every register and of all memory. -/
def mapTags (s : TagState) : TagState where
  store := { s.store with bytes := s.store.bytes.map f }
  thread := { s.thread with bank := { s.thread.bank with tags := s.thread.bank.tags.map f } }

/-- The tags of `s'` are the mapped tags of `s`. Nothing else differs: memory is owned alike, and
the records of what was written are the same. -/
structure Image (s s' : TagState) : Prop where
  window : s'.store.window = s.store.window
  mapping : s'.store.mapping = s.store.mapping
  backing : s'.store.backing = s.store.backing
  mem : ∀ a, s'.store.tagOf a = (s.store.tagOf a).map f
  tracksPc : s'.thread.bank.tracksPc = s.thread.bank.tracksPc
  reg : ∀ r, s'.thread.tagOf r = (s.thread.tagOf r).map f
  address : s'.thread.address = s.thread.address
  slots : s'.thread.slots = s.thread.slots

theorem image_mapTags (s : TagState) : Image f s (s.mapTags f) where
  window := rfl
  mapping := rfl
  backing := rfl
  mem := by
    intro a
    rw [Store.tagOf_eq, Store.tagOf_eq]
    have hread := s.store.bytes.read_map f (s.store.layout.granule a)
    by_cases ha : s.store.layout.covers a = true
    · rw [if_pos ha]
      exact (if_pos ha).trans (congrArg Except.ok hread)
    · rw [if_neg ha]
      exact if_neg ha
  tracksPc := rfl
  reg := by
    intro r
    have hposition : (s.mapTags f).thread.bank.position r = s.thread.bank.position r :=
      RegisterBank.position_congr rfl r
    unfold ThreadContext.tagOf RegisterBank.tagOf
    rw [hposition]
    cases s.thread.bank.position r with
    | error e => rfl
    | ok i => exact congrArg Except.ok (Vector.getElem_map f i.isLt)
  address := rfl
  slots := rfl

namespace Image

variable {f} {s s' : TagState}

theorem layout (h : Image f s s') : s'.store.layout = s.store.layout :=
  congrArg Window.layout h.window

theorem read (h : Image f s s') {a : Address} (ha : s.store.layout.covers a = true) :
    s'.store.bytes.read (s.store.layout.granule a) =
      f (s.store.bytes.read (s.store.layout.granule a)) := by
  have hmem := h.mem a
  rw [Store.tagOf_eq, Store.tagOf_eq, h.layout, ha] at hmem
  exact Except.ok.inj hmem

theorem refusal? (h : Image f s s') (a : Address) :
    s'.store.refusal? a = s.store.refusal? a := by
  unfold Store.refusal? Store.refusesRegion
  rw [h.layout, h.backing, h.mapping]

theorem pageKind (h : Image f s s') (shadow : Address) :
    s'.store.pageKind shadow = s.store.pageKind shadow := by
  unfold Store.pageKind Store.regionKind
  rw [h.window, h.layout, h.backing]

theorem under (h : Image f s s') (m : Mapping) : Image f (s.under m) (s'.under m) :=
  ⟨h.window, rfl, h.backing, h.mem, h.tracksPc, h.reg, h.address, h.slots⟩

theorem withTag (h : Image f s s') (a : Address) (t : Tag) :
    Image f { s with store := s.store.withTag a t }
      { s' with store := s'.store.withTag a (f t) } where
  window := by
    rw [Store.withTag_window, Store.withTag_window]
    exact h.window
  mapping := by
    rw [Store.withTag_mapping, Store.withTag_mapping]
    exact h.mapping
  backing := by
    dsimp only [Store.withTag]
    rw [Store.writeAt_backing, Store.writeAt_backing, h.layout]
    exact Store.backing_withRegion h.backing _
  mem := by
    intro b
    rw [Store.tagOf_eq, Store.tagOf_eq, Store.withTag_layout, Store.withTag_layout, h.layout]
    by_cases hb : s.store.layout.covers b = true
    · rw [if_pos hb, if_pos hb, Store.withTag, Store.withTag, Store.read_writeAt,
        Store.read_writeAt, h.layout]
      -- The byte is the written one, or one that at most a commit has cleared.
      split
      · rfl
      · exact congrArg Except.ok
          (Store.map_read_withRegion f h.window h.backing (h.read hb) _)
    · rw [if_neg hb, if_neg hb]
      rfl
  tracksPc := h.tracksPc
  reg := h.reg
  address := h.address
  slots := h.slots

theorem withRegTag (h : Image f s s') {r : Reg} {t : Tag} {c c' : ThreadContext}
    (hc : s.thread.setTag r t = .ok c) (hc' : s'.thread.setTag r (f t) = .ok c') :
    Image f { s with thread := c } { s' with thread := c' } := by
  obtain ⟨haddress, hslots, hbank⟩ := ThreadContext.of_setTag_eq_ok hc
  obtain ⟨haddress', hslots', hbank'⟩ := ThreadContext.of_setTag_eq_ok hc'
  have hpc := RegisterBank.tracksPc_of_setTag hbank
  have hpc' := RegisterBank.tracksPc_of_setTag hbank'
  refine ⟨h.window, h.mapping, h.backing, h.mem, ?_, ?_, ?_, ?_⟩
  · exact hpc'.trans (h.tracksPc.trans hpc.symm)
  · intro q
    dsimp only
    rw [ThreadContext.tagOf_of_setTag hc' q, ThreadContext.tagOf_of_setTag hc q, h.reg]
    split <;> rfl
  · exact haddress'.trans (h.address.trans haddress.symm)
  · exact hslots'.trans (h.slots.trans hslots.symm)

theorem matching (f : TagMap) : Matching (fun t t' => t' = f t) (Image f) where
  untainted := f.map_untainted.symm
  union := by
    rintro t _ u _ rfl rfl
    exact (f.map_union t u).symm
  tagOf := fun _ _ h a => .of_map (h.mem a)
  refusal? := fun _ _ h => h.refusal?
  tracksPc := fun _ _ h => h.tracksPc
  regTag := fun _ _ h r => .of_map (h.reg r)
  withTag := by
    rintro s s' h a t _ rfl -
    exact h.withTag a t
  withRegTag := by
    rintro s s' h r t _ c c' rfl hc hc'
    exact h.withRegTag hc hc'

end Image

end TagState

/-! ## Runs -/

theorem Occurrence.simulates_direct {V : Tag → Tag → Prop} {R : TagState → TagState → Prop}
    (hR : TagState.Matching V R) (hunder : ∀ s s' m, R s s' → R (s.under m) (s'.under m))
    (x : Occurrence) :
    Simulates (fun p q : Analyzer × TagState => q.1 = p.1 ∧ R p.2 q.2) Any Eq x.direct
      x.direct := by
  unfold direct
  -- Analysis does not see the tags: both sides get the same plan.
  refine simulates_bind (simulates_focus (simulates_refl (Analyzer.analyze x.instr))
    (fun _ _ h => h.1.symm) (fun _ _ _ _ h ha => ⟨ha.symm, h.2⟩)
    (fun _ _ he => congrArg DirectError.gap he)) ?_
  rintro plan _ rfl
  exact simulates_focus (plan.simulates_apply hR x.regs) (fun _ _ h => hunder _ _ _ h.2)
    (fun _ _ _ _ h htags => ⟨h.1, htags⟩) (fun _ _ he => congrArg DirectError.apply he)

theorem Occurrence.simulates_run {V : Tag → Tag → Prop} {R : TagState → TagState → Prop}
    (hR : TagState.Matching V R) (hunder : ∀ s s' m, R s s' → R (s.under m) (s'.under m))
    (place : Nat) (xs : List Occurrence) :
    Simulates (fun p q : Analyzer × TagState => q.1 = p.1 ∧ R p.2 q.2) Any Eq
      (each direct place xs) (each direct place xs) :=
  (simulates_each (fun x _ => x.simulates_direct hR hunder) place).imp
    fun _ _ he => Prod.ext he.1 he.2

/-- No memory and no register is tainted. -/
def TagState.Clean (s : TagState) : Prop :=
  (∀ a t, s.store.tagOf a = .ok t → t = untainted) ∧
    ∀ r t, s.thread.tagOf r = .ok t → t = untainted

/-- A state is clean if forgetting all marks does not change it. -/
theorem TagState.clean_iff {s : TagState} : s.Clean ↔ Image (.mask untainted) s s := by
  have hforget : ∀ {ε : Type} (x : Except ε Tag),
      x = x.map (TagMap.mask untainted) ↔ ∀ t, x = .ok t → t = untainted := by
    intro ε x
    cases x with
    | error e => exact ⟨fun _ => nofun, fun _ => rfl⟩
    | ok u =>
        rw [Except.map, TagMap.mask_untainted]
        constructor
        · rintro h t ht
          cases ht
          exact Except.ok.inj h
        · exact fun h => congrArg Except.ok (h u rfl)
  constructor
  · rintro ⟨hmem, hreg⟩
    exact ⟨rfl, rfl, rfl, fun a => (hforget _).mpr (hmem a), rfl, fun r => (hforget _).mpr (hreg r),
      rfl, rfl⟩
  · intro h
    exact ⟨fun a => (hforget _).mp (h.mem a), fun r => (hforget _).mp (h.reg r)⟩

/-- Mapping the tags before a run is mapping them after it, and the run ends at the same instruction
and in the same way. A run that finds no marks leaves none. -/
theorem direct_commutes_with_maps (f : TagMap) (a : Analyzer) (s : TagState)
    (xs : List Occurrence) :
    let run := outcome (each Occurrence.direct 0 xs) (a, s)
    let mapped := outcome (each Occurrence.direct 0 xs) (a, s.mapTags f)
    mapped.1 = run.1 ∧
      mapped.2.1 = run.2.1 ∧
      (∀ r, mapped.2.2.thread.tagOf r = (run.2.2.thread.tagOf r).map f) ∧
      (∀ address, mapped.2.2.store.tagOf address = (run.2.2.store.tagOf address).map f) ∧
      (∀ shadow, mapped.2.2.store.pageKind shadow = run.2.2.store.pageKind shadow) ∧
      mapped.2.2.store.backing = run.2.2.store.backing ∧
      mapped.2.2.thread.slots = run.2.2.thread.slots ∧
      (s.Clean → run.2.2.Clean) := by
  have hrun : ∀ (g : TagMap) (s' : TagState), TagState.Image g s s' →
      let run := outcome (each Occurrence.direct 0 xs) (a, s)
      let other := outcome (each Occurrence.direct 0 xs) (a, s')
      other.1 = run.1 ∧ other.2.1 = run.2.1 ∧ TagState.Image g run.2.2 other.2.2 := by
    intro g s' h
    have hsame := Occurrence.simulates_run (TagState.Image.matching g)
      (fun _ _ m h => h.under m) 0 xs
    exact hsame.outcome_eq ⟨rfl, h⟩
  obtain ⟨hend, hanalyzer, himage⟩ := hrun f _ (TagState.image_mapTags f s)
  refine ⟨hend, hanalyzer, himage.reg, himage.mem, himage.pageKind, himage.backing, himage.slots,
    ?_⟩
  intro hclean
  exact TagState.clean_iff.mpr (hrun _ s (TagState.clean_iff.mp hclean)).2.2

theorem TagState.clean_new (backend : Backend) (address : Address) (tracksPc : Bool) :
    TagState.Clean ⟨.small backend, .new address tracksPc⟩ := by
  have hcreate : Store.create backend .small .granting = .ok (.small backend) := by
    cases backend <;> rfl
  have hstore : (Store.small backend).Within .clean := Store.within_create hcreate
  have hthread : (ThreadContext.new address tracksPc).Within .clean :=
    ThreadContext.within_new address tracksPc
  exact ⟨hstore, hthread⟩

theorem direct_commutes_with_maps_store_load :
    (outcome (each Occurrence.direct 0 Occurrence.storeLoad)
        (.new .strict true, TagState.mapTags (.mask 4) ⟨.small .lazy, .tainted⟩)).2.2.thread.tagOf
          ⟨2⟩ = .ok 4 ∧
      (outcome (each Occurrence.direct 0 Occurrence.storeLoad)
        (.new .strict true, ⟨.small .lazy, .new 0x10000000 true⟩)).2.2.Clean := by
  constructor
  · have h := direct_commutes_with_maps (.mask 4) (.new .strict true) ⟨.small .lazy, .tainted⟩
      Occurrence.storeLoad
    exact (h.2.2.1 ⟨2⟩).trans rfl
  · have h := direct_commutes_with_maps (.mask 4) (.new .strict true)
      ⟨.small .lazy, .new 0x10000000 true⟩ Occurrence.storeLoad
    exact h.2.2.2.2.2.2.2 (TagState.clean_new _ _ _)

end TaintFlow
