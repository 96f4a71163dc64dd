import TaintFlow.Proofs.Inline.Failures
import TaintFlow.Proofs.Plan.Footprint

/-!
# Inline code among other threads

Threads that share a store give each other's regions memory, so a store of a tag may fault in one
order of events and not in another. A thread does not notice, as long as nobody else writes the
granules that it accesses: each of its steps does to the shared store what it would do to a store of
the thread's own. Lowered code accesses the granules of its words and no others, at every step.
-/

namespace TaintFlow

open TaintFlow.Action

namespace Store

/-- What becomes of a store when a tag is written at `o`, whether its region had memory before or
was given it for that. -/
structure Takes (s : Store) (o : Nat) (t : Tag) (s' : Store) : Prop where
  changed : Changed s s'
  mapping : s'.mapping = s.mapping
  read : ∀ k, s'.bytes.read k = if o = k then t else s.bytes.read k
  regionKind : ∀ i, s'.regionKind i = if s.layout.regionOf o = i then .owned else s.regionKind i

variable {s : Store}

theorem takes_withTag (hs : s.Consistent) {a : Address} (hc : s.layout.covers a = true) (t : Tag) :
    Takes s (s.layout.granule a) t (s.withTag a t) where
  changed := changed_withTag hs hc t
  mapping := s.withTag_mapping a t
  read := read_withTag hs a t
  regionKind := by
    intro i
    rw [withTag, writeAt_regionKind, regionKind_withRegion hs (Layout.regionAt_lt_regions hc)]
    rfl

theorem takes_writeAt {o : Nat} (ho : o < s.layout.shadowLength)
    (howned : s.regionKind (s.layout.regionOf o) = .owned) (t : Tag) :
    Takes s o t (s.writeAt o t) where
  changed := .single (.byte ho howned t)
  mapping := rfl
  read := s.read_writeAt o t
  regionKind := by
    intro i
    rw [writeAt_regionKind]
    split
    · rename_i hi
      rw [← hi, howned]
    · rfl

theorem takes_withInlineTag (hs : s.Consistent) {a : Address} (hc : s.layout.covers a = true)
    (t : Tag) : Takes s (s.layout.granule a) t (s.withInlineTag a t) := by
  cases hk : s.regionKind (s.layout.regionAt a) with
  | owned =>
      rw [withInlineTag_owned hk]
      exact takes_writeAt (Layout.granule_lt_shadowLength hc) hk t
  | shared =>
      rw [withInlineTag_shared hk]
      exact takes_withTag hs hc t

end Store

/-- Granules whose tags a thread reads or writes, and those whose tags it writes. -/
structure Footprint where
  accesses : Nat → Prop
  writes : Nat → Prop

namespace TagState

/-- A thread with a store of its own, and the same thread with a store that it shares. They look
alike wherever the thread looks, and the shared store may have more private regions. -/
structure Sees (F : Footprint) (s s' : TagState) : Prop where
  consistent : s.store.Consistent
  shared_consistent : s'.store.Consistent
  granted : ∀ i, s.store.mapping.refuses (.commit i) = false
  shared_granted : ∀ i, s'.store.mapping.refuses (.commit i) = false
  window : s'.store.window = s.store.window
  thread : s'.thread = s.thread
  read : ∀ o, F.accesses o → s'.store.bytes.read o = s.store.bytes.read o
  owned : ∀ i, s.store.regionKind i = .owned → s'.store.regionKind i = .owned

/-- From `s₀` and `s₀'` the thread has come to `s` and `s'`, and in the shared store it has touched
nothing outside the footprint. -/
structure Follows (F : Footprint) (s₀ s₀' s s' : TagState) : Prop where
  sees : Sees F s s'
  alone : Steady s₀ s
  shared : Steady s₀' s'
  kept : ∀ o, ¬ F.writes o → s'.store.bytes.read o = s₀'.store.bytes.read o
  gained : ∀ i, s'.store.regionKind i = .owned →
    s₀'.store.regionKind i = .owned ∨ ∃ o, F.writes o ∧ s₀'.store.layout.regionOf o = i

variable {F : Footprint} {s₀ s₀' s s' : TagState}

theorem Sees.layout (h : Sees F s s') : s'.store.layout = s.store.layout :=
  congrArg Window.layout h.window

theorem Sees.takes (h : Sees F s s') {o : Nat} {t : Tag} {store store' : Store}
    (ht : s.store.Takes o t store) (ht' : s'.store.Takes o t store') :
    Sees F { s with store } { s' with store := store' } where
  consistent := ht.changed.consistent h.consistent
  shared_consistent := ht'.changed.consistent h.shared_consistent
  granted := fun i => by
    rw [ht.mapping]
    exact h.granted i
  shared_granted := fun i => by
    rw [ht'.mapping]
    exact h.shared_granted i
  window := ht'.changed.window.trans (h.window.trans ht.changed.window.symm)
  thread := h.thread
  read := fun k hk => by
    rw [ht.read, ht'.read, h.read k hk]
  owned := by
    intro i hi
    rw [ht.regionKind] at hi
    rw [ht'.regionKind, h.layout]
    split at hi
    · rename_i hregion
      rw [if_pos hregion]
    · rename_i hregion
      rw [if_neg hregion]
      exact h.owned i hi

theorem Follows.refl (h : Sees F s s') : Follows F s s' s s' :=
  ⟨h, ⟨⟨.refl, rfl, rfl⟩, rfl⟩, ⟨⟨.refl, rfl, rfl⟩, rfl⟩, fun _ _ => rfl, fun _ hi => Or.inl hi⟩

theorem Follows.takes (h : Follows F s₀ s₀' s s') {o : Nat} (ho : F.writes o) {t : Tag}
    {store store' : Store} (ht : s.store.Takes o t store) (ht' : s'.store.Takes o t store') :
    Follows F s₀ s₀' { s with store } { s' with store := store' } where
  sees := h.sees.takes ht ht'
  alone := ⟨h.alone.since.withStore ht.changed, ht.mapping.trans h.alone.mapping⟩
  shared := ⟨h.shared.since.withStore ht'.changed, ht'.mapping.trans h.shared.mapping⟩
  kept := by
    intro k hk
    have hne : o ≠ k := fun heq => hk (heq ▸ ho)
    rw [ht'.read, if_neg hne]
    exact h.kept k hk
  gained := by
    intro i hi
    rw [ht'.regionKind] at hi
    split at hi
    · rename_i hregion
      exact Or.inr ⟨o, ho, by rw [← h.shared.since.store.layout]; exact hregion⟩
    · exact h.gained i hi

theorem Follows.withThread (h : Follows F s₀ s₀' s s') {thread : ThreadContext}
    (haddress : thread.address = s.thread.address)
    (hpc : thread.bank.tracksPc = s.thread.bank.tracksPc) :
    Follows F s₀ s₀' { s with thread } { s' with thread } := by
  have haddress' : thread.address = s'.thread.address := h.sees.thread ▸ haddress
  have hpc' : thread.bank.tracksPc = s'.thread.bank.tracksPc := h.sees.thread ▸ hpc
  obtain ⟨hsees, ⟨halone, hmapping⟩, ⟨hshared, hmapping'⟩, hkept, hgained⟩ := h
  exact ⟨⟨hsees.consistent, hsees.shared_consistent, hsees.granted, hsees.shared_granted,
      hsees.window, rfl, hsees.read, hsees.owned⟩,
    ⟨⟨halone.store, haddress.trans halone.address, hpc.trans halone.tracksPc⟩, hmapping⟩,
    ⟨⟨hshared.store, haddress'.trans hshared.address, hpc'.trans hshared.tracksPc⟩, hmapping'⟩,
    hkept, hgained⟩

/-! ## Block transfers -/

theorem follows_memTag {a : Address} (ha : F.accesses (s₀.store.layout.granule a)) :
    Simulates (Follows F s₀ s₀') Eq Eq (memTag a) (memTag a) := by
  intro s s' h
  rw [← h.alone.since.store.layout] at ha
  unfold memTag
  rw [Store.tagOf_eq, Store.tagOf_eq, h.sees.layout, h.sees.read _ ha]
  cases s.store.layout.covers a <;> exact ⟨rfl, h⟩

theorem follows_setMemTag {a : Address} (ha : F.writes (s₀.store.layout.granule a)) (t : Tag) :
    Simulates (Follows F s₀ s₀') Any Eq (setMemTag a t) (setMemTag a t) := by
  intro s s' h
  rw [← h.alone.since.store.layout] at ha
  unfold setMemTag focus
  rw [Store.setTag_eq, Store.setTag_eq,
    Store.refusal?_willing fun i => Store.refusesRegion_granted (h.sees.granted i),
    Store.refusal?_willing fun i => Store.refusesRegion_granted (h.sees.shared_granted i),
    h.sees.layout]
  cases hc : s.store.layout.covers a with
  | false => exact ⟨rfl, h⟩
  | true =>
      have ht' := Store.takes_withTag h.sees.shared_consistent (h.sees.layout ▸ hc) t
      rw [h.sees.layout] at ht'
      exact ⟨trivial, h.takes ha (Store.takes_withTag h.sees.consistent hc t) ht'⟩

theorem follows_regTag (r : Reg) :
    Simulates (Follows F s₀ s₀') Eq Eq (regTag r) (regTag r) := by
  intro s s' h
  unfold regTag
  rw [h.sees.thread]
  cases s.thread.tagOf r <;> exact ⟨rfl, h⟩

theorem follows_regTagOrClean (r : Reg) :
    Simulates (Follows F s₀ s₀') Eq Eq (regTagOrClean r) (regTagOrClean r) := by
  intro s s' h
  unfold regTagOrClean
  rw [get_bind, get_bind, h.sees.thread]
  by_cases hr : s.thread.tracks r = true
  · rw [if_pos hr]
    exact follows_regTag r s s' h
  · rw [if_neg hr]
    exact ⟨rfl, h⟩

theorem follows_setRegTag (r : Reg) (t : Tag) :
    Simulates (Follows F s₀ s₀') Any Eq (setRegTag r t) (setRegTag r t) := by
  intro s s' h
  unfold setRegTag
  rw [h.sees.thread]
  cases ht : s.thread.setTag r t with
  | error e => exact ⟨rfl, h⟩
  | ok thread =>
      obtain ⟨haddress, -, hbank⟩ := ThreadContext.of_setTag_eq_ok ht
      exact ⟨trivial, h.withThread haddress (RegisterBank.tracksPc_of_setTag hbank)⟩

end TagState

open TagState

/-- The words that are accessed and those that are stored to lie in the footprint and in the
window. -/
structure Footprint.Holds (F : Footprint) (l : Layout) (accessed stored : Address → Prop) :
    Prop where
  covers : ∀ a, accessed a → l.covers a = true
  accesses : ∀ a, accessed a → F.accesses (l.granule a)
  writes : ∀ a, stored a → F.writes (l.granule a)

theorem BlockTransfer.follows_apply {F : Footprint} {s₀ s₀' : TagState} {f : RegFile}
    (b : BlockTransfer) (hb : F.Holds s₀.store.layout
      (b.Accesses (fun r => s₀.thread.tracks r = true) f) (· ∈ b.stored f)) :
    Simulates (Follows F s₀ s₀') Any Eq (b.apply f) (b.apply f) := by
  apply simulates_forM
  rintro ⟨place, r⟩ hx
  unfold transferOne
  cases hkind : b.kind with
  | loadIncrement =>
      intro s s' h
      have htracks : s.thread.tracks r = s₀.thread.tracks r := h.alone.since.tracks r
      dsimp only
      rw [get_bind, get_bind, h.sees.thread]
      by_cases hr : s.thread.tracks r = true
      · have ha : F.accesses (s₀.store.layout.granule (b.wordAddress (f.value b.base) place)) :=
          hb.accesses _ ⟨_, hx, fun _ => htracks.symm.trans hr, rfl⟩
        rw [if_pos hr]
        refine simulates_bind (follows_memTag ha) ?_ s s' h
        rintro t _ rfl
        exact follows_setRegTag r t
      · rw [if_neg hr]
        exact ⟨trivial, h⟩
  | storeDecrement =>
      have ha : F.writes (s₀.store.layout.granule (b.wordAddress (f.value b.base) place)) := by
        apply hb.writes
        rw [stored, hkind]
        exact List.mem_map.mpr ⟨_, hx, rfl⟩
      apply simulates_bind (follows_regTagOrClean r)
      rintro t _ rfl
      exact follows_setMemTag ha t

/-! ## Single instructions -/

theorem ExecState.hold_held (st : ExecState) (s : Scratch) : st.hold s (st.held s) = st := by
  unfold hold held
  split
  · rw [Vector.set_getElem_self]
  · rfl

/-- A store to the saved address sets its tag. Where it faults, the recovery points the register to
where it pointed before. -/
theorem Exec.storeThrough_takes (st : ExecState) {s : Scratch} (hs : s.Valid) (t : Tag)
    (hc : st.tags.store.Consistent)
    (hgranted : ∀ i, st.tags.store.mapping.refuses (.commit i) = false)
    (hcovers : st.tags.store.layout.covers (st.tags.thread.slot .appAddress) = true)
    (hheld : st.held s = st.tags.store.savedShadow st.tags.thread) :
    ∃ store, storeThrough s t st = .ok () (st.withStore store) ∧
      st.tags.store.Takes (st.tags.store.layout.granule (st.tags.thread.slot .appAddress)) t
        store := by
  have hin := Layout.granule_lt_shadowLength hcovers
  have hkind : st.tags.store.pageKind (st.held s) =
      some (st.tags.store.regionKind (st.tags.store.layout.regionAt
        (st.tags.thread.slot .appAddress))) := by
    rw [hheld]
    exact Store.pageKind_addressOf _ hin
  cases hr : st.tags.store.regionKind
      (st.tags.store.layout.regionAt (st.tags.thread.slot .appAddress)) with
  | owned =>
      rw [hr] at hkind
      rw [storeThrough_owned hs t hkind, hheld, Store.savedShadow, Store.pokeByte_addressOf _ hin]
      exact ⟨_, rfl, Store.takes_writeAt hin hr t⟩
  | shared =>
      -- The handler gives the region memory and the store is retried.
      have hrefusal : st.tags.store.refusal? (st.tags.thread.slot .appAddress) = none := by
        rw [Store.refusal?_willing fun i => Store.refusesRegion_granted (hgranted i)]
        exact if_pos hcovers
      have howned : (st.tags.store.recovered st.tags.thread).pageKind (st.held s) =
          some .owned := by
        rw [hheld]
        exact Store.pageKind_withRegion hc hcovers
      rw [hr] at hkind
      rw [storeThrough_shared hs t hc hkind, hrefusal]
      dsimp only
      rw [if_pos howned, ← hheld]
      exact ⟨_, congrArg _ (ExecState.hold_held (st.withStore _) s),
        Store.takes_withTag hc hcovers t⟩

section Bytes

variable {F : Footprint} {st : ExecState} {shared : TagState} {a : Address} {t : Tag}
  {q : ExecState}

theorem Exec.follows_byteAt (h : Sees F st.tags shared)
    (ha : ∀ o, st.tags.store.window.locate? a = some o → F.accesses o)
    (hrun : byteAt a st = .ok t q) :
    q = st ∧ byteAt a (st.withTags shared) = .ok t (st.withTags shared) := by
  have hbyte : shared.store.byteAt? a = st.tags.store.byteAt? a := by
    unfold Store.byteAt?
    rw [h.window]
    cases hlocate : st.tags.store.window.locate? a with
    | none => rfl
    | some o => exact congrArg some (h.read o (ha o hlocate))
  rw [byteAt_eq] at hrun ⊢
  rw [ExecState.tags_withTags, hbyte, h.thread]
  cases hs : st.tags.store.byteAt? a with
  | some u =>
      rw [hs] at hrun
      cases hrun
      exact ⟨rfl, rfl⟩
  | none =>
      rw [hs] at hrun
      dsimp only at hrun ⊢
      cases hreg : st.tags.thread.regAt? a with
      | none =>
          rw [hreg] at hrun
          cases hrun
      | some r =>
          rw [hreg] at hrun
          dsimp only at hrun ⊢
          cases htag : st.tags.thread.tagOf r with
          | error e =>
              rw [htag] at hrun
              cases hrun
          | ok u =>
              rw [htag] at hrun
              cases hrun
              exact ⟨rfl, rfl⟩

theorem Exec.follows_setBankByte (h : Sees F st.tags shared)
    (hrun : setBankByte a t st = .ok () q) :
    ∃ shared', setBankByte a t (st.withTags shared) = .ok () (q.withTags shared') ∧
      Follows F st.tags shared q.tags shared' := by
  rw [setBankByte_eq] at hrun
  rw [setBankByte_eq, ExecState.tags_withTags, h.thread]
  cases hreg : st.tags.thread.regAt? a with
  | none =>
      rw [hreg] at hrun
      cases hrun
  | some r =>
      rw [hreg] at hrun
      dsimp only at hrun ⊢
      cases hset : st.tags.thread.setTag r t with
      | error e =>
          rw [hset] at hrun
          cases hrun
      | ok thread =>
          rw [hset] at hrun
          cases hrun
          obtain ⟨haddress, -, hbank⟩ := ThreadContext.of_setTag_eq_ok hset
          exact ⟨_, rfl,
            (Follows.refl h).withThread haddress (RegisterBank.tracksPc_of_setTag hbank)⟩

theorem Exec.follows_storeThrough (h : Sees F st.tags shared) {s : Scratch} (hs : s.Valid)
    (hlocate : ∀ o, st.tags.store.window.locate? (st.held s) = some o →
      st.tags.store.layout.covers (st.tags.thread.slot .appAddress) = true ∧
        st.held s = st.tags.store.savedShadow st.tags.thread ∧
        F.writes (st.tags.store.layout.granule (st.tags.thread.slot .appAddress)))
    (hrun : storeThrough s t st = .ok () q) :
    ∃ shared', storeThrough s t (st.withTags shared) = .ok () (q.withTags shared') ∧
      Follows F st.tags shared q.tags shared' := by
  cases ho : st.tags.store.window.locate? (st.held s) with
  | none =>
      -- Outside the shadow there is only the bank of the thread.
      have hkind : st.tags.store.pageKind (st.held s) = none := by
        rw [Store.pageKind, ho, Option.map_none]
      have hkind' : (st.withTags shared).tags.store.pageKind
          ((st.withTags shared).held s) = none := by
        change shared.store.pageKind (st.held s) = none
        rw [Store.pageKind, h.window, ho, Option.map_none]
      rw [storeThrough_outside hs t hkind] at hrun
      rw [storeThrough_outside hs t hkind']
      exact follows_setBankByte h hrun
  | some o =>
      obtain ⟨hcovers, hheld, hwrites⟩ := hlocate o ho
      obtain ⟨store, hstore, htakes⟩ :=
        storeThrough_takes st hs t h.consistent h.granted hcovers hheld
      have hcovers' : shared.store.layout.covers (shared.thread.slot .appAddress) = true := by
        rw [h.layout, h.thread]
        exact hcovers
      have hheld' : (st.withTags shared).held s = shared.store.savedShadow shared.thread := by
        rw [Store.savedShadow, h.window, h.layout, h.thread]
        exact hheld
      obtain ⟨store', hstore', htakes'⟩ := storeThrough_takes (st.withTags shared) hs t
        h.shared_consistent h.shared_granted hcovers' hheld'
      rw [hstore] at hrun
      cases hrun
      rw [ExecState.tags_withTags, h.layout, h.thread] at htakes'
      exact ⟨{ shared with store := store' }, hstore',
        (Follows.refl h).takes hwrites htakes htakes'⟩

end Bytes

namespace InlineInstr

/-- The instruction names registers of the executor, and of the shadow it accesses only what the
footprint allows, in the state that it is executed in. It stores to the saved address. -/
def KeepsTo (F : Footprint) (f : RegFile) : InlineInstr → ExecState → Prop
  | .loadAddress dst _, _ => dst.Valid
  | .saveSlot src _, _ => src.Valid
  | .appToShadow reg, _ => reg.Valid
  | .regToShadow dst _, _ => dst.Valid
  | .loadByte dst addr, st => dst.Valid ∧ addr.Valid ∧
      ∀ o, st.tags.store.window.locate? (st.held addr) = some o → F.accesses o
  | .storeByte addr src, st => addr.Valid ∧ src.Valid ∧
      ∀ o, st.tags.store.window.locate? (st.held addr) = some o →
        st.tags.store.layout.covers (st.tags.thread.slot .appAddress) = true ∧
          st.held addr = st.tags.store.savedShadow st.tags.thread ∧
          F.writes (st.tags.store.layout.granule (st.tags.thread.slot .appAddress))
  | .moveImm dst _, _ => dst.Valid
  | .or dst src, _ => dst.Valid ∧ src.Valid
  | .cleanCall b, st => F.Holds st.tags.store.layout
      (b.Accesses (fun r => st.tags.thread.tracks r = true) f) (· ∈ b.stored f)

variable {F : Footprint} {f : RegFile} {st : ExecState} {shared : TagState}

/-- The instruction does the same in the shared store. -/
theorem follows_exec {i : InlineInstr} (h : Sees F st.tags shared) (hi : i.KeepsTo F f st)
    {q : ExecState} (hrun : i.exec f st = .ok () q) :
    ∃ shared', i.exec f (st.withTags shared) = .ok () (q.withTags shared') ∧
      Follows F st.tags shared q.tags shared' := by
  -- Most instructions change nothing but a scratch register.
  have hhold : ∀ {r : Scratch} {a : Address}, st.hold r a = q →
      i.exec f (st.withTags shared) = .ok () ((st.withTags shared).hold r a) →
      ∃ shared', i.exec f (st.withTags shared) = .ok () (q.withTags shared') ∧
        Follows F st.tags shared q.tags shared' := by
    rintro r a rfl hshared
    refine ⟨shared, ?_, ?_⟩
    · rw [hshared, ExecState.withTags_hold]
    · rw [ExecState.tags_hold]
      exact .refl h
  cases i with
  | loadAddress dst mem =>
      rw [exec_loadAddress f st hi] at hrun
      cases hrun
      exact hhold rfl (exec_loadAddress f _ hi mem)
  | saveSlot src slot =>
      rw [exec_saveSlot f st hi] at hrun
      cases hrun
      refine ⟨{ shared with thread := st.tags.thread.setSlot slot (st.held src) }, ?_,
        (Follows.refl h).withThread rfl rfl⟩
      rw [exec_saveSlot f _ hi, ← h.thread]
      rfl
  | appToShadow reg =>
      have hsame : (st.withTags shared).tags.store.translate ((st.withTags shared).held reg) =
          st.tags.store.translate (st.held reg) := by
        change shared.store.translate (st.held reg) = _
        rw [Store.translate_eq, Store.translate_eq, h.layout, h.window]
      have hshared := exec_appToShadow f (st.withTags shared) hi
      rw [exec_appToShadow f st hi] at hrun
      rw [hsame] at hshared
      cases ht : st.tags.store.translate (st.held reg) with
      | error e =>
          rw [ht] at hrun
          cases hrun
      | ok shadow =>
          rw [ht] at hrun hshared
          cases hrun
          exact hhold rfl hshared
  | regToShadow dst reg =>
      have hshared := exec_regToShadow f (st.withTags shared) hi reg
      rw [exec_regToShadow f st hi] at hrun
      rw [ExecState.tags_withTags, h.thread] at hshared
      cases ht : st.tags.thread.tagAddress reg with
      | error e =>
          rw [ht] at hrun
          cases hrun
      | ok a =>
          rw [ht] at hrun hshared
          cases hrun
          exact hhold rfl hshared
  | loadByte dst addr =>
      obtain ⟨hd, ha, hlocate⟩ := hi
      have hshared := exec_loadByte f (st.withTags shared) hd ha
      rw [exec_loadByte f st hd ha] at hrun
      cases hbyte : Exec.byteAt (st.held addr) st with
      | error e st' =>
          rw [hbyte] at hrun
          cases hrun
      | ok t st' =>
          obtain ⟨rfl, hbyte'⟩ := Exec.follows_byteAt h hlocate hbyte
          replace hbyte' : Exec.byteAt ((st'.withTags shared).held addr) (st'.withTags shared) =
              .ok t (st'.withTags shared) := hbyte'
          rw [hbyte] at hrun
          rw [hbyte'] at hshared
          cases hrun
          exact hhold rfl hshared
  | storeByte addr src =>
      obtain ⟨ha, hs, hlocate⟩ := hi
      rw [exec_storeByte f st addr hs] at hrun
      rw [exec_storeByte f (st.withTags shared) addr hs]
      exact Exec.follows_storeThrough h ha hlocate hrun
  | moveImm dst imm =>
      rw [exec_moveImm f st hi] at hrun
      cases hrun
      exact hhold rfl (exec_moveImm f _ hi imm)
  | or dst src =>
      rw [exec_or f st hi.1 hi.2] at hrun
      cases hrun
      exact hhold rfl (exec_or f _ hi.1 hi.2)
  | cleanCall b =>
      have hsame := b.follows_apply (f := f) hi st.tags shared (.refl h)
      rw [exec_cleanCall] at hrun
      rw [exec_cleanCall, ExecState.tags_withTags]
      cases ha : b.apply f st.tags with
      | error e s =>
          rw [ha] at hrun
          cases hrun
      | ok _ s =>
          rw [ha] at hrun hsame
          cases hrun
          cases hb : b.apply f shared with
          | error e s' =>
              rw [hb] at hsame
              exact hsame.elim
          | ok _ s' =>
              rw [hb] at hsame
              exact ⟨s', rfl, hsame.2⟩

/-! ## Lowered code -/

/-- Every instruction that the code gets to keeps to the footprint. -/
abbrev Confined (F : Footprint) (f : RegFile) : List InlineInstr → ExecState → Prop :=
  Along (KeepsTo F f) (exec f)

variable {q : ExecState}

theorem since_run (hs : st.tags.store.Consistent) {code : List InlineInstr}
    (hrun : run f code st = .ok () q) : st.tags.Since q.tags := by
  have hkeep : Preserves (Exec.Since st.tags) (Exec.Failure st.tags) (run f code) :=
    preserves_forM fun i _ => i.preserves_exec hs f
  replace hkeep := hkeep st ⟨.refl, rfl, rfl⟩
  rw [hrun] at hkeep
  exact hkeep

theorem confined_append (hs : st.tags.Sound) {xs ys : List InlineInstr}
    (hxs : Confined F f xs st)
    (hys : ∀ q, run f xs st = .ok () q → q.tags.Sound → Confined F f ys q) :
    Confined F f (xs ++ ys) st :=
  along_append hxs fun q hrun => hys q hrun (hs.since (since_run hs.consistent hrun))

theorem of_exec_regToShadow (hs : st.tags.Sound) {dst : Scratch} (hd : dst.Valid) {r : Reg}
    (hrun : (regToShadow dst r).exec f st = .ok () q) :
    q.tags.store.window.locate? (q.held dst) = none := by
  rw [exec_regToShadow f st hd] at hrun
  cases hr : r.isGeneral with
  | false =>
      rw [ThreadContext.tagAddress_other hr] at hrun
      cases hrun
  | true =>
      rw [ThreadContext.tagAddress_general hr] at hrun
      cases hrun
      rw [ExecState.tags_hold, ExecState.held_hold_self _ hd]
      exact hs.outside _ (of_decide_eq_true hr)

section Registers

variable (hs : st.tags.Sound) {a b : Scratch} (ha : a.Valid) (hb : b.Valid)
include hs ha

theorem confined_tagOf (r : Reg) : Confined F f (InlineInstr.tagOf a r) st := by
  refine ⟨ha, fun q hq => ⟨⟨ha, ha, fun o ho => ?_⟩, fun _ _ => trivial⟩⟩
  rw [of_exec_regToShadow hs ha hq] at ho
  cases ho

include hb

theorem confined_setTag (r : Reg) : Confined F f (InlineInstr.setTag a r b) st := by
  refine ⟨ha, fun q hq => ⟨⟨ha, hb, fun o ho => ?_⟩, fun _ _ => trivial⟩⟩
  rw [of_exec_regToShadow hs ha hq] at ho
  cases ho

theorem confined_collect (srcs : List Reg) :
    Confined F f (srcs.flatMap fun r => InlineInstr.tagOf b r ++ [.or a b]) st := by
  induction srcs generalizing st with
  | nil => trivial
  | cons r rest ih =>
      rw [List.flatMap_cons, List.append_assoc]
      refine confined_append hs (confined_tagOf hs hb r) fun q _ hq => ?_
      refine confined_append hq ⟨⟨ha, hb⟩, fun _ _ => trivial⟩ fun q' _ hq' => ih hq'

end Registers

theorem confined_shadowOf {dst : Scratch} (hd : dst.Valid) (mem : MemRef) :
    Confined F f (shadowOf dst mem) st :=
  ⟨hd, fun _ _ => ⟨hd, fun _ _ => ⟨hd, fun _ _ => trivial⟩⟩⟩

section Moves

variable (hs : st.tags.Sound) {a b : Scratch} (ha : a.Valid) (hb : b.Valid)
include hs ha hb

theorem confined_load (dst : Reg) {mem : MemRef}
    (hc : st.tags.store.layout.covers (mem.address f) = true)
    (hF : F.accesses (st.tags.store.layout.granule (mem.address f))) :
    Confined F f (loadWord dst mem a b) st := by
  have hfetch : Confined F f (shadowOf a mem ++ [.loadByte a a]) st := by
    refine confined_append hs (confined_shadowOf ha mem) fun q hq _ => ?_
    rw [shadowOf_covered ha hc] at hq
    cases hq
    refine ⟨⟨ha, ha, fun o ho => ?_⟩, fun _ _ => trivial⟩
    rw [ExecState.tags_hold, ExecState.held_hold_self _ ha] at ho
    cases (Window.locate?_addressOf _ (Layout.granule_lt_shadowLength hc)).symm.trans ho
    exact hF
  exact confined_append hs hfetch fun q _ hq => confined_setTag hq hb ha dst

theorem confined_store (src : Option Reg) {mem : MemRef}
    (hc : st.tags.store.layout.covers (mem.address f) = true)
    (hF : F.writes (st.tags.store.layout.granule (mem.address f))) :
    Confined F f (storeWord src mem a b) st := by
  have hfetch : Confined F f (fetchSource b src) st := by
    cases src with
    | none => exact ⟨hb, fun _ _ => trivial⟩
    | some r => exact confined_tagOf hs hb r
  rw [storeWord_eq]
  refine confined_append hs hfetch fun q hq hsound => ?_
  have hsame : q.tags.store.layout = st.tags.store.layout :=
    (since_run hs.consistent hq).store.layout
  rw [← hsame] at hc hF
  refine confined_append hsound (confined_shadowOf ha mem) fun q' hq' _ => ?_
  rw [shadowOf_covered ha hc] at hq'
  cases hq'
  -- The slot holds the address of this store.
  have hslot : (q.tags.withSaved (mem.address f)).thread.slot .appAddress = mem.address f :=
    (ThreadContext.slot_setSlot _ _ _ _).trans (if_pos rfl)
  refine ⟨⟨ha, hb, fun o _ => ?_⟩, fun _ _ => trivial⟩
  rw [ExecState.tags_hold, ExecState.held_hold_self _ ha, ExecState.tags_withSaved, hslot]
  refine ⟨hc, ?_, hF⟩
  rw [Store.savedShadow, hslot]
  rfl

theorem confined_union (dst : Reg) (srcs : List Reg) :
    Confined F f (unionTags dst srcs a b) st := by
  have hcollect : Confined F f
      ([.moveImm a untainted] ++ srcs.flatMap fun r => InlineInstr.tagOf b r ++ [.or a b]) st :=
    confined_append hs ⟨ha, fun _ _ => trivial⟩ fun q _ hq => confined_collect hq ha hb srcs
  exact confined_append hs hcollect fun q _ hq => confined_setTag hq hb ha dst

theorem confined_code {m : Move} (hm : F.Holds st.tags.store.layout
    (m.Accesses MemRef.codeAddress (fun r => st.tags.thread.tracks r = true) f)
    (m.Stores MemRef.codeAddress f)) : Confined F f (m.code a b) st := by
  cases m with
  | load dst mem i => exact confined_load hs ha hb dst (hm.covers _ rfl) (hm.accesses _ rfl)
  | store src mem i => exact confined_store hs ha hb src (hm.covers _ rfl) (hm.writes _ rfl)
  | copy dst src =>
      exact confined_append hs (confined_tagOf hs ha src) fun q _ hq => confined_setTag hq hb ha dst
  | clear dst =>
      have hmove : Confined F f [.moveImm a untainted] st := ⟨ha, fun _ _ => trivial⟩
      exact confined_append hs hmove fun q _ hq => confined_setTag hq hb ha dst
  | union dst srcs => exact confined_union hs ha hb dst srcs
  | block t => exact ⟨hm, fun _ _ => trivial⟩

end Moves

theorem confined_lowered {moves : List Move} {code : List InlineInstr} (h : Lowered moves code)
    (hs : st.tags.Sound) (hmoves : ∀ m ∈ moves, F.Holds st.tags.store.layout
      (m.Accesses MemRef.codeAddress (fun r => st.tags.thread.tracks r = true) f)
      (m.Stores MemRef.codeAddress f)) : Confined F f code st := by
  induction h generalizing st with
  | nil => trivial
  | @cons m moves code a b ha hb hab _ ih =>
      refine confined_append hs (confined_code hs ha hb (hmoves m List.mem_cons_self)) ?_
      intro q hq hsound
      have hsince := since_run hs.consistent hq
      -- What the remaining moves access has not changed meanwhile.
      refine ih hsound fun m' hm' => ?_
      simp only [hsince.store.layout, hsince.tracks]
      exact hmoves m' (List.mem_cons_of_mem m hm')

end InlineInstr

end TaintFlow
