import TaintFlow.Proofs.Plan.Footprint

/-!
# Writing register tags

The tags of tracked registers are read and written without failure. What rules leave in the bank is
then a sequence of writes, of which the last one to a register counts.
-/

namespace TaintFlow

open TaintFlow.Action

theorem RegisterBank.position_untracked {b : RegisterBank} {r : Reg}
    (h : r.isTracked b.tracksPc = false) : ∃ e, b.position r = .error e := by
  cases hp : b.position r with
  | error e => exact ⟨e, rfl⟩
  | ok i =>
      have htracked : r.isTracked b.tracksPc = true := (position_eq_ok_iff.mp hp).2
      rw [h] at htracked
      contradiction

namespace ThreadContext

/-- The tag that is read of a register, zero where none is maintained. -/
def tagOrClean (c : ThreadContext) (r : Reg) : Tag :=
  match c.tagOf r with
  | .ok t => t
  | .error _ => untainted

/-- The context after the tag of a register was written, if one is maintained. -/
def withTag (c : ThreadContext) (r : Reg) (t : Tag) : ThreadContext :=
  match c.setTag r t with
  | .ok d => d
  | .error _ => c

variable {c : ThreadContext} {r : Reg}

theorem setTag_tracked (h : r.isTracked c.bank.tracksPc = true) (t : Tag) :
    c.setTag r t = .ok (c.withTag r t) := by
  obtain ⟨i, hi⟩ := RegisterBank.position_tracked h
  have hset : ∃ d, c.setTag r t = .ok d := by
    rw [setTag, RegisterBank.setTag, hi]
    exact ⟨_, rfl⟩
  obtain ⟨d, hd⟩ := hset
  rw [withTag, hd]

theorem tagOf_of_position {i : Fin Reg.count} (hi : c.bank.position r = .ok i) :
    c.tagOf r = .ok (c.bank.tags.get i) := by
  rw [tagOf, RegisterBank.tagOf, hi]
  rfl

theorem tagOf_tracked (h : r.isTracked c.bank.tracksPc = true) :
    c.tagOf r = .ok (c.tagOrClean r) := by
  obtain ⟨i, hi⟩ := RegisterBank.position_tracked h
  rw [tagOrClean, tagOf_of_position hi]

theorem tagOrClean_untracked (h : r.isTracked c.bank.tracksPc = false) :
    c.tagOrClean r = untainted := by
  obtain ⟨e, he⟩ := RegisterBank.position_untracked h
  rw [tagOrClean, tagOf, RegisterBank.tagOf, he]
  rfl

theorem withTag_untracked (h : r.isTracked c.bank.tracksPc = false) (t : Tag) :
    c.withTag r t = c := by
  obtain ⟨e, he⟩ := RegisterBank.position_untracked h
  rw [withTag, setTag, RegisterBank.setTag, he]
  rfl

theorem tagOrClean_congr {d : ThreadContext} {q : Reg} (h : c.tagOf r = d.tagOf q) :
    c.tagOrClean r = d.tagOrClean q := by
  rw [tagOrClean, h, tagOrClean]

theorem tagByte_eq_some_iff (h : r.isTracked c.bank.tracksPc = true) {t : Tag} :
    c.tagByte r = some t ↔ c.tagOf r = .ok t := by
  obtain ⟨i, hi⟩ := RegisterBank.position_tracked h
  have hid : r.id.toNat = i.val := (RegisterBank.position_eq_ok_iff.mp hi).1
  rw [tagOf_of_position hi, tagByte, hid, Vector.getElem?_eq_getElem i.isLt, Option.some_inj,
    Except.ok.injEq]
  rfl

/-- Writing the tag of a register leaves everything else as it is. -/
theorem withTag_frame (c : ThreadContext) (r : Reg) (t : Tag) :
    (c.withTag r t).address = c.address ∧ (c.withTag r t).slots = c.slots ∧
      (c.withTag r t).bank.tracksPc = c.bank.tracksPc := by
  unfold withTag
  cases h : c.setTag r t with
  | error e => exact ⟨rfl, rfl, rfl⟩
  | ok d =>
      obtain ⟨haddress, hslots, hbank⟩ := of_setTag_eq_ok h
      exact ⟨haddress, hslots, RegisterBank.tracksPc_of_setTag hbank⟩

theorem tagOf_withTag (h : r.isTracked c.bank.tracksPc = true) (t : Tag) (q : Reg) :
    (c.withTag r t).tagOf q = if r = q then .ok t else c.tagOf q :=
  tagOf_of_setTag (setTag_tracked h t) q

theorem tagByte_withTag (h : r.isTracked c.bank.tracksPc = true) (t : Tag) (q : Reg) :
    (c.withTag r t).tagByte q = if r = q then some t else c.tagByte q := by
  by_cases hq : r = q
  · have htracked : q.isTracked (c.withTag r t).bank.tracksPc = true := by
      rwa [(withTag_frame c r t).2.2, ← hq]
    rw [if_pos hq, tagByte_eq_some_iff htracked, tagOf_withTag h, if_pos hq]
  · rw [if_neg hq]
    exact (tagByte_of_setTag (setTag_tracked h t)).2 q (Ne.symm hq)

end ThreadContext

/-- The tag that is read of a covered address. -/
def Store.tagAt (s : Store) (a : Address) : Tag :=
  s.bytes.read (s.layout.granule a)

theorem Store.tagOf_covered {s : Store} {a : Address} (h : s.layout.covers a = true) :
    s.tagOf a = .ok (s.tagAt a) := by
  rw [tagOf_eq, if_pos h, tagAt]

namespace TagState

/-- The state after the tag of a register was written. -/
def withRegTag (s : TagState) (r : Reg) (t : Tag) : TagState :=
  { s with thread := s.thread.withTag r t }

@[simp] theorem tracksPc_withRegTag (s : TagState) (r : Reg) (t : Tag) :
    (s.withRegTag r t).thread.bank.tracksPc = s.thread.bank.tracksPc :=
  (s.thread.withTag_frame r t).2.2

/-- The state after the tags of some registers were written in turn. -/
def withRegTags (s : TagState) (writes : List (Reg × Tag)) : TagState :=
  writes.foldl (fun s w => s.withRegTag w.1 w.2) s

variable {s : TagState} {r : Reg}

theorem setRegTag_tracked (h : r.isTracked s.thread.bank.tracksPc = true) (t : Tag) :
    setRegTag r t s = .ok () (s.withRegTag r t) := by
  rw [setRegTag, ThreadContext.setTag_tracked h t]
  rfl

theorem regTag_tracked (h : r.isTracked s.thread.bank.tracksPc = true) :
    regTag r s = .ok (s.thread.tagOrClean r) s := by
  rw [regTag, ThreadContext.tagOf_tracked h]

theorem regTagOrClean_eq (r : Reg) (s : TagState) :
    regTagOrClean r s = .ok (s.thread.tagOrClean r) s := by
  unfold regTagOrClean
  rw [get_bind]
  cases hr : s.thread.tracks r with
  | true => exact regTag_tracked hr
  | false =>
      rw [ThreadContext.tagOrClean_untracked hr]
      rfl

theorem memTag_of_ok {a : Address} {t : Tag} (h : s.store.tagOf a = .ok t) :
    memTag a s = .ok t s := by
  rw [memTag, h]

theorem memTag_covered {a : Address} (h : s.store.layout.covers a = true) :
    memTag a s = .ok (s.store.tagAt a) s :=
  memTag_of_ok (Store.tagOf_covered h)

theorem memTag_of_error {a : Address} {e : ShadowError} (h : s.store.tagOf a = .error e) :
    memTag a s = .error (.shadow e) s := by
  rw [memTag, h]

theorem memTag_uncovered {a : Address} (h : s.store.layout.covers a = false) :
    memTag a s = .error (.shadow (.invalidAddress a)) s := by
  refine memTag_of_error ?_
  rw [Store.tagOf_eq, h]
  rfl

/-- Writing register tags touches neither the store nor anything else of the thread. -/
theorem withRegTags_frame (writes : List (Reg × Tag)) :
    (s.withRegTags writes).store = s.store ∧
      (s.withRegTags writes).thread.address = s.thread.address ∧
      (s.withRegTags writes).thread.slots = s.thread.slots ∧
      (s.withRegTags writes).thread.bank.tracksPc = s.thread.bank.tracksPc := by
  induction writes generalizing s with
  | nil => exact ⟨rfl, rfl, rfl, rfl⟩
  | cons w writes ih =>
      obtain ⟨haddress, hslots, htracksPc⟩ := ThreadContext.withTag_frame s.thread w.1 w.2
      obtain ⟨hstore', haddress', hslots', htracksPc'⟩ := ih (s := s.withRegTag w.1 w.2)
      exact ⟨hstore', haddress'.trans haddress, hslots'.trans hslots, htracksPc'.trans htracksPc⟩

theorem tagByte_withRegTags_of_notMem {writes : List (Reg × Tag)}
    (hwrites : ∀ w ∈ writes, w.1.isTracked s.thread.bank.tracksPc = true)
    (hr : r ∉ writes.map Prod.fst) :
    (s.withRegTags writes).thread.tagByte r = s.thread.tagByte r := by
  induction writes generalizing s with
  | nil => rfl
  | cons w writes ih =>
      obtain ⟨hw, hwrites⟩ := List.forall_mem_cons.mp hwrites
      obtain ⟨hne, hr⟩ := not_or.mp (mt List.mem_cons.mpr hr)
      have hrest := ih (s := s.withRegTag w.1 w.2) (by rwa [tracksPc_withRegTag]) hr
      exact hrest.trans ((ThreadContext.tagByte_withTag hw w.2 r).trans (if_neg (Ne.symm hne)))

/-- The last write to a register counts. -/
theorem tagOf_withRegTags {earlier later : List (Reg × Tag)} {t : Tag}
    (hwrites : ∀ w ∈ earlier ++ (r, t) :: later, w.1.isTracked s.thread.bank.tracksPc = true)
    (hr : r ∉ later.map Prod.fst) :
    (s.withRegTags (earlier ++ (r, t) :: later)).thread.tagOf r = .ok t := by
  have hkept := fun writes : List (Reg × Tag) => (withRegTags_frame (s := s) writes).2.2.2
  obtain ⟨-, hlater⟩ := List.forall_mem_append.mp hwrites
  obtain ⟨htracked, hlater⟩ := List.forall_mem_cons.mp hlater
  have hsplit : s.withRegTags (earlier ++ (r, t) :: later) =
      ((s.withRegTags earlier).withRegTag r t).withRegTags later := List.foldl_append
  -- The writes behind it leave the register alone.
  rw [← ThreadContext.tagByte_eq_some_iff (by rwa [hkept]), hsplit,
    tagByte_withRegTags_of_notMem (by rwa [tracksPc_withRegTag, hkept]) hr]
  exact (ThreadContext.tagByte_withTag (by rwa [hkept]) t r).trans (if_pos rfl)

/-- Loading the tags of covered words into tracked registers is a sequence of writes. -/
theorem forM_loads (loads : List (Reg × Address))
    (hregs : ∀ x ∈ loads, x.1.isTracked s.thread.bank.tracksPc = true)
    (hwords : ∀ x ∈ loads, s.store.layout.covers x.2 = true) :
    (loads.forM fun x => memTag x.2 >>= setRegTag x.1) s =
      .ok () (s.withRegTags (loads.map fun x => (x.1, s.store.tagAt x.2))) := by
  induction loads generalizing s with
  | nil => rfl
  | cons x loads ih =>
      obtain ⟨hreg, hregs⟩ := List.forall_mem_cons.mp hregs
      obtain ⟨hword, hwords⟩ := List.forall_mem_cons.mp hwords
      have hone : (memTag x.2 >>= setRegTag x.1) s =
          .ok () (s.withRegTag x.1 (s.store.tagAt x.2)) := by
        rw [bind_ok (memTag_covered hword), setRegTag_tracked hreg]
      -- The store is the same for the rest, so every word is read as it was at first.
      have hrest := ih (s := s.withRegTag x.1 (s.store.tagAt x.2))
        (by rwa [tracksPc_withRegTag]) hwords
      exact (bind_ok hone).trans hrest

end TagState

/-- Clearing leaves a register alone that is not tracked. -/
theorem Rule.apply_clear? (s : TagState) (f : RegFile) (dst : Reg) :
    (clear? s.thread.bank.tracksPc dst).toList.forM (Rule.apply f) s =
      .ok () (s.withRegTag dst untainted) := by
  unfold clear?
  cases hdst : dst.isTracked s.thread.bank.tracksPc with
  | true =>
      have hclear := TagState.setRegTag_tracked hdst untainted
      exact (congrFun (forM_singleton _ _) s).trans hclear
  | false =>
      rw [TagState.withRegTag, ThreadContext.withTag_untracked hdst]
      rfl

/-- Copying a register's tag reads zero where none is maintained. -/
theorem Rule.apply_copy? {s : TagState} {dst : Reg}
    (hdst : dst.isTracked s.thread.bank.tracksPc = true) (f : RegFile) (src : Reg) :
    (copy? s.thread.bank.tracksPc dst src).toList.forM (Rule.apply f) s =
      .ok () (s.withRegTag dst (s.thread.tagOrClean src)) := by
  unfold copy?
  rw [hdst]
  cases hsrc : src.isTracked s.thread.bank.tracksPc with
  | true =>
      change ([Rule.copy dst src].forM (Rule.apply f)) s = _
      rw [forM_singleton]
      change (TagState.regTag src >>= TagState.setRegTag dst) s = _
      rw [bind_ok (TagState.regTag_tracked hsrc), TagState.setRegTag_tracked hdst]
  | false =>
      have hclear := Rule.apply_clear? s f dst
      rw [clear?, if_pos hdst] at hclear
      rw [ThreadContext.tagOrClean_untracked hsrc]
      exact hclear

end TaintFlow
