import TaintFlow.Proofs.Plan.Registers

/-!
# Block transfers, place by place

A block transfer goes through its list one place after the other. Every place has its word, and the
places of registers that take no part are passed over. The transfer stops at the first place whose
word cannot be accessed, and what the places in front of it have done is what it leaves.
-/

namespace TaintFlow

open TaintFlow.Action

/-- A block transfer of a list of registers. If the base is written back it follows the memory
operand, and it follows the list. -/
def Instr.block (pc : Address) (kind : BlockKind) (base : Reg) (list : List Reg)
    (writeback : Bool) : Instr :=
  let back := if writeback then [base] else []
  let memOperands := .mem (.beside base 0) :: back.map .reg
  let listOperands := (list ++ back).map .reg
  match kind with
  | .loadIncrement => ⟨pc, .ldm, listOperands, memOperands⟩
  | .storeDecrement => ⟨pc, .stmdb, memOperands, listOperands⟩

theorem mapM_reg?_reg (rs : List Reg) : rs.mapM (Operand.reg? ∘ Operand.reg) = some rs := by
  induction rs with
  | nil => rfl
  | cons r rs ih =>
      rw [List.mapM_cons, ih]
      rfl

namespace BlockTransfer

/-- The transfer of a list of registers. -/
def ofList (kind : BlockKind) (base : Reg) (list : List Reg) (writeback : Bool) : BlockTransfer :=
  ⟨kind, base, list, if writeback then some base else none⟩

/-- Exactly the base that was appended is taken off the list, whatever the list ends in. -/
theorem ofInstr?_block (pc : Address) (kind : BlockKind) (base : Reg) (list : List Reg)
    (writeback : Bool) :
    ofInstr? (.block pc kind base list writeback) = some (ofList kind base list writeback) := by
  cases kind <;> cases writeback <;>
    simp [ofInstr?, ofList, Instr.block, mapM_reg?_reg, Operand.mem?, Operand.reg?, MemRef.beside]

/-- The register at a place of the list takes part. -/
def Moves (t : BlockTransfer) (place : Nat) (r : Reg) : Prop :=
  t.regs[place]? = some r ∧ some r ≠ t.writeback

/-- What the transfer does at one place of the list. -/
def atPlace (t : BlockTransfer) (base : Address) (place : Nat) (r : Reg) :
    Action TagState ApplyError Unit :=
  if some r != t.writeback then t.transferOne base place r else pure ()

theorem apply_eq_places (t : BlockTransfer) (f : RegFile) :
    t.apply f = t.regs.zipIdx.forM fun x => t.atPlace (f.value t.base) x.2 x.1 := by
  rw [apply, transferred, forM_filter, forM_map]
  rfl

section Place

variable {t : BlockTransfer} {k : Nat} {r : Reg}

theorem moves_iff (hr : t.regs[k]? = some r) (hmoves : some r ≠ t.writeback) (q : Reg) :
    t.Moves k q ↔ q = r := by
  constructor
  · intro hq
    exact Option.some.inj (hq.1.symm.trans hr)
  · rintro rfl
    exact ⟨hr, hmoves⟩

theorem not_moves (hr : t.regs[k]? = some r) (hback : some r = t.writeback) (q : Reg) :
    ¬ t.Moves k q := by
  intro hq
  cases hq.1.symm.trans hr
  exact hq.2 hback

theorem atPlace_moves (hmoves : some r ≠ t.writeback) (base : Address) :
    t.atPlace base k r = t.transferOne base k r :=
  if_pos (bne_iff_ne.mpr hmoves)

theorem atPlace_writeback (hback : some r = t.writeback) (base : Address) (s : TagState) :
    t.atPlace base k r s = .ok () s := by
  rw [atPlace, if_neg fun h => bne_iff_ne.mp h hback]
  rfl

end Place

end BlockTransfer

/-! ## Loads -/

namespace TagState

/-- The places of a load in front of `stop` have been gone through: a register that takes part has
the tag of its last word among them. -/
structure LoadedTo (moves : Nat → Reg → Prop) (word : Nat → Address) (before : TagState)
    (stop : Nat) (s : TagState) : Prop where
  covered : ∀ place r, place < stop → moves place r →
    r.isTracked before.thread.bank.tracksPc = true → before.store.layout.covers (word place) = true
  loaded : ∀ place r, place < stop → moves place r →
    r.isTracked before.thread.bank.tracksPc = true →
    (∀ later, place < later → later < stop → ¬ moves later r) →
    ∃ t, before.store.tagOf (word place) = .ok t ∧ s.thread.tagOf r = .ok t
  others : ∀ r, (∀ place, place < stop → ¬ moves place r) ∨
    r.isTracked before.thread.bank.tracksPc = false →
    s.thread.tagByte r = before.thread.tagByte r
  store : s.store = before.store
  address : s.thread.address = before.thread.address
  slots : s.thread.slots = before.thread.slots
  tracksPc : s.thread.bank.tracksPc = before.thread.bank.tracksPc

namespace LoadedTo

variable {moves : Nat → Reg → Prop} {word : Nat → Address} {before s : TagState} {k : Nat}

theorem start (moves : Nat → Reg → Prop) (word : Nat → Address) (s : TagState) :
    LoadedTo moves word s 0 s :=
  ⟨fun _ _ h => absurd h (Nat.not_lt_zero _), fun _ _ h => absurd h (Nat.not_lt_zero _),
    fun _ _ => rfl, rfl, rfl, rfl, rfl⟩

/-- A place whose register takes no part or is not tracked is passed over. -/
theorem pass (h : LoadedTo moves word before k s)
    (hnone : ∀ r, moves k r → r.isTracked before.thread.bank.tracksPc = false) :
    LoadedTo moves word before (k + 1) s := by
  -- The new place is none that counts.
  have hearlier : ∀ {place r}, place < k + 1 → moves place r →
      r.isTracked before.thread.bank.tracksPc = true → place < k := by
    intro place r hplace hr htracked
    refine Nat.lt_of_le_of_ne (Nat.le_of_lt_succ hplace) ?_
    rintro rfl
    exact Bool.false_ne_true ((hnone r hr).symm.trans htracked)
  exact
    { h with
      covered := fun place r hplace hr htracked =>
        h.covered place r (hearlier hplace hr htracked) hr htracked
      loaded := fun place r hplace hr htracked hlast =>
        h.loaded place r (hearlier hplace hr htracked) hr htracked fun later hlater hk =>
          hlast later hlater (Nat.lt_succ_of_lt hk)
      others := fun r hr => h.others r (hr.imp_left fun hnot place hplace =>
        hnot place (Nat.lt_succ_of_lt hplace)) }

/-- The register of a place takes the tag of the word of the place. -/
theorem load (h : LoadedTo moves word before k s) {r : Reg} (hr : ∀ q, moves k q ↔ q = r)
    (htracked : r.isTracked before.thread.bank.tracksPc = true)
    (hc : before.store.layout.covers (word k) = true) :
    LoadedTo moves word before (k + 1) (s.withRegTag r (before.store.tagAt (word k))) := by
  have htracked' : r.isTracked s.thread.bank.tracksPc = true := by rwa [h.tracksPc]
  obtain ⟨haddress, hslots, htracksPc⟩ := s.thread.withTag_frame r (before.store.tagAt (word k))
  refine ⟨fun place q hplace hq hqt => ?_, fun place q hplace hq hqt hlast => ?_, fun q hq => ?_,
    h.store, haddress.trans h.address, hslots.trans h.slots, htracksPc.trans h.tracksPc⟩
  · rcases Nat.lt_succ_iff_lt_or_eq.mp hplace with hplace | rfl
    · exact h.covered place q hplace hq hqt
    · exact hc
  · have htag := ThreadContext.tagOf_withTag htracked' (before.store.tagAt (word k)) q
    rcases Nat.lt_succ_iff_lt_or_eq.mp hplace with hplace | rfl
    · -- The register of this place is another one, or the place would not be its last.
      have hne : r ≠ q := by
        rintro rfl
        exact hlast k hplace (Nat.lt_succ_self k) ((hr r).mpr rfl)
      obtain ⟨t, hword, ht⟩ := h.loaded place q hplace hq hqt fun later hlater hk =>
        hlast later hlater (Nat.lt_succ_of_lt hk)
      exact ⟨t, hword, htag.trans ((if_neg hne).trans ht)⟩
    · exact ⟨_, Store.tagOf_covered hc, htag.trans (if_pos ((hr q).mp hq).symm)⟩
  · have hne : r ≠ q := by
      rintro rfl
      rcases hq with hq | hq
      · exact hq k (Nat.lt_succ_self k) ((hr r).mpr rfl)
      · exact Bool.false_ne_true (hq.symm.trans htracked)
    refine (ThreadContext.tagByte_withTag htracked' _ q).trans ((if_neg hne).trans ?_)
    exact h.others q (hq.imp_left fun hnot place hplace => hnot place (Nat.lt_succ_of_lt hplace))

end LoadedTo
end TagState

namespace BlockTransfer

variable {t : BlockTransfer} {k : Nat} {r : Reg}

/-- The place of a load that fails: a tracked register that takes part has a word outside the
window. -/
def LoadFails (t : BlockTransfer) (base : Address) (before : TagState) (k : Nat) (e : ApplyError) :
    Prop :=
  ∃ r, t.Moves k r ∧ r.isTracked before.thread.bank.tracksPc = true ∧
    before.store.layout.covers (t.wordAddress base k) = false ∧
    e = .shadow (.invalidAddress (t.wordAddress base k))

theorem advances_load (base : Address) (before : TagState) (hkind : t.kind = .loadIncrement)
    (hr : t.regs[k]? = some r) :
    Advances (TagState.LoadedTo t.Moves (t.wordAddress base) before) (t.LoadFails base before) k
      (t.atPlace base k r) := by
  intro s h
  by_cases hback : some r = t.writeback
  · rw [atPlace_writeback hback]
    exact h.pass fun q hq => absurd hq (not_moves hr hback q)
  · have hmoves := moves_iff hr hback
    rw [atPlace_moves hback, transferOne, hkind]
    dsimp only
    rw [get_bind]
    cases htracked : r.isTracked before.thread.bank.tracksPc with
    | false =>
        have htracks : s.thread.tracks r = false := (congrArg r.isTracked h.tracksPc).trans htracked
        rw [htracks]
        exact h.pass fun q hq => (hmoves q).mp hq ▸ htracked
    | true =>
        have htracks : s.thread.tracks r = true := (congrArg r.isTracked h.tracksPc).trans htracked
        rw [if_pos htracks]
        cases hc : before.store.layout.covers (t.wordAddress base k) with
        | false =>
            rw [bind_error (TagState.memTag_uncovered (by rwa [h.store]))]
            exact ⟨h, r, (hmoves r).mpr rfl, htracked, hc, rfl⟩
        | true =>
            rw [bind_ok (TagState.memTag_covered (by rwa [h.store])),
              TagState.setRegTag_tracked htracks, h.store]
            exact h.load hmoves htracked hc

/-- A load goes through its places as far as their words are covered. -/
theorem loadedTo_apply (f : RegFile) (before : TagState) (hkind : t.kind = .loadIncrement) :
    let base := f.value t.base
    let run := outcome (t.apply f) before
    ∃ stop ≤ t.regs.length, TagState.LoadedTo t.Moves (t.wordAddress base) before stop run.2 ∧
      (run.1 = .ok () ∧ stop = t.regs.length ∨
        ∃ e, run.1 = .error e ∧ t.LoadFails base before stop e) := by
  intro base run
  have hrun := forM_zipIdx_stops (I := TagState.LoadedTo t.Moves (t.wordAddress base) before)
    (F := t.LoadFails base before) (f := t.atPlace base)
    (fun k r hr => advances_load base before hkind hr) (.start t.Moves (t.wordAddress base) before)
  rw [← t.apply_eq_places f] at hrun
  exact hrun

end BlockTransfer

/-! ## Stores -/

namespace TagState

/-- The places of a store in front of `stop` have been gone through: a granule has the tag of the
last register that goes into it, and the regions of the words are writable. -/
structure StoredTo (moves : Nat → Reg → Prop) (word : Nat → Address) (before : TagState)
    (stop : Nat) (s : TagState) : Prop where
  granted : ∀ place r, place < stop → moves place r →
    before.store.refusal? (word place) = none
  stored : ∀ place r a, place < stop → moves place r →
    before.store.layout.Shares (word place) a →
    (∀ later q, place < later → later < stop → moves later q →
      ¬ before.store.layout.Shares (word later) a) →
    s.store.tagOf a = .ok (before.thread.tagOrClean r)
  others : ∀ a, (∀ place r, place < stop → moves place r →
      ¬ before.store.layout.Shares (word place) a) →
    s.store.tagOf a = before.store.tagOf a
  regions : ∀ i, s.store.regionKind i = .owned ↔ before.store.regionKind i = .owned ∨
    ∃ place r, place < stop ∧ moves place r ∧ before.store.layout.regionAt (word place) = i
  window : s.store.window = before.store.window
  mapping : s.store.mapping = before.store.mapping
  thread : s.thread = before.thread

namespace StoredTo

variable {moves : Nat → Reg → Prop} {word : Nat → Address} {before s : TagState} {k : Nat}

theorem start (moves : Nat → Reg → Prop) (word : Nat → Address) (s : TagState) :
    StoredTo moves word s 0 s where
  granted := fun _ _ h => absurd h (Nat.not_lt_zero _)
  stored := fun _ _ _ h => absurd h (Nat.not_lt_zero _)
  others := fun _ _ => rfl
  regions := fun _ => ⟨Or.inl, fun h => h.elim id fun ⟨_, _, h, _⟩ => absurd h (Nat.not_lt_zero _)⟩
  window := rfl
  mapping := rfl
  thread := rfl

/-- A commit that a place in front was granted is not asked for again, and the others are answered
as before. -/
theorem refusal? (h : StoredTo moves word before k s) (a : Address) :
    s.store.refusal? a = before.store.refusal? a := by
  have hlayout : s.store.layout = before.store.layout := congrArg Window.layout h.window
  refine Store.refusal?_congr hlayout (Bool.eq_iff_iff.mpr ?_)
  rw [Store.refusesRegion_iff, Store.refusesRegion_iff, h.mapping]
  refine and_congr_left fun hrefuses => ?_
  have hregion := h.regions (before.store.layout.regionAt a)
  cases hbefore : before.store.regionKind (before.store.layout.regionAt a) with
  | owned => rw [hregion.mpr (Or.inl hbefore)]
  | shared =>
      cases hnow : s.store.regionKind (before.store.layout.regionAt a) with
      | shared => exact Iff.rfl
      | owned =>
          rcases hregion.mp hnow with howned | ⟨place, r, hplace, hr, hsame⟩
          · rw [hbefore] at howned
            contradiction
          · -- The commit was granted to a place in front, so it is not one that is refused.
            have hnot := Store.not_refused_of_refusal? (h.granted place r hplace hr)
            rw [hsame] at hnot
            exact absurd ⟨hbefore, hrefuses⟩ hnot

theorem pass (h : StoredTo moves word before k s) (hnone : ∀ r, ¬ moves k r) :
    StoredTo moves word before (k + 1) s := by
  have hearlier : ∀ {place r}, place < k + 1 → moves place r → place < k := by
    intro place r hplace hr
    refine Nat.lt_of_le_of_ne (Nat.le_of_lt_succ hplace) ?_
    rintro rfl
    exact hnone r hr
  exact
    { h with
      granted := fun place r hplace hr => h.granted place r (hearlier hplace hr) hr
      stored := fun place r a hplace hr ha hlast =>
        h.stored place r a (hearlier hplace hr) hr ha fun later q hlater hk =>
          hlast later q hlater (Nat.lt_succ_of_lt hk)
      others := fun a ha => h.others a fun place r hplace =>
        ha place r (Nat.lt_succ_of_lt hplace)
      regions := fun i => (h.regions i).trans <| or_congr_right
        ⟨fun ⟨place, r, hplace, hr⟩ => ⟨place, r, Nat.lt_succ_of_lt hplace, hr⟩,
          fun ⟨place, r, hplace, hr, hi⟩ => ⟨place, r, hearlier hplace hr, hr, hi⟩⟩ }

/-- The word of a place takes the tag of the register of the place. -/
theorem store (h : StoredTo moves word before k s) (hs : s.store.Consistent) {r : Reg}
    (hr : ∀ q, moves k q ↔ q = r) (hgranted : before.store.refusal? (word k) = none) :
    StoredTo moves word before (k + 1)
      { s with store := s.store.withTag (word k) (before.thread.tagOrClean r) } := by
  have hlayout : s.store.layout = before.store.layout := congrArg Window.layout h.window
  have hc : before.store.layout.covers (word k) = true := Store.covers_of_refusal? hgranted
  have htag := Store.tagOf_withTag hs (word k) (before.thread.tagOrClean r)
  rw [hlayout] at htag
  refine ⟨fun place q hplace hq => ?_, fun place q a hplace hq ha hlast => ?_,
    fun a ha => ?_, fun i => ?_, (Store.withTag_window _ _ _).trans h.window,
    (Store.withTag_mapping _ _ _).trans h.mapping, h.thread⟩
  · rcases Nat.lt_succ_iff_lt_or_eq.mp hplace with hplace | rfl
    · exact h.granted place q hplace hq
    · exact hgranted
  · refine (htag a).trans ?_
    rcases Nat.lt_succ_iff_lt_or_eq.mp hplace with hplace | rfl
    · -- The word of this place lies in another granule, or it would count for this one.
      have hother := hlast k r hplace (Nat.lt_succ_self k) ((hr r).mpr rfl)
      rw [if_neg fun hshare => hother ⟨hc, hshare⟩]
      exact h.stored place q a hplace hq ha fun later q' hlater hk =>
        hlast later q' hlater (Nat.lt_succ_of_lt hk)
    · rw [if_pos ha.2, (hr q).mp hq]
  · have hother := ha k r (Nat.lt_succ_self k) ((hr r).mpr rfl)
    refine (htag a).trans ((if_neg fun hshare => hother ⟨hc, hshare⟩).trans ?_)
    exact h.others a fun place q hplace => ha place q (Nat.lt_succ_of_lt hplace)
  · have hkind := Store.regionKind_withTag hs (hlayout.symm ▸ hc) (before.thread.tagOrClean r) i
    rw [hlayout] at hkind
    dsimp only
    rw [hkind]
    by_cases hi : before.store.layout.regionAt (word k) = i
    · rw [if_pos hi]
      exact ⟨fun _ => Or.inr ⟨k, r, Nat.lt_succ_self k, (hr r).mpr rfl, hi⟩, fun _ => rfl⟩
    · rw [if_neg hi, h.regions i]
      refine or_congr_right ⟨fun ⟨place, q, hplace, hq⟩ => ⟨place, q, Nat.lt_succ_of_lt hplace, hq⟩,
        fun ⟨place, q, hplace, hq, hsame⟩ => ⟨place, q, ?_, hq, hsame⟩⟩
      refine Nat.lt_of_le_of_ne (Nat.le_of_lt_succ hplace) ?_
      rintro rfl
      exact hi hsame

/-- Writing the tag of its register to the word of a place goes on to the next place, if the word
could be written at first. -/
theorem advances_setMemTag {r : Reg} (hr : ∀ q, moves k q ↔ q = r) :
    Advances (fun k s => StoredTo moves word before k s ∧ s.store.Consistent)
      (fun k e => ∃ cause, before.store.refusal? (word k) = some cause ∧ e = .shadow cause) k
      (setMemTag (word k) (before.thread.tagOrClean r)) := by
  rintro s ⟨h, hs⟩
  rw [setMemTag, focus, Store.setTag_eq, h.refusal?]
  cases hrefusal : before.store.refusal? (word k) with
  | some cause => exact ⟨⟨h, hs⟩, cause, hrefusal, rfl⟩
  | none =>
      have hc : s.store.layout.covers (word k) = true :=
        Store.covers_of_refusal? ((h.refusal? _).trans hrefusal)
      exact ⟨h.store hs hr hrefusal, hs.withTag hc _⟩

end StoredTo
end TagState

namespace BlockTransfer

variable {t : BlockTransfer} {k : Nat} {r : Reg}

/-- The place of a store that fails: the word of a register that takes part cannot be written. -/
def StoreFails (t : BlockTransfer) (base : Address) (before : TagState) (k : Nat) (e : ApplyError) :
    Prop :=
  ∃ r cause, t.Moves k r ∧ before.store.refusal? (t.wordAddress base k) = some cause ∧
    e = .shadow cause

theorem advances_store (base : Address) (before : TagState) (hkind : t.kind = .storeDecrement)
    (hr : t.regs[k]? = some r) :
    Advances (fun k s => TagState.StoredTo t.Moves (t.wordAddress base) before k s ∧
      s.store.Consistent) (t.StoreFails base before) k (t.atPlace base k r) := by
  rintro s ⟨h, hs⟩
  by_cases hback : some r = t.writeback
  · rw [atPlace_writeback hback]
    exact ⟨h.pass (not_moves hr hback), hs⟩
  · have hmoves := moves_iff hr hback
    rw [atPlace_moves hback, transferOne, hkind]
    dsimp only
    rw [bind_ok (TagState.regTagOrClean_eq r s), h.thread]
    refine (TagState.StoredTo.advances_setMemTag hmoves).imp ?_ s ⟨h, hs⟩
    rintro e ⟨cause, hrefusal, he⟩
    exact ⟨r, cause, (hmoves r).mpr rfl, hrefusal, he⟩

/-- A store goes through its places as far as their words can be written. -/
theorem storedTo_apply (f : RegFile) {before : TagState} (hs : before.store.Consistent)
    (hkind : t.kind = .storeDecrement) :
    let base := f.value t.base
    let run := outcome (t.apply f) before
    ∃ stop ≤ t.regs.length, TagState.StoredTo t.Moves (t.wordAddress base) before stop run.2 ∧
      (run.1 = .ok () ∧ stop = t.regs.length ∨
        ∃ e, run.1 = .error e ∧ t.StoreFails base before stop e) := by
  intro base run
  have hrun := forM_zipIdx_stops (F := t.StoreFails base before) (f := t.atPlace base)
    (fun k r hr => advances_store base before hkind hr) ⟨.start _ _ _, hs⟩
  rw [← t.apply_eq_places f] at hrun
  obtain ⟨stop, hstop, hend, hresult⟩ := hrun
  exact ⟨stop, hstop, hend.1, hresult⟩

end BlockTransfer

/-! ## Words that a load reads -/

/-- A load does the same for any store in which the words of the tracked registers that take part
have the same tags. -/
theorem BlockTransfer.outcome_load (t : BlockTransfer) (f : RegFile) {s : TagState} (store : Store)
    (hkind : t.kind = .loadIncrement)
    (hsame : ∀ place r, t.Moves place r → r.isTracked s.thread.bank.tracksPc = true →
      store.tagOf (t.wordAddress (f.value t.base) place) =
        s.store.tagOf (t.wordAddress (f.value t.base) place)) :
    outcome (t.apply f) { s with store } =
      ((outcome (t.apply f) s).1, { (outcome (t.apply f) s).2 with store }) := by
  have hsim : Simulates (fun u u' : TagState => u.store = s.store ∧ u' = { u with store } ∧
      u.thread.bank.tracksPc = s.thread.bank.tracksPc) Any Eq (t.apply f) (t.apply f) := by
    rw [t.apply_eq_places f]
    refine simulates_forM ?_
    rintro ⟨r, k⟩ hx
    have hr : t.regs[k]? = some r := List.mk_mem_zipIdx_iff_getElem?.mp hx
    rintro u _ ⟨hu, rfl, hpc⟩
    dsimp only
    by_cases hback : some r = t.writeback
    · rw [atPlace_writeback hback, atPlace_writeback hback]
      exact ⟨trivial, hu, rfl, hpc⟩
    · rw [atPlace_moves hback, transferOne, hkind]
      dsimp only
      rw [get_bind, get_bind]
      cases htracks : u.thread.tracks r with
      | false => exact ⟨trivial, hu, rfl, hpc⟩
      | true =>
          have htag := hsame k r ⟨hr, hback⟩ (hpc ▸ htracks)
          rw [← hu] at htag
          rw [if_pos rfl]
          cases ht : u.store.tagOf (t.wordAddress (f.value t.base) k) with
          | error e =>
              have hread := TagState.memTag_of_error (s := { u with store }) (htag.trans ht)
              rw [bind_error (TagState.memTag_of_error ht), bind_error hread]
              exact ⟨rfl, hu, rfl, hpc⟩
          | ok x =>
              have hread := TagState.memTag_of_ok (s := { u with store }) (htag.trans ht)
              rw [bind_ok (TagState.memTag_of_ok ht), bind_ok hread,
                TagState.setRegTag_tracked htracks,
                TagState.setRegTag_tracked (s := { u with store }) htracks]
              exact ⟨trivial, hu, rfl, (u.tracksPc_withRegTag r x).trans hpc⟩
  obtain ⟨hresult, -, hafter, -⟩ := hsim.outcome_eq (s := s) (t := { s with store }) ⟨rfl, rfl, rfl⟩
  exact Prod.ext hresult hafter

/-- The analyzer plans the transfer of the list. -/
theorem Analyzer.analyze_block (pc : Address) (kind : BlockKind) (base : Reg) (list : List Reg)
    (writeback : Bool) (a : Analyzer) (f : RegFile) :
    ∃ plan, Analyzer.analyze (.block pc kind base list writeback) a = .ok plan a ∧
      plan.apply f = (BlockTransfer.ofList kind base list writeback).apply f := by
  have heffect : (Instr.block pc kind base list writeback).opcode.effect = .blockTransfer := by
    cases kind <;> rfl
  have hrules : (Instr.block pc kind base list writeback).rules a.tracksPc =
      .ok [.block (.ofList kind base list writeback)] := by
    unfold Instr.rules
    rw [heffect]
    dsimp only
    rw [BlockTransfer.ofInstr?_block]
    rfl
  exact ⟨_, Analyzer.analyze_rules hrules, forM_singleton _ _⟩

/-- A block transfer goes through its list up to the first place that takes part and whose word
cannot be accessed, and fails there as that word does. The places in front of it have moved their
tags, the last one counting for a register or a granule, and nothing else has changed. A load does
not depend on any words but those of the tracked registers that take part. -/
theorem block_transfer_tags {backend : Backend} {w : Window} {tags : TagState}
    (h : Store.Reachable backend w tags.store) (pc : Address) (base : Reg) (list : List Reg)
    (writeback : Bool) (a : Analyzer) (f : RegFile) :
    let tracked := Reg.isTracked tags.thread.bank.tracksPc
    let moves := fun place r => list[place]? = some r ∧ ¬ (writeback = true ∧ r = base)
    let above := fun place => f.value base + 4 * UInt64.ofNat (place + 1)
    let below := fun place => f.value base - 4 * UInt64.ofNat (list.length - place)
    (∃ plan result after stop,
      Analyzer.analyze (.block pc .loadIncrement base list writeback) a = .ok plan a ∧
      outcome (plan.apply f) tags = (result, after) ∧
      tags.LoadedTo moves above stop after ∧
      (result = .ok () ∧ stop = list.length ∨
        ∃ r, moves stop r ∧ tracked r = true ∧ tags.store.layout.covers (above stop) = false ∧
          result = .error (.shadow (.invalidAddress (above stop)))) ∧
      ∀ store, (∀ place r, moves place r → tracked r = true →
          store.tagOf (above place) = tags.store.tagOf (above place)) →
        outcome (plan.apply f) { tags with store } = (result, { after with store })) ∧
    ∃ plan result after stop,
      Analyzer.analyze (.block pc .storeDecrement base list writeback) a = .ok plan a ∧
      outcome (plan.apply f) tags = (result, after) ∧
      tags.StoredTo moves below stop after ∧
      (result = .ok () ∧ stop = list.length ∨
        ∃ r cause, moves stop r ∧ tags.store.refusal? (below stop) = some cause ∧
          result = .error (.shadow cause)) := by
  intro tracked moves above below
  have hmoves : ∀ kind, (BlockTransfer.ofList kind base list writeback).Moves = moves := by
    intro kind
    funext place r
    cases writeback <;> simp [BlockTransfer.Moves, BlockTransfer.ofList, moves]
  constructor
  · obtain ⟨plan, hplan, happly⟩ :=
      Analyzer.analyze_block pc .loadIncrement base list writeback a f
    obtain ⟨stop, -, hloaded, hresult⟩ := BlockTransfer.loadedTo_apply
      (t := .ofList .loadIncrement base list writeback) f tags rfl
    have hreads := fun store => BlockTransfer.outcome_load
      (.ofList .loadIncrement base list writeback) f (s := tags) store rfl
    rw [hmoves] at hloaded hreads
    refine ⟨plan, _, _, stop, hplan, congrArg (outcome · tags) happly, hloaded, ?_, ?_⟩
    · refine hresult.imp_right ?_
      rintro ⟨e, he, r, hr, htracked, hc, rfl⟩
      rw [hmoves] at hr
      exact ⟨r, hr, htracked, hc, he⟩
    · rw [happly]
      exact hreads
  · obtain ⟨plan, hplan, happly⟩ :=
      Analyzer.analyze_block pc .storeDecrement base list writeback a f
    obtain ⟨stop, -, hstored, hresult⟩ := BlockTransfer.storedTo_apply
      (t := .ofList .storeDecrement base list writeback) f h.consistent rfl
    rw [hmoves] at hstored
    refine ⟨plan, _, _, stop, hplan, congrArg (outcome · tags) happly, hstored,
      hresult.imp_right ?_⟩
    rintro ⟨e, he, r, cause, hr, hrefusal, rfl⟩
    rw [hmoves] at hr
    exact ⟨r, cause, hr, hrefusal, he⟩

/-- A list that holds its written-back base twice, the second time at its end. The other register
goes through the words that its own place counts to, up or down. -/
theorem block_transfer_tags_base_in_list :
    let list : List Reg := [⟨1⟩, ⟨4⟩, ⟨4⟩]
    let f := RegFile.zero.set ⟨4⟩ 0x1010
    let tags : TagState := ⟨.small .lazy, .tainted⟩
    let a := Analyzer.new .strict true
    (∃ plan after, Analyzer.analyze (.block 0x100 .loadIncrement ⟨4⟩ list true) a = .ok plan a ∧
      outcome (plan.apply f) tags = (.ok (), after) ∧ after.thread.tagOf ⟨1⟩ = .ok 0) ∧
    ∃ plan after, Analyzer.analyze (.block 0x100 .storeDecrement ⟨4⟩ list true) a = .ok plan a ∧
      outcome (plan.apply f) tags = (.ok (), after) ∧ after.store.tagOf 0x1007 = .ok 5 := by
  intro list f tags a
  have hreach : Store.Reachable .lazy .small tags.store := ⟨.granting, _, rfl, .refl⟩
  obtain ⟨⟨plan, result, after, stop, hplan, hrun, hloaded, hresult, -⟩,
    plan', result', after', stop', hplan', hrun', hstored, hresult'⟩ :=
    block_transfer_tags hreach 0x100 ⟨4⟩ list true a f
  have hplace : ∀ {place r}, list[place]? = some r → place < 3 := fun h =>
    (List.getElem?_eq_some_iff.mp h).1
  have hother : ∀ later < 3, 0 < later → list[later]? = some ⟨4⟩ := by decide
  constructor
  · have hcovered : ∀ place < 3,
        tags.store.layout.covers (f.value ⟨4⟩ + 4 * UInt64.ofNat (place + 1)) = true := by decide
    rcases hresult with ⟨rfl, rfl⟩ | ⟨r, hr, -, hc, -⟩
    · obtain ⟨t, hword, ht⟩ := hloaded.loaded 0 ⟨1⟩ (by decide) ⟨rfl, by decide⟩ (by decide)
        fun later hlater hstop hr => by
          rw [hother later hstop hlater] at hr
          exact absurd hr.1 (by decide)
      cases hword
      exact ⟨plan, after, hplan, hrun, ht⟩
    · cases (hcovered stop (hplace hr.1)).symm.trans hc
  · have hgranted : ∀ place < 3,
        tags.store.refusal? (f.value ⟨4⟩ - 4 * UInt64.ofNat (3 - place)) = none := by decide
    rcases hresult' with ⟨rfl, rfl⟩ | ⟨r, cause, hr, hrefusal, -⟩
    · have hstore := hstored.stored 0 ⟨1⟩ 0x1007 (by decide) ⟨rfl, by decide⟩
        ⟨by decide, by decide, by decide⟩ fun later q hlater hstop hq => by
          rw [hother later hstop hlater] at hq
          cases hq.1
          exact absurd ⟨rfl, rfl⟩ hq.2
      exact ⟨plan', after', hplan', hrun', hstore.trans rfl⟩
    · cases (hgranted stop' (hplace hr.1)).symm.trans hrefusal

end TaintFlow
