import TaintFlow.Proofs.Inline.Emission

/-!
# What inline code does

The code of a move does what the move says, save for three things: it leaves the application address
in the slot, a dense store does not learn which region was written, and a commit that is refused is
reported by the recovery. `Move.inline` is this meaning, without scratch registers; the code of a
move runs to the same end as its meaning.
-/

namespace TaintFlow

open TaintFlow.Action

/-! ## The register bank in memory -/

namespace ThreadContext

/-- No register's tag lies in the shadow, which is mapped apart from all other data. -/
def Outside (c : ThreadContext) (w : Window) : Prop :=
  ∀ o < Reg.count, w.locate? (c.address + UInt64.ofNat o) = none

instance (c : ThreadContext) (w : Window) : Decidable (c.Outside w) :=
  inferInstanceAs (Decidable (∀ o < Reg.count, _))

def tainted : ThreadContext :=
  { ThreadContext.new 0x10000000 true with
    bank := ⟨(Vector.replicate Reg.count untainted).set 1 5, true⟩ }

variable {c : ThreadContext} {r : Reg}

theorem tagAddress_general (h : r.isGeneral = true) :
    c.tagAddress r = .ok (c.address + UInt64.ofNat r.id.toNat) := by
  rw [tagAddress, regOffset, RegisterBank.offset, if_pos h]
  rfl

theorem tagAddress_other (h : r.isGeneral = false) : c.tagAddress r = .error (.outOfRange r) := by
  rw [tagAddress, regOffset, RegisterBank.offset, h]
  rfl

theorem regAt?_tagAddress (h : r.isGeneral = true) :
    c.regAt? (c.address + UInt64.ofNat r.id.toNat) = some r := by
  have hid : r.id.toNat < Reg.count := of_decide_eq_true h
  -- The offset is below the number of registers, so nothing wraps.
  have hsub : c.address + UInt64.ofNat r.id.toNat - c.address = UInt64.ofNat r.id.toNat := by
    rw [UInt64.add_comm, UInt64.add_sub_cancel]
  have hnat : (UInt64.ofNat r.id.toNat).toNat = r.id.toNat := by
    rw [UInt64.toNat_ofNat']
    have := r.id.toNat_lt
    omega
  have hreg : (UInt64.ofNat r.id.toNat).toUInt8 = r.id := by
    rw [← UInt8.toNat_inj, UInt64.toNat_toUInt8, hnat]
    exact Nat.mod_eq_of_lt r.id.toNat_lt
  rw [regAt?, hsub, hnat, if_pos hid, hreg]

theorem position_other (b : RegisterBank) (h : r.isGeneral = false) :
    b.position r = .error (.outOfRange r) := by
  rw [RegisterBank.position, dif_neg (of_decide_eq_false h)]

theorem tagOf_other (h : r.isGeneral = false) : c.tagOf r = .error (.outOfRange r) := by
  rw [tagOf, RegisterBank.tagOf, position_other c.bank h]
  rfl

theorem setTag_other (h : r.isGeneral = false) (t : Tag) :
    c.setTag r t = .error (.outOfRange r) := by
  rw [setTag, RegisterBank.setTag, position_other c.bank h]
  rfl

end ThreadContext

/-! ## The meaning of a move -/

def ExecError.ofApply : ApplyError → ExecError
  | .shadow e => .shadow e
  | .register e => .register e

namespace Store

/-- The store after inline code set a tag. A dense store is not told of it. -/
def withInlineTag (s : Store) (a : Address) (t : Tag) : Store :=
  match s.backing with
  | .lazy _ _ => s.withTag a t
  | .dense _ => s.writeAt (s.layout.granule a) t

theorem withRegion_owned {s : Store} {owned : RegionSet} {commits : Nat}
    (hb : s.backing = .lazy owned commits) {i : Nat} (h : s.regionKind i = .owned) :
    s.withRegion i = s := by
  rw [regionKind_of_lazy hb] at h
  rw [withRegion, hb]
  dsimp only
  split at h
  · rename_i ho
    rw [if_pos ho]
  · contradiction

theorem withInlineTag_owned {s : Store} {a : Address}
    (h : s.regionKind (s.layout.regionAt a) = .owned) (t : Tag) :
    s.withInlineTag a t = s.writeAt (s.layout.granule a) t := by
  unfold withInlineTag
  cases hb : s.backing with
  | dense touched => rfl
  | lazy owned commits =>
      dsimp only
      rw [withTag, withRegion_owned hb h]

theorem withInlineTag_shared {s : Store} {a : Address}
    (h : s.regionKind (s.layout.regionAt a) = .shared) (t : Tag) :
    s.withInlineTag a t = s.withTag a t := by
  unfold withInlineTag
  cases hb : s.backing with
  | dense touched =>
      rw [regionKind_of_dense hb] at h
      contradiction
  | lazy owned commits => rfl

theorem refusal?_owned {s : Store} {a : Address} (hc : s.layout.covers a = true)
    (h : s.regionKind (s.layout.regionAt a) = .owned) : s.refusal? a = none := by
  cases hr : s.refusal? a with
  | none => rfl
  | some e =>
      rcases refusal?_cases hr with ⟨-, hc'⟩ | ⟨-, -, -, hshared, -⟩
      · rw [hc] at hc'
        contradiction
      · rw [h] at hshared
        contradiction

end Store

namespace TagState

def withSaved (s : TagState) (a : Address) : TagState :=
  { s with thread := s.thread.setSlot .appAddress a }

def saveAddress (a : Address) : Action TagState ExecError Unit :=
  modify fun s => s.withSaved a

/-- A direct step, its failures reported as inline code reports them. -/
def reported {α : Type} (act : Action TagState ApplyError α) : Action TagState ExecError α :=
  focus id (fun s _ => s) .ofApply act

theorem reported_bind {α β : Type} (act : Action TagState ApplyError α)
    (next : α → Action TagState ApplyError β) :
    reported (act >>= next) = reported act >>= fun a => reported (next a) := by
  funext s
  rw [bind_apply, reported, reported, focus, focus, bind_apply]
  dsimp only [id]
  cases act s <;> rfl

theorem reported_memTag (a : Address) (s : TagState) :
    reported (memTag a) s =
      match s.store.tagOf a with
      | .ok t => .ok t s
      | .error e => .error (.shadow e) s := by
  unfold reported focus memTag
  dsimp only [id]
  cases s.store.tagOf a <;> rfl

theorem reported_regTag (r : Reg) (s : TagState) :
    reported (regTag r) s =
      match s.thread.tagOf r with
      | .ok t => .ok t s
      | .error e => .error (.register e) s := by
  unfold reported focus regTag
  dsimp only [id]
  cases s.thread.tagOf r <;> rfl

/-- Set the tag of an application address as inline code does. -/
def storeInline (a : Address) (t : Tag) : Action TagState ExecError Unit :=
  fun s =>
    match s.store.refusal? a with
    | some (.invalidAddress a) => .error (.shadow (.invalidAddress a)) s
    | some e => .error (.fault (.shadow e)) s
    | none => .ok () { s with store := s.store.withInlineTag a t }

/-- The store is consistent and the register bank lies outside its shadow. -/
structure Sound (s : TagState) : Prop where
  consistent : s.store.Consistent
  outside : s.thread.Outside s.store.window

end TagState

/-- What the code of a move does, given the values of the registers. -/
def Move.inline (f : RegFile) : Move → Action TagState ExecError Unit
  | .load dst mem i => do
      TagState.saveAddress ((mem.word i).address f)
      TagState.reported do
        TagState.setRegTag dst (← TagState.memTag ((mem.word i).address f))
  | .store src mem i => do
      let t ← TagState.reported (Rule.sourceTag src)
      TagState.saveAddress ((mem.word i).address f)
      TagState.storeInline ((mem.word i).address f) t
  | .block t => focus id (fun s _ => s) .apply (t.apply f)
  | m => TagState.reported (m.apply f)

/-! ## What the meaning keeps -/

theorem Store.changed_withInlineTag {s : Store} (hs : s.Consistent) {a : Address}
    (hc : s.layout.covers a = true) (t : Tag) : Store.Changed s (s.withInlineTag a t) := by
  cases hk : s.regionKind (s.layout.regionAt a) with
  | owned =>
      rw [withInlineTag_owned hk]
      exact .single (.byte (Layout.granule_lt_shadowLength hc) hk t)
  | shared =>
      rw [withInlineTag_shared hk]
      exact changed_withTag hs hc t

/-- Where inline code finds word `i` of an operand: the displacement is added up in 32 bits. -/
def MemRef.codeAddress (m : MemRef) (f : RegFile) (i : Nat) : Address :=
  (m.word i).address f

namespace TagState

/-- As `Keeps`, for inline code that accesses the words `words`. -/
structure KeepsInline (I : TagState → Prop) (E : ExecError → Prop) (words : Address → Prop)
    (regs : Reg → Prop) : Prop where
  direct : Keeps I (fun e => E (.ofApply e)) words (fun _ => False) regs
  withSaved : ∀ s, I s → ∀ a, I (s.withSaved a)
  refused : ∀ s, I s → ∀ a r, words a → s.store.refusal? a = some (.mapping r) →
    E (.fault (.shadow (.mapping r)))
  withInlineTag : ∀ s, I s → ∀ a t, words a → s.store.layout.covers a = true →
    I { s with store := s.store.withInlineTag a t }

variable {I : TagState → Prop} {E : ExecError → Prop} {words : Address → Prop} {regs : Reg → Prop}

theorem preserves_reported {α : Type} {act : Action TagState ApplyError α}
    (h : Preserves I (fun e => E (.ofApply e)) act) : Preserves I E (reported act) :=
  preserves_focus h (fun _ hs => hs) (fun _ _ _ hs => hs) (fun _ he => he)

theorem KeepsInline.saveAddress (h : KeepsInline I E words regs) (a : Address) :
    Preserves I E (saveAddress a) :=
  preserves_modify fun s hs => h.withSaved s hs a

theorem KeepsInline.storeInline (h : KeepsInline I E words regs) {a : Address} (ha : words a)
    (t : Tag) : Preserves I E (storeInline a t) := by
  intro s hs
  unfold TagState.storeInline
  cases hr : s.store.refusal? a with
  | none => exact h.withInlineTag s hs a t ha (Store.covers_of_refusal? hr)
  | some e =>
      rcases Store.refusal?_cases hr with ⟨rfl, hc⟩ | ⟨rfl, -⟩
      · exact ⟨hs, h.direct.uncovered s hs a ha hc⟩
      · exact ⟨hs, h.refused s hs a _ ha hr⟩

end TagState

/-- A block transfer is called, and what it keeps is shown of the call. -/
theorem Move.keeps_inline {I : TagState → Prop} {E : ExecError → Prop} {words : Address → Prop}
    {regs : Reg → Prop} (h : TagState.KeepsInline I E words regs) (f : RegFile) (m : Move)
    (hregs : ∀ r ∈ m.regs, regs r)
    (hwords : ∀ a, m.Accesses MemRef.codeAddress regs f a → words a)
    (hcall : ∀ b, m = .block b →
      Preserves I E (focus id (fun s _ => s) ExecError.apply (b.apply f))) :
    Preserves I E (m.inline f) := by
  -- Moves between registers access no memory at all.
  have hdirect : (∀ a, ¬ m.Accesses MemRef.wordAddress regs f a) →
      Preserves I E (TagState.reported (m.apply f)) := fun hnone =>
    TagState.preserves_reported (m.keeps_apply h.direct f hregs
      (fun a ha => absurd ha (hnone a)) (fun a ha => absurd ha (hnone a)))
  cases m with
  | load dst mem i =>
      refine preserves_bind (h.saveAddress _) fun _ => TagState.preserves_reported ?_
      exact preserves_bind (h.direct.memTag (hwords _ rfl)) fun t =>
        h.direct.setRegTag (hregs dst List.mem_cons_self) t
  | store src mem i =>
      refine preserves_bind (TagState.preserves_reported (h.direct.sourceTag hregs)) fun t => ?_
      exact preserves_bind (h.saveAddress _) fun _ => h.storeInline (hwords _ rfl) t
  | copy dst src => exact hdirect fun _ ha => ha
  | clear dst => exact hdirect fun _ ha => ha
  | union dst srcs => exact hdirect fun _ ha => ha
  | block b => exact hcall b rfl

theorem TagState.Since.keepsInline {s₀ : TagState} (h₀ : s₀.store.Consistent) :
    KeepsInline (Since s₀) (fun _ => True) (fun _ => True) (fun _ => True) where
  direct := (Since.keeps h₀).readOnly (fun _ _ => trivial) (fun _ _ => trivial)
  withSaved := fun _ hs _ => ⟨hs.store, hs.address, hs.tracksPc⟩
  refused := fun _ _ _ _ _ _ => trivial
  withInlineTag := fun _ hs _ t _ hc =>
    hs.withStore (Store.changed_withInlineTag (hs.store.consistent h₀) hc t)

theorem Move.preserves_inline {s₀ : TagState} (h₀ : s₀.store.Consistent) (f : RegFile) (m : Move) :
    Preserves (TagState.Since s₀) (fun _ => True) (m.inline f) :=
  m.keeps_inline (TagState.Since.keepsInline h₀) f (fun _ _ => trivial) (fun _ _ => trivial)
    fun b _ => preserves_focus (b.preserves_apply h₀ f) (fun _ hs => hs) (fun _ _ _ hs => hs)
      (fun _ _ => trivial)

theorem TagState.Sound.since {s₀ s : TagState} (h₀ : s₀.Sound) (h : s₀.Since s) : s.Sound where
  consistent := h.store.consistent h₀.consistent
  outside := by
    rw [h.store.window, ThreadContext.Outside, h.address]
    exact h₀.outside

/-! ## Running code -/

namespace InlineInstr

abbrev run (f : RegFile) (code : List InlineInstr) : Exec Unit :=
  code.forM (exec f)

variable {f : RegFile} {st st' : ExecState}

theorem run_cons {i : InlineInstr} (h : i.exec f st = .ok () st') (code : List InlineInstr) :
    run f (i :: code) st = run f code st' := by
  change (i.exec f >>= fun _ => run f code) st = _
  rw [bind_ok h]

theorem run_cons_error {i : InlineInstr} {e : ExecError} (h : i.exec f st = .error e st')
    (code : List InlineInstr) : run f (i :: code) st = .error e st' := by
  change (i.exec f >>= fun _ => run f code) st = _
  rw [bind_error h]

theorem run_singleton (i : InlineInstr) (st : ExecState) : run f [i] st = i.exec f st := by
  rw [run, forM_singleton]

theorem run_append {xs : List InlineInstr} (h : run f xs st = .ok () st')
    (ys : List InlineInstr) : run f (xs ++ ys) st = run f ys st' := by
  rw [run, forM_append, bind_ok h]

theorem run_append_error {xs : List InlineInstr} {e : ExecError}
    (h : run f xs st = .error e st') (ys : List InlineInstr) :
    run f (xs ++ ys) st = .error e st' := by
  rw [run, forM_append, bind_error h]

end InlineInstr

def ExecState.withSaved (st : ExecState) (a : Address) : ExecState :=
  st.withTags (st.tags.withSaved a)

@[simp] theorem ExecState.tags_withSaved (st : ExecState) (a : Address) :
    (st.withSaved a).tags = st.tags.withSaved a := rfl

def ExecState.forget {α : Type} :
    EStateM.Result ExecError ExecState α → EStateM.Result ExecError TagState α
  | .ok a st => .ok a st.tags
  | .error e st => .error e st.tags

namespace InlineInstr

variable {f : RegFile} {st : ExecState}

/-- The first two instructions of a shadow access leave the address in the slot and the register. -/
theorem run_saved {dst : Scratch} (hd : dst.Valid) (mem : MemRef) (code : List InlineInstr) :
    run f (.loadAddress dst mem :: .saveSlot dst .appAddress :: code) st =
      run f code ((st.withSaved (mem.address f)).hold dst (mem.address f)) := by
  rw [run_cons (exec_loadAddress f st hd mem), run_cons (exec_saveSlot f _ hd _),
    ExecState.held_hold_self _ hd, ExecState.tags_hold, ExecState.withThread,
    ExecState.withTags_hold, ExecState.tags_hold]
  rfl

theorem shadowOf_covered {dst : Scratch} (hd : dst.Valid) {mem : MemRef}
    (hc : st.tags.store.layout.covers (mem.address f) = true) :
    run f (shadowOf dst mem) st =
      .ok () ((st.withSaved (mem.address f)).hold dst
        (st.tags.store.window.addressOf (st.tags.store.layout.granule (mem.address f)))) := by
  have ht : (st.tags.withSaved (mem.address f)).store.translate (mem.address f) =
      .ok (st.tags.store.window.addressOf (st.tags.store.layout.granule (mem.address f))) := by
    rw [Store.translate_eq]
    exact if_pos hc
  rw [shadowOf, run_saved hd, run_singleton, exec_appToShadow f _ hd,
    ExecState.held_hold_self _ hd, ExecState.tags_hold, ExecState.tags_withSaved, ht]
  dsimp only
  rw [ExecState.hold_hold]

theorem shadowOf_uncovered {dst : Scratch} (hd : dst.Valid) {mem : MemRef}
    (hc : st.tags.store.layout.covers (mem.address f) = false) :
    run f (shadowOf dst mem) st =
      .error (.shadow (.invalidAddress (mem.address f)))
        ((st.withSaved (mem.address f)).hold dst (mem.address f)) := by
  have ht : (st.tags.withSaved (mem.address f)).store.translate (mem.address f) =
      .error (.invalidAddress (mem.address f)) := by
    rw [Store.translate_eq]
    exact if_neg (by rw [Bool.not_eq_true]; exact hc)
  rw [shadowOf, run_saved hd, run_singleton, exec_appToShadow f _ hd,
    ExecState.held_hold_self _ hd, ExecState.tags_hold, ExecState.tags_withSaved, ht]

theorem byteAt_bank {tags : TagState} (htags : st.tags = tags)
    (hout : tags.thread.Outside tags.store.window) {r : Reg} (hr : r.isGeneral = true) :
    Exec.byteAt (tags.thread.address + UInt64.ofNat r.id.toNat) st =
      match tags.thread.tagOf r with
      | .ok t => .ok t st
      | .error e => .error (.register e) st := by
  subst htags
  have hnone : st.tags.store.byteAt? (st.tags.thread.address + UInt64.ofNat r.id.toNat) = none := by
    rw [Store.byteAt?, hout _ (of_decide_eq_true hr), Option.map_none]
  have hbyte := Exec.byteAt_eq (st.tags.thread.address + UInt64.ofNat r.id.toNat) st
  rw [hnone] at hbyte
  dsimp only at hbyte
  rw [ThreadContext.regAt?_tagAddress hr] at hbyte
  exact hbyte

theorem run_tagOf {tags : TagState} (htags : st.tags = tags)
    (hout : tags.thread.Outside tags.store.window) {dst : Scratch} (hd : dst.Valid) (r : Reg) :
    match tags.thread.tagOf r with
    | .ok t => run f (InlineInstr.tagOf dst r) st = .ok () (st.hold dst t.toUInt64)
    | .error e => ∃ st', run f (InlineInstr.tagOf dst r) st = .error (.register e) st' ∧
        st'.tags = tags := by
  subst htags
  cases hr : r.isGeneral with
  | false =>
      rw [ThreadContext.tagOf_other hr]
      refine ⟨st, run_cons_error ?_ _, rfl⟩
      rw [exec_regToShadow f st hd, ThreadContext.tagAddress_other hr]
  | true =>
      have hload : (regToShadow dst r).exec f st = .ok ()
          (st.hold dst (st.tags.thread.address + UInt64.ofNat r.id.toNat)) := by
        rw [exec_regToShadow f st hd, ThreadContext.tagAddress_general hr]
      rw [InlineInstr.tagOf, run_cons hload, run_singleton, exec_loadByte f _ hd hd,
        ExecState.held_hold_self _ hd, byteAt_bank (ExecState.tags_hold _ _ _) hout hr]
      cases st.tags.thread.tagOf r with
      | ok t => exact congrArg _ (ExecState.hold_hold _ _ _ _)
      | error e => exact ⟨_, rfl, ExecState.tags_hold _ _ _⟩

theorem run_setTag {tags : TagState} (htags : st.tags = tags)
    (hout : tags.thread.Outside tags.store.window) {addr src : Scratch} (ha : addr.Valid)
    (hs : src.Valid) (hne : addr ≠ src) (r : Reg) {t : Tag} (ht : st.held src = t.toUInt64) :
    ExecState.forget (run f (InlineInstr.setTag addr r src) st) =
      TagState.reported (TagState.setRegTag r t) tags := by
  subst htags
  cases hr : r.isGeneral with
  | false =>
      have hload : (regToShadow addr r).exec f st = .error (.register (.outOfRange r)) st := by
        rw [exec_regToShadow f st ha, ThreadContext.tagAddress_other hr]
      rw [InlineInstr.setTag, run_cons_error hload, TagState.reported, focus, TagState.setRegTag]
      dsimp only [id]
      rw [ThreadContext.setTag_other hr]
      rfl
  | true =>
      have hload : (regToShadow addr r).exec f st = .ok ()
          (st.hold addr (st.tags.thread.address + UInt64.ofNat r.id.toNat)) := by
        rw [exec_regToShadow f st ha, ThreadContext.tagAddress_general hr]
      -- The bank lies outside the shadow, so the store does not fault.
      have hnone : (st.hold addr
          (st.tags.thread.address + UInt64.ofNat r.id.toNat)).tags.store.pageKind
            (st.tags.thread.address + UInt64.ofNat r.id.toNat) = none := by
        rw [ExecState.tags_hold, Store.pageKind, hout _ (of_decide_eq_true hr), Option.map_none]
      have hself := ExecState.held_hold_self st ha
        (st.tags.thread.address + UInt64.ofNat r.id.toNat)
      rw [InlineInstr.setTag, run_cons hload, run_singleton, exec_storeByte f _ addr hs,
        ExecState.held_hold_ne st ha hne, ht, UInt8.toUInt8_toUInt64,
        Exec.storeThrough_outside ha t (by rw [hself]; exact hnone), hself, Exec.setBankByte_eq,
        ExecState.tags_hold, ThreadContext.regAt?_tagAddress hr, TagState.reported, focus,
        TagState.setRegTag]
      dsimp only [id]
      cases st.tags.thread.setTag r t with
      | ok thread =>
          dsimp only [ExecState.forget]
          rw [ExecState.withThread, ExecState.tags_withTags, ExecState.tags_hold]
      | error e =>
          dsimp only [ExecState.forget]
          rw [ExecState.tags_hold]
          rfl

/-- A store to the saved address ends as the tag being set. -/
theorem run_storeThrough {tags : TagState} (htags : st.tags = tags) (hc : tags.store.Consistent)
    {addr : Scratch} (ha : addr.Valid) {a : Address} (hcov : tags.store.layout.covers a = true)
    (hsaved : tags.thread.slot .appAddress = a)
    (hheld : st.held addr = tags.store.window.addressOf (tags.store.layout.granule a)) (t : Tag) :
    ExecState.forget (Exec.storeThrough addr t st) = TagState.storeInline a t tags := by
  subst htags
  have hin := Layout.granule_lt_shadowLength hcov
  have hk : st.tags.store.pageKind (st.held addr) =
      some (st.tags.store.regionKind (st.tags.store.layout.regionAt a)) := by
    rw [hheld, Store.pageKind_addressOf _ hin]
    rfl
  unfold TagState.storeInline
  cases hr : st.tags.store.regionKind (st.tags.store.layout.regionAt a) with
  | owned =>
      rw [hr] at hk
      rw [Exec.storeThrough_owned ha t hk, Store.refusal?_owned hcov hr, hheld,
        Store.pokeByte_addressOf _ hin, Store.withInlineTag_owned hr]
      rfl
  | shared =>
      rw [hr] at hk
      rw [Exec.storeThrough_shared ha t hc hk, hsaved]
      cases hrefusal : st.tags.store.refusal? a with
      | some e =>
          rcases Store.refusal?_cases hrefusal with ⟨-, hc'⟩ | ⟨he, -⟩
          · rw [hcov] at hc'
            contradiction
          · rw [he]
            rfl
      | none =>
          -- The slot holds the address of this access, so the recovery commits the right region.
          have ho : (st.tags.store.recovered st.tags.thread).pageKind (st.held addr) =
              some .owned := by
            rw [hheld, Store.recovered, hsaved]
            exact Store.pageKind_withRegion hc hcov
          dsimp only
          rw [if_pos ho, Store.withInlineTag_shared hr]
          dsimp only [ExecState.forget]
          rw [ExecState.tags_hold, ExecState.tags_withStore]

theorem byteAt_shadow {tags : TagState} (htags : st.tags = tags) {a : Address}
    (hc : tags.store.layout.covers a = true) :
    Exec.byteAt (tags.store.window.addressOf (tags.store.layout.granule a)) st =
      .ok (tags.store.bytes.read (tags.store.layout.granule a)) st := by
  subst htags
  rw [Exec.byteAt_eq, Store.byteAt?_addressOf _ (Layout.granule_lt_shadowLength hc)]

theorem run_fetch {dst : Scratch} (hd : dst.Valid) {mem : MemRef}
    (hc : st.tags.store.layout.covers (mem.address f) = true) :
    run f (shadowOf dst mem ++ [.loadByte dst dst]) st =
      .ok () ((st.withSaved (mem.address f)).hold dst
        (st.tags.store.bytes.read (st.tags.store.layout.granule (mem.address f))).toUInt64) := by
  have hbyte : ∀ x : Address, Exec.byteAt
      (st.tags.store.window.addressOf (st.tags.store.layout.granule (mem.address f)))
      ((st.withSaved (mem.address f)).hold dst x) =
        .ok (st.tags.store.bytes.read (st.tags.store.layout.granule (mem.address f)))
          ((st.withSaved (mem.address f)).hold dst x) := by
    intro x
    have htags : ((st.withSaved (mem.address f)).hold dst x).tags =
        st.tags.withSaved (mem.address f) := ExecState.tags_hold _ _ _
    exact byteAt_shadow htags hc
  rw [run_append (shadowOf_covered hd hc), run_singleton, exec_loadByte f _ hd hd,
    ExecState.held_hold_self _ hd, hbyte]
  exact congrArg _ (ExecState.hold_hold _ _ _ _)

/-- Put the tag that a store finds in one of its sources into a scratch register. -/
def fetchSource (dst : Scratch) : Option Reg → List InlineInstr
  | some r => InlineInstr.tagOf dst r
  | none => [.moveImm dst untainted]

theorem storeWord_eq (src : Option Reg) (mem : MemRef) (app tag : Scratch) :
    storeWord src mem app tag =
      fetchSource tag src ++ (shadowOf app mem ++ [.storeByte app tag]) := by
  cases src <;> rfl

theorem run_fetchSource {tags : TagState} (htags : st.tags = tags)
    (hout : tags.thread.Outside tags.store.window) {dst : Scratch} (hd : dst.Valid)
    (src : Option Reg) :
    (∃ t, TagState.reported (Rule.sourceTag src) tags = .ok t tags ∧
        run f (fetchSource dst src) st = .ok () (st.hold dst t.toUInt64)) ∨
      ∃ e st', TagState.reported (Rule.sourceTag src) tags = .error e tags ∧
        run f (fetchSource dst src) st = .error e st' ∧ st'.tags = tags := by
  cases src with
  | none =>
      refine Or.inl ⟨untainted, rfl, ?_⟩
      rw [fetchSource, run_singleton, exec_moveImm f st hd]
  | some r =>
      have hfetch := run_tagOf (f := f) htags hout hd r
      have hsource := TagState.reported_regTag r tags
      cases ht : tags.thread.tagOf r with
      | ok t =>
          rw [ht] at hfetch hsource
          exact Or.inl ⟨t, hsource, hfetch⟩
      | error e =>
          rw [ht] at hfetch hsource
          obtain ⟨st', hrun, htags'⟩ := hfetch
          exact Or.inr ⟨.register e, st', hsource, hrun, htags'⟩

theorem run_collect {tags : TagState} (hout : tags.thread.Outside tags.store.window)
    {acc tmp : Scratch} (ha : acc.Valid) (ht : tmp.Valid) (hne : acc ≠ tmp) (srcs : List Reg)
    (x : Tag) {st : ExecState} (htags : st.tags = tags) (hacc : st.held acc = x.toUInt64) :
    (∃ t st', TagState.reported (Rule.unionTag x srcs) tags = .ok t tags ∧
        run f (srcs.flatMap fun r => InlineInstr.tagOf tmp r ++ [.or acc tmp]) st = .ok () st' ∧
        st'.tags = tags ∧ st'.held acc = t.toUInt64) ∨
      ∃ e st', TagState.reported (Rule.unionTag x srcs) tags = .error e tags ∧
        run f (srcs.flatMap fun r => InlineInstr.tagOf tmp r ++ [.or acc tmp]) st = .error e st' ∧
        st'.tags = tags := by
  -- On the sources; `acc` holds the union of the tags fetched so far.
  induction srcs generalizing x st with
  | nil => exact Or.inl ⟨x, st, rfl, rfl, htags, hacc⟩
  | cons r rest ih =>
      have hfetch := run_tagOf (f := f) htags hout ht r
      have hunion : TagState.reported (Rule.unionTag x (r :: rest)) tags =
          (TagState.reported (TagState.regTag r) >>= fun t =>
            TagState.reported (Rule.unionTag (x ||| t) rest)) tags :=
        congrFun (TagState.reported_bind _ _) tags
      rw [bind_apply, TagState.reported_regTag] at hunion
      rw [List.flatMap_cons, List.append_assoc]
      cases hr : tags.thread.tagOf r with
      | error e =>
          rw [hr] at hfetch hunion
          obtain ⟨st', hrun, htags'⟩ := hfetch
          exact Or.inr ⟨.register e, st', hunion, run_append_error hrun _, htags'⟩
      | ok t =>
          rw [hr] at hfetch hunion
          have hor : (InlineInstr.or acc tmp).exec f (st.hold tmp t.toUInt64) =
              .ok () ((st.hold tmp t.toUInt64).hold acc (x ||| t).toUInt64) := by
            rw [exec_or f _ ha ht, ExecState.held_hold_self _ ht,
              ExecState.held_hold_ne _ ht (Ne.symm hne), hacc, UInt8.toUInt64_or]
          have htags' : ((st.hold tmp t.toUInt64).hold acc (x ||| t).toUInt64).tags = tags := by
            rw [ExecState.tags_hold, ExecState.tags_hold, htags]
          have hrest := ih (x ||| t) htags' (ExecState.held_hold_self _ ha _)
          rw [hunion, run_append hfetch, List.singleton_append, run_cons hor]
          exact hrest

section Moves

variable {tags : TagState} (htags : st.tags = tags) (hs : tags.Sound) {a b : Scratch}
  (ha : a.Valid) (hb : b.Valid) (hab : a ≠ b)
include htags hs ha hb hab

theorem run_load (dst : Reg) (mem : MemRef) (i : Nat) :
    ExecState.forget (run f ((Move.load dst mem i).code a b) st) =
      (Move.load dst mem i).inline f tags := by
  subst htags
  have hinline : (Move.load dst mem i).inline f st.tags =
      TagState.reported (TagState.memTag ((mem.word i).address f) >>= TagState.setRegTag dst)
        (st.tags.withSaved ((mem.word i).address f)) := rfl
  rw [hinline, TagState.reported_bind, bind_apply, TagState.reported_memTag, Store.tagOf_eq]
  change ExecState.forget (run f (loadWord dst (mem.word i) a b) st) = _
  unfold loadWord
  cases hc : st.tags.store.layout.covers ((mem.word i).address f) with
  | false =>
      have hc' : (st.tags.withSaved ((mem.word i).address f)).store.layout.covers
          ((mem.word i).address f) = false := hc
      rw [hc', run_append_error (run_append_error (shadowOf_uncovered ha hc) _) _]
      dsimp only [ExecState.forget]
      rw [ExecState.tags_hold, ExecState.tags_withSaved]
      rfl
  | true =>
      have hc' : (st.tags.withSaved ((mem.word i).address f)).store.layout.covers
          ((mem.word i).address f) = true := hc
      rw [hc', if_pos rfl, run_append (run_fetch ha hc)]
      have htags : ((st.withSaved ((mem.word i).address f)).hold a
          (st.tags.store.bytes.read
            (st.tags.store.layout.granule ((mem.word i).address f))).toUInt64).tags =
          st.tags.withSaved ((mem.word i).address f) := ExecState.tags_hold _ _ _
      exact run_setTag htags hs.outside hb ha (Ne.symm hab) dst
        (ExecState.held_hold_self _ ha _)

theorem run_copy (dst src : Reg) :
    ExecState.forget (run f ((Move.copy dst src).code a b) st) =
      (Move.copy dst src).inline f tags := by
  have hinline : (Move.copy dst src).inline f tags =
      TagState.reported (TagState.regTag src >>= TagState.setRegTag dst) tags := rfl
  have hfetch := run_tagOf (f := f) htags hs.outside ha src
  rw [hinline, TagState.reported_bind, bind_apply, TagState.reported_regTag]
  change ExecState.forget (run f (copyTag dst src a b) st) = _
  unfold copyTag
  cases ht : tags.thread.tagOf src with
  | error e =>
      rw [ht] at hfetch
      obtain ⟨st', hrun, htags'⟩ := hfetch
      rw [run_append_error hrun]
      exact congrArg _ htags'
  | ok t =>
      rw [ht] at hfetch
      rw [run_append hfetch]
      exact run_setTag (by rw [ExecState.tags_hold]; exact htags) hs.outside hb ha (Ne.symm hab)
        dst (ExecState.held_hold_self _ ha _)

theorem run_clear (dst : Reg) :
    ExecState.forget (run f ((Move.clear dst).code a b) st) = (Move.clear dst).inline f tags := by
  change ExecState.forget (run f (.moveImm a untainted :: InlineInstr.setTag b dst a) st) = _
  rw [run_cons (exec_moveImm f st ha untainted)]
  exact run_setTag (by rw [ExecState.tags_hold]; exact htags) hs.outside hb ha (Ne.symm hab) dst
    (ExecState.held_hold_self _ ha _)

theorem run_storeShadow (mem : MemRef) {t : Tag} (ht : st.held b = t.toUInt64) :
    ExecState.forget (run f (shadowOf a mem ++ [.storeByte a b]) st) =
      TagState.storeInline (mem.address f) t (tags.withSaved (mem.address f)) := by
  subst htags
  cases hc : st.tags.store.layout.covers (mem.address f) with
  | false =>
      have hrefusal : (st.tags.withSaved (mem.address f)).store.refusal? (mem.address f) =
          some (.invalidAddress (mem.address f)) :=
        if_neg (by rw [Bool.not_eq_true]; exact hc)
      rw [run_append_error (shadowOf_uncovered ha hc), TagState.storeInline, hrefusal]
      dsimp only [ExecState.forget]
      rw [ExecState.tags_hold, ExecState.tags_withSaved]
  | true =>
      have htags : ((st.withSaved (mem.address f)).hold a (st.tags.store.window.addressOf
          (st.tags.store.layout.granule (mem.address f)))).tags =
            st.tags.withSaved (mem.address f) := ExecState.tags_hold _ _ _
      have hslot : (st.tags.withSaved (mem.address f)).thread.slot .appAddress = mem.address f :=
        (ThreadContext.slot_setSlot _ _ _ _).trans (if_pos rfl)
      have hheld : ((st.withSaved (mem.address f)).hold a (st.tags.store.window.addressOf
          (st.tags.store.layout.granule (mem.address f)))).held b = t.toUInt64 := by
        rw [ExecState.held_hold_ne _ ha hab]
        exact ht
      rw [run_append (shadowOf_covered ha hc), run_singleton, exec_storeByte f _ a hb, hheld,
        UInt8.toUInt8_toUInt64]
      exact run_storeThrough htags hs.consistent ha hc hslot (ExecState.held_hold_self _ ha _) t

theorem run_store (src : Option Reg) (mem : MemRef) (i : Nat) :
    ExecState.forget (run f ((Move.store src mem i).code a b) st) =
      (Move.store src mem i).inline f tags := by
  have hinline : (Move.store src mem i).inline f tags =
      (TagState.reported (Rule.sourceTag src) >>= fun t =>
        TagState.saveAddress ((mem.word i).address f) >>= fun _ =>
          TagState.storeInline ((mem.word i).address f) t) tags := rfl
  rw [hinline, bind_apply]
  change ExecState.forget (run f (storeWord src (mem.word i) a b) st) = _
  rw [storeWord_eq]
  -- Without a source tag nothing is saved and nothing stored.
  rcases run_fetchSource (f := f) htags hs.outside hb src with
    ⟨t, hsource, hrun⟩ | ⟨e, st', hsource, hrun, htags'⟩
  case inr =>
    rw [hsource, run_append_error hrun]
    exact congrArg _ htags'
  have hmeaning : ∀ A, (TagState.saveAddress A >>= fun _ => TagState.storeInline A t) tags =
      TagState.storeInline A t (tags.withSaved A) := fun _ => rfl
  rw [hsource, run_append hrun]
  dsimp only
  rw [hmeaning]
  exact run_storeShadow (by rw [ExecState.tags_hold, htags]) hs ha hb hab _
    (ExecState.held_hold_self _ hb _)

theorem run_union (dst : Reg) (srcs : List Reg) :
    ExecState.forget (run f ((Move.union dst srcs).code a b) st) =
      (Move.union dst srcs).inline f tags := by
  have hinline : (Move.union dst srcs).inline f tags =
      (TagState.reported (Rule.unionTag untainted srcs) >>= fun t =>
        TagState.reported (TagState.setRegTag dst t)) tags :=
    congrFun (TagState.reported_bind _ _) tags
  rw [hinline, bind_apply]
  change ExecState.forget (run f (.moveImm a untainted ::
    (srcs.flatMap (fun r => InlineInstr.tagOf b r ++ [.or a b]) ++
      InlineInstr.setTag b dst a)) st) = _
  rw [run_cons (exec_moveImm f st ha untainted)]
  have htags' : (st.hold a (UInt8.toUInt64 untainted)).tags = tags := by
    rw [ExecState.tags_hold, htags]
  rcases run_collect (f := f) hs.outside ha hb hab srcs untainted htags'
      (ExecState.held_hold_self _ ha _) with
    ⟨t, st', hunion, hrun, htags'', hheld⟩ | ⟨e, st', hunion, hrun, htags''⟩
  case inl =>
    rw [hunion, run_append hrun]
    exact run_setTag htags'' hs.outside hb ha (Ne.symm hab) dst hheld
  case inr =>
    rw [hunion, run_append_error hrun]
    exact congrArg _ htags''

theorem run_code (m : Move) :
    ExecState.forget (run f (m.code a b) st) = m.inline f tags := by
  cases m with
  | load dst mem i => exact run_load htags hs ha hb hab dst mem i
  | store src mem i => exact run_store htags hs ha hb hab src mem i
  | copy dst src => exact run_copy htags hs ha hb hab dst src
  | clear dst => exact run_clear htags hs ha hb hab dst
  | union dst srcs => exact run_union htags hs ha hb hab dst srcs
  | block t =>
      change ExecState.forget (run f [.cleanCall t] st) =
        focus id (fun s _ => s) ExecError.apply (t.apply f) tags
      rw [run_singleton, exec_cleanCall, htags, focus]
      dsimp only [id]
      cases t.apply f tags <;> rfl

end Moves

theorem run_lowered {moves : List Move} {code : List InlineInstr} (h : Lowered moves code)
    {tags : TagState} (hs : tags.Sound) {st : ExecState} (htags : st.tags = tags) :
    ExecState.forget (run f code st) = moves.forM (Move.inline f) tags := by
  induction h generalizing tags st with
  | nil => exact congrArg _ htags
  | @cons m moves code a b ha hb hab _ ih =>
      have hm := run_code (f := f) htags hs ha hb hab m
      -- The move leaves a sound state behind, so the induction goes on.
      have hkept := m.preserves_inline hs.consistent f tags ⟨.refl, rfl, rfl⟩
      change _ = (m.inline f >>= fun _ => moves.forM (Move.inline f)) tags
      rw [bind_apply, ← hm]
      rw [← hm] at hkept
      cases hrun : run f (m.code a b) st with
      | error e st' =>
          rw [run_append_error hrun]
          rfl
      | ok _ st' =>
          rw [hrun] at hkept
          rw [run_append hrun]
          exact ih (hs.since hkept) rfl

/-- Lowered code ends as its moves do. Only the scratch registers are not seen in the moves. -/
theorem outcome_lowered {moves : List Move} {code : List InlineInstr} (h : Lowered moves code)
    {s : ExecState} (hs : s.tags.Sound) :
    outcome (moves.forM (Move.inline f)) s.tags =
      ((outcome (run f code) s).1, (outcome (run f code) s).2.tags) := by
  unfold outcome
  rw [← run_lowered h hs rfl]
  cases run f code s <;> rfl

end InlineInstr

end TaintFlow
