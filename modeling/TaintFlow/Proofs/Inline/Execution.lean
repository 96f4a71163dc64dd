import TaintFlow.Inline.Exec
import TaintFlow.Proofs.Fault.Recovery
import TaintFlow.Proofs.Plan.Transfers

/-!
# Inline code, one instruction at a time

Each instruction of inline code is described by one equation over the values that the scratch
registers hold. On a consistent store a store that faults is recovered or fails in the recovery: the
repeated store does not fault again.
-/

namespace TaintFlow

open TaintFlow.Action

def ExecError.cause? : ExecError → Option ShadowError
  | .shadow e => some e
  | .fault e => e.cause?
  | .apply e => e.cause?
  | _ => none

/-- The executor has the register. -/
abbrev Scratch.Valid (s : Scratch) : Prop :=
  s.id.toNat < Scratch.count

namespace Store

/-- The store after the fault on a shared region was recovered for a thread. -/
def recovered (s : Store) (thread : ThreadContext) : Store :=
  s.withRegion (s.layout.regionAt (thread.slot .appAddress))

/-- The shadow address of the application address that a thread has saved. -/
def savedShadow (s : Store) (thread : ThreadContext) : Address :=
  s.window.addressOf (s.layout.granule (thread.slot .appAddress))

end Store

namespace ExecState

def held (st : ExecState) (s : Scratch) : Address :=
  if h : s.Valid then st.scratch[s.id.toNat] else 0

def hold (st : ExecState) (s : Scratch) (a : Address) : ExecState :=
  if h : s.Valid then { st with scratch := st.scratch.set s.id.toNat a h } else st

def withTags (st : ExecState) (tags : TagState) : ExecState :=
  { st with tags }

def withStore (st : ExecState) (store : Store) : ExecState :=
  st.withTags { st.tags with store }

def withThread (st : ExecState) (thread : ThreadContext) : ExecState :=
  st.withTags { st.tags with thread }

@[simp] theorem tags_hold (st : ExecState) (s : Scratch) (a : Address) :
    (st.hold s a).tags = st.tags := by
  unfold hold
  split <;> rfl

@[simp] theorem tags_withTags (st : ExecState) (tags : TagState) :
    (st.withTags tags).tags = tags := rfl

@[simp] theorem tags_withStore (st : ExecState) (store : Store) :
    (st.withStore store).tags = { st.tags with store } := rfl

@[simp] theorem withStore_withStore (st : ExecState) (store store' : Store) :
    (st.withStore store).withStore store' = st.withStore store' := rfl

theorem hold_hold (st : ExecState) (s : Scratch) (a b : Address) :
    (st.hold s a).hold s b = st.hold s b := by
  unfold hold
  split
  · simp
  · rfl

theorem withTags_hold (st : ExecState) (s : Scratch) (a : Address) (tags : TagState) :
    (st.hold s a).withTags tags = (st.withTags tags).hold s a := by
  unfold hold
  split <;> rfl

theorem withStore_hold (st : ExecState) (s : Scratch) (a : Address) (store : Store) :
    (st.hold s a).withStore store = (st.withStore store).hold s a := by
  unfold hold
  split <;> rfl

theorem held_hold (st : ExecState) {s : Scratch} (hs : s.Valid) (a : Address) (r : Scratch) :
    (st.hold s a).held r = if s = r then a else st.held r := by
  have hid : s.id.toNat = r.id.toNat ↔ s = r := by
    cases s
    cases r
    simp [UInt8.toNat_inj]
  rw [hold, dif_pos hs, held, held]
  by_cases hr : r.Valid
  · rw [dif_pos hr, dif_pos hr]
    rw [Vector.getElem_set]
    simp only [hid]
  · have hne : s ≠ r := fun h => hr (h ▸ hs)
    rw [dif_neg hr, dif_neg hr, if_neg hne]

@[simp] theorem held_hold_self (st : ExecState) {s : Scratch} (hs : s.Valid) (a : Address) :
    (st.hold s a).held s = a := by
  rw [held_hold st hs, if_pos rfl]

theorem held_hold_ne (st : ExecState) {s r : Scratch} (hs : s.Valid) (h : s ≠ r) (a : Address) :
    (st.hold s a).held r = st.held r := by
  rw [held_hold st hs, if_neg h]

end ExecState

namespace Exec

theorem value_eq (s : Scratch) (st : ExecState) :
    value s st = if s.Valid then .ok (st.held s) st else .error (.noSuchScratch s) st := by
  unfold value ExecState.held
  by_cases h : s.Valid
  · rw [dif_pos h, if_pos h, dif_pos h]
    rfl
  · rw [dif_neg h, if_neg h]
    rfl

theorem setValue_eq (s : Scratch) (a : Address) (st : ExecState) :
    setValue s a st =
      if s.Valid then .ok () (st.hold s a) else .error (.noSuchScratch s) st := by
  unfold setValue ExecState.hold
  by_cases h : s.Valid
  · rw [dif_pos h, if_pos h, dif_pos h]
    rfl
  · rw [dif_neg h, if_neg h]
    rfl

theorem store_bind {α : Type} (next : Store → Exec α) (st : ExecState) :
    (store >>= next) st = next st.tags.store st := rfl

theorem thread_bind {α : Type} (next : ThreadContext → Exec α) (st : ExecState) :
    (thread >>= next) st = next st.tags.thread st := rfl

theorem byteAt_eq (a : Address) (st : ExecState) :
    byteAt a st =
      match st.tags.store.byteAt? a with
      | some t => .ok t st
      | none =>
        match st.tags.thread.regAt? a with
        | none => .error (.wildAccess a) st
        | some r =>
          match st.tags.thread.tagOf r with
          | .ok t => .ok t st
          | .error e => .error (.register e) st := by
  unfold byteAt
  rw [store_bind]
  cases st.tags.store.byteAt? a with
  | some t => rfl
  | none =>
      dsimp only
      rw [thread_bind]
      cases st.tags.thread.regAt? a with
      | none => rfl
      | some r =>
          dsimp only
          cases st.tags.thread.tagOf r <;> rfl

theorem setBankByte_eq (a : Address) (t : Tag) (st : ExecState) :
    setBankByte a t st =
      match st.tags.thread.regAt? a with
      | none => .error (.wildAccess a) st
      | some r =>
        match st.tags.thread.setTag r t with
        | .ok thread => .ok () (st.withThread thread)
        | .error e => .error (.register e) st := by
  unfold setBankByte
  rw [thread_bind]
  cases st.tags.thread.regAt? a with
  | none => rfl
  | some r =>
      dsimp only
      rw [thread_bind, bind_apply]
      cases st.tags.thread.setTag r t <;> rfl

theorem recover_eq {s : Scratch} (hs : s.Valid) (a : Address) (st : ExecState)
    (h : st.tags.store.pageKind a = some .shared) :
    recover s a st =
      match st.tags.store.refusal? (st.tags.thread.slot .appAddress) with
      | some e => .error (.fault (.shadow e)) st
      | none =>
        if (st.tags.store.recovered st.tags.thread).pageKind a = some .owned then
          .ok () ((st.withStore (st.tags.store.recovered st.tags.thread)).hold s
            (st.tags.store.savedShadow st.tags.thread))
        else
          .error (.fault (.slotMismatch a (st.tags.thread.slot .appAddress)))
            (st.withStore (st.tags.store.recovered st.tags.thread)) := by
  unfold recover
  dsimp only
  rw [thread_bind, bind_apply, focus, recoverFault_shared _ _ _ h]
  cases hr : st.tags.store.refusal? (st.tags.thread.slot .appAddress) with
  | some e => rfl
  | none =>
      dsimp only
      rw [dif_pos hs]
      unfold Store.recovered Store.savedShadow
      by_cases ho : (st.tags.store.withRegion
          (st.tags.store.layout.regionAt (st.tags.thread.slot .appAddress))).pageKind a =
            some .owned
      · rw [if_pos ho, if_pos ho, ExecState.hold, dif_pos hs]
        rfl
      · rw [if_neg ho, if_neg ho]
        rfl

/-- Store a byte at an address; `onShared` is what happens if the store faults. -/
def storeAt (a : Address) (t : Tag) (onShared : Exec Unit) : Exec Unit := do
  match (← store).pageKind a with
  | some .owned => setStore ((← store).pokeByte a t)
  | none => setBankByte a t
  | some .shared => onShared

theorem storeAt_eq (a : Address) (t : Tag) (onShared : Exec Unit) (st : ExecState) :
    storeAt a t onShared st =
      match st.tags.store.pageKind a with
      | some .owned => .ok () (st.withStore (st.tags.store.pokeByte a t))
      | none => setBankByte a t st
      | some .shared => onShared st := by
  have h : storeAt a t onShared st = (match st.tags.store.pageKind a with
    | some .owned => store >>= fun store => setStore (store.pokeByte a t)
    | none => setBankByte a t
    | some .shared => onShared : Exec Unit) st := rfl
  rw [h]
  cases st.tags.store.pageKind a with
  | none => rfl
  | some kind => cases kind <;> rfl

/-- A store that faults is repeated once. -/
theorem storeThrough_eq (s : Scratch) (t : Tag) :
    storeThrough s t = (value s >>= fun a => storeAt a t
      (recover s a >>= fun _ => value s >>= fun a => storeAt a t (throw (.unrecoverable a)))) :=
  rfl

theorem storeThrough_invalid {s : Scratch} (hs : ¬ s.Valid) (t : Tag) (st : ExecState) :
    storeThrough s t st = .error (.noSuchScratch s) st := by
  rw [storeThrough_eq, bind_apply, value_eq, if_neg hs]

theorem storeThrough_owned {s : Scratch} (hs : s.Valid) (t : Tag) {st : ExecState}
    (h : st.tags.store.pageKind (st.held s) = some .owned) :
    storeThrough s t st = .ok () (st.withStore (st.tags.store.pokeByte (st.held s) t)) := by
  rw [storeThrough_eq, bind_apply, value_eq, if_pos hs]
  dsimp only
  rw [storeAt_eq, h]

theorem storeThrough_outside {s : Scratch} (hs : s.Valid) (t : Tag) {st : ExecState}
    (h : st.tags.store.pageKind (st.held s) = none) :
    storeThrough s t st = setBankByte (st.held s) t st := by
  rw [storeThrough_eq, bind_apply, value_eq, if_pos hs]
  dsimp only
  rw [storeAt_eq, h]

theorem storeThrough_faulted {s : Scratch} (hs : s.Valid) (t : Tag) {st : ExecState}
    (h : st.tags.store.pageKind (st.held s) = some .shared) :
    storeThrough s t st = (recover s (st.held s) >>= fun _ =>
      value s >>= fun a => storeAt a t (throw (.unrecoverable a))) st := by
  rw [storeThrough_eq, bind_apply, value_eq, if_pos hs]
  dsimp only
  rw [storeAt_eq, h]

theorem storeThrough_shared {s : Scratch} (hs : s.Valid) (t : Tag) {st : ExecState}
    (hc : st.tags.store.Consistent)
    (h : st.tags.store.pageKind (st.held s) = some .shared) :
    storeThrough s t st =
      match st.tags.store.refusal? (st.tags.thread.slot .appAddress) with
      | some e => .error (.fault (.shadow e)) st
      | none =>
        if (st.tags.store.recovered st.tags.thread).pageKind (st.held s) = some .owned then
          .ok () ((st.withStore (st.tags.store.withTag (st.tags.thread.slot .appAddress) t)).hold s
            (st.tags.store.savedShadow st.tags.thread))
        else
          .error (.fault (.slotMismatch (st.held s) (st.tags.thread.slot .appAddress)))
            (st.withStore (st.tags.store.recovered st.tags.thread)) := by
  rw [storeThrough_faulted hs t h, bind_apply, recover_eq hs _ st h]
  cases hr : st.tags.store.refusal? (st.tags.thread.slot .appAddress) with
  | some e => rfl
  | none =>
      dsimp only
      by_cases ho : (st.tags.store.recovered st.tags.thread).pageKind (st.held s) = some .owned
      · rw [if_pos ho, if_pos ho]
        dsimp only
        -- The register now points into the region that has just become writable.
        rw [bind_apply, value_eq, if_pos hs]
        dsimp only
        have hc' := Store.covers_of_refusal? hr
        have hk : (st.tags.store.recovered st.tags.thread).pageKind
            (st.tags.store.savedShadow st.tags.thread) = some .owned :=
          Store.pageKind_withRegion hc hc'
        have hp : (st.tags.store.recovered st.tags.thread).pokeByte
            (st.tags.store.savedShadow st.tags.thread) t =
              st.tags.store.withTag (st.tags.thread.slot .appAddress) t :=
          Store.pokeByte_withRegion hc' t
        rw [ExecState.held_hold_self _ hs, storeAt_eq, ExecState.tags_hold,
          ExecState.tags_withStore]
        dsimp only
        rw [hk]
        dsimp only
        rw [hp, ExecState.withStore_hold, ExecState.withStore_withStore]
      · rw [if_neg ho, if_neg ho]

end Exec

/-! ## One instruction -/

namespace InlineInstr

variable (f : RegFile) (st : ExecState)

theorem exec_loadAddress {dst : Scratch} (hd : dst.Valid) (mem : MemRef) :
    (loadAddress dst mem).exec f st = .ok () (st.hold dst (mem.address f)) := by
  change Exec.setValue dst _ st = _
  rw [Exec.setValue_eq, if_pos hd]

theorem exec_saveSlot {src : Scratch} (hs : src.Valid) (slot : SpillSlot) :
    (saveSlot src slot).exec f st =
      .ok () (st.withThread (st.tags.thread.setSlot slot (st.held src))) := by
  change (Exec.value src >>= _) st = _
  rw [bind_apply, Exec.value_eq, if_pos hs]
  rfl

theorem exec_appToShadow {reg : Scratch} (hr : reg.Valid) :
    (appToShadow reg).exec f st =
      match st.tags.store.translate (st.held reg) with
      | .ok shadow => .ok () (st.hold reg shadow)
      | .error e => .error (.shadow e) st := by
  have h : (appToShadow reg).exec f st = (Exec.value reg >>= fun a => Exec.store >>= fun s =>
      lift ExecError.shadow (s.translate a) >>= Exec.setValue reg : Exec Unit) st := rfl
  rw [h, bind_apply, Exec.value_eq, if_pos hr]
  change (lift ExecError.shadow (st.tags.store.translate (st.held reg)) >>= Exec.setValue reg :
    Exec Unit) st = _
  rw [bind_apply]
  cases st.tags.store.translate (st.held reg) with
  | error e => rfl
  | ok shadow =>
      change Exec.setValue reg shadow st = _
      rw [Exec.setValue_eq, if_pos hr]

theorem exec_regToShadow {dst : Scratch} (hd : dst.Valid) (reg : Reg) :
    (regToShadow dst reg).exec f st =
      match st.tags.thread.tagAddress reg with
      | .ok a => .ok () (st.hold dst a)
      | .error e => .error (.register e) st := by
  have h : (regToShadow dst reg).exec f st =
      (lift ExecError.register (st.tags.thread.tagAddress reg) >>= Exec.setValue dst : Exec Unit)
        st := rfl
  rw [h, bind_apply]
  cases st.tags.thread.tagAddress reg with
  | error e => rfl
  | ok a =>
      change Exec.setValue dst a st = _
      rw [Exec.setValue_eq, if_pos hd]

theorem exec_loadByte {dst addr : Scratch} (hd : dst.Valid) (ha : addr.Valid) :
    (loadByte dst addr).exec f st =
      match Exec.byteAt (st.held addr) st with
      | .ok t st' => .ok () (st'.hold dst t.toUInt64)
      | .error e st' => .error e st' := by
  have h : (loadByte dst addr).exec f st = (Exec.value addr >>= fun a =>
      Exec.byteAt a >>= fun t => Exec.setValue dst t.toUInt64) st := rfl
  rw [h, bind_apply, Exec.value_eq, if_pos ha]
  dsimp only
  rw [bind_apply]
  cases Exec.byteAt (st.held addr) st with
  | error e st' => rfl
  | ok t st' =>
      dsimp only
      rw [Exec.setValue_eq, if_pos hd]

theorem exec_storeByte (addr : Scratch) {src : Scratch} (hs : src.Valid) :
    (storeByte addr src).exec f st = Exec.storeThrough addr (st.held src).toUInt8 st := by
  change (Exec.value src >>= fun a => Exec.storeThrough addr a.toUInt8) st = _
  rw [bind_apply, Exec.value_eq, if_pos hs]

theorem exec_moveImm {dst : Scratch} (hd : dst.Valid) (imm : Tag) :
    (moveImm dst imm).exec f st = .ok () (st.hold dst imm.toUInt64) := by
  change Exec.setValue dst _ st = _
  rw [Exec.setValue_eq, if_pos hd]

theorem exec_or {dst src : Scratch} (hd : dst.Valid) (hs : src.Valid) :
    (InlineInstr.or dst src).exec f st = .ok () (st.hold dst (st.held dst ||| st.held src)) := by
  have h : (InlineInstr.or dst src).exec f st = (Exec.value dst >>= fun a =>
      Exec.value src >>= fun b => Exec.setValue dst (a ||| b)) st := rfl
  rw [h, bind_apply, Exec.value_eq, if_pos hd]
  dsimp only
  rw [bind_apply, Exec.value_eq, if_pos hs]
  dsimp only
  rw [Exec.setValue_eq, if_pos hd]

theorem exec_cleanCall (t : BlockTransfer) :
    (cleanCall t).exec f st =
      match t.apply f st.tags with
      | .ok _ tags => .ok () (st.withTags tags)
      | .error e tags => .error (.apply e) (st.withTags tags) := by
  have h : (cleanCall t).exec f st =
      focus ExecState.tags (fun tags st => { st with tags }) .apply (t.apply f) st := rfl
  rw [h, focus]
  cases t.apply f st.tags <;> rfl

end InlineInstr

/-! ## Inline code and the store -/

namespace Exec

def Since (s₀ : TagState) (st : ExecState) : Prop :=
  s₀.Since st.tags

/-- How code fails that has started from `s₀`: not because of the records of the store, not because
a fault is still there after its recovery, and on an address outside the shadow and the bank
only. -/
structure Failure (s₀ : TagState) (e : ExecError) : Prop where
  ordinary : Ordinary e.cause?
  recovered : ∀ a, e ≠ .unrecoverable a
  wild : ∀ a, e = .wildAccess a →
    s₀.store.window.locate? a = none ∧ s₀.thread.regAt? a = none

variable {s₀ : TagState}

/-- The shadow and the bank stay where they are. -/
theorem Since.failure_wild {st : ExecState} (hst : Since s₀ st) {a : Address}
    (hshadow : st.tags.store.window.locate? a = none) (hbank : st.tags.thread.regAt? a = none) :
    Failure s₀ (.wildAccess a) := by
  refine ⟨ordinary_none, nofun, fun b hb => ?_⟩
  cases hb
  rw [hst.store.window] at hshadow
  rw [ThreadContext.regAt?, hst.address] at hbank
  exact ⟨hshadow, hbank⟩

theorem Failure.noSuchScratch (s : Scratch) : Failure s₀ (.noSuchScratch s) :=
  ⟨ordinary_none, nofun, nofun⟩

theorem Failure.register (e : RegisterError) : Failure s₀ (.register e) :=
  ⟨ordinary_none, nofun, nofun⟩

theorem preserves_value (s : Scratch) :
    Preserves (Since s₀) (Failure s₀) (value s) := by
  intro st hst
  rw [value_eq]
  split
  · rename_i heq
    split at heq <;> cases heq
    exact hst
  · rename_i heq
    split at heq <;> cases heq
    exact ⟨hst, .noSuchScratch s⟩

theorem preserves_store : Preserves (Since s₀) (Failure s₀) store :=
  fun _ hst => hst

theorem preserves_thread : Preserves (Since s₀) (Failure s₀) thread :=
  fun _ hst => hst

theorem preserves_setValue (s : Scratch) (a : Address) :
    Preserves (Since s₀) (Failure s₀) (setValue s a) := by
  intro st hst
  rw [setValue_eq]
  by_cases hs : s.Valid
  · rw [if_pos hs]
    dsimp only [Since]
    rw [ExecState.tags_hold]
    exact hst
  · rw [if_neg hs]
    exact ⟨hst, .noSuchScratch s⟩

theorem preserves_byteAt (a : Address) :
    Preserves (Since s₀) (Failure s₀) (byteAt a) := by
  intro st hst
  rw [byteAt_eq]
  cases hbyte : st.tags.store.byteAt? a with
  | some t => exact hst
  | none =>
      cases hbank : st.tags.thread.regAt? a with
      | none => exact ⟨hst, hst.failure_wild (Option.map_eq_none_iff.mp hbyte) hbank⟩
      | some r =>
          dsimp only
          cases st.tags.thread.tagOf r with
          | ok t => exact hst
          | error e => exact ⟨hst, .register e⟩

theorem preserves_setBankByte {a : Address} (hshadow : s₀.store.window.locate? a = none) (t : Tag) :
    Preserves (Since s₀) (Failure s₀) (setBankByte a t) := by
  intro st hst
  rw [← hst.store.window] at hshadow
  rw [setBankByte_eq]
  cases hbank : st.tags.thread.regAt? a with
  | none => exact ⟨hst, hst.failure_wild hshadow hbank⟩
  | some r =>
      dsimp only
      cases ht : st.tags.thread.setTag r t with
      | ok thread => exact TagState.Since.withThread hst ht
      | error e => exact ⟨hst, .register e⟩

theorem preserves_storeThrough (h₀ : s₀.store.Consistent) (s : Scratch) (t : Tag) :
    Preserves (Since s₀) (Failure s₀) (storeThrough s t) := by
  intro st hst
  have hc : st.tags.store.Consistent := hst.store.consistent h₀
  by_cases hs : s.Valid
  case neg =>
    rw [storeThrough_invalid hs]
    exact ⟨hst, .noSuchScratch s⟩
  cases hk : st.tags.store.pageKind (st.held s) with
  | none =>
      have hshadow := Option.map_eq_none_iff.mp hk
      rw [hst.store.window] at hshadow
      rw [storeThrough_outside hs t hk]
      exact preserves_setBankByte hshadow t st hst
  | some kind =>
      cases kind with
      | owned =>
          rw [storeThrough_owned hs t hk]
          exact hst.withStore (.single (Store.change_pokeByte hk t))
      | shared =>
          rw [storeThrough_shared hs t hc hk]
          cases hr : st.tags.store.refusal? (st.tags.thread.slot .appAddress) with
          | some e => exact ⟨hst, Store.ordinary_of_refusal? hr, nofun, nofun⟩
          | none =>
              have hcov := Store.covers_of_refusal? hr
              dsimp only
              by_cases ho : (st.tags.store.recovered st.tags.thread).pageKind (st.held s) =
                  some .owned
              · rw [if_pos ho]
                change Since s₀ (ExecState.hold _ _ _)
                rw [Since, ExecState.tags_hold]
                exact hst.withStore (Store.changed_withTag hc hcov t)
              -- The saved address was in another region, which is writable now nevertheless.
              · rw [if_neg ho]
                exact ⟨hst.withStore (.single (.region (Layout.regionAt_lt_regions hcov))),
                  ordinary_none, nofun, nofun⟩

end Exec

open Exec in
/-- Whatever the code is, it changes the store as the operations of the store do, and a store that
faults is not left without an answer. -/
theorem InlineInstr.preserves_exec {s₀ : TagState} (h₀ : s₀.store.Consistent) (f : RegFile)
    (i : InlineInstr) : Preserves (Since s₀) (Failure s₀) (i.exec f) := by
  cases i with
  | loadAddress dst mem => exact preserves_setValue dst _
  | saveSlot src slot =>
      exact preserves_bind (preserves_value src) fun _ =>
        preserves_modify fun _ h => ⟨h.store, h.address, h.tracksPc⟩
  | appToShadow reg =>
      apply preserves_bind (preserves_value reg)
      intro a
      apply preserves_bind preserves_store
      intro s
      have htranslate : ∀ e, s.translate a = .error e → Failure s₀ (.shadow e) := by
        intro e he
        rw [Store.translate_eq] at he
        exact ⟨Store.ordinary_of_checked he, nofun, nofun⟩
      exact preserves_bind (preserves_lift htranslate) fun _ => preserves_setValue reg _
  | regToShadow dst reg =>
      apply preserves_bind preserves_thread
      intro thread
      exact preserves_bind (preserves_lift fun e _ => .register e) fun _ =>
        preserves_setValue dst _
  | loadByte dst addr =>
      apply preserves_bind (preserves_value addr)
      intro a
      exact preserves_bind (preserves_byteAt a) fun _ => preserves_setValue dst _
  | storeByte addr src =>
      exact preserves_bind (preserves_value src) fun _ => preserves_storeThrough h₀ addr _
  | moveImm dst imm => exact preserves_setValue dst _
  | or dst src =>
      apply preserves_bind (preserves_value dst)
      intro a
      exact preserves_bind (preserves_value src) fun _ => preserves_setValue dst _
  | cleanCall t =>
      exact preserves_focus (BlockTransfer.preserves_apply h₀ t f) (fun _ h => h)
        (fun _ _ _ h => h) (fun _ h => ⟨h, nofun, nofun⟩)

end TaintFlow
