import Mathlib.Logic.Relation
import TaintFlow.Proofs.Actions
import TaintFlow.Proofs.Shadow.Consistency

/-!
# What becomes of a store

Whatever runs against a store changes it in two ways only: a region is given writable memory, and a
byte of a region that has writable memory is written. The operating system may answer differently
at any time. What these changes keep is kept by every operation.
-/

namespace TaintFlow

/-- Not the error that only a store with inconsistent records reports. -/
def Ordinary (cause : Option ShadowError) : Prop :=
  ∀ base, cause ≠ some (.committedTwice base)

theorem ordinary_none : Ordinary none := fun _ => nofun

namespace Store

/-- One change of a store. -/
inductive Change (s : Store) : Store → Prop where
  | region {i : Nat} (hi : i < s.layout.regions) : Change s (s.withRegion i)
  | byte {o : Nat} (hin : o < s.layout.shadowLength)
      (howned : s.regionKind (s.layout.regionOf o) = .owned) (t : Tag) : Change s (s.writeAt o t)
  | system (m : Mapping) : Change s (s.under m)

/-- What becomes of a store through changes. -/
abbrev Changed : Store → Store → Prop :=
  Relation.ReflTransGen Change

namespace Change

variable {s s' : Store}

theorem consistent (h : Change s s') (hs : s.Consistent) : s'.Consistent := by
  cases h with
  | region hi => exact hs.withRegion hi
  | byte hin howned t => exact hs.writeAt hin howned t
  | system m => exact hs.under m

theorem window (h : Change s s') : s'.window = s.window := by
  cases h with
  | region hi => exact withRegion_window _ _
  | byte hin howned t => rfl
  | system m => rfl

theorem backend (h : Change s s') : s'.backend = s.backend := by
  cases h with
  | region hi => exact withRegion_backend _ _
  | byte hin howned t => rfl
  | system m => rfl

theorem regionKind (h : Change s s') (hs : s.Consistent) {i : Nat}
    (howned : s.regionKind i = .owned) : s'.regionKind i = .owned := by
  cases h with
  | region hi =>
      rw [regionKind_withRegion hs hi, howned]
      exact ite_self _
  | byte hin _ t => exact howned
  | system m => exact howned

end Change

namespace Changed

variable {s s' : Store}

theorem consistent (h : Changed s s') (hs : s.Consistent) : s'.Consistent := by
  induction h with
  | refl => exact hs
  | tail _ hstep ih => exact hstep.consistent ih

theorem window (h : Changed s s') : s'.window = s.window := by
  induction h with
  | refl => rfl
  | tail _ hstep ih => rw [hstep.window, ih]

theorem layout (h : Changed s s') : s'.layout = s.layout := by
  rw [Store.layout, h.window, Store.layout]

theorem backend (h : Changed s s') : s'.backend = s.backend := by
  induction h with
  | refl => rfl
  | tail _ hstep ih => rw [hstep.backend, ih]

theorem regionKind (h : Changed s s') (hs : s.Consistent) {i : Nat}
    (howned : s.regionKind i = .owned) : s'.regionKind i = .owned := by
  induction h with
  | refl => exact howned
  | tail hbefore hstep ih => exact hstep.regionKind (Changed.consistent hbefore hs) ih

theorem pageKind (h : Changed s s') (hs : s.Consistent) {shadow : Address}
    (howned : s.pageKind shadow = some .owned) : s'.pageKind shadow = some .owned := by
  obtain ⟨o, ho, hkind⟩ := Option.map_eq_some_iff.mp howned
  rw [Store.pageKind, h.window, ho, Option.map_some, h.layout]
  exact congrArg some (h.regionKind hs hkind)

end Changed

/-! ## Operations of the store -/

theorem change_pokeByte {s : Store} {shadow : Address} (h : s.pageKind shadow = some .owned)
    (t : Tag) : Change s (s.pokeByte shadow t) := by
  obtain ⟨o, ho, howned⟩ := Option.map_eq_some_iff.mp h
  rw [pokeByte, ho]
  exact .byte (Window.of_locate?_eq_some ho).1 howned t

theorem changed_withTag {s : Store} (hs : s.Consistent) {a : Address}
    (hc : s.layout.covers a = true) (t : Tag) : Changed s (s.withTag a t) := by
  have hi := Layout.regionAt_lt_regions hc
  -- First the region, then the byte in it.
  refine .tail (.single (.region hi)) (.byte ?_ ?_ t)
  · rw [withRegion_layout]
    exact Layout.granule_lt_shadowLength hc
  · rw [withRegion_layout, regionKind_withRegion hs hi]
    exact if_pos rfl

/-- An operation that fails only on addresses outside the window. -/
theorem ordinary_of_checked {α : Type} {s : Store} {a : Address} {x : α} {e : ShadowError}
    (h : (if s.layout.covers a then .ok x else .error (.invalidAddress a) : Except ShadowError α) =
      .error e) : Ordinary (some e) := by
  intro base hbase
  split at h
  · cases h
  · cases h
    cases hbase

theorem ordinary_of_refusal? {s : Store} {a : Address} {e : ShadowError}
    (h : s.refusal? a = some e) : Ordinary (some e) := by
  intro base hbase
  rcases refusal?_cases h with ⟨he, -⟩ | ⟨he, -⟩ <;> rw [he] at hbase <;> cases hbase

variable {s₀ : Store}

theorem preserves_materialize (a : Address) :
    Action.Preserves (Changed s₀) (fun e => Ordinary (some e)) (materialize a) := by
  intro s hs
  rw [materialize_eq]
  cases hr : s.refusal? a with
  | some e => exact ⟨hs, ordinary_of_refusal? hr⟩
  | none => exact hs.tail (.region (Layout.regionAt_lt_regions (covers_of_refusal? hr)))

theorem preserves_setTag (h₀ : s₀.Consistent) (a : Address) (t : Tag) :
    Action.Preserves (Changed s₀) (fun e => Ordinary (some e)) (setTag a t) := by
  intro s hs
  rw [setTag_eq]
  cases hr : s.refusal? a with
  | some e => exact ⟨hs, ordinary_of_refusal? hr⟩
  | none => exact hs.trans (changed_withTag (hs.consistent h₀) (covers_of_refusal? hr) t)

end Store
end TaintFlow
