import TaintFlow.Proofs.Plan.Parallel

/-!
# Families of tags

Propagation makes no tags of its own: all that it writes is the clean tag, tags that it has read and
joins of these. Whatever family of tags has these closures, a state whose tags are all in the family
is propagated into states of the same kind.
-/

namespace TaintFlow

open TaintFlow.Action

/-- Tags among them the clean one, and with any two of them their join. -/
structure TagFamily where
  Mem : Tag → Prop
  untainted : Mem untainted
  union : ∀ t u, Mem t → Mem u → Mem (t ||| u)

instance : Membership Tag TagFamily :=
  ⟨TagFamily.Mem⟩

/-- The family of the clean tag alone. -/
def TagFamily.clean : TagFamily where
  Mem := (· = TaintFlow.untainted)
  untainted := rfl
  union := by
    rintro _ _ rfl rfl
    rfl

variable {F : TagFamily}

/-! ## Stores -/

namespace Store

variable {s : Store}

/-- Every tag of the store is in the family. -/
def Within (F : TagFamily) (s : Store) : Prop :=
  ∀ a t, s.tagOf a = .ok t → t ∈ F

theorem within_create {backend : Backend} {window : Window} {mapping : Mapping}
    (h : create backend window mapping = .ok s) : s.Within F := by
  intro a t ht
  rw [of_create_eq_ok h, tagOf_eq] at ht
  split at ht
  · cases ht
    rw [Memory.read_zero]
    exact F.untainted
  · contradiction

theorem Within.withTag (h : s.Within F) (a : Address) {t : Tag} (ht : t ∈ F) :
    (s.withTag a t).Within F := by
  intro b u hu
  rw [tagOf_eq, withTag_layout] at hu
  by_cases hb : s.layout.covers b = true
  · rw [if_pos hb] at hu
    have hread : s.bytes.read (s.layout.granule b) ∈ F := h b _ (by rw [tagOf_eq, if_pos hb])
    cases hu
    rw [Store.withTag, read_writeAt]
    split
    · exact ht
    -- Any other byte is the old one, unless a commit has cleared it.
    · rcases read_withRegion_eq_or_zero s (s.layout.regionAt a) (s.layout.granule b) with hr | hr
      · rwa [hr]
      · rw [hr]
        exact F.untainted
  · rw [if_neg hb] at hu
    contradiction

theorem preserves_within_setTag (a : Address) {t : Tag} (ht : t ∈ F) :
    Preserves (Within F) (fun _ => True) (setTag a t) := by
  intro s hs
  rw [setTag_eq]
  cases s.refusal? a with
  | some e => exact ⟨hs, trivial⟩
  | none => exact hs.withTag a ht

end Store

/-! ## Threads -/

namespace ThreadContext

/-- Every tag of the thread's registers is in the family. -/
def Within (F : TagFamily) (c : ThreadContext) : Prop :=
  ∀ r t, c.tagOf r = .ok t → t ∈ F

theorem within_new (address : Address) (tracksPc : Bool) :
    (ThreadContext.new address tracksPc).Within F := by
  intro r t h
  unfold tagOf RegisterBank.tagOf at h
  cases hr : (ThreadContext.new address tracksPc).bank.position r with
  | error e =>
      rw [hr] at h
      contradiction
  | ok i =>
      rw [hr] at h
      have ht : t = untainted := by
        cases h
        exact Vector.getElem_replicate i.isLt
      rw [ht]
      exact F.untainted

theorem Within.setTag {c d : ThreadContext} (h : c.Within F) {r : Reg} {t : Tag} (ht : t ∈ F)
    (hd : c.setTag r t = .ok d) : d.Within F := by
  intro q u hu
  rw [tagOf_of_setTag hd] at hu
  split at hu
  · cases hu
    exact ht
  · exact h q u hu

end ThreadContext

/-! ## Propagation -/

namespace TagState

/-- Every tag of the state is in the family. -/
structure Within (F : TagFamily) (s : TagState) : Prop where
  store : s.store.Within F
  thread : s.thread.Within F

theorem Within.matching (F : TagFamily) : Matching (Itself (· ∈ F)) (Itself (Within F)) where
  untainted := ⟨rfl, F.untainted⟩
  union := by
    rintro _ t _ u ⟨rfl, ht⟩ ⟨rfl, hu⟩
    exact ⟨rfl, F.union t u ht hu⟩
  tagOf := by
    rintro _ s ⟨rfl, hs⟩ a
    cases h : s.store.tagOf a with
    | ok t => exact ⟨rfl, hs.store a t h⟩
    | error e => exact rfl
  refusal? := by
    rintro _ s ⟨rfl, -⟩ a
    rfl
  tracksPc := by
    rintro _ s ⟨rfl, -⟩
    rfl
  regTag := by
    rintro _ s ⟨rfl, hs⟩ r
    cases h : s.thread.tagOf r with
    | ok t => exact ⟨rfl, hs.thread r t h⟩
    | error e => exact rfl
  withTag := by
    rintro _ s ⟨rfl, hs⟩ a _ t ⟨rfl, ht⟩ -
    exact ⟨rfl, hs.store.withTag a ht, hs.thread⟩
  withRegTag := by
    rintro _ s ⟨rfl, hs⟩ r _ t c c' ⟨rfl, ht⟩ hc hc'
    rw [hc] at hc'
    cases hc'
    exact ⟨rfl, hs.store, hs.thread.setTag ht hc⟩

end TagState

theorem Plan.preserves_within (f : RegFile) (p : Plan) :
    Preserves (TagState.Within F) (fun _ => True) (p.apply f) :=
  (p.simulates_apply (TagState.Within.matching F) f).preserves

end TaintFlow
