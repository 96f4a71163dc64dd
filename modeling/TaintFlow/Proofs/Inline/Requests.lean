import TaintFlow.Proofs.Inline.Meaning
import TaintFlow.Proofs.Plan.Selection
import TaintFlow.Proofs.Shadow.History
import TaintFlow.Proofs.Shadow.Mirrors

/-!
# Requested regions

A dense store notes the regions of the addresses that are passed to `setTag` or `materialize`.
Inline code passes addresses there only where it calls a block transfer, and then those of the words
that the transfer gets to.
-/

namespace TaintFlow

open TaintFlow.Action

def Access.requests (l : Layout) : Access → List Nat
  | .get _ => []
  | .set a _ => if l.covers a then [l.regionAt a] else []
  | .materialize a => if l.covers a then [l.regionAt a] else []

def BlockTransfer.stored (b : BlockTransfer) (f : RegFile) : List Address :=
  match b.kind with
  | .loadIncrement => []
  | .storeDecrement => b.transferred.map fun x => b.wordAddress (f.value b.base) x.1

/-- The regions that a block transfer asks memory for. It ends at the first word that is not
covered. -/
def BlockTransfer.requests (l : Layout) (f : RegFile) (b : BlockTransfer) : List Nat :=
  ((b.stored f).takeWhile l.covers).map l.regionAt

def Move.requests (l : Layout) (f : RegFile) : Move → List Nat
  | .block b => b.requests l f
  | _ => []

namespace InlineInstr

def requests (l : Layout) (f : RegFile) : InlineInstr → List Nat
  | .cleanCall b => b.requests l f
  | _ => []

/-- The regions that are asked memory for while code runs, up to where it fails. -/
def requested (f : RegFile) : List InlineInstr → ExecState → List Nat
  | [], _ => []
  | i :: code, st =>
    i.requests st.tags.store.layout f ++
      match i.exec f st with
      | .ok _ st' => requested f code st'
      | .error _ _ => []

variable {f : RegFile}

theorem requested_append (xs ys : List InlineInstr) (st : ExecState) :
    requested f (xs ++ ys) st =
      requested f xs st ++
        match run f xs st with
        | .ok _ st' => requested f ys st'
        | .error _ _ => [] := by
  induction xs generalizing st with
  | nil => rfl
  | cons i xs ih =>
      rw [List.cons_append, requested, requested, List.append_assoc]
      cases hi : i.exec f st with
      | error e st' =>
          rw [run_cons_error hi]
          rfl
      | ok _ st' =>
          rw [run_cons hi]
          exact congrArg _ (ih st')

theorem requested_quiet {code : List InlineInstr} (h : ∀ i ∈ code, ∀ l, i.requests l f = [])
    (st : ExecState) : requested f code st = [] := by
  induction code generalizing st with
  | nil => rfl
  | cons i code ih =>
      rw [requested, h i List.mem_cons_self, List.nil_append]
      cases i.exec f st with
      | error e st' => rfl
      | ok _ st' => exact ih (fun j hj => h j (List.mem_cons_of_mem i hj)) st'

/-- The code of a move asks for memory only where it calls a block transfer. -/
theorem requested_code (m : Move) (a b : Scratch) (st : ExecState) :
    requested f (m.code a b) st = m.requests st.tags.store.layout f := by
  cases m with
  | block t =>
      change t.requests st.tags.store.layout f ++ _ = _
      cases (InlineInstr.cleanCall t).exec f st <;> exact List.append_nil _
  | load dst mem i =>
      exact requested_quiet (by simp [Move.code, loadWord, shadowOf, setTag, requests]) st
  | store src mem i =>
      exact requested_quiet
        (by cases src <;> simp [Move.code, storeWord, shadowOf, tagOf, requests]) st
  | copy dst src =>
      exact requested_quiet (by simp [Move.code, copyTag, tagOf, setTag, requests]) st
  | clear dst =>
      exact requested_quiet (by simp [Move.code, clearTag, setTag, requests]) st
  | union dst srcs =>
      refine requested_quiet (fun i hi l => ?_) st
      simp only [Move.code, unionTags, tagOf, setTag, List.cons_append, List.nil_append,
        List.mem_cons, List.mem_append, List.mem_flatMap, List.not_mem_nil, or_false] at hi
      rcases hi with rfl | ⟨r, -, rfl | rfl | rfl⟩ | rfl | rfl <;> rfl

end InlineInstr

/-! ## What a dense store notes -/

namespace Store

/-- What the store marks is what it marked before, and `regions`. -/
def Noted (before : Store) (regions : List Nat) (after : Store) : Prop :=
  ∀ i, after.marks.contains i = true ↔ before.marks.contains i = true ∨ i ∈ regions

theorem Noted.of_marks_eq {s t : Store} (h : t.marks = s.marks) : Noted s [] t := by
  intro i
  rw [h]
  simp

theorem Noted.trans {s t u : Store} {xs ys : List Nat} (h : Noted s xs t) (h' : Noted t ys u) :
    Noted s (xs ++ ys) u := by
  intro i
  rw [h' i, h i, List.mem_append, or_assoc]

theorem Noted.withRegion {s : Store} (hs : s.Consistent) {a : Address}
    (hc : s.layout.covers a = true) :
    Noted s [s.layout.regionAt a] (s.withRegion (s.layout.regionAt a)) := by
  intro i
  rw [contains_withRegion hs (Layout.regionAt_lt_regions hc), Bool.or_eq_true, decide_eq_true_iff,
    List.mem_singleton, or_comm, eq_comm (a := i)]

theorem Noted.withTag {s : Store} (hs : s.Consistent) {a : Address}
    (hc : s.layout.covers a = true) (t : Tag) :
    Noted s [s.layout.regionAt a] (s.withTag a t) := by
  intro i
  rw [withTag_marks]
  exact Noted.withRegion hs hc i

end Store

open TagState

/-- A store of one register sets the tag of its word; reading the register cannot fail. -/
theorem BlockTransfer.transferOne_store {b : BlockTransfer} (hkind : b.kind = .storeDecrement)
    (s : TagState) (base : Address) (x : Nat × Reg) :
    ∃ u, b.transferOne base x.1 x.2 s = setMemTag (b.wordAddress base x.1) u s := by
  have hclean : ∃ u, regTagOrClean x.2 s = .ok u s := by
    unfold regTagOrClean
    rw [get_bind]
    by_cases hr : s.thread.tracks x.2 = true
    · obtain ⟨i, hi⟩ := RegisterBank.position_tracked hr
      rw [if_pos hr, regTag, ThreadContext.tagOf, RegisterBank.tagOf, hi]
      exact ⟨_, rfl⟩
    · rw [if_neg hr]
      exact ⟨_, rfl⟩
  obtain ⟨u, hu⟩ := hclean
  refine ⟨u, ?_⟩
  unfold transferOne
  rw [hkind]
  dsimp only
  rw [bind_ok hu]

theorem BlockTransfer.transferOne_dense {b : BlockTransfer} (hkind : b.kind = .storeDecrement)
    {s : TagState} (hdense : s.store.backend = .dense) (base : Address) (x : Nat × Reg) :
    ∃ u, b.transferOne base x.1 x.2 s =
      if s.store.layout.covers (b.wordAddress base x.1) then
        .ok () { s with store := s.store.withTag (b.wordAddress base x.1) u }
      else .error (.shadow (.invalidAddress (b.wordAddress base x.1))) s := by
  obtain ⟨u, hu⟩ := b.transferOne_store hkind s base x
  refine ⟨u, ?_⟩
  -- A dense store refuses no covered address.
  rw [hu, setMemTag, focus, Store.setTag_eq,
    Store.refusal?_willing (Store.refusesRegion_dense hdense)]
  cases s.store.layout.covers (b.wordAddress base x.1) <;> rfl

theorem BlockTransfer.noted_stores {b : BlockTransfer} (hkind : b.kind = .storeDecrement)
    (base : Address) (xs : List (Nat × Reg)) {s : TagState} (hs : s.store.Consistent)
    (hdense : s.store.backend = .dense) :
    Store.Noted s.store
      (((xs.map fun x => b.wordAddress base x.1).takeWhile s.store.layout.covers).map
        s.store.layout.regionAt)
      (outcome (xs.forM fun x => b.transferOne base x.1 x.2) s).2.store := by
  -- On the words; the first one that is not covered ends the transfer and the requests.
  induction xs generalizing s with
  | nil => exact .of_marks_eq rfl
  | cons x xs ih =>
      obtain ⟨u, hx⟩ := b.transferOne_dense hkind hdense base x
      rw [List.map_cons, List.takeWhile_cons]
      cases hc : s.store.layout.covers (b.wordAddress base x.1) with
      | false =>
          rw [hc] at hx
          have hrun : ((x :: xs).forM fun x => b.transferOne base x.1 x.2) s =
              .error (.shadow (.invalidAddress (b.wordAddress base x.1))) s := bind_error hx
          rw [outcome, hrun]
          exact .of_marks_eq rfl
      | true =>
          rw [hc] at hx
          have hrun : ((x :: xs).forM fun x => b.transferOne base x.1 x.2) s =
              (xs.forM fun x => b.transferOne base x.1 x.2)
                { s with store := s.store.withTag (b.wordAddress base x.1) u } := bind_ok hx
          have hrest := ih (s := { s with store := s.store.withTag _ u }) (hs.withTag hc u)
            ((Store.withTag_backend _ _ u).trans hdense)
          rw [Store.withTag_layout] at hrest
          rw [outcome, hrun]
          exact (Store.Noted.withTag hs hc u).trans hrest

theorem BlockTransfer.noted_apply (b : BlockTransfer) (f : RegFile) {s : TagState}
    (hs : s.store.Consistent) (hdense : s.store.backend = .dense) :
    Store.Noted s.store (b.requests s.store.layout f) (outcome (b.apply f) s).2.store := by
  cases hkind : b.kind with
  | storeDecrement =>
      have hrequests : b.requests s.store.layout f =
          ((b.transferred.map fun x => b.wordAddress (f.value b.base) x.1).takeWhile
            s.store.layout.covers).map s.store.layout.regionAt := by
        rw [requests, stored, hkind]
      rw [hrequests]
      exact b.noted_stores hkind _ b.transferred hs hdense
  | loadIncrement =>
      have hrequests : b.requests s.store.layout f = [] := by
        rw [requests, stored, hkind]
        rfl
      -- A load only reads the store.
      have hregisters : Keeps (fun s' => s'.store = s.store) (fun _ => True) (fun _ => True)
          (fun _ => False) (fun _ => True) :=
        { tracked := fun _ _ _ _ => trivial
          untracked := fun _ _ _ _ _ _ => trivial
          withThread := fun _ hs _ _ _ _ => hs
          uncovered := fun _ _ _ _ _ => trivial
          refused := fun _ _ _ _ _ _ => trivial
          withTag := fun _ _ _ _ hnone => hnone.elim }
      have hkeep : Preserves (fun s' => s'.store = s.store) (fun _ => True) (b.apply f) := by
        refine preserves_forM fun x _ => ?_
        unfold transferOne
        rw [hkind]
        apply preserves_bind preserves_get
        intro s'
        split
        · exact preserves_bind (hregisters.memTag trivial) fun t => hregisters.setRegTag trivial t
        · exact preserves_pure _
      rw [hrequests]
      exact .of_marks_eq (congrArg Store.marks (hkeep.state rfl))

theorem Move.preserves_touched {touched : RegionSet} (f : RegFile) {m : Move}
    (hm : ∀ b, m ≠ .block b) :
    Preserves (fun s => s.store.backing = .dense touched) (fun _ => True) (m.inline f) := by
  have hkeeps : KeepsInline (fun s => s.store.backing = .dense touched) (fun _ => True)
      (fun _ => True) (fun _ => True) :=
    { direct :=
        { tracked := fun _ _ _ _ => trivial
          untracked := fun _ _ _ _ _ _ => trivial
          withThread := fun _ hs _ _ _ _ => hs
          uncovered := fun _ _ _ _ _ => trivial
          refused := fun _ _ _ _ _ _ => trivial
          withTag := fun _ _ _ _ hnone => hnone.elim }
      withSaved := fun _ hs _ => hs
      refused := fun _ _ _ _ _ _ => trivial
      withInlineTag := by
        intro s hs a t _ _
        dsimp only
        rw [Store.withInlineTag, hs]
        exact hs }
  exact m.keeps_inline hkeeps f (fun _ _ => trivial) (fun _ _ => trivial) fun b hb =>
    absurd hb (hm b)

theorem Move.noted_inline (m : Move) (f : RegFile) {s : TagState} (hs : s.store.Consistent)
    (hdense : s.store.backend = .dense) :
    Store.Noted s.store (m.requests s.store.layout f) (outcome (m.inline f) s).2.store := by
  have hword : (∀ b, m ≠ .block b) → (outcome (m.inline f) s).2.store.marks = s.store.marks := by
    intro hm
    cases hb : s.store.backing with
    | lazy owned commits => simp [Store.backend, hb] at hdense
    | dense touched =>
        have hkeep := (Move.preserves_touched f hm).state (s := s) hb
        rw [Store.marks, hkeep, Store.marks, hb]
  cases m with
  | block b =>
      have hrun : (outcome ((Move.block b).inline f) s).2 = (outcome (b.apply f) s).2 := by
        dsimp only [Move.inline]
        unfold outcome focus
        dsimp only [id]
        cases b.apply f s <;> rfl
      rw [hrun]
      exact b.noted_apply f hs hdense
  | load dst mem i => exact .of_marks_eq (hword fun _ h => by cases h)
  | store src mem i => exact .of_marks_eq (hword fun _ h => by cases h)
  | copy dst src => exact .of_marks_eq (hword fun _ h => by cases h)
  | clear dst => exact .of_marks_eq (hword fun _ h => by cases h)
  | union dst srcs => exact .of_marks_eq (hword fun _ h => by cases h)

/-- A dense store notes the regions that lowered code asks memory for, and no others. -/
theorem InlineInstr.noted_run {f : RegFile} {moves : List Move} {code : List InlineInstr}
    (h : Lowered moves code) {st : ExecState} (hs : st.tags.Sound)
    (hdense : st.tags.store.backend = .dense) :
    Store.Noted st.tags.store (requested f code st) (outcome (run f code) st).2.tags.store := by
  induction h generalizing st with
  | nil => exact .of_marks_eq rfl
  | @cons m moves code a b ha hb hab _ ih =>
      -- The requests are those of the code, the notes are followed through its meaning.
      have hm := run_code (f := f) rfl hs ha hb hab m
      have hkept := m.preserves_inline hs.consistent f st.tags ⟨.refl, rfl, rfl⟩
      have hnoted := m.noted_inline f hs.consistent hdense
      rw [requested_append, requested_code]
      rw [← hm] at hkept
      unfold outcome at hnoted ⊢
      rw [← hm] at hnoted
      cases hrun : run f (m.code a b) st with
      | error e st' =>
          rw [hrun] at hnoted
          rw [run_append_error hrun, List.append_nil]
          exact hnoted
      | ok _ st' =>
          rw [hrun] at hkept hnoted
          rw [run_append hrun]
          have hdense' : st'.tags.store.backend = .dense :=
            hkept.store.backend.trans hdense
          exact hnoted.trans (ih (hs.since hkept) hdense')

end TaintFlow
