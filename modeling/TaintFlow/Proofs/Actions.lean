import TaintFlow.Action
import Mathlib.Tactic.Common

/-!
# Reasoning about actions

An action keeps what it did when it fails, so a property of actions has to speak about both ends.
`Action.Preserves` carries an invariant through one action, `Action.Simulates` relates two actions
that run side by side. Both are closed under the ways in which actions are built, so a property of a
whole program is shown on its primitive steps.
-/

namespace TaintFlow.Action

variable {σ τ ε ε' α β γ δ : Type}

/-! ## Running -/

theorem bind_apply (act : Action σ ε α) (next : α → Action σ ε β) (s : σ) :
    (act >>= next) s =
      match act s with
      | .ok a s' => next a s'
      | .error e s' => .error e s' := by
  change EStateM.bind act next s = _
  unfold EStateM.bind
  cases act s <;> rfl

theorem bind_ok {act : Action σ ε α} {next : α → Action σ ε β} {s s' : σ} {a : α}
    (h : act s = .ok a s') : (act >>= next) s = next a s' := by
  rw [bind_apply, h]

theorem bind_error {act : Action σ ε α} {next : α → Action σ ε β} {s s' : σ} {e : ε}
    (h : act s = .error e s') : (act >>= next) s = .error e s' := by
  rw [bind_apply, h]

theorem get_bind (next : σ → Action σ ε β) (s : σ) :
    ((get : Action σ ε σ) >>= next) s = next s s := rfl

theorem forM_append (act : β → Action σ ε Unit) (xs ys : List β) :
    (xs ++ ys).forM act = xs.forM act >>= fun _ => ys.forM act :=
  List.forM_append

theorem forM_flatMap (act : γ → Action σ ε Unit) (f : β → List γ) (xs : List β) :
    (xs.flatMap f).forM act = xs.forM fun x => (f x).forM act := by
  induction xs with
  | nil => rfl
  | cons x xs ih =>
      rw [List.flatMap_cons, forM_append, ih]
      rfl

theorem forM_map (act : γ → Action σ ε Unit) (f : β → γ) (xs : List β) :
    (xs.map f).forM act = xs.forM fun x => act (f x) := by
  induction xs with
  | nil => rfl
  | cons x xs ih =>
      rw [List.map_cons]
      change (act (f x) >>= fun _ => (xs.map f).forM act) = _
      rw [ih]
      rfl

theorem forM_singleton (act : β → Action σ ε Unit) (x : β) : [x].forM act = act x := by
  funext s
  change (act x >>= fun _ => pure ()) s = _
  rw [bind_apply]
  cases act x s <;> rfl

theorem forM_filter (act : β → Action σ ε Unit) (keep : β → Bool) (xs : List β) :
    (xs.filter keep).forM act = xs.forM fun x => if keep x then act x else pure () := by
  induction xs with
  | nil => rfl
  | cons x xs ih =>
      change _ = ((if keep x then act x else pure ()) >>= fun _ =>
        xs.forM fun x => if keep x then act x else pure ())
      rw [← ih]
      cases hx : keep x with
      | true =>
          rw [List.filter_cons_of_pos hx]
          rfl
      | false =>
          rw [List.filter_cons_of_neg (Bool.not_eq_true _ ▸ hx)]
          rfl

theorem forM_cons_eq_ok {act : β → Action σ ε Unit} {x : β} {xs : List β} {s s'' : σ} :
    (x :: xs).forM act s = .ok () s'' ↔
      ∃ s', act x s = .ok () s' ∧ xs.forM act s' = .ok () s'' := by
  change (act x >>= fun _ => xs.forM act) s = _ ↔ _
  rw [bind_apply]
  cases h : act x s with
  | ok _ s' => simp
  | error e s' => simp

theorem focus_id (act : Action σ ε α) : focus id (fun s _ => s) id act = act := by
  funext s
  unfold focus
  dsimp only [id]
  cases act s <;> rfl

theorem outcome_focus (part : τ → σ) (update : σ → τ → τ) (wrap : ε → ε') (act : Action σ ε α)
    (t : τ) :
    outcome (focus part update wrap act) t =
      ((outcome act (part t)).1.mapError wrap, update (outcome act (part t)).2 t) := by
  unfold outcome focus
  cases act (part t) <;> rfl

theorem outcome_closedBy_ok {act closing : Action σ ε Unit} {s s' : σ} (h : act s = .ok () s') :
    outcome (act.closedBy closing) s = outcome closing s' := by
  unfold outcome closedBy
  rw [h]

theorem outcome_closedBy_error {act closing : Action σ ε Unit} {s s' : σ} {e : ε}
    (h : act s = .error e s') :
    outcome (act.closedBy closing) s = (.error e, (outcome closing s').2) := by
  unfold outcome closedBy
  rw [h]
  dsimp only
  cases closing s' <;> rfl

theorem outcome_bind (act : Action σ ε α) (next : α → Action σ ε β) (s : σ) :
    outcome (act >>= next) s =
      match outcome act s with
      | (.ok a, s') => outcome (next a) s'
      | (.error e, s') => (.error e, s') := by
  unfold outcome
  rw [bind_apply]
  cases act s <;> rfl

theorem outcome_of_eq_ok {act : Action σ ε α} {s s' : σ} {a : α} (h : act s = .ok a s') :
    outcome act s = (.ok a, s') := by
  rw [outcome, h]

theorem eq_ok_of_outcome {act : Action σ ε α} {s : σ} {a : α} (h : (outcome act s).1 = .ok a) :
    act s = .ok a (outcome act s).2 := by
  unfold outcome at h ⊢
  cases hact : act s with
  | ok b s' =>
      rw [hact] at h
      cases h
      rfl
  | error e s' =>
      rw [hact] at h
      cases h

theorem outcome_map (act : Action σ ε α) (f : α → β) (s : σ) :
    outcome (act >>= fun a => pure (f a)) s = ((outcome act s).1.map f, (outcome act s).2) := by
  unfold outcome
  rw [bind_apply]
  cases act s <;> rfl

/-! ## Invariants -/

/-- The action keeps `I`, whether it fails or not, and fails only with what `E` allows. -/
def Preserves (I : σ → Prop) (E : ε → Prop) (act : Action σ ε α) : Prop :=
  ∀ s, I s →
    match act s with
    | .ok _ s' => I s'
    | .error e s' => I s' ∧ E e

section Preserves

variable {I : σ → Prop} {E : ε → Prop}

theorem preserves_pure (a : α) : Preserves I E (pure a : Action σ ε α) := fun _ hs => hs

theorem preserves_throw {e : ε} (he : E e) : Preserves I E (throw e : Action σ ε α) :=
  fun _ hs => ⟨hs, he⟩

theorem preserves_get : Preserves I E (get : Action σ ε σ) := fun _ hs => hs

theorem preserves_modify {f : σ → σ} (h : ∀ s, I s → I (f s)) :
    Preserves I E (modify f : Action σ ε PUnit) := h

theorem preserves_lift {wrap : ε' → ε} {x : Except ε' α} (h : ∀ e, x = .error e → E (wrap e)) :
    Preserves I E (lift wrap x : Action σ ε α) := by
  cases x with
  | ok a => exact preserves_pure a
  | error e => exact preserves_throw (h e rfl)

theorem preserves_bind {act : Action σ ε α} {next : α → Action σ ε β} (hact : Preserves I E act)
    (hnext : ∀ a, Preserves I E (next a)) : Preserves I E (act >>= next) := by
  intro s hs
  have h := hact s hs
  rw [bind_apply]
  -- If `act` fails, `next` does not run and the state is the one that `act` left.
  cases hr : act s with
  | ok a s' =>
      rw [hr] at h
      exact hnext a s' h
  | error e s' =>
      rw [hr] at h
      exact h

theorem preserves_forM {act : β → Action σ ε Unit} {xs : List β}
    (h : ∀ x ∈ xs, Preserves I E (act x)) : Preserves I E (xs.forM act) := by
  induction xs with
  | nil => exact preserves_pure ()
  | cons x xs ih =>
      apply preserves_bind (h x List.mem_cons_self)
      exact fun _ => ih fun y hy => h y (List.mem_cons_of_mem x hy)

theorem preserves_focus {J : τ → Prop} {E' : ε' → Prop} {part : τ → σ} {update : σ → τ → τ}
    {wrap : ε → ε'} {act : Action σ ε α} (hact : Preserves I E act) (hpart : ∀ t, J t → I (part t))
    (hupdate : ∀ t s, J t → I s → J (update s t)) (hwrap : ∀ e, E e → E' (wrap e)) :
    Preserves J E' (focus part update wrap act) := by
  intro t ht
  have h := hact (part t) (hpart t ht)
  unfold focus
  cases hr : act (part t) with
  | ok a s =>
      rw [hr] at h
      exact hupdate t s ht h
  | error e s =>
      rw [hr] at h
      exact ⟨hupdate t s ht h.1, hwrap e h.2⟩

theorem preserves_trivial (act : Action σ ε α) :
    Preserves (fun _ => True) (fun _ => True) act := by
  intro s _
  cases act s
  · trivial
  · exact ⟨trivial, trivial⟩

theorem preserves_undoneBy {act : Action σ ε α} {undo : Action σ ε Unit} (hact : Preserves I E act)
    (hundo : Preserves I E undo) : Preserves I E (act.undoneBy undo) := by
  intro s hs
  have h := hact s hs
  unfold undoneBy
  cases hr : act s with
  | ok a s' =>
      rw [hr] at h
      exact h
  | error e s' =>
      rw [hr] at h
      have hu := hundo s' h.1
      dsimp only
      cases hs' : undo s' with
      | ok a s'' =>
          rw [hs'] at hu
          exact ⟨hu, h.2⟩
      | error e' s'' =>
          rw [hs'] at hu
          exact hu

theorem preserves_closedBy {act closing : Action σ ε Unit} (hact : Preserves I E act)
    (hclosing : Preserves I E closing) : Preserves I E (act.closedBy closing) := by
  intro s hs
  have h := hact s hs
  unfold closedBy
  cases hr : act s with
  | ok a s' =>
      rw [hr] at h
      exact hclosing s' h
  | error e s' =>
      rw [hr] at h
      have hc := hclosing s' h.1
      dsimp only
      cases hs' : closing s' with
      | ok a s'' =>
          rw [hs'] at hc
          exact ⟨hc, h.2⟩
      | error e' s'' =>
          rw [hs'] at hc
          exact ⟨hc.1, h.2⟩

theorem Preserves.state {act : Action σ ε α} (h : Preserves I E act) {s : σ} (hs : I s) :
    I (outcome act s).2 := by
  have hr := h s hs
  unfold outcome
  cases ha : act s with
  | ok a s' => rw [ha] at hr; exact hr
  | error e s' => rw [ha] at hr; exact hr.1

theorem Preserves.failure {act : Action σ ε α} (h : Preserves I E act) {s : σ} (hs : I s) {e : ε}
    (he : (outcome act s).1 = .error e) : E e := by
  have hr := h s hs
  unfold outcome at he
  cases ha : act s with
  | ok a s' => rw [ha] at he; cases he
  | error e' s' =>
      rw [ha] at he hr
      cases he
      exact hr.2

end Preserves

/-! ## Simulation -/

/-- From states related by `R` both actions succeed, with results related by `V`, or both fail, with
failures related by `E`. Either way `R` relates the states they end in. -/
def Simulates (R : σ → τ → Prop) (V : α → β → Prop) (E : ε → ε' → Prop) (act : Action σ ε α)
    (act' : Action τ ε' β) : Prop :=
  ∀ s t, R s t →
    match act s, act' t with
    | .ok a s', .ok b t' => V a b ∧ R s' t'
    | .error e s', .error e' t' => E e e' ∧ R s' t'
    | _, _ => False

/-- Nothing is said about results. -/
def Any (_ : α) (_ : β) : Prop := True

/-- Results that `V` relates, or the same failure. -/
def Likewise (V : α → β → Prop) : Except ε α → Except ε β → Prop
  | .ok a, .ok b => V a b
  | .error e, .error e' => e = e'
  | _, _ => False

theorem Likewise.of_eq {x y : Except ε α} (h : x = y) : Likewise Eq x y := by
  subst h
  cases x <;> exact rfl

theorem Likewise.of_map {f : α → β} {x : Except ε α} {y : Except ε β} (h : y = x.map f) :
    Likewise (fun a b => b = f a) x y := by
  subst h
  cases x <;> exact rfl

section Simulates

variable {R : σ → τ → Prop} {V : α → β → Prop} {E : ε → ε' → Prop}

theorem simulates_pure {a : α} {b : β} (h : V a b) :
    Simulates R V E (pure a : Action σ ε α) (pure b : Action τ ε' β) :=
  fun _ _ hst => ⟨h, hst⟩

theorem simulates_refl (act : Action σ ε α) : Simulates Eq Eq Eq act act := by
  rintro s _ rfl
  cases act s <;> exact ⟨rfl, rfl⟩

theorem Simulates.imp {E' : ε → ε' → Prop} {act : Action σ ε α} {act' : Action τ ε' β}
    (h : Simulates R V E act act') (hE : ∀ e e', E e e' → E' e e') : Simulates R V E' act act' := by
  intro s t hst
  have hr := h s t hst
  cases hs : act s <;> cases ht : act' t <;> rw [hs, ht] at hr
  case error.error => exact ⟨hE _ _ hr.1, hr.2⟩
  all_goals exact hr

theorem simulates_bind {W : γ → δ → Prop} {act : Action σ ε α} {act' : Action τ ε' β}
    {next : α → Action σ ε γ} {next' : β → Action τ ε' δ} (hact : Simulates R V E act act')
    (hnext : ∀ a b, V a b → Simulates R W E (next a) (next' b)) :
    Simulates R W E (act >>= next) (act' >>= next') := by
  intro s t hst
  have h := hact s t hst
  rw [bind_apply, bind_apply]
  cases hs : act s <;> cases ht : act' t <;> rw [hs, ht] at h
  case ok.ok a s' b t' => exact hnext a b h.1 s' t' h.2
  case error.error => exact h
  -- One action succeeding while the other fails is what `hact` rules out.
  all_goals exact h.elim

theorem simulates_forM {act : γ → Action σ ε Unit} {act' : γ → Action τ ε' Unit} {xs : List γ}
    (h : ∀ x ∈ xs, Simulates R Any E (act x) (act' x)) :
    Simulates R Any E (xs.forM act) (xs.forM act') := by
  induction xs with
  | nil => exact simulates_pure trivial
  | cons x xs ih =>
      apply simulates_bind (h x List.mem_cons_self)
      exact fun _ _ _ => ih fun y hy => h y (List.mem_cons_of_mem x hy)

theorem simulates_focus {σ' τ' φ φ' : Type} {R' : σ' → τ' → Prop} {F : φ → φ' → Prop}
    {part : σ' → σ} {update : σ → σ' → σ'} {wrap : ε → φ} {part' : τ' → τ}
    {update' : τ → τ' → τ'} {wrap' : ε' → φ'} {act : Action σ ε α} {act' : Action τ ε' β}
    (hact : Simulates R V E act act') (hpart : ∀ s t, R' s t → R (part s) (part' t))
    (hupdate : ∀ s t p q, R' s t → R p q → R' (update p s) (update' q t))
    (hwrap : ∀ e e', E e e' → F (wrap e) (wrap' e')) :
    Simulates R' V F (focus part update wrap act) (focus part' update' wrap' act') := by
  intro s t hst
  have h := hact (part s) (part' t) (hpart s t hst)
  unfold focus
  cases hs : act (part s) <;> cases ht : act' (part' t) <;> rw [hs, ht] at h
  case ok.ok => exact ⟨h.1, hupdate s t _ _ hst h.2⟩
  case error.error => exact ⟨hwrap _ _ h.1, hupdate s t _ _ hst h.2⟩
  all_goals exact h.elim

theorem simulates_closedBy {act closing : Action σ ε Unit} {act' closing' : Action τ ε' Unit}
    (hact : Simulates R Any E act act') (hclosing : Simulates R Any E closing closing') :
    Simulates R Any E (act.closedBy closing) (act'.closedBy closing') := by
  intro s t hst
  have h := hact s t hst
  unfold closedBy
  cases hs : act s <;> cases ht : act' t <;> rw [hs, ht] at h
  case ok.ok => exact hclosing _ _ h.2
  case error.error e s' e' t' =>
    -- However the closing ends, the failure reported is that of the action.
    have hc := hclosing s' t' h.2
    dsimp only
    cases hs' : closing s' <;> cases ht' : closing' t' <;> rw [hs', ht'] at hc
    case ok.ok => exact ⟨h.1, hc.2⟩
    case error.error => exact ⟨h.1, hc.2⟩
    all_goals exact hc.elim
  all_goals exact h.elim

theorem simulates_undoneBy {act : Action σ ε α} {act' : Action τ ε' β} {undo : Action σ ε Unit}
    {undo' : Action τ ε' Unit} (hact : Simulates R V E act act')
    (hundo : Simulates R Any E undo undo') :
    Simulates R V E (act.undoneBy undo) (act'.undoneBy undo') := by
  intro s t hst
  have h := hact s t hst
  unfold undoneBy
  cases hs : act s <;> cases ht : act' t <;> rw [hs, ht] at h
  case ok.ok => exact h
  case error.error e s' e' t' =>
    -- A failure of the undoing is the one that is reported.
    have hu := hundo s' t' h.2
    dsimp only
    cases hs' : undo s' <;> cases ht' : undo' t' <;> rw [hs', ht'] at hu
    case ok.ok => exact ⟨h.1, hu.2⟩
    case error.error => exact hu
    all_goals exact hu.elim
  all_goals exact h.elim

theorem Simulates.outcome_eq {act : Action σ ε Unit} {act' : Action τ ε Unit}
    (h : Simulates R Any Eq act act') {s : σ} {t : τ} (hst : R s t) :
    (outcome act' t).1 = (outcome act s).1 ∧ R (outcome act s).2 (outcome act' t).2 := by
  have hr := h s t hst
  unfold outcome
  cases hs : act s <;> cases ht : act' t <;> rw [hs, ht] at hr
  case ok.ok => exact ⟨rfl, hr.2⟩
  case error.error => exact ⟨congrArg _ hr.1.symm, hr.2⟩
  all_goals exact hr.elim

/-- A state beside itself. -/
def Itself (I : σ → Prop) (s s' : σ) : Prop :=
  s' = s ∧ I s

/-- Running an action beside itself tells what one run of it keeps. -/
theorem Simulates.preserves {I : σ → Prop} {F : ε → ε → Prop} {W : α → α → Prop}
    {act : Action σ ε α} (h : Simulates (Itself I) W F act act) :
    Preserves I (fun _ => True) act := by
  intro s hs
  have hr := h s s ⟨rfl, hs⟩
  cases ha : act s <;> rw [ha] at hr
  · exact hr.2.2
  · exact ⟨hr.2.2, trivial⟩

end Simulates

/-! ## Runs -/

/-- Carry out an action for each element, in order. A failure tells the place of the element it came
from and ends the run. -/
def each (act : β → Action σ ε Unit) : Nat → List β → Action σ (Nat × ε) Unit
  | _, [] => pure ()
  | place, x :: xs => fun s =>
      match act x s with
      | .ok _ s' => each act (place + 1) xs s'
      | .error e s' => .error (place, e) s'

theorem forM_zipIdx_cons (f : Nat → β → Action σ ε Unit) (x : β) (xs : List β) :
    ((x :: xs).zipIdx.forM fun y => f y.2 y.1) =
      f 0 x >>= fun _ => xs.zipIdx.forM fun y => f (y.2 + 1) y.1 := by
  rw [List.zipIdx_cons, List.zipIdx_succ]
  change (f 0 x >>= fun _ => (xs.zipIdx.map _).forM _) = _
  rw [forM_map]

/-- The action takes `I` from one place to the next, or it fails where it is. -/
def Advances (I : Nat → σ → Prop) (F : Nat → ε → Prop) (k : Nat) (act : Action σ ε Unit) : Prop :=
  ∀ s, I k s →
    match act s with
    | .ok _ s' => I (k + 1) s'
    | .error e s' => I k s' ∧ F k e

theorem Advances.imp {I : Nat → σ → Prop} {F G : Nat → ε → Prop} {k : Nat}
    {act : Action σ ε Unit} (h : Advances I F k act) (hFG : ∀ e, F k e → G k e) :
    Advances I G k act := by
  intro s hs
  have hone := h s hs
  cases hact : act s with
  | ok _ s' =>
      rw [hact] at hone
      exact hone
  | error e s' =>
      rw [hact] at hone
      exact ⟨hone.1, hFG e hone.2⟩

/-- A run that advances from place to place ends behind the list or at a place that fails. -/
theorem forM_zipIdx_stops {I : Nat → σ → Prop} {F : Nat → ε → Prop}
    {f : Nat → β → Action σ ε Unit} {xs : List β}
    (hstep : ∀ k x, xs[k]? = some x → Advances I F k (f k x)) {s : σ} (hs : I 0 s) :
    let run := outcome (xs.zipIdx.forM fun x => f x.2 x.1) s
    ∃ stop ≤ xs.length, I stop run.2 ∧
      (run.1 = .ok () ∧ stop = xs.length ∨ ∃ e, run.1 = .error e ∧ F stop e) := by
  -- On the list; what follows the first place is a run with the places counted from one.
  induction xs generalizing I F f s with
  | nil => exact ⟨0, Nat.le_refl 0, hs, Or.inl ⟨rfl, rfl⟩⟩
  | cons x xs ih =>
      have hone := hstep 0 x rfl s hs
      rw [forM_zipIdx_cons]
      unfold outcome
      rw [bind_apply]
      cases hx : f 0 x s with
      | error e s' =>
          rw [hx] at hone
          exact ⟨0, Nat.zero_le _, hone.1, Or.inr ⟨e, rfl, hone.2⟩⟩
      | ok _ s' =>
          rw [hx] at hone
          obtain ⟨stop, hstop, hend, hresult⟩ := ih (I := fun k => I (k + 1))
            (F := fun k => F (k + 1)) (f := fun k => f (k + 1)) (fun k y hy => hstep (k + 1) y hy)
            hone
          exact ⟨stop + 1, Nat.succ_le_succ hstop, hend,
            hresult.imp_left fun h => ⟨h.1, congrArg (· + 1) h.2⟩⟩

/-- Wherever the run of a list gets to, `P` holds of the next element and the state. -/
def Along (P : β → σ → Prop) (act : β → Action σ ε Unit) : List β → σ → Prop
  | [], _ => True
  | x :: xs, s => P x s ∧ ∀ s', act x s = .ok () s' → Along P act xs s'

section Along

variable {P : β → σ → Prop} {act : β → Action σ ε Unit}

/-- What every state that the run gets to has makes for `P` all along. -/
theorem along_of_preserves {I : σ → Prop} {E : ε → Prop} {xs : List β} {s : σ}
    (hact : ∀ x ∈ xs, Preserves I E (act x)) (hP : ∀ x ∈ xs, ∀ s, I s → P x s) (hs : I s) :
    Along P act xs s := by
  induction xs generalizing s with
  | nil => trivial
  | cons x xs ih =>
      obtain ⟨hx, hact⟩ := List.forall_mem_cons.mp hact
      obtain ⟨hPx, hP⟩ := List.forall_mem_cons.mp hP
      refine ⟨hPx s hs, fun s' hrun => ih hact hP ?_⟩
      have hstep := hx s hs
      rw [hrun] at hstep
      exact hstep

theorem along_append {xs ys : List β} {s : σ} (hxs : Along P act xs s)
    (hys : ∀ s', xs.forM act s = .ok () s' → Along P act ys s') : Along P act (xs ++ ys) s := by
  induction xs generalizing s with
  | nil => exact hys s rfl
  | cons x xs ih =>
      refine ⟨hxs.1, fun s' hx => ih (hxs.2 s' hx) fun s'' hrun => hys s'' ?_⟩
      exact forM_cons_eq_ok.mpr ⟨s', hx, hrun⟩

theorem along_map {Q : γ → σ → Prop} {step : γ → Action σ ε Unit} (f : β → γ)
    (hact : ∀ x, step (f x) = act x) (hP : ∀ x s, P x s → Q (f x) s) {xs : List β} {s : σ}
    (h : Along P act xs s) : Along Q step (xs.map f) s := by
  induction xs generalizing s with
  | nil => trivial
  | cons x xs ih =>
      refine ⟨hP x s h.1, fun s' hx => ih (h.2 s' ?_)⟩
      rw [← hact]
      exact hx

end Along

theorem simulates_each {R : σ → τ → Prop} {E : ε → ε' → Prop} {act : γ → Action σ ε Unit}
    {act' : γ → Action τ ε' Unit} {xs : List γ}
    (h : ∀ x ∈ xs, Simulates R Any E (act x) (act' x)) (place : Nat) :
    Simulates R Any (fun e e' => e.1 = e'.1 ∧ E e.2 e'.2) (each act place xs)
      (each act' place xs) := by
  -- On the elements; the place is generalized because the rest begins one further.
  induction xs generalizing place with
  | nil => exact simulates_pure trivial
  | cons x xs ih =>
      intro s t hst
      have hx := h x List.mem_cons_self s t hst
      simp only [each]
      cases hs : act x s <;> cases ht : act' x t <;> rw [hs, ht] at hx
      case ok.ok a s' b t' =>
        exact ih (fun y hy => h y (List.mem_cons_of_mem x hy)) (place + 1) s' t' hx.2
      case error.error => exact ⟨⟨rfl, hx.1⟩, hx.2⟩
      all_goals exact hx.elim

end TaintFlow.Action
