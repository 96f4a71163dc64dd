import TaintFlow.Proofs.Plan.Moves

/-!
# What emitters are asked

Any call of an emitter may fail, also one that cleans up after a failure. Whatever fails, emitting a
plan gives every register back that it was lent, the last one first, asks for nothing else once a
call has failed, and reports the first failure.
-/

namespace TaintFlow

open TaintFlow.Action

variable {σ ε : Type}

/-! ## Calls -/

/-- A call of an emitter and how it ended. -/
inductive EmitterCall (ε : Type) where
  | reserve (result : Except ε Scratch)
  | release (s : Scratch) (result : Except ε Unit)
  | insert (i : InlineInstr) (result : Except ε Unit)

/-- The registers that an instruction names. -/
@[simp] def InlineInstr.scratches : InlineInstr → List Scratch
  | .loadAddress dst _ => [dst]
  | .saveSlot src _ => [src]
  | .appToShadow reg => [reg]
  | .regToShadow dst _ => [dst]
  | .loadByte dst addr => [dst, addr]
  | .storeByte addr src => [addr, src]
  | .moveImm dst _ => [dst]
  | .or dst src => [dst, src]
  | .cleanCall _ => []

namespace EmitterCall

def failure? : EmitterCall ε → Option ε
  | .reserve (.error e) | .release _ (.error e) | .insert _ (.error e) => some e
  | .reserve (.ok _) | .release _ (.ok _) | .insert _ (.ok _) => none

/-- The register that the call lends. -/
def lent? : EmitterCall ε → Option Scratch
  | .reserve (.ok s) => some s
  | .reserve (.error _) => none
  | .release _ _ => none
  | .insert _ _ => none

/-- The register that the call gives back, or tries to. -/
def returned? : EmitterCall ε → Option Scratch
  | .release s _ => some s
  | .reserve _ => none
  | .insert _ _ => none

/-- The registers held after the call, given those held before it. The last one lent comes first. -/
def heldAfter (held : List Scratch) : EmitterCall ε → List Scratch
  | .reserve (.ok s) => s :: held
  | .reserve (.error _) => held
  | .release s _ => held.erase s
  | .insert _ _ => held

/-- The registers held after some calls. -/
def held (calls : List (EmitterCall ε)) : List Scratch :=
  calls.foldl heldAfter []

/-- The registers that were lent, in order. -/
def lent (calls : List (EmitterCall ε)) : List Scratch :=
  calls.filterMap lent?

/-- The registers that were given back, in order. -/
def returned (calls : List (EmitterCall ε)) : List Scratch :=
  calls.filterMap returned?

/-- The failure of the first call that failed. -/
def firstFailure? (calls : List (EmitterCall ε)) : Option ε :=
  calls.findSome? failure?

/-- What may be called after the calls `past`. -/
def Permitted (past : List (EmitterCall ε)) : EmitterCall ε → Prop
  | .reserve _ => firstFailure? past = none ∧ (held past).length < 2
  | .release s _ => (held past).head? = some s
  | .insert i _ => firstFailure? past = none ∧ ∀ s ∈ i.scratches, s ∈ held past

/-- Each call was permitted when it was made. -/
inductive Orderly : List (EmitterCall ε) → Prop where
  | nil : Orderly []
  | concat {past : List (EmitterCall ε)} {call : EmitterCall ε} (h : Orderly past)
      (hcall : call.Permitted past) : Orderly (past ++ [call])

theorem held_concat (past : List (EmitterCall ε)) (call : EmitterCall ε) :
    held (past ++ [call]) = call.heldAfter (held past) := by
  rw [held, List.foldl_append]
  rfl

theorem lent_concat (past : List (EmitterCall ε)) (call : EmitterCall ε) :
    lent (past ++ [call]) = lent past ++ call.lent?.toList := by
  rw [lent, List.filterMap_append, List.filterMap_cons]
  cases call.lent? <;> rfl

theorem returned_concat (past : List (EmitterCall ε)) (call : EmitterCall ε) :
    returned (past ++ [call]) = returned past ++ call.returned?.toList := by
  rw [returned, List.filterMap_append, List.filterMap_cons]
  cases call.returned? <;> rfl

theorem firstFailure?_concat (past : List (EmitterCall ε)) (call : EmitterCall ε) :
    firstFailure? (past ++ [call]) = (firstFailure? past).or call.failure? := by
  rw [firstFailure?, List.findSome?_append, List.findSome?_singleton]
  rfl

namespace Orderly

variable {calls : List (EmitterCall ε)}

theorem left (h : Orderly calls) {past rest : List (EmitterCall ε)} (heq : calls = past ++ rest) :
    Orderly past := by
  induction h generalizing rest with
  | nil =>
      rw [(List.nil_eq_append_iff.mp heq).1]
      exact nil
  | @concat before last hbefore hlast ih =>
      rcases List.eq_nil_or_concat rest with rfl | ⟨rest', c, rfl⟩
      · rw [List.append_nil] at heq
        exact heq ▸ concat hbefore hlast
      · rw [List.concat_eq_append, ← List.append_assoc] at heq
        exact ih (List.append_inj' heq rfl).1

theorem permitted (h : Orderly calls) {past rest : List (EmitterCall ε)} {call : EmitterCall ε}
    (heq : calls = past ++ call :: rest) : call.Permitted past := by
  have hupTo : Orderly (past ++ [call]) := h.left (by rw [heq, List.append_cons])
  generalize hwhole : past ++ [call] = whole at hupTo
  cases hupTo with
  | nil => simp at hwhole
  | concat _ hcall =>
      obtain ⟨rfl, hlast⟩ := List.append_inj' hwhole rfl
      cases hlast
      exact hcall

theorem length_held_le (h : Orderly calls) : (held calls).length ≤ 2 := by
  induction h with
  | nil => exact Nat.zero_le 2
  | @concat past call _ hcall ih =>
      rw [held_concat]
      cases call with
      | reserve result =>
          cases result with
          | ok s => exact hcall.2
          | error e => exact ih
      | release s result => exact Nat.le_trans (List.length_erase_le) ih
      | insert i result => exact ih

/-- What was lent is held or has been given back. -/
theorem perm (h : Orderly calls) : (lent calls).Perm (held calls ++ returned calls) := by
  induction h with
  | nil => exact .nil
  | @concat past call _ hcall ih =>
      rw [held_concat, lent_concat, returned_concat]
      cases call with
      | reserve result =>
          cases result with
          | ok s =>
              have hlent := (List.perm_append_singleton s (lent past)).trans (ih.cons s)
              simpa [heldAfter, lent?, returned?] using hlent
          | error e => simpa [heldAfter, lent?, returned?] using ih
      | release s result =>
          -- The register stands in front of those held.
          obtain ⟨others, hheld⟩ := List.head?_eq_some_iff.mp hcall
          rw [hheld] at ih ⊢
          have hreturned := ih.trans (List.perm_append_singleton s (others ++ returned past)).symm
          simpa [heldAfter, lent?, returned?] using hreturned
      | insert i result => simpa [heldAfter, lent?, returned?] using ih

end Orderly

end EmitterCall

namespace Emitter

/-- Carry out a call and write down how it ended. -/
def noted {α : Type} (call : Except ε α → EmitterCall ε) (act : Action σ ε α) :
    Action (σ × List (EmitterCall ε)) ε α :=
  fun s =>
    match act s.1 with
    | .ok a x => .ok a (x, s.2 ++ [call (.ok a)])
    | .error e x => .error e (x, s.2 ++ [call (.error e)])

/-- The emitter, writing down its calls. -/
def noting (em : Emitter σ ε) : Emitter (σ × List (EmitterCall ε)) ε where
  reserve := noted .reserve em.reserve
  release := fun s => noted (.release s) (em.release s)
  insert := fun i => noted (.insert i) (em.insert i)

/-! ## Emitters that answer alike -/

/-- From related states each call ends alike with both emitters and leaves related states. -/
structure Alike {τ : Type} (R : σ → τ → Prop) (em : Emitter σ ε) (em' : Emitter τ ε) : Prop where
  reserve : Simulates R Eq Eq em.reserve em'.reserve
  release : ∀ s, Simulates R Any Eq (em.release s) (em'.release s)
  insert : ∀ i, Simulates R Any Eq (em.insert i) (em'.insert i)

theorem simulates_noted {α : Type} {V : α → α → Prop} (hV : ∀ a, V a a)
    (call : Except ε α → EmitterCall ε) (act : Action σ ε α) :
    Simulates (fun x s => s.1 = x) V Eq act (noted call act) := by
  rintro _ s rfl
  unfold noted
  cases act s.1 with
  | ok a x => exact ⟨hV a, rfl⟩
  | error e x => exact ⟨rfl, rfl⟩

theorem alike_noting (em : Emitter σ ε) : Alike (fun x s => s.1 = x) em em.noting where
  reserve := simulates_noted (fun _ => rfl) _ _
  release := fun _ => simulates_noted (fun _ => trivial) _ _
  insert := fun _ => simulates_noted (fun _ => trivial) _ _

section Alike

variable {τ : Type} {R : σ → τ → Prop} {em : Emitter σ ε} {em' : Emitter τ ε} (h : Alike R em em')
include h

theorem Alike.withScratch {body : Scratch → Action σ ε Unit} {body' : Scratch → Action τ ε Unit}
    (hbody : ∀ s, Simulates R Any Eq (body s) (body' s)) :
    Simulates R Any Eq (em.withScratch body) (em'.withScratch body') := by
  refine simulates_bind h.reserve ?_
  rintro s _ rfl
  exact simulates_closedBy (hbody s) (h.release s)

theorem Alike.withTwo (code : Scratch → Scratch → List InlineInstr) :
    Simulates R Any Eq (em.withTwo fun a b => em.insertAll (code a b))
      (em'.withTwo fun a b => em'.insertAll (code a b)) :=
  h.withScratch fun _ => h.withScratch fun _ => simulates_forM fun i _ => h.insert i

theorem Alike.emit (p : Plan) : Simulates R Any Eq (p.emit em) (p.emit em') := by
  rw [p.emit_eq_moves, p.emit_eq_moves]
  refine simulates_forM fun m _ => ?_
  cases m with
  | block t => exact h.insert _
  | _ => exact h.withTwo fun a b => Move.code a b _

end Alike

/-! ## Emitting -/

/-- Some calls have been made in order. The registers `held` are held, and `failure` is the first
failure. -/
structure Standing (held : List Scratch) (failure : Option ε) (s : σ × List (EmitterCall ε)) :
    Prop where
  orderly : EmitterCall.Orderly s.2
  held : EmitterCall.held s.2 = held
  failure : EmitterCall.firstFailure? s.2 = failure

/-- With the registers `held` lent and no failure so far, the action makes its calls in order, gives
back what it is lent in addition, and fails with the first failure. -/
def Steady (held : List Scratch) (act : Action (σ × List (EmitterCall ε)) ε Unit) : Prop :=
  ∀ s, Standing held none s →
    match act s with
    | .ok _ s' => Standing held none s'
    | .error e s' => Standing held (some e) s'

variable {em : Emitter σ ε} {held : List Scratch}

theorem Standing.concat {failure : Option ε} {s : σ × List (EmitterCall ε)}
    (h : Standing held failure s) {call : EmitterCall ε} (hcall : call.Permitted s.2) (x : σ) :
    Standing (call.heldAfter held) (failure.or call.failure?) (x, s.2 ++ [call]) where
  orderly := .concat h.orderly hcall
  held := by rw [EmitterCall.held_concat, h.held]
  failure := by rw [EmitterCall.firstFailure?_concat, h.failure]

theorem Standing.noted {α : Type} {failure : Option ε} {s : σ × List (EmitterCall ε)}
    (h : Standing held failure s) {call : Except ε α → EmitterCall ε}
    (hcall : ∀ result, (call result).Permitted s.2) (act : Action σ ε α) :
    match Emitter.noted call act s with
    | .ok a s' =>
        Standing ((call (.ok a)).heldAfter held) (failure.or (call (.ok a)).failure?) s'
    | .error e s' =>
        Standing ((call (.error e)).heldAfter held) (failure.or (call (.error e)).failure?) s' := by
  unfold Emitter.noted
  cases act s.1 with
  | ok a x => exact h.concat (hcall _) x
  | error e x => exact h.concat (hcall _) x

variable (em) in
theorem reserve_standing {s : σ × List (EmitterCall ε)} (h : Standing held none s)
    (hroom : held.length < 2) :
    match em.noting.reserve s with
    | .ok r s' => Standing (r :: held) none s'
    | .error e s' => Standing held (some e) s' := by
  have hpermitted : ∀ result, (EmitterCall.reserve result).Permitted s.2 := fun _ =>
    ⟨h.failure, h.held ▸ hroom⟩
  have hcall := h.noted hpermitted em.reserve
  dsimp only [noting]
  cases hr : Emitter.noted .reserve em.reserve s <;> rw [hr] at hcall <;> exact hcall

variable (em) in
theorem release_standing {r : Scratch} {failure : Option ε} {s : σ × List (EmitterCall ε)}
    (h : Standing (r :: held) failure s) :
    match em.noting.release r s with
    | .ok _ s' => Standing held failure s'
    | .error e s' => Standing held (failure.or (some e)) s' := by
  have hpermitted : ∀ result, (EmitterCall.release r result).Permitted s.2 := fun _ => by
    rw [EmitterCall.Permitted, h.held]
    rfl
  have hcall := h.noted hpermitted (em.release r)
  dsimp only [noting]
  cases hr : Emitter.noted (.release r) (em.release r) s <;> rw [hr] at hcall
  case ok => simpa [EmitterCall.heldAfter, EmitterCall.failure?] using hcall
  case error => simpa [EmitterCall.heldAfter, EmitterCall.failure?] using hcall

theorem steady_insert {i : InlineInstr} (hi : ∀ s ∈ i.scratches, s ∈ held) :
    Steady held (em.noting.insert i) := by
  intro s h
  have hpermitted : ∀ result, (EmitterCall.insert i result).Permitted s.2 := fun _ =>
    ⟨h.failure, h.held ▸ hi⟩
  have hcall := h.noted hpermitted (em.insert i)
  dsimp only [noting]
  cases hr : Emitter.noted (.insert i) (em.insert i) s <;> rw [hr] at hcall <;> exact hcall

theorem steady_forM {β : Type} {act : β → Action (σ × List (EmitterCall ε)) ε Unit} {xs : List β}
    (h : ∀ x ∈ xs, Steady held (act x)) : Steady held (xs.forM act) := by
  induction xs with
  | nil => exact fun _ hs => hs
  | cons x xs ih =>
      intro s hs
      have hx := h x List.mem_cons_self s hs
      change match (act x >>= fun _ => xs.forM act) s with
        | .ok _ s' => Standing held none s'
        | .error e s' => Standing held (some e) s'
      rw [bind_apply]
      cases hact : act x s with
      | error e s' =>
          rw [hact] at hx
          exact hx
      | ok _ s' =>
          rw [hact] at hx
          exact ih (fun y hy => h y (List.mem_cons_of_mem x hy)) s' hx

theorem steady_withScratch {body : Scratch → Action (σ × List (EmitterCall ε)) ε Unit}
    (hroom : held.length < 2) (hbody : ∀ r, Steady (r :: held) (body r)) :
    Steady held (em.noting.withScratch body) := by
  intro s hs
  unfold withScratch
  rw [bind_apply]
  have hreserve := reserve_standing em hs hroom
  cases hr : em.noting.reserve s with
  | error e s₁ =>
      rw [hr] at hreserve
      exact hreserve
  | ok r s₁ =>
      rw [hr] at hreserve
      have hrun := hbody r s₁ hreserve
      dsimp only
      unfold closedBy
      -- The register is given back after the body, which may have failed.
      cases hb : body r s₁ with
      | ok _ s₂ =>
          rw [hb] at hrun
          exact release_standing em hrun
      | error e s₂ =>
          rw [hb] at hrun
          have hrelease := release_standing em hrun
          dsimp only
          cases hc : em.noting.release r s₂ with
          | ok _ s₃ =>
              rw [hc] at hrelease
              exact hrelease
          | error e' s₃ =>
              rw [hc] at hrelease
              exact hrelease

theorem steady_withTwo {code : Scratch → Scratch → List InlineInstr}
    (hcode : ∀ a b, ∀ i ∈ code a b, ∀ s ∈ i.scratches, s = a ∨ s = b) :
    Steady [] (em.noting.withTwo fun a b => em.noting.insertAll (code a b)) := by
  refine steady_withScratch Nat.zero_lt_two fun a => steady_withScratch Nat.one_lt_two fun b => ?_
  refine steady_forM fun i hi => steady_insert fun s hs => ?_
  rcases hcode a b i hi s hs with rfl | rfl
  · exact List.mem_cons_of_mem b List.mem_cons_self
  · exact List.mem_cons_self

end Emitter

open InlineInstr in
/-- The code of a move names no registers but those that it is given. -/
theorem Move.scratches_code (m : Move) (a b : Scratch) :
    ∀ i ∈ m.code a b, ∀ s ∈ i.scratches, s = a ∨ s = b := by
  cases m with
  | load dst mem i => simp [code, loadWord, shadowOf, setTag]
  | store src mem i => cases src <;> simp [code, storeWord, InlineInstr.tagOf, shadowOf]
  | copy dst src => simp [code, copyTag, InlineInstr.tagOf, setTag]
  | clear dst => simp [code, clearTag, setTag]
  | union dst srcs =>
      simp only [code, unionTags, InlineInstr.tagOf, setTag, List.cons_append, List.mem_cons,
        List.mem_append, List.mem_flatMap, List.not_mem_nil, or_false, false_or]
      -- The union is cleared, collected over the sources, and stored.
      rintro _ (rfl | ⟨r, -, rfl | rfl | rfl⟩ | rfl | rfl)
      all_goals simp
  | block t => simp [code]

namespace Emitter

theorem steady_emit (em : Emitter σ ε) (p : Plan) : Steady [] (p.emit em.noting) := by
  rw [p.emit_eq_moves]
  refine steady_forM fun m _ => ?_
  cases m with
  | block t => exact steady_insert (by simp)
  | _ => exact steady_withTwo (Move.scratches_code _)

/-- Whichever calls of the emitter fail, each register that was lent is given back once, the last
one first, and no more than two are held; instructions name registers that are held; after a call
has failed nothing more is reserved or inserted; and the plan is emitted unless a call fails, whose
failure is then reported. -/
theorem emit_in_order (em : Emitter σ ε) (p : Plan) (x : σ) :
    let run := outcome (p.emit em.noting) (x, [])
    let calls := run.2.2
    outcome (p.emit em) x = (run.1, run.2.1) ∧
      (EmitterCall.returned calls).Perm (EmitterCall.lent calls) ∧
      EmitterCall.held calls = [] ∧
      (∀ past rest, calls = past ++ rest → (EmitterCall.held past).length ≤ 2) ∧
      (∀ past s result rest, calls = past ++ .release s result :: rest →
        (EmitterCall.held past).head? = some s) ∧
      (∀ past i result rest, calls = past ++ .insert i result :: rest →
        EmitterCall.firstFailure? past = none ∧ ∀ s ∈ i.scratches, s ∈ EmitterCall.held past) ∧
      (∀ past result rest, calls = past ++ .reserve result :: rest →
        EmitterCall.firstFailure? past = none) ∧
      run.1 = match EmitterCall.firstFailure? calls with
        | none => .ok ()
        | some e => .error e := by
  intro run calls
  have hsame : run.1 = (outcome (p.emit em) x).1 ∧ run.2.1 = (outcome (p.emit em) x).2 :=
    ((alike_noting em).emit p).outcome_eq rfl
  have hend : ∃ failure, Standing [] failure run.2 ∧
      run.1 = match failure with
        | none => .ok ()
        | some e => .error e := by
    have hsteady := steady_emit em p (x, []) ⟨.nil, rfl, rfl⟩
    simp only [run, outcome]
    cases h : p.emit em.noting (x, []) with
    | ok _ s => exact ⟨none, by rwa [h] at hsteady, rfl⟩
    | error e s => exact ⟨some e, by rwa [h] at hsteady, rfl⟩
  obtain ⟨failure, hstanding, hresult⟩ := hend
  have horderly : EmitterCall.Orderly calls := hstanding.orderly
  refine ⟨Prod.ext hsame.1.symm hsame.2.symm, ?_, hstanding.held, ?_, ?_, ?_, ?_, ?_⟩
  · have hperm := horderly.perm
    rw [hstanding.held, List.nil_append] at hperm
    exact hperm.symm
  · exact fun past rest heq => (horderly.left heq).length_held_le
  · exact fun past s result rest heq => horderly.permitted heq
  · exact fun past i result rest heq => horderly.permitted heq
  · exact fun past result rest heq => (horderly.permitted heq).1
  · rw [hresult, ← hstanding.failure]

/-- An insert fails, and so does the first release behind it: the other register is given back all
the same, and the failure of the insert is reported. -/
theorem emit_in_order_refused_insert :
    let p : Plan := ⟨0x100, .mov, [.copy ⟨0⟩ ⟨1⟩, .clear ⟨2⟩]⟩
    let buffer := CodeBuffer.new [⟨3⟩, ⟨2⟩] (some 1) (some 0)
    let calls := (outcome (p.emit CodeBuffer.emitter.noting) (buffer, [])).2.2
    (outcome (p.emit CodeBuffer.emitter) buffer).1 = .error .insertFailed ∧
      (EmitterCall.returned calls).Perm [⟨3⟩, ⟨2⟩] ∧
      EmitterCall.held calls = [] := by
  intro p buffer calls
  obtain ⟨hrun, hreturned, hheld, -, -, -, -, hresult⟩ :=
    emit_in_order CodeBuffer.emitter p buffer
  exact ⟨by rw [hrun]; exact hresult, hreturned, hheld⟩

end Emitter

end TaintFlow
