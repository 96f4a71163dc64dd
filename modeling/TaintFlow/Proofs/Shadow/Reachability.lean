import TaintFlow.Proofs.Inline.Execution
import TaintFlow.Proofs.Shadow.History
import TaintFlow.Proofs.Shadow.Regions

/-!
# Reachable stores

A store is reached from a new one by operations of any kind and in any order, while the operating
system refuses what it likes. Inline code need not come from a plan, and a fault may be recovered
for any access and any saved address.
-/

namespace TaintFlow

open TaintFlow.Action

/-- An operation that runs against a store. -/
inductive Operation : Type 1 where
  | call (access : Access)
  | visit {σ : Type} (visitor : σ → Region → σ × Bool) (start : σ)
  | transfer (t : BlockTransfer) (f : RegFile) (thread : ThreadContext)
  | recover {σ : Type} (patch : Address → Address → Action σ PatchError Unit)
      (access saved : Address) (machine : σ)
  | execute (code : List InlineInstr) (f : RegFile) (thread : ThreadContext)
      (scratch : Vector Address Scratch.count)

inductive OperationError where
  | shadow (e : ShadowError)
  | apply (e : ApplyError)
  | fault (e : FaultError)
  | exec (e : ExecError)

def OperationError.cause? : OperationError → Option ShadowError
  | .shadow e => some e
  | .apply e => e.cause?
  | .fault e => e.cause?
  | .exec e => e.cause?

def Operation.perform : Operation → Action Store OperationError Unit
  | .call access => do
      let _ ← focus id (fun s _ => s) .shadow access.perform
  | .visit visitor start => do
      let _ := (← get).visit visitor start
  | .transfer t f thread => focus (⟨·, thread⟩) (fun st _ => st.store) .apply (t.apply f)
  | .recover patch access saved machine => do
      let _ ← focus (·, machine) (fun r _ => r.1) .fault (recoverFault patch access saved)
  | .execute code f thread scratch =>
      focus (fun s => ⟨⟨s, thread⟩, scratch⟩) (fun st _ => st.tags.store) .exec
        (code.forM (InlineInstr.exec f))

theorem Access.preserves_perform {s₀ : Store} (h₀ : s₀.Consistent) (x : Access) :
    Preserves (Store.Changed s₀) (fun e => Ordinary (some e)) x.perform := by
  cases x with
  | get a =>
      intro s hs
      rw [perform_get]
      cases h : s.tagOf a with
      | ok t => exact hs
      | error e => exact ⟨hs, Store.ordinary_of_checked (s.tagOf_eq a ▸ h)⟩
  | set a t =>
      exact preserves_bind (Store.preserves_setTag h₀ a t) fun _ => preserves_pure _
  | materialize a =>
      exact preserves_bind (Store.preserves_materialize a) fun _ => preserves_pure _

theorem Operation.preserves_perform {s₀ : Store} (h₀ : s₀.Consistent) (op : Operation) :
    Preserves (Store.Changed s₀) (fun e => Ordinary e.cause?) op.perform := by
  cases op with
  | call access =>
      refine preserves_bind ?_ fun _ => preserves_pure _
      exact preserves_focus (access.preserves_perform h₀) (fun _ h => h) (fun _ _ _ h => h)
        (fun _ h => h)
  | visit visitor start => exact preserves_bind preserves_get fun _ => preserves_pure _
  | transfer t f thread =>
      -- The thread comes to the store here and has not changed yet.
      have ht : Preserves (TagState.Since ⟨s₀, thread⟩) TagState.OrdinaryFailure (t.apply f) :=
        BlockTransfer.preserves_apply h₀ t f
      exact preserves_focus ht (fun _ h => ⟨h, rfl, rfl⟩) (fun _ _ _ h => h.store) (fun _ h => h)
  | recover patch access saved machine =>
      refine preserves_bind ?_ fun _ => preserves_pure _
      have hrecover := preserves_recoverFault (I := Store.Changed s₀)
        (fun _ _ hs hc => hs.tail (.region (Layout.regionAt_lt_regions hc))) patch access saved
      exact preserves_focus hrecover (fun _ h => h) (fun _ _ _ h => h) (fun _ h => h)
  | execute code f thread scratch =>
      have hcode : Preserves (Exec.Since ⟨s₀, thread⟩) (Exec.Failure ⟨s₀, thread⟩)
          (code.forM (InlineInstr.exec f)) :=
        preserves_forM fun i _ => i.preserves_exec h₀ f
      exact preserves_focus hcode (fun _ h => ⟨h, rfl, rfl⟩) (fun _ _ _ h => h.store)
        (fun _ h => h.ordinary)

namespace Store

/-- An operation has run, with the operating system answering as it likes. -/
def Step (s s' : Store) : Prop :=
  ∃ (op : Operation) (system : Mapping), s' = (outcome op.perform (s.under system)).2

/-- Operations have run one after the other. -/
def Later : Store → Store → Prop :=
  Relation.ReflTransGen Step

/-- Operations have run on a new store. -/
def Reachable (backend : Backend) (w : Window) (s : Store) : Prop :=
  ∃ system s₀, create backend w system = .ok s₀ ∧ Later s₀ s

theorem changed_of_step {s s' : Store} (hs : s.Consistent) (h : Step s s') : Changed s s' := by
  obtain ⟨op, system, rfl⟩ := h
  exact (op.preserves_perform hs).state (.single (.system system))

theorem changed_of_later {s s' : Store} (hs : s.Consistent) (h : Later s s') : Changed s s' := by
  induction h with
  | refl => exact .refl
  | tail _ hstep ih => exact ih.trans (changed_of_step (ih.consistent hs) hstep)

namespace Reachable

variable {backend : Backend} {w : Window} {s : Store}

theorem consistent (h : Reachable backend w s) : s.Consistent := by
  obtain ⟨system, s₀, hs₀, hlater⟩ := h
  have h₀ := consistent_create hs₀
  exact (changed_of_later h₀ hlater).consistent h₀

theorem backend_eq (h : Reachable backend w s) : s.backend = backend := by
  obtain ⟨system, s₀, hs₀, hlater⟩ := h
  rw [(changed_of_later (consistent_create hs₀) hlater).backend, of_create_eq_ok hs₀]
  cases backend <;> rfl

theorem window_eq (h : Reachable backend w s) : s.window = w := by
  obtain ⟨system, s₀, hs₀, hlater⟩ := h
  rw [(changed_of_later (consistent_create hs₀) hlater).window, of_create_eq_ok hs₀]

end Reachable

/-- The count, the visited regions and the bytes of a lazy store agree on which regions are private,
and private regions stay private. -/
theorem lazy_records_agree {w : Window} {s : Store} (h : Reachable .lazy w s) :
    s.regionCount = s.privateRegions.length ∧
      (∀ {σ : Type} (visitor : σ → Region → σ × Bool), (∀ acc r, (visitor acc r).2 = true) →
        ∀ start, s.visit visitor start =
          (s.privateRegions.map s.region).foldl (fun acc r => (visitor acc r).1) start) ∧
      (s.privateRegions.map s.region).Pairwise
        (fun r r' => r.appBase < r'.appBase ∧ r.shadowBase < r'.shadowBase) ∧
      (∀ shadow, s.pageKind shadow = some .shared → s.byteAt? shadow = some 0) ∧
      (∀ s', Later s s' →
        ∀ shadow, s.pageKind shadow = some .owned → s'.pageKind shadow = some .owned) ∧
      ∀ (op : Operation) system e base, (outcome op.perform (s.under system)).1 = .error e →
        e.cause? ≠ some (.committedTwice base) := by
  have hs := h.consistent
  refine ⟨regionCount_eq hs h.backend_eq, ?visited, ?ascending, ?clean, ?stays, ?failures⟩
  case visited =>
    intro σ visitor hv start
    rw [visit, Region.visitEach_all hv, regions, writtenRegions_eq_privateRegions hs h.backend_eq]
  case ascending =>
    rw [List.pairwise_map]
    refine s.privateRegions_sorted.imp_of_mem fun _ hj hij => ?_
    have hlt := (mem_privateRegions.mp hj).1
    exact ⟨Layout.regionStart_lt hij hlt, Window.regionBase_lt hij hlt⟩
  case clean =>
    intro shadow hk
    obtain ⟨o, ho, hkind⟩ := Option.map_eq_some_iff.mp hk
    rw [byteAt?, ho, Option.map_some, hs.clean o hkind]
  case stays =>
    intro s' hlater shadow howned
    exact (changed_of_later hs hlater).pageKind hs howned
  case failures =>
    intro op system e base he
    exact (op.preserves_perform hs).failure (.single (.system system)) he base

theorem lazy_records_agree_after_set :
    ∃ s, Reachable .lazy .small s ∧ s.regionCount = 1 ∧ s.privateRegions.length = 1 := by
  have hs₀ : create .lazy .small .granting = .ok (.small .lazy) := rfl
  have hstep : Step (.small .lazy) _ := ⟨.call (.set 0x1004 7), .granting, rfl⟩
  have h : Reachable .lazy .small _ := ⟨.granting, _, hs₀, .single hstep⟩
  exact ⟨_, h, rfl, (lazy_records_agree h).1.symm⟩

end Store
end TaintFlow
