import TaintFlow.Proofs.Shadow.Consistency
import TaintFlow.Tracker

/-!
# The current context

A thread may have several contexts alive. The newest is the current one when it is made, and it
stays so only until a context is dropped, whichever that is: from then on there is none until
another context is made. So a fault is never taken with a context that is gone, but it may find no
context at all although there are live ones.
-/

namespace TaintFlow

namespace Tracker

/-- What a thread does with its contexts. -/
inductive ThreadEvent where
  | start (session : Session) (address : Address)
  | drop (t : ThreadId)

/-- The runs of a thread: what it has done, its live contexts with the newest in front, and the
tracker. A context is dropped once. -/
inductive ThreadRun : List ThreadEvent → List ThreadId → Tracker → Prop where
  | fresh {tr : Tracker} (threads : tr.threads = []) (current : tr.current = none) :
      ThreadRun [] [] tr
  | start {es : List ThreadEvent} {alive : List ThreadId} {tr : Tracker} (session : Session)
      (address : Address) (run : ThreadRun es alive tr) :
      ThreadRun (es ++ [.start session address]) ((tr.startThread session address).1 :: alive)
        (tr.startThread session address).2
  | drop {es : List ThreadEvent} {alive : List ThreadId} {tr : Tracker} {t : ThreadId}
      (run : ThreadRun es alive tr) (live : t ∈ alive) :
      ThreadRun (es ++ [.drop t]) (alive.erase t) (tr.endThread t)

/-- The tracker keeps the contexts that are alive, each under a number of its own, and no context
but the newest is current. -/
structure Keeps (alive : List ThreadId) (tr : Tracker) : Prop where
  threads : tr.threads.map Prod.fst = alive
  nodup : alive.Nodup
  issued : ∀ t ∈ alive, t.serial < tr.issued
  newest : tr.current = none ∨ tr.current = alive.head?

namespace Keeps

variable {alive : List ThreadId} {tr : Tracker} (h : Keeps alive tr)
include h

theorem startThread (session : Session) (address : Address) :
    Keeps ((tr.startThread session address).1 :: alive) (tr.startThread session address).2 := by
  obtain ⟨warnings, heq⟩ := tr.startThread_eq session address
  rw [heq]
  -- Numbers are issued in order, so the new one is not among those that are alive.
  have hnew : ⟨tr.issued⟩ ∉ alive := fun hmem => Nat.lt_irrefl _ (h.issued _ hmem)
  constructor
  · exact congrArg _ h.threads
  · exact List.nodup_cons.mpr ⟨hnew, h.nodup⟩
  · refine List.forall_mem_cons.mpr ⟨Nat.lt_succ_self _, fun t ht => ?_⟩
    exact Nat.lt_succ_of_lt (h.issued t ht)
  · exact Or.inr rfl

theorem endThread (t : ThreadId) : Keeps (alive.erase t) (tr.endThread t) := by
  constructor
  · rw [h.nodup.erase_eq_filter, ← h.threads, List.filter_map]
    refine congrArg (List.map Prod.fst) (List.filter_congr fun u _ => ?_)
    rw [Function.comp_apply, bne, decide_not, beq_eq_decide]
  · exact h.nodup.erase t
  · exact fun u hu => h.issued u (List.mem_of_mem_erase hu)
  · exact Or.inl rfl

/-- The context of the newest thread is there to be found. -/
theorem context?_head {t : ThreadId} (ht : alive.head? = some t) : ∃ c, tr.context? t = some c := by
  have hthreads := h.threads
  unfold context?
  cases hentries : tr.threads with
  | nil =>
      rw [hentries, List.map_nil] at hthreads
      rw [← hthreads] at ht
      cases ht
  | cons entry rest =>
      rw [hentries, List.map_cons] at hthreads
      rw [← hthreads] at ht
      cases ht
      exact ⟨entry.2, List.lookup_cons_self⟩

end Keeps

theorem ThreadRun.keeps {es : List ThreadEvent} {alive : List ThreadId} {tr : Tracker}
    (run : ThreadRun es alive tr) : Keeps alive tr := by
  induction run with
  | fresh threads current =>
      exact ⟨by rw [threads, List.map_nil], List.nodup_nil, nofun, Or.inl current⟩
  | start session address _ ih => exact ih.startThread session address
  | drop _ _ ih => exact ih.endThread _

/-- The current context is the newest of the live ones, and in no state one that was dropped. It is
there from the start of a context to the next drop. After a drop there is none, although other
contexts may be alive. -/
theorem current_context {es : List ThreadEvent} {alive : List ThreadId} {tr : Tracker}
    (run : ThreadRun es alive tr) :
    tr.threads.map Prod.fst = alive ∧
      (∀ t, tr.current = some t → alive.head? = some t ∧
        ∃ c, tr.context? t = some c ∧ tr.currentContext = some c) ∧
      (alive = [] → tr.current = none) ∧
      (tr.current = alive.head? ↔
        alive = [] ∨ ∃ session address, es.getLast? = some (.start session address)) := by
  have hkeeps := run.keeps
  refine ⟨hkeeps.threads, fun t ht => ?_, fun hnone => ?_, ?_⟩
  · have hhead : alive.head? = some t := by
      rcases hkeeps.newest with hnone | hnewest
      · rw [hnone] at ht
        cases ht
      · exact hnewest.symm.trans ht
    obtain ⟨c, hc⟩ := hkeeps.context?_head hhead
    exact ⟨hhead, c, hc, by rw [currentContext, ht, Option.bind_some, hc]⟩
  · rw [hnone] at hkeeps
    exact hkeeps.newest.elim id id
  · cases run with
    | fresh _ current => exact iff_of_true current (Or.inl rfl)
    | @start es alive tr session address run =>
        obtain ⟨warnings, heq⟩ := tr.startThread_eq session address
        rw [heq]
        exact iff_of_true rfl (Or.inr ⟨session, address, List.getLast?_concat⟩)
    | @drop es alive tr t run live =>
        -- Any drop clears the current context, so it is still the newest one only if none is left.
        have hcurrent : (tr.endThread t).current = none := rfl
        rw [hcurrent, List.getLast?_concat]
        cases halive : alive.erase t with
        | nil => exact iff_of_true rfl (Or.inl rfl)
        | cons u rest =>
            refine iff_of_false nofun ?_
            rintro (hnil | ⟨session, address, hlast⟩)
            · cases hnil
            · cases hlast

/-- A thread has made two contexts. -/
theorem two_contexts (session : Session) :
    let (first, tr) := initial.startThread session 0x10000
    let (second, tr) := tr.startThread session 0x20000
    ThreadRun [.start session 0x10000, .start session 0x20000] [second, first] tr :=
  ((@ThreadRun.fresh initial rfl rfl).start session 0x10000).start session 0x20000

def smallSession : Session :=
  ⟨1, .default, .small .lazy, .new .permissive false, none⟩

/-- A new context is current whatever was dropped before. -/
theorem current_context_restarted :
    let (first, tr) := initial.startThread smallSession 0x10000
    let (second, tr) := tr.startThread smallSession 0x20000
    let (third, tr) := (tr.endThread first).startThread smallSession 0x30000
    tr.threads.map Prod.fst = [third, second] ∧ tr.current = some third ∧
      ∃ c, tr.currentContext = some c := by
  have hrun := ((two_contexts smallSession).drop (t := ⟨0⟩) (by decide)).start smallSession 0x30000
  obtain ⟨hthreads, hcurrent, -, hnewest⟩ := current_context hrun
  have hthird := hnewest.mpr (Or.inr ⟨_, _, rfl⟩)
  obtain ⟨-, c, -, hc⟩ := hcurrent _ hthird
  exact ⟨hthreads, hthird, c, hc⟩

/-- Once the older of two contexts is dropped, the newer one is no longer current, though it is
alive. -/
theorem current_context_lost :
    let (first, tr) := initial.startThread smallSession 0x10000
    let (second, tr) := tr.startThread smallSession 0x20000
    ThreadRun [.start smallSession 0x10000, .start smallSession 0x20000, .drop first] [second]
        (tr.endThread first) ∧
      tr.current = some second ∧ (tr.endThread first).current = none :=
  ⟨(two_contexts smallSession).drop (t := ⟨0⟩) (by decide), rfl, rfl⟩

end Tracker
end TaintFlow
