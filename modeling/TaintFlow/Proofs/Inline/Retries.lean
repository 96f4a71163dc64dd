import TaintFlow.Proofs.Inline.Meaning
import TaintFlow.Proofs.Shadow.Reachability

/-!
# Stores that fault

A machine repeats a store that faults until it does not fault any more. The code may have saved any
address before it, or none that belongs to the store, so the recovery may make another page writable
than the one that faulted. It then fails, or it points the register at a page that is writable: the
store is never repeated twice.
-/

namespace TaintFlow

open TaintFlow.Action

namespace Exec

/-- A byte is stored through a register. The store is repeated behind each fault that is recovered,
without any bound; the number counts the recoveries, the last one included if it fails. -/
inductive Stores (s : Scratch) (t : Tag) :
    Nat → ExecState → Except ExecError Unit → ExecState → Prop where
  | noRegister {st : ExecState} (hs : ¬ s.Valid) : Stores s t 0 st (.error (.noSuchScratch s)) st
  | owned {st : ExecState} (hs : s.Valid)
      (hk : st.tags.store.pageKind (st.held s) = some .owned) :
      Stores s t 0 st (.ok ()) (st.withStore (st.tags.store.pokeByte (st.held s) t))
  | outside {st : ExecState} (hs : s.Valid) (hk : st.tags.store.pageKind (st.held s) = none) :
      Stores s t 0 st (outcome (setBankByte (st.held s) t) st).1
        (outcome (setBankByte (st.held s) t) st).2
  | unrecovered {st st' : ExecState} {e : ExecError} (hs : s.Valid)
      (hk : st.tags.store.pageKind (st.held s) = some .shared)
      (hr : recover s (st.held s) st = .error e st') : Stores s t 1 st (.error e) st'
  | again {st mid st' : ExecState} {n : Nat} {result : Except ExecError Unit} (hs : s.Valid)
      (hk : st.tags.store.pageKind (st.held s) = some .shared)
      (hr : recover s (st.held s) st = .ok () mid) (hrest : Stores s t n mid result st') :
      Stores s t (n + 1) st result st'

variable {s : Scratch} {t : Tag} {st : ExecState}

theorem Stores.deterministic {n m : Nat} {result result' : Except ExecError Unit}
    {after after' : ExecState} (h : Stores s t n st result after)
    (h' : Stores s t m st result' after') : m = n ∧ result' = result ∧ after' = after := by
  induction h generalizing m with
  | noRegister hs =>
      cases h' with
      | noRegister => exact ⟨rfl, rfl, rfl⟩
      | owned hs' | outside hs' | unrecovered hs' | again hs' => contradiction
  | owned hs hk =>
      cases h' with
      | noRegister hs' => contradiction
      | owned => exact ⟨rfl, rfl, rfl⟩
      | outside _ hk' | unrecovered _ hk' | again _ hk' => cases hk.symm.trans hk'
  | outside hs hk =>
      cases h' with
      | noRegister hs' => contradiction
      | outside => exact ⟨rfl, rfl, rfl⟩
      | owned _ hk' | unrecovered _ hk' | again _ hk' => cases hk.symm.trans hk'
  | unrecovered hs hk hr =>
      cases h' with
      | noRegister hs' => contradiction
      | owned _ hk' | outside _ hk' => cases hk.symm.trans hk'
      | again _ _ hr' => cases hr.symm.trans hr'
      | unrecovered _ _ hr' =>
          cases hr.symm.trans hr'
          exact ⟨rfl, rfl, rfl⟩
  | again hs hk hr hrest ih =>
      cases h' with
      | noRegister hs' => contradiction
      | owned _ hk' | outside _ hk' => cases hk.symm.trans hk'
      | unrecovered _ _ hr' => cases hr.symm.trans hr'
      | again _ _ hr' hrest' =>
          cases hr.symm.trans hr'
          obtain ⟨rfl, rfl, rfl⟩ := ih hrest'
          exact ⟨rfl, rfl, rfl⟩

/-- A recovery that succeeds leaves the register on a page that is writable, whatever address was
saved and wherever the fault was. -/
theorem pageKind_of_recover (hc : st.tags.store.Consistent) (hs : s.Valid) {mid : ExecState}
    (hk : st.tags.store.pageKind (st.held s) = some .shared)
    (hr : recover s (st.held s) st = .ok () mid) :
    mid.tags.store.pageKind (mid.held s) = some .owned := by
  rw [recover_eq hs _ st hk] at hr
  cases hrefusal : st.tags.store.refusal? (st.tags.thread.slot .appAddress) with
  | some e =>
      rw [hrefusal] at hr
      cases hr
  | none =>
      rw [hrefusal] at hr
      dsimp only at hr
      split at hr
      · cases hr
        rw [ExecState.tags_hold, ExecState.held_hold_self _ hs]
        exact Store.pageKind_withRegion hc (Store.covers_of_refusal? hrefusal)
      · cases hr

/-- The executor repeats a store once, which is as often as the machine does. If it was repeated, it
wrote to a page that was writable when it did. -/
theorem stores_storeThrough (hc : st.tags.store.Consistent) (s : Scratch) (t : Tag) :
    let run := outcome (storeThrough s t) st
    ∃ n ≤ 1, Stores s t n st run.1 run.2 ∧
      (n = 1 → run.1 = .ok () → ∃ mid, recover s (st.held s) st = .ok () mid ∧
        mid.tags.store.pageKind (mid.held s) = some .owned ∧
        run.2 = mid.withStore (mid.tags.store.pokeByte (mid.held s) t)) := by
  unfold outcome
  by_cases hs : s.Valid
  case neg =>
    rw [storeThrough_invalid hs]
    exact ⟨0, Nat.zero_le 1, .noRegister hs, nofun⟩
  cases hk : st.tags.store.pageKind (st.held s) with
  | none =>
      rw [storeThrough_outside hs t hk]
      exact ⟨0, Nat.zero_le 1, .outside hs hk, nofun⟩
  | some kind =>
      cases kind with
      | owned =>
          rw [storeThrough_owned hs t hk]
          exact ⟨0, Nat.zero_le 1, .owned hs hk, nofun⟩
      | shared =>
          rw [storeThrough_faulted hs t hk]
          cases hr : recover s (st.held s) st with
          | error e st' =>
              rw [bind_error hr]
              exact ⟨1, Nat.le_refl 1, .unrecovered hs hk hr, nofun⟩
          | ok _ mid =>
              have hmid := pageKind_of_recover hc hs hk hr
              rw [bind_ok hr, bind_apply, value_eq, if_pos hs]
              dsimp only
              rw [storeAt_eq, hmid]
              exact ⟨1, Nat.le_refl 1, .again hs hk hr (.owned hs hmid), fun _ _ =>
                ⟨mid, rfl, hmid, rfl⟩⟩

end Exec

/-- What an instruction does to the shadow where it is executed. It changes a byte of the shadow
only on a page that is writable at that moment. If it stores a byte itself, it does so as the
machine does, with one recovery at most. -/
structure InlineInstr.StoresOnce (f : RegFile) (i : InlineInstr) (before : ExecState) : Prop where
  changed : Store.Changed before.tags.store (outcome (i.exec f) before).2.tags.store
  once : ∀ addr src, i = .storeByte addr src → src.Valid →
    let t := (before.held src).toUInt8
    let step := outcome (i.exec f) before
    ∃ n ≤ 1,
      (∀ m result after, Exec.Stores addr t m before result after ↔
        m = n ∧ result = step.1 ∧ after = step.2) ∧
      (n = 1 → step.1 = .ok () → ∃ mid,
        Exec.recover addr (before.held addr) before = .ok () mid ∧
        mid.tags.store.pageKind (mid.held addr) = some .owned ∧
        step.2 = mid.withStore (mid.tags.store.pokeByte (mid.held addr) t))

theorem InlineInstr.storesOnce {before : ExecState} (hc : before.tags.store.Consistent)
    (f : RegFile) (i : InlineInstr) : i.StoresOnce f before := by
  refine ⟨((i.preserves_exec hc f).state ⟨.refl, rfl, rfl⟩).store, ?_⟩
  rintro addr src rfl hsrc
  obtain ⟨n, hn, hstores, hretried⟩ :=
    Exec.stores_storeThrough hc addr (before.held src).toUInt8
  unfold outcome at hstores hretried ⊢
  rw [exec_storeByte f before addr hsrc]
  refine ⟨n, hn, fun m result after => ⟨hstores.deterministic, ?_⟩, hretried⟩
  rintro ⟨rfl, rfl, rfl⟩
  exact hstores

/-- Whatever inline code is executed, with whatever in its registers and in the slots of its thread,
every instruction that is reached stores with one recovery at most, and to writable pages only. What
is shared in the end was not written. The run never fails because a fault is still there after its
recovery, and on a wild address only if the address is outside the shadow and the bank. -/
theorem inline_stores_recover_once {backend : Backend} {w : Window} {st : ExecState}
    (hreach : Store.Reachable backend w st.tags.store) (f : RegFile) (code : List InlineInstr) :
    let run := outcome (InlineInstr.run f code) st
    Along (InlineInstr.StoresOnce f) (InlineInstr.exec f) code st ∧
      (∀ a, run.2.tags.store.pageKind a = some .shared →
        run.2.tags.store.byteAt? a = some untainted) ∧
      ∀ e, run.1 = .error e → (∀ a, e ≠ .unrecoverable a) ∧
        ∀ a, e = .wildAccess a → w.locate? a = none ∧ st.tags.thread.regAt? a = none := by
  intro run
  have hc := hreach.consistent
  have hstart : Exec.Since st.tags st := ⟨.refl, rfl, rfl⟩
  have hcode : Preserves (Exec.Since st.tags) (Exec.Failure st.tags) (InlineInstr.run f code) :=
    preserves_forM fun i _ => i.preserves_exec hc f
  refine ⟨?_, fun a hk => ?_, fun e he => ?_⟩
  · have hstores : ∀ i ∈ code, ∀ before, Exec.Since st.tags before → i.StoresOnce f before :=
      fun i _ before hbefore => i.storesOnce (hbefore.store.consistent hc) f
    exact along_of_preserves (fun i _ => i.preserves_exec hc f) hstores hstart
  · have hend : run.2.tags.store.Consistent := (hcode.state hstart).store.consistent hc
    obtain ⟨o, ho, hkind⟩ := Option.map_eq_some_iff.mp hk
    rw [Store.byteAt?, ho, Option.map_some, hend.clean o hkind]
    rfl
  · have hfails := hcode.failure hstart he
    rw [← hreach.window_eq]
    exact ⟨hfails.recovered, hfails.wild⟩

/-- The thread has saved another address of the region than the one that is stored to. The store
faults, is recovered, and ends up at the saved address. -/
theorem inline_stores_recover_once_elsewhere :
    let thread := ThreadContext.tainted.setSlot .appAddress 0x1010
    let st : ExecState := ⟨⟨.small .lazy, thread⟩, #v[0x700000, 5, 0, 0, 0, 0, 0, 0]⟩
    st.tags.store.pageKind (st.held ⟨0⟩) = some .shared ∧
      ∃ n ≤ 1, ∃ after, Exec.Stores ⟨0⟩ 5 n st (.ok ()) after ∧
        after.tags.store.tagOf 0x1010 = .ok 5 ∧ after.tags.store.tagOf 0x1000 = .ok 0 := by
  intro thread st
  have hreach : Store.Reachable .lazy .small st.tags.store := ⟨.granting, _, rfl, .refl⟩
  obtain ⟨⟨hfirst, -⟩, -⟩ := inline_stores_recover_once hreach .zero [.storeByte ⟨0⟩ ⟨1⟩]
  obtain ⟨n, hn, hstores, -⟩ := hfirst.once ⟨0⟩ ⟨1⟩ rfl (by decide)
  have hrun := (hstores n _ _).mpr ⟨rfl, rfl, rfl⟩
  have hok : (outcome ((InlineInstr.storeByte ⟨0⟩ ⟨1⟩).exec .zero) st).1 = .ok () := by
    decide +kernel
  rw [hok] at hrun
  exact ⟨by decide, n, hn, _, hrun, by decide +kernel, by decide +kernel⟩

end TaintFlow
