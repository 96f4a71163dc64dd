import TaintFlow.Leak.Guard
import TaintFlow.Proofs.Plan.TagFamilies

/-!
# What the guard writes and reads

A source of the guard writes the tag of one class, to memory or to a register. A sink reports a tag
that it has read from memory.
-/

namespace TaintFlow

open TaintFlow.Action

namespace LeakGuard

variable {F : TagFamily}

/-! ## Sources -/

theorem preserves_taintWords (hF : AddressClass.stack.tag ∈ F) (count : Nat) (a : Address) :
    Preserves (Store.Within F) (fun _ => True) (taintWords count a) := by
  -- On the words that are left, each one a word further.
  induction count generalizing a with
  | zero => exact preserves_pure ()
  | succ count ih =>
      apply preserves_bind (Store.preserves_within_setTag a hF)
      exact fun _ => ih (a + wordSize)

theorem preserves_taintStack (hF : AddressClass.stack.tag ∈ F) (argv : Address) (argc : Nat)
    (envp : Address) (envc : Nat) :
    Preserves (Store.Within F) (fun _ => True) (taintStack argv argc envp envc) := by
  apply preserves_bind (preserves_taintWords hF argc argv)
  exact fun _ => preserves_taintWords hF envc envp

theorem preserves_onEntry (hF : AddressClass.stack.tag ∈ F) (m : StackImage) (sp : Address) :
    Preserves (Store.Within F) (fun _ => True) (onEntry m sp) := by
  unfold onEntry
  cases m.word? sp with
  | none => exact preserves_pure ()
  | some argc => exact preserves_taintStack hF _ _ _ _

theorem preserves_taintReg (r : Reg) {c : AddressClass} (hF : c.tag ∈ F) :
    Preserves (ThreadContext.Within F) (fun _ => True) (taintReg r c) := by
  intro thread h
  unfold taintReg
  cases hset : thread.setTag r c.tag with
  | ok d => exact h.setTag hF hset
  | error e => exact ⟨h, trivial⟩

theorem preserves_onPcRead (i : Instr) (hF : i.readsPc = true → AddressClass.text.tag ∈ F) :
    Preserves (ThreadContext.Within F) (fun _ => True) (onPcRead i) := by
  apply preserves_bind preserves_get
  intro thread
  by_cases h : (i.readsPc && thread.tracks .pc) = true
  · rw [if_pos h]
    exact preserves_taintReg .pc (hF (Bool.and_eq_true_iff.mp h).1)
  · rw [if_neg h]
    exact preserves_pure ()

/-- Whether a call of this number and outcome has given out a fresh address. -/
def gaveAddress (number : UInt32) (succeeded : Bool) : Bool :=
  match Syscall.ofNumber? number with
  | some call => succeeded && call.returnsAddress
  | none => false

theorem preserves_onPostSyscall (number : UInt32) (succeeded : Bool)
    (hF : gaveAddress number succeeded = true → AddressClass.heap.tag ∈ F) :
    Preserves (ThreadContext.Within F) (fun _ => True) (onPostSyscall number succeeded) := by
  unfold gaveAddress at hF
  unfold onPostSyscall
  cases hcall : Syscall.ofNumber? number with
  | none => exact preserves_pure ()
  | some call =>
      rw [hcall] at hF
      dsimp only at hF ⊢
      by_cases h : (succeeded && call.returnsAddress) = true
      · rw [if_pos h]
        exact preserves_taintReg ⟨0⟩ (hF h)
      · rw [if_neg h]
        exact preserves_pure ()

/-! ## Sinks -/

theorem tagOf_of_firstTagged {s : Store} {count : Nat} {a b : Address} {t : Tag}
    (h : firstTagged s count a = .ok (some (b, t))) : s.tagOf b = .ok t := by
  induction count generalizing a with
  | zero => cases h
  | succ count ih =>
      unfold firstTagged at h
      cases ha : s.tagOf a with
      | error e =>
          rw [ha] at h
          contradiction
      | ok u =>
          rw [ha] at h
          dsimp only at h
          split at h
          · exact ih h
          · cases h
            exact ha

end LeakGuard

/-- The leak that a verdict reports. -/
def Verdict.leak? : Verdict → Option Leak
  | .allow => none
  | .leak l | .fail l => some l

theorem LeakGuard.tagOf_of_onPreSyscall {o : LeakOptions} {s : Store} {number : UInt32}
    {buffer length : Address} {v : Verdict} {leak : Leak}
    (h : onPreSyscall o s number buffer length = .ok v) (hleak : v.leak? = some leak) :
    ∃ a, s.tagOf a = .ok leak.tag := by
  unfold onPreSyscall at h
  cases hcall : Syscall.ofNumber? number with
  | none =>
      rw [hcall] at h
      cases h
      contradiction
  | some call =>
      rw [hcall] at h
      dsimp only at h
      by_cases hsink : (!call.isSink || decide (length = 0)) = true
      · rw [if_pos hsink] at h
        cases h
        contradiction
      · rw [if_neg hsink] at h
        cases hfirst : firstTagged s (wordsIn buffer length) (wordOf buffer) with
        | error e =>
            rw [hfirst] at h
            contradiction
        | ok found =>
            rw [hfirst] at h
            cases found with
            | none =>
                cases h
                contradiction
            | some found =>
                obtain ⟨a, t⟩ := found
                have htag : leak.tag = t := by
                  cases h
                  split at hleak <;> cases hleak <;> rfl
                rw [htag]
                exact ⟨a, tagOf_of_firstTagged hfirst⟩

end TaintFlow
