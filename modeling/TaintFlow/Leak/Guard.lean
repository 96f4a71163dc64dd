import TaintFlow.Inline.Emitter
import TaintFlow.Leak.Options
import TaintFlow.Leak.Syscall
import TaintFlow.Thread

/-!
# The leak guard

The guard tags every place where a program learns one of its own addresses: the stack pointer, the
pointer arrays on the initial stack, the program counter where it is read, and the results of calls
that return fresh memory. Before a system call that sends a buffer out, it looks for tags in the
buffer.
-/

namespace TaintFlow

/-- The words of application memory that can be read when a program starts. -/
structure StackImage where
  words : List (Address × UInt32)

namespace StackImage

/-- The word at an address; the first entry for the address counts. -/
def word? (m : StackImage) (a : Address) : Option UInt32 :=
  m.words.lookup a

/-- How many of the `limit` words from `a` there are before one is zero or cannot be read. -/
def runLength (m : StackImage) : Nat → Address → Nat
  | 0, _ => 0
  | limit + 1, a =>
    match m.word? a with
    | none => 0
    | some w => if w = 0 then 0 else runLength m limit (a + wordSize) + 1

/-- The length of the array at `a`, which ends before the first word that is zero or cannot be read.
There are no more readable words than entries. -/
def arrayLength (m : StackImage) (a : Address) : Nat :=
  m.runLength m.words.length a

end StackImage

namespace LeakGuard

/-! ## Sources -/

/-- Tag `count` words from `a` as stack addresses. -/
def taintWords : Nat → Address → Action Store ShadowError Unit
  | 0, _ => pure ()
  | count + 1, a => do
    Store.setTag a AddressClass.stack.tag
    taintWords count (a + wordSize)

/-- Tag the two pointer arrays of the initial stack. -/
def taintStack (argv : Address) (argc : Nat) (envp : Address) (envc : Nat) :
    Action Store ShadowError Unit := do
  taintWords argc argv
  taintWords envc envp

/-- Tag the initial stack at `sp`: the argument count, the argument array with its terminator, then
the environment array. Nothing is tagged when the argument count cannot be read. -/
def onEntry (m : StackImage) (sp : Address) : Action Store ShadowError Unit :=
  match m.word? sp with
  | none => pure ()
  | some argc =>
    let argv := sp + wordSize
    let envp := argv + (argc.toUInt64 + 1) * wordSize
    taintStack argv argc.toNat envp (m.arrayLength envp)

/-- Tag one register of a thread. -/
def taintReg (r : Reg) (c : AddressClass) : Action ThreadContext RegisterError Unit :=
  fun thread =>
    match thread.setTag r c.tag with
    | .ok thread => .ok () thread
    | .error e => .error e thread

/-- Tag the stack pointer of a new thread. -/
def onThreadInit : Action ThreadContext RegisterError Unit :=
  taintReg .sp .stack

/-- Tag the program counter if the instruction reads it, before the instruction is propagated. -/
def onPcRead (i : Instr) : Action ThreadContext RegisterError Unit := do
  if i.readsPc && (← get).tracks .pc then taintReg .pc .text

/-- Tag the result of a call that returned a fresh address. -/
def onPostSyscall (number : UInt32) (succeeded : Bool) : Action ThreadContext RegisterError Unit :=
  match Syscall.ofNumber? number with
  | some call => if succeeded && call.returnsAddress then taintReg ⟨0⟩ .heap else pure ()
  | none => pure ()

/-- The inline code that tags the program counter. -/
def pcCode (tag addr : Scratch) : List InlineInstr :=
  [.moveImm tag AddressClass.text.tag, .regToShadow addr .pc, .storeByte addr tag]

/-- Insert code that tags the program counter in front of an instruction that reads it. The second
register is given back first, and the first one only if that succeeds. -/
def instrumentPcRead {σ ε : Type} (em : Emitter σ ε) (tracksPc : Bool) (i : Instr) :
    Action σ ε Unit := do
  if i.readsPc && tracksPc then
    let tag ← em.reserve
    let addr ← em.reserve.undoneBy (em.release tag)
    (em.insertAll (pcCode tag addr)).closedBy (do em.release addr; em.release tag)

/-! ## Sinks -/

/-- The first tagged word among `count` words from `a`, with its tag. -/
def firstTagged (s : Store) : Nat → Address → Except ShadowError (Option (Address × Tag))
  | 0, _ => .ok none
  | count + 1, a =>
    match s.tagOf a with
    | .error e => .error e
    | .ok t => if t = 0 then firstTagged s count (a + wordSize) else .ok (some (a, t))

/-- The aligned word that an address lies in. -/
def wordOf (a : Address) : Address :=
  a &&& ~~~(wordSize - 1)

/-- How many aligned words a buffer touches. The end of a buffer is at most the last address. -/
def wordsIn (buffer length : Address) : Nat :=
  let stop := min (buffer.toNat + length.toNat) (UInt64.size - 1)
  (stop - (wordOf buffer).toNat + 3) / 4

/-- Look for a tag in the buffer of a system call that sends it out. -/
def onPreSyscall (o : LeakOptions) (s : Store) (number : UInt32) (buffer length : Address) :
    Except ShadowError Verdict := do
  match Syscall.ofNumber? number with
  | none => return .allow
  | some call =>
    if !call.isSink || length = 0 then
      return .allow
    match ← firstTagged s (wordsIn buffer length) (wordOf buffer) with
    | none => return .allow
    | some (a, tag) =>
      let leak : Leak := ⟨call, max a buffer, tag⟩
      return if o.failAddressLeaks then .fail leak else .leak leak

end LeakGuard
end TaintFlow
