import TaintFlow.Tag
import TaintFlow.Text.Hex

/-!
# System calls and leaks

The system calls that the leak guard watches, the classes of address it tells apart, and what it
reports when a tagged byte is about to leave the process.
-/

namespace TaintFlow

/-- A watched system call. -/
inductive Syscall where
  | write
  | brk
  | mmap2
  | send
deriving DecidableEq, Repr

namespace Syscall

def number : Syscall → UInt32
  | .write => 4
  | .brk => 45
  | .mmap2 => 192
  | .send => 289

def name : Syscall → String
  | .write => "Write"
  | .brk => "Brk"
  | .mmap2 => "Mmap2"
  | .send => "Send"

def ofNumber? (n : UInt32) : Option Syscall :=
  [Syscall.write, .brk, .mmap2, .send].find? fun s => s.number == n

/-- Whether the call returns a fresh address. -/
def returnsAddress : Syscall → Bool
  | .brk | .mmap2 => true
  | .write | .send => false

/-- Whether the call sends a buffer out of the process. -/
def isSink : Syscall → Bool
  | .write | .send => true
  | .brk | .mmap2 => false

end Syscall

/-- A class of address, which has a tag of its own. -/
inductive AddressClass where
  | stack
  | text
  | heap
deriving DecidableEq, Repr

namespace AddressClass

def tag : AddressClass → Tag
  | .stack => 0x41
  | .text => 0x42
  | .heap => 0x43

def name : AddressClass → String
  | .stack => "Stack"
  | .text => "Text"
  | .heap => "Heap"

def ofTag? (t : Tag) : Option AddressClass :=
  [AddressClass.stack, .text, .heap].find? fun c => c.tag == t

end AddressClass

/-- A tagged byte in a buffer that is about to leave the process. -/
structure Leak where
  syscall : Syscall
  address : Address
  tag : Tag
deriving DecidableEq, Repr

namespace Leak

/-- The class of the leaked address, if the tag is that of one class. -/
def addressClass (l : Leak) : Option AddressClass :=
  AddressClass.ofTag? l.tag

def text (l : Leak) : String :=
  let kind :=
    match l.addressClass with
    | some c => c.name.toLower
    | none => "mixed"
  l.syscall.name ++ " leaks " ++ kind ++ " address at " ++ Hex.text l.address.toNat
    ++ " (tag: " ++ Hex.text l.tag.toNat ++ ")"

end Leak

/-- What to do with a system call. -/
inductive Verdict where
  | allow
  /-- The call proceeds, but it has been reported. -/
  | leak (l : Leak)
  /-- The call is to be skipped and to fail. -/
  | fail (l : Leak)
deriving DecidableEq, Repr

end TaintFlow
