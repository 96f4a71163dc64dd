import TaintFlow.Dump.Writer

/-!
# Dump files

A dump goes to a file that is named by a path. The names of a path are followed one by one, and
every place on the way has to be a directory, also one that a later `..` leaves again. The file can
be created unless its place is a directory. Names and paths of excessive length lead nowhere.
-/

namespace TaintFlow.Dump

/-- What stands at a place before anything is dumped. -/
inductive FileNode where
  | directory
  /-- What is written there goes to a sink of its own. -/
  | device (sink : Sink)

/-- The places that exist, each as the names that lead to it from the root. -/
structure FileTree where
  nodes : List (List String × FileNode)
  /-- Where paths start that do not start at the root. -/
  working : List String

namespace FileTree

/-- The longest name, in bytes. -/
def nameLimit : Nat := 255

/-- The longest path, in bytes. -/
def pathLimit : Nat := 4095

/-- What every system has: directories for temporary files, and the devices that take everything and
nothing. -/
def minimal : FileTree where
  nodes :=
    [([], .directory), (["home"], .directory), (["tmp"], .directory), (["var"], .directory),
      (["var", "tmp"], .directory), (["dev"], .directory),
      (["dev", "null"], .device .unlimited), (["dev", "full"], .device ⟨[], some 0, false⟩)]
  working := ["home"]

def isDirectory (t : FileTree) (place : List String) : Bool :=
  match t.nodes.lookup place with
  | some .directory => true
  | _ => false

/-- The place that a name leads to from a directory. -/
def step (place : List String) (name : String) : List String :=
  if name = "" ∨ name = "." then place
  else if name = ".." then place.dropLast
  else place ++ [name]

/-- The directory that some names lead to. -/
def follow? (t : FileTree) (place : List String) : List String → Option (List String)
  | [] => if t.isDirectory place then some place else none
  | name :: rest => if t.isDirectory place then t.follow? (step place name) rest else none

/-- Whether a path names anything at all. -/
def admits (path : String) : Bool :=
  !path.isEmpty && decide (path.utf8ByteSize ≤ pathLimit) && !path.contains '\x00'

/-- An empty file at a path, if it can be created. -/
def create? (t : FileTree) (path : String) : Option Sink := do
  guard (admits path)
  let names := path.splitOn "/"
  let name ← names.getLast?
  guard (name ∉ ["", ".", ".."] ∧ name.utf8ByteSize ≤ nameLimit)
  let start := if names.head? = some "" then [] else t.working
  let directory ← t.follow? start names.dropLast
  match t.nodes.lookup (directory ++ [name]) with
  | none => some .unlimited
  | some (.device sink) => some sink
  | some .directory => none

end FileTree
end TaintFlow.Dump
