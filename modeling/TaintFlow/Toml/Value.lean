/-!
# Values and tables

The values of a configuration document, and how its key-value pairs build up tables. Every key is
defined once: a dotted key may extend tables that dotted keys made and no others, and a header may
complete a table that was only implied by longer headers.
-/

namespace TaintFlow.Toml

/-- How a table came about, which decides who may extend it. -/
inductive TableKind where
  /-- Written out in braces. -/
  | inline
  /-- Opened by a header of its own. -/
  | header
  /-- Implied by the header of a table inside it. -/
  | implied
  /-- Made by a dotted key. -/
  | dotted
deriving DecidableEq, Repr

/-- A value. Of dates and of numbers with a fraction only the form is checked. -/
inductive Value where
  | string (text : String)
  | integer (n : Int)
  | float
  | boolean (b : Bool)
  | datetime
  | array (items : List Value)
  | table (kind : TableKind) (entries : List (String × Value))
  /-- Tables collected under one repeated header. -/
  | tables (elements : List (List (String × Value)))

/-- The contents of a table, in the order of definition. -/
abbrev Entries := List (String × Value)

namespace Entries

/-- Replace the value of a key that is present. -/
def replace (key : String) (v : Value) (es : Entries) : Entries :=
  es.map fun (k, old) => if k = key then (k, v) else (k, old)

/-- Edit the table that a path leads to, making the tables on the way that are missing. The editor
is told how the table came about. -/
def editAt (dotted : Bool) (edit : TableKind → Entries → Option Entries) :
    List String → TableKind → Entries → Option Entries
  | [], kind, es => edit kind es
  | key :: path, _, es =>
    match es.lookup key with
    | none => do
      let kind := if dotted then TableKind.dotted else TableKind.implied
      let inner ← editAt dotted edit path kind []
      return es ++ [(key, .table kind inner)]
    | some (.table .inline _) => none
    | some (.table .header inner) => do
      guard (!dotted)
      let inner ← editAt dotted edit path .header inner
      return es.replace key (.table .header inner)
    | some (.table kind inner) => do
      let inner ← editAt dotted edit path kind inner
      return es.replace key (.table kind inner)
    | some (.tables elements) => do
      let last ← elements.getLast?
      let last ← editAt dotted edit path .header last
      return es.replace key (.tables (elements.dropLast ++ [last]))
    | some _ => none

/-- Define a key, given as a path, which must be new. -/
def define (es : Entries) (path : List String) (v : Value) : Option Entries := do
  let key ← path.getLast?
  let parents := path.dropLast
  editAt true
    (fun kind inner =>
      if (kind = .dotted) = parents.isEmpty then none
      else if (inner.lookup key).isSome then none
      else some (inner ++ [(key, v)]))
    parents .header es

/-- Define several keys in order. -/
def defineAll (es : Entries) : List (List String × Value) → Option Entries
  | [] => some es
  | (path, v) :: rest => do (← es.define path v).defineAll rest

end Entries

/-- What the pairs of a section belong to. -/
inductive Header where
  | root
  | table (path : List String)
  /-- A further element of an array of tables. -/
  | element (path : List String)

/-- A header with the pairs that follow it. -/
structure Section where
  header : Header
  pairs : List (List String × Value)

/-- Add a section to a document. -/
def Entries.addSection (es : Entries) (s : Section) : Option Entries :=
  match s.header with
  | .root => es.defineAll s.pairs
  | .table path => do
    let key ← path.getLast?
    Entries.editAt false
      (fun _ parent =>
        match parent.lookup key with
        | none => do return parent ++ [(key, .table .header (← Entries.defineAll [] s.pairs))]
        | some (.table .implied inner) => do
          return parent.replace key (.table .header (← Entries.defineAll inner s.pairs))
        | some _ => none)
      path.dropLast .header es
  | .element path => do
    let key ← path.getLast?
    Entries.editAt false
      (fun _ parent =>
        match parent.lookup key with
        | none => do return parent ++ [(key, .tables [← Entries.defineAll [] s.pairs])]
        | some (.tables elements) => do
          let element ← Entries.defineAll [] s.pairs
          return parent.replace key (.tables (elements ++ [element]))
        | some _ => none)
      path.dropLast .header es

/-- The table that the sections of a document make up. -/
def Entries.ofSections (sections : List Section) : Option Entries :=
  sections.foldlM Entries.addSection []

end TaintFlow.Toml
