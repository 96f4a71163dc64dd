import Std.Data.TreeMap
import TaintFlow.Tag

/-!
# Shadow bytes

Byte-addressed memory that reads as zero wherever nothing was written. Only the non-zero bytes are
kept, so a large shadow costs nothing until it is used, and the kept positions are the support.
-/

namespace TaintFlow

/-- The non-zero bytes of a memory, by position. -/
structure Memory where
  cells : Std.TreeMap Nat Tag
  cells_ne_zero : ∀ i : Nat, cells[i]? ≠ some 0

namespace Memory

def zero : Memory where
  cells := {}
  cells_ne_zero := by simp

def read (m : Memory) (i : Nat) : Tag :=
  m.cells.getD i 0

def write (m : Memory) (i : Nat) (t : Tag) : Memory :=
  if h : t = 0 then
    { cells := m.cells.erase i
      cells_ne_zero := by
        intro j
        rw [Std.TreeMap.getElem?_erase]
        split
        · simp
        · exact m.cells_ne_zero j }
  else
    { cells := m.cells.insert i t
      cells_ne_zero := by
        intro j
        rw [Std.TreeMap.getElem?_insert]
        split
        · simpa using h
        · exact m.cells_ne_zero j }

/-- Set the `length` bytes from `start` to zero. -/
def zeroFill (m : Memory) (start length : Nat) : Memory where
  cells := m.cells.filter fun i _ => !(decide (start ≤ i) && decide (i < start + length))
  cells_ne_zero := by
    intro j
    rw [Std.TreeMap.getElem?_filter']
    intro h
    exact m.cells_ne_zero j (Option.eq_some_of_filter_eq_some h)

/-- The `length` bytes from `start`. -/
def slice (m : Memory) (start length : Nat) : List Tag :=
  (List.range length).map fun k => m.read (start + k)

/-- The positions of the non-zero bytes, ascending. -/
def support (m : Memory) : List Nat :=
  m.cells.keys

@[simp] theorem read_zero (i : Nat) : zero.read i = 0 := by
  simp [zero, read]

theorem read_write (m : Memory) (i j : Nat) (t : Tag) :
    (m.write i t).read j = if i = j then t else m.read j := by
  unfold write read
  by_cases ht : t = 0
  · simp [ht, Std.TreeMap.getD_erase]
  · simp [ht, Std.TreeMap.getD_insert]

theorem read_zeroFill (m : Memory) (start length i : Nat) :
    (m.zeroFill start length).read i =
      if start ≤ i ∧ i < start + length then 0 else m.read i := by
  unfold zeroFill read
  rw [Std.TreeMap.getD_eq_getD_getElem?, Std.TreeMap.getElem?_filter',
    Std.TreeMap.getD_eq_getD_getElem?]
  by_cases h : start ≤ i ∧ i < start + length
  · cases m.cells[i]? <;> simp [h]
  · have kept : (!(decide (start ≤ i) && decide (i < start + length))) = true := by
      rw [Bool.not_eq_true', Bool.and_eq_false_iff, decide_eq_false_iff_not,
        decide_eq_false_iff_not]
      omega
    cases m.cells[i]? <;> simp only [h, kept, Option.filter, if_true, if_false]

@[simp] theorem length_slice (m : Memory) (start length : Nat) :
    (m.slice start length).length = length := by
  simp [slice]

theorem mem_support {m : Memory} {i : Nat} : i ∈ m.support ↔ m.read i ≠ 0 := by
  have hne := m.cells_ne_zero i
  rw [support, read, Std.TreeMap.mem_keys, Std.TreeMap.mem_iff_isSome_getElem?,
    Std.TreeMap.getD_eq_getD_getElem?]
  cases h : m.cells[i]? with
  | none => simp
  | some t => simpa [h] using hne

end Memory
end TaintFlow
