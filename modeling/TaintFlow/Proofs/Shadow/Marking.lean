import Mathlib.Data.List.Induction
import Mathlib.Data.List.Sort
import Mathlib.Logic.Function.Iterate
import TaintFlow.Proofs.Shadow.Consistency

/-!
# Marking regions

Numbers below a bound are added to an empty set one after the other. Each is told to be new the
first time only, and the set holds what was added and nothing else. Its members are listed word by
word; a word is used up after as many steps as it has bits, and the list ascends.
-/

namespace TaintFlow

namespace RegionSet

/-! ## The bits of a word -/

/-- Once its bits are taken off, nothing is left of a word. -/
theorem iterate_clearLowest (w : UInt64) : clearLowest^[(bitsOf w).length] w = 0 := by
  fun_induction bitsOf w with
  | case1 => rfl
  | case2 w nonzero ih => rw [List.length_cons, Function.iterate_succ_apply, ih]

theorem length_bitsOf_le (w : UInt64) : (bitsOf w).length ≤ 64 := by
  have hnodup : (bitsOf w).Nodup := (bitsOf_sorted w).imp Nat.ne_of_lt
  have hsubset : bitsOf w ⊆ List.range 64 := fun b hb => List.mem_range.mpr (mem_bitsOf.mp hb).1
  have hlength := (List.subperm_of_subset hnodup hsubset).length_le
  rwa [List.length_range] at hlength

/-! ## One number after the other -/

/-- The set that is left once numbers have been marked, in order. -/
def marked (bound : Nat) (is : List Nat) : RegionSet :=
  is.foldl (fun s i => (s.mark i).2) (empty bound)

theorem marked_concat (bound : Nat) (is : List Nat) (i : Nat) :
    marked bound (is ++ [i]) = ((marked bound is).mark i).2 := by
  rw [marked, List.foldl_concat, marked]

theorem size_marked (bound : Nat) (is : List Nat) :
    (marked bound is).words.size = (empty bound).words.size := by
  induction is using List.reverseRecOn with
  | nil => rfl
  | append_singleton is i ih => rw [marked_concat, mark, size_insert, ih]

theorem word_in_marked {bound i : Nat} (h : i < bound) (is : List Nat) :
    i / 64 < (marked bound is).words.size :=
  size_marked bound is ▸ word_in_empty h

theorem contains_mark {s : RegionSet} {i : Nat} (within : i / 64 < s.words.size) (j : Nat) :
    (s.mark i).2.contains j = true ↔ j = i ∨ s.contains j = true := by
  rw [mark, contains_insert s within, Bool.or_eq_true, decide_eq_true_iff, eq_comm]

theorem contains_marked {bound : Nat} {is : List Nat} (h : ∀ i ∈ is, i < bound) (j : Nat) :
    (marked bound is).contains j = true ↔ j ∈ is := by
  -- On the run from its end: the last mark is the outermost, and the set before it is a run too.
  induction is using List.reverseRecOn with
  | nil => simp [marked]
  | append_singleton is i ih =>
      obtain ⟨his, hi⟩ := List.forall_mem_append.mp h
      have hword := word_in_marked (hi i List.mem_cons_self) is
      rw [marked_concat, contains_mark hword, ih his, List.mem_append, List.mem_singleton, or_comm]

/-- Marking is exact: every number of the run has its word, is told to be new the first time only,
and changes nothing but its own membership. In the end the members are the numbers of the run; they
are listed once each and ascending, and no word takes more than sixty-four steps. -/
theorem marks_recorded {bound : Nat} {is : List Nat} (h : ∀ i ∈ is, i < bound) :
    (∀ before i after, is = before ++ i :: after →
        let s := marked bound before
        i / 64 < s.words.size ∧ ((s.mark i).1 = true ↔ i ∉ before) ∧
          (s.mark i).2.contains i = true ∧
          ∀ j, j ≠ i → (s.mark i).2.contains j = s.contains j) ∧
      (∀ i, i < bound → i / 64 < (marked bound is).words.size) ∧
      (∀ i, (marked bound is).contains i = true ↔ i ∈ is) ∧
      (∀ w ∈ (marked bound is).words,
        (bitsOf w).length ≤ 64 ∧ clearLowest^[(bitsOf w).length] w = 0) ∧
      (marked bound is).toList.Pairwise (· < ·) ∧
      ∀ i, i ∈ (marked bound is).toList ↔ i ∈ is := by
  refine ⟨fun before i after hsplit => ?_, fun i hi => word_in_marked hi is, contains_marked h,
    fun w _ => ⟨length_bitsOf_le w, iterate_clearLowest w⟩, toList_sorted _, fun i => ?_⟩
  · have hbefore : ∀ k ∈ before, k < bound := fun k hk => h k (by simp [hsplit, hk])
    have hword := word_in_marked (h i (by simp [hsplit])) before
    refine ⟨hword, ?_, (contains_mark hword i).mpr (Or.inl rfl), fun j hj => ?_⟩
    · rw [mark, Bool.not_eq_true', ← Bool.not_eq_true, contains_marked hbefore]
    · rw [Bool.eq_iff_iff, contains_mark hword, or_iff_right hj]
  · rw [mem_toList]
    exact contains_marked h i

/-- Two numbers of one word, the second of them marked twice, and one of the last word. -/
theorem marks_recorded_repeated :
    let is := [130, 64, 65, 65]
    (∀ i ∈ is, i < 200) ∧ ((marked 200 [130, 64]).mark 65).1 = true ∧
      ((marked 200 [130, 64, 65]).mark 65).1 = false ∧ (marked 200 is).contains 66 = false ∧
      (marked 200 is).toList = [64, 65, 130] := by
  intro is
  have hbound : ∀ i ∈ is, i < 200 := by decide
  obtain ⟨hruns, -, hmembers, -, hsorted, hlist⟩ := marks_recorded hbound
  obtain ⟨-, hfirst, -⟩ := hruns [130, 64] 65 [65] rfl
  obtain ⟨-, hagain, -⟩ := hruns [130, 64, 65] 65 [] rfl
  refine ⟨hbound, hfirst.mpr (by decide), ?_, ?_, ?_⟩
  · exact Bool.not_eq_true _ ▸ fun h => hagain.mp h (by decide)
  · exact Bool.not_eq_true _ ▸ fun h => absurd ((hmembers 66).mp h) (by decide)
  · have hascending : [64, 65, 130].Pairwise (· < ·) := by decide
    refine hsorted.eq_of_mem_iff hascending fun i => ?_
    rw [hlist]
    simp only [is, List.mem_cons, List.not_mem_nil, or_false]
    omega

end RegionSet
end TaintFlow
