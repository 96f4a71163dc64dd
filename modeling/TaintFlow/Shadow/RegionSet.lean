/-!
# Region sets

A set of region numbers below a fixed bound, as one bit per region in 64-bit words. Number `i` is
bit `i % 64` of word `i / 64`. Adding a number within the bound adds that number and no other. The
members of a word are found by taking off its lowest bit again and again, so all members are listed
once each in ascending order.
-/

namespace TaintFlow

/-- A set of region numbers. -/
structure RegionSet where
  words : Array UInt64
deriving DecidableEq

namespace RegionSet

/-- The empty set, with room for the numbers below `bound`. -/
def empty (bound : Nat) : RegionSet :=
  ⟨Array.replicate ((bound + 63) / 64) 0⟩

/-- The bit of a number within its word. -/
def bit (i : Nat) : UInt64 :=
  1 <<< UInt64.ofNat (i % 64)

def contains (s : RegionSet) (i : Nat) : Bool :=
  s.words.getD (i / 64) 0 &&& bit i != 0

/-- Add a number that is within the bound. -/
def insert (s : RegionSet) (i : Nat) : RegionSet :=
  ⟨s.words.modify (i / 64) (· ||| bit i)⟩

/-- Add a number that is within the bound, telling whether it is new. -/
def mark (s : RegionSet) (i : Nat) : Bool × RegionSet :=
  (!s.contains i, s.insert i)

/-- The lowest bit set in a word that is not zero. -/
def lowest (w : UInt64) : Nat :=
  w.toBitVec.ctz.toNat

/-- A word without its lowest bit. -/
def clearLowest (w : UInt64) : UInt64 :=
  w &&& (w - 1)

theorem toNat_clearLowest {w : UInt64} (nonzero : w ≠ 0) :
    (clearLowest w).toNat = w.toNat &&& (w.toNat - 1) := by
  have hpos : w.toNat ≠ 0 := fun h => nonzero (UInt64.toNat_inj.mp h)
  have hone : 1 ≤ w := UInt64.le_iff_toNat_le.mpr (Nat.pos_of_ne_zero hpos)
  rw [clearLowest, UInt64.toNat_and, UInt64.toNat_sub_of_le w 1 hone, UInt64.toNat_one]

theorem clearLowest_lt {w : UInt64} (nonzero : w ≠ 0) : (clearLowest w).toNat < w.toNat := by
  have hpos : w.toNat ≠ 0 := fun h => nonzero (UInt64.toNat_inj.mp h)
  have hle : w.toNat &&& (w.toNat - 1) ≤ w.toNat - 1 := Nat.and_le_right
  rw [toNat_clearLowest nonzero]
  omega

/-- The bits set in one word, ascending: the lowest is taken off until none is left. -/
def bitsOf (w : UInt64) : List Nat :=
  if w = 0 then [] else lowest w :: bitsOf (clearLowest w)
termination_by w.toNat
decreasing_by exact clearLowest_lt ‹_›

/-- The members in ascending order. -/
def toList (s : RegionSet) : List Nat :=
  s.words.toList.zipIdx.flatMap fun (w, k) => (bitsOf w).map (64 * k + ·)

/-! ## One word -/

theorem toNat_bit (i : Nat) : (bit i).toNat = 1 <<< (i % 64) := by
  have hlt : i % 64 < 64 := Nat.mod_lt i (by decide)
  have hmod : (UInt64.ofNat (i % 64)).toNat % 64 = i % 64 := by
    rw [UInt64.toNat_ofNat']
    omega
  have hbound : 1 <<< (i % 64) < 2 ^ 64 := by
    rw [Nat.one_shiftLeft]
    exact Nat.pow_lt_pow_right (by decide) hlt
  rw [bit, UInt64.toNat_shiftLeft, hmod, UInt64.toNat_one]
  exact Nat.mod_eq_of_lt hbound

theorem and_one_shiftLeft_eq_zero_iff (n b : Nat) :
    n &&& 1 <<< b = 0 ↔ n.testBit b = false := by
  rw [Nat.one_shiftLeft]
  constructor
  · intro h
    have hb := congrArg (fun k => k.testBit b) h
    simpa [Nat.testBit_and, Nat.testBit_two_pow] using hb
  · intro h
    apply Nat.eq_of_testBit_eq
    intro k
    rw [Nat.testBit_and, Nat.testBit_two_pow, Nat.zero_testBit]
    by_cases hk : b = k
    · rw [← hk, h, Bool.false_and]
    · simp [hk]

/-- A word meets the bit of a number exactly if it has that bit. -/
theorem and_bit (w : UInt64) (i : Nat) : (w &&& bit i != 0) = w.toNat.testBit (i % 64) := by
  have hzero : w &&& bit i = 0 ↔ w.toNat.testBit (i % 64) = false := by
    rw [← and_one_shiftLeft_eq_zero_iff, ← toNat_bit, ← UInt64.toNat_and, ← UInt64.toNat_inj,
      UInt64.toNat_zero]
  cases hb : w.toNat.testBit (i % 64) with
  | false => simpa using hzero.mpr hb
  | true =>
    have hne : w &&& bit i ≠ 0 := fun h => by
      rw [hzero.mp h] at hb
      contradiction
    simpa using hne

/-- Up to its lowest bit, a number is a power of two. -/
theorem mod_of_lowest {n t : Nat} (set : n.testBit t = true)
    (clear : ∀ i < t, n.testBit i = false) : n % (1 <<< (t + 1)) = 1 <<< t := by
  rw [Nat.one_shiftLeft, Nat.one_shiftLeft]
  apply Nat.eq_of_testBit_eq
  intro i
  rw [Nat.testBit_mod_two_pow, Nat.testBit_two_pow]
  rcases Nat.lt_trichotomy i t with hi | rfl | hi
  · have hne : t ≠ i := by omega
    simp [clear i hi, hne]
  · simp [set]
  · have hne : t ≠ i := by omega
    have hnot : ¬ i < t + 1 := by omega
    simp [hnot, hne]

/-- Meeting a number with its predecessor takes off the lowest bit and no other. -/
theorem testBit_and_sub_one {n t : Nat} (set : n.testBit t = true)
    (clear : ∀ i < t, n.testBit i = false) (b : Nat) :
    (n &&& (n - 1)).testBit b = (n.testBit b && b != t) := by
  have hpos : 0 < 2 ^ t := Nat.two_pow_pos t
  have hgrow : 2 ^ t < 2 ^ (t + 1) := Nat.pow_lt_pow_right (by decide) (Nat.lt_succ_self t)
  have hmod := mod_of_lowest set clear
  rw [Nat.one_shiftLeft, Nat.one_shiftLeft] at hmod
  have hdiv := Nat.div_add_mod n (2 ^ (t + 1))
  -- Borrowing stops at bit `t`, so the predecessor has the same bits above it and all bits below.
  have hpred : n - 1 = 2 ^ (t + 1) * (n / 2 ^ (t + 1)) + (2 ^ t - 1) := by omega
  rw [Nat.testBit_and, hpred, Nat.testBit_two_pow_mul_add _ (by omega), Nat.testBit_two_pow_sub_one]
  rcases Nat.lt_trichotomy b t with hb | rfl | hb
  · simp [clear b hb]
  · simp
  · have hne : b ≠ t := by omega
    have hnot : ¬ b < t + 1 := by omega
    rw [if_neg hnot, Nat.testBit_div_two_pow, Nat.sub_add_cancel (by omega), Bool.and_self]
    simp [hne]

theorem testBit_lowest {w : UInt64} (nonzero : w ≠ 0) : w.toNat.testBit (lowest w) = true := by
  have hword : w.toBitVec ≠ 0#64 := fun h => nonzero (UInt64.toBitVec_inj.mp h)
  exact BitVec.getLsbD_true_ctz_of_ne_zero hword

theorem testBit_of_lt_lowest {w : UInt64} {b : Nat} (below : b < lowest w) :
    w.toNat.testBit b = false :=
  BitVec.getLsbD_false_of_lt_ctz below

theorem testBit_clearLowest {w : UInt64} (nonzero : w ≠ 0) (b : Nat) :
    (clearLowest w).toNat.testBit b = (w.toNat.testBit b && b != lowest w) := by
  rw [toNat_clearLowest nonzero]
  exact testBit_and_sub_one (testBit_lowest nonzero) (fun _ => testBit_of_lt_lowest) b

theorem mem_bitsOf_iff_testBit {w : UInt64} {b : Nat} :
    b ∈ bitsOf w ↔ w.toNat.testBit b = true := by
  fun_induction bitsOf w with
  | case1 => simp
  | case2 w nonzero ih =>
    rw [List.mem_cons, ih, testBit_clearLowest nonzero, Bool.and_eq_true, bne_iff_ne]
    by_cases hb : b = lowest w
    · simp [hb, testBit_lowest nonzero]
    · simp [hb]

theorem mem_bitsOf {w : UInt64} {b : Nat} : b ∈ bitsOf w ↔ b < 64 ∧ w.toNat.testBit b = true := by
  rw [mem_bitsOf_iff_testBit, iff_and_self]
  intro h
  refine Nat.lt_of_not_le fun hlarge => ?_
  have hbound : w.toNat < 2 ^ b :=
    Nat.lt_of_lt_of_le w.toNat_lt (Nat.pow_le_pow_right (by decide) hlarge)
  rw [Nat.testBit_lt_two_pow hbound] at h
  contradiction

theorem bitsOf_sorted (w : UInt64) : (bitsOf w).Pairwise (· < ·) := by
  fun_induction bitsOf w with
  | case1 => exact List.Pairwise.nil
  | case2 w nonzero ih =>
    refine List.pairwise_cons.mpr ⟨fun b hb => ?_, ih⟩
    rw [mem_bitsOf_iff_testBit, testBit_clearLowest nonzero, Bool.and_eq_true, bne_iff_ne] at hb
    obtain ⟨hset, hne⟩ := hb
    have hle : ¬ b < lowest w := fun below => by
      rw [testBit_of_lt_lowest below] at hset
      contradiction
    omega

/-! ## Membership -/

theorem contains_eq_testBit (s : RegionSet) (i : Nat) :
    s.contains i = (s.words.getD (i / 64) 0).toNat.testBit (i % 64) :=
  and_bit _ i

@[simp] theorem contains_empty (bound i : Nat) : (empty bound).contains i = false := by
  rw [contains_eq_testBit, empty, Array.getD_eq_getD_getElem?, Array.getElem?_replicate]
  split <;> simp

/-- There is a word for every number below the bound. -/
theorem word_in_empty {bound i : Nat} (h : i < bound) : i / 64 < (empty bound).words.size := by
  rw [empty, Array.size_replicate]
  omega

/-- Adding a number changes the membership of that number only. -/
theorem contains_insert (s : RegionSet) {i : Nat} (within : i / 64 < s.words.size) (j : Nat) :
    (s.insert i).contains j = (decide (i = j) || s.contains j) := by
  rw [contains_eq_testBit, contains_eq_testBit, insert, Array.getD_eq_getD_getElem?,
    Array.getD_eq_getD_getElem?, Array.getElem?_modify]
  by_cases hword : i / 64 = j / 64
  · have hin : j / 64 < s.words.size := by omega
    have hiff : (i % 64 = j % 64) = (i = j) := propext (by omega)
    rw [if_pos hword, Array.getElem?_eq_getElem hin, Option.map_some, Option.getD_some,
      Option.getD_some, UInt64.toNat_or, toNat_bit, Nat.one_shiftLeft, Nat.testBit_or,
      Nat.testBit_two_pow, Bool.or_comm]
    simp only [hiff]
  · have hne : i ≠ j := fun h => hword (by rw [h])
    rw [if_neg hword]
    simp [hne]

theorem mem_toList {s : RegionSet} {i : Nat} : i ∈ s.toList ↔ s.contains i = true := by
  rw [contains_eq_testBit, toList, List.mem_flatMap]
  constructor
  · rintro ⟨⟨w, k⟩, hk, hi⟩
    obtain ⟨b, hb, rfl⟩ := List.mem_map.mp hi
    obtain ⟨hlt, hbit⟩ := mem_bitsOf.mp hb
    rw [List.mk_mem_zipIdx_iff_getElem?, Array.getElem?_toList] at hk
    have hdiv : (64 * k + b) / 64 = k := by omega
    have hmod : (64 * k + b) % 64 = b := by omega
    rw [hdiv, hmod, Array.getD_eq_getD_getElem?, hk]
    exact hbit
  · intro h
    cases hw : s.words[i / 64]? with
    | none => simp [Array.getD_eq_getD_getElem?, hw] at h
    | some w =>
      refine ⟨(w, i / 64), ?_, List.mem_map.mpr ⟨i % 64, mem_bitsOf.mpr ⟨?_, ?_⟩, ?_⟩⟩
      · rw [List.mk_mem_zipIdx_iff_getElem?, Array.getElem?_toList]
        exact hw
      · exact Nat.mod_lt i (by decide)
      · simpa [Array.getD_eq_getD_getElem?, hw] using h
      · exact Nat.div_add_mod i 64

theorem toList_sorted (s : RegionSet) : s.toList.Pairwise (· < ·) := by
  rw [toList, List.pairwise_flatMap]
  constructor
  · rintro ⟨w, k⟩ _
    rw [List.pairwise_map]
    exact (bitsOf_sorted w).imp fun h => Nat.add_lt_add_left h _
  · rw [List.pairwise_iff_getElem]
    intro m n hm hn hmn i hi j hj
    rw [List.getElem_zipIdx] at hi hj
    obtain ⟨b, hb, rfl⟩ := List.mem_map.mp hi
    obtain ⟨c, _, rfl⟩ := List.mem_map.mp hj
    have hlt : b < 64 := (mem_bitsOf.mp hb).1
    omega

end RegionSet
end TaintFlow
