import Mathlib.Data.List.Perm.Subperm
import Mathlib.Data.List.TakeWhile
import Mathlib.Data.Nat.Find
import Mathlib.Order.WellFounded
import TaintFlow.Proofs.Leak.Sinks
import TaintFlow.Proofs.Shadow.Reachability

/-!
# The initial stack

At the entry point of a program the stack pointer is followed by two arrays of pointers. The guard
takes the length of the first from memory and scans for the end of the second, then tags the words
of both in address order. The words around the arrays keep their tags: no two words of the stack
share a granule, however the stack pointer is aligned.
-/

namespace TaintFlow

namespace StackImage

variable {m : StackImage} {a : Address} {start length : Nat}

/-! ## Arrays -/

/-- A word that can be read and is not zero lies at the number. -/
def PointerAt (m : StackImage) (n : Nat) : Prop :=
  ∃ a : Address, a.toNat = n ∧ ∃ w, m.word? a = some w ∧ w ≠ 0

/-- An array starts at the number, and the word behind it is the first that is zero or cannot be
read. -/
structure ArrayAt (m : StackImage) (start length : Nat) : Prop where
  pointers : ∀ i < length, m.PointerAt (start + 4 * i)
  ended : ¬ m.PointerAt (start + 4 * length)

theorem pointerAt_toNat : m.PointerAt a.toNat ↔ ∃ w, m.word? a = some w ∧ w ≠ 0 := by
  constructor
  · rintro ⟨b, hb, hword⟩
    rwa [UInt64.toNat_inj.mp hb] at hword
  · exact fun h => ⟨a, rfl, h⟩

theorem mem_words_of_pointerAt {n : Nat} (h : m.PointerAt n) :
    n ∈ m.words.map fun entry => entry.1.toNat := by
  obtain ⟨a, rfl, w, hword, -⟩ := h
  obtain ⟨before, after, hwords, -⟩ := List.lookup_eq_some_iff.mp hword
  rw [hwords]
  simp

namespace ArrayAt

/-- Every array ends, at the latest behind the last address. -/
theorem exists_length (m : StackImage) (start : Nat) : ∃ length, m.ArrayAt start length := by
  classical
  have hends : ∃ k, ¬ m.PointerAt (start + 4 * k) := by
    refine ⟨2 ^ 64, ?_⟩
    rintro ⟨a, ha, -⟩
    have hlt := a.toNat_lt
    omega
  exact ⟨Nat.find hends, fun i hi => not_not.mp (Nat.find_min hends hi), Nat.find_spec hends⟩

theorem unique {other : Nat} (h : m.ArrayAt start length) (h' : m.ArrayAt start other) :
    length = other := by
  rcases Nat.lt_trichotomy length other with hlt | heq | hgt
  · exact absurd (h'.pointers length hlt) h.ended
  · exact heq
  · exact absurd (h.pointers other hgt) h'.ended

theorem tail (h : m.ArrayAt start (length + 1)) : m.ArrayAt (start + 4) length := by
  have hplace : ∀ i, start + 4 + 4 * i = start + 4 * (i + 1) := fun i => by omega
  refine ⟨fun i hi => ?_, ?_⟩
  · rw [hplace]
    exact h.pointers (i + 1) (Nat.succ_lt_succ hi)
  · rw [hplace]
    exact h.ended

/-- No array is longer than there are words, because its words are distinct. -/
theorem length_le (h : m.ArrayAt start length) : length ≤ m.words.length := by
  have hnodup : ((List.range length).map fun i => start + 4 * i).Nodup :=
    List.Nodup.map (fun i j hij => by omega) List.nodup_range
  have hwords : ((List.range length).map fun i => start + 4 * i) ⊆
      m.words.map fun entry => entry.1.toNat := by
    intro n hn
    obtain ⟨i, hi, rfl⟩ := List.mem_map.mp hn
    exact mem_words_of_pointerAt (h.pointers i (List.mem_range.mp hi))
  simpa using (List.subperm_of_subset hnodup hwords).length_le

end ArrayAt

theorem runLength_eq {limit : Nat} (h : m.ArrayAt a.toNat length)
    (hfits : a.toNat + 4 * length < UInt64.size) : m.runLength limit a = min limit length := by
  induction limit generalizing a length with
  | zero => rw [runLength, Nat.zero_min]
  | succ limit ih =>
      rw [runLength]
      cases length with
      | zero =>
          have hended := h.ended
          rw [Nat.mul_zero, Nat.add_zero, pointerAt_toNat] at hended
          rw [Nat.min_zero]
          cases hword : m.word? a with
          | none => rfl
          | some w =>
              exact if_pos (not_not.mp fun hw => hended ⟨w, hword, hw⟩)
      | succ length =>
          obtain ⟨w, hword, hw⟩ := pointerAt_toNat.mp (h.pointers 0 (Nat.succ_pos length))
          have hnext := LeakGuard.toNat_next (a := a) (by omega)
          have hrest : m.runLength limit (a + wordSize) = min limit length := by
            apply ih
            · rw [hnext]
              exact h.tail
            · rw [hnext]
              omega
          rw [hword]
          dsimp only
          rw [if_neg hw, hrest]
          exact (Nat.succ_min_succ limit length).symm

/-- The guard does not give up before the array ends. -/
theorem arrayLength_eq (h : m.ArrayAt a.toNat length)
    (hfits : a.toNat + 4 * length < UInt64.size) : m.arrayLength a = length := by
  rw [arrayLength, runLength_eq h hfits]
  exact Nat.min_eq_right h.length_le

end StackImage

/-! ## Setting one tag at many addresses -/

namespace Store

variable {s s' : Store} {a : Address} {t : Tag} {P Q : Address → Prop}

/-- The second store differs from the first in nothing but this tag, at the addresses that `P` holds
of and that are covered. -/
structure TaggedAt (P : Address → Prop) (t : Tag) (s s' : Store) : Prop where
  tagged : ∀ a b, P a → s.layout.Shares a b → s'.tagOf b = .ok t
  others : ∀ b, (∀ a, P a → ¬ s.layout.Shares a b) → s'.tagOf b = s.tagOf b

theorem taggedAt_nowhere (s : Store) (t : Tag) (h : ∀ a, ¬ P a) : TaggedAt P t s s :=
  ⟨fun a _ ha => absurd ha (h a), fun _ _ => rfl⟩

theorem TaggedAt.congr (h : TaggedAt P t s s')
    (hPQ : ∀ a, s.layout.covers a = true → (P a ↔ Q a)) : TaggedAt Q t s s' where
  tagged a b ha hshares := h.tagged a b ((hPQ a hshares.1).mpr ha) hshares
  others b hb := h.others b fun a ha hshares => hb a ((hPQ a hshares.1).mp ha) hshares

theorem TaggedAt.cons (hs : s.Consistent) (hc : s.layout.covers a = true)
    (h : TaggedAt P t (s.withTag a t) s') : TaggedAt (fun b => b = a ∨ P b) t s s' := by
  have hlayout := withTag_layout s a t
  constructor
  case tagged =>
    rintro c b (rfl | hc') hshares
    · -- A later address may set the tag again, to the same value.
      by_cases hagain : ∃ d, P d ∧ s.layout.Shares d b
      · obtain ⟨d, hd, hdb⟩ := hagain
        exact h.tagged d b hd (hlayout ▸ hdb)
      · rw [h.others b fun d hd hdb => hagain ⟨d, hd, hlayout ▸ hdb⟩, tagOf_withTag hs]
        exact if_pos ⟨hshares.2.1, hshares.2.2⟩
    · exact h.tagged c b hc' (hlayout ▸ hshares)
  case others =>
    intro b hb
    rw [h.others b fun d hd hdb => hb d (Or.inr hd) (hlayout ▸ hdb), tagOf_withTag hs]
    exact if_neg fun hcov => hb a (Or.inl rfl) ⟨hc, hcov.1, hcov.2⟩

/-- Set a tag at addresses, one after the other. -/
def setTags (t : Tag) (addresses : List Address) : Action Store ShadowError Unit :=
  addresses.forM fun a => setTag a t

/-- The first refusal ends the writes, and those in front of it are made. -/
theorem setTags_outcome (hs : s.Consistent) (t : Tag) (addresses : List Address) :
    ∃ s', (setTags t addresses).outcome s =
        (match addresses.findSome? s.refusal? with
          | none => .ok ()
          | some e => .error e, s') ∧
      TaggedAt (· ∈ addresses.takeWhile fun a => (s.refusal? a).isNone) t s s' := by
  -- On the addresses; behind the first one the store has one more tag and refuses the same.
  induction addresses generalizing s with
  | nil => exact ⟨s, rfl, taggedAt_nowhere s t fun _ => List.not_mem_nil⟩
  | cons a rest ih =>
      have hcons : setTags t (a :: rest) = setTag a t >>= fun _ => setTags t rest := rfl
      rw [List.findSome?_cons, List.takeWhile_cons, hcons, Action.outcome, Action.bind_apply,
        setTag_eq]
      cases hr : s.refusal? a with
      | some e => exact ⟨s, rfl, taggedAt_nowhere s t fun _ => List.not_mem_nil⟩
      | none =>
          have hc := covers_of_refusal? hr
          obtain ⟨s', hrun, htags⟩ := ih (hs.withTag hc t)
          have hsame : (s.withTag a t).refusal? = s.refusal? :=
            funext (refusal?_withTag hs hr t)
          rw [hsame] at hrun htags
          refine ⟨s', hrun, (TaggedAt.cons hs hc htags).congr fun b _ => ?_⟩
          simp

/-- What has become of writing one tag at the addresses that `P` holds of, in ascending order, when
each may be refused. -/
structure WrittenInOrder (P : Address → Prop) (t : Tag) (s : Store)
    (result : Except ShadowError Unit) (s' : Store) : Prop where
  complete : (∀ a, P a → s.refusal? a = none) → result = .ok () ∧ TaggedAt P t s s'
  /-- The lowest address that is refused ends it. -/
  stopped : ∀ a e, P a → s.refusal? a = some e → (∀ b, P b → b < a → s.refusal? b = none) →
    result = .error e ∧ TaggedAt (fun b => P b ∧ b < a) t s s'
  elsewhere : ∀ b, (∀ a, P a → ¬ s.layout.Shares a b) → s'.tagOf b = s.tagOf b

/-- What stands in front of an address in an ascending list is what is below it. -/
theorem split_of_ascending {addresses : List Address} (hsorted : addresses.Pairwise (· < ·))
    (ha : a ∈ addresses) :
    ∃ before after, addresses = before ++ a :: after ∧
      ∀ b, b ∈ before ↔ b ∈ addresses ∧ b < a := by
  obtain ⟨before, after, rfl⟩ := List.append_of_mem ha
  obtain ⟨-, hafter, hbefore⟩ := List.pairwise_append.mp hsorted
  have hhigher : ∀ b ∈ after, a < b := (List.pairwise_cons.mp hafter).1
  refine ⟨before, after, rfl, fun b => ⟨fun hb => ?_, ?_⟩⟩
  · exact ⟨List.mem_append_left _ hb, hbefore b hb a List.mem_cons_self⟩
  · rintro ⟨hb, hlt⟩
    rcases List.mem_append.mp hb with hb | hb
    · exact hb
    · rcases List.mem_cons.mp hb with rfl | hb
      · exact absurd hlt (UInt64.lt_irrefl b)
      · exact absurd (UInt64.lt_trans hlt (hhigher b hb)) (UInt64.lt_irrefl b)

theorem setTags_ascending (hs : s.Consistent) (t : Tag) {addresses : List Address}
    (hsorted : addresses.Pairwise (· < ·)) :
    ∃ result s', (setTags t addresses).outcome s = (result, s') ∧
      WrittenInOrder (· ∈ addresses) t s result s' := by
  obtain ⟨s', hrun, htags⟩ := setTags_outcome hs t addresses
  refine ⟨_, s', hrun, ?complete, ?stopped, ?elsewhere⟩
  case complete =>
    intro hfree
    have hall : addresses.takeWhile (fun a => (s.refusal? a).isNone) = addresses :=
      List.takeWhile_eq_self_iff.mpr fun a ha => by rw [hfree a ha]; rfl
    rw [hall] at htags
    rw [List.findSome?_eq_none_iff.mpr hfree]
    exact ⟨rfl, htags⟩
  case stopped =>
    intro a e ha he hbelow
    obtain ⟨before, after, rfl, hbefore⟩ := split_of_ascending hsorted ha
    have hfree : ∀ b ∈ before, s.refusal? b = none := fun b hb =>
      hbelow b ((hbefore b).mp hb).1 ((hbefore b).mp hb).2
    have htaken : (before ++ a :: after).takeWhile (fun b => (s.refusal? b).isNone) = before := by
      rw [List.takeWhile_append_of_pos fun b hb => by rw [hfree b hb]; rfl,
        List.takeWhile_cons_of_neg (by simp [he]), List.append_nil]
    rw [htaken] at htags
    rw [List.findSome?_append, List.findSome?_eq_none_iff.mpr hfree, List.findSome?_cons, he]
    exact ⟨rfl, htags.congr fun b _ => hbefore b⟩
  case elsewhere =>
    exact fun b hb => htags.others b fun a ha =>
      hb a ((List.takeWhile_prefix _).subset ha)

end Store

namespace LeakGuard

/-! ## The words of the arrays -/

/-- Words one behind the other. -/
def wordsFrom (a : Address) (count : Nat) : List Address :=
  (List.range count).map fun k => a + wordSize * UInt64.ofNat k

variable {a b sp : Address} {count argc envc : Nat} {s : Store}

theorem wordsFrom_succ (a : Address) (count : Nat) :
    wordsFrom a (count + 1) = a :: wordsFrom (a + wordSize) count := by
  rw [wordsFrom, List.range_succ_eq_map, List.map_cons, List.map_map, zeroth_word]
  simp only [wordsFrom, Function.comp_def, next_word, Nat.succ_eq_add_one]

theorem taintWords_eq (count : Nat) (a : Address) :
    taintWords count a = Store.setTags AddressClass.stack.tag (wordsFrom a count) := by
  induction count generalizing a with
  | zero => rfl
  | succ count ih =>
      rw [wordsFrom_succ, taintWords, ih]
      rfl

theorem taintStack_eq (argv : Address) (argc : Nat) (envp : Address) (envc : Nat) :
    taintStack argv argc envp envc =
      Store.setTags AddressClass.stack.tag (wordsFrom argv argc ++ wordsFrom envp envc) := by
  rw [taintStack, taintWords_eq, taintWords_eq]
  exact (Action.forM_append _ _ _).symm

theorem mem_wordsFrom (h : a.toNat + 4 * count ≤ UInt64.size) :
    b ∈ wordsFrom a count ↔ ∃ i < count, b.toNat = a.toNat + 4 * i := by
  rw [wordsFrom, List.mem_map]
  constructor
  · rintro ⟨i, hi, rfl⟩
    rw [List.mem_range] at hi
    exact ⟨i, hi, toNat_word (by omega)⟩
  · rintro ⟨i, hi, hb⟩
    refine ⟨i, List.mem_range.mpr hi, UInt64.toNat_inj.mp ?_⟩
    rw [toNat_word (by omega), hb]

theorem wordsFrom_ascending (h : a.toNat + 4 * count ≤ UInt64.size) :
    (wordsFrom a count).Pairwise (· < ·) := by
  refine List.pairwise_map.mpr (List.pairwise_lt_range.imp_of_mem fun hi hj hij => ?_)
  rw [List.mem_range] at hi hj
  rw [UInt64.lt_iff_toNat_lt, toNat_word (by omega), toNat_word (by omega)]
  omega

/-- The address is that of a word of the argument array, which starts behind the argument count, or
of the environment array, which starts behind the terminator of the other. -/
def InArrays (sp : Address) (argc envc : Nat) (a : Address) : Prop :=
  (∃ i < argc, a.toNat = sp.toNat + 4 + 4 * i) ∨
    ∃ i < envc, a.toNat = sp.toNat + 4 * (argc + 2) + 4 * i

/-- The words of the two arrays, in the order in which they are tagged. -/
def stackWords (sp : Address) (argc : UInt32) (envc : Nat) : List Address :=
  wordsFrom (sp + wordSize) argc.toNat ++
    wordsFrom (sp + wordSize + (argc.toUInt64 + 1) * wordSize) envc

section Fits

variable {argc : UInt32} (hfits : sp.toNat + 4 * (argc.toNat + 2 + envc) < UInt64.size)
include hfits

theorem toNat_argv : (sp + wordSize).toNat = sp.toNat + 4 :=
  toNat_next (by omega)

theorem toNat_envp :
    (sp + wordSize + (argc.toUInt64 + 1) * wordSize).toNat =
      sp.toNat + 4 * (argc.toNat + 2) := by
  rw [UInt64.toNat_add, toNat_argv hfits, UInt64.toNat_mul, UInt64.toNat_add,
    UInt32.toNat_toUInt64]
  change (_ + (_ + 1) % 2 ^ 64 * 4 % 2 ^ 64) % 2 ^ 64 = _
  simp only [UInt64.size] at hfits
  omega

theorem mem_stackWords : a ∈ stackWords sp argc envc ↔ InArrays sp argc.toNat envc a := by
  rw [stackWords, List.mem_append, mem_wordsFrom (by rw [toNat_argv hfits]; omega),
    mem_wordsFrom (by rw [toNat_envp hfits]; omega), toNat_argv hfits, toNat_envp hfits]
  rfl

theorem stackWords_ascending : (stackWords sp argc envc).Pairwise (· < ·) := by
  have hargv := toNat_argv hfits
  have henvp := toNat_envp hfits
  refine List.pairwise_append.mpr
    ⟨wordsFrom_ascending (by omega), wordsFrom_ascending (by omega), fun b hb c hc => ?_⟩
  obtain ⟨i, hi, hb⟩ := (mem_wordsFrom (by omega)).mp hb
  obtain ⟨j, hj, hc⟩ := (mem_wordsFrom (by omega)).mp hc
  rw [UInt64.lt_iff_toNat_lt]
  omega

theorem onEntry_outcome (hs : s.Consistent) {m : StackImage} (hargc : m.word? sp = some argc)
    (henvc : m.ArrayAt (sp.toNat + 4 * (argc.toNat + 2)) envc) :
    ∃ result s', (onEntry m sp).outcome s = (result, s') ∧
      s.WrittenInOrder (InArrays sp argc.toNat envc) AddressClass.stack.tag result s' := by
  have henvp := toNat_envp hfits
  have hlength : m.arrayLength (sp + wordSize + (argc.toUInt64 + 1) * wordSize) = envc := by
    refine StackImage.arrayLength_eq (henvp ▸ henvc) ?_
    rw [henvp]
    omega
  have hentry : onEntry m sp =
      Store.setTags AddressClass.stack.tag (stackWords sp argc envc) := by
    rw [onEntry, hargc]
    dsimp only
    rw [hlength, taintStack_eq]
    rfl
  have hmem : (· ∈ stackWords sp argc envc) = InArrays sp argc.toNat envc :=
    funext fun _ => propext (mem_stackWords hfits)
  rw [hentry, ← hmem]
  exact Store.setTags_ascending hs _ (stackWords_ascending hfits)

end Fits

/-! ## What is outside the arrays, and what is outside the window -/

/-- No word of the arrays shares its granule with another word of the stack. -/
theorem not_shares_of_inArrays (ha : InArrays sp argc envc a) {k : Nat}
    (hb : b.toNat = sp.toNat + 4 * k) (hk : k = 0 ∨ k = argc + 1 ∨ k = argc + 2 + envc) :
    ¬ Layout.full32.Shares a b := by
  rintro ⟨-, -, hsame⟩
  rw [granule_full32, granule_full32] at hsame
  rcases ha with ⟨i, hi, ha⟩ | ⟨i, hi, ha⟩ <;> omega

theorem covers_of_lt (hc : Layout.full32.covers a = true) (hba : b < a) :
    Layout.full32.covers b = true := by
  rw [covers_full32] at hc ⊢
  exact Nat.lt_trans (UInt64.lt_iff_toNat_lt.mp hba) hc

/-- Among addresses there is a lowest. -/
theorem exists_lowest {P : Address → Prop} (h : ∃ a, P a) : ∃ a, P a ∧ ∀ b, P b → ¬ b < a := by
  obtain ⟨a, ha, hlowest⟩ := (InvImage.wf UInt64.toNat Nat.lt_wfRel.wf).has_min {a | P a} h
  exact ⟨a, ha, fun b hb hlt => hlowest b hb (UInt64.lt_iff_toNat_lt.mp hlt)⟩

end LeakGuard

namespace Store

variable {s s' : Store} {P : Address → Prop} {t : Tag} {result : Except ShadowError Unit}

/-- No commit is refused that writing at the addresses needs. -/
def Grants (s : Store) (P : Address → Prop) : Prop :=
  ∀ a, P a → s.layout.covers a = true → s.refusesRegion (s.layout.regionAt a) = false

theorem grants_of_granting (h : ∀ r, s.mapping.refuses r = false) : s.Grants P := by
  intro a _ _
  rw [Bool.eq_false_iff, ne_eq, refusesRegion_iff, h]
  exact fun hrefused => nomatch hrefused.2

theorem Grants.refusal?_covered (h : s.Grants P) {a : Address} (ha : P a)
    (hc : s.layout.covers a = true) : s.refusal? a = none := by
  rw [refusal?, if_pos hc, h a ha hc]
  rfl

namespace WrittenInOrder

variable (h : s.WrittenInOrder P t result s') (hlayout : s.layout = .full32) (hfree : s.Grants P)
include h hfree

theorem result_covered (hc : ∀ a, P a → s.layout.covers a = true) : result = .ok () :=
  (h.complete fun a ha => hfree.refusal?_covered ha (hc a ha)).1

theorem result_uncovered {a : Address} (ha : P a) (hc : s.layout.covers a = false)
    (hbelow : ∀ b, P b → b < a → s.layout.covers b = true) :
    result = .error (.invalidAddress a) :=
  (h.stopped a _ ha (refusal?_uncovered hc) fun b hb hlt =>
    hfree.refusal?_covered hb (hbelow b hb hlt)).1

include hlayout

/-- The window ends somewhere, so what lies behind the first address outside is outside too. -/
theorem taggedAt : TaggedAt P t s s' := by
  by_cases hc : ∀ a, P a → s.layout.covers a = true
  · exact (h.complete fun a ha => hfree.refusal?_covered ha (hc a ha)).2
  · push Not at hc
    obtain ⟨a, ⟨ha, hout⟩, hlowest⟩ := LeakGuard.exists_lowest hc
    have hbelow : ∀ b, P b → b < a → s.layout.covers b = true := fun b hb hlt =>
      not_not.mp fun hb' => hlowest b ⟨hb, hb'⟩ hlt
    have hstopped := h.stopped a _ ha (refusal?_uncovered (Bool.eq_false_iff.mpr hout))
      fun b hb hlt => hfree.refusal?_covered hb (hbelow b hb hlt)
    refine hstopped.2.congr fun b hb => ⟨And.left, fun hPb => ⟨hPb, ?_⟩⟩
    by_contra hge
    rw [hlayout] at hb hout
    rcases UInt64.lt_or_eq_of_le (UInt64.not_lt.mp hge) with hlt | rfl
    · exact hout (LeakGuard.covers_of_lt hb hlt)
    · exact hout hb

end WrittenInOrder

end Store

namespace Tracker

variable {tr : Tracker} {session : Session} {g : LeakGuard} {m : StackImage} {sp : Address}

/-- A new store comes with no new gaps, so there is nothing to warn of. -/
theorem update_store (tr : Tracker) (r : SessionId) (session : Session) (store : Store) :
    tr.update r session { session with store } = tr.setSession r { session with store } := by
  unfold update
  dsimp only
  rw [Warning.ofGaps_self, List.append_nil]

theorem guardEntry_unreadable (hsession : tr.session? g.handle.session = some session)
    (h : m.word? sp = none) :
    tr.guardEntry session g m sp = (.ok (), tr.warn (.argcUnreadable sp)) := by
  have hentry : LeakGuard.onEntry m sp session.store = .ok () session.store := by
    rw [LeakGuard.onEntry, h]
    rfl
  unfold guardEntry
  rw [h, hentry]
  dsimp only
  rw [update_store]
  have hsame : (tr.warn (.argcUnreadable sp)).setSession g.handle.session session =
      tr.warn (.argcUnreadable sp) := setSession_self hsession
  exact congrArg (Except.ok (), ·) hsame

theorem guardEntry_readable {argc : UInt32} {result : Except ShadowError Unit} {store : Store}
    (h : m.word? sp = some argc)
    (hrun : (LeakGuard.onEntry m sp).outcome session.store = (result, store)) :
    tr.guardEntry session g m sp =
      (result, tr.setSession g.handle.session { session with store }) := by
  unfold Action.outcome at hrun
  unfold guardEntry
  rw [h]
  cases hentry : LeakGuard.onEntry m sp session.store with
  | ok _ s | error e s =>
      rw [hentry] at hrun
      cases hrun
      exact congrArg (_, ·) (update_store tr g.handle.session session _)

/-- If the argument count cannot be read, entering changes nothing but the warnings. Otherwise the
words of the two arrays are tagged: those in the window, or, if a commit that one of them needs is
refused, those below it. The lowest word that cannot be tagged is blamed. The argument count, the
terminator of the argument array and the word that ends the environment array keep their tags,
however the stack pointer is aligned, and so does everything else. -/
theorem entry_tags_arrays (hsession : tr.session? g.handle.session = some session)
    {backend : Backend} {w : Window}
    (hstore : Store.Reachable backend w session.store) (hlayout : w.layout = .full32)
    (m : StackImage) (sp : Address) :
    let s := session.store
    (m.word? sp = none →
      tr.guardEntry session g m sp = (.ok (), tr.warn (.argcUnreadable sp))) ∧
    ∀ argc, m.word? sp = some argc →
      ∃ envc, m.ArrayAt (sp.toNat + 4 * (argc.toNat + 2)) envc ∧
        (sp.toNat + 4 * (argc.toNat + 2 + envc) < UInt64.size →
          let Word := LeakGuard.InArrays sp argc.toNat envc
          ∃ result store,
            tr.guardEntry session g m sp =
              (result, tr.setSession g.handle.session { session with store }) ∧
            (s.Grants Word →
              s.TaggedAt Word AddressClass.stack.tag store ∧
              ((∀ a, Word a → s.layout.covers a = true) → result = .ok ()) ∧
              ∀ a, Word a → s.layout.covers a = false →
                (∀ b, Word b → b < a → s.layout.covers b = true) →
                result = .error (.invalidAddress a)) ∧
            s.WrittenInOrder Word AddressClass.stack.tag result store ∧
            ∀ a : Address,
              a.toNat = sp.toNat ∨ a.toNat = sp.toNat + 4 * (argc.toNat + 1) ∨
                a.toNat = sp.toNat + 4 * (argc.toNat + 2 + envc) →
              store.tagOf a = s.tagOf a) := by
  intro s
  refine ⟨guardEntry_unreadable hsession, fun argc hargc => ?_⟩
  obtain ⟨envc, henvc⟩ := StackImage.ArrayAt.exists_length m (sp.toNat + 4 * (argc.toNat + 2))
  refine ⟨envc, henvc, fun hfits => ?_⟩
  obtain ⟨result, store, hrun, hwritten⟩ :=
    LeakGuard.onEntry_outcome hfits hstore.consistent hargc henvc
  have hfull : s.layout = .full32 := by
    rw [← hlayout, ← hstore.window_eq]
    rfl
  refine ⟨result, store, guardEntry_readable hargc hrun, fun hfree => ?_, hwritten, ?_⟩
  · exact ⟨hwritten.taggedAt hfull hfree, hwritten.result_covered hfree,
      fun a => hwritten.result_uncovered hfree⟩
  · intro a ha
    refine hwritten.elsewhere a fun b hb => ?_
    rw [hfull]
    rcases ha with ha | ha | ha
    · exact LeakGuard.not_shares_of_inArrays hb (k := 0) ha (.inl rfl)
    · exact LeakGuard.not_shares_of_inArrays hb ha (.inr (.inl rfl))
    · exact LeakGuard.not_shares_of_inArrays hb ha (.inr (.inr rfl))

/-- The stack pointer is in the middle of a word. One argument and one variable are tagged, each in
the granule that its first byte lies in. -/
theorem entry_tags_arrays_unaligned :
    let fresh : Store := ⟨⟨.full32, 0x10000000000, by decide⟩, .granting, .zero,
      Store.fresh .lazy .full32⟩
    let session : Session :=
      ⟨1, ⟨.permissive, true, .lazy, true⟩, fresh, .new .permissive true, none⟩
    let m : StackImage :=
      ⟨[(0x1002, 1), (0x1006, 0xbeef), (0x100a, 0), (0x100e, 0xcafe), (0x1012, 0)]⟩
    let (handle, tr) := Tracker.initial.found session
    ∃ store, tr.guardEntry session ⟨handle, .default⟩ m 0x1002 =
        (.ok (), tr.setSession handle.session { session with store }) ∧
      store.tagOf 0x1007 = .ok AddressClass.stack.tag ∧
      store.tagOf 0x100e = .ok AddressClass.stack.tag ∧
      store.tagOf 0x1002 = .ok untainted ∧ store.tagOf 0x100a = .ok untainted ∧
      store.tagOf 0x1012 = .ok untainted := by
  intro fresh session m
  have hstore : Store.Reachable .lazy fresh.window fresh := ⟨.granting, fresh, rfl, .refl⟩
  have hsession : (Tracker.initial.found session).2.session? ⟨0⟩ = some session := rfl
  obtain ⟨envc, henvc, hrun⟩ :=
    (entry_tags_arrays (g := ⟨⟨1, ⟨0⟩⟩, .default⟩) hsession hstore rfl m 0x1002).2 1 rfl
  have hone : m.ArrayAt 0x100e 1 := by
    constructor
    · intro i hi
      obtain rfl : i = 0 := by omega
      exact ⟨0x100e, rfl, 0xcafe, rfl, by decide⟩
    · rintro ⟨a, ha, w, hword, hw⟩
      obtain rfl : a = 0x1012 := UInt64.toNat_inj.mp ha
      exact hw (Option.some.inj hword).symm
  obtain rfl : envc = 1 := henvc.unique hone
  obtain ⟨result, store, hresult, hgranted, -, hedges⟩ := hrun (by decide)
  obtain ⟨htags, hok, -⟩ := hgranted (Store.grants_of_granting fun _ => rfl)
  have hword : ∀ a, LeakGuard.InArrays 0x1002 1 1 a → a = 0x1006 ∨ a = 0x100e := by
    rintro a (⟨i, hi, ha⟩ | ⟨i, hi, ha⟩)
    · exact .inl (UInt64.toNat_inj.mp (ha.trans (by rw [Nat.lt_one_iff.mp hi]; rfl)))
    · exact .inr (UInt64.toNat_inj.mp (ha.trans (by rw [Nat.lt_one_iff.mp hi]; rfl)))
  have hcovered : ∀ a, LeakGuard.InArrays 0x1002 1 1 a → Layout.full32.covers a = true := by
    intro a ha
    rcases hword a ha with rfl | rfl <;> decide
  obtain rfl := hok hcovered
  refine ⟨store, hresult, ?_, ?_, ?_, ?_, ?_⟩
  · exact htags.tagged 0x1006 0x1007 (.inl ⟨0, by decide, rfl⟩) ⟨rfl, rfl, by decide⟩
  · exact htags.tagged 0x100e 0x100e (.inr ⟨0, by decide, rfl⟩) ⟨rfl, rfl, rfl⟩
  · exact hedges 0x1002 (.inl rfl)
  · exact hedges 0x100a (.inr (.inl rfl))
  · exact hedges 0x1012 (.inr (.inr rfl))

end Tracker

end TaintFlow
