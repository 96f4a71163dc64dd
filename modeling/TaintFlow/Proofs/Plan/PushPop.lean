import TaintFlow.Proofs.Plan.Blocks

/-!
# A list stored and loaded again

A store of a list takes the words below its base, and a load of a list takes the words above its
base, of which the first one is not the base itself. What a store has put away comes back register
by register if the load starts one word below the last word stored. From the base that the store
writes back, every register takes the tag of the next one.
-/

namespace TaintFlow

open TaintFlow.Action

/-- The word that a store of `n` registers uses for one of them. -/
def wordBelow (b : Address) (n place : Nat) : Address :=
  b - 4 * UInt64.ofNat (n - place)

/-- The first `n` words are covered, and no two of them share a tag. -/
structure Layout.Spread (l : Layout) (word : Nat → Address) (n : Nat) : Prop where
  covered : ∀ k < n, l.covers (word k) = true
  apart : ∀ k < n, ∀ j < k, l.granule (word j) ≠ l.granule (word k)

theorem wordBelow_end (b : Address) (n : Nat) : wordBelow b n n = b := by
  rw [wordBelow, Nat.sub_self]
  exact UInt64.sub_zero b

/-- Counting up by a number of words and down by another. -/
theorem below_add (b : Address) {k n : Nat} (h : k ≤ n) :
    b - 4 * UInt64.ofNat n + 4 * UInt64.ofNat k = b - 4 * UInt64.ofNat (n - k) := by
  obtain ⟨m, rfl⟩ := Nat.exists_eq_add_of_le h
  rw [Nat.add_sub_cancel_left, UInt64.ofNat_add]
  grind

/-- Counting up from the word below the last one stored reaches the same words. -/
theorem above_last_stored (b : Address) {k n : Nat} (h : k < n) :
    b - 4 * UInt64.ofNat (n + 1) + 4 * UInt64.ofNat (k + 1) = wordBelow b n k := by
  have hle : k + 1 ≤ n + 1 := Nat.succ_le_succ (Nat.le_of_lt h)
  rw [below_add b hle, Nat.add_sub_add_right, wordBelow]

/-- Counting up from the last word stored is one word ahead. -/
theorem above_written_back (b : Address) {k n : Nat} (h : k < n) :
    b - 4 * UInt64.ofNat n + 4 * UInt64.ofNat (k + 1) = wordBelow b n (k + 1) := by
  rw [below_add b h, wordBelow]

namespace BlockTransfer

variable {base : Reg} {list : List Reg}

/-- Where the base is not listed, every register of the list takes part. -/
theorem moves_ofList (kind : BlockKind) (writeback : Bool) (hbase : base ∉ list) (k : Nat)
    (r : Reg) : (ofList kind base list writeback).Moves k r ↔ list[k]? = some r := by
  refine ⟨And.left, fun hr => ⟨hr, ?_⟩⟩
  have hne : r ≠ base := fun h => hbase (h ▸ List.mem_of_getElem? hr)
  cases writeback <;> simp [ofList, hne]

/-- A load of distinct tracked registers from covered words gives each one the tag of its word. -/
theorem apply_load {s : TagState} (f : RegFile) (writeback : Bool) (hbase : base ∉ list)
    (hnodup : list.Nodup) (htracked : ∀ r ∈ list, r.isTracked s.thread.bank.tracksPc = true)
    {word : Nat → Address}
    (hword : ∀ k < list.length, f.value base + 4 * UInt64.ofNat (k + 1) = word k)
    (hcovered : ∀ k < list.length, s.store.layout.covers (word k) = true) :
    ∃ last, (ofList .loadIncrement base list writeback).apply f s = .ok () last ∧
      ∀ k r, list[k]? = some r → last.thread.tagOf r = .ok (s.store.tagAt (word k)) := by
  let pop := ofList .loadIncrement base list writeback
  have hplace : ∀ k < list.length, pop.wordAddress (f.value base) k = word k := hword
  obtain ⟨stop, -, hloaded, hresult⟩ := loadedTo_apply (t := pop) f s rfl
  have hmoves := moves_ofList .loadIncrement writeback hbase
  rcases hresult with ⟨hok, hend⟩ | ⟨_, -, r, hr, -, hc, -⟩
  · refine ⟨_, eq_ok_of_outcome hok, fun k r hr => ?_⟩
    have hk : k < list.length := (List.getElem?_eq_some_iff.mp hr).1
    -- The register is listed once, so no later place overwrites it.
    have honce : ∀ later, k < later → later < stop → ¬ pop.Moves later r := by
      intro later hlater _ hagain
      have hsame := hr.trans ((hmoves later r).mp hagain).symm
      exact Nat.ne_of_lt hlater ((List.getElem?_inj hk hnodup).mp hsame)
    obtain ⟨t, hread, ht⟩ := hloaded.loaded k r (hend ▸ hk) ((hmoves k r).mpr hr)
      (htracked r (List.mem_of_getElem? hr)) honce
    change s.store.tagOf (pop.wordAddress (f.value base) k) = _ at hread
    rw [hplace k hk, Store.tagOf_covered (hcovered k hk)] at hread
    cases hread
    exact ht
  · have hstop := (List.getElem?_eq_some_iff.mp ((hmoves stop r).mp hr)).1
    have hcov := hcovered stop hstop
    rw [← hplace stop hstop] at hcov
    cases hcov.symm.trans hc

/-- A store to words that share no tags leaves the tag of each register in its word and every other
granule as it was, unless a word cannot be written. -/
theorem apply_store {s : TagState} (hs : s.store.Consistent) (f : RegFile) (writeback : Bool)
    (hbase : base ∉ list)
    (hspread : s.store.layout.Spread (wordBelow (f.value base) list.length) list.length) :
    let word := wordBelow (f.value base) list.length
    ∃ result after,
      outcome ((ofList .storeDecrement base list writeback).apply f) s = (result, after) ∧
      ((∃ k < list.length, ∃ cause, s.store.refusal? (word k) = some cause ∧
          result = .error (.shadow cause)) ∨
        result = .ok () ∧ after.store.layout = s.store.layout ∧
          (∀ k r, list[k]? = some r → after.store.tagOf (word k) = .ok (s.thread.tagOrClean r)) ∧
          ∀ a, (∀ k < list.length, s.store.layout.granule (word k) ≠ s.store.layout.granule a) →
            after.store.tagOf a = s.store.tagOf a) := by
  intro word
  obtain ⟨stop, -, hstored, hresult⟩ :=
    storedTo_apply (t := ofList .storeDecrement base list writeback) f hs rfl
  have hmoves := moves_ofList .storeDecrement writeback hbase
  refine ⟨_, _, rfl, ?_⟩
  rcases hresult with ⟨hok, hend⟩ | ⟨_, he, r, cause, hr, hrefusal, rfl⟩
  · refine Or.inr ⟨hok, congrArg Window.layout hstored.window, fun k r hr => ?_, fun a ha => ?_⟩
    · have hk : k < list.length := (List.getElem?_eq_some_iff.mp hr).1
      exact hstored.stored k r (word k) (hend ▸ hk) ((hmoves k r).mpr hr)
        ⟨hspread.covered k hk, hspread.covered k hk, rfl⟩ fun later q hlater hstop _ hshares =>
          hspread.apart later (hend ▸ hstop) k hlater hshares.2.2.symm
    · exact hstored.others a fun k r hk hr hshares => ha k (hend ▸ hk) hshares.2.2
  · have hplace := (List.getElem?_eq_some_iff.mp ((hmoves stop r).mp hr)).1
    exact Or.inl ⟨stop, hplace, cause, hrefusal, he⟩

end BlockTransfer

/-- A list of distinct tracked registers without the base is stored to words that share no tags. If
the store does not fail, a load of the list whose first word is the last one stored gives every
register the tag that it had, whatever has become of the registers. A load from the base that the
store writes back is one word further: every register takes the tag of the next one, and the last
one that of the word at the base of the store. -/
theorem list_stored_then_loaded {backend : Backend} {w : Window} {tags : TagState} {base : Reg}
    {list : List Reg} (hreach : Store.Reachable backend w tags.store) (hbase : base ∉ list)
    (hnodup : list.Nodup)
    (htracked : ∀ r ∈ list, r.isTracked tags.thread.bank.tracksPc = true) (f : RegFile)
    (hspread : tags.store.layout.Spread (wordBelow (f.value base) list.length) list.length)
    (writeback : Bool) :
    let b := f.value base
    let word := wordBelow b list.length
    let push := BlockTransfer.ofList .storeDecrement base list writeback
    let pop := BlockTransfer.ofList .loadIncrement base list writeback
    ∃ result after, outcome (push.apply f) tags = (result, after) ∧
      ((∃ k < list.length, ∃ cause, tags.store.refusal? (word k) = some cause ∧
          result = .error (.shadow cause)) ∨
        result = .ok () ∧ ∀ (thread : ThreadContext) (g : RegFile),
          thread.bank.tracksPc = tags.thread.bank.tracksPc →
          (g.value base = b - 4 * UInt64.ofNat (list.length + 1) →
            ∃ last, pop.apply g ⟨after.store, thread⟩ = .ok () last ∧
              ∀ r ∈ list, last.thread.tagOf r = tags.thread.tagOf r) ∧
          (g.value base = b - 4 * UInt64.ofNat list.length →
            tags.store.layout.Spread word (list.length + 1) →
            ∃ last, pop.apply g ⟨after.store, thread⟩ = .ok () last ∧
              ∀ k r, list[k]? = some r →
                match list[k + 1]? with
                | some next => last.thread.tagOf r = tags.thread.tagOf next
                | none => ∃ t, tags.store.tagOf b = .ok t ∧ last.thread.tagOf r = .ok t)) := by
  intro b word push pop
  obtain ⟨result, after, hrun, hresult⟩ :=
    BlockTransfer.apply_store hreach.consistent f writeback hbase hspread
  refine ⟨result, after, hrun, hresult.imp_right ?_⟩
  rintro ⟨hok, hlayout, hstored, hothers⟩
  refine ⟨hok, fun thread g hpc => ?_⟩
  have hregs : ∀ r ∈ list, r.isTracked thread.bank.tracksPc = true := fun r hr =>
    hpc ▸ htracked r hr
  -- What a load finds in a word that was stored.
  have hfound : ∀ k r, list[k]? = some r →
      .ok (after.store.tagAt (word k)) = tags.thread.tagOf r := by
    intro k r hr
    have hk : k < list.length := (List.getElem?_eq_some_iff.mp hr).1
    have hc : after.store.layout.covers (word k) = true := hlayout ▸ hspread.covered k hk
    have hword := (Store.tagOf_covered hc).symm.trans (hstored k r hr)
    rw [Except.ok.inj hword, ThreadContext.tagOf_tracked (htracked r (List.mem_of_getElem? hr))]
  refine ⟨fun hg => ?_, fun hg hwide => ?_⟩
  · obtain ⟨last, hpop, htags⟩ := BlockTransfer.apply_load (s := ⟨after.store, thread⟩) g writeback
      hbase hnodup hregs (fun k hk => hg ▸ above_last_stored b hk)
      fun k hk => hlayout ▸ hspread.covered k hk
    refine ⟨last, hpop, fun r hr => ?_⟩
    obtain ⟨k, hk⟩ := List.getElem?_of_mem hr
    exact (htags k r hk).trans (hfound k r hk)
  · obtain ⟨last, hpop, htags⟩ := BlockTransfer.apply_load (s := ⟨after.store, thread⟩) g writeback
      hbase hnodup hregs (fun k hk => hg ▸ above_written_back b hk)
      fun k hk => hlayout ▸ hwide.covered (k + 1) (Nat.succ_lt_succ hk)
    refine ⟨last, hpop, fun k r hr => ?_⟩
    rw [htags k r hr]
    cases hnext : list[k + 1]? with
    | some next => exact hfound (k + 1) next hnext
    | none =>
        have hk : k < list.length := (List.getElem?_eq_some_iff.mp hr).1
        have hlast : k + 1 = list.length :=
          Nat.le_antisymm hk (List.getElem?_eq_none_iff.mp hnext)
        have hend : b = word list.length := (wordBelow_end b list.length).symm
        have hc := hwide.covered list.length (Nat.lt_succ_self _)
        -- The word at the base is none of those stored.
        have hkept := hothers _ (hwide.apart list.length (Nat.lt_succ_self _))
        rw [← hlayout] at hc
        have hread := hkept.symm.trans (Store.tagOf_covered hc)
        rw [hlast]
        exact ⟨_, (congrArg tags.store.tagOf hend).trans hread, rfl⟩

/-- Two registers are stored below the stack pointer, and forgotten. A load from one word below
those stored finds their tags again. -/
theorem list_stored_then_loaded_pair :
    let list : List Reg := [⟨1⟩, ⟨2⟩]
    let tags : TagState := ⟨.small .lazy, ThreadContext.tainted.withTag ⟨2⟩ 0x42⟩
    let push := BlockTransfer.ofList .storeDecrement .sp list true
    let pop := BlockTransfer.ofList .loadIncrement .sp list true
    ∃ after last, outcome (push.apply (RegFile.zero.set .sp 0x2000)) tags = (.ok (), after) ∧
      pop.apply (RegFile.zero.set .sp 0x1ff4) ⟨after.store, .new 0x10000000 true⟩ = .ok () last ∧
      last.thread.tagOf ⟨1⟩ = .ok 5 ∧ last.thread.tagOf ⟨2⟩ = .ok 0x42 := by
  intro list tags push pop
  have hreach : Store.Reachable .lazy .small tags.store := ⟨.granting, _, rfl, .refl⟩
  have hspread : tags.store.layout.Spread (wordBelow 0x2000 2) 2 := ⟨by decide, by decide⟩
  have hbase : Reg.sp ∉ list := by decide
  have htracked : ∀ r ∈ list, r.isTracked tags.thread.bank.tracksPc = true := by decide
  obtain ⟨result, after, hrun, hresult⟩ := list_stored_then_loaded hreach hbase (by decide) htracked
    (RegFile.zero.set .sp 0x2000) hspread true
  rcases hresult with ⟨k, hk, cause, hrefusal, -⟩ | ⟨rfl, hload⟩
  · have hgranted : ∀ k < 2, tags.store.refusal? (wordBelow 0x2000 2 k) = none := by decide
    cases (hgranted k hk).symm.trans hrefusal
  · have hlower : (RegFile.zero.set .sp 0x1ff4).value .sp =
        (RegFile.zero.set .sp 0x2000).value .sp - 4 * UInt64.ofNat (list.length + 1) := by decide
    obtain ⟨last, hpop, htags⟩ := (hload (.new 0x10000000 true) _ rfl).1 hlower
    have hone : tags.thread.tagOf ⟨1⟩ = .ok 5 := rfl
    have htwo : tags.thread.tagOf ⟨2⟩ = .ok 0x42 := rfl
    exact ⟨after, last, hrun, hpop, (htags ⟨1⟩ (by decide)).trans hone,
      (htags ⟨2⟩ (by decide)).trans htwo⟩

/-- From the base that the store writes back the tags do not come back. All words lie in the window
and share no tags. -/
theorem list_stored_then_loaded_written_back :
    let list : List Reg := [⟨1⟩, ⟨2⟩]
    let tags : TagState := ⟨.small .lazy, ThreadContext.tainted.withTag ⟨2⟩ 0x42⟩
    let push := BlockTransfer.ofList .storeDecrement .sp list true
    let pop := BlockTransfer.ofList .loadIncrement .sp list true
    list.Nodup ∧ .sp ∉ list ∧ (∀ r ∈ list, r.isTracked tags.thread.bank.tracksPc = true) ∧
      tags.store.layout.Spread (wordBelow 0x2000 2) 3 ∧
      ∃ after last, push.apply (RegFile.zero.set .sp 0x2000) tags = .ok () after ∧
        pop.apply (RegFile.zero.set .sp (0x2000 - 4 * 2)) ⟨after.store, .new 0x10000000 true⟩ =
          .ok () last ∧
        tags.thread.tagOf ⟨1⟩ = .ok 5 ∧ last.thread.tagOf ⟨1⟩ = .ok 0x42 :=
  ⟨by decide, by decide, by decide, ⟨by decide, by decide⟩, _, _, rfl, rfl, rfl, rfl⟩

end TaintFlow
