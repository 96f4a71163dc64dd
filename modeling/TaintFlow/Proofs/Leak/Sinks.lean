import TaintFlow.Proofs.Leak.Provenance

/-!
# What a sink reports

The guard looks at a buffer word by word, from the aligned word that the buffer starts in. With a
tag for every word, the first word that stops it holds the first byte of the buffer that does: the
part of a word in front of the buffer has the same tag, and so has the part behind it.
-/

namespace TaintFlow

/-- The byte at a number has an address in the window, and no tag. -/
def Store.CleanAt (s : Store) (n : Nat) : Prop :=
  ∃ a : Address, a.toNat = n ∧ s.tagOf a = .ok untainted

namespace LeakGuard

/-- The bytes of a buffer, without wrapping around at the last address. -/
def InBuffer (buffer length : Address) (n : Nat) : Prop :=
  buffer.toNat ≤ n ∧ n < buffer.toNat + length.toNat

variable {s : Store} {buffer length a : Address}

/-! ## Words -/

theorem toNat_wordOf (a : Address) : (wordOf a).toNat = a.toNat / 4 * 4 := by
  have hmask : (~~~(wordSize - 1)).toNat = (2 ^ 62 - 1) <<< 2 := by decide
  have hshift : a.toNat / 4 * 4 = a.toNat >>> 2 <<< 2 := by
    rw [Nat.shiftLeft_eq, Nat.shiftRight_eq_div_pow]
  rw [wordOf, UInt64.toNat_and, hmask, hshift]
  refine Nat.eq_of_testBit_eq fun i => ?_
  rw [Nat.testBit_and, Nat.testBit_shiftLeft, Nat.testBit_shiftLeft, Nat.testBit_shiftRight,
    Nat.testBit_two_pow_sub_one]
  by_cases hlow : 2 ≤ i
  · rw [Nat.add_sub_cancel' hlow]
    by_cases hhigh : i - 2 < 62
    · simp [hlow, hhigh]
    · have hpow : 2 ^ 64 ≤ 2 ^ i := Nat.pow_le_pow_right (by decide) (by omega)
      have hbit : a.toNat.testBit i = false :=
        Nat.testBit_lt_two_pow (Nat.lt_of_lt_of_le a.toNat_lt hpow)
      simp [hbit]
  · simp [hlow]

theorem toNat_next (h : a.toNat + 4 < UInt64.size) : (a + wordSize).toNat = a.toNat + 4 := by
  rw [UInt64.toNat_add]
  change (_ + 4) % 2 ^ 64 = _
  simp only [UInt64.size] at h
  omega

theorem toNat_word {k : Nat} (h : a.toNat + 4 * k < UInt64.size) :
    (a + wordSize * UInt64.ofNat k).toNat = a.toNat + 4 * k := by
  rw [UInt64.toNat_add, UInt64.toNat_mul, UInt64.toNat_ofNat']
  change (_ + 4 * (k % 2 ^ 64) % 2 ^ 64) % 2 ^ 64 = _
  simp only [UInt64.size] at h
  omega

/-- The address of a word that is scanned. -/
def scanned (buffer : Address) (k : Nat) : Address :=
  wordOf buffer + wordSize * UInt64.ofNat k

/-- The words that are scanned lie one behind the other and start in front of the end of the
buffer. -/
theorem toNat_scanned {k : Nat} (hk : k < wordsIn buffer length) :
    (scanned buffer k).toNat = buffer.toNat / 4 * 4 + 4 * k ∧
      (scanned buffer k).toNat < buffer.toNat + length.toNat := by
  have hstop : buffer.toNat / 4 * 4 + 4 * k < min (buffer.toNat + length.toNat) (2 ^ 64 - 1) := by
    unfold wordsIn at hk
    rw [toNat_wordOf] at hk
    simp only [UInt64.size] at hk
    omega
  have hword : (scanned buffer k).toNat = buffer.toNat / 4 * 4 + 4 * k := by
    have hfits : (wordOf buffer).toNat + 4 * k < UInt64.size := by
      rw [toNat_wordOf]
      simp only [UInt64.size]
      omega
    rw [scanned, toNat_word hfits, toNat_wordOf]
  rw [hword]
  exact ⟨rfl, by omega⟩

/-- The address of a byte of the buffer lies in a word that is scanned. -/
theorem exists_scanned (ha : InBuffer buffer length a.toNat) :
    ∃ k < wordsIn buffer length, scanned buffer k = wordOf a := by
  obtain ⟨hfirst, hlast⟩ := ha
  have hlt : a.toNat < 2 ^ 64 := a.toNat_lt
  have hk : (a.toNat / 4 * 4 - buffer.toNat / 4 * 4) / 4 < wordsIn buffer length := by
    unfold wordsIn
    rw [toNat_wordOf]
    simp only [UInt64.size]
    omega
  refine ⟨_, hk, UInt64.toNat_inj.mp ?_⟩
  rw [(toNat_scanned hk).1, toNat_wordOf]
  omega

/-! ## The scan -/

theorem zeroth_word (a : Address) : a + wordSize * UInt64.ofNat 0 = a := by
  rw [show wordSize * UInt64.ofNat 0 = 0 from rfl, UInt64.add_zero]

theorem next_word (a : Address) (k : Nat) :
    a + wordSize + wordSize * UInt64.ofNat k = a + wordSize * UInt64.ofNat (k + 1) := by
  rw [UInt64.ofNat_add, UInt64.mul_add, UInt64.add_assoc, UInt64.add_comm (wordSize * _)]
  rfl

theorem firstTagged_clean {count : Nat}
    (h : ∀ k < count, s.tagOf (a + wordSize * UInt64.ofNat k) = .ok untainted) :
    firstTagged s count a = .ok none := by
  induction count generalizing a with
  | zero => rfl
  | succ count ih =>
      have hfirst := h 0 (Nat.succ_pos count)
      rw [zeroth_word] at hfirst
      rw [firstTagged, hfirst]
      refine ih fun k hk => ?_
      rw [next_word]
      exact h (k + 1) (Nat.succ_lt_succ hk)

/-- The scan ends at the first word that has a tag or cannot be read. -/
theorem firstTagged_stops {count k : Nat} (hk : k < count)
    (hbefore : ∀ j < k, s.tagOf (a + wordSize * UInt64.ofNat j) = .ok untainted)
    (hstop : s.tagOf (a + wordSize * UInt64.ofNat k) ≠ .ok untainted) :
    firstTagged s count a = (s.tagOf (a + wordSize * UInt64.ofNat k)).map fun t =>
      some (a + wordSize * UInt64.ofNat k, t) := by
  induction count generalizing a k with
  | zero => exact absurd hk (Nat.not_lt_zero k)
  | succ count ih =>
      cases k with
      | zero =>
          rw [zeroth_word] at hstop ⊢
          rw [firstTagged]
          cases ht : s.tagOf a with
          | error e => rfl
          | ok t =>
              have hne : t ≠ 0 := fun h => hstop (ht.trans (congrArg Except.ok h))
              dsimp only
              rw [if_neg hne]
              rfl
      | succ k =>
          have hfirst := hbefore 0 (Nat.succ_pos k)
          rw [zeroth_word] at hfirst
          rw [firstTagged, hfirst, ← next_word]
          refine ih (Nat.lt_of_succ_lt_succ hk) (fun j hj => ?_) ?_
          · rw [next_word]
            exact hbefore (j + 1) (Nat.succ_lt_succ hj)
          · rwa [next_word]

/-! ## Bytes -/

theorem cleanAt_toNat : s.CleanAt a.toNat ↔ s.tagOf a = .ok untainted := by
  constructor
  · rintro ⟨b, hb, hclean⟩
    rwa [UInt64.toNat_inj.mp hb] at hclean
  · exact fun h => ⟨a, rfl, h⟩

theorem covers_full32 {a : Address} : Layout.full32.covers a = true ↔ a.toNat < 0x100000000 := by
  rw [Layout.covers_iff, UInt64.le_iff_toNat_le, UInt64.le_iff_toNat_le]
  change 0 ≤ a.toNat ∧ a.toNat ≤ 0x100000000 - 1 ↔ _
  omega

theorem granule_full32 (a : Address) : Layout.full32.granule a = a.toNat / 4 := by
  rw [Layout.granule, Layout.toNat_sub_first (UInt64.zero_le)]
  exact Nat.shiftRight_eq_div_pow a.toNat 2

theorem tagOf_full32 (h : s.layout = .full32) (a : Address) :
    s.tagOf a =
      if a.toNat < 0x100000000 then .ok (s.bytes.read (a.toNat / 4))
      else .error (.invalidAddress a) := by
  rw [Store.tagOf_eq, h, granule_full32]
  simp only [covers_full32]

theorem tagOf_wordOf (h : s.layout = .full32) (a : Address) :
    s.tagOf (wordOf a) =
      match s.tagOf a with
      | .error _ => .error (.invalidAddress (wordOf a))
      | .ok t => .ok t := by
  rw [tagOf_full32 h, tagOf_full32 h, toNat_wordOf]
  by_cases hlt : a.toNat < 0x100000000
  · rw [if_pos (by omega), if_pos hlt, Nat.mul_div_cancel _ (by decide)]
  · rw [if_neg (by omega), if_neg hlt]

/-- The bytes of a word are clean together. -/
theorem cleanAt_congr (h : s.layout = .full32) {m n : Nat} (hword : m / 4 = n / 4)
    (hm : s.CleanAt m) : s.CleanAt n := by
  obtain ⟨a, rfl, ha⟩ := hm
  rw [tagOf_full32 h] at ha
  by_cases hlt : a.toNat < 0x100000000
  · rw [if_pos hlt, hword] at ha
    have hn : n < 0x100000000 := by omega
    have hsize : n < UInt64.size := Nat.lt_trans hn (by decide)
    have hnat : (UInt64.ofNat n).toNat = n := UInt64.toNat_ofNat_of_lt' hsize
    refine ⟨UInt64.ofNat n, hnat, ?_⟩
    rwa [tagOf_full32 h, hnat, if_pos hn]
  · rw [if_neg hlt] at ha
    contradiction

theorem lt_of_cleanAt (h : s.layout = .full32) {n : Nat} (hn : s.CleanAt n) : n < 0x100000000 := by
  obtain ⟨a, rfl, ha⟩ := hn
  rw [tagOf_full32 h] at ha
  by_contra hlt
  rw [if_neg hlt] at ha
  contradiction

/-- The first byte that a word which is scanned has in common with the buffer tells whether the word
is clean. -/
theorem common_byte (h : s.layout = .full32) (hlen : 0 < length.toNat) {k : Nat}
    (hk : k < wordsIn buffer length) :
    let byte := max (scanned buffer k).toNat buffer.toNat
    InBuffer buffer length byte ∧ byte / 4 = (scanned buffer k).toNat / 4 ∧
      (s.CleanAt byte → s.tagOf (scanned buffer k) = .ok untainted) := by
  intro byte
  obtain ⟨hword, hstop⟩ := toNat_scanned hk
  have hsame : byte / 4 = (scanned buffer k).toNat / 4 := by omega
  exact ⟨⟨Nat.le_max_right _ _, Nat.max_lt.mpr ⟨hstop, Nat.lt_add_of_pos_right hlen⟩⟩, hsame,
    fun hclean => cleanAt_toNat.mp (cleanAt_congr h hsame hclean)⟩

/-- A byte of the buffer that is not clean, all bytes in front of it being clean. -/
structure FirstUnclean (s : Store) (buffer length : Address) (n : Nat) : Prop where
  inside : InBuffer buffer length n
  unclean : ¬ s.CleanAt n
  before : ∀ m, InBuffer buffer length m → m < n → s.CleanAt m

theorem exists_firstUnclean {n : Nat} (hinside : InBuffer buffer length n)
    (hunclean : ¬ s.CleanAt n) : ∃ m, FirstUnclean s buffer length m := by
  induction n using Nat.strongRecOn with
  | ind n ih =>
      by_cases hbefore : ∀ m, InBuffer buffer length m → m < n → s.CleanAt m
      · exact ⟨n, hinside, hunclean, hbefore⟩
      · push Not at hbefore
        obtain ⟨m, hm, hlt, hdirty⟩ := hbefore
        exact ih m hlt hm hdirty

namespace FirstUnclean

/-- If the buffer reaches beyond the last address, this address is in the buffer and outside the
window. -/
theorem exists_address (h : s.layout = .full32) {n : Nat} (hn : FirstUnclean s buffer length n) :
    ∃ a : Address, a.toNat = n := by
  have hsize : n < 2 ^ 64 := by
    by_contra hge
    have hend := hn.inside.2
    have hlast : InBuffer buffer length (2 ^ 64 - 1) :=
      ⟨Nat.le_pred_of_lt buffer.toNat_lt, by omega⟩
    have hclean := lt_of_cleanAt h (hn.before _ hlast (by omega))
    omega
  exact ⟨UInt64.ofNat n, UInt64.toNat_ofNat_of_lt' hsize⟩

variable (h : s.layout = .full32) (hlen : 0 < length.toNat)
  (ha : FirstUnclean s buffer length a.toNat)
include h ha

theorem tagOf_wordOf_ne : s.tagOf (wordOf a) ≠ .ok untainted := by
  intro hclean
  have hsame : (wordOf a).toNat / 4 = a.toNat / 4 := by
    rw [toNat_wordOf]
    omega
  exact ha.unclean (cleanAt_congr h hsame (cleanAt_toNat.mpr hclean))

include hlen

theorem tagOf_before {j k : Nat} (hj : j < k) (hk : k < wordsIn buffer length)
    (hword : scanned buffer k = wordOf a) : s.tagOf (scanned buffer j) = .ok untainted := by
  obtain ⟨hbyte, -, hclean⟩ := common_byte h hlen (Nat.lt_trans hj hk)
  have hjth := (toNat_scanned (Nat.lt_trans hj hk)).1
  have hkth := (toNat_scanned hk).1
  rw [hword, toNat_wordOf] at hkth
  exact hclean (ha.before _ hbyte (Nat.max_lt.mpr ⟨by omega, by omega⟩))

/-- The byte is the first one that its word has in common with the buffer. -/
theorem max_wordOf : max (wordOf a) buffer = a := by
  obtain ⟨k, hk, hword⟩ := exists_scanned ha.inside
  obtain ⟨hbyte, hsame, -⟩ := common_byte h hlen hk
  have hfirst := ha.inside.1
  rw [hword, toNat_wordOf] at hbyte hsame
  have hge : ¬ max (a.toNat / 4 * 4) buffer.toNat < a.toNat := fun hlt =>
    ha.unclean (cleanAt_congr h (by omega) (ha.before _ hbyte hlt))
  rw [← UInt64.toNat_inj, UInt64.toNat_max, toNat_wordOf]
  omega

end FirstUnclean

/-- What the guard does about a leak. -/
def answer (o : LeakOptions) (leak : Leak) : Verdict :=
  if o.failAddressLeaks then .fail leak else .leak leak

theorem onPreSyscall_sink (o : LeakOptions) (s : Store) {call : Syscall}
    (hsink : call.isSink = true) (buffer : Address) (hlen : 0 < length.toNat) :
    onPreSyscall o s call.number buffer length =
      (firstTagged s (wordsIn buffer length) (wordOf buffer)).map fun
        | none => .allow
        | some (a, t) => answer o ⟨call, max a buffer, t⟩ := by
  have hcall : Syscall.ofNumber? call.number = some call := by cases call <;> rfl
  have hnonzero : ¬ (!call.isSink || decide (length = 0)) = true := by
    rw [hsink]
    have hne : length ≠ 0 := fun h => Nat.ne_of_gt hlen (h ▸ rfl)
    simp [hne]
  unfold onPreSyscall
  rw [hcall]
  dsimp only
  rw [if_neg hnonzero]
  cases firstTagged s (wordsIn buffer length) (wordOf buffer) with
  | error e => rfl
  | ok found => cases found <;> rfl

theorem onPreSyscall_clean (h : s.layout = .full32) (o : LeakOptions) {call : Syscall}
    (hsink : call.isSink = true) (hlen : 0 < length.toNat)
    (hclean : ∀ n, InBuffer buffer length n → s.CleanAt n) :
    onPreSyscall o s call.number buffer length = .ok .allow := by
  have hwords : ∀ k < wordsIn buffer length, s.tagOf (scanned buffer k) = .ok untainted := by
    intro k hk
    obtain ⟨hbyte, -, hword⟩ := common_byte h hlen hk
    exact hword (hclean _ hbyte)
  rw [onPreSyscall_sink o s hsink buffer hlen, firstTagged_clean hwords]
  rfl

/-- The scan stops in the word of the first byte that is not clean, and the leak is that byte. -/
theorem onPreSyscall_unclean (h : s.layout = .full32) (o : LeakOptions) {call : Syscall}
    (hsink : call.isSink = true) (hlen : 0 < length.toNat) {n : Nat}
    (hn : FirstUnclean s buffer length n) :
    ∃ a : Address, a.toNat = n ∧ onPreSyscall o s call.number buffer length =
      match s.tagOf a with
      | .error _ => .error (.invalidAddress (wordOf a))
      | .ok t => .ok (answer o ⟨call, a, t⟩) := by
  obtain ⟨a, rfl⟩ := hn.exists_address h
  obtain ⟨k, hk, hword⟩ := exists_scanned hn.inside
  have hstop := hn.tagOf_wordOf_ne h
  rw [← hword] at hstop
  have hscan := firstTagged_stops hk (fun j hj => hn.tagOf_before h hlen hj hk hword) hstop
  change _ = (s.tagOf (scanned buffer k)).map fun t => some (scanned buffer k, t) at hscan
  refine ⟨a, rfl, ?_⟩
  rw [onPreSyscall_sink o s hsink buffer hlen, hscan, hword, tagOf_wordOf h]
  cases s.tagOf a with
  | error e => rfl
  | ok t =>
      change Except.ok (answer o ⟨call, max (wordOf a) buffer, t⟩) = _
      rw [hn.max_wordOf h hlen]

theorem onPreSyscall_allow_iff (h : s.layout = .full32) (o : LeakOptions) {call : Syscall}
    (hsink : call.isSink = true) (hlen : 0 < length.toNat) :
    onPreSyscall o s call.number buffer length = .ok .allow ↔
      ∀ n, InBuffer buffer length n → s.CleanAt n := by
  refine ⟨fun hallow n hn => ?_, onPreSyscall_clean h o hsink hlen⟩
  by_contra hunclean
  obtain ⟨m, hm⟩ := exists_firstUnclean hn hunclean
  obtain ⟨a, -, hresult⟩ := onPreSyscall_unclean h o hsink hlen hm
  rw [hallow] at hresult
  cases ht : s.tagOf a with
  | error e =>
      rw [ht] at hresult
      cases hresult
  | ok t =>
      rw [ht] at hresult
      unfold answer at hresult
      cases hfail : o.failAddressLeaks <;> rw [hfail] at hresult <;> cases hresult

/-- Other calls, and calls that send nothing, are allowed unseen. -/
theorem onPreSyscall_other (o : LeakOptions) (s : Store) {number : UInt32} (buffer : Address)
    (h : number ≠ Syscall.write.number ∧ number ≠ Syscall.send.number ∨ length = 0) :
    onPreSyscall o s number buffer length = .ok .allow := by
  unfold onPreSyscall
  cases hcall : Syscall.ofNumber? number with
  | none => rfl
  | some call =>
      have hnumber : call.number = number :=
        beq_iff_eq.mp (List.find?_some (p := fun c : Syscall => c.number == number) hcall)
      have hunseen : (!call.isSink || decide (length = 0)) = true := by
        rcases h with ⟨hwrite, hsend⟩ | hlen
        · subst hnumber
          cases call <;> first | rfl | contradiction
        · simp [hlen]
      exact if_pos hunseen

end LeakGuard

namespace Tracker

theorem guardSyscall_warns (tr : Tracker) (session : Session) (g : LeakGuard) (number : UInt32)
    (buffer length : Address) :
    ∃ warnings, (tr.guardSyscall session g number buffer length).2 =
      { tr with warnings := tr.warnings ++ warnings } := by
  unfold guardSyscall
  dsimp only
  split
  · exact ⟨_, rfl⟩
  · exact ⟨_, rfl⟩
  · exact ⟨[], by rw [List.append_nil]⟩

/-- A call that sends a buffer out is allowed if every byte of the buffer is in the window and has
no tag. Otherwise the first byte that is not so is blamed: if it is outside the window the check
fails with the word of that byte, and if it has a tag this byte is reported with its tag. Checking
changes nothing but the warnings. -/
theorem guard_blames_first_byte (tr : Tracker) (session : Session) (g : LeakGuard)
    (hlayout : session.store.layout = .full32) (buffer length : Address) :
    let s := session.store
    let check := fun number => tr.guardSyscall session g number buffer length
    (∀ number, number ≠ Syscall.write.number ∧ number ≠ Syscall.send.number ∨ length = 0 →
      (check number).1 = .ok .allow) ∧
    (∀ call ∈ [Syscall.write, .send], 0 < length.toNat →
      ((check call.number).1 = .ok .allow ↔
        ∀ n, LeakGuard.InBuffer buffer length n → s.CleanAt n) ∧
      ∀ n, LeakGuard.FirstUnclean s buffer length n →
        ∃ a : Address, a.toNat = n ∧ (check call.number).1 =
          match s.tagOf a with
          | .error _ => .error (.invalidAddress (LeakGuard.wordOf a))
          | .ok t => .ok (if g.options.failAddressLeaks then .fail ⟨call, a, t⟩
              else .leak ⟨call, a, t⟩)) ∧
    ∀ number, ∃ warnings, (check number).2 = { tr with warnings := tr.warnings ++ warnings } := by
  intro s check
  have hcheck : ∀ number, (check number).1 =
      LeakGuard.onPreSyscall g.options s number buffer length := fun number =>
    guardSyscall_verdict tr session g number buffer length
  refine ⟨fun number hother => ?_, fun call hcall hlen => ?_,
    fun number => guardSyscall_warns tr session g number buffer length⟩
  · rw [hcheck]
    exact LeakGuard.onPreSyscall_other g.options s buffer hother
  · have hsink : call.isSink = true := by
      rcases List.mem_pair.mp hcall with rfl | rfl <;> rfl
    rw [hcheck]
    exact ⟨LeakGuard.onPreSyscall_allow_iff hlayout g.options hsink hlen, fun n hn =>
      LeakGuard.onPreSyscall_unclean hlayout g.options hsink hlen hn⟩

/-- The buffer starts in a word that is clean, and the next word was tagged through its last byte.
What is blamed is the first byte of that word. -/
theorem guard_blames_first_byte_next_word :
    let fresh : Store := ⟨⟨.full32, 0x10000000000, by decide⟩, .granting, .zero,
      Store.fresh .lazy .full32⟩
    let session : Session :=
      ⟨1, ⟨.permissive, true, .lazy, true⟩, fresh.withTag 0x1007 0x42, .new .permissive true, none⟩
    (Tracker.initial.guardSyscall session ⟨⟨0, ⟨0⟩⟩, ⟨true, none⟩⟩ Syscall.send.number 0x1003 8).1 =
      .ok (.fail ⟨.send, 0x1004, 0x42⟩) := by
  intro fresh session
  have hconsistent : fresh.Consistent :=
    Store.consistent_create (show Store.create .lazy fresh.window .granting = .ok fresh from rfl)
  have htags := Store.tagOf_withTag hconsistent 0x1007 0x42
  have htag : session.store.tagOf 0x1004 = .ok 0x42 :=
    (htags 0x1004).trans (if_pos ⟨by decide, by decide⟩)
  have hclean : session.store.tagOf 0x1003 = .ok 0 :=
    (htags 0x1003).trans (if_neg fun h => absurd h.2 (by decide))
  have hfirst : LeakGuard.FirstUnclean session.store 0x1003 8 0x1004 := by
    refine ⟨⟨by decide, by decide⟩, fun hword => ?_, fun m hm hlt => ?_⟩
    · cases htag.symm.trans (LeakGuard.cleanAt_toNat.mp hword)
    · exact ⟨0x1003, Nat.le_antisymm hm.1 (Nat.le_of_lt_succ hlt), hclean⟩
  have hlayout : session.store.layout = .full32 := Store.withTag_layout fresh 0x1007 0x42
  obtain ⟨-, hsinks, -⟩ :=
    guard_blames_first_byte .initial session ⟨⟨0, ⟨0⟩⟩, ⟨true, none⟩⟩ hlayout 0x1003 8
  obtain ⟨a, ha, hresult⟩ := (hsinks .send (by decide) (by decide)).2 0x1004 hfirst
  have haddress : a = 0x1004 := UInt64.toNat_inj.mp ha
  rw [haddress, htag] at hresult
  exact hresult

end Tracker
end TaintFlow
