import Mathlib.Logic.Function.Iterate
import TaintFlow.Proofs.Dump.Truncation

/-!
# Reading any input

Behind the header of a dump anything may follow. The reader takes records from the front of it, one
behind the other, until nothing is left or something is there that is no record. Its offset is that
of the bytes it has taken, so an error points into the part that could not be read.
-/

namespace TaintFlow.Dump

open TaintFlow.Action

namespace Reader

variable {size : Nat} {α β : Type}

/-! ## Reading one item of any input -/

/-- A success takes bytes from the front of the input that hold what is returned. A failure tells an
offset that is not in front of the reader and not behind the input. -/
def Scans (size : Nat) (act : Action Reader ReadError α) (Holds : α → List UInt8 → Prop) : Prop :=
  ∀ r : Reader, r.regionSize.tags = size →
    match act r with
    | .ok x r' => ∃ bytes rest, r.rest = bytes ++ rest ∧ r' = r.after bytes rest ∧ Holds x bytes
    | .error e _ => ∃ offset, e = .malformed offset ∧ r.offset ≤ offset ∧
        offset ≤ r.offset + r.rest.length

variable {Holds : α → List UInt8 → Prop}

theorem scans_bind {act : Action Reader ReadError α} {next : α → Action Reader ReadError β}
    {Holds' : β → List UInt8 → Prop} (hact : Scans size act Holds)
    (hnext : ∀ x xs, Holds x xs → Scans size (next x) fun y ys => Holds' y (xs ++ ys)) :
    Scans size (act >>= next) Holds' := by
  intro r hsize
  have hfirst := hact r hsize
  rw [bind_apply]
  cases hrun : act r with
  | error e r' =>
      rw [hrun] at hfirst
      exact hfirst
  | ok x r' =>
      rw [hrun] at hfirst
      obtain ⟨xs, rest, hrest, rfl, hx⟩ := hfirst
      have hsecond := hnext x xs hx (r.after xs rest) hsize
      dsimp only
      cases hrun' : next x (r.after xs rest) with
      | error e r' =>
          rw [hrun'] at hsecond
          obtain ⟨offset, he, hstart, hend⟩ := hsecond
          change r.offset + xs.length ≤ offset at hstart
          change offset ≤ r.offset + xs.length + rest.length at hend
          refine ⟨offset, he, by omega, ?_⟩
          rw [hrest, List.length_append]
          omega
      | ok y r' =>
          rw [hrun'] at hsecond
          obtain ⟨ys, rest', hrest', rfl, hy⟩ := hsecond
          change rest = ys ++ rest' at hrest'
          refine ⟨xs ++ ys, rest', ?_, ?_, hy⟩
          · rw [hrest, hrest', List.append_assoc]
          · unfold after
            rw [List.length_append, Nat.add_assoc]

theorem scans_pure {x : α} (h : Holds x []) : Scans size (pure x) Holds :=
  fun r _ => ⟨[], r.rest, rfl, rfl, h⟩

theorem scans_malformed {act : Action Reader ReadError α}
    (h : ∀ r, act r = .error (.malformed r.offset) r) : Scans size act Holds := by
  intro r _
  rw [h r]
  exact ⟨r.offset, rfl, Nat.le_refl _, Nat.le_add_right _ _⟩

theorem scans_token :
    Scans size token fun word bytes => space ∉ word ∧ bytes = word ++ [space] := by
  intro r _
  by_cases hspace : space ∈ r.rest
  · obtain ⟨word, rest, hrest, hword⟩ := List.eq_append_cons_of_mem hspace
    have hfull : r.rest = word ++ [space] ++ rest := by
      rw [hrest, List.append_assoc]
      rfl
    rw [reads_token hword r rest rfl hfull]
    exact ⟨_, rest, hfull, rfl, hword, rfl⟩
  · have hlast : r.rest.getLast? ≠ some space := fun hlast => hspace (List.mem_of_getLast? hlast)
    unfold token
    rw [splitAfter_of_notMem hspace]
    dsimp only
    rw [if_neg hlast]
    exact ⟨_, rfl, Nat.le_add_right _ _, Nat.le_refl _⟩

theorem scans_field (name : List UInt8) :
    Scans size (field name) fun a bytes => ∃ t : FieldText name, t.value = a ∧ t.bytes = bytes := by
  unfold field
  refine scans_bind scans_token fun word xs ⟨_, hxs⟩ => ?_
  by_cases hname : (word != name) = true
  · rw [if_pos hname]
    exact scans_malformed fun _ => rfl
  · rw [if_neg hname]
    refine scans_bind scans_token fun digits ys ⟨hdigits, hys⟩ => ?_
    cases hvalue : Hex.word? (digits.map fun b => Char.ofNat b.toNat) with
    | none => exact scans_malformed fun _ => rfl
    | some a =>
        refine scans_pure ⟨⟨digits, a, hdigits, hvalue⟩, rfl, ?_⟩
        rw [hxs, hys, List.append_nil, ← of_not_not fun hne => hname (bne_iff_ne.mpr hne)]
        rfl

theorem scans_body :
    Scans size body fun tags bytes => tags.length = size ∧ bytes = tags ++ [lineEnd] := by
  intro r hsize
  unfold body
  dsimp only
  by_cases hshort : (r.rest.take (r.regionSize.tags + 1)).length < r.regionSize.tags + 1
  · rw [if_pos hshort]
    exact ⟨r.offset, rfl, Nat.le_refl _, Nat.le_add_right _ _⟩
  · rw [if_neg hshort]
    have hrest := List.take_append_drop (r.regionSize.tags + 1) r.rest
    have hlength : (r.rest.take (r.regionSize.tags + 1)).length = r.regionSize.tags + 1 :=
      Nat.le_antisymm (List.length_take_le _ _) (Nat.le_of_not_lt hshort)
    by_cases hlast : (r.rest.take (r.regionSize.tags + 1)).getLast? = some lineEnd
    · rw [if_pos hlast]
      have htags := List.dropLast_append_getLast? lineEnd hlast
      refine ⟨_, _, hrest.symm, ?_, ?_, htags.symm⟩
      · rw [after, hlength]
      · rw [List.length_dropLast, hlength, Nat.add_sub_cancel, hsize]
    · rw [if_neg hlast]
      refine ⟨_, rfl, Nat.le_add_right _ _, Nat.add_le_add_left ?_ _⟩
      rw [← hlength]
      exact List.length_take_le' _ _

/-- A record is read from a slice of the input. -/
theorem scans_record :
    Scans size record fun region bytes =>
      ∃ s : Slice size, s.region = region ∧ s.bytes = bytes := by
  unfold record
  refine scans_bind (scans_field appField) fun _ _ ⟨app, happ, hxs⟩ => ?_
  refine scans_bind (scans_field shadowField) fun _ _ ⟨shadow, hshadow, hys⟩ => ?_
  refine scans_bind scans_body fun tags _ ⟨htags, hzs⟩ => scans_pure ?_
  subst happ hxs hshadow hys hzs
  refine ⟨⟨app, shadow, tags, htags⟩, rfl, ?_⟩
  rw [List.append_nil]
  rfl

/-! ## Reading all of any input -/

/-- What the reader says of input that it could not read, which starts at `start` and is all that is
left: the error points into it, and no slice stands in front. -/
structure Unread (size : Nat) (start : Nat) (tail : List UInt8) (offset : Nat) : Prop where
  nonempty : tail ≠ []
  start_le : start ≤ offset
  le_end : offset ≤ start + tail.length
  no_slice : ∀ (s : Slice size) rest, tail ≠ s.bytes ++ rest

/-- The reader says nothing of input that it has read to the end, and otherwise gives the error that
points into what it could not read. -/
def Ending (size start : Nat) (tail : List UInt8) (ending : List (Except ReadError Region)) :
    Prop :=
  tail = [] ∧ ending = [] ∨
    ∃ offset, ending = [.error (.malformed offset)] ∧ Unread size start tail offset

namespace Ending

variable {start : Nat} {tail : List UInt8} {ending : List (Except ReadError Region)}

theorem eq_nil_iff (h : Ending size start tail ending) : ending = [] ↔ tail = [] := by
  rcases h with ⟨htail, hending⟩ | ⟨offset, rfl, hunread⟩
  · exact ⟨fun _ => htail, fun _ => hending⟩
  · exact ⟨nofun, fun htail => absurd htail hunread.nonempty⟩

theorem length_le (h : Ending size start tail ending) : ending.length ≤ tail.length := by
  rcases h with ⟨-, rfl⟩ | ⟨offset, rfl, hunread⟩
  · exact Nat.zero_le _
  · exact List.length_pos_of_ne_nil hunread.nonempty

end Ending

/-- In front of bytes that are no slice, the reader gives an error and then nothing more. -/
theorem yields_unread {r : Reader} (hsize : r.regionSize.tags = size)
    (hfinished : r.finished = false) (hnonempty : r.rest ≠ []) {e : ReadError} {q : Reader}
    (hrun : record r = .error e q) :
    ∃ ending, r.Yields ending ∧ Ending size r.offset r.rest ending := by
  have hscan := scans_record r hsize
  rw [hrun] at hscan
  obtain ⟨offset, rfl, hstart, hend⟩ := hscan
  have hnext : r.next = (some (.error (.malformed offset)), { q with finished := true }) := by
    unfold next
    rw [hfinished, List.isEmpty_eq_false_iff.mpr hnonempty, hrun]
    rfl
  refine ⟨_, yields_cons hnext (yields_nil (next_finished rfl) rfl), Or.inr ⟨offset, rfl, ?_⟩⟩
  refine ⟨hnonempty, hstart, hend, fun s rest hslice => ?_⟩
  rw [reads_slice s r rest hsize hslice] at hrun
  cases hrun

/-- The slices are taken from the front of the input until nothing is left or no slice is there. -/
theorem yields_slices {r : Reader} (hsize : r.regionSize.tags = size)
    (hfinished : r.finished = false) :
    ∃ (slices : List (Slice size)) (tail : List UInt8) (ending : List (Except ReadError Region)),
      r.rest = slices.flatMap Slice.bytes ++ tail ∧
      r.Yields (slices.map (fun s => .ok s.region) ++ ending) ∧
      Ending size (r.offset + (slices.flatMap Slice.bytes).length) tail ending := by
  -- On the length of the input, which every slice makes shorter.
  induction hlength : r.rest.length using Nat.strongRecOn generalizing r with
  | ind n ih =>
      by_cases hrest : r.rest = []
      · exact ⟨[], [], [], hrest, yields_done hfinished hrest, Or.inl ⟨rfl, rfl⟩⟩
      · cases hrun : record r with
        | error e q =>
            obtain ⟨ending, hyields, hending⟩ := yields_unread hsize hfinished hrest hrun
            exact ⟨[], r.rest, ending, rfl, hyields, hending⟩
        | ok region q =>
            have hscan := scans_record r hsize
            rw [hrun] at hscan
            obtain ⟨_, rest, hfull, -, s, -, rfl⟩ := hscan
            have hpos := s.length_bytes_pos
            have hless : rest.length < n := by
              rw [← hlength, hfull, List.length_append]
              omega
            obtain ⟨slices, tail, ending, htail, hyields, hending⟩ :=
              ih rest.length hless (r := r.after s.bytes rest) hsize hfinished rfl
            refine ⟨s :: slices, tail, ending, ?_, ?_, ?_⟩
            · change rest = _ at htail
              rw [hfull, htail, List.flatMap_cons, List.append_assoc]
            · exact yields_cons (next_slice s hsize hfinished hfull) hyields
            · rw [List.flatMap_cons, List.length_append, ← Nat.add_assoc]
              exact hending

theorem Yields.cases {r : Reader} {found : List (Except ReadError Region)} (h : r.Yields found) :
    (found = [] ∧ ∃ q, r.next = (none, q) ∧ q.finished = true) ∨
      ∃ item rest q, found = item :: rest ∧ r.next = (some item, q) ∧ q.Yields rest := by
  obtain ⟨hone, hend⟩ := h 1
  rw [upTo] at hone hend
  rcases hnext : r.next with ⟨_ | item, q⟩
  · rw [hnext] at hone hend
    have hfound : found = [] := by
      simpa using hone.symm
    exact Or.inl ⟨hfound, q, rfl, hend (by rw [hfound]; decide)⟩
  · rw [hnext] at hone
    cases found with
    | nil => cases hone
    | cons first rest =>
        obtain rfl : item = first := (List.cons.inj hone).1
        refine Or.inr ⟨item, rest, q, rfl, rfl, fun limit => ?_⟩
        obtain ⟨hitems, hlast⟩ := h (limit + 1)
        rw [upTo, hnext] at hitems hlast
        exact ⟨(List.cons.inj hitems).2, fun hlt => hlast (Nat.succ_lt_succ hlt)⟩

/-- Asked for the next item once more, the reader gives the item at that place, and nothing from the
end on. -/
theorem Yields.next_iterate {r : Reader} {found : List (Except ReadError Region)}
    (h : r.Yields found) (n : Nat) : ((fun q => q.next.2)^[n] r).next.1 = found[n]? := by
  induction n generalizing r found with
  | zero =>
      rcases h.cases with ⟨rfl, q, hnext, -⟩ | ⟨item, rest, q, rfl, hnext, -⟩
      · exact congrArg Prod.fst hnext
      · exact congrArg Prod.fst hnext
  | succ n ih =>
      rw [Function.iterate_succ_apply]
      rcases h.cases with ⟨rfl, q, hnext, hq⟩ | ⟨item, rest, q, rfl, hnext, hq⟩
      · have hfixed : q.next.2 = q := by
          rw [next_finished hq]
        rw [hnext, Function.iterate_fixed (f := fun q : Reader => q.next.2) hfixed,
          next_finished hq]
        rfl
      · rw [hnext]
        exact ih hq

/-- Behind its header, any input is read as the records that consecutive slices of it hold, and as
one error more unless the slices are all of the input. The error points into the part that could not
be read, in front of which there is no slice. Nothing comes behind the last record or the error,
however often the reader is asked. The regions may have any size that there can be a buffer for. -/
theorem slices_read_in_order (bytes : List UInt8) (size : RegionSize) :
    ∃ r, start (header ++ bytes) size = .ok r ∧
      ∃ (slices : List (Slice size.tags)) (tail : List UInt8)
        (ending : List (Except ReadError Region)),
        let found := slices.map (fun s => .ok s.region) ++ ending
        let read := header ++ slices.flatMap Slice.bytes
        header ++ bytes = read ++ tail ∧
        r.items.1 = found ∧
        (∀ n, ((fun q => q.next.2)^[n] r).next.1 = found[n]?) ∧
        (ending = [] ↔ header ++ bytes = read) ∧
        (ending ≠ [] → ∃ offset, ending = [.error (.malformed offset)] ∧
          read.length ≤ offset ∧ offset ≤ (header ++ bytes).length ∧
          ∀ (s : Slice size.tags) rest, tail ≠ s.bytes ++ rest) := by
  obtain ⟨slices, tail, ending, hbytes, hyields, hending⟩ :=
    yields_slices (r := ⟨bytes, header.length, size, false⟩) rfl rfl
  change bytes = _ at hbytes
  change Ending size.tags (header.length + _) tail ending at hending
  have hlength := congrArg List.length hbytes
  rw [List.length_append] at hlength
  refine ⟨_, start_header bytes size, slices, tail, ending, ?bytes, ?items, hyields.next_iterate,
    ?whole, ?error⟩
  case bytes => rw [hbytes, List.append_assoc]
  case items =>
    have hslices := length_le_flatMap Slice.length_bytes_pos slices
    have hshort := hending.length_le
    refine (hyields.items ?_).1
    change _ ≤ bytes.length
    rw [List.length_append, List.length_map]
    omega
  case whole =>
    rw [hending.eq_nil_iff, hbytes, List.append_right_inj, List.append_right_eq_self]
  case error =>
    intro hne
    obtain ⟨offset, hoffset, hunread⟩ :=
      hending.resolve_left fun hnone => hne hnone.2
    refine ⟨offset, hoffset, ?_, ?_, hunread.no_slice⟩
    · rw [List.length_append]
      exact hunread.start_le
    · have hle := hunread.le_end
      rw [List.length_append]
      omega

end Reader

end TaintFlow.Dump
