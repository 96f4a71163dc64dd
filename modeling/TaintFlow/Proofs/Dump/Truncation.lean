import TaintFlow.Proofs.Dump.RoundTrip
import TaintFlow.Proofs.Shadow.Regions

/-!
# Dumps that break off

A sink that runs out of room keeps the first bytes of the dump. They may end inside a word, between
two words, or inside the tags of a record. Wherever they end, the reader returns the records in
front of the cut and one error for the record that the cut falls into.
-/

namespace TaintFlow

open TaintFlow.Action

namespace Dump

/-- A sink takes the first bytes of a dump, up to its room. -/
theorem write_limited (regions : List Region) (room : Nat) (failsFlush : Bool) :
    outcome (write fun visitor p => Region.visitEach visitor p regions)
        ⟨[], some room, failsFlush⟩ =
      (if (encode regions).length ≤ room ∧ failsFlush = false then .ok regions.length
        else .error .failed,
        ⟨(encode regions).take room, some room, failsFlush⟩) := by
  have hfitting : Sink.fitting ⟨[], some room, failsFlush⟩ (encode regions).length =
      min (encode regions).length room := rfl
  have hhanded : Sink.handed ⟨[], some room, failsFlush⟩ (encode regions) =
      ⟨(encode regions).take room, some room, failsFlush⟩ := by
    rw [Sink.handed, hfitting, List.nil_append, Nat.min_comm, ← List.take_eq_take_min]
  unfold outcome
  rw [write_eq, hfitting, hhanded]
  by_cases hfits : (encode regions).length ≤ room
  · cases failsFlush <;> simp [hfits]
  · rw [if_pos (Or.inl (by omega)), if_neg fun h => hfits h.1]

/-! ## Reading one item that breaks off -/

/-- The bytes are some of those that were to come, but not all. -/
def CutFrom (bytes whole : List UInt8) : Prop :=
  bytes <+: whole ∧ bytes ≠ whole

theorem CutFrom.length_lt {bytes whole : List UInt8} (h : CutFrom bytes whole) :
    bytes.length < whole.length := by
  obtain ⟨hbegins, hne⟩ := h
  exact Nat.lt_of_le_of_ne hbegins.length_le fun heq => hne (hbegins.eq_of_length heq)

/-- A cut falls into the first of two items, or behind it and into the second. -/
theorem CutFrom.append_cases {bytes xs ys : List UInt8} (h : CutFrom bytes (xs ++ ys)) :
    CutFrom bytes xs ∨ ∃ zs, bytes = xs ++ zs ∧ CutFrom zs ys := by
  obtain ⟨hbegins, hne⟩ := h
  by_cases hlength : bytes.length < xs.length
  · have hxs : bytes <+: xs :=
      List.prefix_of_prefix_length_le hbegins (List.prefix_append xs ys) (Nat.le_of_lt hlength)
    exact Or.inl ⟨hxs, fun heq => by simp [heq] at hlength⟩
  · have hxs : xs <+: bytes :=
      List.prefix_of_prefix_length_le (List.prefix_append xs ys) hbegins (by omega)
    obtain ⟨zs, rfl⟩ := hxs
    rw [List.prefix_append_right_inj] at hbegins
    exact Or.inr ⟨zs, rfl, hbegins, fun heq => hne (congrArg (xs ++ ·) heq)⟩

namespace Reader

theorem splitAfter_of_notMem {stop : UInt8} {xs : List UInt8} (h : stop ∉ xs) :
    splitAfter stop xs = (xs, []) := by
  induction xs with
  | nil => rfl
  | cons x xs ih =>
      have hx : x ≠ stop := fun hx => h (hx ▸ List.mem_cons_self)
      rw [splitAfter, if_neg hx, ih fun hstop => h (List.mem_cons_of_mem x hstop)]

variable {size : Nat} {α β : Type}

/-- Every reader of regions with `size` tags fails if all that is left is a part of `bytes`. -/
def Misses (size : Nat) (act : Action Reader ReadError α) (bytes : List UInt8) : Prop :=
  ∀ r, r.regionSize.tags = size → CutFrom r.rest bytes →
    ∃ offset r', act r = .error (.malformed offset) r'

theorem misses_bind {act : Action Reader ReadError α} {next : α → Action Reader ReadError β}
    {xs ys : List UInt8} {x : α} (hact : Reads size act xs x) (hcut : Misses size act xs)
    (hnext : Misses size (next x) ys) : Misses size (act >>= next) (xs ++ ys) := by
  intro r hsize h
  rcases h.append_cases with h | ⟨zs, hrest, h⟩
  · obtain ⟨offset, r', herror⟩ := hcut r hsize h
    exact ⟨offset, r', bind_error herror⟩
  · rw [bind_ok (hact r zs hsize hrest)]
    exact hnext (r.after xs zs) hsize h

theorem misses_pure (x : α) : Misses size (pure x) [] :=
  fun _ _ ⟨hbegins, hne⟩ => absurd (List.prefix_nil.mp hbegins) hne

theorem misses_token {word : List UInt8} (h : space ∉ word) :
    Misses size token (word ++ [space]) := by
  intro r _ ⟨hbegins, hne⟩
  have hword : r.rest <+: word := (List.prefix_concat_iff.mp hbegins).resolve_left hne
  have hspace : space ∉ r.rest := fun hmem => h (hword.subset hmem)
  have hlast : r.rest.getLast? ≠ some space := fun hlast => hspace (List.mem_of_getLast? hlast)
  unfold token
  rw [splitAfter_of_notMem hspace]
  dsimp only
  rw [if_neg hlast]
  exact ⟨_, _, rfl⟩

theorem misses_field {name : List UInt8} (h : space ∉ name) (t : FieldText name) :
    Misses size (field name) t.bytes := by
  unfold field
  refine misses_bind (reads_token h) (misses_token h) ?_
  have hname : (name != name) = false := bne_self_eq_false name
  rw [hname, ← List.append_nil (t.digits ++ [space])]
  refine misses_bind (reads_token t.spaceless) (misses_token t.spaceless) ?_
  rw [t.digits_value]
  exact misses_pure t.value

/-- The tags are counted, so what they look like does not matter. -/
theorem misses_body {tags : List Tag} (h : tags.length = size) :
    Misses size body (tags ++ [lineEnd]) := by
  intro r hsize hcut
  have hless := hcut.length_lt
  rw [List.length_append, List.length_singleton, h, ← hsize] at hless
  have hshort : (r.rest.take (r.regionSize.tags + 1)).length < r.regionSize.tags + 1 := by
    rw [List.length_take]
    omega
  unfold body
  dsimp only
  rw [if_pos hshort]
  exact ⟨_, _, rfl⟩

theorem misses_slice (s : Slice size) : Misses size record s.bytes := by
  rw [s.bytes_eq_items]
  unfold record
  refine misses_bind (reads_field (by decide) s.app) (misses_field (by decide) s.app) ?_
  refine misses_bind (reads_field (by decide) s.shadow) (misses_field (by decide) s.shadow) ?_
  exact misses_bind (reads_body s.tags_length) (misses_body s.tags_length) (misses_pure s.region)

theorem misses_record {region : Region} (h : region.tags.length = size) :
    Misses size record (Dump.record region) := by
  rw [← Slice.bytes_ofRegion h]
  exact misses_slice (.ofRegion region h)

/-! ## Reading a dump that breaks off -/

/-- A record that breaks off is one error, and then there is nothing more. -/
theorem yields_cut {region : Region} {r : Reader} (h : region.tags.length = r.regionSize.tags)
    (hfinished : r.finished = false) (hcut : CutFrom r.rest (Dump.record region))
    (hnonempty : r.rest ≠ []) : ∃ offset, r.Yields [.error (.malformed offset)] := by
  obtain ⟨offset, r', herror⟩ := misses_record h r rfl hcut
  have hnext : r.next = (some (.error (.malformed offset)), { r' with finished := true }) := by
    unfold next
    rw [hfinished, List.isEmpty_eq_false_iff.mpr hnonempty, herror]
    rfl
  exact ⟨offset, yields_cons hnext (yields_nil (next_finished rfl) rfl)⟩

theorem start_cut_header {k : Nat} (h : k < header.length) (size : RegionSize) :
    start (header.take k) size = .error .badHeader := by
  have htext : ∀ k : Fin header.length, lineEnd ∉ header.take k ∧ header.take k ≠ header ∧
      ByteArray.validateUTF8 ⟨(header.take k).toArray⟩ = true := by
    decide
  obtain ⟨hline, hne, hvalid⟩ := htext ⟨k, h⟩
  unfold start
  rw [splitAfter_of_notMem hline]
  dsimp only
  rw [if_neg hne, if_pos hvalid]

end Reader

/-- The first bytes of some records are the records in front of the cut, and a part of the one that
the cut falls into. -/
theorem take_records (regions : List Region) (k : Nat) :
    ∃ n cut, (regions.flatMap record).take k = (regions.take n).flatMap record ++ cut ∧
      n ≤ regions.length ∧
      (∀ m ≤ regions.length, m ≤ n ↔ ((regions.take m).flatMap record).length ≤ k) ∧
      (cut = [] ∨ ∃ region ∈ regions, CutFrom cut (record region)) := by
  induction regions generalizing k with
  | nil =>
      refine ⟨0, [], by simp, Nat.le_refl 0, ?_, Or.inl rfl⟩
      intro m hm
      simpa using hm
  | cons region regions ih =>
      by_cases hfits : (record region).length ≤ k
      · -- The first record is complete: the cut falls behind it.
        obtain ⟨n, cut, htake, hn, hcount, hcut⟩ := ih (k - (record region).length)
        refine ⟨n + 1, cut, ?_, Nat.succ_le_succ hn, ?_, ?_⟩
        · rw [List.flatMap_cons, List.take_append, List.take_of_length_le hfits, htake,
            List.take_succ_cons, List.flatMap_cons, List.append_assoc]
        · intro m hm
          cases m with
          | zero => simp
          | succ m =>
              have hm' := hcount m (Nat.le_of_succ_le_succ hm)
              rw [List.take_succ_cons, List.flatMap_cons, List.length_append]
              omega
        · refine hcut.imp id fun ⟨q, hq, hcut⟩ => ⟨q, List.mem_cons_of_mem region hq, hcut⟩
      · have hlength : ((record region).take k).length = k := by
          rw [List.length_take]
          omega
        refine ⟨0, (record region).take k, ?_, Nat.zero_le _, ?_, ?_⟩
        · rw [List.flatMap_cons, List.take_append_of_le_length (by omega)]
          rfl
        · intro m hm
          cases m with
          | zero => simp
          | succ m =>
              rw [List.take_succ_cons, List.flatMap_cons, List.length_append]
              omega
        · refine Or.inr ⟨region, List.mem_cons_self, List.take_prefix k _, fun heq => ?_⟩
          rw [heq] at hlength
          omega

theorem take_encode_of_lt {k : Nat} (h : k < header.length) (regions : List Region) :
    (encode regions).take k = header.take k := by
  rw [encode, List.take_append_of_le_length (Nat.le_of_lt h)]

/-- Behind its records, a cut is nothing at all or an error. -/
theorem yields_behind {regions : List Region} {cut : List UInt8} {r : Reader}
    (h : ∀ region ∈ regions, region.tags.length = r.regionSize.tags)
    (hfinished : r.finished = false) (hrest : r.rest = cut)
    (hcut : cut = [] ∨ ∃ region ∈ regions, CutFrom cut (record region)) :
    ∃ ending, r.Yields ending ∧ ending.length ≤ cut.length ∧
      (cut = [] → ending = []) ∧
      (cut ≠ [] → ∃ offset, ending = [.error (.malformed offset)]) := by
  by_cases hempty : cut = []
  · refine ⟨[], Reader.yields_done hfinished (hrest.trans hempty), Nat.zero_le _, fun _ => rfl, ?_⟩
    exact fun hne => absurd hempty hne
  · obtain ⟨region, hregion, hcutFrom⟩ := hcut.resolve_left hempty
    rw [← hrest] at hcutFrom
    obtain ⟨offset, hyields⟩ :=
      Reader.yields_cut (h region hregion) hfinished hcutFrom (by rwa [hrest])
    have hpos : 0 < cut.length := List.length_pos_of_ne_nil hempty
    exact ⟨_, hyields, hpos, fun h => absurd h hempty, fun _ => ⟨offset, rfl⟩⟩

/-- The records that a dump holds completely which breaks off behind its header. -/
theorem take_encode {k : Nat} (h : header.length ≤ k) (regions : List Region) :
    ∃ n cut, (encode regions).take k = encode (regions.take n) ++ cut ∧
      n ≤ regions.length ∧
      (∀ m ≤ regions.length, m ≤ n ↔ (encode (regions.take m)).length ≤ k) ∧
      (cut = [] ↔ k = (encode (regions.take n)).length ∨ (encode regions).length ≤ k) ∧
      (cut = [] ∨ ∃ region ∈ regions, CutFrom cut (record region)) := by
  obtain ⟨n, cut, htake, hn, hcount, hcut⟩ := take_records regions (k - header.length)
  have hcount' : ∀ m ≤ regions.length, m ≤ n ↔ (encode (regions.take m)).length ≤ k := by
    intro m hm
    rw [hcount m hm, encode, List.length_append]
    omega
  have htake' : (encode regions).take k = encode (regions.take n) ++ cut := by
    rw [encode, List.take_append, List.take_of_length_le h, htake, encode, List.append_assoc]
  refine ⟨n, cut, htake', hn, hcount', ?_, hcut⟩
  have hlength := congrArg List.length htake'
  rw [List.length_take, List.length_append] at hlength
  have hfits := (hcount' n hn).mp (Nat.le_refl n)
  have hall := hcount' regions.length (Nat.le_refl _)
  rw [List.take_length] at hall
  rw [← List.length_eq_zero_iff]
  constructor
  · omega
  · rintro (hk | hk)
    · omega
    · have hn' : n = regions.length := Nat.le_antisymm hn (hall.mpr hk)
      rw [hn', List.take_length] at hlength
      omega

/-- A dump that breaks off behind its header is read back as the records that it holds completely,
and as one error more unless it breaks off between two records. -/
theorem items_take_encode {regions : List Region} {size : RegionSize} {k : Nat}
    (h : ∀ region ∈ regions, region.tags.length = size.tags) (hk : header.length ≤ k) :
    ∃ r n ending, Reader.start ((encode regions).take k) size = .ok r ∧ n ≤ regions.length ∧
      (∀ m ≤ regions.length, m ≤ n ↔ (encode (regions.take m)).length ≤ k) ∧
      r.items.1 = (regions.take n).map .ok ++ ending ∧ r.items.2.next.1 = none ∧
      (∀ limit, (r.upTo limit).1 = ((regions.take n).map .ok ++ ending).take limit) ∧
      let onBoundary := k = (encode (regions.take n)).length ∨ (encode regions).length ≤ k
      (onBoundary → ending = []) ∧
        (¬ onBoundary → ∃ offset, ending = [.error (.malformed offset)]) := by
  obtain ⟨n, cut, htake, hn, hcount, hboundary, hcut⟩ := take_encode hk regions
  let r : Reader := ⟨(regions.take n).flatMap record ++ cut, header.length, size, false⟩
  have hstart : Reader.start ((encode regions).take k) size = .ok r := by
    rw [htake, encode, List.append_assoc]
    exact Reader.start_header _ size
  obtain ⟨q, hqsize, hqfinished, hqrest, hq⟩ :=
    Reader.yields_append (r := r) (fun region hregion => h region (List.mem_of_mem_take hregion))
      rfl rfl rfl
  obtain ⟨ending, hending, hshort, hnone, herror⟩ :=
    yields_behind (hqsize ▸ h) hqfinished hqrest hcut
  have hyields := hq ending hending
  have hroom : ((regions.take n).map Except.ok ++ ending).length ≤ r.rest.length := by
    have hrecords := Reader.length_le_flatMap Reader.length_record_pos (regions.take n)
    have hrest : r.rest.length = ((regions.take n).flatMap record).length + cut.length :=
      List.length_append
    rw [List.length_append, List.length_map, hrest]
    omega
  obtain ⟨hitems, hend⟩ := hyields.items hroom
  exact ⟨r, n, ending, hstart, hn, hcount, hitems, hend, fun limit => (hyields limit).1,
    fun hb => hnone (hboundary.mpr hb), fun hb => herror fun hempty => hb (hboundary.mp hempty)⟩

end Dump

namespace Store

/-- A sink that takes only `room` bytes has the first `room` bytes of the dump when the dump
returns, which succeeds exactly if this is all of it and the sink can be flushed. What the sink took
is read back as the records in front of the cut, with one error behind them if the cut falls into a
record. -/
theorem broken_off_dump (s : Store) (room : Nat) (failsFlush : Bool) :
    let dump := Dump.encode s.regions
    ∃ sink, outcome (Dump.write s.visit) ⟨[], some room, failsFlush⟩ =
        (if dump.length ≤ room ∧ failsFlush = false then
          .ok (s.visit (fun seen _ => (seen + 1, true)) 0)
        else .error .failed, sink) ∧
      sink.taken = dump.take room ∧
      ∀ size : Dump.RegionSize, size.tags = s.layout.regionSize →
        (room < Dump.header.length → Dump.Reader.start sink.taken size = .error .badHeader) ∧
        (Dump.header.length ≤ room →
          ∃ r n ending, Dump.Reader.start sink.taken size = .ok r ∧ n ≤ s.regions.length ∧
            (∀ m ≤ s.regions.length, m ≤ n ↔ (Dump.encode (s.regions.take m)).length ≤ room) ∧
            r.items.1 = (s.regions.take n).map .ok ++ ending ∧ r.items.2.next.1 = none ∧
            (∀ limit, (r.upTo limit).1 = ((s.regions.take n).map .ok ++ ending).take limit) ∧
            let onBoundary :=
              room = (Dump.encode (s.regions.take n)).length ∨ dump.length ≤ room
            (onBoundary → ending = []) ∧
              (¬ onBoundary → ∃ offset, ending = [.error (.malformed offset)])) := by
  intro dump
  have hvisit : s.visit (fun seen _ => (seen + 1, true)) 0 = s.regions.length := by
    rw [visit, Region.visitEach_all fun _ _ => rfl, List.foldl_add_const, Nat.zero_add, Nat.one_mul]
  refine ⟨⟨dump.take room, some room, failsFlush⟩, ?_, rfl, fun size hsize =>
    ⟨fun hk => ?_, fun hk => ?_⟩⟩
  · rw [hvisit]
    exact Dump.write_limited s.regions room failsFlush
  · rw [Dump.take_encode_of_lt hk]
    exact Dump.Reader.start_cut_header hk size
  · refine Dump.items_take_encode (fun region hregion => ?_) hk
    obtain ⟨i, -, rfl⟩ := List.mem_map.mp hregion
    rw [hsize]
    exact Memory.length_slice _ _ _

end Store

end TaintFlow
