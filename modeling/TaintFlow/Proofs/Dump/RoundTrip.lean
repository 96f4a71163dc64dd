import Mathlib.Data.List.Basic
import TaintFlow.Dump.Reader
import TaintFlow.Dump.Writer
import TaintFlow.Proofs.Actions

/-!
# Reading what was written

The words of a record are closed by a space and hold none, and its tags are counted. So the reader
finds the end of everything it reads without looking at the tags: they may hold spaces, line ends or
the text of another record.
-/

namespace TaintFlow

open TaintFlow.Action

/-! ## Hexadecimal text -/

namespace Hex

theorem digitValue?_digitChar {d : Nat} (h : d < 16) : digitValue? d.digitChar = some d := by
  have hall : ∀ d : Fin 16, digitValue? d.val.digitChar = some d.val := by decide
  exact hall ⟨d, h⟩

theorem foldDigits?_append (value : Nat) (xs ys : List Char) :
    foldDigits? value (xs ++ ys) = (foldDigits? value xs).bind fun v => foldDigits? v ys := by
  induction xs generalizing value with
  | nil => rfl
  | cons c xs ih =>
      rw [List.cons_append, foldDigits?, foldDigits?]
      cases digitValue? c with
      | none => rfl
      | some d => exact ih _

theorem foldDigits?_digits (n : Nat) : foldDigits? 0 (digits n) = some n := by
  unfold digits
  -- On the number, which loses its last digit.
  induction n using Nat.strongRecOn with
  | ind n ih =>
      by_cases hn : n < 16
      · rw [Nat.toDigits_of_lt_base hn, foldDigits?, digitValue?_digitChar hn]
        have hvalue : 16 * 0 + n = n := by omega
        exact congrArg some hvalue
      · have hless : n / 16 < n := by omega
        have hmod : n % 16 < 16 := by omega
        have hvalue : 16 * (n / 16) + n % 16 = n := by omega
        rw [Nat.toDigits_of_base_le (by decide) (by omega), foldDigits?_append, ih _ hless,
          Option.bind_some, foldDigits?, digitValue?_digitChar hmod]
        exact congrArg some hvalue

theorem foldDigits?_padded (width n : Nat) : foldDigits? 0 (padded width n) = some n := by
  have hzeros : ∀ k, foldDigits? 0 (List.replicate k '0') = some 0 := by
    intro k
    induction k with
    | zero => rfl
    | succ k ih => exact ih
  rw [padded, foldDigits?_append, hzeros, Option.bind_some, foldDigits?_digits]

theorem mem_digits {n : Nat} {c : Char} (h : c ∈ digits n) : ∃ d < 16, c = d.digitChar := by
  unfold digits at h
  induction n using Nat.strongRecOn with
  | ind n ih =>
      by_cases hn : n < 16
      · rw [Nat.toDigits_of_lt_base hn] at h
        exact ⟨n, hn, List.mem_singleton.mp h⟩
      · have hmod : n % 16 < 16 := by omega
        rw [Nat.toDigits_of_base_le (by decide) (by omega), List.mem_append] at h
        rcases h with h | h
        · exact ih (n / 16) (by omega) h
        · exact ⟨n % 16, hmod, List.mem_singleton.mp h⟩

theorem mem_padded {width n : Nat} {c : Char} (h : c ∈ padded width n) :
    ∃ d < 16, c = d.digitChar := by
  rcases List.mem_append.mp h with h | h
  · exact ⟨0, by decide, List.eq_of_mem_replicate h⟩
  · exact mem_digits h

theorem padded_ne_nil (width n : Nat) : padded width n ≠ [] := by
  have hlength : 0 < (digits n).length := Nat.length_toDigits_pos
  intro h
  have hempty := (List.append_eq_nil_iff.mp h).2
  rw [hempty] at hlength
  contradiction

/-- A number is read from its digits, however many zeros stand in front of them. -/
theorem word?_padded (width : Nat) (a : UInt64) : word? (padded width a.toNat) = some a := by
  have hnonempty := padded_ne_nil width a.toNat
  have hfold := foldDigits?_padded width a.toNat
  have hchars : ∀ c ∈ padded width a.toNat, c ≠ '+' := by
    intro c hc
    obtain ⟨d, hd, rfl⟩ := mem_padded hc
    have hall : ∀ d : Fin 16, d.val.digitChar ≠ '+' := by decide
    exact hall ⟨d, hd⟩
  unfold word?
  cases hcs : padded width a.toNat with
  | nil => exact absurd hcs hnonempty
  | cons c cs =>
      rw [hcs] at hfold hchars
      have hplus : c ≠ '+' := hchars c List.mem_cons_self
      have hlt : a.toNat < UInt64.size := a.toNat_lt
      -- There is no sign in front, so all of it is digits.
      split
      · rename_i hhead
        exact absurd (List.head_eq_of_cons_eq hhead) hplus
      · dsimp only
        rw [List.isEmpty_cons, if_neg Bool.false_ne_true, hfold]
        dsimp only
        rw [if_pos hlt, UInt64.ofNat_toNat]

end Hex

namespace Dump

/-! ## Words -/

theorem ascii_digits {cs : List Char} (h : ∀ c ∈ cs, ∃ d < 16, c = d.digitChar) :
    (ascii cs).map (fun b => Char.ofNat b.toNat) = cs := by
  have hall : ∀ d : Fin 16, Char.ofNat (d.val.digitChar.toNat.toUInt8).toNat = d.val.digitChar := by
    decide
  rw [ascii, List.map_map]
  conv_rhs => rw [← List.map_id cs]
  refine List.map_congr_left fun c hc => ?_
  obtain ⟨d, hd, rfl⟩ := h c hc
  exact hall ⟨d, hd⟩

theorem space_notMem_addressText (a : Address) : space ∉ addressText a := by
  have hall : ∀ d : Fin 16, d.val.digitChar.toNat.toUInt8 ≠ space := by decide
  intro h
  obtain ⟨c, hc, hspace⟩ := List.mem_map.mp h
  obtain ⟨d, hd, rfl⟩ := Hex.mem_padded hc
  exact hall ⟨d, hd⟩ hspace

theorem word?_addressText (a : Address) :
    Hex.word? ((addressText a).map fun b => Char.ofNat b.toNat) = some a := by
  rw [addressText, ascii_digits fun _ hc => Hex.mem_padded hc, Hex.word?_padded]

/-! ## The text of a record -/

/-- A named address: the name, digits and a space behind each. -/
structure FieldText (name : List UInt8) where
  digits : List UInt8
  value : Address
  spaceless : space ∉ digits
  digits_value : Hex.word? (digits.map fun b => Char.ofNat b.toNat) = some value

namespace FieldText

variable {name : List UInt8}

def bytes (t : FieldText name) : List UInt8 :=
  name ++ [space] ++ (t.digits ++ [space])

/-- The text that is written for an address. -/
def ofAddress (name : List UInt8) (a : Address) : FieldText name :=
  ⟨addressText a, a, space_notMem_addressText a, word?_addressText a⟩

end FieldText

/-- A slice of the input that holds a record with `size` tags. -/
structure Slice (size : Nat) where
  app : FieldText appField
  shadow : FieldText shadowField
  tags : List Tag
  tags_length : tags.length = size

namespace Slice

variable {size : Nat}

def bytes (s : Slice size) : List UInt8 :=
  s.app.bytes ++ (s.shadow.bytes ++ (s.tags ++ [lineEnd]))

/-- The record that the slice holds. -/
def region (s : Slice size) : Region :=
  ⟨s.app.value, s.shadow.value, s.tags⟩

/-- The slice that is written for a region. -/
def ofRegion (region : Region) (h : region.tags.length = size) : Slice size :=
  ⟨.ofAddress appField region.appBase, .ofAddress shadowField region.shadowBase, region.tags, h⟩

theorem bytes_ofRegion {region : Region} (h : region.tags.length = size) :
    (ofRegion region h).bytes = Dump.record region := by
  simp [bytes, FieldText.bytes, ofRegion, FieldText.ofAddress, Dump.record, recordHead]

/-- A slice as it is read, with nothing behind the tags. -/
theorem bytes_eq_items (s : Slice size) :
    s.bytes = s.app.bytes ++ (s.shadow.bytes ++ ((s.tags ++ [lineEnd]) ++ [])) := by
  rw [List.append_nil, bytes]

theorem length_bytes_pos (s : Slice size) : 0 < s.bytes.length := by
  rw [bytes, List.length_append, List.length_append, List.length_append, List.length_singleton]
  omega

end Slice

/-! ## Reading one item -/

namespace Reader

theorem splitAfter_append {stop : UInt8} {xs : List UInt8} (h : stop ∉ xs) (ys : List UInt8) :
    splitAfter stop (xs ++ stop :: ys) = (xs ++ [stop], ys) := by
  induction xs with
  | nil => simp [splitAfter]
  | cons x xs ih =>
      have hx : x ≠ stop := fun hx => h (hx ▸ List.mem_cons_self)
      have hxs : stop ∉ xs := fun hstop => h (List.mem_cons_of_mem x hstop)
      rw [List.cons_append, splitAfter, if_neg hx, ih hxs]
      rfl

def after (r : Reader) (bytes rest : List UInt8) : Reader :=
  { r with rest := rest, offset := r.offset + bytes.length }

variable {size : Nat} {α β : Type}

/-- Every reader of regions with `size` tags that is in front of `bytes` reads them and
returns `x`. -/
def Reads (size : Nat) (act : Action Reader ReadError α) (bytes : List UInt8) (x : α) : Prop :=
  ∀ r rest, r.regionSize.tags = size → r.rest = bytes ++ rest → act r = .ok x (r.after bytes rest)

theorem reads_bind {act : Action Reader ReadError α} {next : α → Action Reader ReadError β}
    {xs ys : List UInt8} {x : α} {y : β} (hact : Reads size act xs x)
    (hnext : Reads size (next x) ys y) : Reads size (act >>= next) (xs ++ ys) y := by
  intro r rest hsize hrest
  rw [List.append_assoc] at hrest
  rw [bind_ok (hact r (ys ++ rest) hsize hrest), hnext (r.after xs (ys ++ rest)) rest hsize rfl]
  unfold after
  rw [List.length_append, Nat.add_assoc]

theorem reads_pure (x : α) : Reads size (pure x) [] x := by
  intro r rest _ hrest
  rw [List.nil_append] at hrest
  subst hrest
  rfl

theorem reads_token {word : List UInt8} (h : space ∉ word) :
    Reads size token (word ++ [space]) word := by
  intro r rest _ hrest
  have hsplit : splitAfter space r.rest = (word ++ [space], rest) := by
    rw [hrest, List.append_assoc]
    exact splitAfter_append h rest
  unfold token
  rw [hsplit]
  dsimp only
  rw [List.getLast?_concat, if_pos rfl, List.dropLast_concat]
  rfl

theorem reads_field {name : List UInt8} (h : space ∉ name) (t : FieldText name) :
    Reads size (field name) t.bytes t.value := by
  unfold field
  refine reads_bind (reads_token h) ?_
  -- The name is the expected one, and the digits are those of the address.
  have hname : (name != name) = false := bne_self_eq_false name
  rw [hname]
  rw [← List.append_nil (t.digits ++ [space])]
  refine reads_bind (reads_token t.spaceless) ?_
  rw [t.digits_value]
  exact reads_pure t.value

theorem reads_body {tags : List Tag} (h : tags.length = size) :
    Reads size body (tags ++ [lineEnd]) tags := by
  intro r rest hsize hrest
  have hlength : (tags ++ [lineEnd]).length = r.regionSize.tags + 1 := by
    rw [List.length_append, List.length_singleton, h, hsize]
  have htake : r.rest.take (r.regionSize.tags + 1) = tags ++ [lineEnd] := by
    rw [hrest, ← hlength, List.take_left]
  have hdrop : r.rest.drop (r.regionSize.tags + 1) = rest := by
    rw [hrest, ← hlength, List.drop_left]
  unfold body
  dsimp only
  rw [htake, hdrop, hlength, if_neg (Nat.lt_irrefl _), List.getLast?_concat, if_pos rfl,
    List.dropLast_concat, ← hlength]
  rfl

/-- Every slice is read, whatever stands behind it. -/
theorem reads_slice (s : Slice size) : Reads size record s.bytes s.region := by
  rw [s.bytes_eq_items]
  unfold record
  refine reads_bind (reads_field (by decide) s.app) ?_
  refine reads_bind (reads_field (by decide) s.shadow) ?_
  exact reads_bind (reads_body s.tags_length) (reads_pure s.region)

/-! ## Reading all of a dump -/

theorem next_slice {r : Reader} (s : Slice size) {rest : List UInt8}
    (hsize : r.regionSize.tags = size) (hfinished : r.finished = false)
    (hrest : r.rest = s.bytes ++ rest) :
    r.next = (some (.ok s.region), r.after s.bytes rest) := by
  have hnonempty : r.rest.isEmpty = false := by
    have hpos := s.length_bytes_pos
    rw [List.isEmpty_eq_false_iff, ← List.length_pos_iff, hrest, List.length_append]
    omega
  unfold next
  rw [hfinished, hnonempty, reads_slice s r rest hsize hrest]
  rfl

theorem next_record {region : Region} {r : Reader} {rest : List UInt8}
    (h : region.tags.length = r.regionSize.tags) (hfinished : r.finished = false)
    (hrest : r.rest = Dump.record region ++ rest) :
    r.next = (some (.ok region), r.after (Dump.record region) rest) := by
  rw [← Slice.bytes_ofRegion h] at hrest ⊢
  exact next_slice (.ofRegion region h) rfl hfinished hrest

theorem next_finished {r : Reader} (h : r.finished = true) : r.next = (none, r) := by
  rw [next, if_pos h]

/-- Asked again and again, the reader returns these items and then nothing more. -/
def Yields (r : Reader) (found : List (Except ReadError Region)) : Prop :=
  ∀ limit, (r.upTo limit).1 = found.take limit ∧
    (found.length < limit → (r.upTo limit).2.finished = true)

theorem yields_nil {r q : Reader} (h : r.next = (none, q)) (hq : q.finished = true) :
    r.Yields [] := by
  intro limit
  cases limit with
  | zero => exact ⟨rfl, fun hlt => absurd hlt (Nat.not_lt_zero _)⟩
  | succ limit =>
      rw [upTo, h]
      exact ⟨rfl, fun _ => hq⟩

theorem yields_cons {r q : Reader} {item : Except ReadError Region}
    {found : List (Except ReadError Region)} (h : r.next = (some item, q)) (hq : q.Yields found) :
    r.Yields (item :: found) := by
  intro limit
  cases limit with
  | zero => exact ⟨rfl, fun hlt => absurd hlt (Nat.not_lt_zero _)⟩
  | succ limit =>
      obtain ⟨hitems, hend⟩ := hq limit
      rw [upTo, h]
      dsimp only
      rw [hitems]
      exact ⟨rfl, fun hlt => hend (Nat.lt_of_succ_lt_succ hlt)⟩

theorem yields_done {r : Reader} (hfinished : r.finished = false) (hrest : r.rest = []) :
    r.Yields [] := by
  have hnext : r.next = (none, { r with finished := true }) := by
    unfold next
    rw [hfinished, hrest]
    rfl
  exact yields_nil hnext rfl

/-- Whole records are returned in order, and then what comes of the bytes behind them. -/
theorem yields_append {regions : List Region} {tail : List UInt8}
    (h : ∀ region ∈ regions, region.tags.length = size)
    {r : Reader} (hsize : r.regionSize.tags = size) (hfinished : r.finished = false)
    (hrest : r.rest = regions.flatMap Dump.record ++ tail) :
    ∃ q : Reader, q.regionSize.tags = size ∧ q.finished = false ∧ q.rest = tail ∧
      ∀ found, q.Yields found → r.Yields (regions.map .ok ++ found) := by
  induction regions generalizing r with
  | nil => exact ⟨r, hsize, hfinished, hrest, fun _ hq => hq⟩
  | cons region regions ih =>
      rw [List.flatMap_cons, List.append_assoc] at hrest
      have hregion : region.tags.length = r.regionSize.tags := by
        rw [hsize]
        exact h region List.mem_cons_self
      have hnext := next_record hregion hfinished hrest
      obtain ⟨q, hqsize, hqfinished, hqrest, hq⟩ :=
        ih (r := r.after (Dump.record region) (regions.flatMap Dump.record ++ tail))
          (fun p hp => h p (List.mem_cons_of_mem region hp)) hsize hfinished rfl
      exact ⟨q, hqsize, hqfinished, hqrest, fun found hfound => yields_cons hnext (hq found hfound)⟩

theorem Yields.items {r : Reader} {found : List (Except ReadError Region)} (h : r.Yields found)
    (hroom : found.length ≤ r.rest.length) : r.items.1 = found ∧ r.items.2.next.1 = none := by
  obtain ⟨hitems, hend⟩ := h (r.rest.length + 1)
  constructor
  · rw [Reader.items, hitems]
    exact List.take_of_length_le (Nat.le_succ_of_le hroom)
  · rw [Reader.items, next_finished (hend (Nat.lt_succ_of_le hroom))]

/-- There are no more texts than bytes if none of them is empty. -/
theorem length_le_flatMap {text : α → List UInt8} (h : ∀ x, 0 < (text x).length) (xs : List α) :
    xs.length ≤ (xs.flatMap text).length := by
  induction xs with
  | nil => exact Nat.le_refl 0
  | cons x xs ih =>
      have hpos := h x
      rw [List.length_cons, List.flatMap_cons, List.length_append]
      omega

theorem length_record_pos (region : Region) : 0 < (Dump.record region).length := by
  rw [Dump.record, List.length_append, List.length_singleton]
  omega

/-- Behind the header of a dump, a reader is in front of the first record. -/
theorem start_header (bytes : List UInt8) (size : RegionSize) :
    start (header ++ bytes) size = .ok ⟨bytes, header.length, size, false⟩ := by
  have hsplit : splitAfter lineEnd (header ++ bytes) = (header, bytes) := by
    have hheader : header = ascii "TAINT DUMP".toList ++ [lineEnd] := by decide
    rw [hheader, List.append_assoc]
    exact splitAfter_append (by decide) _
  unfold start
  rw [hsplit]
  exact if_pos rfl

/-- A dump of regions of one size is read back as these regions, whatever their tags are. -/
theorem items_encode {regions : List Region} {size : RegionSize}
    (h : ∀ region ∈ regions, region.tags.length = size.tags) :
    ∃ r, start (encode regions) size = .ok r ∧
      r.items.1 = regions.map .ok ∧ r.items.2.next.1 = none ∧
      ∀ limit, (r.upTo limit).1 = (regions.map .ok).take limit := by
  refine ⟨_, start_header _ size, ?_⟩
  obtain ⟨q, -, hfinished, hrest, hq⟩ :=
    yields_append (r := ⟨regions.flatMap Dump.record, header.length, size, false⟩) h rfl rfl
      (List.append_nil _).symm
  have hyields := hq [] (yields_done hfinished hrest)
  rw [List.append_nil] at hyields
  have hroom : (regions.map (Except.ok (ε := ReadError))).length ≤
      (regions.flatMap Dump.record).length := by
    rw [List.length_map]
    exact length_le_flatMap length_record_pos regions
  obtain ⟨hitems, hend⟩ := hyields.items hroom
  exact ⟨hitems, hend, fun limit => (hyields limit).1⟩

end Reader

/-! ## Writing -/

namespace Sink

/-- The sink once it has been handed some bytes. -/
def handed (s : Sink) (bytes : List UInt8) : Sink :=
  { s with taken := s.taken ++ bytes.take (s.fitting bytes.length) }

theorem fitting_le (s : Sink) (n : Nat) : s.fitting n ≤ n := by
  unfold fitting
  split <;> omega

theorem handed_eq {s : Sink} {bytes : List UInt8} (h : ¬ s.fitting bytes.length < bytes.length) :
    s.handed bytes = { s with taken := s.taken ++ bytes } := by
  have hall : s.fitting bytes.length = bytes.length := by
    have := s.fitting_le bytes.length
    omega
  rw [handed, hall, List.take_length]

/-- What fits of more bytes fits behind the first of them. -/
theorem fitting_add {s : Sink} {xs : List UInt8} (h : ¬ s.fitting xs.length < xs.length) (n : Nat) :
    s.fitting (xs.length + n) = xs.length + (s.handed xs).fitting n := by
  rw [handed_eq h]
  unfold fitting at h ⊢
  cases hc : s.capacity with
  | none => rfl
  | some c =>
      simp only [hc, List.length_append] at h ⊢
      omega

theorem fitting_add_of_lt {s : Sink} {m : Nat} (h : s.fitting m < m) (n : Nat) :
    s.fitting (m + n) = s.fitting m := by
  unfold fitting at h ⊢
  cases hc : s.capacity with
  | none =>
      simp only [hc] at h
      omega
  | some c =>
      simp only [hc] at h ⊢
      omega

theorem handed_append {s : Sink} {xs : List UInt8} (h : ¬ s.fitting xs.length < xs.length)
    (ys : List UInt8) : s.handed (xs ++ ys) = (s.handed xs).handed ys := by
  have hfitting := fitting_add h ys.length
  rw [handed_eq h] at hfitting ⊢
  simp only [handed, List.length_append, hfitting, List.take_length_add_append, List.append_assoc]

theorem handed_append_of_lt {s : Sink} {xs : List UInt8} (h : s.fitting xs.length < xs.length)
    (ys : List UInt8) : s.handed (xs ++ ys) = s.handed xs := by
  unfold handed
  rw [List.length_append, fitting_add_of_lt h, List.take_append_of_le_length (Nat.le_of_lt h)]

end Sink

/-- Every sink is handed the bytes by the action, which fails if they do not fit. -/
def Writes (act : Action Sink SinkError Unit) (bytes : List UInt8) : Prop :=
  ∀ s, act s =
    if s.fitting bytes.length < bytes.length then .error .failed (s.handed bytes)
    else .ok () (s.handed bytes)

theorem writes_put (bytes : List UInt8) : Writes (Sink.put bytes) bytes := fun _ => rfl

theorem writes_bind {act next : Action Sink SinkError Unit} {xs ys : List UInt8}
    (hact : Writes act xs) (hnext : Writes next ys) :
    Writes (act >>= fun _ => next) (xs ++ ys) := by
  intro s
  rw [List.length_append]
  by_cases h : s.fitting xs.length < xs.length
  · rw [bind_error ((hact s).trans (if_pos h)), s.fitting_add_of_lt h, if_pos (by omega),
      Sink.handed_append_of_lt h]
  · have hroom : (s.handed xs).fitting ys.length < ys.length ↔
        s.fitting (xs.length + ys.length) < xs.length + ys.length := by
      rw [Sink.fitting_add h]
      omega
    rw [bind_ok ((hact s).trans (if_neg h)), hnext, Sink.handed_append h]
    simp only [hroom]

theorem writes_record (r : Region) : Writes (writeRecord r) (record r) := by
  have hbytes : record r = recordHead r ++ (r.tags ++ [lineEnd]) := by simp [record]
  rw [hbytes]
  exact writes_bind (writes_put _) (writes_bind (writes_put _) (writes_put _))

theorem writes_records (regions : List Region) :
    Writes (regions.forM writeRecord) (regions.flatMap record) := by
  induction regions with
  | nil =>
      intro s
      have hnone : ¬ s.fitting ([] : List UInt8).length < ([] : List UInt8).length :=
        Nat.not_lt_zero _
      show EStateM.Result.ok () s = _
      rw [List.flatMap_nil, if_neg hnone, Sink.handed_eq hnone, List.append_nil]
  | cons r regions ih =>
      rw [List.flatMap_cons]
      exact writes_bind (writes_record r) ih

/-- A visitor that is shown regions writes their records as a loop does that ends with the first
failure, and counts them. -/
theorem visitEach_writeVisited (regions : List Region) (s : Sink) (n : Nat) :
    match regions.forM writeRecord s with
    | .ok () s' => Region.visitEach writeVisited ⟨s, .ok (), n⟩ regions =
        ⟨s', .ok (), n + regions.length⟩
    | .error e s' => ∃ m, Region.visitEach writeVisited ⟨s, .ok (), n⟩ regions =
        ⟨s', .error e, m⟩ := by
  -- On the regions: the visitor is asked for the next one only if the first one was written.
  induction regions generalizing s n with
  | nil => rfl
  | cons r regions ih =>
      have hloop : (r :: regions).forM writeRecord =
          writeRecord r >>= fun _ => regions.forM writeRecord := rfl
      rw [hloop, Region.visitEach, writeVisited, outcome]
      cases hrecord : writeRecord r s with
      | ok _ s' =>
          rw [bind_ok hrecord, List.length_cons, Nat.add_comm regions.length, ← Nat.add_assoc]
          exact ih s' (n + 1)
      | error e s' =>
          rw [bind_error hrecord]
          exact ⟨n + 1, rfl⟩

/-- A dump is its header, its records and a flush, one after the other. -/
theorem write_visitEach (regions : List Region) :
    write (fun visitor p => Region.visitEach visitor p regions) =
      (Sink.put header >>= fun _ => regions.forM writeRecord) >>= fun _ =>
        Sink.flush >>= fun _ => pure regions.length := by
  funext s
  rw [write, bind_assoc]
  cases hheader : Sink.put header s with
  | error e s' =>
      -- Without a header no region is visited.
      rw [bind_error hheader, bind_error hheader]
  | ok _ s' =>
      have hvisited := visitEach_writeVisited regions s' 0
      rw [bind_ok hheader, bind_ok hheader, get_bind]
      cases hrecords : regions.forM writeRecord s' with
      | ok _ s'' =>
          rw [hrecords, Nat.zero_add] at hvisited
          rw [bind_ok hrecords, hvisited]
          rfl
      | error e s'' =>
          rw [hrecords] at hvisited
          obtain ⟨m, hvisited⟩ := hvisited
          rw [bind_error hrecords, hvisited]
          rfl

/-- A sink takes what fits of the dump, which succeeds if all of it fits and is flushed. -/
theorem write_eq (regions : List Region) (s : Sink) :
    write (fun visitor p => Region.visitEach visitor p regions) s =
      if s.fitting (encode regions).length < (encode regions).length ∨ s.failsFlush = true then
        .error .failed (s.handed (encode regions))
      else .ok regions.length (s.handed (encode regions)) := by
  have hdump : (Sink.put header >>= fun _ => regions.forM writeRecord) s = _ :=
    writes_bind (writes_put header) (writes_records regions) s
  have hflush : Sink.flush (s.handed (encode regions)) =
      if s.failsFlush then .error .failed (s.handed (encode regions))
      else .ok () (s.handed (encode regions)) := rfl
  rw [write_visitEach]
  by_cases hfits : s.fitting (encode regions).length < (encode regions).length
  · rw [bind_error (hdump.trans (if_pos hfits)), if_pos (Or.inl hfits)]
    rfl
  · rw [bind_ok (hdump.trans (if_neg hfits))]
    by_cases hfails : s.failsFlush = true
    · rw [if_pos (Or.inr hfails)]
      exact bind_error (hflush.trans (if_pos hfails))
    · rw [if_neg (not_or.mpr ⟨hfits, hfails⟩)]
      exact bind_ok (hflush.trans (if_neg hfails))

/-- A sink without limits takes the whole dump. -/
theorem write_unlimited (regions : List Region) :
    write (fun visitor p => Region.visitEach visitor p regions) .unlimited =
      .ok regions.length { Sink.unlimited with taken := encode regions } := by
  rw [write_eq, if_neg]
  · simp [Sink.handed, Sink.fitting, Sink.unlimited]
  · simp [Sink.fitting, Sink.unlimited]

end Dump

end TaintFlow
