import DeviceLog.Proofs.Text.Pieces
import DeviceLog.Proofs.Wire.Reads

/-! # What is read was there

`Wire.Exact p` says of a reader that it takes no value by accident: if it takes one, then it has taken
bytes that it reads as this value whatever follows them, and of which it recognises every part that is
cut off. So bytes that have been read once are read in the same way when others are put behind them.

Readers made of exact readers are exact (`Exact.bind`, `Exact.times`), and those of numbers, lengths,
bytes and texts are.

`Wire.Settled p` says the same of what it refuses: unless the data end too early, it is refused whatever
follows. `Datum.fault_of_read`: a record that is read fits the schema that it is read with, and
`Datum.reads_of_read`: its bytes, written again, are read as this record.
-/

namespace DeviceLog

/-- Two actions after each other yield a value where both of them do. -/
theorem Action.bind_eq_ok {ε σ α β : Type} {p : Action ε σ α} {k : α → Action ε σ β} {b : β} {s t : σ}
    (h : (p >>= k) s = (.ok b, t)) : ∃ a u, p s = (.ok a, u) ∧ k a u = (.ok b, t) := by
  cases hp : p s with
  | mk r u =>
    cases r with
    | ok a =>
      rw [Action.bind_of_ok hp] at h
      exact ⟨a, u, rfl, h⟩
    | error e =>
      rw [Action.bind_of_error hp] at h
      cases h

/-- The outcome of a computation is taken as it is, and leaves the state. -/
theorem Action.ofExcept_eq_ok {ε σ α : Type} {r : Except ε α} {a : α} {s t : σ}
    (h : (Action.ofExcept r : Action ε σ α) s = (.ok a, t)) : r = .ok a ∧ s = t := by
  cases r with
  | ok b =>
    cases h
    exact ⟨rfl, rfl⟩
  | error e => cases h

/-- The values of one run more are the value of the first run and those of the others. -/
theorem Action.times_succ_eq_ok {ε σ α : Type} {p : Action ε σ α} {n : Nat} {as : List α} {s t : σ}
    (h : times p (n + 1) s = (.ok as, t)) :
    ∃ a others u, as = a :: others ∧ p s = (.ok a, u) ∧ times p n u = (.ok others, t) := by
  rw [times_succ] at h
  obtain ⟨a, u, hfirst, hmore⟩ := bind_eq_ok h
  obtain ⟨others, v, hothers, hdone⟩ := bind_eq_ok hmore
  cases hdone
  exact ⟨a, others, u, rfl, hfirst, hothers⟩

namespace Wire

variable {α β : Type}

/-- Whenever a reader takes a value, it has taken bytes that read as this value. -/
def Exact (p : Reader α) : Prop :=
  ∀ ⦃bytes rest : Bytes⦄ ⦃a : α⦄, p bytes = (.ok a, rest) → ∃ front, bytes = front ++ rest ∧ Reads p front a

/-- Bytes that a value is read from with nothing left are this value. -/
theorem Exact.reads {p : Reader α} (hp : Exact p) {bytes : Bytes} {a : α} (h : p bytes = (.ok a, [])) :
    Reads p bytes a := by
  obtain ⟨front, rfl, hreads⟩ := hp h
  rwa [List.append_nil]

theorem Exact.done (a : α) : Exact (Action.done a) := by
  intro bytes rest b h
  cases h
  exact ⟨[], rfl, .done a⟩

theorem Exact.fail (e : FormatError) : Exact (Action.fail e : Reader α) := by
  intro bytes rest b h
  cases h

theorem Exact.ofExcept (r : Except FormatError α) : Exact (Action.ofExcept r) := by
  cases r with
  | ok a => exact .done a
  | error e => exact .fail e

theorem Exact.bind {p : Reader α} {k : α → Reader β} (hp : Exact p) (hk : ∀ a, Exact (k a)) :
    Exact (p >>= k) := by
  intro bytes rest b h
  obtain ⟨a, middle, hfirst, hsecond⟩ := Action.bind_eq_ok h
  obtain ⟨front, rfl, hfront⟩ := hp hfirst
  obtain ⟨back, rfl, hback⟩ := hk a hsecond
  exact ⟨front ++ back, (List.append_assoc _ _ _).symm, hfront.bind hback⟩

theorem Exact.ite {c : Prop} [Decidable c] {p q : Reader α} (hp : Exact p) (hq : Exact q) :
    Exact (if c then p else q) := by
  split
  · exact hp
  · exact hq

theorem Exact.times {p : Reader α} (hp : Exact p) (n : Nat) : Exact (Action.times p n) := by
  induction n with
  | zero => exact .done []
  | succ n ih =>
    rw [Action.times_succ]
    exact hp.bind fun a => ih.bind fun as => .done (a :: as)

/-! ## Numbers -/

theorem exact_readGroups (budget : Nat) : Exact (Varint.readGroups budget) := by
  induction budget with
  | zero => exact .fail _
  | succ budget ih =>
    intro bytes rest n h
    cases bytes with
    | nil => cases h
    | cons b bytes =>
      simp only [Varint.readGroups] at h
      split at h
      · rename_i hb
        cases h
        exact ⟨[b], rfl, reads_lastGroup hb budget⟩
      · rename_i hb
        split at h
        · rename_i m left hmore
          cases h
          obtain ⟨more, rfl, hreads⟩ := ih hmore
          exact ⟨b :: more, rfl, hreads.group hb⟩
        · cases h

theorem exact_decode : Exact Varint.decode :=
  (exact_readGroups Varint.maxBytes).bind fun _ => .done _

/-! ## Lengths, bytes and texts -/

theorem exact_length : Exact length :=
  exact_decode.bind fun _ => .ite (.fail _) (.done _)

theorem exact_take (count : Nat) : Exact (take count) := by
  intro bytes rest taken h
  simp only [take] at h
  split at h
  · cases h
  · rename_i hcount
    cases h
    have hlength : (bytes.take count).length = count := by
      rw [List.length_take] at hcount ⊢
      omega
    have hreads := reads_take (bytes.take count)
    rw [hlength] at hreads
    exact ⟨bytes.take count, (List.take_append_drop count bytes).symm, hreads⟩

theorem exact_bytes : Exact bytes := exact_length.bind exact_take

theorem exact_string : Exact string := by
  refine exact_bytes.bind fun b => ?_
  split
  · exact .done _
  · exact .fail _

/-! ## Errors -/

/-- What a reader refuses, but for data that end too early, it refuses whatever follows. -/
def Settled (p : Reader α) : Prop :=
  ∀ ⦃bytes rest : Bytes⦄ ⦃e : FormatError⦄, p bytes = (.error e, rest) → e ≠ .endOfData →
    ∀ more, ∃ left, p (bytes ++ more) = (.error e, left)

theorem Settled.done (a : α) : Settled (Action.done a) := by
  intro bytes rest e h
  cases h

theorem Settled.fail (e : FormatError) : Settled (Action.fail e : Reader α) := by
  intro bytes rest e' h _ more
  cases h
  exact ⟨bytes ++ more, rfl⟩

theorem Settled.ofExcept (r : Except FormatError α) : Settled (Action.ofExcept r) := by
  cases r with
  | ok a => exact .done a
  | error e => exact .fail e

theorem Settled.ite {c : Prop} [Decidable c] {p q : Reader α} (hp : Settled p) (hq : Settled q) :
    Settled (if c then p else q) := by
  split
  · exact hp
  · exact hq

/-- What the first reader takes it takes again, so that the second one is at the same place. -/
theorem Settled.bind {p : Reader α} {k : α → Reader β} (hp : Settled p) (hexact : Exact p)
    (hk : ∀ a, Settled (k a)) : Settled (p >>= k) := by
  intro bytes rest e h hne more
  cases hfirst : p bytes with
  | mk r middle =>
    cases r with
    | error e' =>
      rw [Action.bind_of_error hfirst] at h
      cases h
      obtain ⟨left, hleft⟩ := hp hfirst hne more
      exact ⟨left, Action.bind_of_error hleft⟩
    | ok a =>
      rw [Action.bind_of_ok hfirst] at h
      obtain ⟨front, rfl, hreads⟩ := hexact hfirst
      obtain ⟨left, hleft⟩ := hk a h hne more
      refine ⟨left, ?_⟩
      rw [List.append_assoc, Action.bind_of_ok (hreads.whole (middle ++ more)), hleft]

theorem settled_readGroups (budget : Nat) : Settled (Varint.readGroups budget) := by
  induction budget with
  | zero => exact .fail _
  | succ budget ih =>
    intro bytes rest e h hne more
    cases bytes with
    | nil =>
      cases h
      exact absurd rfl hne
    | cons b bytes =>
      simp only [Varint.readGroups] at h
      split at h
      · cases h
      · rename_i hb
        split at h
        · cases h
        · rename_i hmore
          cases h
          obtain ⟨left, hleft⟩ := ih hmore hne more
          refine ⟨left, ?_⟩
          rw [List.cons_append, Varint.readGroups]
          simp only [if_neg hb, hleft]

theorem settled_length : Settled length :=
  ((settled_readGroups _).bind (exact_readGroups _) fun _ => .done _).bind exact_decode fun _ =>
    .ite (.fail _) (.done _)

end Wire

/-! ## Records -/

theorem FieldType.type_of_read {t : FieldType} {bytes rest : Bytes} {v : FieldValue}
    (h : t.read bytes = (.ok v, rest)) : v.type = t := by
  cases t with
  | boolean | int | long | string | bytes =>
    obtain ⟨_, _, _, hvalue⟩ := Action.bind_eq_ok h
    cases hvalue
    rfl

/-- A length that is read can be written. -/
theorem Wire.lt_of_length {bytes rest : Bytes} {n : Nat} (h : length bytes = (.ok n, rest)) : n < 2 ^ 63 := by
  obtain ⟨m, afterLength, -, hdone⟩ := Action.bind_eq_ok h
  split at hdone
  · cases hdone
  · cases hdone
    have hlt := m.toInt_lt
    omega

theorem Wire.length_lt_of_bytes {input rest b : Bytes} (h : bytes input = (.ok b, rest)) : b.length < 2 ^ 63 := by
  obtain ⟨n, afterLength, hlength, htake⟩ := Action.bind_eq_ok h
  simp only [take] at htake
  split at htake
  · cases htake
  · cases htake
    exact Nat.lt_of_le_of_lt (List.length_take_le n afterLength) (lt_of_length hlength)

theorem FieldType.fits_of_read {t : FieldType} {input rest : Bytes} {v : FieldValue}
    (h : t.read input = (.ok v, rest)) : v.Fits := by
  cases t with
  | boolean | int | long =>
    obtain ⟨_, _, _, hvalue⟩ := Action.bind_eq_ok h
    cases hvalue
    trivial
  | bytes =>
    obtain ⟨b, _, hbytes, hvalue⟩ := Action.bind_eq_ok h
    cases hvalue
    exact Wire.length_lt_of_bytes hbytes
  | string =>
    obtain ⟨s, _, hstring, hvalue⟩ := Action.bind_eq_ok h
    cases hvalue
    obtain ⟨b, _, hbytes, hdecoded⟩ := Action.bind_eq_ok hstring
    cases hdecode : Utf8.decode b with
    | error e =>
      rw [hdecode] at hdecoded
      cases hdecoded
    | ok decoded =>
      rw [hdecode] at hdecoded
      cases hdecoded
      show (Utf8.encode s).length < 2 ^ 63
      rw [Utf8.encode_of_decode hdecode]
      exact Wire.length_lt_of_bytes hbytes

namespace Datum

/-- The values of a record that is read are the value of the first field and those of the others. -/
theorem readFields_cons_eq_ok {f : Field} {fields : List Field} {bytes rest : Bytes} {datum : Datum}
    (h : readFields (f :: fields) bytes = (.ok datum, rest)) :
    ∃ v vs left, datum = v :: vs ∧ f.type.read bytes = (.ok v, left)
      ∧ readFields fields left = (.ok vs, rest) := by
  obtain ⟨v, afterValue, hvalue, hmore⟩ := Action.bind_eq_ok h
  obtain ⟨vs, afterValues, hvalues, hdone⟩ := Action.bind_eq_ok hmore
  cases hdone
  exact ⟨v, vs, afterValue, rfl, hvalue, hvalues⟩

theorem types_of_readFields : ∀ {fields : List Field} {bytes rest : Bytes} {datum : Datum},
    readFields fields bytes = (.ok datum, rest) → datum.map FieldValue.type = fields.map Field.type
  | [], _, _, _, h => by
    cases h
    rfl
  | f :: fields, bytes, rest, datum, h => by
    obtain ⟨v, vs, afterValue, rfl, hvalue, hvalues⟩ := readFields_cons_eq_ok h
    rw [List.map_cons, List.map_cons, FieldType.type_of_read hvalue, types_of_readFields hvalues]

/-- A record that is read fits its schema. -/
theorem fault_of_read {schema : Schema} {bytes rest : Bytes} {datum : Datum}
    (h : read schema bytes = (.ok datum, rest)) : schema.fault datum = none :=
  Schema.fault_eq_none_iff.2 (types_of_readFields h)

/-- The values of a record that is read have lengths that can be written. -/
theorem fits_of_readFields : ∀ {fields : List Field} {bytes rest : Bytes} {datum : Datum},
    readFields fields bytes = (.ok datum, rest) → ∀ v ∈ datum, v.Fits
  | [], _, _, _, h => by
    cases h
    exact nofun
  | f :: fields, bytes, rest, datum, h => by
    obtain ⟨v, vs, afterValue, rfl, hvalue, hvalues⟩ := readFields_cons_eq_ok h
    exact List.forall_mem_cons.2 ⟨FieldType.fits_of_read hvalue, fits_of_readFields hvalues⟩

/-- A record that has been read, whatever its numbers were spelled like, is read again from the bytes that
it is written with. -/
theorem reads_of_read {schema : Schema} {bytes rest : Bytes} {datum : Datum}
    (h : read schema bytes = (.ok datum, rest)) : Wire.Reads (read schema) datum.bytes datum :=
  reads_fields (types_of_readFields h) (fits_of_readFields h)

theorem exists_read_of_times {schema : Schema} : ∀ {count : Nat} {bytes rest : Bytes} {records : List Datum},
    Action.times (read schema) count bytes = (.ok records, rest) →
      ∀ d ∈ records, ∃ own left, read schema own = (.ok d, left)
  | 0, _, _, _, h => by
    cases h
    exact nofun
  | count + 1, bytes, rest, records, h => by
    obtain ⟨first, others, afterFirst, rfl, hfirst, hothers⟩ := Action.times_succ_eq_ok h
    exact List.forall_mem_cons.2 ⟨⟨bytes, afterFirst, hfirst⟩, exists_read_of_times hothers⟩

end Datum

end DeviceLog
