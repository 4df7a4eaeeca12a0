import DeviceLog.Proofs.Wire.Reads
import Mathlib.Data.List.Forall2

/-! # Records are written whole or not at all

A record that fits its schema is put behind what is there already, and is read from there whatever
follows it. Of one that does not fit nothing is written.

* `Schema.fault_eq_none_iff_forall₂`: a record fits if it has a value for every field, of its type.
* `Datum.append_of_fits` and `Datum.append_of_fault` are the two outcomes of writing.
* `Datum.append_round_trip` puts them together with what is read.
-/

namespace DeviceLog

/-- Whether a field has the type of a value. -/
def Field.Takes (field : Field) (value : FieldValue) : Prop := field.type = value.type

theorem Schema.fault_eq_none_iff_forall₂ {schema : Schema} {datum : Datum} :
    schema.fault datum = none ↔ List.Forall₂ Field.Takes schema.fields datum := by
  rw [fault_eq_none_iff, eq_comm, ← List.forall₂_eq_eq_eq, List.forall₂_map_left_iff,
    List.forall₂_map_right_iff]
  exact Iff.rfl

namespace Datum

variable {schema : Schema} {datum : Datum}

theorem append_of_fits (h : schema.fault datum = none) (buffer : Bytes) :
    append schema datum buffer = (.ok (), buffer ++ datum.bytes) := by
  simp only [append, encode_eq_ok h]

theorem append_of_fault {fault : Schema.Fault} (h : schema.fault datum = some fault) (buffer : Bytes) :
    append schema datum buffer = (.error fault, buffer) := by
  simp only [append, encode, h]

/-- Whether a record is written does not depend on what it is put behind. -/
theorem append_eq_ok_iff (buffer : Bytes) :
    (append schema datum buffer).1 = .ok () ↔ schema.fault datum = none := by
  cases h : schema.fault datum with
  | none => simp [append_of_fits h]
  | some fault => simp [append_of_fault h]

/-- A record is written if and only if it has one value for each field of the schema, with the type of
that field. Any other leaves the buffer as it was. The bytes that are written are the same behind
whatever is there, and from them the schema reads these values and leaves whatever follows. -/
theorem append_round_trip (schema : Schema) (datum : Datum) :
    (∀ buffer, (append schema datum buffer).1 = .ok () ↔ List.Forall₂ Field.Takes schema.fields datum)
      ∧ (¬List.Forall₂ Field.Takes schema.fields datum →
          ∃ fault, ∀ buffer, append schema datum buffer = (.error fault, buffer))
      ∧ (List.Forall₂ Field.Takes schema.fields datum →
          ∃ bytes, (∀ buffer, append schema datum buffer = (.ok (), buffer ++ bytes))
            ∧ ((∀ value ∈ datum, value.Fits) → ∀ rest, read schema (bytes ++ rest) = (.ok datum, rest))) := by
  refine ⟨fun buffer => ?_, fun htypes => ?_, fun htypes => ?_⟩
  · rw [append_eq_ok_iff, Schema.fault_eq_none_iff_forall₂]
  · cases h : schema.fault datum with
    | none => exact absurd (Schema.fault_eq_none_iff_forall₂.1 h) htypes
    | some fault => exact ⟨fault, append_of_fault h⟩
  · have hfits := Schema.fault_eq_none_iff_forall₂.2 htypes
    refine ⟨datum.bytes, append_of_fits hfits, fun hlengths rest => ?_⟩
    have hreads := reads_fields (Schema.fault_eq_none_iff.1 hfits) hlengths
    exact hreads.whole rest

/-- A field of each type. -/
def sampleSchema : Schema where
  name := "Sample"
  fields := [⟨"on", .boolean⟩, ⟨"small", .int⟩, ⟨"large", .long⟩, ⟨"name", .string⟩, ⟨"raw", .bytes⟩]

/-- The least numbers, a text with letters of two and of four bytes, and no bytes at all. -/
def sampleDatum : Datum :=
  [.boolean true, .int Int32.minValue, .long Int64.minValue, .string "größe 𝄞", .bytes []]

/-- In the other order the values do not fit, though there are as many of them. -/
theorem append_round_trip_sample :
    (List.Forall₂ Field.Takes sampleSchema.fields sampleDatum ∧ (∀ value ∈ sampleDatum, value.Fits)
      ∧ ∃ bytes, (∀ buffer, append sampleSchema sampleDatum buffer = (.ok (), buffer ++ bytes))
          ∧ ∀ rest, read sampleSchema (bytes ++ rest) = (.ok sampleDatum, rest))
    ∧ ¬List.Forall₂ Field.Takes sampleSchema.fields sampleDatum.reverse
      ∧ ∃ fault, ∀ buffer, append sampleSchema sampleDatum.reverse buffer = (.error fault, buffer) := by
  have htypes : List.Forall₂ Field.Takes sampleSchema.fields sampleDatum := by
    simp [sampleSchema, sampleDatum, Field.Takes, FieldValue.type]
  have hlengths : ∀ value ∈ sampleDatum, value.Fits := by decide +kernel
  have hreverse : ¬List.Forall₂ Field.Takes sampleSchema.fields sampleDatum.reverse := by
    simp [sampleSchema, sampleDatum, Field.Takes, FieldValue.type]
  obtain ⟨bytes, happend, hread⟩ := (append_round_trip sampleSchema sampleDatum).2.2 htypes
  have hrefused := (append_round_trip sampleSchema sampleDatum.reverse).2.1 hreverse
  exact ⟨⟨htypes, hlengths, bytes, happend, hread hlengths⟩, hreverse, hrefused⟩

end Datum

end DeviceLog
