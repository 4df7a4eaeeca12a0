import DeviceLog.Proofs.Container.Exact
import DeviceLog.Proofs.Device.Record
import DeviceLog.Proofs.Log.Content

/-! # The ways to read the records of a log

A log is read as values, as device records, or only counted. Device records are asked for twice: the
fields of the log must be theirs, and the values of each record must form one. `Contents.records_agree`:
the second question is never answered with no, since what is read of a log has the types of its fields
(`Datum.types_of_readFields`), and so the three ways differ in nothing but the fields.
-/

namespace DeviceLog

/-- What is read with the fields of device records is one. -/
theorem DeviceRecord.exists_of_read {schema : Schema} {bytes rest : Bytes} {datum : Datum}
    (hfields : schema.fields = DeviceRecord.schema.fields)
    (hread : Datum.read schema bytes = (.ok datum, rest)) :
    ∃ r, ofDatum? datum = some r ∧ r.toDatum = datum := by
  have hfits : DeviceRecord.schema.fault datum = none := by
    apply Schema.fault_eq_none_iff.2
    rw [← hfields]
    exact Datum.types_of_readFields hread
  obtain ⟨r, rfl⟩ := exists_of_fault hfits
  exact ⟨r, ofDatum?_toDatum r, rfl⟩

/-- What has been read can be written, and is read from what is written. -/
theorem Datum.exists_encode_of_read {schema : Schema} {bytes rest : Bytes} {datum : Datum}
    (hread : Datum.read schema bytes = (.ok datum, rest)) :
    ∃ own, Datum.encode schema datum = .ok own
      ∧ ∀ more, Datum.read schema (own ++ more) = (.ok datum, more) :=
  ⟨datum.bytes, Datum.encode_eq_ok (Datum.fault_of_read hread), (Datum.reads_of_read hread).whole⟩

namespace Contents

variable {c : Contents}

theorem mapM_deviceRecord (rs : List DeviceRecord) :
    (rs.map DeviceRecord.toDatum).mapM deviceRecord = .ok rs := by
  induction rs with
  | nil => rfl
  | cons r rs ih =>
    rw [List.map_cons, List.mapM_cons, ih]
    rfl

/-- Reading checks the fields against those of a device record, and then reads the records of all blocks. -/
theorem records_of_fields (hfields : c.header.schema.fields = DeviceRecord.schema.fields) :
    c.records = c.values >>= fun datums => datums.mapM deviceRecord := by
  simp only [records, Schema.difference_eq_none_iff.2 hfields.symm]

/-- Other fields are noticed before the body is read. -/
theorem exists_records_of_ne (hfields : c.header.schema.fields ≠ DeviceRecord.schema.fields) :
    ∃ d, c.records = .error (.mismatch (.wanted c.path d)) := by
  cases hdifference : DeviceRecord.schema.difference c.header.schema with
  | none => exact absurd (Schema.difference_eq_none_iff.1 hdifference).symm hfields
  | some d => exact ⟨d, by simp only [records, hdifference]⟩

/-- Values fail only for what their bytes are. -/
theorem exists_corrupt_of_values {e : LogError} (h : c.values = .error e) : ∃ cause, e = .corrupt cause := by
  simp only [values] at h
  split at h
  · cases h
  · cases h
    exact ⟨_, rfl⟩

theorem exists_read_of_values {datums : List Datum} (h : c.values = .ok datums) :
    ∀ d ∈ datums, ∃ own left, Datum.read c.header.schema own = (.ok d, left) :=
  Header.exists_read_of_datums (values_eq_ok_iff.1 h)

/-- The values of a log of device records are those of its records. -/
theorem exists_records_of_values {datums : List Datum}
    (hfields : c.header.schema.fields = DeviceRecord.schema.fields) (h : c.values = .ok datums) :
    ∃ rs, c.records = .ok rs ∧ rs.map DeviceRecord.toDatum = datums := by
  have hfits : ∀ d ∈ datums, DeviceRecord.schema.fault d = none := by
    intro d hd
    obtain ⟨own, left, hread⟩ := exists_read_of_values h d hd
    obtain ⟨r, -, rfl⟩ := DeviceRecord.exists_of_read hfields hread
    exact r.fault_toDatum
  obtain ⟨rs, rfl⟩ := DeviceRecord.exists_records hfits
  refine ⟨rs, ?_, rfl⟩
  rw [records_of_fields hfields, h]
  exact mapM_deviceRecord rs

/-- With the fields of device records, records fail as values do. -/
theorem records_eq_error_iff (hfields : c.header.schema.fields = DeviceRecord.schema.fields) (e : LogError) :
    c.records = .error e ↔ c.values = .error e := by
  cases hvalues : c.values with
  | error e' =>
    rw [records_of_fields hfields, hvalues]
    show (Except.error e' : Except LogError (List DeviceRecord)) = .error e ↔ _
    rw [Except.error.injEq, Except.error.injEq]
  | ok datums =>
    obtain ⟨rs, hrecords, -⟩ := exists_records_of_values hfields hvalues
    rw [hrecords]
    exact ⟨nofun, nofun⟩

/-- A mismatch is one of fields. -/
theorem mismatch_iff : (∃ m, c.records = .error (.mismatch m))
    ↔ c.header.schema.fields ≠ DeviceRecord.schema.fields := by
  constructor
  · rintro ⟨m, hm⟩ hfields
    obtain ⟨cause, hcause⟩ := exists_corrupt_of_values ((records_eq_error_iff hfields _).1 hm)
    cases hcause
  · intro hfields
    obtain ⟨d, hd⟩ := exists_records_of_ne hfields
    exact ⟨_, hd⟩

/-- The three ways to read a log agree: records are refused exactly where the fields are not theirs, and
otherwise they are the values, of which there are as many as are counted. No record that has been read is
none of its schema: it forms a device record if the schema is theirs, and it can be written and read
again. -/
theorem records_agree (c : Contents) :
    ((∃ m, c.records = .error (.mismatch m)) ↔ c.header.schema.fields ≠ DeviceRecord.schema.fields)
    ∧ (c.header.schema.fields = DeviceRecord.schema.fields →
        (∀ e, c.records = .error e ↔ c.values = .error e)
        ∧ ∀ ds, c.values = .ok ds → ∃ rs, c.records = .ok rs ∧ rs.map DeviceRecord.toDatum = ds)
    ∧ c.count = c.values.map List.length
    ∧ (∀ ds, c.values = .ok ds →
        ∀ d ∈ ds, ∃ own left, Datum.read c.header.schema own = (.ok d, left))
    ∧ ∀ bytes d rest, Datum.read c.header.schema bytes = (.ok d, rest) →
        (c.header.schema.fields = DeviceRecord.schema.fields →
          ∃ r, DeviceRecord.ofDatum? d = some r ∧ r.toDatum = d)
        ∧ ∃ own, Datum.encode c.header.schema d = .ok own
          ∧ ∀ more, Datum.read c.header.schema (own ++ more) = (.ok d, more) := by
  refine ⟨mismatch_iff, fun hfields => ⟨records_eq_error_iff hfields, fun ds => ?_⟩, ?_,
    fun ds => exists_read_of_values, fun bytes d rest hread => ⟨fun hfields => ?_, ?_⟩⟩
  · exact exists_records_of_values hfields
  · simp only [count]
    cases c.values <;> rfl
  · exact DeviceRecord.exists_of_read hfields hread
  · exact Datum.exists_encode_of_read hread

end Contents

end DeviceLog
