import DeviceLog.Device.Record
import DeviceLog.Proofs.Container.Header
import DeviceLog.Proofs.Text.Mended

/-! # Device records in logs

An update has a record if its version is not too large, and the record holds what is kept of its blobs
(`DeviceRecord.ofUpdate_outcome`). What is written for a record is little longer than its texts, and the header
of a log of records is short enough to be written.
-/

namespace DeviceLog.DeviceRecord

/-- An update has a record if its version is not too large. -/
theorem ofUpdate_eq_ok_iff {u : StateUpdate} {r : DeviceRecord} :
    ofUpdate u = .ok r ↔ u.version.toNat ≤ Int64.maxValue.toInt
      ∧ r = ⟨u.deviceId, Int64.ofNat u.version.toNat, u.namespaceId, Utf8.decodeLossy u.reported,
        Utf8.decodeLossy u.desired⟩ := by
  simp only [ofUpdate]
  split
  · rename_i hversion
    rw [Except.ok.injEq, eq_comm]
    exact (and_iff_right hversion).symm
  · rename_i hversion
    exact ⟨nofun, fun h => absurd h.1 hversion⟩

/-- An update is refused for its version only, and its record says what it says. Of blobs that are the bytes
of texts these texts are kept, so that those of a record give it again. -/
theorem ofUpdate_outcome (u : StateUpdate) :
    (2 ^ 63 ≤ u.version.toNat ∧ ofUpdate u = .error ⟨u.version⟩)
    ∨ (u.version.toNat < 2 ^ 63 ∧ ∃ r, ofUpdate u = .ok r
      ∧ r.deviceId = u.deviceId ∧ r.namespaceId = u.namespaceId ∧ r.version.toInt = u.version.toNat
      ∧ Utf8.Kept u.reported r.reported ∧ Utf8.Kept u.desired r.desired
      ∧ ∀ s t, ofUpdate { u with reported := Utf8.encode s, desired := Utf8.encode t }
        = .ok { r with reported := s, desired := t }) := by
  by_cases hversion : u.version.toNat < 2 ^ 63
  · have hle : u.version.toNat ≤ Int64.maxValue.toInt := by
      rw [Int64.toInt_maxValue]
      omega
    refine .inr ⟨hversion, _, ofUpdate_eq_ok_iff.2 ⟨hle, rfl⟩, rfl, rfl, ?_, Utf8.kept_decodeLossy _,
      Utf8.kept_decodeLossy _, ?_⟩
    · exact Int64.toInt_ofNat_of_lt hversion
    · intro s t
      apply ofUpdate_eq_ok_iff.2
      refine ⟨hle, ?_⟩
      rw [Utf8.decodeLossy_encode, Utf8.decodeLossy_encode]
  · have hnot : ¬u.version.toNat ≤ Int64.maxValue.toInt := by
      rw [Int64.toInt_maxValue]
      omega
    refine .inl ⟨Nat.le_of_not_lt hversion, ?_⟩
    rw [ofUpdate, if_neg hnot]

/-- A record takes fifty bytes at most besides those of its texts. -/
theorem length_bytes_le (r : DeviceRecord) : r.toDatum.bytes.length
    ≤ 50 + r.deviceId.utf8ByteSize + r.namespaceId.utf8ByteSize + r.reported.utf8ByteSize
      + r.desired.utf8ByteSize := by
  have hdevice := Wire.length_encodeString_le r.deviceId
  have hversion := Wire.length_encode_le r.version
  have hnamespace := Wire.length_encodeString_le r.namespaceId
  have hreported := Wire.length_encodeString_le r.reported
  have hdesired := Wire.length_encodeString_le r.desired
  simp only [toDatum, Datum.bytes, List.flatMap_cons, List.flatMap_nil, FieldValue.encode,
    List.length_append, List.length_nil]
  omega

/-- Values that fit the schema are those of a record. -/
theorem exists_of_fault {datum : Datum} (h : schema.fault datum = none) : ∃ r, datum = toDatum r := by
  rw [Schema.fault_eq_none_iff] at h
  match datum, h with
  | [.string deviceId, .long version, .string namespaceId, .string reported, .string desired], _ =>
    exact ⟨⟨deviceId, version, namespaceId, reported, desired⟩, rfl⟩

theorem exists_records {datums : List Datum} (h : ∀ d ∈ datums, schema.fault d = none) :
    ∃ records : List DeviceRecord, datums = records.map toDatum := by
  induction datums with
  | nil => exact ⟨[], rfl⟩
  | cons d datums ih =>
    obtain ⟨hfirst, hrest⟩ := List.forall_mem_cons.1 h
    obtain ⟨r, rfl⟩ := exists_of_fault hfirst
    obtain ⟨records, rfl⟩ := ih hrest
    exact ⟨r :: records, rfl⟩

theorem writable_header (codec : Codec) (marker : Marker) :
    (Header.new DeviceRecord.schema codec marker).Writable := by
  have hdocument : (Utf8.encode DeviceRecord.schema.document).length < 2 ^ 40 := by
    rw [Utf8.length_encode]
    decide +kernel
  have hle := Header.length_encode_new_le_document DeviceRecord.schema codec marker
  apply Header.writable_new
  omega

end DeviceLog.DeviceRecord
