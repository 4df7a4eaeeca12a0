import DeviceLog.Command.Dump
import DeviceLog.Proofs.Json.Line
import DeviceLog.Proofs.Log.Records

/-! # What is shown of a log is what is in it

* `DeviceRecord.decode_render`: the line of a device record is read back as the record.
* `LineOf schema datum line`: a line is one line, and what is read of it is the record; for a schema other
  than that of device records it is read as an object with the values of the record.
* `Contents.exists_recordLines` and `Contents.recordLines_of_error`: there is such a line for each record,
  or there is none at all.
* `dump_shows`: the command prints the header and these lines, or fails and prints at most the header.
-/

namespace DeviceLog

/-! ## Values in lines -/

namespace FieldValue

/-- How a value looks like that is shown: bytes are a list of numbers. -/
inductive Shown : FieldValue → Json.Value → Prop
  | boolean (b : Bool) : Shown (.boolean b) (.bool b)
  | int (n : Int32) : Shown (.int n) (.integer n.toInt)
  | long (n : Int64) : Shown (.long n) (.integer n.toInt)
  | string (s : String) : Shown (.string s) (.text s)
  | bytes (b : Bytes) : Shown (.bytes b) (.list (b.map fun byte => .integer byte.toNat))

theorem shown_toJson (v : FieldValue) : v.Shown v.toJson := by
  cases v with
  | boolean b => exact .boolean b
  | int n => exact .int n
  | long n => exact .long n
  | string s => exact .string s
  | bytes b => exact .bytes b

theorem fits_toJson (v : FieldValue) : v.toJson.Fits := by
  have hbound : Json.Numeral.bound = 0x10000000000000000 := rfl
  cases v with
  | boolean b => exact .bool b
  | int n =>
    have hlow := n.le_toInt
    have hhigh := n.toInt_lt
    exact .integer (by omega) (by omega)
  | long n =>
    have hlow := n.le_toInt
    have hhigh := n.toInt_lt
    exact .integer (by omega) (by omega)
  | string s => exact .text s
  | bytes b =>
    refine .list (List.forall_mem_map.2 fun byte _ => ?_)
    have hhigh := byte.toNat_lt
    exact .integer (by omega) (by omega)

/-- No value is an object, so that there is nothing to sort in it. -/
theorem sorted_toJson (v : FieldValue) : v.toJson.sorted = v.toJson := by
  cases v with
  | boolean | int | long | string => rfl
  | bytes b =>
    simp only [toJson, Json.Value.ofBytes]
    rw [Json.Value.sorted.eq_def]
    simp only [Json.Value.sortedItems_eq_map, List.map_map]
    rfl

end FieldValue

/-! ## Device records in lines -/

namespace DeviceRecord

open Json

def members (r : DeviceRecord) : List (String × Json.Value) :=
  [("device_id", .text r.deviceId), ("version", .integer r.version.toInt), ("namespace_id", .text r.namespaceId),
    ("reported_state", .text r.reported), ("desired_state", .text r.desired)]

/-- What has been read of a record once the members with some names have been. -/
def having (r : DeviceRecord) (names : List String) : Draft where
  deviceId := if "device_id" ∈ names then some r.deviceId else none
  version := if "version" ∈ names then some r.version else none
  namespaceId := if "namespace_id" ∈ names then some r.namespaceId else none
  reported := if "reported_state" ∈ names then some r.reported else none
  desired := if "desired_state" ∈ names then some r.desired else none

theorem adds (r : DeviceRecord) : ∀ m ∈ r.members, layout.Adds r.having (m.1, m.2.tokens) := by
  simp only [members, List.forall_mem_cons]
  refine ⟨?_, ?_, ?_, ?_, ?_, nofun⟩
  · exact Layout.adds_of_find rfl (fun names h => by simp [having, h]) fun names =>
      (Decoder.reads_text r.deviceId).map (by simp [having])
  · exact Layout.adds_of_find rfl (fun names h => by simp [having, h]) fun names =>
      Decoder.Reads.map (signed_ofInt r.version) (by simp [having])
  · exact Layout.adds_of_find rfl (fun names h => by simp [having, h]) fun names =>
      (Decoder.reads_text r.namespaceId).map (by simp [having])
  · exact Layout.adds_of_find rfl (fun names h => by simp [having, h]) fun names =>
      (Decoder.reads_text r.reported).map (by simp [having])
  · exact Layout.adds_of_find rfl (fun names h => by simp [having, h]) fun names =>
      (Decoder.reads_text r.desired).map (by simp [having])

theorem finish_having (r : DeviceRecord) {names : List String} (h : ∀ m ∈ r.members, m.1 ∈ names)
    (rest : List Token) : layout.finish (r.having names) rest = (.ok r, rest) := by
  simp only [members, List.forall_mem_cons] at h
  obtain ⟨hdevice, hversion, hnamespace, hreported, hdesired, -⟩ := h
  have hdraft : r.having names
      = ⟨some r.deviceId, some r.version, some r.namespaceId, some r.reported, some r.desired⟩ := by
    simp [having, hdevice, hversion, hnamespace, hreported, hdesired]
  rw [hdraft]
  rfl

theorem reads_toJson (r : DeviceRecord) : Decoder.Reads layout.read r.toJson.tokens r := by
  have htokens : r.toJson.tokens = objectTokens (r.members.map fun m => (m.1, m.2.tokens)) :=
    Json.Value.tokens_object r.members
  have hnames : ["device_id", "version", "namespace_id", "reported_state", "desired_state"].Nodup := by decide
  rw [htokens]
  have hperm : (r.members.map fun m => (m.1, m.2.tokens)).Perm ((r.members.map fun m => (m.1, m.2.tokens)) ++ []) :=
    .of_eq (List.append_nil _).symm
  exact Layout.reads_object hperm rfl (List.forall_mem_map.2 r.adds) nofun hnames fun names rest hall =>
    r.finish_having (fun m hm => hall (m.1, m.2.tokens) (List.mem_map_of_mem hm)) rest

/-- The line of a record is read back as the record. -/
theorem decode_render (r : DeviceRecord) : decode layout.read (Utf8.encode r.toJson.render) = .ok r := by
  have hreads := r.reads_toJson
  rw [← Json.Value.ofBytes_render] at hreads
  exact hreads.decode

end DeviceRecord

/-! ## Records in lines -/

/-- A line shows a record of a schema: a device record, if the schema has the fields of one, and otherwise
an object whose names are those of the fields and whose values are those of the record. -/
structure LineOf (schema : Schema) (datum : Datum) (line : String) : Prop where
  plain : Json.Plain line
  deviceRecord : schema.fields = DeviceRecord.schema.fields →
    ∃ r, Json.decode DeviceRecord.layout.read (Utf8.encode line) = .ok r ∧ r.toDatum = datum
  object : schema.fields ≠ DeviceRecord.schema.fields → (schema.fields.map Field.name).Nodup →
    ∃ members shown, Json.Value.ofDocument (Utf8.encode line) = .ok (.object members)
      ∧ (members.map Prod.fst).Perm (schema.fields.map Field.name)
      ∧ List.Forall₂ FieldValue.Shown datum shown
      ∧ members.Perm ((schema.fields.map Field.name).zip shown)

namespace Contents

variable {c : Contents}

theorem lineOf_record {schema : Schema} (hfields : schema.fields = DeviceRecord.schema.fields)
    (r : DeviceRecord) : LineOf schema r.toDatum r.toJson.render where
  plain := r.toJson.plain_render
  deviceRecord _ := ⟨r, r.decode_render, rfl⟩
  object hne := absurd hfields hne

/-- Where no two fields have one name, a record is shown as an object with its values. -/
theorem exists_object {schema : Schema} {datum : Datum} (hlength : datum.length = schema.fields.length)
    (hnodup : (schema.fields.map Field.name).Nodup) :
    ∃ members, Json.Value.ofDocument (Utf8.encode (datumLine schema datum)) = .ok (.object members)
      ∧ (members.map Prod.fst).Perm (schema.fields.map Field.name)
      ∧ members.Perm ((schema.fields.map Field.name).zip (datum.map FieldValue.toJson)) := by
  have hnames : ((schema.fields.map Field.name).zip (datum.map FieldValue.toJson)).map Prod.fst
      = schema.fields.map Field.name := List.map_fst_zip (by simp [hlength])
  rw [← hnames] at hnodup
  obtain ⟨members, hsorted, hperm⟩ := Json.Value.sorted_object hnodup
  have hvalues : ∀ m ∈ (schema.fields.map Field.name).zip (datum.map FieldValue.toJson),
      ∃ v : FieldValue, m.2 = v.toJson := by
    intro m hm
    obtain ⟨v, -, hv⟩ := List.mem_map.1 (List.of_mem_zip hm).2
    exact ⟨v, hv.symm⟩
  have hsame : (((schema.fields.map Field.name).zip (datum.map FieldValue.toJson)).map fun m => (m.1, m.2.sorted))
      = (schema.fields.map Field.name).zip (datum.map FieldValue.toJson) := by
    refine (List.map_congr_left fun m hm => ?_).trans (List.map_id _)
    obtain ⟨v, hv⟩ := hvalues m hm
    rw [hv, v.sorted_toJson, ← hv]
    rfl
  rw [hsame] at hperm
  have hfits : (Json.Value.object members).Fits := by
    refine .object fun m hm => ?_
    obtain ⟨v, hv⟩ := hvalues m (hperm.mem_iff.1 hm)
    rw [hv]
    exact v.fits_toJson
  refine ⟨members, ?_, ?_, hperm⟩
  · rw [datumLine, hsorted]
    exact Json.Value.ofDocument_render hfits
  · have hperm' := hperm.map Prod.fst
    rwa [hnames] at hperm'

theorem lineOf_datum {schema : Schema} {datum : Datum} (hfields : schema.fields ≠ DeviceRecord.schema.fields)
    (hlength : datum.length = schema.fields.length) : LineOf schema datum (datumLine schema datum) where
  plain := Json.Value.plain_render _
  deviceRecord heq := absurd heq hfields
  object _ hnodup := by
    obtain ⟨members, hread, hnames, hperm⟩ := exists_object hlength hnodup
    exact ⟨members, _, hread, hnames,
      List.forall₂_map_right_iff.2 (List.forall₂_same.2 fun v _ => v.shown_toJson), hperm⟩

example : datumLine ⟨"Reading", none, [⟨"sensor", .string⟩, ⟨"value", .long⟩, ⟨"ok", .boolean⟩, ⟨"raw", .bytes⟩]⟩
    [.string "t1", .long (-4), .boolean true, .bytes [0, 255]]
      = "\x7b\"ok\":true,\"raw\":[0,255],\"sensor\":\"t1\",\"value\":-4\x7d" := by
  decide +kernel

/-- Each record has its line, in their order. -/
theorem exists_recordLines {datums : List Datum} (h : c.values = .ok datums) :
    ∃ lines, c.recordLines = .ok lines ∧ List.Forall₂ (LineOf c.header.schema) datums lines := by
  by_cases hfields : c.header.schema.fields = DeviceRecord.schema.fields
  · obtain ⟨rs, hrecords, rfl⟩ := exists_records_of_values hfields h
    refine ⟨rs.map fun r => r.toJson.render, by simp only [recordLines, hrecords], ?_⟩
    exact List.forall₂_map_left_iff.2 (List.forall₂_map_right_iff.2
      (List.forall₂_same.2 fun r _ => lineOf_record hfields r))
  · obtain ⟨d, hrecords⟩ := exists_records_of_ne hfields
    refine ⟨datums.map (datumLine c.header.schema), by simp only [recordLines, hrecords, h], ?_⟩
    refine List.forall₂_map_right_iff.2 (List.forall₂_same.2 fun d hd => lineOf_datum hfields ?_)
    obtain ⟨own, left, hread⟩ := exists_read_of_values h d hd
    have htypes := congrArg List.length (Datum.types_of_readFields hread)
    rwa [List.length_map, List.length_map] at htypes

/-- If one record cannot be read there are no lines. -/
theorem recordLines_of_error {e : LogError} (h : c.values = .error e) : c.recordLines = .error e := by
  by_cases hfields : c.header.schema.fields = DeviceRecord.schema.fields
  · obtain ⟨cause, rfl⟩ := exists_corrupt_of_values h
    simp only [recordLines, (records_eq_error_iff hfields _).2 h]
  · obtain ⟨d, hrecords⟩ := exists_records_of_ne hfields
    simp only [recordLines, hrecords, h]

end Contents

/-! ## The command -/

theorem dump_of_values {fs : FileSystem} {path : Path} {c : Contents} {datums : List Datum}
    (hload : Contents.load fs path = .ok c) (hvalues : c.values = .ok datums) :
    ∃ lines, dump fs path = .success (Contents.headerLine c.header :: lines)
      ∧ List.Forall₂ (LineOf c.header.schema) datums lines := by
  obtain ⟨lines, hlines, hshow⟩ := Contents.exists_recordLines hvalues
  exact ⟨lines, by simp only [dump, hload, hlines], hshow⟩

theorem dump_of_error {fs : FileSystem} {path : Path} {c : Contents} {e : LogError}
    (hload : Contents.load fs path = .ok c) (hvalues : c.values = .error e) :
    dump fs path = .failed [Contents.headerLine c.header] e.message := by
  simp only [dump, hload, Contents.recordLines_of_error hvalues]

theorem dump_of_load {fs : FileSystem} {path : Path} {e : LogError} (hload : Contents.load fs path = .error e) :
    dump fs path = .failed [] ("failed to read " ++ path.text) := by
  simp only [dump, hload]

/-- The command succeeds if the header and all records can be read, and then it prints one line for the
header and one for each record, which shows the record. If a record cannot be read it prints the header only,
and if the header cannot be read, nothing. -/
theorem dump_shows (fs : FileSystem) (path : Path) :
    ((dump fs path).code = 0 ↔ ∃ c datums, Contents.load fs path = .ok c ∧ c.values = .ok datums)
    ∧ (∀ c datums, Contents.load fs path = .ok c → c.values = .ok datums →
        ∃ lines, (dump fs path).output = Contents.headerLine c.header :: lines
          ∧ Json.Plain (Contents.headerLine c.header) ∧ List.Forall₂ (LineOf c.header.schema) datums lines)
    ∧ (∀ c e, Contents.load fs path = .ok c → c.values = .error e →
        (dump fs path).output = [Contents.headerLine c.header] ∧ (dump fs path).code ≠ 0)
    ∧ ∀ e, Contents.load fs path = .error e → (dump fs path).output = [] ∧ (dump fs path).code ≠ 0 := by
  refine ⟨⟨fun hcode => ?_, ?_⟩, fun c datums hload hvalues => ?_, fun c e hload hvalues => ?_, fun e hload => ?_⟩
  · cases hload : Contents.load fs path with
    | error e =>
      rw [dump_of_load hload] at hcode
      cases hcode
    | ok c =>
      cases hvalues : c.values with
      | error e =>
        rw [dump_of_error hload hvalues] at hcode
        cases hcode
      | ok datums => exact ⟨c, datums, rfl, hvalues⟩
  · rintro ⟨c, datums, hload, hvalues⟩
    obtain ⟨lines, hdump, -⟩ := dump_of_values hload hvalues
    rw [hdump]
    rfl
  · obtain ⟨lines, hdump, hshow⟩ := dump_of_values hload hvalues
    rw [hdump]
    exact ⟨lines, rfl, Json.Value.plain_render _, hshow⟩
  · rw [dump_of_error hload hvalues]
    exact ⟨rfl, Nat.one_ne_zero⟩
  · rw [dump_of_load hload]
    exact ⟨rfl, Nat.one_ne_zero⟩

end DeviceLog
