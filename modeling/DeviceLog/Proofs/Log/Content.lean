import DeviceLog.Log.Appender
import DeviceLog.Log.Contents
import DeviceLog.Proofs.Container.Block
import DeviceLog.Proofs.Storage.Walk

/-! # What logs hold

* `IsLog header records content`: the bytes are a header and a block for each record, and nothing
  else. `isLog_encode` and `IsLog.concat` are the two ways to make a log; `IsLog.exists_body` is what
  a reader gets out of one.
* `Codec.Carries codec data`: the data and the payloads made of them can be written. By
  `Codec.carries_of_length_lt` every codec carries what is not very long.
* `Log.Keeps`: what a file may hold between two appenders, which is nothing or a whole log.
* `Contents.load_of_read` and `Contents.exists_of_load`: a log is read as what its bytes are read as.
-/

namespace DeviceLog

/-! ## Reading -/

namespace Contents

variable {fs : FileSystem} {path : Path} {place : Place} {content : Bytes}

theorem load_of_read (hfind : fs.find path = .ok place) (hfile : fs.entry? place = some (.file content))
    {h : Header} {body : Bytes} (hread : Header.read content = (.ok h, body)) :
    load fs path = .ok ⟨path, h, body⟩ := by
  simp only [load, FileSystem.read_of_file hfind hfile, hread]

theorem load_of_error (hfind : fs.find path = .ok place) (hfile : fs.entry? place = some (.file content))
    {e : FormatError} {rest : Bytes} (hread : Header.read content = (.error e, rest)) :
    load fs path = .error (.corrupt e) := by
  simp only [load, FileSystem.read_of_file hfind hfile, hread]

/-- What is read of a log stands in a file. -/
theorem exists_of_load {contents : Contents} (h : load fs path = .ok contents) :
    ∃ place content, fs.find path = .ok place ∧ fs.entry? place = some (.file content)
      ∧ Header.read content = (.ok contents.header, contents.body) := by
  simp only [load] at h
  cases hbytes : fs.read path with
  | error e =>
    rw [hbytes] at h
    cases h
  | ok content =>
    obtain ⟨place, hfind, hfile⟩ := FileSystem.exists_of_read hbytes
    refine ⟨place, content, hfind, hfile, ?_⟩
    simp only [hbytes] at h
    split at h
    · rename_i hread
      cases h
      exact hread
    · cases h

theorem values_eq_ok_iff {contents : Contents} {records : List Datum} :
    contents.values = .ok records ↔ contents.header.datums contents.body = .ok records := by
  rw [values]
  cases contents.header.datums contents.body with
  | ok datums => simp
  | error e => simp

end Contents

/-! ## Whole logs -/

/-- Whether data and the payloads made of them are shorter than the longest there can be, so that
their lengths can be written. A log that is opened again has the codec without its level. -/
structure Codec.Carries (codec : Codec) (data : Bytes) : Prop where
  own : data.length < 2 ^ 63
  payload : (codec.compress data).length < 2 ^ 63
  payload_stated : (codec.stated.compress data).length < 2 ^ 63

/-- Without a level of its own a codec carries what it carried. -/
theorem Codec.Carries.stated {codec : Codec} {data : Bytes} (h : codec.Carries data) :
    codec.stated.Carries data where
  own := h.own
  payload := h.payload_stated
  payload_stated := by
    rw [stated_stated]
    exact h.payload_stated

theorem Codec.carries_null {data : Bytes} (h : data.length < 2 ^ 63) : Codec.null.Carries data :=
  ⟨h, h, h⟩

/-- Data of reasonable length can be written with every codec. -/
theorem Codec.carries_of_length_lt {data : Bytes} (h : data.length < 2 ^ 50) (codec : Codec) :
    codec.Carries data :=
  ⟨by omega, codec.length_compress_lt h, codec.stated.length_compress_lt h⟩

/-- The block of a record is complete, at whatever level of the codec it is made. -/
theorem Block.framed_ofDatum {h : Header} {d : Datum} (hcarries : h.codec.Carries d.bytes) :
    (ofDatum d).Framed h.stated ((ofDatum d).encode h) :=
  framed_encode (show 1 < 2 ^ 63 by decide) hcarries.payload

/-- Blocks end in the marker, which is all that is looked at. -/
theorem Appender.looksWhole_frames {h : Header} {blocks : List Block} {body : Bytes}
    (hb : h.Frames blocks body) : looksWhole h body = true := by
  simp only [looksWhole]
  rw [decide_eq_true_eq]
  rcases hb.ends with hempty | ⟨front, rfl⟩
  · exact .inl hempty
  · have hsize : Marker.size = h.marker.bytes.length := h.marker.length_eq.symm
    rw [List.length_append, hsize]
    exact .inr ⟨Nat.le_add_left _ _, by rw [Nat.add_sub_cancel, List.drop_left]⟩

structure IsLog (h : Header) (records : List Datum) (content : Bytes) : Prop where
  layout : ∃ front body, content = front ++ body ∧ Wire.Reads Header.read front h
    ∧ h.Frames (records.map Block.ofDatum) body
  stated : h.stated = h
  records_fit : ∀ d ∈ records, h.schema.fault d = none ∧ d.bytes.length < 2 ^ 63

theorem isLog_encode {h : Header} (hw : h.Writable) : IsLog h.stated [] h.encode where
  layout := ⟨h.encode, [], (List.append_nil _).symm, Header.reads_encode hw, .nil⟩
  stated := by
    simp only [Header.stated]
    rw [Codec.stated_stated]
  records_fit _ hd := by cases hd

namespace IsLog

variable {h : Header} {records : List Datum} {content : Bytes}

/-- A record more. Its block may have been made at any level of the codec. -/
theorem concat {writer : Header} (hl : IsLog writer.stated records content) {d : Datum}
    (hfault : writer.schema.fault d = none) (hcarries : writer.codec.Carries d.bytes) :
    IsLog writer.stated (records ++ [d]) (content ++ (Block.ofDatum d).encode writer) where
  layout := by
    obtain ⟨front, body, hcontent, hfront, hbody⟩ := hl.layout
    refine ⟨front, body ++ (Block.ofDatum d).encode writer, ?_, hfront, ?_⟩
    · rw [hcontent, List.append_assoc]
    · rw [List.map_append]
      exact hbody.concat (Block.framed_ofDatum hcarries)
  stated := hl.stated
  records_fit e he := by
    rcases List.mem_append.1 he with he | he
    · exact hl.records_fit e he
    · rw [List.mem_singleton] at he
      subst he
      exact ⟨hfault, hcarries.own⟩

/-- What is read of a log: its header, and a body of whole blocks with all records. -/
theorem exists_body (hl : IsLog h records content) :
    ∃ body, Header.read content = (.ok h, body) ∧ body.length ≤ content.length
      ∧ Appender.looksWhole h body = true ∧ h.datums body = .ok records := by
  obtain ⟨front, body, rfl, hfront, hbody⟩ := hl.layout
  refine ⟨body, hfront.whole body, ?_, Appender.looksWhole_frames hbody,
    Header.datums_records hl.records_fit hbody⟩
  rw [List.length_append]
  exact Nat.le_add_left _ _

theorem ne_nil (hl : IsLog h records content) : content ≠ [] := by
  rintro rfl
  obtain ⟨body, hread, _⟩ := hl.exists_body
  have hempty : Header.read [] = (.error .endOfData, []) := rfl
  rw [hempty] at hread
  cases hread

/-- A log that is found is read as its records. -/
theorem exists_load {fs : FileSystem} {path : Path} {place : Place} (hl : IsLog h records content)
    (hfind : fs.find path = .ok place) (hfile : fs.entry? place = some (.file content)) :
    ∃ contents, Contents.load fs path = .ok contents ∧ contents.header = h
      ∧ contents.values = .ok records := by
  obtain ⟨body, hread, _, _, hdatums⟩ := hl.exists_body
  exact ⟨⟨path, h, body⟩, Contents.load_of_read hfind hfile hread, rfl, Contents.values_eq_ok_iff.2 hdatums⟩

end IsLog

/-! ## Between two appenders -/

/-- What a file holds that appenders for records of a schema write to: nothing, or a whole log with
the fields of the schema and a codec of some kind. -/
inductive Log.Keeps (schema : Schema) (allowed : Codec → Prop) : List Datum → Bytes → Prop
  | nothing : Keeps schema allowed [] []
  | log {h : Header} {records : List Datum} {content : Bytes} :
      h.schema.fields = schema.fields → allowed h.codec → IsLog h records content →
        Keeps schema allowed records content

theorem Log.Keeps.isLog {schema : Schema} {allowed : Codec → Prop} {records : List Datum}
    {content : Bytes} (hk : Log.Keeps schema allowed records content) (hne : content ≠ []) :
    ∃ h : Header, h.schema.fields = schema.fields ∧ allowed h.codec ∧ IsLog h records content := by
  cases hk with
  | nothing => exact absurd rfl hne
  | log hfields hcodec hl => exact ⟨_, hfields, hcodec, hl⟩

/-- Of lists of one length none of the pairs differ exactly if they are the same list. -/
theorem Schema.find?_zip_ne_eq_none_iff : ∀ {fields fields' : List Field}, fields.length = fields'.length →
    ((fields.zip fields').find? (fun pair => pair.1 ≠ pair.2) = none ↔ fields = fields')
  | [], [], _ => by simp
  | f :: fields, g :: fields', h => by
    have ih := find?_zip_ne_eq_none_iff (show fields.length = fields'.length by simpa using h)
    by_cases hf : f = g
    · rw [List.zip_cons_cons, List.find?_cons_of_neg (by simpa using hf), ih]
      simp [hf]
    · rw [List.zip_cons_cons, List.find?_cons_of_pos (by simpa using hf)]
      simp [hf]
  | [], _ :: _, h => by simp at h
  | _ :: _, [], h => by simp at h

theorem Schema.difference_eq_none_iff {a b : Schema} : a.difference b = none ↔ a.fields = b.fields := by
  simp only [difference]
  by_cases h : a.fields.length = b.fields.length
  · rw [if_neg (not_not_intro h), Option.map_eq_none_iff, find?_zip_ne_eq_none_iff h]
  · rw [if_pos h]
    have hne : a.fields ≠ b.fields := fun heq => h (congrArg List.length heq)
    simp [hne]

end DeviceLog
