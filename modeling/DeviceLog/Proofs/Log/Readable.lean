import DeviceLog.Proofs.Log.Mismatch

/-! # Logs that can be read can be appended to

A reader looks at every block of a log, an appender only at its last bytes. What the reader accepts the
appender leaves as it is, whoever wrote it: the schema may have another name, the map of the header any
layout and the blocks any number of records.

* `Appender.exists_appendAll`: if no write fails, one block is written for each record.
* `Appender.appendAll_of_load`: a log that is read is opened as it is, and the records that are appended
  to it are read after its own.
-/

namespace DeviceLog.Appender

variable {schema : Schema} {path : Path} {place : Place} {fs : FileSystem} {content body : Bytes} {h : Header}

/-- A log whose records are read looks whole. -/
theorem looksWhole_of_datums {records : List Datum} (hread : h.datums body = .ok records) :
    looksWhole h body = true := by
  obtain ⟨found, hframes, -⟩ := Header.frames_of_datums hread
  exact looksWhole_frames hframes

theorem exists_appendAll {a : Appender} {ds : List Datum} (hfile : fs.content? a.place = some content)
    (hkept : a.kept ≤ content.length) (hquiet : fs.Quiet) (hfits : ∀ d ∈ ds, a.header.schema.fault d = none) :
    ∃ gs, appendAll ds (a, fs)
        = (ds.map fun d => (d, .ok ()), { a with appended := a.appended + ds.length }, gs)
      ∧ fs.Rewrites gs a.place (content ++ a.written ds) := by
  have hall : ∀ d ∈ ds, a.header.schema.Fits d := fun d hd => Schema.fault_eq_none_iff.1 (hfits d hd)
  have hfilter : ds.filter a.header.schema.Fits = ds := List.filter_eq_self.2 (by simpa using hall)
  have hanswers : (ds.map fun d => (d, answer a.header.schema d)) = ds.map fun d => (d, .ok ()) := by
    apply List.map_congr_left
    intro d hd
    rw [answer_eq_ok_iff.2 (hall d hd)]
  obtain ⟨gs, happend, hwritten⟩ := exists_answers ds hfile hkept hquiet
  rw [hfilter, hanswers] at happend
  rw [hfilter] at hwritten
  exact ⟨gs, happend, hwritten⟩

theorem exists_appendAll_close {a : Appender} {ds : List Datum} (hfile : fs.content? a.place = some content)
    (hkept : a.kept ≤ content.length) (hquiet : fs.Quiet) (hfits : ∀ d ∈ ds, a.header.schema.fault d = none) :
    ∃ b hs gs, appendAll ds (a, fs) = (ds.map fun d => (d, .ok ()), b, hs) ∧ b.close hs = (.ok (), gs)
      ∧ fs.Rewrites gs a.place (content ++ a.written ds) := by
  obtain ⟨hs, happend, hwritten⟩ := exists_appendAll hfile hkept hquiet hfits
  have hkept' : a.kept ≤ (content ++ a.written ds).length := by
    rw [List.length_append]
    exact Nat.le_trans hkept (Nat.le_add_right _ _)
  obtain ⟨gs, ⟨hclose, hrewrites⟩ | ⟨_, hloud, _⟩⟩ :=
    close_cases (a := { a with appended := a.appended + ds.length }) hwritten.content?_self hkept'
  · exact ⟨_, hs, gs, happend, hclose, hwritten.trans hrewrites⟩
  · exact absurd (hquiet.rewrites hwritten) hloud

/-- A log that can be read can be appended to, whatever codec the appender has for new logs. All that was
there stays, behind it stands one block for each record, and a reader finds the same header and after the
records of before those that were appended. -/
theorem appendAll_of_load {contents : Contents} {held added : List Datum}
    (hload : Contents.load fs path = .ok contents) (hheld : contents.values = .ok held)
    (hfields : contents.header.schema.fields = schema.fields) (hquiet : fs.Quiet)
    (hadded : ∀ d ∈ added, schema.fault d = none ∧ contents.header.codec.Carries d.bytes) (codec : Codec)
    (marker : Marker) :
    ∃ a gs b hs ks old frames, «open» path schema codec marker fs = (.ok a, gs) ∧ a.created = false
      ∧ appendAll added (a, gs) = (added.map fun d => (d, .ok ()), b, hs) ∧ b.close hs = (.ok (), ks)
      ∧ fs.read path = .ok old ∧ ks.read path = .ok (old ++ frames)
      ∧ contents.header.Frames (added.map Block.ofDatum) frames
      ∧ ∃ after, Contents.load ks path = .ok after ∧ after.header = contents.header
        ∧ after.values = .ok (held ++ added) := by
  obtain ⟨place, old, hfind, hfile, hread⟩ := Contents.exists_of_load hload
  obtain ⟨path', h, body⟩ := contents
  have hdatums := Contents.values_eq_ok_iff.1 hheld
  have hfits : ∀ d ∈ added, h.schema.fault d = none := fun d hd =>
    Schema.fault_eq_none_of_fields hfields (hadded d hd).1
  obtain ⟨r, gs, after, hopen, hopened, hopens⟩ :=
    exists_open_file schema codec marker (FileSystem.findForFile_of_find hfind hfile) hfile
  obtain ⟨rfl, rfl⟩ := hopens.eq_of_whole hread hfields (looksWhole_of_datums hdatums)
  obtain ⟨b, hs, ks, happend, hclose, hwritten⟩ :=
    exists_appendAll_close (a := ⟨path, place, h, after.length, false, 0⟩) hopened.content?_self
      (Nat.le_refl _) (hquiet.rewrites hopened) hfits
  have hframes : h.Frames (added.map Block.ofDatum)
      (written ⟨path, place, h, after.length, false, 0⟩ added) := by
    have hstated := frames_written (a := ⟨path, place, h, after.length, false, 0⟩)
      fun d hd => (hadded d hd).2
    rwa [Header.stated_of_read hread] at hstated
  have hnone : fs.entry? place ≠ some .directory := by
    rw [hfile]
    simp
  have hall := hopened.trans hwritten
  have hfind' := (hall.grows hnone).find hfind
  have hfile' := FileSystem.entry?_of_content? hall.content?_self
  refine ⟨_, gs, b, hs, ks, after, _, hopen, rfl, happend, hclose, FileSystem.read_of_file hfind hfile,
    FileSystem.read_of_file hfind' hfile', hframes, _,
    Contents.load_of_read hfind' hfile' (Header.read_append hread _), rfl, ?_⟩
  apply Contents.values_eq_ok_iff.2
  exact Header.datums_append hdatums (fun d hd => ⟨hfits d hd, (hadded d hd).2.own⟩) hframes

/-- A block of two records, which no appender makes. -/
def pair : Block := ⟨2, [plainEntry.datum, plainEntry.datum].flatMap Datum.bytes⟩

def pairedLog : FileSystem where
  entries := [(["log"], .file (plainHeader.encode ++ pair.encode plainHeader))]

theorem framed_pair : pair.Framed plainHeader.stated (pair.encode plainHeader) := by
  apply Block.framed_encode (show 2 < 2 ^ 63 by decide)
  have hlength := DeviceRecord.length_bytes_le ⟨"dev", 1, "ns", "", ""⟩
  have hshort : plainEntry.datum.bytes.length < 2 ^ 62 := Nat.lt_of_le_of_lt hlength (by decide)
  show pair.data.length < 2 ^ 63
  simp only [pair, List.flatMap_cons, List.flatMap_nil, List.length_append, List.length_nil]
  omega

theorem datums_pair : pair.datums plainHeader.schema = .ok [plainEntry.datum, plainEntry.datum] := by
  have hentry : plainEntry ∈ [plainEntry, plainEntry] := List.mem_cons_self
  have hreads : Wire.Reads (Datum.read plainHeader.schema) plainEntry.datum.bytes plainEntry.datum :=
    Datum.reads (logs_plain.fits _ hentry) (logs_plain.carries _ hentry).own
  have hboth : ∀ d ∈ [plainEntry.datum, plainEntry.datum],
      Wire.Reads (Datum.read plainHeader.schema) d.bytes d := by simpa using hreads
  have hpair : Wire.Reads (Action.times (Datum.read plainHeader.schema) 2) pair.data
      [plainEntry.datum, plainEntry.datum] := Wire.Reads.times hboth
  simp only [Block.datums]
  rw [show pair.count = 2 from rfl, hpair.alone]

/-- A log with such a block is read, and a record that is appended to it is read after both. -/
theorem appendAll_of_load_pairedLog :
    ∃ contents : Contents, (Contents.load pairedLog ⟨"log"⟩ = .ok contents
      ∧ contents.values = .ok [plainEntry.datum, plainEntry.datum]
      ∧ contents.header.schema.fields = DeviceRecord.schema.fields ∧ pairedLog.Quiet
      ∧ ∀ d ∈ [plainEntry.datum],
        DeviceRecord.schema.fault d = none ∧ contents.header.codec.Carries d.bytes)
    ∧ ∃ a gs b hs ks, Appender.open ⟨"log"⟩ DeviceRecord.schema (.deflate 9) (.numbered 1) pairedLog
        = (.ok a, gs)
      ∧ Appender.appendAll [plainEntry.datum] (a, gs) = ([(plainEntry.datum, .ok ())], b, hs)
      ∧ b.close hs = (.ok (), ks)
      ∧ Contents.valuesAt ks ⟨"log"⟩ = .ok [plainEntry.datum, plainEntry.datum, plainEntry.datum] := by
  have hread : Header.read (plainHeader.encode ++ pair.encode plainHeader)
      = (.ok plainHeader.stated, pair.encode plainHeader) :=
    (Header.reads_encode logs_plain.writable).whole _
  have hload : Contents.load pairedLog ⟨"log"⟩
      = .ok ⟨⟨"log"⟩, plainHeader.stated, pair.encode plainHeader⟩ := Contents.load_of_read rfl rfl hread
  have hdatums : plainHeader.stated.datums (pair.encode plainHeader)
      = .ok [plainEntry.datum, plainEntry.datum] := by
    rw [← List.append_nil (pair.encode plainHeader), Header.datums_frames (.cons framed_pair .nil),
      List.mapM_cons, show pair.datums plainHeader.stated.schema = _ from datums_pair]
    rfl
  have hvalues : Contents.values ⟨⟨"log"⟩, plainHeader.stated, pair.encode plainHeader⟩
      = .ok [plainEntry.datum, plainEntry.datum] := Contents.values_eq_ok_iff.2 hdatums
  have hquiet : pairedLog.Quiet := ⟨rfl, nofun⟩
  have hadded : ∀ d ∈ [plainEntry.datum],
      DeviceRecord.schema.fault d = none ∧ plainHeader.stated.codec.Carries d.bytes := by
    intro d hd
    cases List.mem_singleton.1 hd
    have hentry : plainEntry ∈ [plainEntry, plainEntry] := List.mem_cons_self
    exact ⟨logs_plain.fits _ hentry, logs_plain.carries _ hentry⟩
  obtain ⟨a, gs, b, hs, ks, old, frames, hopen, -, happend, hclose, -, -, -, after, hafter, -, hall⟩ :=
    appendAll_of_load hload hvalues rfl hquiet hadded (.deflate 9) (.numbered 1)
  refine ⟨_, ⟨hload, hvalues, rfl, hquiet, hadded⟩, a, gs, b, hs, ks, hopen, happend, hclose, ?_⟩
  simp only [Contents.valuesAt, hafter]
  exact hall

end DeviceLog.Appender
