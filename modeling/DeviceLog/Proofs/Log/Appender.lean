import DeviceLog.Proofs.Log.Content
import DeviceLog.Proofs.Storage.Files

/-! # What appenders do to a log

An appender is opened on a file that holds nothing or a whole log. From then on the file is a whole
log, or, where a write has failed, what it was when the appender was opened.

* `create_cases`, `append_cases` and `close_cases` are what there is to each step: it goes through, or a
  write fails and the log is taken back.
* `Appender.Holds` is the invariant of an open appender.
* `open_spec`, `append_spec` and `close_spec` say what each of the three steps does, whether its
  writes go through or not. If no write fails, no step does.
-/

namespace DeviceLog.Appender

variable {schema : Schema} {allowed : Codec → Prop} {place : Place} {old : Bytes}
  {records : List Datum}

/-! ## Steps -/

theorem create_cases {fs : FileSystem} (path : Path) (header : Header) (hfile : fs.content? place = some []) :
    ∃ gs, (create path place header fs = (.ok ⟨path, place, header, 0, true, 0⟩, gs)
        ∧ fs.Rewrites gs place header.encode)
      ∨ ((∃ e, create path place header fs = (.error (.io e), gs)) ∧ ¬fs.Quiet ∧ fs.Rewrites gs place []) := by
  obtain ⟨r, gs, n, happend, hrewrites, hall, hquiet⟩ := FileSystem.append_rewrites hfile header.encode
  rw [List.nil_append] at hrewrites
  simp only [create]
  rw [happend]
  cases r with
  | ok u =>
    rw [hall rfl] at hrewrites
    exact ⟨gs, .inl ⟨rfl, hrewrites⟩⟩
  | error e =>
    obtain ⟨hs, hset, hrewrites'⟩ :=
      FileSystem.setLength_rewrites hrewrites.content?_self (Nat.zero_le _)
    rw [List.take_zero] at hrewrites'
    simp only [hset]
    exact ⟨hs, .inr ⟨⟨e, rfl⟩, fun h => (by cases hquiet h), hrewrites.trans hrewrites'⟩⟩

theorem rollBack_spec {a : Appender} {fs : FileSystem} {content : Bytes}
    (hfile : fs.content? a.place = some content) (hkept : a.kept ≤ content.length) :
    ∃ gs, a.rollBack fs = ({ a with appended := 0 }, gs)
      ∧ fs.Rewrites gs a.place (content.take a.kept) := by
  obtain ⟨gs, hset, hrewrites⟩ := FileSystem.setLength_rewrites hfile hkept
  simp only [rollBack]
  rw [hset]
  exact ⟨gs, rfl, hrewrites⟩

theorem blockOf_of_fits {h : Header} {d : Datum} (hfault : h.schema.fault d = none) :
    blockOf h d = .ok ((Block.ofDatum d).encode h) := by
  simp only [blockOf]
  rw [Datum.encode_eq_ok hfault]
  rfl

/-- A record that does not fit is turned away before anything is written. -/
theorem append_of_fault {a : Appender} {d : Datum} {fault : Schema.Fault}
    (hfault : a.header.schema.fault d = some fault) (fs : FileSystem) :
    append d (a, fs) = (.error (.mismatch (.values fault)), a, fs) := by
  simp only [append, blockOf, Datum.encode, hfault]

theorem append_cases {a : Appender} {fs : FileSystem} {content : Bytes}
    (hfile : fs.content? a.place = some content) (hkept : a.kept ≤ content.length) {d : Datum}
    (hfault : a.header.schema.fault d = none) :
    ∃ gs, (append d (a, fs) = (.ok (), { a with appended := a.appended + 1 }, gs)
        ∧ fs.Rewrites gs a.place (content ++ (Block.ofDatum d).encode a.header))
      ∨ ((∃ e, append d (a, fs) = (.error (.io e), { a with appended := 0 }, gs)) ∧ ¬fs.Quiet
        ∧ fs.Rewrites gs a.place (content.take a.kept)) := by
  obtain ⟨r, gs, n, happend, hrewrites, hall, hquiet⟩ :=
    FileSystem.append_rewrites hfile ((Block.ofDatum d).encode a.header)
  simp only [append, blockOf_of_fits hfault, happend]
  cases r with
  | ok u =>
    rw [hall rfl] at hrewrites
    exact ⟨gs, .inl ⟨rfl, hrewrites⟩⟩
  | error e =>
    have hkept' : a.kept ≤ (content ++ ((Block.ofDatum d).encode a.header).take n).length := by
      rw [List.length_append]
      exact Nat.le_trans hkept (Nat.le_add_right _ _)
    obtain ⟨hs, hback, hrewrites'⟩ := rollBack_spec hrewrites.content?_self hkept'
    rw [List.take_append_of_le_length hkept] at hrewrites'
    simp only [hback]
    exact ⟨hs, .inr ⟨⟨e, rfl⟩, fun h => (by cases hquiet h), hrewrites.trans hrewrites'⟩⟩

theorem close_cases {a : Appender} {fs : FileSystem} {content : Bytes}
    (hfile : fs.content? a.place = some content) (hkept : a.kept ≤ content.length) :
    ∃ gs, (a.close fs = (.ok (), gs) ∧ fs.Rewrites gs a.place content)
      ∨ ((∃ e, a.close fs = (.error (.io e), gs)) ∧ ¬fs.Quiet
        ∧ fs.Rewrites gs a.place (content.take a.kept)) := by
  obtain ⟨r, gs, hsync, hrewrites, hquiet⟩ := FileSystem.sync_rewrites hfile
  simp only [close]
  rw [hsync]
  cases r with
  | ok u => exact ⟨gs, .inl ⟨rfl, hrewrites⟩⟩
  | error e =>
    obtain ⟨hs, hback, hrewrites'⟩ := rollBack_spec hrewrites.content?_self hkept
    simp only [hback]
    exact ⟨hs, .inr ⟨⟨e, rfl⟩, fun h => (by cases hquiet h), hrewrites.trans hrewrites'⟩⟩

/-! ## Open appenders -/

/-- An open appender: the file is a whole log of records, and begins with what it was before. -/
structure Holds (schema : Schema) (allowed : Codec → Prop) (place : Place) (old : Bytes)
    (records : List Datum) (a : Appender) (fs : FileSystem) : Prop where
  place_eq : a.place = place
  fields : a.header.schema.fields = schema.fields
  codec : allowed a.header.codec ∧ allowed a.header.codec.stated
  file : ∃ content, fs.content? place = some content ∧ IsLog a.header.stated records content
    ∧ a.kept ≤ content.length ∧ content.take a.kept = old

/-- What an open appender has written is a whole log. -/
theorem Holds.keeps {a : Appender} {fs : FileSystem} (h : a.Holds schema allowed place old records fs) :
    ∃ content, fs.content? place = some content ∧ content ≠ []
      ∧ Log.Keeps schema allowed records content := by
  obtain ⟨-, hfields, hcodec, content, hfile, hl, -, -⟩ := h
  exact ⟨content, hfile, hl.ne_nil, .log (h := a.header.stated) hfields hcodec.2 hl⟩

/-- An appender does not notice what happens at other places. -/
theorem Holds.of_entry {a : Appender} {fs gs : FileSystem}
    (h : a.Holds schema allowed place old records fs) (hentry : gs.entry? place = fs.entry? place) :
    a.Holds schema allowed place old records gs := by
  obtain ⟨hplace, hfields, hcodec, content, hfile, hrest⟩ := h
  refine ⟨hplace, hfields, hcodec, content, FileSystem.content?_of_file ?_, hrest⟩
  rw [hentry]
  exact FileSystem.entry?_of_content? hfile

/-! ## Opening -/

theorem create_spec {fs : FileSystem} {path : Path} {header : Header}
    (hfile : fs.content? place = some []) (hw : header.Writable)
    (hfields : header.schema.fields = schema.fields)
    (hcodec : allowed header.codec ∧ allowed header.codec.stated) :
    ∃ r gs content, create path place header fs = (r, gs) ∧ fs.Rewrites gs place content
      ∧ (fs.Quiet → ∃ a, r = .ok a) ∧ (∀ a, r = .ok a → a.Holds schema allowed place [] [] gs)
      ∧ (∀ e, r = .error e → content = []) := by
  obtain ⟨gs, ⟨hcreate, hrewrites⟩ | ⟨⟨e, hcreate⟩, hloud, hrewrites⟩⟩ := create_cases path header hfile
  · refine ⟨_, gs, _, hcreate, hrewrites, fun _ => ⟨_, rfl⟩, ?_, nofun⟩
    rintro a ha
    cases ha
    exact ⟨rfl, hfields, hcodec,
      header.encode, hrewrites.content?_self, isLog_encode hw, Nat.zero_le _, rfl⟩
  · exact ⟨_, gs, [], hcreate, hrewrites, fun h => absurd h hloud, nofun, fun _ _ => rfl⟩

/-- A whole log is opened as it is. -/
theorem resume_eq {fs : FileSystem} {path : Path} {h : Header} {content body : Bytes}
    (hfields : h.schema.fields = schema.fields) (hwhole : looksWhole h body = true)
    (hlength : body.length ≤ content.length) :
    resume path place h content body schema fs
      = (.ok ⟨path, place, h, content.length, false, 0⟩, fs) := by
  simp only [resume]
  rw [Schema.difference_eq_none_iff.2 hfields]
  simp only [hwhole, if_true, keptOf]
  rw [Nat.sub_add_cancel hlength]

theorem open_of_looksWhole {fs : FileSystem} {path : Path} {h : Header} {content body : Bytes}
    (hread : Header.read content = (.ok h, body)) (hlength : body.length ≤ content.length)
    (hwhole : looksWhole h body = true) (hfields : h.schema.fields = schema.fields)
    (hfind : fs.findForFile path = .ok place) (hfile : fs.entry? place = some (.file content)) (codec : Codec)
    (marker : Marker) :
    «open» path schema codec marker fs = (.ok ⟨path, place, h, content.length, false, 0⟩, fs) := by
  have hopen : FileSystem.openFile path fs = (.ok (place, false), fs) := by
    simp only [FileSystem.openFile, hfind, hfile]
  have hne : content ≠ [] := by
    rintro rfl
    cases hread
  simp only [«open»]
  rw [hopen]
  simp only [FileSystem.content?_of_file hfile, Option.getD_some]
  rw [if_neg hne, hread]
  exact resume_eq hfields hwhole hlength

theorem open_whole {fs : FileSystem} {path : Path} {h : Header} {content : Bytes} (hl : IsLog h records content)
    (hfields : h.schema.fields = schema.fields) (hfind : fs.findForFile path = .ok place)
    (hfile : fs.entry? place = some (.file content)) (codec : Codec) (marker : Marker) :
    «open» path schema codec marker fs = (.ok ⟨path, place, h, content.length, false, 0⟩, fs) := by
  obtain ⟨body, hread, hlength, hwhole, _⟩ := hl.exists_body
  exact open_of_looksWhole hread hlength hwhole hfields hfind hfile codec marker

/-- Opening leaves a whole log, or, if it fails, what there was. -/
theorem open_spec {fs : FileSystem} {path : Path} {codec : Codec} {marker : Marker}
    (hfind : fs.findForFile path = .ok place) (hentry : fs.entry? place ≠ some .directory)
    (hold : (fs.content? place).getD [] = old) (hkeeps : Log.Keeps schema allowed records old)
    (hcodec : allowed codec ∧ allowed codec.stated)
    (hw : (Header.new schema codec marker).Writable) :
    ∃ r gs content, «open» path schema codec marker fs = (r, gs) ∧ fs.Rewrites gs place content
      ∧ (fs.Quiet → ∃ a, r = .ok a) ∧ (∀ a, r = .ok a → a.Holds schema allowed place old records gs)
      ∧ (∀ e, r = .error e → content = old) := by
  obtain ⟨made, gs, hopen, hrewrites⟩ := FileSystem.openFile_rewrites hfind hentry
  rw [hold] at hrewrites
  have hfile := hrewrites.content?_self
  simp only [«open»]
  rw [hopen]
  simp only [hfile, Option.getD_some]
  by_cases hne : old = []
  · subst hne
    rw [if_pos rfl]
    have hrecords : records = [] := by
      cases hkeeps with
      | nothing => rfl
      | log _ _ hl => exact absurd rfl hl.ne_nil
    subst hrecords
    obtain ⟨r, hs, content, hcreate, hrewrites', hquiet, hok, herror⟩ :=
      create_spec hfile hw rfl hcodec
    exact ⟨r, hs, content, hcreate, hrewrites.trans hrewrites',
      fun h => hquiet (h.rewrites hrewrites), hok, herror⟩
  · rw [if_neg hne]
    obtain ⟨h, hfields, hallowed, hl⟩ := hkeeps.isLog hne
    obtain ⟨body, hread, hlength, hwhole, _⟩ := hl.exists_body
    rw [hread]
    simp only [resume_eq hfields hwhole hlength]
    refine ⟨_, gs, old, rfl, hrewrites, fun _ => ⟨_, rfl⟩, ?_, nofun⟩
    rintro a ha
    cases ha
    have hcodecs : allowed h.codec ∧ allowed h.codec.stated := by
      refine ⟨hallowed, ?_⟩
      rw [show h.codec.stated = h.codec from congrArg Header.codec hl.stated]
      exact hallowed
    refine ⟨rfl, hfields, hcodecs, old, hfile, ?_, Nat.le_refl _, List.take_length⟩
    rw [hl.stated]
    exact hl

/-! ## Appending and closing -/

theorem append_spec {a : Appender} {fs : FileSystem} (hholds : a.Holds schema allowed place old records fs)
    {d : Datum} (hfault : schema.fault d = none) (hcarries : ∀ codec, allowed codec → codec.Carries d.bytes) :
    ∃ r a' gs content, append d (a, fs) = (r, a', gs) ∧ fs.Rewrites gs place content
      ∧ (fs.Quiet → r = .ok ())
      ∧ (r = .ok () → a'.Holds schema allowed place old (records ++ [d]) gs)
      ∧ (∀ e, r = .error e → content = old) := by
  obtain ⟨rfl, hfields, hcodec, before, hfile, hl, hkept, htake⟩ := hholds
  have hfault' : a.header.schema.fault d = none := Schema.fault_eq_none_of_fields hfields hfault
  obtain ⟨gs, ⟨happend, hrewrites⟩ | ⟨⟨e, happend⟩, hloud, hrewrites⟩⟩ := append_cases hfile hkept hfault'
  · have hl' := hl.concat hfault' (hcarries _ hcodec.1)
    refine ⟨_, _, gs, _, happend, hrewrites, fun _ => rfl, fun _ => ?_, nofun⟩
    refine ⟨rfl, hfields, hcodec, _, hrewrites.content?_self, hl', ?_, ?_⟩
    · -- What was there at the beginning is still in front.
      rw [List.length_append]
      exact Nat.le_trans hkept (Nat.le_add_right _ _)
    · rw [List.take_append_of_le_length hkept]
      exact htake
  · exact ⟨_, _, gs, _, happend, hrewrites, fun h => absurd h hloud, nofun, fun _ _ => htake⟩

/-- Closing keeps all records, or, if it fails, leaves what there was when the log was opened. -/
theorem close_spec {a : Appender} {fs : FileSystem}
    (hholds : a.Holds schema allowed place old records fs) :
    ∃ r gs content, a.close fs = (r, gs) ∧ fs.Rewrites gs place content ∧ (fs.Quiet → r = .ok ())
      ∧ (r = .ok () → Log.Keeps schema allowed records content ∧ content ≠ [])
      ∧ (∀ e, r = .error e → content = old) := by
  obtain ⟨rfl, hfields, hcodec, before, hfile, hl, hkept, htake⟩ := hholds
  obtain ⟨gs, ⟨hclose, hrewrites⟩ | ⟨⟨e, hclose⟩, hloud, hrewrites⟩⟩ := close_cases hfile hkept
  · exact ⟨_, gs, before, hclose, hrewrites, fun _ => rfl,
      fun _ => ⟨.log (h := a.header.stated) hfields hcodec.2 hl, hl.ne_nil⟩, nofun⟩
  · exact ⟨_, gs, _, hclose, hrewrites, fun h => absurd h hloud, nofun, fun _ _ => htake⟩

end DeviceLog.Appender
