import DeviceLog.Proofs.Log.Handle

/-! # Opening a log again

Whatever a file held, once it has been opened it is a log that looks whole: a new header, what was there,
or what was left of it after the end had been cut off. Such a log is opened as it is.

* `Appender.Opens.released`: an appender that has appended nothing leaves the file to the next one.
* `Appender.open_again`: the second opening changes nothing, and finds the header of the first.
-/

namespace DeviceLog.Appender

variable {schema schema' : Schema} {codec : Codec} {marker : Marker} {path : Path} {a : Appender}
  {fs gs hs : FileSystem} {start : Bytes}

/-- An appender that has appended nothing may be dropped or closed, and the file stays. Only a header that
was just written goes if the flush fails. -/
theorem Opens.released {content : Bytes} (hopens : Opens path schema codec marker a.place content (.ok a) start)
    (hstart : gs.content? a.place = some start)
    (hrelease : hs = gs ∨ ∃ r, a.close gs = (r, hs) ∧ (r = .ok () ∨ a.created = false)) :
    gs.Rewrites hs a.place start := by
  rcases hrelease with rfl | ⟨r, hclose, hsound⟩
  · exact .refl hstart
  · obtain ⟨hs', ⟨hclose', hrewrites⟩ | ⟨⟨e, hclose'⟩, -, hrewrites⟩⟩ := close_cases hstart hopens.kept_le
    · rw [hclose] at hclose'
      cases hclose'
      exact hrewrites
    · rw [hclose] at hclose'
      cases hclose'
      have hcreated : a.created = false := hsound.resolve_left nofun
      rwa [hopens.take_kept, hcreated] at hrewrites

/-- A log that has been opened and given up is opened again with the same fields. The second opening leaves
the whole file system as it is, makes nothing, and finds the header of the first one, but for the level of
the codec, which is not stated. -/
theorem open_again (hopen : «open» path schema codec marker fs = (.ok a, gs))
    (hlength : (Header.new schema codec marker).encode.length < 2 ^ 63)
    (hrelease : hs = gs ∨ ∃ r, a.close gs = (r, hs) ∧ (r = .ok () ∨ a.created = false))
    (hfields : schema'.fields = schema.fields) (codec' : Codec) (marker' : Marker) :
    ∃ b content, «open» path schema' codec' marker' hs = (.ok b, hs) ∧ b.created = false
      ∧ b.header = a.header.stated ∧ b.kept = content.length
      ∧ gs.read path = .ok content ∧ hs.read path = .ok content := by
  obtain ⟨start, -, hrewrites, hfind, hopens⟩ := exists_opens hopen
  have hstart := hrewrites.content?_self
  have hplace := FileSystem.ne_directory_of_content? hstart
  have hreleased := hopens.released hstart hrelease
  have hfind' := (hreleased.grows hplace).find hfind
  have hfile' := FileSystem.entry?_of_content? hreleased.content?_self
  obtain ⟨body, hread, hsame, hlooks⟩ := hopens.reads_whole (Header.writable_new hlength)
  have hagain := open_of_looksWhole hread (length_le_of_read hread) hlooks (hsame.trans hfields.symm)
    (FileSystem.findForFile_of_find hfind' hfile') hfile' codec' marker'
  exact ⟨_, start, hagain, rfl, rfl, rfl,
    FileSystem.read_of_content? hfind hstart, hreleased.read hfind hplace⟩

/-- Ten bytes of a header are opened as a new log of deflate streams. When it has been closed it is opened as
it is, also for a schema of another name and another codec. -/
theorem open_again_cutLog : ∃ a gs hs,
    («open» ⟨"log"⟩ DeviceRecord.schema (.deflate 9) (.numbered 1) (cutLog 10) = (.ok a, gs)
      ∧ (Header.new DeviceRecord.schema (.deflate 9) (.numbered 1)).encode.length < 2 ^ 63
      ∧ a.close gs = (.ok (), hs)
      ∧ { DeviceRecord.schema with name := "Renamed" }.fields = DeviceRecord.schema.fields)
    ∧ a.created = true ∧ ∃ b,
      «open» ⟨"log"⟩ { DeviceRecord.schema with name := "Renamed" } .null (.numbered 2) hs = (.ok b, hs)
      ∧ b.created = false ∧ b.header = (Header.new DeviceRecord.schema (.deflate 9) (.numbered 1)).stated := by
  have hcut : 10 < plainHeader.encode.length := by
    have hmarker : plainHeader.marker.bytes.length = 16 := plainHeader.marker.length_eq
    rw [Header.encode, List.length_append]
    omega
  have hquiet : (cutLog 10).Quiet := ⟨rfl, fun _ hfate => (by cases hfate)⟩
  have hlength := (DeviceRecord.writable_header (.deflate 9) (.numbered 1)).length_lt
  obtain ⟨gs, hopen, hrewrites⟩ :
      ∃ gs, «open» ⟨"log"⟩ DeviceRecord.schema (.deflate 9) (.numbered 1) (cutLog 10)
        = (.ok ⟨⟨"log"⟩, ["log"], .new DeviceRecord.schema (.deflate 9) (.numbered 1), 0, true, 0⟩, gs)
      ∧ (cutLog 10).Rewrites gs ["log"] (Header.new DeviceRecord.schema (.deflate 9) (.numbered 1)).encode :=
    open_cut_header logs_plain hcut rfl rfl hquiet (.deflate 9) (.numbered 1)
  obtain ⟨hs, ⟨hclose, -⟩ | ⟨-, hloud, -⟩⟩ :=
    close_cases (a := ⟨⟨"log"⟩, ["log"], .new DeviceRecord.schema (.deflate 9) (.numbered 1), 0, true, 0⟩)
      hrewrites.content?_self (Nat.zero_le _)
  · obtain ⟨b, -, hagain, hcreated, hheader, -⟩ := open_again hopen hlength (.inr ⟨_, hclose, .inl rfl⟩)
      (rfl : { DeviceRecord.schema with name := "Renamed" }.fields = _) .null (.numbered 2)
    exact ⟨_, gs, hs, ⟨hopen, hlength, hclose, rfl⟩, rfl, b, hagain, hcreated, hheader⟩
  · exact absurd (hquiet.rewrites hrewrites) hloud

end DeviceLog.Appender
