import DeviceLog.Proofs.Log.Appender
import DeviceLog.Proofs.Log.Records
import DeviceLog.Store.Basic

/-! # Keeping and reading the records of one log

* `Store.keep_spec`: the three steps of an appender together leave one record more, or what there was
  before.
* `recordsAt_of_datums`, `recordsAt_of_refused`, `recordsAt_of_none` and `recordsAt_of_empty`: what reading
  the log gives.
-/

namespace DeviceLog.Store

variable {allowed : Codec → Prop} {place : Place} {old : Bytes} {records : List DeviceRecord}

/-- Where no file can be there, no record is kept, and nothing changes. -/
theorem exists_keep_refused (s : Store) (marker : Marker) {path : Path} (record : DeviceRecord)
    {fs : FileSystem} (h : ∀ place, fs.findForFile path = .ok place → fs.entry? place = some .directory) :
    ∃ e, s.keep marker path record fs = (.error e, fs) := by
  have hopenFile : ∃ e, FileSystem.openFile path fs = (.error e, fs) := by
    simp only [FileSystem.openFile]
    cases hfind : fs.findForFile path with
    | error e => exact ⟨e, rfl⟩
    | ok place =>
      simp only [h place hfind]
      exact ⟨_, rfl⟩
  obtain ⟨e, he⟩ := hopenFile
  have hopen : Appender.open path DeviceRecord.schema s.codec marker fs = (.error (.io e), fs) := by
    simp only [Appender.open, he]
  exact ⟨.io e, Action.bind_of_error hopen⟩

/-- Keeping a record leaves it at the end of the log, or, if it fails, what there was. -/
theorem keep_spec {s : Store} {fs : FileSystem} {marker : Marker} {path : Path} {record : DeviceRecord}
    (hfind : fs.findForFile path = .ok place) (hentry : fs.entry? place ≠ some .directory)
    (hold : (fs.content? place).getD [] = old)
    (hkeeps : Log.Keeps DeviceRecord.schema allowed (records.map DeviceRecord.toDatum) old)
    (hcodec : allowed s.codec ∧ allowed s.codec.stated)
    (hcarries : ∀ codec, allowed codec → codec.Carries record.toDatum.bytes) :
    ∃ r gs content, s.keep marker path record fs = (r, gs) ∧ fs.Rewrites gs place content
      ∧ (fs.Quiet → r = .ok ())
      ∧ (r = .ok () → content ≠ []
        ∧ Log.Keeps DeviceRecord.schema allowed ((records ++ [record]).map DeviceRecord.toDatum) content)
      ∧ (∀ e, r = .error e → content = old) := by
  obtain ⟨r₁, fs₁, content₁, hopen, hrewrites₁, hquiet₁, hok₁, herror₁⟩ :=
    Appender.open_spec hfind hentry hold hkeeps hcodec (DeviceRecord.writable_header s.codec marker)
  simp only [keep]
  cases r₁ with
  | error e =>
    rw [Action.bind_of_error hopen]
    refine ⟨_, fs₁, content₁, rfl, hrewrites₁, fun h => ?_, nofun, fun _ _ => herror₁ e rfl⟩
    obtain ⟨a, ha⟩ := hquiet₁ h
    cases ha
  | ok a =>
    obtain ⟨r₂, a₂, fs₂, content₂, happend, hrewrites₂, hquiet₂, hok₂, herror₂⟩ :=
      Appender.append_spec (hok₁ a rfl) record.fault_toDatum hcarries
    rw [Action.bind_of_ok hopen]
    simp only [appendAndClose]
    rw [happend]
    -- A block that cannot be written is rolled back before the error is passed on.
    cases r₂ with
    | error e =>
      refine ⟨_, fs₂, content₂, rfl, hrewrites₁.trans hrewrites₂, fun h => ?_, nofun,
        fun _ _ => herror₂ e rfl⟩
      cases hquiet₂ (h.rewrites hrewrites₁)
    | ok u =>
      obtain ⟨r₃, fs₃, content₃, hclose, hrewrites₃, hquiet₃, hok₃, herror₃⟩ :=
        Appender.close_spec (hok₂ rfl)
      refine ⟨r₃, fs₃, content₃, hclose, (hrewrites₁.trans hrewrites₂).trans hrewrites₃, fun h => ?_,
        fun h => ?_, herror₃⟩
      · exact hquiet₃ ((h.rewrites hrewrites₁).rewrites hrewrites₂)
      · obtain ⟨hk, hne⟩ := hok₃ h
        rw [List.map_append]
        exact ⟨hne, hk⟩

/-! ## Reading -/

theorem recordsAt_of_error {fs : FileSystem} {path : Path} {e : IoError} (h : fs.find path = .error e) :
    recordsAt fs path = .ok [] := by
  unfold recordsAt FileSystem.exists? FileSystem.at?
  rw [h]
  rfl

theorem recordsAt_of_none {fs : FileSystem} {path : Path} (hfind : fs.find path = .ok place)
    (h : fs.entry? place = none) : recordsAt fs path = .ok [] := by
  unfold recordsAt FileSystem.exists? FileSystem.at?
  rw [hfind]
  simp [h]

theorem recordsAt_of_file {fs : FileSystem} {path : Path} {content : Bytes}
    (hfind : fs.find path = .ok place) (h : fs.entry? place = some (.file content)) :
    recordsAt fs path = Contents.load fs path >>= Contents.records := by
  have hexists : fs.exists? path = true := by
    simp [FileSystem.exists?, FileSystem.at?, hfind, h]
  rw [recordsAt, if_pos hexists]

/-- A file that is empty is no log. -/
theorem recordsAt_of_empty {fs : FileSystem} {path : Path} (hfind : fs.find path = .ok place)
    (h : fs.entry? place = some (.file [])) : recordsAt fs path = .error (.corrupt .endOfData) := by
  have hread : Header.read [] = (.error .endOfData, []) := rfl
  rw [recordsAt_of_file hfind h, Contents.load_of_error hfind h hread]
  rfl

theorem recordsAt_of_datums {fs : FileSystem} {path : Path} {content body : Bytes} {h : Header}
    (hfind : fs.find path = .ok place) (hfile : fs.entry? place = some (.file content))
    (hread : Header.read content = (.ok h, body)) (hfields : h.schema.fields = DeviceRecord.schema.fields)
    (hdatums : h.datums body = .ok (records.map DeviceRecord.toDatum)) : recordsAt fs path = .ok records := by
  have hvalues : Contents.values ⟨path, h, body⟩ = .ok _ := Contents.values_eq_ok_iff.2 hdatums
  rw [recordsAt_of_file hfind hfile, Contents.load_of_read hfind hfile hread]
  show Contents.records ⟨path, h, body⟩ = .ok records
  rw [Contents.records_of_fields hfields, hvalues]
  exact Contents.mapM_deviceRecord records

/-- One block that cannot be read is enough. -/
theorem recordsAt_of_refused {fs : FileSystem} {path : Path} {content body : Bytes} {h : Header}
    {e : FormatError} (hfind : fs.find path = .ok place) (hfile : fs.entry? place = some (.file content))
    (hread : Header.read content = (.ok h, body)) (hfields : h.schema.fields = DeviceRecord.schema.fields)
    (hdatums : h.datums body = .error e) : recordsAt fs path = .error (.corrupt e) := by
  have hvalues : Contents.values ⟨path, h, body⟩ = .error (.corrupt e) := by
    simp only [Contents.values, hdatums]
  rw [recordsAt_of_file hfind hfile, Contents.load_of_read hfind hfile hread]
  show Contents.records ⟨path, h, body⟩ = .error (.corrupt e)
  rw [Contents.records_of_fields hfields, hvalues]
  rfl

theorem recordsAt_of_isLog {fs : FileSystem} {path : Path} {content : Bytes} {header : Header}
    (hfind : fs.find path = .ok place) (h : fs.entry? place = some (.file content))
    (hfields : header.schema.fields = DeviceRecord.schema.fields)
    (hl : IsLog header (records.map DeviceRecord.toDatum) content) :
    recordsAt fs path = .ok records := by
  obtain ⟨body, hread, -, -, hdatums⟩ := hl.exists_body
  exact recordsAt_of_datums hfind h hread hfields hdatums

end DeviceLog.Store
