import DeviceLog.Proofs.Log.Handle
import DeviceLog.Proofs.Store.Runs

/-! # What a save comes to

The file of a partition may hold anything when a record is saved to it, and writes may fail.

* `Store.Kept` lists what may come of keeping a record, with the answer and what the file holds
  afterwards. `Store.exists_keep` says that there is nothing else.
* `Store.exists_save` says so of a whole save: of all files only the log may change.
-/

namespace DeviceLog.Store

open FileSystem

variable {s : Store} {marker : Marker} {path : Path} {place : Place} {record : DeviceRecord} {u : StateUpdate}
  {fs gs : FileSystem} {content : Bytes}

/-- What keeping a record comes to: the answer, and what the file holds afterwards. -/
inductive Kept (s : Store) (marker : Marker) (path : Path) (place : Place) (record : DeviceRecord)
    (content : Bytes) : Except LogError Unit → Bytes → Prop
  | kept {a : Appender} {start : Bytes} :
      Appender.Opens path DeviceRecord.schema s.codec marker place content (.ok a) start →
      Kept s marker path place record content (.ok ()) (start ++ (Block.ofDatum record.toDatum).encode a.header)
  | unopened {e : LogError} {after : Bytes} :
      Appender.Opens path DeviceRecord.schema s.codec marker place content (.error e) after →
      Kept s marker path place record content (.error e) after
  | takenBack {a : Appender} {start : Bytes} (e : IoError) :
      Appender.Opens path DeviceRecord.schema s.codec marker place content (.ok a) start →
      Kept s marker path place record content (.error (.io e)) (start.take a.kept)

/-- An open log is closed with one more block, or it is taken back. -/
theorem appendAndClose_cases {a : Appender} {start : Bytes} (hfile : fs.content? a.place = some start)
    (hkept : a.kept ≤ start.length) (hfault : a.header.schema.fault record.toDatum = none) :
    ∃ gs, (appendAndClose record a fs = (.ok (), gs)
        ∧ fs.Rewrites gs a.place (start ++ (Block.ofDatum record.toDatum).encode a.header))
      ∨ ((∃ e, appendAndClose record a fs = (.error (.io e), gs)) ∧ ¬fs.Quiet
        ∧ fs.Rewrites gs a.place (start.take a.kept)) := by
  obtain ⟨hs, ⟨happend, hrewrites⟩ | ⟨⟨e, happend⟩, hloud, hrewrites⟩⟩ :=
    Appender.append_cases hfile hkept hfault
  · have hlength : a.kept ≤ (start ++ (Block.ofDatum record.toDatum).encode a.header).length := by
      rw [List.length_append]
      exact Nat.le_trans hkept (Nat.le_add_right _ _)
    obtain ⟨gs, ⟨hclose, hrewrites'⟩ | ⟨⟨e, hclose⟩, hloud, hrewrites'⟩⟩ :=
      Appender.close_cases (a := { a with appended := a.appended + 1 }) hrewrites.content?_self hlength
    · refine ⟨gs, .inl ⟨?_, hrewrites.trans hrewrites'⟩⟩
      simp only [appendAndClose, happend, hclose]
    · -- The block goes again.
      rw [List.take_append_of_le_length hkept] at hrewrites'
      refine ⟨gs, .inr ⟨⟨e, ?_⟩, fun h => hloud (h.rewrites hrewrites), hrewrites.trans hrewrites'⟩⟩
      simp only [appendAndClose, happend, hclose]
  · refine ⟨hs, .inr ⟨⟨e, ?_⟩, hloud, hrewrites⟩⟩
    simp only [appendAndClose, happend]

theorem exists_keep (s : Store) (marker : Marker) (record : DeviceRecord)
    (hfind : fs.findForFile path = .ok place) (hentry : fs.entry? place ≠ some .directory)
    (hcontent : (fs.content? place).getD [] = content) :
    ∃ r gs after, s.keep marker path record fs = (r, gs) ∧ fs.Rewrites gs place after
      ∧ Kept s marker path place record content r after
      ∧ (fs.Quiet → ∀ e, r = .error e →
        Appender.Opens path DeviceRecord.schema s.codec marker place content (.error e) after) := by
  obtain ⟨r, hs, start, hopen, hrewrites, hopens⟩ :=
    Appender.exists_open DeviceRecord.schema s.codec marker hfind hentry hcontent
  simp only [keep]
  cases r with
  | error e =>
    rw [Action.bind_of_error hopen]
    refine ⟨_, hs, start, rfl, hrewrites, .unopened hopens, fun _ e' he => ?_⟩
    cases he
    exact hopens
  | ok a =>
    rw [Action.bind_of_ok hopen]
    have ho := hopens.opened (DeviceRecord.writable_header s.codec marker)
    obtain rfl := ho.place_eq
    have hfault := Schema.fault_eq_none_of_fields ho.fields record.fault_toDatum
    obtain ⟨gs, ⟨hclose, hrewrites'⟩ | ⟨⟨e, hclose⟩, hloud, hrewrites'⟩⟩ :=
      appendAndClose_cases hrewrites.content?_self ho.kept_le hfault
    · refine ⟨_, gs, _, hclose, hrewrites.trans hrewrites', .kept hopens, fun _ e he => ?_⟩
      cases he
    · exact ⟨_, gs, _, hclose, hrewrites.trans hrewrites', .takenBack e hopens,
        fun hquiet => absurd (hquiet.rewrites hrewrites) hloud⟩

/-- The bytes of the log of a partition; there are none where there is no file. -/
def contentAt (fs : FileSystem) (root : Path) (k : PartitionKey) : Bytes :=
  (fs.content? (logPlace fs root k)).getD []

theorem contentAt_of_content? {root : Path} {k : PartitionKey}
    (h : fs.content? (logPlace fs root k) = some content) : contentAt fs root k = content := by
  simp only [contentAt, h, Option.getD_some]

/-- What a save comes to. It fails before the log is opened and leaves all files as they are, or it changes
at most the log of its partition. -/
inductive Saved (s : Store) (marker : Marker) (u : StateUpdate) (instant : Instant) (fs : FileSystem) :
    Except StoreError Unit → FileSystem → Prop
  | refused {e : StoreError} {gs : FileSystem} :
      (∀ place, gs.content? place = fs.content? place) → Saved s marker u instant fs (.error e) gs
  | tried {record : DeviceRecord} {r : Except LogError Unit} {gs : FileSystem} {after : Bytes} :
      recordOf u = .ok record →
      gs.find (s.pathOf (u.key instant)) = .ok (logPlace fs s.root (u.key instant)) →
      (∀ place, gs.content? place
        = if place = logPlace fs s.root (u.key instant) then some after else fs.content? place) →
      Kept s marker (s.pathOf (u.key instant)) (logPlace fs s.root (u.key instant)) record
        (contentAt fs s.root (u.key instant)) r after →
      Saved s marker u instant fs (r.mapError .log) gs

theorem exists_save (s : Store) (marker : Marker) (u : StateUpdate) (instant : Instant) (fs : FileSystem) :
    ∃ r gs, s.save marker u instant fs = (r, gs) ∧ Saved s marker u instant fs r gs := by
  obtain ⟨r, hs, hprepare, hmade, hok⟩ := s.prepare_cases u instant fs
  have hsame : fs.Grows hs ∧ ∀ place, hs.content? place = fs.content? place := by
    cases hmade with
    | inl heq =>
      rw [heq]
      exact ⟨.refl fs, fun _ => rfl⟩
    | inr hmakes => exact ⟨hmakes.2.grows, hmakes.2.content?_eq⟩
  obtain ⟨hgrows, hcontent⟩ := hsame
  cases r with
  | error e =>
    have hsave : s.save marker u instant fs = (.error e, hs) := Action.bind_of_error hprepare
    exact ⟨_, hs, hsave, .refused hcontent⟩
  | ok found =>
    obtain ⟨record, path⟩ := found
    obtain ⟨hrecord, rfl⟩ := hok record path rfl
    have hk := ((recordOf_eq_ok_iff instant).1 hrecord).1
    have hfindForFile : hs.findForFile ((u.key instant).pathUnder s.root) = _ :=
      findForFile_pathUnder hk hs s.root
    by_cases hopened : ∃ place, hs.find ((u.key instant).pathUnder s.root) = .ok place
        ∧ hs.entry? place ≠ some .directory
    · obtain ⟨place, hfind, hentry⟩ := hopened
      rw [hfind] at hfindForFile
      obtain ⟨r, gs, after, hkeep, hrewrites, hkept, -⟩ := s.exists_keep marker record hfindForFile hentry rfl
      -- Where the log is does not depend on the directories.
      obtain rfl : place = logPlace fs s.root (u.key instant) := by
        rw [eq_logPlace_of_find hk hfind, logPlace_of_grows hgrows]
      rw [hcontent] at hkept
      refine ⟨_, gs, save_of_keep hprepare hkeep, .tried hrecord ((hrewrites.grows hentry).find hfind) ?_ hkept⟩
      intro other
      rw [← hcontent, hrewrites.content?_eq]
    · have hnowhere : ∀ place, hs.findForFile ((u.key instant).pathUnder s.root) = .ok place →
          hs.entry? place = some .directory := by
        intro place hplace
        rw [hfindForFile] at hplace
        exact Classical.byContradiction fun hentry => hopened ⟨place, hplace, hentry⟩
      obtain ⟨e, hkeep⟩ := exists_keep_refused s marker record hnowhere
      exact ⟨_, hs, save_of_keep hprepare hkeep, .refused hcontent⟩

theorem Saved.exists_kept {instant : Instant} (h : Saved s marker u instant fs (.ok ()) gs) :
    ∃ record a start, recordOf u = .ok record
      ∧ gs.find (s.pathOf (u.key instant)) = .ok (logPlace fs s.root (u.key instant))
      ∧ Appender.Opens (s.pathOf (u.key instant)) DeviceRecord.schema s.codec marker
        (logPlace fs s.root (u.key instant)) (contentAt fs s.root (u.key instant)) (.ok a) start
      ∧ gs.content? (logPlace fs s.root (u.key instant))
        = some (start ++ (Block.ofDatum record.toDatum).encode a.header) := by
  generalize hr : Except.ok () = r at h
  cases h with
  | refused => cases hr
  | tried hrecord hfind hcontent hkept =>
    cases hkept with
    | kept hopens => exact ⟨_, _, _, hrecord, hfind, hopens, by rw [hcontent, if_pos rfl]⟩
    | unopened => cases hr
    | takenBack => cases hr

/-! ## A store with one log -/

/-- The place of a log below a store. -/
def plainPlace : Place := ["store", "ns", "dev", "1970-01-01", "0", "device_state_dev.avro"]

/-- A store in which that log is the only one. -/
def storeOf (content : Bytes) (fates : List Fate) : FileSystem where
  entries := [(["store"], .directory), (["store", "ns"], .directory), (["store", "ns", "dev"], .directory),
    (["store", "ns", "dev", "1970-01-01"], .directory), (["store", "ns", "dev", "1970-01-01", "0"], .directory),
    (plainPlace, .file content)]
  fates := fates

theorem contentAt_storeOf (content : Bytes) (fates : List Fate) :
    contentAt (storeOf content fates) ⟨"store"⟩ SaveCall.firstCall.key = content := rfl

/-- The header that the log of that store is continued with. -/
theorem headerFor_plain (body : Bytes) (codec : Codec) (marker : Marker) :
    Appender.headerFor DeviceRecord.schema codec marker (Appender.plainHeader.encode ++ body)
      = Appender.plainHeader.stated :=
  Appender.headerFor_of_read ((Header.reads_encode Appender.logs_plain.writable).whole body)

/-- A log with a header for device records takes a record, if no write fails. -/
theorem exists_save_storeOf {h : Header} {body : Bytes} (hread : Header.read content = (.ok h, body))
    (hfields : h.schema.fields = DeviceRecord.schema.fields) (codec : Codec) (marker : Marker) :
    ∃ gs, (Store.mk ⟨"store"⟩ codec).save marker SaveCall.firstCall.update SaveCall.firstCall.instant
      (storeOf content []) = (.ok (), gs) := by
  have hmake : makeDirectories (SaveCall.firstCall.key.directoryUnder ⟨"store"⟩) (storeOf content [])
      = (.ok (), storeOf content []) := rfl
  have hprepare : (Store.mk ⟨"store"⟩ codec).prepare SaveCall.firstCall.update SaveCall.firstCall.instant
      (storeOf content [])
        = (.ok (⟨"dev", 1, "ns", "", ""⟩, SaveCall.firstCall.key.pathUnder ⟨"store"⟩), storeOf content []) :=
    prepare_of_ok rfl hmake
  have hfind : (storeOf content []).findForFile (SaveCall.firstCall.key.pathUnder ⟨"store"⟩)
      = .ok plainPlace := rfl
  have hfile : entry? (storeOf content []) plainPlace = some (.file content) := rfl
  obtain ⟨r, gs, after, hkeep, -, -, hquiet⟩ := (Store.mk ⟨"store"⟩ codec).exists_keep marker
    ⟨"dev", 1, "ns", "", ""⟩ hfind (by rw [hfile]; simp) rfl
  cases r with
  | ok _ => exact ⟨gs, save_of_keep hprepare hkeep⟩
  | error e =>
    have hopens := hquiet ⟨rfl, nofun⟩ e rfl
    cases (hopens.eq_of_read hread hfields rfl).1

theorem carries_firstCall (body : Bytes) (codec : Codec) (marker : Marker) {record : DeviceRecord}
    (h : recordOf SaveCall.firstCall.update = .ok record) :
    (Appender.headerFor DeviceRecord.schema codec marker (Appender.plainHeader.encode ++ body)).codec.Carries
      record.toDatum.bytes := by
  cases h
  rw [headerFor_plain]
  apply Codec.carries_null
  exact Nat.lt_of_le_of_lt (DeviceRecord.length_bytes_le _) (by decide)

end DeviceLog.Store
