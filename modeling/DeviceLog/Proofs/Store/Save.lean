import DeviceLog.Proofs.Store.Invariant

/-! # What a save does

* `Store.prepare_cases` and `Store.prepare_spec`: the checks and the directories of a save leave all
  files and all records as they are.
* `Store.keep_holds`: appending adds one record to one partition, or leaves all as it was.
* `Store.save_spec` is both together, whatever fails.
-/

namespace DeviceLog

def StateUpdate.key (u : StateUpdate) (instant : Instant) : PartitionKey :=
  .of u.namespaceId u.deviceId instant

namespace Action

variable {ε ε' σ α : Type} {f : ε → ε'} {p : Action ε σ α} {s t : σ}

theorem mapError_of_ok {a : α} (h : p s = (.ok a, t)) : p.mapError f s = (.ok a, t) := by
  simp only [mapError]
  rw [h]

theorem mapError_of_error {e : ε} (h : p s = (.error e, t)) : p.mapError f s = (.error (f e), t) := by
  simp only [mapError]
  rw [h]

end Action

namespace Store

open FileSystem

variable {root : Path} {allowed : Codec → Prop} {fs : FileSystem}
  {records : PartitionKey → List DeviceRecord} {s : Store} {u : StateUpdate}

/-! ## Checks -/

/-- Ids are checked for the partition that they name. -/
theorem checkIds_eq_ok_iff {namespaceId deviceId : String} (instant : Instant) :
    checkIds namespaceId deviceId = .ok () ↔ (PartitionKey.of namespaceId deviceId instant).Valid := by
  simp only [checkIds]
  constructor
  · intro h
    split at h
    · cases h
    · rename_i hnamespace
      split at h
      · cases h
      · rename_i hdevice
        exact ⟨hnamespace, hdevice⟩
  · rintro ⟨hnamespace, hdevice⟩
    rw [show IdKind.namespaceId.check namespaceId = .ok () from hnamespace,
      show IdKind.deviceId.check deviceId = .ok () from hdevice]

theorem recordOf_eq_ok_iff {record : DeviceRecord} (instant : Instant) :
    recordOf u = .ok record ↔ (u.key instant).Valid ∧ DeviceRecord.ofUpdate u = .ok record := by
  rw [StateUpdate.key, ← checkIds_eq_ok_iff]
  simp only [recordOf]
  cases hids : checkIds u.namespaceId u.deviceId with
  | error e => simp
  | ok _ =>
    cases hrecord : DeviceRecord.ofUpdate u with
    | error e => simp
    | ok r => simp

/-- A partition is read as its records, unless its log is an empty file. -/
theorem Holds.read_eq (h : Holds s.root allowed fs records) {namespaceId deviceId : String}
    (instant : Instant) (hids : checkIds namespaceId deviceId = .ok ()) :
    s.read namespaceId deviceId instant fs
      = if fs.entry? (logPlace fs s.root (.of namespaceId deviceId instant)) = some (.file [])
        then .error (.log (.corrupt .endOfData))
        else .ok (records (.of namespaceId deviceId instant)) := by
  simp only [Store.read, hids, pathOf, h.recordsAt_eq ((checkIds_eq_ok_iff instant).1 hids)]
  by_cases hempty : fs.entry? (logPlace fs s.root (.of namespaceId deviceId instant)) = some (.file [])
  · rw [if_pos hempty, if_pos hempty]
  · rw [if_neg hempty, if_neg hempty]

/-! ## Preparing -/

theorem resolve_of_ok {k : PartitionKey} {gs : FileSystem}
    (h : makeDirectories (k.directoryUnder s.root) fs = (.ok (), gs)) :
    s.resolve k fs = (.ok (k.pathUnder s.root), gs) := by
  unfold resolve
  simp only [h]
  rfl

theorem resolve_of_error {k : PartitionKey} {gs : FileSystem} {e : IoError}
    (h : makeDirectories (k.directoryUnder s.root) fs = (.error e, gs)) :
    s.resolve k fs = (.error (.directory (k.directoryUnder s.root) e), gs) := by
  unfold resolve
  simp only [h]

theorem prepare_of_ok {record : DeviceRecord} {instant : Instant} {gs : FileSystem}
    (hrecord : recordOf u = .ok record)
    (hmake : makeDirectories ((u.key instant).directoryUnder s.root) fs = (.ok (), gs)) :
    s.prepare u instant fs = (.ok (record, (u.key instant).pathUnder s.root), gs) := by
  simp only [prepare, hrecord]
  rw [Action.bind_of_ok (show (Action.ofExcept (.ok record) : StoreAct DeviceRecord) fs = _ from rfl)]
  have hresolve : s.resolve (.of u.namespaceId u.deviceId instant) fs = _ := resolve_of_ok hmake
  rw [Action.bind_of_ok hresolve]
  rfl

/-- What prepares a save changes nothing, or it makes directories on the way to a log. -/
theorem prepare_cases (s : Store) (u : StateUpdate) (instant : Instant) (fs : FileSystem) :
    ∃ r gs, s.prepare u instant fs = (r, gs)
      ∧ (gs = fs ∨ (u.key instant).Valid ∧ fs.Makes gs fun place => ∃ steps,
        steps <+: ((u.key instant).directoryUnder s.root).steps
          ∧ place = placeOf (fs.start ((u.key instant).directoryUnder s.root)) steps)
      ∧ (∀ record path, r = .ok (record, path) →
        recordOf u = .ok record ∧ path = (u.key instant).pathUnder s.root) := by
  -- The ids and the version come first, and nothing is made if they are refused.
  cases hrecord : recordOf u with
  | error e =>
    simp only [prepare, hrecord]
    rw [Action.bind_of_error (show (Action.ofExcept (.error e) : StoreAct DeviceRecord) fs = _ from rfl)]
    exact ⟨_, fs, rfl, .inl rfl, nofun⟩
  | ok record =>
    have hk := ((recordOf_eq_ok_iff instant).1 hrecord).1
    have hmakes := makeDirectories_makes ((u.key instant).directoryUnder s.root) fs
    cases hmake : makeDirectories ((u.key instant).directoryUnder s.root) fs with
    | mk r gs =>
      rw [hmake] at hmakes
      cases r with
      | error e =>
        simp only [prepare, hrecord]
        rw [Action.bind_of_ok (show (Action.ofExcept (.ok record) : StoreAct DeviceRecord) fs = _ from rfl)]
        have hresolve : s.resolve (.of u.namespaceId u.deviceId instant) fs = _ :=
          resolve_of_error hmake
        rw [Action.bind_of_error hresolve]
        exact ⟨_, gs, rfl, .inr ⟨hk, hmakes⟩, nofun⟩
      | ok _ =>
        refine ⟨_, gs, prepare_of_ok hrecord hmake, .inr ⟨hk, hmakes⟩, ?_⟩
        rintro record' path heq
        cases heq
        exact ⟨rfl, rfl⟩

/-- A save that has prepared has a record and the path of its log. Directories may have been made,
and nothing else has changed. -/
theorem prepare_spec (instant : Instant) (h : Holds root allowed fs records) (hroot : s.root = root) :
    ∃ r gs, s.prepare u instant fs = (r, gs) ∧ fs.Grows gs ∧ (fs.Quiet → gs.Quiet)
      ∧ (∀ k, gs.entry? (logPlace gs root k) = fs.entry? (logPlace fs root k))
      ∧ Holds root allowed gs records
      ∧ (∀ record path, r = .ok (record, path) →
        recordOf u = .ok record ∧ path = (u.key instant).pathUnder root) := by
  subst hroot
  obtain ⟨r, gs, hprepare, hmade, hok⟩ := s.prepare_cases u instant fs
  refine ⟨r, gs, hprepare, ?_⟩
  rcases hmade with rfl | ⟨hk, hmakes⟩
  · exact ⟨.refl gs, id, fun _ => rfl, h, hok⟩
  · exact ⟨hmakes.grows, hmakes.quiet, h.entry_of_makes hk hmakes, h.makes hk hmakes, hok⟩

/-! ## Keeping -/

/-- The records with one more in a partition. -/
def withRecord (records : PartitionKey → List DeviceRecord) (k : PartitionKey) (r : DeviceRecord) :
    PartitionKey → List DeviceRecord := fun other =>
  if other = k then records k ++ [r] else records other

/-- What a failed save may leave in place of a log: what was there, or an empty file where there was
nothing. -/
def Untouched (root : Path) (fs gs : FileSystem) (k other : PartitionKey) : Prop :=
  gs.entry? (logPlace gs root other) = fs.entry? (logPlace fs root other)
    ∨ (other = k ∧ fs.entry? (logPlace fs root k) = none
      ∧ gs.entry? (logPlace gs root k) = some (.file [])
      ∧ gs.find (k.pathUnder root) = .ok (logPlace gs root k))

/-- A failed save has put back what there was, or it has left an empty file. -/
theorem untouched_of_given_up {gs : FileSystem} {k : PartitionKey}
    (hfind : fs.find (k.pathUnder root) = .ok (logPlace fs root k))
    (hentry : fs.entry? (logPlace fs root k) ≠ some .directory) (hgrows : fs.Grows gs)
    (hself : gs.entry? (logPlace gs root k) = some (.file ((fs.content? (logPlace fs root k)).getD []))) :
    Untouched root fs gs k k := by
  unfold Untouched
  rw [hself]
  cases hplaced : fs.entry? (logPlace fs root k) with
  | none =>
    refine .inr ⟨rfl, rfl, by simp [content?, hplaced], ?_⟩
    rw [logPlace_of_grows hgrows]
    exact hgrows.find hfind
  | some found =>
    cases found with
    | directory => exact absurd hplaced hentry
    | file old => exact .inl (by rw [content?_of_file hplaced]; rfl)

theorem keep_holds {k : PartitionKey} {record : DeviceRecord} {marker : Marker}
    (h : Holds root allowed fs records) (hk : k.Valid)
    (hcodec : allowed s.codec ∧ allowed s.codec.stated)
    (hcarries : ∀ codec, allowed codec → codec.Carries record.toDatum.bytes) :
    ∃ r gs, s.keep marker (k.pathUnder root) record fs = (r, gs) ∧ fs.Grows gs
      ∧ (fs.Quiet → gs.Quiet ∧ (NoneEmpty root fs → NoneEmpty root gs))
      ∧ (r = .ok () → Holds root allowed gs (withRecord records k record))
      ∧ (∀ e, r = .error e → Holds root allowed gs records ∧ ∀ other, Untouched root fs gs k other) := by
  cases hfind : fs.find (k.pathUnder root) with
  | error e =>
    have hnowhere : ∀ place, fs.findForFile (k.pathUnder root) = .ok place →
        fs.entry? place = some .directory := by
      rw [findForFile_pathUnder hk, hfind]
      exact nofun
    obtain ⟨e', hkeep⟩ := exists_keep_refused s marker record hnowhere
    exact ⟨_, fs, hkeep, .refl fs, fun hq => ⟨hq, id⟩, nofun, fun _ _ => ⟨h, fun _ => .inl rfl⟩⟩
  | ok place =>
    cases eq_logPlace_of_find hk hfind
    have hentry := h.entry_ne_directory hk
    have hkeeps := h.keeps hk
    obtain ⟨r, gs, content, hkeep, hrewrites, hquiet, hok, herror⟩ :=
      keep_spec ((findForFile_pathUnder hk fs root).trans hfind) hentry rfl hkeeps hcodec hcarries
    have hgrows := hrewrites.grows hentry
    have hself : gs.entry? (logPlace gs root k) = some (.file content) := by
      rw [logPlace_of_grows hgrows, hrewrites.entry, if_pos rfl]
    refine ⟨r, gs, hkeep, hgrows, fun hq => ⟨hq.rewrites hrewrites, fun hnone other hother => ?_⟩,
      fun hr => ?_, fun e hr => ⟨?_, fun other => ?_⟩⟩
    · by_cases heq : other = k
      · rw [heq, hself]
        simpa using (hok (hquiet hq)).1
      · rw [h.entry_of_rewrites hk hrewrites heq]
        exact hnone other hother
    · refine h.rewrites hk hfind hrewrites ?_ fun other hother => if_neg hother
      rw [withRecord, if_pos rfl]
      exact (hok hr).2
    · refine h.rewrites hk hfind hrewrites ?_ fun _ _ => rfl
      rw [herror e hr]
      exact hkeeps
    · by_cases heq : other = k
      · subst heq
        rw [herror e hr] at hself
        exact untouched_of_given_up hfind hentry hgrows hself
      · exact .inl (h.entry_of_rewrites hk hrewrites heq)

/-! ## Saving -/

theorem save_of_keep {marker : Marker} {instant : Instant} {record : DeviceRecord} {path : Path}
    {gs hs : FileSystem} {r : Except LogError Unit}
    (hprepare : s.prepare u instant fs = (.ok (record, path), gs)) (hkeep : s.keep marker path record gs = (r, hs)) :
    s.save marker u instant fs = (r.mapError .log, hs) := by
  simp only [save]
  rw [Action.bind_of_ok hprepare]
  cases r with
  | ok _ => exact Action.mapError_of_ok hkeep
  | error e => exact Action.mapError_of_error hkeep

/-- A save adds its record to its partition, or leaves all records as they are. -/
theorem save_spec (marker : Marker) (instant : Instant) (h : Holds root allowed fs records)
    (hroot : s.root = root) (hcodec : allowed s.codec ∧ allowed s.codec.stated)
    (hcarries : ∀ record, recordOf u = .ok record → ∀ codec, allowed codec →
      codec.Carries record.toDatum.bytes) :
    ∃ r gs, s.save marker u instant fs = (r, gs) ∧ fs.Grows gs
      ∧ (fs.Quiet → gs.Quiet ∧ (NoneEmpty root fs → NoneEmpty root gs))
      ∧ (r = .ok () → ∃ record, recordOf u = .ok record
        ∧ Holds root allowed gs (withRecord records (u.key instant) record))
      ∧ (∀ e, r = .error e →
        Holds root allowed gs records ∧ ∀ other, Untouched root fs gs (u.key instant) other) := by
  obtain ⟨r₁, fs₁, hprepare, hgrows₁, hquiet₁, hentry₁, hholds₁, hok₁⟩ :=
    prepare_spec (u := u) instant h hroot
  have hnonempty₁ : NoneEmpty root fs → NoneEmpty root fs₁ := fun hnone k hk => by
    rw [hentry₁]
    exact hnone k hk
  simp only [save]
  cases r₁ with
  | error e =>
    rw [Action.bind_of_error hprepare]
    exact ⟨_, fs₁, rfl, hgrows₁, fun hq => ⟨hquiet₁ hq, hnonempty₁⟩, nofun,
      fun _ _ => ⟨hholds₁, fun other => .inl (hentry₁ other)⟩⟩
  | ok found =>
    obtain ⟨record, path⟩ := found
    obtain ⟨hrecord, rfl⟩ := hok₁ record path rfl
    have hk := ((recordOf_eq_ok_iff instant).1 hrecord).1
    obtain ⟨r₂, fs₂, hkeep, hgrows₂, hquiet₂, hok₂, herror₂⟩ :=
      keep_holds hholds₁ hk hcodec (hcarries record hrecord)
    rw [Action.bind_of_ok hprepare]
    -- Directories do not count as a change of a log.
    have hsame : ∀ other, Untouched root fs₁ fs₂ (u.key instant) other →
        Untouched root fs fs₂ (u.key instant) other := fun other huntouched => by
      simp only [Untouched] at huntouched ⊢
      rwa [hentry₁, hentry₁] at huntouched
    have hquiet : fs.Quiet → fs₂.Quiet ∧ (NoneEmpty root fs → NoneEmpty root fs₂) := fun hq => by
      obtain ⟨hq₂, hnonempty₂⟩ := hquiet₂ (hquiet₁ hq)
      exact ⟨hq₂, fun hnone => hnonempty₂ (hnonempty₁ hnone)⟩
    cases r₂ with
    | ok _ =>
      exact ⟨_, fs₂, Action.mapError_of_ok hkeep, hgrows₁.trans hgrows₂, hquiet,
        fun _ => ⟨record, hrecord, hok₂ rfl⟩, nofun⟩
    | error e =>
      obtain ⟨hholds₂, huntouched⟩ := herror₂ e rfl
      exact ⟨_, fs₂, Action.mapError_of_error hkeep, hgrows₁.trans hgrows₂, hquiet, nofun,
        fun _ _ => ⟨hholds₂, fun other => hsame other (huntouched other)⟩⟩

end Store

end DeviceLog
