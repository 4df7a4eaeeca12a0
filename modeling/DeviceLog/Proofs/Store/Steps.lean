import DeviceLog.Proofs.Store.Save
import DeviceLog.Store.Calls

/-! # Saves step by step

Between the steps of a save other callers may save to other partitions and make directories. If no
write fails then every step of a save goes through, however much has happened in between.

* `Store.Attainable`: nothing hinders making the directory of a partition and finding its log there.
  It is asked for at the beginning only; `Ready.exists_prepare` shows that it lasts.
* `Store.Ready` is the invariant of the shared file system, at every moment.
* `Store.Beside`: what a step that concerns one partition leaves as it is.
-/

namespace DeviceLog.Store

open FileSystem

variable {root : Path} {allowed : Codec → Prop} {fs₀ fs gs : FileSystem}
  {records : PartitionKey → List DeviceRecord} {s : Store} {u : StateUpdate} {record : DeviceRecord}
  {k : PartitionKey}

/-- Whether the directory of a partition can be made and its log be found there. -/
def Attainable (fs : FileSystem) (root : Path) (k : PartitionKey) : Prop :=
  ∃ gs place, makeDirectories (k.directoryUnder root) fs = (.ok (), gs)
    ∧ gs.find (k.pathUnder root) = .ok place

theorem attainable_iff : Attainable fs root k
    ↔ (makeDirectories (k.directoryUnder root) fs).1.isOk = true
      ∧ ((makeDirectories (k.directoryUnder root) fs).2.find (k.pathUnder root)).isOk = true := by
  simp only [Attainable]
  rcases makeDirectories (k.directoryUnder root) fs with ⟨_ | _, gs⟩
  · simp [Except.isOk, Except.toBool]
  · cases hfind : gs.find (k.pathUnder root) <;> simp [Except.isOk, Except.toBool, hfind]

instance : Decidable (Attainable fs root k) := decidable_of_iff _ attainable_iff.symm

/-- The places on the way to the directory of some partition. -/
def Way (fs : FileSystem) (root : Path) (place : Place) : Prop :=
  ∃ k : PartitionKey, k.Valid ∧ ∃ steps, steps <+: (k.directoryUnder root).steps
    ∧ place = placeOf (fs.start (k.directoryUnder root)) steps

/-- The file system while saves are under way: every log holds its records, none is empty, no write is
to fail, and since the beginning at most directories have come in the way of others. -/
structure Ready (root : Path) (allowed : Codec → Prop) (fs₀ fs : FileSystem)
    (records : PartitionKey → List DeviceRecord) : Prop where
  holds : Holds root allowed fs records
  nonempty : NoneEmpty root fs
  quiet : fs.Quiet
  fuller : Fuller (Way fs₀ root) fs₀ fs

/-- What a step leaves as it is that concerns one partition: directories, and all other logs. -/
structure Beside (root : Path) (k : PartitionKey) (fs gs : FileSystem) : Prop where
  grows : fs.Grows gs
  entry : ∀ other : PartitionKey, other ≠ k →
    gs.entry? (logPlace gs root other) = fs.entry? (logPlace fs root other)

theorem Beside.refl (k : PartitionKey) (fs : FileSystem) : Beside root k fs fs :=
  ⟨.refl fs, fun _ _ => rfl⟩

theorem EmptyRoot.ready (h : EmptyRoot fs root) (hquiet : fs.Quiet) (allowed : Codec → Prop) :
    Ready root allowed fs fs fun _ => [] where
  holds := h.holds allowed
  nonempty := h.noneEmpty
  quiet := hquiet
  fuller := ⟨.refl fs, fun _ _ hnone => .inl hnone⟩

/-! ## Making directories -/

theorem directoryUnder_of_way {place : Place} (h : Way fs₀ root place) (hgrows : fs₀.Grows fs) :
    ∃ k : PartitionKey, k.Valid ∧ ∃ steps, steps <+: (k.directoryUnder root).steps
      ∧ place = placeOf (fs.start (k.directoryUnder root)) steps := by
  obtain ⟨k, hk, steps, hsteps, rfl⟩ := h
  refine ⟨k, hk, steps, hsteps, ?_⟩
  rw [hgrows.start_eq]

theorem ne_logPlace_of_way (hclear : Clear fs root) (hgrows : fs₀.Grows fs) {place : Place}
    (h : Way fs₀ root place) (other : PartitionKey) : place ≠ logPlace fs root other := by
  obtain ⟨k, hk, steps, hsteps, hplace⟩ := directoryUnder_of_way h hgrows
  intro heq
  exact not_made_logPlace hclear hk other ⟨steps, hsteps, heq ▸ hplace⟩

/-- A save whose update can be kept prepares, whatever other saves have made before. -/
theorem Ready.exists_prepare (h : Ready s.root allowed fs₀ fs records) (instant : Instant)
    (hrecord : recordOf u = .ok record) (hattain : Attainable fs₀ s.root (u.key instant)) :
    ∃ gs, s.prepare u instant fs = (.ok (record, s.pathOf (u.key instant)), gs)
      ∧ Ready s.root allowed fs₀ gs records ∧ fs.Grows gs
      ∧ (∀ k, gs.entry? (logPlace gs s.root k) = fs.entry? (logPlace fs s.root k))
      ∧ gs.find (s.pathOf (u.key instant)) = .ok (logPlace gs s.root (u.key instant)) := by
  have hk := ((recordOf_eq_ok_iff instant).1 hrecord).1
  -- What could be made at the beginning can be made now.
  obtain ⟨fs₁, place, hmake₀, hfind₀⟩ := hattain
  obtain ⟨gs, hmake, hfuller⟩ := makeDirectories_again
    (fun steps hsteps => ⟨_, hk, steps, hsteps, rfl⟩) h.fuller hmake₀
  have hprepare : s.prepare u instant fs = (.ok (record, s.pathOf (u.key instant)), gs) := by
    have hresolve : s.resolve (.of u.namespaceId u.deviceId instant) fs = _ := resolve_of_ok hmake
    simp only [prepare]
    rw [hrecord, Action.bind_of_ok (show (Action.ofExcept (.ok record) : StoreAct DeviceRecord) fs = _
      from rfl), Action.bind_of_ok hresolve]
    rfl
  obtain ⟨r, gs', hsame, hgrows, hquiet, hentry, hholds, -⟩ :=
    prepare_spec (u := u) instant h.holds rfl
  cases hprepare.symm.trans hsame
  refine ⟨gs, hprepare, ⟨hholds, fun k hk => ?_, hquiet h.quiet, ?_⟩, hgrows, hentry, ?_⟩
  · rw [hentry]
    exact h.nonempty k hk
  · -- Whatever is there besides is a directory.
    have hmakes := makeDirectories_makes ((u.key instant).directoryUnder s.root) fs
    rw [hmake] at hmakes
    refine ⟨h.fuller.grows.trans hgrows, fun place hway hnone => ?_⟩
    rcases hmakes.entry place with hsame | ⟨-, hdir, -⟩
    · rw [hsame]
      exact h.fuller.nothing place hway hnone
    · exact .inr hdir
  · have hfind := hfuller.grows.find hfind₀
    cases eq_logPlace_of_find hk hfind
    exact hfind

/-! ## Writing a log -/

/-- A log that is rewritten holds its new records, and nothing else has changed. -/
theorem Ready.rewrites (h : Ready root allowed fs₀ fs records) (hk : k.Valid) {content : Bytes}
    {after : PartitionKey → List DeviceRecord}
    (hfind : fs.find (k.pathUnder root) = .ok (logPlace fs root k))
    (hrewrites : fs.Rewrites gs (logPlace fs root k) content) (hne : content ≠ [])
    (hkeeps : Log.Keeps DeviceRecord.schema allowed ((after k).map DeviceRecord.toDatum) content)
    (hafter : ∀ other, other ≠ k → after other = records other) :
    Ready root allowed fs₀ gs after ∧ Beside root k fs gs := by
  have hgrows := hrewrites.grows (h.holds.entry_ne_directory hk)
  refine ⟨⟨h.holds.rewrites hk hfind hrewrites hkeeps hafter, fun other hother => ?_,
    h.quiet.rewrites hrewrites, h.fuller.grows.trans hgrows, fun place hway hnone => ?_⟩,
    hgrows, fun other hother => h.holds.entry_of_rewrites hk hrewrites hother⟩
  · by_cases heq : other = k
    · rw [heq, logPlace_of_grows hgrows, hrewrites.entry, if_pos rfl]
      simpa using hne
    · rw [h.holds.entry_of_rewrites hk hrewrites heq]
      exact h.nonempty other hother
  · rw [hrewrites.entry_other (ne_logPlace_of_way h.holds.clear h.fuller.grows hway k)]
    exact h.fuller.nothing place hway hnone

theorem Ready.exists_open (h : Ready s.root allowed fs₀ fs records) (hk : k.Valid)
    (hfind : fs.find (s.pathOf k) = .ok (logPlace fs s.root k))
    (hcodec : allowed s.codec ∧ allowed s.codec.stated) (marker : Marker) :
    ∃ a old gs, Appender.open (s.pathOf k) DeviceRecord.schema s.codec marker fs = (.ok a, gs)
      ∧ Ready s.root allowed fs₀ gs records ∧ Beside s.root k fs gs
      ∧ a.Holds DeviceRecord.schema allowed (logPlace gs s.root k) old
        ((records k).map DeviceRecord.toDatum) gs := by
  have hfile := (findForFile_pathUnder hk fs s.root).trans hfind
  obtain ⟨old, hold⟩ : ∃ old, (fs.content? (logPlace fs s.root k)).getD [] = old := ⟨_, rfl⟩
  obtain ⟨r, gs, content, hopen, hrewrites, hquiet, hok, -⟩ :=
    Appender.open_spec hfile (h.holds.entry_ne_directory hk) hold (hold ▸ h.holds.keeps hk) hcodec
      (DeviceRecord.writable_header s.codec marker)
  obtain ⟨a, rfl⟩ := hquiet h.quiet
  have ha := hok a rfl
  -- An open log has its header, so it is not empty.
  obtain ⟨content', hcontent, hne, hkeeps'⟩ := ha.keeps
  cases hcontent.symm.trans hrewrites.content?_self
  obtain ⟨hready, hbeside⟩ := h.rewrites hk hfind hrewrites hne hkeeps' fun _ _ => rfl
  refine ⟨a, old, gs, hopen, hready, hbeside, ?_⟩
  rw [logPlace_of_grows hbeside.grows]
  exact ha

theorem Ready.exists_append (h : Ready root allowed fs₀ fs records) (hk : k.Valid)
    (hfind : fs.find (k.pathUnder root) = .ok (logPlace fs root k)) {a : Appender} {old : Bytes}
    (ha : a.Holds DeviceRecord.schema allowed (logPlace fs root k) old
      ((records k).map DeviceRecord.toDatum) fs)
    (hcarries : ∀ codec, allowed codec → codec.Carries record.toDatum.bytes) :
    ∃ a' gs, Appender.append record.toDatum (a, fs) = (.ok (), a', gs)
      ∧ Ready root allowed fs₀ gs (withRecord records k record) ∧ Beside root k fs gs
      ∧ a'.Holds DeviceRecord.schema allowed (logPlace gs root k) old
        ((withRecord records k record k).map DeviceRecord.toDatum) gs := by
  obtain ⟨r, a', gs, content, happend, hrewrites, hquiet, hok, -⟩ :=
    Appender.append_spec ha record.fault_toDatum hcarries
  cases hquiet h.quiet
  have hself : withRecord records k record k = records k ++ [record] := if_pos rfl
  have ha' := hok rfl
  obtain ⟨content', hcontent, hne, hkeeps⟩ := ha'.keeps
  cases hcontent.symm.trans hrewrites.content?_self
  have hafter : Log.Keeps DeviceRecord.schema allowed
      ((withRecord records k record k).map DeviceRecord.toDatum) content := by
    rw [hself, List.map_append]
    exact hkeeps
  obtain ⟨hready, hbeside⟩ := h.rewrites hk hfind hrewrites hne hafter fun _ hother => if_neg hother
  refine ⟨a', gs, happend, hready, hbeside, ?_⟩
  rw [logPlace_of_grows hbeside.grows, hself, List.map_append]
  exact ha'

theorem Ready.exists_close (h : Ready root allowed fs₀ fs records) (hk : k.Valid)
    (hfind : fs.find (k.pathUnder root) = .ok (logPlace fs root k)) {a : Appender} {old : Bytes}
    (ha : a.Holds DeviceRecord.schema allowed (logPlace fs root k) old
      ((records k).map DeviceRecord.toDatum) fs) :
    ∃ gs, a.close fs = (.ok (), gs) ∧ Ready root allowed fs₀ gs records ∧ Beside root k fs gs := by
  obtain ⟨r, gs, content, hclose, hrewrites, hquiet, hok, -⟩ := Appender.close_spec ha
  cases hquiet h.quiet
  obtain ⟨hkeeps, hne⟩ := hok rfl
  exact ⟨gs, hclose, h.rewrites hk hfind hrewrites hne hkeeps fun _ _ => rfl⟩

/-! ## Reading -/

/-- A partition is read as its records at every moment. -/
theorem Ready.recordsAt_eq (h : Ready root allowed fs₀ fs records) (hk : k.Valid) :
    recordsAt fs (k.pathUnder root) = .ok (records k) := by
  rw [h.holds.recordsAt_eq hk, if_neg (h.nonempty k hk)]

end DeviceLog.Store
