import DeviceLog.Proofs.Store.AppendOnly
import DeviceLog.Proofs.Store.Steps

/-! # What a save adds to a store

Where no write fails, a save adds one record to one partition, or it changes no file at all.

* `Store.Adds` says what a save that went through has added, in the file of its log and to a reader.
* `Ready.exists_save`: a save adds its record, or all files stay as they are. Either way the store is ready
  for more.
* `Ready.save_ok`: a save goes through if its update can be kept and its log can be found.
-/

namespace DeviceLog.Store

open FileSystem

variable {s : Store} {root : Path} {allowed : Codec → Prop} {fs₀ fs gs : FileSystem}
  {records : PartitionKey → List DeviceRecord} {u : StateUpdate} {instant : Instant} {record : DeviceRecord}

/-- What a save has added: one record at the end of its partition, and one block at the end of the log. Of
all files only the log has changed, and all other partitions are read as before. -/
structure Adds (s : Store) (u : StateUpdate) (instant : Instant) (record : DeviceRecord)
    (fs gs : FileSystem) : Prop where
  read : ∃ held, s.read u.namespaceId u.deviceId instant fs = .ok held
    ∧ s.read u.namespaceId u.deviceId instant gs = .ok (held ++ [record])
  file : ∃ place new, gs.find (s.pathOf (u.key instant)) = .ok place ∧ gs.content? place = some new
    ∧ Extends s.codec record ((fs.content? place).getD []) new
    ∧ ∀ other, gs.content? other ≠ fs.content? other ↔ other = place
  others : ∀ (namespaceId deviceId : String) (other : Instant),
    PartitionKey.of namespaceId deviceId other ≠ u.key instant →
      s.read namespaceId deviceId other gs = s.read namespaceId deviceId other fs

/-- Where files on the way to logs have neither come nor gone, nothing is in the way that was not before. -/
theorem Ready.fuller_of_content (h : Ready root allowed fs₀ fs records) (hgrows : fs.Grows gs)
    (hcontent : ∀ place, Way fs₀ root place → gs.content? place = fs.content? place) :
    Fuller (Way fs₀ root) fs₀ gs where
  grows := h.fuller.grows.trans hgrows
  nothing place hway hnone := by
    have hbefore : fs.content? place = none := by
      rcases h.fuller.nothing place hway hnone with hentry | hentry <;> simp [content?, hentry]
    cases hentry : gs.entry? place with
    | none => exact .inl rfl
    | some e =>
      cases e with
      | directory => exact .inr rfl
      | file content =>
        have hafter := content?_of_file hentry
        rw [hcontent place hway, hbefore] at hafter
        cases hafter

theorem Ready.read_eq (h : Ready s.root allowed fs₀ fs records) {namespaceId deviceId : String}
    (instant : Instant) (hids : checkIds namespaceId deviceId = .ok ()) :
    s.read namespaceId deviceId instant fs = .ok (records (.of namespaceId deviceId instant)) := by
  rw [h.holds.read_eq instant hids, if_neg (h.nonempty _ ((checkIds_eq_ok_iff instant).1 hids))]

theorem Ready.whole (h : Ready root allowed fs₀ fs records) {k : PartitionKey} (hk : k.Valid)
    (hne : contentAt fs root k ≠ []) : Log.Whole (contentAt fs root k) := by
  obtain ⟨header, -, -, hl⟩ := (h.holds.keeps hk).isLog hne
  exact hl.whole

/-- A store that is ready has one record more where its log has one block more. -/
theorem Ready.adds (h : Ready s.root allowed fs₀ fs records)
    (h' : Ready s.root allowed fs₀ gs (withRecord records (u.key instant) record))
    (hrecord : recordOf u = .ok record) {new : Bytes}
    (hfind : gs.find (s.pathOf (u.key instant)) = .ok (logPlace fs s.root (u.key instant)))
    (hcontent : ∀ place, gs.content? place
      = if place = logPlace fs s.root (u.key instant) then some new else fs.content? place)
    (hextends : Extends s.codec record (contentAt fs s.root (u.key instant)) new) :
    s.Adds u instant record fs gs where
  read := by
    have hids := (checkIds_eq_ok_iff instant).2 ((recordOf_eq_ok_iff instant).1 hrecord).1
    refine ⟨records (u.key instant), h.read_eq instant hids, ?_⟩
    rw [h'.read_eq instant hids]
    exact congrArg Except.ok (if_pos rfl)
  file := by
    have hself : gs.content? (logPlace fs s.root (u.key instant)) = some new := by
      rw [hcontent, if_pos rfl]
    refine ⟨_, new, hfind, hself, hextends, fun other => ⟨fun hne => ?_, ?_⟩⟩
    · by_contra hother
      rw [hcontent, if_neg hother] at hne
      exact hne rfl
    · -- The log is longer than before.
      rintro rfl hsame
      have hlength := hextends.length_lt
      rw [hself] at hsame
      rw [contentAt_of_content? hsame.symm] at hlength
      exact Nat.lt_irrefl _ hlength
  others namespaceId deviceId other hne := by
    cases hids : checkIds namespaceId deviceId with
    | error e => simp only [Store.read, hids]
    | ok _ =>
      rw [h.read_eq other hids, h'.read_eq other hids]
      exact congrArg Except.ok (if_neg hne)

/-- A log that was given up is what it was. It was there before, since no log is left empty. -/
theorem content?_of_contentAt {k : PartitionKey} (h : NoneEmpty root gs) (hk : k.Valid)
    (hgrows : fs.Grows gs) (hself : gs.content? (logPlace fs root k) = some (contentAt fs root k)) :
    fs.content? (logPlace fs root k) = some (contentAt fs root k) := by
  cases hbefore : fs.content? (logPlace fs root k) with
  | some old => rw [contentAt_of_content? hbefore]
  | none =>
    have hempty : contentAt fs root k = [] := by simp only [contentAt, hbefore, Option.getD_none]
    rw [hempty, ← logPlace_of_grows hgrows] at hself
    exact absurd (entry?_of_content? hself) (h k hk)

theorem Ready.exists_save (h : Ready s.root (fun _ => True) fs₀ fs records) (marker : Marker)
    (u : StateUpdate) (instant : Instant)
    (hcarries : ∀ record, recordOf u = .ok record → ∀ codec : Codec, codec.Carries record.toDatum.bytes) :
    ∃ r gs, s.save marker u instant fs = (r, gs)
      ∧ ((∃ record, r = .ok () ∧ recordOf u = .ok record ∧ s.Adds u instant record fs gs
          ∧ Ready s.root (fun _ => True) fs₀ gs (withRecord records (u.key instant) record))
        ∨ (∃ e, r = .error e) ∧ (∀ place, gs.content? place = fs.content? place)
          ∧ Ready s.root (fun _ => True) fs₀ gs records) := by
  obtain ⟨r, gs, hsave, hgrows, hquiet, hok, herror⟩ := save_spec (u := u) marker instant h.holds rfl
    ⟨trivial, trivial⟩ fun record hrecord codec _ => hcarries record hrecord codec
  obtain ⟨r', gs', hsave', hsaved⟩ := s.exists_save marker u instant fs
  cases hsave.symm.trans hsave'
  obtain ⟨hquiet', hnonempty⟩ := hquiet h.quiet
  have hnonempty' := hnonempty h.nonempty
  refine ⟨r, gs, hsave, ?_⟩
  cases hsaved with
  | refused hsame =>
    exact .inr ⟨⟨_, rfl⟩, hsame, (herror _ rfl).1, hnonempty', hquiet',
      h.fuller_of_content hgrows fun place _ => hsame place⟩
  | @tried record r _ after hrecord hfind hcontent hkept =>
    have hk := ((recordOf_eq_ok_iff instant).1 hrecord).1
    have hfuller := h.fuller_of_content hgrows fun place hway => by
      rw [hcontent, if_neg (ne_logPlace_of_way h.holds.clear h.fuller.grows hway _)]
    obtain ⟨rfl, hextends⟩ | ⟨⟨e, rfl⟩, rfl⟩ := hkept.of_whole (h.whole hk) (hcarries record hrecord _)
    · obtain ⟨record', hrecord', hholds⟩ := hok rfl
      cases hrecord.symm.trans hrecord'
      have hready : Ready s.root (fun _ => True) fs₀ gs (withRecord records (u.key instant) record) :=
        ⟨hholds, hnonempty', hquiet', hfuller⟩
      exact .inl ⟨record, rfl, hrecord, h.adds hready hrecord hfind hcontent hextends, hready⟩
    · refine .inr ⟨⟨_, rfl⟩, fun place => ?_, (herror _ rfl).1, hnonempty', hquiet', hfuller⟩
      rw [hcontent]
      split
      · rename_i hplace
        rw [hplace, content?_of_contentAt hnonempty' hk hgrows (by rw [hcontent, if_pos rfl])]
      · rfl

theorem Ready.save_ok (h : Ready s.root (fun _ => True) fs₀ fs records) (marker : Marker)
    (hcarries : ∀ codec : Codec, codec.Carries record.toDatum.bytes) (hrecord : recordOf u = .ok record)
    (hattain : Attainable fs₀ s.root (u.key instant)) : ∃ gs, s.save marker u instant fs = (.ok (), gs) := by
  obtain ⟨hs, hprepare, hready, -, -, hfind⟩ := h.exists_prepare instant hrecord hattain
  have hk := ((recordOf_eq_ok_iff instant).1 hrecord).1
  obtain ⟨r, gs, content, hkeep, -, hquiet, -⟩ :=
    @keep_spec (fun _ => True) _ _ _ s hs marker _ record ((findForFile_pathUnder hk hs s.root).trans hfind)
      (hready.holds.entry_ne_directory hk) rfl (hready.holds.keeps hk) ⟨trivial, trivial⟩
      fun codec _ => hcarries codec
  cases hquiet hready.quiet
  exact ⟨gs, save_of_keep hprepare hkeep⟩

end DeviceLog.Store
