import DeviceLog.Proofs.Store.Outcome

/-! # Saves that went through

What a partition held may be damaged when an update is saved to it, and the save may go through all the
same: an appender looks at the header and at the end of a log, a reader at every block.

* `Store.read_after_save`: the update is read back after the records that the save found in the log. Where
  a block of the log is malformed the partition cannot be read.
* `Store.read_after_save_altered`: a log of which one byte was altered takes another record.
-/

namespace DeviceLog.Store

open FileSystem

variable {s : Store} {marker : Marker} {u : StateUpdate} {instant : Instant} {fs gs : FileSystem}
  {record : DeviceRecord} {ds : List Datum}

theorem read_of_recordsAt_ok {records : List DeviceRecord} (hrecord : recordOf u = .ok record)
    (h : recordsAt gs (s.pathOf (u.key instant)) = .ok records) :
    s.read u.namespaceId u.deviceId instant gs = .ok records := by
  have hids := (checkIds_eq_ok_iff instant).2 ((recordOf_eq_ok_iff instant).1 hrecord).1
  simp only [Store.read, hids]
  rw [show PartitionKey.of u.namespaceId u.deviceId instant = u.key instant from rfl, h]

theorem read_of_recordsAt_error {e : LogError} (hrecord : recordOf u = .ok record)
    (h : recordsAt gs (s.pathOf (u.key instant)) = .error e) :
    s.read u.namespaceId u.deviceId instant gs = .error (.log e) := by
  have hids := (checkIds_eq_ok_iff instant).2 ((recordOf_eq_ok_iff instant).1 hrecord).1
  simp only [Store.read, hids]
  rw [show PartitionKey.of u.namespaceId u.deviceId instant = u.key instant from rfl, h]

/-- What the log holds after a save that went through: what was kept of it, and the block of the record. -/
theorem Saved.exists_read (h : Saved s marker u instant fs (.ok ()) gs) (hrecord : recordOf u = .ok record) :
    ∃ (header : Header) (content body : Bytes),
      gs.find (s.pathOf (u.key instant)) = .ok (logPlace fs s.root (u.key instant))
      ∧ gs.entry? (logPlace fs s.root (u.key instant)) = some (.file content)
      ∧ header = Appender.headerFor DeviceRecord.schema s.codec marker (contentAt fs s.root (u.key instant))
      ∧ header.schema.fields = DeviceRecord.schema.fields
      ∧ header.stated.datums body = Appender.heldIn (contentAt fs s.root (u.key instant))
      ∧ Header.read content
        = (.ok header.stated, body ++ (Block.ofDatum record.toDatum).encode header) := by
  obtain ⟨record', a, start, hrecord', hfind, hopens, hcontent⟩ := h.exists_kept
  rw [hrecord] at hrecord'
  cases hrecord'
  have hw := DeviceRecord.writable_header s.codec marker
  obtain ⟨body, hread, -, hheld⟩ := hopens.exists_read hw
  exact ⟨a.header, _, body, hfind, entry?_of_content? hcontent, hopens.header_eq, (hopens.opened hw).fields,
    hheld, Header.read_append hread _⟩

theorem read_of_intact (h : Saved s marker u instant fs (.ok ()) gs) (hrecord : recordOf u = .ok record)
    (hcarries : (Appender.headerFor DeviceRecord.schema s.codec marker
      (contentAt fs s.root (u.key instant))).codec.Carries record.toDatum.bytes)
    (hheld : Appender.heldIn (contentAt fs s.root (u.key instant)) = .ok ds) :
    ∃ earlier, ds = earlier.map DeviceRecord.toDatum
      ∧ s.read u.namespaceId u.deviceId instant gs = .ok (earlier ++ [record]) := by
  obtain ⟨header, content, body, hfind, hfile, hheader, hfields, hdatums, hread⟩ := h.exists_read hrecord
  rw [← hheader] at hcarries
  rw [hheld] at hdatums
  obtain ⟨earlier, rfl⟩ := DeviceRecord.exists_records fun d hd =>
    Schema.fault_eq_none_of_fields hfields.symm (Header.fault_of_datums hdatums d hd)
  refine ⟨earlier, rfl, ?_⟩
  apply read_of_recordsAt_ok hrecord
  apply recordsAt_of_datums hfind hfile hread hfields
  have hfits : ∀ d ∈ [record.toDatum], header.stated.schema.fault d = none ∧ d.bytes.length < 2 ^ 63 := by
    intro d hd
    cases List.mem_singleton.1 hd
    exact ⟨Schema.fault_eq_none_of_fields hfields record.fault_toDatum, hcarries.own⟩
  have hframes : header.stated.Frames ([record.toDatum].map Block.ofDatum)
      ((Block.ofDatum record.toDatum).encode header) := by
    rw [← List.append_nil ((Block.ofDatum record.toDatum).encode header)]
    exact .cons (Block.framed_ofDatum hcarries) .nil
  rw [List.map_append]
  exact Header.datums_append hdatums hfits hframes

theorem read_of_damaged (h : Saved s marker u instant fs (.ok ()) gs) {e : FormatError}
    (hheld : Appender.heldIn (contentAt fs s.root (u.key instant)) = .error e) (hne : e ≠ .endOfData) :
    s.read u.namespaceId u.deviceId instant gs = .error (.log (.corrupt e)) := by
  obtain ⟨record, _, _, hrecord, _⟩ := h.exists_kept
  obtain ⟨header, content, body, hfind, hfile, -, hfields, hdatums, hread⟩ := h.exists_read hrecord
  rw [hheld] at hdatums
  apply read_of_recordsAt_error hrecord
  exact recordsAt_of_refused hfind hfile hread hfields (Header.datums_append_error hdatums hne _)

/-- A save that went through can be read back if what it kept of the log can be read: the record is the last
one, and the others are those that the log held. If a block of it is malformed, the partition cannot be
read. -/
theorem read_after_save (hsave : s.save marker u instant fs = (.ok (), gs))
    (hcarries : ∀ record, recordOf u = .ok record →
      (Appender.headerFor DeviceRecord.schema s.codec marker
        (contentAt fs s.root (u.key instant))).codec.Carries record.toDatum.bytes) :
    ∃ record, DeviceRecord.ofUpdate u = .ok record
      ∧ (∀ ds, Appender.heldIn (contentAt fs s.root (u.key instant)) = .ok ds →
        ∃ earlier, ds = earlier.map DeviceRecord.toDatum
          ∧ s.read u.namespaceId u.deviceId instant gs = .ok (earlier ++ [record]))
      ∧ (∀ e, Appender.heldIn (contentAt fs s.root (u.key instant)) = .error e → e ≠ .endOfData →
        s.read u.namespaceId u.deviceId instant gs = .error (.log (.corrupt e))) := by
  obtain ⟨r, gs', hsave', hsaved⟩ := s.exists_save marker u instant fs
  rw [hsave] at hsave'
  cases hsave'
  obtain ⟨record, _, _, hrecord, _⟩ := hsaved.exists_kept
  refine ⟨record, ((recordOf_eq_ok_iff instant).1 hrecord).2, fun ds hheld => ?_, fun e hheld hne => ?_⟩
  · exact read_of_intact hsaved hrecord (hcarries record hrecord) hheld
  · exact read_of_damaged hsaved hheld hne

/-- A record behind a record is read as the second one. -/
theorem read_after_save_storeOf :
    let fs := storeOf (Appender.plainHeader.log [Appender.plainEntry]) []
    ∃ gs, ((Store.mk ⟨"store"⟩ .standard).save (.numbered 1) SaveCall.firstCall.update
          SaveCall.firstCall.instant fs = (.ok (), gs)
        ∧ ∀ record, recordOf SaveCall.firstCall.update = .ok record →
          (Appender.headerFor DeviceRecord.schema .standard (.numbered 1)
            (contentAt fs ⟨"store"⟩ SaveCall.firstCall.key)).codec.Carries record.toDatum.bytes)
      ∧ ∃ earlier, earlier.length = 1
        ∧ (Store.mk ⟨"store"⟩ .standard).read "ns" "dev" SaveCall.firstCall.instant gs
          = .ok (earlier ++ [⟨"dev", 1, "ns", "", ""⟩]) := by
  intro fs
  have hl : Appender.plainHeader.Logs [Appender.plainEntry] := Appender.logs_plain.take 1
  obtain ⟨body, hread, -, hlooks, hdatums⟩ := hl.isLog.exists_body
  have hheld : Appender.heldIn (contentAt fs ⟨"store"⟩ SaveCall.firstCall.key)
      = .ok [Appender.plainEntry.datum] := by
    rw [contentAt_storeOf, Appender.heldIn_of_read hread, Appender.keptOf, hlooks, if_pos rfl, List.take_length,
      hdatums]
    rfl
  have hcarries : ∀ record, recordOf SaveCall.firstCall.update = .ok record →
      (Appender.headerFor DeviceRecord.schema .standard (.numbered 1)
        (contentAt fs ⟨"store"⟩ SaveCall.firstCall.key)).codec.Carries record.toDatum.bytes := by
    intro record hrecord
    rw [contentAt_storeOf]
    exact carries_firstCall _ _ _ hrecord
  obtain ⟨gs, hsave⟩ := exists_save_storeOf hread rfl .standard (.numbered 1)
  obtain ⟨record, hrecord, hintact, -⟩ := read_after_save hsave hcarries
  cases hrecord
  obtain ⟨earlier, hearlier, hafter⟩ := hintact _ hheld
  refine ⟨gs, ⟨hsave, hcarries⟩, earlier, ?_, hafter⟩
  simpa using (congrArg List.length hearlier).symm

/-! ## An altered log -/

/-- A log of one record whose block is said to hold none. -/
def alteredBlock : Block := ⟨0, Appender.plainEntry.datum.bytes⟩

def alteredLog : Bytes := Appender.plainHeader.encode ++ alteredBlock.encode Appender.plainHeader

theorem read_alteredLog : Header.read alteredLog
    = (.ok Appender.plainHeader.stated, alteredBlock.encode Appender.plainHeader) :=
  (Header.reads_encode Appender.logs_plain.writable).whole _

theorem frames_alteredBlock :
    Appender.plainHeader.stated.Frames [alteredBlock] (alteredBlock.encode Appender.plainHeader) := by
  have hentry : Appender.plainEntry ∈ [Appender.plainEntry, Appender.plainEntry] := List.mem_cons_self
  rw [← List.append_nil (alteredBlock.encode Appender.plainHeader)]
  exact .cons (Block.framed_encode (show 0 < 2 ^ 63 by decide) (Appender.logs_plain.carries _ hentry).own) .nil

/-- The bytes of the record are left over. -/
theorem heldIn_alteredLog : ∃ count, Appender.heldIn alteredLog = .error (.malformed (.trailing count)) := by
  have hframes := frames_alteredBlock
  have hlooks := Appender.looksWhole_frames hframes
  have hheld : Appender.heldIn alteredLog
      = Appender.plainHeader.stated.datums (alteredBlock.encode Appender.plainHeader) := by
    rw [Appender.heldIn_of_read read_alteredLog, Appender.keptOf, hlooks, if_pos rfl, List.take_length]
  rw [hheld, Header.datums_frames hframes, List.mapM_cons]
  cases hdata : alteredBlock.data with
  | nil =>
    have hname : Wire.encodeString "dev" = [] := (List.append_eq_nil_iff.1 hdata).1
    have hpos := Wire.length_encodeString_pos "dev"
    rw [hname] at hpos
    exact absurd hpos (Nat.lt_irrefl 0)
  | cons first more =>
    refine ⟨more.length + 1, ?_⟩
    have hdatums : alteredBlock.datums Appender.plainHeader.stated.schema
        = .error (.malformed (.trailing (more.length + 1))) := by
      simp only [Block.datums, show alteredBlock.count = 0 from rfl, Action.times_zero, hdata]
      rfl
    rw [hdatums]
    rfl

/-- A log of which one byte was altered takes a record, and cannot be read. -/
theorem read_after_save_altered : ∃ gs count,
    (Store.mk ⟨"store"⟩ .null).save (.numbered 1) SaveCall.firstCall.update SaveCall.firstCall.instant
        (storeOf alteredLog []) = (.ok (), gs)
      ∧ (Store.mk ⟨"store"⟩ .null).read "ns" "dev" SaveCall.firstCall.instant gs
        = .error (.log (.corrupt (.malformed (.trailing count)))) := by
  obtain ⟨gs, hsave⟩ := exists_save_storeOf read_alteredLog rfl .null (.numbered 1)
  obtain ⟨count, hheld⟩ := heldIn_alteredLog
  refine ⟨gs, count, hsave, ?_⟩
  obtain ⟨r, gs', hsave', hsaved⟩ := exists_save ⟨⟨"store"⟩, .null⟩ (.numbered 1) SaveCall.firstCall.update
    SaveCall.firstCall.instant (storeOf alteredLog [])
  rw [hsave] at hsave'
  cases hsave'
  exact read_of_damaged hsaved hheld nofun

end DeviceLog.Store
