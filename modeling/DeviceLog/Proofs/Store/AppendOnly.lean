import DeviceLog.Proofs.Container.Exact
import DeviceLog.Proofs.Log.Tail
import DeviceLog.Proofs.Store.Outcome

/-! # Files only grow

Where the log of a partition is whole, a save adds to it or leaves it as it was, and every other file with
it. This holds whichever of its writes is cut short, and wherever.

* `Log.Whole`: a header and complete blocks, made by whomever. A block is complete by its frame, whatever its
  payload holds.
* `Store.Extends` is what a save adds: a block, and in front of the first one a header.
* `Store.save_extends`: no file loses bytes, and one that goes through changes one file.
-/

namespace DeviceLog

/-! ## Complete blocks -/

/-- Bytes that are complete blocks one after another: a count, a size, a payload of this size and the marker.
The payloads need not be ones that can be expanded. -/
inductive Header.Framing (h : Header) : Bytes → Prop
  | nil : Framing h []
  | cons {n : Nat} {count size payload rest : Bytes} :
      Wire.Reads Wire.length count n → Wire.Reads Wire.length size payload.length → Framing h rest →
      Framing h (count ++ (size ++ (payload ++ h.marker.bytes)) ++ rest)

/-- Complete blocks end in the marker, unless there are none. -/
theorem Header.Framing.ends {h : Header} {body : Bytes} (hb : h.Framing body) :
    body = [] ∨ h.marker.bytes <:+ body := by
  induction hb with
  | nil => exact .inl rfl
  | @cons n count size payload rest _ _ _ ih =>
    refine .inr ?_
    rcases ih with rfl | hrest
    · exact ⟨count ++ (size ++ payload), by simp only [List.append_assoc, List.append_nil]⟩
    · exact hrest.trans (List.suffix_append _ _)

theorem Header.Frames.framing {h : Header} {blocks : List Block} {body : Bytes} (hb : h.Frames blocks body) :
    h.Framing body := by
  induction hb with
  | nil => exact .nil
  | @cons b blocks bytes rest hframe _ ih =>
    obtain ⟨count, size, payload, hbytes, hcount, hsize, -⟩ :=
      Block.exists_parts_of_readOne (hframe.reads.whole [])
    rw [List.append_nil, List.append_nil] at hbytes
    subst hbytes
    exact .cons hcount hsize ih

/-- Whether bytes are a header that is read and behind it complete blocks with its marker. -/
def Log.Whole (content : Bytes) : Prop :=
  ∃ h body, Header.read content = (.ok h, body) ∧ h.Framing body

theorem IsLog.whole {h : Header} {records : List Datum} {content : Bytes} (hl : IsLog h records content) :
    Log.Whole content := by
  obtain ⟨front, body, rfl, hfront, hframes⟩ := hl.layout
  exact ⟨h, body, hfront.whole body, hframes.framing⟩

namespace Appender

variable {schema : Schema} {codec : Codec} {marker : Marker} {path : Path} {place : Place}
  {content after : Bytes} {r : Except LogError Appender}

theorem eq_nil_of_startsAnew (hwhole : content ≠ [] → Log.Whole content) (hanew : StartsAnew content) :
    content = [] := by
  by_contra hne
  obtain ⟨h, body, hread, _⟩ := hwhole hne
  exact not_startsAnew_of_read hread hanew

/-- Nothing gets a header, and a whole log is opened as it is, or the file stays what it was. -/
theorem Opens.of_whole (hopens : Opens path schema codec marker place content r after)
    (hwhole : content ≠ [] → Log.Whole content) :
    (r = .ok ⟨path, place, .new schema codec marker, 0, true, 0⟩ ∧ content = []
        ∧ after = (Header.new schema codec marker).encode)
      ∨ (∃ h body, r = .ok ⟨path, place, h, content.length, false, 0⟩ ∧ Header.read content = (.ok h, body)
        ∧ after = content)
      ∨ (∃ e, r = .error e) ∧ after = content := by
  cases hopens with
  | created hanew => exact .inl ⟨rfl, eq_nil_of_startsAnew hwhole hanew, rfl⟩
  | notCreated e hanew => exact .inr (.inr ⟨⟨_, rfl⟩, (eq_nil_of_startsAnew hwhole hanew).symm⟩)
  | whole hread => exact .inr (.inl ⟨_, _, rfl, hread, rfl⟩)
  | torn hread _ hlooks =>
    have hne : content ≠ [] := by
      rintro rfl
      cases hread
    obtain ⟨h, body, hread', hframing⟩ := hwhole hne
    rw [hread] at hread'
    cases hread'
    rw [looksWhole_iff.2 hframing.ends] at hlooks
    cases hlooks
  | mismatch => exact .inr (.inr ⟨⟨_, rfl⟩, rfl⟩)
  | unreadable => exact .inr (.inr ⟨⟨_, rfl⟩, rfl⟩)

end Appender

namespace Store

open FileSystem

variable {s : Store} {marker : Marker} {path : Path} {place : Place} {record : DeviceRecord}
  {content after : Bytes}

/-- What a save adds to a log: a complete block of one record, and to an empty file a header of its own
before that. -/
inductive Extends (codec : Codec) (record : DeviceRecord) : Bytes → Bytes → Prop
  | made {h : Header} {frame : Bytes} : h.schema = DeviceRecord.schema → h.codec = codec →
      h.creator? = some Header.ownCreator → Wire.Reads Header.read h.encode h.stated →
      (Block.ofDatum record.toDatum).Framed h.stated frame → Extends codec record [] (h.encode ++ frame)
  | grown {h : Header} {old body frame : Bytes} : Header.read old = (.ok h, body) →
      (Block.ofDatum record.toDatum).Framed h frame → Extends codec record old (old ++ frame)

theorem Extends.length_lt {codec : Codec} (h : Extends codec record content after) :
    content.length < after.length := by
  cases h with
  | made _ _ _ _ hframe =>
    have hpos := hframe.length_pos
    rw [List.length_append, List.length_nil]
    omega
  | grown _ hframe =>
    have hpos := hframe.length_pos
    rw [List.length_append]
    omega

theorem Extends.begins {codec : Codec} (h : Extends codec record content after) : content <+: after := by
  cases h with
  | made => exact List.nil_prefix
  | grown => exact List.prefix_append _ _

/-- A record that is kept in a whole log adds its block to it; else the file is what it was. -/
theorem Kept.of_whole {r : Except LogError Unit} (hkept : Kept s marker path place record content r after)
    (hwhole : content ≠ [] → Log.Whole content)
    (hcarries : (Appender.headerFor DeviceRecord.schema s.codec marker content).codec.Carries
      record.toDatum.bytes) :
    (r = .ok () ∧ Extends s.codec record content after) ∨ (∃ e, r = .error e) ∧ after = content := by
  cases hkept with
  | kept hopens =>
    rw [← hopens.header_eq] at hcarries
    have hframe := Block.framed_ofDatum hcarries
    refine .inl ⟨rfl, ?_⟩
    obtain ⟨ha, rfl, rfl⟩ | ⟨h, body, ha, hread, rfl⟩ | ⟨⟨e, he⟩, -⟩ := hopens.of_whole hwhole
    · cases ha
      have hw := DeviceRecord.writable_header s.codec marker
      exact .made rfl rfl (Header.creator?_new _ _ _) (Header.reads_encode hw) hframe
    · cases ha
      rw [Header.stated_of_read hread] at hframe
      exact .grown hread hframe
    · cases he
  | unopened hopens =>
    obtain ⟨ha, -⟩ | ⟨h, body, ha, -⟩ | ⟨-, hsame⟩ := hopens.of_whole hwhole
    · cases ha
    · cases ha
    · exact .inr ⟨⟨_, rfl⟩, hsame⟩
  | takenBack e hopens =>
    refine .inr ⟨⟨_, rfl⟩, ?_⟩
    obtain ⟨ha, rfl, rfl⟩ | ⟨h, body, ha, -, rfl⟩ | ⟨⟨e, he⟩, -⟩ := hopens.of_whole hwhole
    · cases ha
      exact List.take_zero
    · cases ha
      exact List.take_length
    · cases he

/-- Where the log of its partition is whole or there is nothing yet, a save takes no byte from any file. One
that goes through changes one file, the log at the path of its partition, which gets one more complete block
of one record, and a header before that if it was empty. One that fails leaves every file as it was. -/
theorem save_extends (s : Store) (marker : Marker) (u : StateUpdate) (instant : Instant) (fs : FileSystem)
    (hwhole : contentAt fs s.root (u.key instant) ≠ [] → Log.Whole (contentAt fs s.root (u.key instant)))
    (hcarries : ∀ record, recordOf u = .ok record →
      (Appender.headerFor DeviceRecord.schema s.codec marker
        (contentAt fs s.root (u.key instant))).codec.Carries record.toDatum.bytes) :
    ∃ r gs, s.save marker u instant fs = (r, gs)
      ∧ (∀ place old, fs.content? place = some old → ∃ new, gs.content? place = some new ∧ old <+: new)
      ∧ (r = .ok () → ∃ place record new, gs.find (s.pathOf (u.key instant)) = .ok place
        ∧ gs.content? place = some new ∧ (∀ other, gs.content? other ≠ fs.content? other ↔ other = place)
        ∧ recordOf u = .ok record ∧ Extends s.codec record ((fs.content? place).getD []) new)
      ∧ (∀ e, r = .error e → ∀ place old, fs.content? place = some old → gs.content? place = some old) := by
  obtain ⟨r, gs, hsave, hsaved⟩ := s.exists_save marker u instant fs
  refine ⟨r, gs, hsave, ?_⟩
  cases hsaved with
  | refused hsame =>
    refine ⟨fun place old hold => ?_, nofun, fun _ _ place old hold => ?_⟩
    · exact ⟨old, (hsame place).trans hold, List.prefix_refl old⟩
    · rw [hsame, hold]
  | @tried record r' gs after hrecord hfind hcontent hkept =>
    have hself : gs.content? (logPlace fs s.root (u.key instant)) = some after := by
      rw [hcontent, if_pos rfl]
    obtain ⟨rfl, hextends⟩ | ⟨⟨e, rfl⟩, rfl⟩ := hkept.of_whole hwhole (hcarries record hrecord)
    · refine ⟨fun place old hold => ?_, fun _ => ?_, nofun⟩
      · by_cases hplace : place = logPlace fs s.root (u.key instant)
        · subst hplace
          rw [contentAt_of_content? hold] at hextends
          exact ⟨after, hself, hextends.begins⟩
        · rw [hcontent, if_neg hplace]
          exact ⟨old, hold, List.prefix_refl old⟩
      · refine ⟨_, record, after, hfind, hself, fun other => ⟨fun hne => ?_, ?_⟩, hrecord, hextends⟩
        · by_contra hother
          rw [hcontent, if_neg hother] at hne
          exact hne rfl
        · -- The log is longer than before.
          rintro rfl hsame
          have hlength := hextends.length_lt
          rw [hself] at hsame
          rw [contentAt_of_content? hsame.symm] at hlength
          exact Nat.lt_irrefl _ hlength
    · have hsame : ∀ place old, fs.content? place = some old → gs.content? place = some old := by
        intro place old hold
        by_cases hplace : place = logPlace fs s.root (u.key instant)
        · subst hplace
          rw [hself, contentAt_of_content? hold]
        · rw [hcontent, if_neg hplace, hold]
      exact ⟨fun place old hold => ⟨old, hsame place old hold, List.prefix_refl old⟩, nofun, fun _ _ => hsame⟩

/-- The block that is to be added to a log of one record is cut short. -/
theorem save_extends_storeOf :
    let fs := storeOf (Appender.plainHeader.log [Appender.plainEntry]) [.cut 3]
    let content := contentAt fs ⟨"store"⟩ SaveCall.firstCall.key
    ((content ≠ [] → Log.Whole content)
      ∧ ∀ record, recordOf SaveCall.firstCall.update = .ok record →
        (Appender.headerFor DeviceRecord.schema (.deflate 9) (.numbered 1) content).codec.Carries
          record.toDatum.bytes)
    ∧ ∃ r gs new, (Store.mk ⟨"store"⟩ (.deflate 9)).save (.numbered 1) SaveCall.firstCall.update
        SaveCall.firstCall.instant fs = (r, gs)
      ∧ gs.content? plainPlace = some new
      ∧ Appender.plainHeader.log [Appender.plainEntry] <+: new := by
  intro fs content
  have hcontent : content = Appender.plainHeader.log [Appender.plainEntry] := contentAt_storeOf _ _
  have hwhole : content ≠ [] → Log.Whole content := by
    have hl : Appender.plainHeader.Logs [Appender.plainEntry] := Appender.logs_plain.take 1
    rw [hcontent]
    exact fun _ => hl.isLog.whole
  have hcarries : ∀ record, recordOf SaveCall.firstCall.update = .ok record →
      (Appender.headerFor DeviceRecord.schema (.deflate 9) (.numbered 1) content).codec.Carries
        record.toDatum.bytes := by
    intro record hrecord
    rw [hcontent]
    exact carries_firstCall _ _ _ hrecord
  obtain ⟨r, gs, hsave, hbegins, -⟩ := save_extends ⟨⟨"store"⟩, .deflate 9⟩ (.numbered 1)
    SaveCall.firstCall.update SaveCall.firstCall.instant fs hwhole hcarries
  obtain ⟨new, hnew, hgrown⟩ := hbegins plainPlace (Appender.plainHeader.log [Appender.plainEntry]) rfl
  exact ⟨⟨hwhole, hcarries⟩, r, gs, new, hsave, hnew, hgrown⟩

end Store

end DeviceLog
