import DeviceLog.Proofs.Log.Opening
import DeviceLog.Proofs.Log.Recovery

/-! # Logs with a damaged header

Bytes of a header may change while the blocks behind it stay as they are. The log is then refused and
left alone, or opened, but in two cases the blocks are lost.

* `Appender.Spared` is what one wishes for: a log that is refused stays as it is, and one that is
  opened keeps every byte behind its header.
* `Appender.RunsOut` and `Appender.Misleads` are the two cases in which that fails. The header seems to
  go on beyond the end of the file, so that the whole file is taken for part of a header; or a header is
  read whose marker is not the one at the end, so that the blocks are taken for the end of a torn one.
* `Appender.open_damaged` says that there are no others.
* `Appender.open_foreignMarker`: where nothing but the marker in the header has changed, all records
  are lost.
-/

namespace DeviceLog

namespace Appender

variable {schema : Schema} {path : Path} {place : Place}

/-! ## What becomes of a file -/

/-- Whether the bytes of a file after the first `size` have come to no harm. -/
def Spared (size : Nat) (before : Bytes) : Except LogError Appender → Bytes → Prop
  | .ok _, after => before.drop size <+: after.drop size
  | .error _, after => after = before

/-- Whether a header for the same fields is read, and what stands behind it does not look whole. -/
def Misleads (schema : Schema) (content : Bytes) : Prop :=
  ∃ h body, Header.read content = (.ok h, body) ∧ h.schema.fields = schema.fields
    ∧ looksWhole h body = false

/-- Bytes in which a header runs out begin as one. -/
theorem RunsOut.mayBegin {content : Bytes} (hout : RunsOut content)
    (hlength : Header.magic.length ≤ content.length) : mayBegin content = true := by
  obtain ⟨rest, hread⟩ := hout
  simp only [Appender.mayBegin]
  by_cases hmagic : content.take Header.magic.length = Header.magic
  · rw [hmagic]
    rfl
  · -- Other bytes are told to be none of a log.
    have hwrong : Header.readMagic content
        = (.error (.malformed (.badMagic (content.take Header.magic.length))),
          content.drop Header.magic.length) := by
      have htake : Wire.take Header.magic.length content
          = (.ok (content.take Header.magic.length), content.drop Header.magic.length) := by
        simp only [Wire.take]
        rw [if_neg (by rw [List.length_take]; omega)]
      simp only [Header.readMagic]
      rw [Action.bind_of_ok htake, if_neg hmagic]
      rfl
    have hfailed : Header.read content = _ := Action.bind_of_error hwrong
    rw [hfailed] at hread
    cases hread

theorem startsAnew_iff {content : Bytes} (hlength : Header.magic.length ≤ content.length) :
    StartsAnew content ↔ RunsOut content := by
  constructor
  · rintro (rfl | ⟨hout, -⟩)
    · exact absurd hlength (by decide)
    · exact hout
  · exact fun hout => .inr ⟨hout, hout.mayBegin hlength⟩

/-- What stands behind the header is spared unless the header runs out or misleads. -/
theorem Opens.spared_iff {codec : Codec} {marker : Marker} {content after : Bytes}
    {r : Except LogError Appender} (hopens : Opens path schema codec marker place content r after)
    {size : Nat} (hsize : size < content.length)
    (hfresh : (Header.new schema codec marker).encode.length < content.length)
    (hlength : Header.magic.length ≤ content.length) :
    Spared size content r after ↔ ¬RunsOut content ∧ ¬Misleads schema content := by
  cases hopens with
  | created hanew =>
    refine ⟨fun hspared => ?_, fun h => absurd ((startsAnew_iff hlength).1 hanew) h.1⟩
    -- The new header is too short for the bytes behind the old one.
    have hle := List.IsPrefix.length_le hspared
    simp only [List.length_drop] at hle
    omega
  | notCreated e hanew =>
    refine ⟨fun hspared => ?_, fun h => absurd ((startsAnew_iff hlength).1 hanew) h.1⟩
    have hle := congrArg List.length (show [] = content from hspared)
    simp only [List.length_nil] at hle
    omega
  | whole hread hfields hlooks =>
    refine ⟨fun _ => ⟨not_runsOut_of_read hread, ?_⟩, fun _ => List.prefix_rfl⟩
    rintro ⟨h', body', hread', -, hlooks'⟩
    rw [hread] at hread'
    cases hread'
    rw [hlooks] at hlooks'
    cases hlooks'
  | torn hread hfields hlooks hkept =>
    refine ⟨fun hspared => ?_, fun h => absurd ⟨_, _, hread, hfields, hlooks⟩ h.2⟩
    have hle := List.IsPrefix.length_le hspared
    have hbody := length_le_of_read hread
    have hlost := intact_lt hlooks
    simp only [List.length_drop, List.length_take] at hle
    omega
  | mismatch hread hdifference =>
    refine ⟨fun _ => ⟨not_runsOut_of_read hread, ?_⟩, fun _ => rfl⟩
    rintro ⟨h', body', hread', hfields, -⟩
    rw [hread] at hread'
    cases hread'
    rw [Schema.difference_eq_none_iff.2 hfields] at hdifference
    cases hdifference
  | unreadable hanew hread =>
    refine ⟨fun _ => ⟨fun hout => hanew ((startsAnew_iff hlength).2 hout), ?_⟩, fun _ => rfl⟩
    rintro ⟨h', body', hread', -, -⟩
    rw [hread] at hread'
    cases hread'

/-- What is left of a file: its first bytes, or where the header runs out nothing or a new header. -/
theorem Opens.left {codec : Codec} {marker : Marker} {content after : Bytes}
    {r : Except LogError Appender} (hopens : Opens path schema codec marker place content r after)
    (hlength : Header.magic.length ≤ content.length) :
    (RunsOut content → after = [] ∨ after = (Header.new schema codec marker).encode)
      ∧ (¬RunsOut content → after <+: content) := by
  cases hopens with
  | created hanew => exact ⟨fun _ => .inr rfl, fun h => absurd ((startsAnew_iff hlength).1 hanew) h⟩
  | notCreated e hanew => exact ⟨fun _ => .inl rfl, fun h => absurd ((startsAnew_iff hlength).1 hanew) h⟩
  | whole hread _ _ => exact ⟨fun h => absurd h (not_runsOut_of_read hread), fun _ => List.prefix_rfl⟩
  | torn hread _ _ _ =>
    exact ⟨fun h => absurd h (not_runsOut_of_read hread), fun _ => List.take_prefix _ _⟩
  | mismatch hread _ => exact ⟨fun h => absurd h (not_runsOut_of_read hread), fun _ => List.prefix_rfl⟩
  | unreadable hanew _ =>
    exact ⟨fun h => absurd ((startsAnew_iff hlength).2 h) hanew, fun _ => List.prefix_rfl⟩

/-! ## Another marker -/

theorem looksWhole_foreign {own h : Header} {blocks : List Block} {body : Bytes}
    (hb : h.Frames blocks body) (hne : body ≠ []) (hforeign : h.marker.bytes ≠ own.marker.bytes) :
    looksWhole own body = false := by
  obtain ⟨front, rfl⟩ := hb.ends.resolve_left hne
  have hsize : Marker.size = h.marker.bytes.length := h.marker.length_eq.symm
  simp only [looksWhole]
  rw [decide_eq_false_iff_not]
  rintro (hnil | ⟨-, hdrop⟩)
  · exact hne hnil
  · rw [List.length_append, hsize, Nat.add_sub_cancel, List.drop_left] at hdrop
    exact hforeign hdrop

/-- Where the first block cannot be read nothing is kept. -/
theorem intact_eq_zero {h : Header} {body left : Bytes} {e : FormatError}
    (hread : Block.read h body = (.error e, left)) : h.intact body = 0 := by
  simp only [Header.intact, Header.blocks, Header.blocksAfter, hread, Nat.sub_self]

/-- Behind a header with another marker the blocks look torn, and the first of them already ends in the
wrong marker. -/
theorem foreignMarker_spec {h : Header} {entries : List LogEntry} (hl : h.Logs entries) (hne : entries ≠ [])
    {other : Marker} (hother : h.marker.bytes ≠ other.bytes) {own : Header}
    (hown : own = { h with marker := other }) :
    Header.read (own.encode ++ entries.flatMap h.frame) = (.ok own.stated, entries.flatMap h.frame)
      ∧ looksWhole own.stated (entries.flatMap h.frame) = false
      ∧ own.stated.intact (entries.flatMap h.frame) = 0 := by
  have hforeign : h.marker.bytes ≠ own.stated.marker.bytes := by
    subst hown
    exact hother
  have hfirst : ∃ left, Block.read own.stated (entries.flatMap h.frame)
      = (.error (.malformed .foreignMarker), left) := by
    obtain ⟨e, rest, rfl⟩ := List.exists_cons_of_ne_nil hne
    rw [List.flatMap_cons]
    exact Block.read_foreign (h := { h with codec := e.codec }) (b := Block.ofDatum e.datum) hforeign
      (show 1 < 2 ^ 63 by decide) (hl.carries e List.mem_cons_self).payload (rest.flatMap h.frame)
  obtain ⟨left, hfirst⟩ := hfirst
  refine ⟨?_, looksWhole_foreign hl.frames ?_ hforeign, intact_eq_zero hfirst⟩
  · subst hown
    exact (Header.reads_encode (hl.writable.withMarker other)).whole _
  · intro hnil
    rw [hnil] at hfirst
    cases hfirst

/-- A log whose header has another marker than its blocks is opened, and all of its blocks are cut off. -/
theorem open_foreignMarker {h : Header} {entries : List LogEntry} {fs : FileSystem} (hl : h.Logs entries)
    (hne : entries ≠ []) (hfields : h.schema.fields = schema.fields) {other : Marker}
    (hother : h.marker.bytes ≠ other.bytes) {own : Header} (hown : own = { h with marker := other })
    (hfind : fs.findForFile path = .ok place)
    (hfile : fs.entry? place = some (.file (own.encode ++ entries.flatMap h.frame))) (codec : Codec)
    (marker : Marker) :
    ∃ a gs, Appender.open path schema codec marker fs = (.ok a, gs) ∧ fs.Rewrites gs place own.encode := by
  obtain ⟨hread, htorn, hintact⟩ := foreignMarker_spec hl hne hother hown
  obtain ⟨r, gs, after, hopen, hrewrites, hopens⟩ := exists_open_file schema codec marker hfind hfile
  have hkept : own.encode.length = (own.encode ++ entries.flatMap h.frame).length
      - (entries.flatMap h.frame).length + own.stated.intact (entries.flatMap h.frame) := by
    rw [hintact, List.length_append, Nat.add_sub_cancel, Nat.add_zero]
  have hfields' : own.stated.schema.fields = schema.fields := by
    subst hown
    exact hfields
  obtain ⟨rfl, rfl⟩ := hopens.eq_of_torn hread hfields' htorn hkept
  rw [List.take_left] at hrewrites
  exact ⟨_, gs, hopen, hrewrites⟩

/-! ## Opening -/

/-- A log holds a block or more, and maybe the beginning of another one, and bytes of its header have
changed. When it is opened again, with the schema it was made with, what stands behind the header is
spared, unless the changed header runs out or misleads. A header that runs out is the only one for which
the file is written anew; otherwise first bytes of it stay. -/
theorem open_damaged {codec₀ : Codec} {marker₀ : Marker} {entries : List LogEntry} {damaged tail : Bytes}
    {fs : FileSystem} (hne : entries ≠ [])
    (hlength : damaged.length = (Header.new schema codec₀ marker₀).encode.length)
    {content : Bytes}
    (hcontent : content = damaged ++ (entries.flatMap (Header.new schema codec₀ marker₀).frame ++ tail))
    (hfind : fs.findForFile path = .ok place) (hfile : fs.entry? place = some (.file content))
    (codec : Codec) (marker : Marker) :
    ∃ r gs after, Appender.open path schema codec marker fs = (r, gs) ∧ fs.Rewrites gs place after
      ∧ (Spared damaged.length content r after ↔ ¬RunsOut content ∧ ¬Misleads schema content)
      ∧ (RunsOut content → after = [] ∨ after = (Header.new schema codec marker).encode)
      ∧ (¬RunsOut content → after <+: content) := by
  obtain ⟨r, gs, after, hopen, hrewrites, hopens⟩ :=
    exists_open_file schema codec marker hfind hfile
  have hblocks : Marker.size ≤ (entries.flatMap (Header.new schema codec₀ marker₀).frame).length := by
    obtain ⟨e, rest, rfl⟩ := List.exists_cons_of_ne_nil hne
    rw [List.flatMap_cons, List.length_append]
    exact Nat.le_trans (Header.length_frame_ge e) (Nat.le_add_right _ _)
  have hsize : Marker.size = 16 := rfl
  have hfour : Header.magic.length = 4 := rfl
  have hheader := Header.length_encode_new_le schema codec codec₀ marker marker₀
  have htotal := congrArg List.length hcontent
  rw [List.length_append, List.length_append] at htotal
  have hmagic : Header.magic.length ≤ content.length := by omega
  exact ⟨r, gs, after, hopen, hrewrites, hopens.spared_iff (by omega) (by omega) hmagic,
    hopens.left hmagic⟩

/-- A log of one record, the header of which has got the marker of another log. -/
def damagedHeader : Header := { plainHeader with marker := .numbered 1 }

def damagedLog : FileSystem where
  entries := [(["log"], .file (damagedHeader.encode ++ [plainEntry].flatMap plainHeader.frame))]

/-- The record of such a log is not spared. -/
theorem open_damaged_foreignMarker :
    ([plainEntry] ≠ [] ∧ damagedHeader.encode.length = plainHeader.encode.length
      ∧ damagedLog.findForFile ⟨"log"⟩ = .ok ["log"]
      ∧ damagedLog.entry? ["log"]
        = some (.file (damagedHeader.encode ++ [plainEntry].flatMap plainHeader.frame)))
    ∧ ∃ r gs after, Appender.open ⟨"log"⟩ DeviceRecord.schema (.deflate 9) (.numbered 2) damagedLog = (r, gs)
      ∧ gs.entry? ["log"] = some (.file after)
      ∧ ¬Spared damagedHeader.encode.length (damagedHeader.encode ++ [plainEntry].flatMap plainHeader.frame)
        r after := by
  have hlength : damagedHeader.encode.length = plainHeader.encode.length :=
    plainHeader.length_encode_withMarker (.numbered 1)
  have hfind : damagedLog.findForFile ⟨"log"⟩ = .ok ["log"] := rfl
  have hfile : damagedLog.entry? ["log"]
      = some (.file (damagedHeader.encode ++ [plainEntry].flatMap plainHeader.frame)) := rfl
  refine ⟨⟨List.cons_ne_nil _ _, hlength, hfind, hfile⟩, ?_⟩
  have hplain : plainHeader = Header.new DeviceRecord.schema .null (.numbered 0) := rfl
  have hl : plainHeader.Logs [plainEntry] := logs_plain.take 1
  obtain ⟨hread, htorn, -⟩ := foreignMarker_spec hl (List.cons_ne_nil plainEntry [])
    (show plainHeader.marker.bytes ≠ (Marker.numbered 1).bytes by decide) (rfl : damagedHeader = _)
  have hmisleads : Misleads DeviceRecord.schema
      (damagedHeader.encode ++ [plainEntry].flatMap plainHeader.frame) := ⟨_, _, hread, rfl, htorn⟩
  rw [hplain] at hlength
  obtain ⟨r, gs, after, hopen, hrewrites, hspared, -, -⟩ := open_damaged (List.cons_ne_nil plainEntry [])
    hlength (by rw [hplain, List.append_nil]) hfind hfile (.deflate 9) (.numbered 2)
  exact ⟨r, gs, after, hopen, by rw [hrewrites.entry, if_pos rfl], fun h => (hspared.1 h).2 hmisleads⟩

end Appender

end DeviceLog
