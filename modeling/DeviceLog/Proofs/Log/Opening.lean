import DeviceLog.Proofs.Container.Exact
import DeviceLog.Proofs.Log.Appender

/-! # What opening a log comes to

A file may hold anything when it is opened as a log.

* `Appender.Opens` lists what may come of it, with the reason, the answer and what the file holds
  afterwards. `Appender.exists_open` says that there is nothing else.
* `Appender.StartsAnew`: the bytes that a new header takes the place of. `Appender.headerFor` is the
  header that blocks are written with.
* `Appender.heldIn`: the records that are kept. `Opens.exists_read` finds them in what opening leaves.
* `Appender.intact_lt`: a body that does not look whole loses bytes.
* `Opens.kept_eq` is the length that the log is taken back to, and by `Opens.reads_whole` what opening leaves
  looks whole.
-/

namespace DeviceLog.Appender

variable {schema : Schema} {codec : Codec} {marker : Marker} {path : Path} {place : Place} {content : Bytes}

/-- Of a body that does not look whole the end is cut off. -/
theorem intact_lt {h : Header} {body : Bytes} (htorn : looksWhole h body = false) :
    h.intact body < body.length := by
  by_contra hge
  obtain ⟨-, -, hframes, -⟩ := Header.take_intact h body
  rw [List.take_of_length_le (Nat.not_lt.1 hge)] at hframes
  rw [looksWhole_frames hframes] at htorn
  cases htorn

/-- Whether the header ends before it is complete. -/
def RunsOut (content : Bytes) : Prop := ∃ rest, Header.read content = (.error .endOfData, rest)

/-- Whether bytes are taken for nothing, or for part of a header that was not written to its end. -/
def StartsAnew (content : Bytes) : Prop := content = [] ∨ RunsOut content ∧ mayBegin content = true

/-- What opening comes to: the answer, and what the file holds afterwards. -/
inductive Opens (path : Path) (schema : Schema) (codec : Codec) (marker : Marker) (place : Place)
    (content : Bytes) : Except LogError Appender → Bytes → Prop
  | created : StartsAnew content →
      Opens path schema codec marker place content
        (.ok ⟨path, place, .new schema codec marker, 0, true, 0⟩) (Header.new schema codec marker).encode
  | notCreated (e : IoError) : StartsAnew content →
      Opens path schema codec marker place content (.error (.io e)) []
  | whole {h : Header} {body : Bytes} : Header.read content = (.ok h, body) →
      h.schema.fields = schema.fields → looksWhole h body = true →
      Opens path schema codec marker place content (.ok ⟨path, place, h, content.length, false, 0⟩) content
  | torn {h : Header} {body : Bytes} : Header.read content = (.ok h, body) →
      h.schema.fields = schema.fields → looksWhole h body = false → ∀ {kept : Nat},
      kept = content.length - body.length + h.intact body →
      Opens path schema codec marker place content (.ok ⟨path, place, h, kept, false, 0⟩) (content.take kept)
  | mismatch {h : Header} {body : Bytes} {d : Schema.Difference} : Header.read content = (.ok h, body) →
      h.schema.difference schema = some d →
      Opens path schema codec marker place content (.error (.mismatch (.stated path h.schema.name d))) content
  | unreadable {e : FormatError} {rest : Bytes} : ¬StartsAnew content →
      Header.read content = (.error e, rest) →
      Opens path schema codec marker place content (.error (.corrupt e)) content

/-- The header that an appender writes blocks with: that of the log, or a new one. -/
def headerFor (schema : Schema) (codec : Codec) (marker : Marker) (content : Bytes) : Header :=
  match Header.read content with
  | (.ok h, _) => h
  | (.error _, _) => .new schema codec marker

/-- Bytes behind a header that is read are part of the file. -/
theorem length_le_of_read {h : Header} {body : Bytes} (hread : Header.read content = (.ok h, body)) :
    body.length ≤ content.length := by
  obtain ⟨front, rfl, -⟩ := Header.exact_read hread
  rw [List.length_append]
  exact Nat.le_add_left _ _

theorem not_runsOut_of_read {h : Header} {body : Bytes} (hread : Header.read content = (.ok h, body)) :
    ¬RunsOut content := by
  rintro ⟨rest, hcut⟩
  rw [hread] at hcut
  cases hcut

theorem not_startsAnew_of_read {h : Header} {body : Bytes} (hread : Header.read content = (.ok h, body)) :
    ¬StartsAnew content := by
  rintro (rfl | ⟨hout, -⟩)
  · cases hread
  · exact not_runsOut_of_read hread hout

/-- Where there is a header with the right fields, the log is opened, and is cut off behind what is kept. -/
theorem Opens.eq_of_read {r : Except LogError Appender} {after : Bytes}
    (hopens : Opens path schema codec marker place content r after) {h : Header} {body : Bytes}
    (hread : Header.read content = (.ok h, body)) (hfields : h.schema.fields = schema.fields) {kept : Nat}
    (hkept : kept = content.length - body.length + keptOf h body) :
    r = .ok ⟨path, place, h, kept, false, 0⟩ ∧ after = content.take kept := by
  cases hopens with
  | created hanew => exact absurd hanew (not_startsAnew_of_read hread)
  | notCreated e hanew => exact absurd hanew (not_startsAnew_of_read hread)
  | whole hread' _ hlooks =>
    rw [hread] at hread'
    cases hread'
    rw [keptOf, hlooks, if_pos rfl, Nat.sub_add_cancel (length_le_of_read hread)] at hkept
    subst hkept
    exact ⟨rfl, List.take_length.symm⟩
  | torn hread' _ hlooks hkept' =>
    rw [hread] at hread'
    cases hread'
    rw [keptOf, hlooks, if_neg Bool.false_ne_true, ← hkept'] at hkept
    subst hkept
    exact ⟨rfl, rfl⟩
  | mismatch hread' hdifference =>
    rw [hread] at hread'
    cases hread'
    rw [Schema.difference_eq_none_iff.2 hfields] at hdifference
    cases hdifference
  | unreadable _ hread' =>
    rw [hread] at hread'
    cases hread'

/-- A body that does not look whole is cut off. -/
theorem Opens.eq_of_torn {r : Except LogError Appender} {after : Bytes}
    (hopens : Opens path schema codec marker place content r after) {h : Header} {body : Bytes}
    (hread : Header.read content = (.ok h, body)) (hfields : h.schema.fields = schema.fields)
    (hlooks : looksWhole h body = false) {kept : Nat}
    (hkept : kept = content.length - body.length + h.intact body) :
    r = .ok ⟨path, place, h, kept, false, 0⟩ ∧ after = content.take kept := by
  apply hopens.eq_of_read hread hfields
  rw [hkept, keptOf, hlooks, if_neg Bool.false_ne_true]

/-- A body that looks whole is left as it is. -/
theorem Opens.eq_of_whole {r : Except LogError Appender} {after : Bytes}
    (hopens : Opens path schema codec marker place content r after) {h : Header} {body : Bytes}
    (hread : Header.read content = (.ok h, body)) (hfields : h.schema.fields = schema.fields)
    (hlooks : looksWhole h body = true) :
    r = .ok ⟨path, place, h, content.length, false, 0⟩ ∧ after = content := by
  have hkept : content.length = content.length - body.length + keptOf h body := by
    rw [keptOf, hlooks, if_pos rfl, Nat.sub_add_cancel (length_le_of_read hread)]
  obtain ⟨hr, hafter⟩ := hopens.eq_of_read hread hfields hkept
  rw [List.take_length] at hafter
  exact ⟨hr, hafter⟩

theorem headerFor_of_read {h : Header} {body : Bytes} (hread : Header.read content = (.ok h, body)) :
    headerFor schema codec marker content = h := by
  simp only [headerFor, hread]

/-- Bytes that are taken for nothing are read as no header. -/
theorem exists_error_of_startsAnew (hanew : StartsAnew content) :
    ∃ e rest, Header.read content = (.error e, rest) := by
  cases hread : Header.read content with
  | mk r rest =>
    cases r with
    | ok h => exact absurd hanew (not_startsAnew_of_read hread)
    | error e => exact ⟨e, rest, rfl⟩

theorem headerFor_of_startsAnew (hanew : StartsAnew content) :
    headerFor schema codec marker content = .new schema codec marker := by
  obtain ⟨e, rest, hread⟩ := exists_error_of_startsAnew hanew
  simp only [headerFor, hread]

theorem Opens.header_eq {a : Appender} {start : Bytes}
    (hopens : Opens path schema codec marker place content (.ok a) start) :
    a.header = headerFor schema codec marker content := by
  cases hopens with
  | created hanew => exact (headerFor_of_startsAnew hanew).symm
  | whole hread => exact (headerFor_of_read hread).symm
  | torn hread => exact (headerFor_of_read hread).symm

/-- The records that an appender finds in a log, without what it cuts off. Where there is no header it finds
none. -/
def heldIn (content : Bytes) : Except FormatError (List Datum) :=
  match Header.read content with
  | (.ok h, body) => h.datums (body.take (keptOf h body))
  | (.error _, _) => .ok []

theorem heldIn_of_read {h : Header} {body : Bytes} (hread : Header.read content = (.ok h, body)) :
    heldIn content = h.datums (body.take (keptOf h body)) := by
  simp only [heldIn, hread]

theorem heldIn_of_startsAnew (hanew : StartsAnew content) : heldIn content = .ok [] := by
  obtain ⟨e, rest, hread⟩ := exists_error_of_startsAnew hanew
  simp only [heldIn, hread]

/-- What opening leaves is read with the header of the appender, and holds what was kept. -/
theorem Opens.exists_read {a : Appender} {start : Bytes}
    (hopens : Opens path schema codec marker place content (.ok a) start)
    (hw : (Header.new schema codec marker).Writable) :
    ∃ body, Header.read start = (.ok a.header.stated, body) ∧ (a.created = true → body = [])
      ∧ a.header.stated.datums body = heldIn content := by
  cases hopens with
  | created hanew =>
    refine ⟨[], (Header.reads_encode hw).alone, fun _ => rfl, ?_⟩
    rw [heldIn_of_startsAnew hanew]
    rfl
  | whole hread _ hlooks =>
    rw [heldIn_of_read hread, keptOf, hlooks, if_pos rfl, List.take_length, Header.stated_of_read hread]
    exact ⟨_, hread, fun hcreated => absurd hcreated Bool.false_ne_true, rfl⟩
  | torn hread _ hlooks hkept =>
    rw [heldIn_of_read hread, keptOf, hlooks, if_neg Bool.false_ne_true, hkept, Header.stated_of_read hread]
    exact ⟨_, Header.read_take hread _, fun hcreated => absurd hcreated Bool.false_ne_true, rfl⟩

/-- A log that was there is taken back to all that opening leaves, and one that was made to nothing. -/
theorem Opens.kept_eq {a : Appender} {start : Bytes}
    (hopens : Opens path schema codec marker place content (.ok a) start) :
    a.kept = if a.created then 0 else start.length := by
  cases hopens with
  | created _ => rfl
  | whole _ _ _ => rfl
  | @torn h body hread _ hlooks kept hkept =>
    have hlost := intact_lt hlooks
    have hlength := length_le_of_read hread
    show kept = (content.take kept).length
    rw [List.length_take_of_le (by omega)]

theorem Opens.take_kept {a : Appender} {start : Bytes}
    (hopens : Opens path schema codec marker place content (.ok a) start) :
    start.take a.kept = if a.created then [] else start := by
  rw [hopens.kept_eq]
  split
  · exact List.take_zero
  · exact List.take_length

theorem Opens.kept_le {a : Appender} {start : Bytes}
    (hopens : Opens path schema codec marker place content (.ok a) start) : a.kept ≤ start.length := by
  rw [hopens.kept_eq]
  split
  · exact Nat.zero_le _
  · exact Nat.le_refl _

theorem Opens.appended_eq {a : Appender} {start : Bytes}
    (hopens : Opens path schema codec marker place content (.ok a) start) : a.appended = 0 := by
  cases hopens <;> rfl

/-- What opening leaves is read with the header of the appender, has the fields that were asked for, and
looks whole. -/
theorem Opens.reads_whole {a : Appender} {start : Bytes}
    (hopens : Opens path schema codec marker place content (.ok a) start)
    (hw : (Header.new schema codec marker).Writable) :
    ∃ body, Header.read start = (.ok a.header.stated, body) ∧ a.header.stated.schema.fields = schema.fields
      ∧ looksWhole a.header.stated body = true := by
  cases hopens with
  | created _ => exact ⟨[], (Header.reads_encode hw).alone, rfl, rfl⟩
  | whole hread hfields hlooks =>
    rw [Header.stated_of_read hread]
    exact ⟨_, hread, hfields, hlooks⟩
  | torn hread hfields hlooks hkept =>
    rw [Header.stated_of_read hread, hkept]
    obtain ⟨-, -, hframes, -⟩ := Header.take_intact _ _
    exact ⟨_, Header.read_take hread _, hfields, looksWhole_frames hframes⟩

theorem exists_resume (path : Path) (schema : Schema) (codec : Codec) (marker : Marker) {fs : FileSystem}
    (hfile : fs.content? place = some content) {h : Header} {body : Bytes}
    (hread : Header.read content = (.ok h, body)) :
    ∃ r gs after, resume path place h content body schema fs = (r, gs) ∧ fs.Rewrites gs place after
      ∧ Opens path schema codec marker place content r after := by
  simp only [resume]
  have hlength := length_le_of_read hread
  cases hdifference : h.schema.difference schema with
  | some d => exact ⟨_, fs, content, rfl, .refl hfile, .mismatch hread hdifference⟩
  | none =>
    have hfields := Schema.difference_eq_none_iff.1 hdifference
    cases hlooks : looksWhole h body with
    | true =>
      refine ⟨_, fs, content, rfl, .refl hfile, ?_⟩
      simp only [keptOf, hlooks, if_true, Nat.sub_add_cancel hlength]
      exact .whole hread hfields hlooks
    | false =>
      have hkept : content.length - body.length + h.intact body ≤ content.length := by
        have := intact_lt hlooks
        omega
      obtain ⟨gs, hset, hrewrites⟩ := FileSystem.setLength_rewrites hfile hkept
      simp only [keptOf, hlooks, Bool.false_eq_true, if_false, hset]
      exact ⟨_, gs, _, rfl, hrewrites, .torn hread hfields hlooks rfl⟩

/-- A header is written where bytes are taken for nothing, and if that fails the file is empty. -/
theorem exists_fresh (path : Path) (schema : Schema) (codec : Codec) (marker : Marker) {fs : FileSystem}
    (hfile : fs.content? place = some []) (hanew : StartsAnew content) :
    ∃ r gs after, create path place (Header.new schema codec marker) fs = (r, gs)
      ∧ fs.Rewrites gs place after ∧ Opens path schema codec marker place content r after := by
  obtain ⟨gs, ⟨hcreate, hrewrites⟩ | ⟨⟨e, hcreate⟩, -, hrewrites⟩⟩ :=
    create_cases path (Header.new schema codec marker) hfile
  · exact ⟨_, gs, _, hcreate, hrewrites, .created hanew⟩
  · exact ⟨_, gs, _, hcreate, hrewrites, .notCreated e hanew⟩

theorem exists_open (schema : Schema) (codec : Codec) (marker : Marker) {fs : FileSystem}
    (hfind : fs.findForFile path = .ok place) (hentry : fs.entry? place ≠ some .directory)
    (hcontent : (fs.content? place).getD [] = content) :
    ∃ r gs after, «open» path schema codec marker fs = (r, gs) ∧ fs.Rewrites gs place after
      ∧ Opens path schema codec marker place content r after := by
  obtain ⟨made, fs₁, hopen, hrewrites₁⟩ := FileSystem.openFile_rewrites hfind hentry
  rw [hcontent] at hrewrites₁
  have hfile := hrewrites₁.content?_self
  simp only [«open»]
  rw [hopen]
  simp only [hfile, Option.getD_some]
  by_cases hempty : content = []
  · rw [if_pos hempty]
    obtain ⟨r, gs, after, hcreate, hrewrites, hopens⟩ :=
      exists_fresh path schema codec marker (hempty ▸ hfile) (.inl hempty)
    exact ⟨r, gs, after, hcreate, hrewrites₁.trans hrewrites, hopens⟩
  · rw [if_neg hempty]
    cases hread : Header.read content with
    | mk outcome body =>
      cases outcome with
      | ok h =>
        obtain ⟨r, gs, after, hresume, hrewrites, hopens⟩ :=
          exists_resume path schema codec marker hfile hread
        exact ⟨r, gs, after, hresume, hrewrites₁.trans hrewrites, hopens⟩
      | error e =>
        by_cases hanew : StartsAnew content
        · -- The bytes are thrown away before the new header is written.
          obtain ⟨⟨rest, hcut⟩, hbegin⟩ := hanew.resolve_left hempty
          rw [hread] at hcut
          cases hcut
          obtain ⟨fs₂, hset, hrewrites₂⟩ := FileSystem.setLength_rewrites hfile (Nat.zero_le _)
          obtain ⟨r, gs, after, hcreate, hrewrites, hopens⟩ :=
            exists_fresh path schema codec marker hrewrites₂.content?_self hanew
          simp only [hbegin, if_true, hset]
          exact ⟨r, gs, after, hcreate, (hrewrites₁.trans hrewrites₂).trans hrewrites, hopens⟩
        · cases e with
          | endOfData =>
            have hbegin : mayBegin content = false :=
              Bool.eq_false_iff.2 fun hbegin => hanew (.inr ⟨⟨body, hread⟩, hbegin⟩)
            simp only [hbegin, Bool.false_eq_true, if_false]
            exact ⟨_, fs₁, content, rfl, hrewrites₁, .unreadable hanew hread⟩
          | _ => exact ⟨_, fs₁, content, rfl, hrewrites₁, .unreadable hanew hread⟩

theorem exists_open_file (schema : Schema) (codec : Codec) (marker : Marker) {fs : FileSystem}
    (hfind : fs.findForFile path = .ok place) (hfile : fs.entry? place = some (.file content)) :
    ∃ r gs after, «open» path schema codec marker fs = (r, gs) ∧ fs.Rewrites gs place after
      ∧ Opens path schema codec marker place content r after := by
  refine exists_open schema codec marker hfind ?_ ?_
  · rw [hfile]
    simp
  · rw [FileSystem.content?_of_file hfile, Option.getD_some]

end DeviceLog.Appender
