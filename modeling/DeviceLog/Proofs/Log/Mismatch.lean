import DeviceLog.Proofs.Log.Handle
import DeviceLog.Proofs.Log.Tail

/-! # Schemas and records that do not fit

A log keeps the fields that its header states. Callers with other fields are turned away, and so is every
record with other values. Nothing has been changed by then: not even a torn end has been cut off.

* `Schema.Differs` and `Schema.Fits` say which schemas and which records are meant.
* `Appender.entry?_of_refused`: opening that fails for what the file holds leaves every file as it is.
* `Appender.exists_answers`: a run of records of which some do not fit. The others are written.
* `Appender.mismatch_refused` puts these together.
-/

namespace DeviceLog

namespace Schema

variable {a b : Schema}

/-- Whether one schema has more fields than the other, or a field of another name or type in some place. -/
def Differs (a b : Schema) : Prop :=
  a.fields.length ≠ b.fields.length
    ∨ ∃ (i : Nat) (f g : Field), a.fields[i]? = some f ∧ b.fields[i]? = some g
      ∧ (f.name ≠ g.name ∨ f.type ≠ g.type)

theorem differs_iff : a.Differs b ↔ a.fields ≠ b.fields := by
  constructor
  · rintro (hlength | ⟨i, f, g, hf, hg, hne⟩) heq
    · exact hlength (congrArg List.length heq)
    · rw [heq, hg] at hf
      cases hf
      simp at hne
  · intro hne
    by_contra hsame
    obtain ⟨hlength, hfields⟩ := not_or.1 hsame
    refine hne (List.ext_getElem (not_not.1 hlength) fun i hi hi' => ?_)
    by_contra hfield
    refine hfields ⟨i, a.fields[i], b.fields[i], List.getElem?_eq_getElem hi,
      List.getElem?_eq_getElem hi', ?_⟩
    rw [Field.mk.injEq, not_and_or] at hfield
    exact hfield

/-- Whether values are as many as the fields and each of the type of its field. -/
def Fits (schema : Schema) (d : Datum) : Prop := d.map FieldValue.type = schema.fields.map Field.type

instance (schema : Schema) : DecidablePred schema.Fits := fun d =>
  inferInstanceAs (Decidable (d.map FieldValue.type = schema.fields.map Field.type))

end Schema

namespace Appender

variable {schema : Schema} {codec : Codec} {marker : Marker} {path : Path} {place : Place} {a : Appender}
  {fs gs : FileSystem} {content body after : Bytes} {h : Header} {d : Datum}

/-! ## Opening -/

theorem Opens.of_refused {e : LogError} (hopens : Opens path schema codec marker place content (.error e) after)
    (hrefused : ∀ i, e ≠ .io i) : after = content ∧ content ≠ [] := by
  cases hopens with
  | notCreated i _ => exact absurd rfl (hrefused i)
  | mismatch hread _ =>
    refine ⟨rfl, ?_⟩
    rintro rfl
    cases hread
  | unreadable hanew _ => exact ⟨rfl, fun hempty => hanew (.inl hempty)⟩

theorem entry?_of_refused {e : LogError} (hopen : «open» path schema codec marker fs = (.error e, gs))
    (hrefused : ∀ i, e ≠ .io i) (other : Place) : gs.entry? other = fs.entry? other := by
  rcases open_cases path schema codec marker fs with ⟨place, hfind, hentry⟩ | ⟨i, hio⟩
  · obtain ⟨r, gs', after, hopen', hrewrites, hopens⟩ := exists_open schema codec marker hfind hentry rfl
    rw [hopen] at hopen'
    cases hopen'
    obtain ⟨rfl, hne⟩ := hopens.of_refused hrefused
    have hcontent : fs.content? place = some ((fs.content? place).getD []) := by
      cases hfile : fs.content? place with
      | none =>
        rw [hfile] at hne
        exact absurd rfl hne
      | some content => rfl
    exact (hrewrites.entry other).trans ((FileSystem.Rewrites.refl hcontent).entry other).symm
  · rw [hopen] at hio
    cases hio
    exact absurd rfl (hrefused i)

theorem Opens.of_differs {r : Except LogError Appender}
    (hopens : Opens path schema codec marker place content r after)
    (hread : Header.read content = (.ok h, body)) (hdiffers : h.schema.Differs schema) : ∃ m, r = .error (.mismatch m) := by
  cases hopens with
  | created hanew => exact absurd hanew (not_startsAnew_of_read hread)
  | notCreated e hanew => exact absurd hanew (not_startsAnew_of_read hread)
  | whole hread' hfields _ =>
    rw [hread] at hread'
    cases hread'
    exact absurd hfields (Schema.differs_iff.1 hdiffers)
  | torn hread' hfields _ _ =>
    rw [hread] at hread'
    cases hread'
    exact absurd hfields (Schema.differs_iff.1 hdiffers)
  | mismatch _ _ => exact ⟨_, rfl⟩
  | unreadable _ hread' =>
    rw [hread] at hread'
    cases hread'

/-- Where a header is read, only its fields decide. -/
theorem open_of_read (schema : Schema) (codec : Codec) (marker : Marker)
    (hfind : fs.findForFile path = .ok place) (hfile : fs.entry? place = some (.file content))
    (hread : Header.read content = (.ok h, body)) :
    (h.schema.Differs schema → ∃ m gs, «open» path schema codec marker fs = (.error (.mismatch m), gs))
      ∧ (¬h.schema.Differs schema → ∃ a gs, «open» path schema codec marker fs = (.ok a, gs)) := by
  obtain ⟨r, gs, after, hopen, -, hopens⟩ := exists_open_file schema codec marker hfind hfile
  constructor
  · intro hdiffers
    obtain ⟨m, rfl⟩ := hopens.of_differs hread hdiffers
    exact ⟨m, gs, hopen⟩
  · intro hsame
    rw [Schema.differs_iff, not_not] at hsame
    obtain ⟨rfl, -⟩ := hopens.eq_of_read hread hsame rfl
    exact ⟨_, gs, hopen⟩

/-! ## Appending -/

/-- What is answered to a record where no write fails. -/
def answer (schema : Schema) (d : Datum) : Except LogError Unit :=
  match schema.fault d with
  | none => .ok ()
  | some fault => .error (.mismatch (.values fault))

theorem answer_eq_ok_iff : answer schema d = .ok () ↔ schema.Fits d := by
  rw [Schema.Fits, ← Schema.fault_eq_none_iff, answer]
  cases schema.fault d with
  | none => simp
  | some fault => simp

theorem answer_of_not_fits (hfits : ¬schema.Fits d) :
    ∃ fault, schema.fault d = some fault ∧ answer schema d = .error (.mismatch (.values fault)) := by
  cases hfault : schema.fault d with
  | none => exact absurd (Schema.fault_eq_none_iff.1 hfault) hfits
  | some fault =>
    refine ⟨fault, rfl, ?_⟩
    simp only [answer, hfault]

/-- If no write fails, a record gets its answer, and one that fits is written. -/
theorem exists_answer (hfile : fs.content? a.place = some content) (hkept : a.kept ≤ content.length)
    (hquiet : fs.Quiet) (d : Datum) :
    ∃ gs, append d (a, fs) = (answer a.header.schema d,
        { a with appended := a.appended + ([d].filter a.header.schema.Fits).length }, gs)
      ∧ fs.Rewrites gs a.place (content ++ a.written ([d].filter a.header.schema.Fits)) := by
  by_cases hfits : a.header.schema.Fits d
  · rw [answer_eq_ok_iff.2 hfits, List.filter_cons_of_pos (by simpa using hfits), List.filter_nil, written,
      List.flatMap_singleton]
    obtain ⟨gs, happended | ⟨_, hloud, _⟩⟩ := append_cases hfile hkept (Schema.fault_eq_none_iff.2 hfits)
    · exact ⟨gs, happended⟩
    · exact absurd hquiet hloud
  · obtain ⟨fault, hfault, hanswer⟩ := answer_of_not_fits hfits
    rw [hanswer, List.filter_cons_of_neg (by simpa using hfits), List.filter_nil, written, List.flatMap_nil,
      List.append_nil]
    exact ⟨fs, append_of_fault hfault fs, .refl hfile⟩

/-- If no write fails, every record of a run gets its answer, and those that fit are written one after
another. -/
theorem exists_answers (ds : List Datum) : ∀ {a : Appender} {fs : FileSystem} {content : Bytes},
    fs.content? a.place = some content → a.kept ≤ content.length → fs.Quiet →
      ∃ gs, appendAll ds (a, fs) = (ds.map fun d => (d, answer a.header.schema d),
          { a with appended := a.appended + (ds.filter a.header.schema.Fits).length }, gs)
        ∧ fs.Rewrites gs a.place (content ++ a.written (ds.filter a.header.schema.Fits)) := by
  induction ds with
  | nil =>
    intro a fs content hfile _ _
    refine ⟨fs, rfl, ?_⟩
    rw [List.filter_nil, written, List.flatMap_nil, List.append_nil]
    exact .refl hfile
  | cons d ds ih =>
    intro a fs content hfile hkept hquiet
    obtain ⟨hs, happend, hrewrites⟩ := exists_answer hfile hkept hquiet d
    have hkept' : a.kept ≤ (content ++ a.written ([d].filter a.header.schema.Fits)).length := by
      rw [List.length_append]
      exact Nat.le_trans hkept (Nat.le_add_right _ _)
    obtain ⟨gs, hall, hrest⟩ :=
      ih (a := { a with appended := a.appended + ([d].filter a.header.schema.Fits).length })
        hrewrites.content?_self hkept' (hquiet.rewrites hrewrites)
    rw [show d :: ds = [d] ++ ds from rfl, List.filter_append, List.length_append]
    refine ⟨gs, ?_, ?_⟩
    · simp only [List.singleton_append, appendAll, happend, hall, List.map_cons, Nat.add_assoc]
    · -- The blocks of the others stand behind the first one.
      rw [written, List.flatMap_append, ← List.append_assoc]
      exact hrewrites.trans hrest

/-! ## Being turned away -/

/-- Opening a log that fails for what the file holds leaves every file as it is. Where a header is read, its
fields decide whether the schema is turned away or the log is opened. An open appender turns a record away
that does not fit and stays as it is, with its file; and if no write fails, the other records of a run are
written and counted as if that one had not been there. -/
theorem mismatch_refused (path : Path) (schema : Schema) (codec : Codec) (marker : Marker)
    (fs : FileSystem) :
    (∀ e gs, «open» path schema codec marker fs = (.error e, gs) → (∀ i, e ≠ .io i) →
      ∀ place, gs.entry? place = fs.entry? place)
    ∧ (∀ place content h body, fs.findForFile path = .ok place → fs.entry? place = some (.file content) →
      Header.read content = (.ok h, body) →
        ((∃ m gs, «open» path schema codec marker fs = (.error (.mismatch m), gs))
          ↔ h.schema.Differs schema)
        ∧ (¬h.schema.Differs schema → ∃ a gs, «open» path schema codec marker fs = (.ok a, gs)))
    ∧ (∀ (b : Appender) hs d, ¬b.header.schema.Fits d →
      ∃ fault, append d (b, hs) = (.error (.mismatch (.values fault)), b, hs))
    ∧ ∀ a gs, «open» path schema codec marker fs = (.ok a, gs) → gs.Quiet → ∀ ds, ∃ calls hs start,
      appendAll ds (a, gs) = (calls, { a with appended := (ds.filter a.header.schema.Fits).length }, hs)
      ∧ calls.map Prod.fst = ds ∧ (∀ call ∈ calls, call.2 = .ok () ↔ a.header.schema.Fits call.1)
      ∧ gs.read path = .ok start
      ∧ hs.read path = .ok (start ++ a.written (ds.filter a.header.schema.Fits)) := by
  refine ⟨fun e gs hopen hrefused => entry?_of_refused hopen hrefused, ?_, ?_, ?_⟩
  · intro place content h body hfind hfile hread
    obtain ⟨hdiffers, hsame⟩ := open_of_read schema codec marker hfind hfile hread
    refine ⟨⟨?_, hdiffers⟩, hsame⟩
    rintro ⟨m, gs, hopen⟩
    by_contra h
    obtain ⟨a, hs, hopen'⟩ := hsame h
    rw [hopen] at hopen'
    cases hopen'
  · intro b hs d hfits
    obtain ⟨fault, hfault, -⟩ := answer_of_not_fits hfits
    exact ⟨fault, append_of_fault hfault hs⟩
  · intro a gs hopen hquiet ds
    obtain ⟨start, -, hrewrites, hfind, hopens⟩ := exists_opens hopen
    have hstart := hrewrites.content?_self
    have hplace := FileSystem.ne_directory_of_content? hstart
    obtain ⟨hs, hall, hwritten⟩ := exists_answers ds hstart hopens.kept_le hquiet
    rw [hopens.appended_eq, Nat.zero_add] at hall
    refine ⟨_, hs, start, hall, ?_, ?_, ?_, hwritten.read hfind hplace⟩
    · rw [List.map_map]
      exact List.map_id _
    · intro call hcall
      obtain ⟨d, -, rfl⟩ := List.mem_map.1 hcall
      exact answer_eq_ok_iff
    · exact FileSystem.read_of_content? hfind hstart

/-- A log of which part of a block is left is not cut off for a schema with fewer fields. Where it is opened,
a record with fewer values is turned away between two others. -/
theorem mismatch_refused_tornLog :
    (∃ m gs, «open» ⟨"log"⟩ ⟨"DeviceState", none, [⟨"deviceId", .string⟩]⟩ .null (.numbered 1) tornLog
        = (.error (.mismatch m), gs)
      ∧ ∀ place, gs.entry? place = tornLog.entry? place)
    ∧ ∃ a gs b calls hs start, «open» ⟨"log"⟩ DeviceRecord.schema .null (.numbered 1) tornLog = (.ok a, gs)
      ∧ gs.Quiet
      ∧ appendAll [plainEntry.datum, [.string "0x1321", .long 1], plainEntry.datum] (a, gs) = (calls, b, hs)
      ∧ b.appended = 2 ∧ gs.read ⟨"log"⟩ = .ok start
      ∧ hs.read ⟨"log"⟩ = .ok (start ++ a.written [plainEntry.datum, plainEntry.datum]) := by
  have hfind : tornLog.findForFile ⟨"log"⟩ = .ok ["log"] := rfl
  have hfile : tornLog.entry? ["log"]
      = some (.file (plainHeader.encode ++ (plainHeader.frame plainEntry ++ tornBlock))) := rfl
  have hread := (Header.reads_encode logs_plain.writable).whole (plainHeader.frame plainEntry ++ tornBlock)
  constructor
  · obtain ⟨hkept, hdecides, -, -⟩ := mismatch_refused ⟨"log"⟩ ⟨"DeviceState", none, [⟨"deviceId", .string⟩]⟩
      .null (.numbered 1) tornLog
    obtain ⟨m, gs, hopen⟩ := (hdecides _ _ _ _ hfind hfile hread).1.2 (.inl (by decide))
    exact ⟨m, gs, hopen, hkept _ _ hopen nofun⟩
  · obtain ⟨r, gs, after, hopen, hrewrites, hopens⟩ :=
      exists_open_file DeviceRecord.schema .null (.numbered 1) hfind hfile
    obtain ⟨rfl, rfl⟩ := hopens.eq_of_read hread rfl rfl
    have htorn : tornLog.Quiet := ⟨rfl, nofun⟩
    have hquiet : gs.Quiet := htorn.rewrites hrewrites
    obtain ⟨-, -, -, hrun⟩ := mismatch_refused ⟨"log"⟩ DeviceRecord.schema .null (.numbered 1) tornLog
    obtain ⟨calls, hs, start, hall, -, -, hstart, hread'⟩ :=
      hrun _ _ hopen hquiet [plainEntry.datum, [.string "0x1321", .long 1], plainEntry.datum]
    exact ⟨_, gs, _, calls, hs, start, hopen, hquiet, hall, rfl, hstart, hread'⟩

end Appender

end DeviceLog
