import DeviceLog.Proofs.Log.Mismatch
import DeviceLog.Proofs.Log.Records

/-! # Which schemas fit together

Schemas fit together if they have the same fields. This may be asked of the lists of fields or by looking for
a difference, and from either side: an appender looks from the log to its caller, and a reader from the
records that it wants to the log. `Schema.difference_agrees`: the answer is one equivalence of schemas, and
where they do not fit the difference is told of the first place that there is one.
-/

namespace DeviceLog

namespace Schema

variable {a b : Schema}

theorem isCompatible_iff : a.isCompatible b = true ↔ a.fields = b.fields := by
  simp [isCompatible]

theorem equivalence_isCompatible : Equivalence fun a b : Schema => a.isCompatible b = true where
  refl _ := isCompatible_iff.2 rfl
  symm h := isCompatible_iff.2 (isCompatible_iff.1 h).symm
  trans h h' := isCompatible_iff.2 ((isCompatible_iff.1 h).trans (isCompatible_iff.1 h'))

/-! ## What is told -/

/-- The first place in which two schemas have other fields, with these fields. -/
structure DifferFirst (a b : Schema) (i : Nat) (f g : Field) : Prop where
  left : a.fields[i]? = some f
  right : b.fields[i]? = some g
  differ : f.name ≠ g.name ∨ f.type ≠ g.type
  before : ∀ j < i, a.fields[j]? = b.fields[j]?

/-- What two schemas that do not fit together are told. -/
inductive Told (a b : Schema) : String → Prop
  | count : a.fields.length ≠ b.fields.length →
      Told a b ("expected " ++ toString a.fields.length ++ " fields, found " ++ toString b.fields.length)
  | field {i : Nat} {f g : Field} : a.fields.length = b.fields.length → DifferFirst a b i f g →
      Told a b ("expected field " ++ f.name ++ " (" ++ f.type.title ++ "), found " ++ g.name
        ++ " (" ++ g.type.title ++ ")")

theorem ne_iff {f g : Field} : f ≠ g ↔ f.name ≠ g.name ∨ f.type ≠ g.type := by
  rw [Ne, Field.mk.injEq, not_and_or]

theorem find?_zip_ne_eq_some_iff (hlength : a.fields.length = b.fields.length) {f g : Field} :
    (a.fields.zip b.fields).find? (fun pair => pair.1 ≠ pair.2) = some (f, g)
      ↔ ∃ i, DifferFirst a b i f g := by
  rw [List.find?_eq_some_iff_getElem]
  constructor
  · rintro ⟨hne, i, hi, hpair, hbefore⟩
    rw [List.length_zip, ← hlength, Nat.min_self] at hi
    rw [List.getElem_zip, Prod.mk.injEq] at hpair
    refine ⟨i, ?_, ?_, ne_iff.1 (by simpa using hne), fun j hj => ?_⟩
    · rw [List.getElem?_eq_getElem hi, hpair.1]
    · rw [List.getElem?_eq_getElem (hlength ▸ hi), hpair.2]
    · have hsame := hbefore j hj
      rw [List.getElem_zip] at hsame
      rw [List.getElem?_eq_getElem (Nat.lt_trans hj hi),
        List.getElem?_eq_getElem (hlength ▸ Nat.lt_trans hj hi)]
      simpa using hsame
  · rintro ⟨i, hleft, hright, hdiffer, hbefore⟩
    obtain ⟨hi, hf⟩ := List.getElem?_eq_some_iff.1 hleft
    obtain ⟨hi', hg⟩ := List.getElem?_eq_some_iff.1 hright
    have hzip : i < (a.fields.zip b.fields).length := by
      rw [List.length_zip]
      exact Nat.lt_min.2 ⟨hi, hi'⟩
    refine ⟨by simpa using ne_iff.2 hdiffer, i, hzip, ?_, ?_⟩
    · rw [List.getElem_zip, hf, hg]
    · intro j hj
      have hsame := hbefore j hj
      rw [List.getElem?_eq_getElem (Nat.lt_trans hj hi), List.getElem?_eq_getElem (Nat.lt_trans hj hi'),
        Option.some.injEq] at hsame
      rw [List.getElem_zip]
      simpa using hsame

theorem message_difference_iff {text : String} :
    (a.difference b).map Difference.message = some text ↔ Told a b text := by
  unfold difference
  by_cases hlength : a.fields.length = b.fields.length
  · rw [if_neg (not_not_intro hlength), Option.map_map, Option.map_eq_some_iff]
    constructor
    · rintro ⟨⟨f, g⟩, hfound, rfl⟩
      obtain ⟨i, hfirst⟩ := (find?_zip_ne_eq_some_iff hlength).1 hfound
      exact .field hlength hfirst
    · intro h
      cases h with
      | count hne => exact absurd hlength hne
      | field _ hfirst => exact ⟨_, (find?_zip_ne_eq_some_iff hlength).2 ⟨_, hfirst⟩, rfl⟩
  · rw [if_pos hlength, Option.map_some, Option.some.injEq]
    constructor
    · rintro rfl
      exact .count hlength
    · intro h
      cases h with
      | count _ => rfl
      | field heq _ => exact absurd heq hlength

end Schema

/-! ## Who asks -/

/-- A log is refused to an appender of device records exactly if their readers refuse it. -/
theorem Appender.mismatch_iff_records {fs : FileSystem} {path : Path} {c : Contents}
    (hload : Contents.load fs path = .ok c) (codec : Codec) (marker : Marker) :
    (∃ m gs, Appender.open path DeviceRecord.schema codec marker fs = (.error (.mismatch m), gs))
      ↔ ∃ m, c.records = .error (.mismatch m) := by
  obtain ⟨place, content, hfind, hfile, hread⟩ := Contents.exists_of_load hload
  obtain ⟨hdiffers, hsame⟩ := Appender.open_of_read DeviceRecord.schema codec marker
    (FileSystem.findForFile_of_find hfind hfile) hfile hread
  rw [Contents.mismatch_iff, ← Schema.differs_iff]
  constructor
  · rintro ⟨m, gs, hopen⟩
    by_contra hfit
    obtain ⟨a, hs, hopen'⟩ := hsame hfit
    rw [hopen] at hopen'
    cases hopen'
  · exact hdiffers

namespace Schema

/-- Whether schemas fit together is an equivalence, and neither the way in which it is asked nor the side
makes a difference. What is told where they do not are both numbers of fields, if these differ, and otherwise
both fields of the first place that has two. So of the logs that can be opened by a reader those are refused
to an appender of device records that are refused to a reader of them. -/
theorem difference_agrees :
    Equivalence (fun a b : Schema => a.isCompatible b = true)
    ∧ (∀ a b : Schema, (a.difference b = none ↔ a.isCompatible b = true)
      ∧ (a.difference b = none ↔ b.difference a = none)
      ∧ ∀ text, (a.difference b).map Difference.message = some text ↔ Told a b text)
    ∧ ∀ (fs : FileSystem) (path : Path) (c : Contents) (codec : Codec) (marker : Marker),
      Contents.load fs path = .ok c →
        ((∃ m gs, Appender.open path DeviceRecord.schema codec marker fs = (.error (.mismatch m), gs))
          ↔ ∃ m, c.records = .error (.mismatch m)) := by
  refine ⟨equivalence_isCompatible, fun a b => ⟨?_, ?_, fun text => message_difference_iff⟩,
    fun fs path c codec marker hload => Appender.mismatch_iff_records hload codec marker⟩
  · rw [difference_eq_none_iff, isCompatible_iff]
  · rw [difference_eq_none_iff, difference_eq_none_iff]
    exact eq_comm

/-- A header whose schema has the first field of device records only. -/
def shortHeader : Header :=
  .new ⟨"DeviceState", none, DeviceRecord.schema.fields.take 1⟩ .null (.numbered 1)

def shortLog : FileSystem where
  entries := [(["log"], .file shortHeader.encode)]

/-- Such a log is read up to its header, and both sides refuse it. -/
theorem difference_agrees_shortLog : ∃ c : Contents, Contents.load shortLog ⟨"log"⟩ = .ok c
    ∧ (∃ m gs, Appender.open ⟨"log"⟩ DeviceRecord.schema .null (.numbered 2) shortLog
      = (.error (.mismatch m), gs))
    ∧ c.records = .error (.mismatch (.wanted ⟨"log"⟩ (.count 5 1))) := by
  have hwritable : shortHeader.Writable := Header.writable_new (by decide +kernel)
  have hload : Contents.load shortLog ⟨"log"⟩ = .ok ⟨⟨"log"⟩, shortHeader.stated, []⟩ :=
    Contents.load_of_read rfl rfl (Header.reads_encode hwritable).alone
  refine ⟨_, hload, ?_, rfl⟩
  apply (difference_agrees.2.2 _ _ _ .null (.numbered 2) hload).2
  exact ⟨_, rfl⟩

end Schema

end DeviceLog
