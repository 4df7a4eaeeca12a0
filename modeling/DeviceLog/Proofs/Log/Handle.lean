import DeviceLog.Proofs.Log.Opening
import DeviceLog.Proofs.Log.Recovery
import Mathlib.Data.List.DropRight

/-! # Appending after a write has failed

A write that fails takes the log back to the length it had when the appender was opened, and the
appender goes on from there.

* `Appender.appendAll` appends records whatever becomes of each, and `Appender.sinceFailure` are those
  appended after the last failure.
* `Appender.Opened` is what opening leaves, and `Appender.Continues` is the invariant of the run: in
  front of these records is what the log was when it was opened, or, after a failure, what the log is
  taken back to.
* `Appender.valuesAt_appendAll`: the log is read as what it held when it was opened and these records,
  unless the appender made the log itself and a write has failed. Then the header has gone with the
  rest, and what is appended afterwards cannot be read.
-/

namespace DeviceLog

/-- All records of the log at a path. -/
def Contents.valuesAt (fs : FileSystem) (path : Path) : Except LogError (List Datum) := do
  (← load fs path).values

namespace Appender

variable {schema : Schema} {codec : Codec} {marker : Marker} {path : Path} {place : Place}
  {a b : Appender} {fs gs hs : FileSystem} {start : Bytes} {calls : List (Datum × Except LogError Unit)}

/-- Appends records one after another, and gives each with its answer. -/
def appendAll : List Datum → Appender × FileSystem →
    List (Datum × Except LogError Unit) × Appender × FileSystem
  | [], s => ([], s)
  | d :: ds, s =>
    let (r, s) := append d s
    let (calls, s) := appendAll ds s
    ((d, r) :: calls, s)

/-- Whether all writes have gone through. -/
def allWritten (calls : List (Datum × Except LogError Unit)) : Bool := calls.all fun call => call.2.isOk

/-- The records that were appended after the last write that failed. -/
def sinceFailure (calls : List (Datum × Except LogError Unit)) : List Datum :=
  (calls.rtakeWhile fun call => call.2.isOk).map Prod.fst

/-! ## Opening -/

/-- What opening leaves: a header with its body, which the log is taken back to if a write fails. A log
that was made by the appender is taken back to nothing. -/
structure Opened (schema : Schema) (place : Place) (a : Appender) (start : Bytes) : Prop where
  place_eq : a.place = place
  appended : a.appended = 0
  fields : a.header.schema.fields = schema.fields
  kept : a.kept = if a.created then 0 else start.length
  header : ∃ body, Header.read start = (.ok a.header.stated, body) ∧ (a.created = true → body = [])

theorem Opened.kept_le (ho : Opened schema place a start) : a.kept ≤ start.length := by
  rw [ho.kept]
  split
  · exact Nat.zero_le _
  · exact Nat.le_refl _

theorem Opens.opened {content after : Bytes}
    (hopens : Opens path schema codec marker place content (.ok a) after)
    (hw : (Header.new schema codec marker).Writable) : Opened schema place a after := by
  obtain ⟨body, hread, hcreated, -⟩ := hopens.exists_read hw
  have hkept := hopens.kept_eq
  cases hopens with
  | created _ => exact ⟨rfl, rfl, rfl, hkept, body, hread, hcreated⟩
  | whole _ hfields _ => exact ⟨rfl, rfl, hfields, hkept, body, hread, hcreated⟩
  | torn _ hfields _ _ => exact ⟨rfl, rfl, hfields, hkept, body, hread, hcreated⟩

/-- A log is opened at a place where there is no directory, or not at all. -/
theorem open_cases (path : Path) (schema : Schema) (codec : Codec) (marker : Marker) (fs : FileSystem) :
    (∃ place, fs.findForFile path = .ok place ∧ fs.entry? place ≠ some .directory)
      ∨ ∃ e, «open» path schema codec marker fs = (.error (.io e), fs) := by
  simp only [«open», FileSystem.openFile]
  cases hfind : fs.findForFile path with
  | error e => exact .inr ⟨e, rfl⟩
  | ok place =>
    by_cases hdirectory : fs.entry? place = some .directory
    · simp only [hdirectory]
      exact .inr ⟨_, rfl⟩
    · exact .inl ⟨place, rfl, hdirectory⟩

/-- Where a log was opened, there is a place for it, and what it holds is one of the outcomes of opening. -/
theorem exists_opens (hopen : «open» path schema codec marker fs = (.ok a, gs)) :
    ∃ start, fs.findForFile path = .ok a.place ∧ fs.Rewrites gs a.place start ∧ gs.find path = .ok a.place
      ∧ Opens path schema codec marker a.place ((fs.content? a.place).getD []) (.ok a) start := by
  rcases open_cases path schema codec marker fs with ⟨place, hfind, hentry⟩ | ⟨e, herror⟩
  · obtain ⟨r, gs', start, hopen', hrewrites, hopens⟩ := exists_open schema codec marker hfind hentry rfl
    rw [hopen] at hopen'
    cases hopen'
    obtain rfl : a.place = place := by cases hopens <;> rfl
    have hfind' := (hrewrites.grows hentry).find (FileSystem.find_of_findForFile hfind)
    exact ⟨start, hfind, hrewrites, hfind', hopens⟩
  · rw [hopen] at herror
    cases herror

theorem exists_opened (hopen : «open» path schema codec marker fs = (.ok a, gs))
    (hw : (Header.new schema codec marker).Writable) :
    ∃ place start, gs.find path = .ok place ∧ gs.content? place = some start
      ∧ Opened schema place a start := by
  obtain ⟨start, -, hrewrites, hfind, hopens⟩ := exists_opens hopen
  exact ⟨a.place, start, hfind, hrewrites.content?_self, hopens.opened hw⟩

/-! ## Appending -/

/-- The bytes of records that an appender has written. -/
def written (a : Appender) (records : List Datum) : Bytes :=
  records.flatMap fun d => (Block.ofDatum d).encode a.header

/-- What the records since the last failure stand behind. -/
def base (a : Appender) (start : Bytes) (calls : List (Datum × Except LogError Unit)) : Bytes :=
  if allWritten calls then start else start.take a.kept

/-- What a run of calls has left: the appender that was opened, but for the number of its records, and
behind what the log was or is taken back to the records since the last failure. -/
structure Continues (a : Appender) (gs : FileSystem) (start : Bytes)
    (calls : List (Datum × Except LogError Unit)) (b : Appender) (hs : FileSystem) : Prop where
  appender : b = { a with appended := (sinceFailure calls).length }
  file : gs.Rewrites hs a.place (a.base start calls ++ a.written (sinceFailure calls))

theorem sinceFailure_ok (calls : List (Datum × Except LogError Unit)) (d : Datum) :
    sinceFailure (calls ++ [(d, .ok ())]) = sinceFailure calls ++ [d] := by
  simp only [sinceFailure]
  rw [List.rtakeWhile_concat_pos _ _ _ rfl, List.map_append]
  rfl

theorem sinceFailure_error (calls : List (Datum × Except LogError Unit)) (d : Datum) (e : LogError) :
    sinceFailure (calls ++ [(d, .error e)]) = [] := by
  simp only [sinceFailure]
  rw [List.rtakeWhile_concat_neg _ _ _ (by simp [Except.isOk, Except.toBool])]
  rfl

theorem allWritten_concat (calls : List (Datum × Except LogError Unit)) (call : Datum × Except LogError Unit) :
    allWritten (calls ++ [call]) = (allWritten calls && call.2.isOk) := by
  simp [allWritten]

theorem base_ok (d : Datum) : a.base start (calls ++ [(d, .ok ())]) = a.base start calls := by
  have hwritten : allWritten (calls ++ [(d, .ok ())]) = allWritten calls := by
    rw [allWritten_concat]
    exact Bool.and_true _
  simp only [base, hwritten]

theorem base_error (d : Datum) (e : LogError) :
    a.base start (calls ++ [(d, .error e)]) = start.take a.kept := by
  have hwritten : allWritten (calls ++ [(d, .error e)]) = false := by
    rw [allWritten_concat]
    exact Bool.and_false _
  simp only [base, hwritten, Bool.false_eq_true, if_false]

theorem take_base (calls : List (Datum × Except LogError Unit)) (hkept : a.kept ≤ start.length)
    (more : Bytes) :
    a.kept ≤ (a.base start calls ++ more).length
      ∧ (a.base start calls ++ more).take a.kept = start.take a.kept := by
  have hlength : a.kept ≤ (a.base start calls).length := by
    simp only [base]
    split
    · exact hkept
    · exact (List.length_take_of_le hkept).ge
  refine ⟨?_, ?_⟩
  · rw [List.length_append]
    exact Nat.le_trans hlength (Nat.le_add_right _ _)
  · rw [List.take_append_of_le_length hlength]
    simp only [base]
    split
    · rfl
    · rw [List.take_take, Nat.min_self]

theorem Continues.append (hc : Continues a gs start calls b hs) (hkept : a.kept ≤ start.length)
    {d : Datum} (hfault : a.header.schema.fault d = none) {r : Except LogError Unit} {b' : Appender}
    {hs' : FileSystem} (happend : append d (b, hs) = (r, b', hs')) :
    Continues a gs start (calls ++ [(d, r)]) b' hs' := by
  obtain ⟨rfl, hfile⟩ := hc
  obtain ⟨hlength, htake⟩ := take_base calls hkept (a.written (sinceFailure calls))
  obtain ⟨ks, ⟨hok, hrewrites⟩ | ⟨⟨e, herror⟩, -, hrewrites⟩⟩ :=
    append_cases (a := { a with appended := (sinceFailure calls).length }) hfile.content?_self hlength hfault
  · rw [happend] at hok
    cases hok
    refine ⟨?_, ?_⟩
    · rw [sinceFailure_ok, List.length_append]
      rfl
    · -- The new block stands behind the others.
      rw [base_ok, sinceFailure_ok, written, List.flatMap_append, List.flatMap_singleton, ← List.append_assoc]
      exact hfile.trans hrewrites
  · rw [happend] at herror
    cases herror
    refine ⟨?_, ?_⟩
    · rw [sinceFailure_error]
      rfl
    · rw [base_error, sinceFailure_error, written, List.flatMap_nil, List.append_nil, ← htake]
      exact hfile.trans hrewrites

/-- The first of several records is appended, and then the others. -/
theorem appendAll_cons {d : Datum} {ds : List Datum} {s s' : Appender × FileSystem}
    (happend : appendAll (d :: ds) s = (calls, s')) :
    ∃ r mid more, append d s = (r, mid) ∧ appendAll ds mid = (more, s') ∧ calls = (d, r) :: more := by
  cases happend
  exact ⟨_, _, _, rfl, rfl, rfl⟩

theorem Continues.appendAll (hkept : a.kept ≤ start.length) : ∀ {ds : List Datum}
    {before calls : List (Datum × Except LogError Unit)} {b b' : Appender} {hs hs' : FileSystem},
    Continues a gs start before b hs → (∀ d ∈ ds, a.header.schema.fault d = none) →
      appendAll ds (b, hs) = (calls, b', hs') → Continues a gs start (before ++ calls) b' hs'
  | [], _, _, _, _, _, _, hc, _, happend => by
    cases happend
    rwa [List.append_nil]
  | d :: ds, before, calls, b, b', hs, hs', hc, hfits, happend => by
    obtain ⟨r, ⟨b₁, hs₁⟩, more, hfirst, hrest, rfl⟩ := appendAll_cons happend
    have hnext := hc.append hkept (hfits d List.mem_cons_self) hfirst
    have hall := hnext.appendAll hkept (fun e he => hfits e (List.mem_cons_of_mem d he)) hrest
    rwa [List.append_assoc] at hall

theorem map_fst_appendAll : ∀ {ds : List Datum} {calls : List (Datum × Except LogError Unit)}
    {s s' : Appender × FileSystem}, appendAll ds s = (calls, s') → calls.map Prod.fst = ds
  | [], _, _, _, happend => by
    cases happend
    rfl
  | d :: ds, calls, s, s', happend => by
    obtain ⟨r, mid, more, -, hrest, rfl⟩ := appendAll_cons happend
    rw [List.map_cons, map_fst_appendAll hrest]

theorem mem_of_mem_sinceFailure {d : Datum} (hd : d ∈ sinceFailure calls) : d ∈ calls.map Prod.fst := by
  obtain ⟨call, hcall, rfl⟩ := List.mem_map.1 hd
  exact List.mem_map_of_mem ((List.rtakeWhile_suffix _ _).mem hcall)

theorem allWritten_iff : allWritten calls = true ↔ ∀ call ∈ calls, call.2 = .ok () := by
  rw [allWritten, List.all_eq_true]
  refine forall₂_congr fun call _ => ?_
  cases call.2 with
  | ok u => exact ⟨fun _ => rfl, fun _ => rfl⟩
  | error e => exact ⟨nofun, nofun⟩

/-- An appender that has opened a log takes it back to what it was. -/
theorem base_of_sound (ho : Opened schema place a start)
    (hsound : a.created = true → ∀ call ∈ calls, call.2 = .ok ()) : a.base start calls = start := by
  simp only [base]
  split
  · rfl
  · rename_i hfailed
    have hcreated : a.created = false :=
      Bool.eq_false_iff.2 fun hcreated => hfailed (allWritten_iff.2 (hsound hcreated))
    have hkept := ho.kept
    rw [hcreated] at hkept
    rw [hkept]
    exact List.take_length

/-- An appender that has made a log takes it back to nothing. -/
theorem base_of_unsound (ho : Opened schema place a start)
    (hunsound : ¬(a.created = true → ∀ call ∈ calls, call.2 = .ok ())) : a.base start calls = [] := by
  obtain ⟨hcreated, hfailed⟩ := Classical.not_imp.1 hunsound
  rw [← allWritten_iff] at hfailed
  have hkept := ho.kept
  rw [hcreated] at hkept
  simp only [base, hfailed, Bool.false_eq_true, if_false, hkept, if_true, List.take_zero]

/-! ## Reading afterwards -/

theorem valuesAt_iff {h : Header} {content body : Bytes} (hfind : fs.find path = .ok place)
    (hfile : fs.content? place = some content) (hread : Header.read content = (.ok h, body))
    {records : List Datum} :
    Contents.valuesAt fs path = .ok records ↔ h.datums body = .ok records := by
  have hload := Contents.load_of_read hfind (FileSystem.entry?_of_content? hfile) hread
  have hvalues : Contents.valuesAt fs path = Contents.values ⟨path, h, body⟩ := by
    simp only [Contents.valuesAt, hload]
    rfl
  rw [hvalues, Contents.values_eq_ok_iff]

theorem frames_written {records : List Datum} (hcarries : ∀ d ∈ records, a.header.codec.Carries d.bytes) :
    a.header.stated.Frames (records.map Block.ofDatum) (a.written records) := by
  induction records with
  | nil => exact .nil
  | cons d records ih =>
    have hframe := Block.framed_ofDatum (hcarries d List.mem_cons_self)
    exact .cons hframe (ih fun e he => hcarries e (List.mem_cons_of_mem d he))

/-- A log that has just been made holds nothing. -/
theorem eq_nil_of_created (ho : Opened schema place a start) (hcreated : a.created = true)
    (hgs : gs.find path = .ok place) (hstart : gs.content? place = some start) {held : List Datum}
    (hheld : Contents.valuesAt gs path = .ok held) : held = [] := by
  obtain ⟨body, hread, hempty⟩ := ho.header
  have hdatums := (valuesAt_iff hgs hstart hread).1 hheld
  rw [hempty hcreated] at hdatums
  cases hdatums
  rfl

/-- Behind what was read when the log was opened the records since the last failure are read. -/
theorem valuesAt_written (ho : Opened schema place a start) (hgs : gs.find path = .ok place)
    (hstart : gs.content? place = some start) {held added : List Datum}
    (hheld : Contents.valuesAt gs path = .ok held)
    (hadded : ∀ d ∈ added, a.header.schema.fault d = none ∧ a.header.codec.Carries d.bytes)
    (hhs : hs.find path = .ok place) (hcontent : hs.content? place = some (start ++ a.written added)) :
    Contents.valuesAt hs path = .ok (held ++ added) := by
  obtain ⟨body, hread, -⟩ := ho.header
  have hdatums := (valuesAt_iff hgs hstart hread).1 hheld
  refine (valuesAt_iff hhs hcontent (Header.read_append hread (a.written added))).2 ?_
  exact Header.datums_append hdatums (fun d hd => ⟨(hadded d hd).1, (hadded d hd).2.own⟩)
    (frames_written fun d hd => (hadded d hd).2)

theorem encodeLength_one : Wire.encodeLength 1 = [2] := by
  simp only [Wire.encodeLength, Varint.encode, Varint.fold]
  rw [Wire.toInt_ofNat (by decide), if_pos (by decide), Varint.groups, if_pos (by decide)]
  rfl

/-- Without a header nothing is read. -/
theorem load_written (hfind : fs.find path = .ok place) {records : List Datum}
    (hfile : fs.content? place = some (a.written records)) :
    ∃ e, Contents.load fs path = .error (.corrupt e) := by
  cases hread : Header.read (a.written records) with
  | mk r rest =>
    cases r with
    | error e => exact ⟨e, Contents.load_of_error hfind (FileSystem.entry?_of_content? hfile) hread⟩
    | ok h =>
      have hprefix := Header.magic_prefix_of_read hread
      cases records with
      | nil => exact absurd (List.prefix_nil.1 hprefix) (by decide)
      | cons d records =>
        simp only [written, List.flatMap_cons, Block.encode, Block.ofDatum, encodeLength_one,
          List.cons_append, Header.magic, List.cons_prefix_cons] at hprefix
        exact absurd hprefix.1 (by decide)

/-! ## Runs -/

/-- What the run of an appender has left when it is closed. -/
theorem exists_closed (hopen : «open» path schema codec marker fs = (.ok a, gs))
    (hw : (Header.new schema codec marker).Writable) {ds : List Datum}
    (hfits : ∀ d ∈ ds, schema.fault d = none) (happend : appendAll ds (a, gs) = (calls, b, hs))
    {ks : FileSystem} (hclose : b.close hs = (.ok (), ks)) :
    ∃ start, gs.find path = .ok a.place ∧ gs.content? a.place = some start ∧ Opened schema a.place a start
      ∧ b.appended = (sinceFailure calls).length ∧ ks.find path = .ok a.place
      ∧ ks.content? a.place = some (a.base start calls ++ a.written (sinceFailure calls)) := by
  obtain ⟨place, start, hfind, hstart, ho⟩ := exists_opened hopen hw
  obtain rfl := ho.place_eq
  have hfits' : ∀ d ∈ ds, a.header.schema.fault d = none := fun d hd =>
    Schema.fault_eq_none_of_fields ho.fields (hfits d hd)
  have hopened : Continues a gs start [] a gs := by
    refine ⟨?_, ?_⟩
    · rw [show (sinceFailure []).length = a.appended from ho.appended.symm]
    · show gs.Rewrites gs a.place (start ++ [])
      rw [List.append_nil]
      exact .refl hstart
  obtain ⟨rfl, hfile⟩ := hopened.appendAll ho.kept_le hfits' happend
  rw [List.nil_append] at hfile hclose ⊢
  obtain ⟨hlength, -⟩ := take_base calls ho.kept_le (a.written (sinceFailure calls))
  obtain ⟨ks', ⟨hclose', hrewrites⟩ | ⟨⟨e, hclose'⟩, -, -⟩⟩ :=
    close_cases (a := { a with appended := (sinceFailure calls).length }) hfile.content?_self hlength
  · rw [hclose] at hclose'
    cases hclose'
    have hall := hfile.trans hrewrites
    refine ⟨start, hfind, hstart, ho, rfl, ?_, hall.content?_self⟩
    exact (hall.grows (FileSystem.ne_directory_of_content? hstart)).find hfind
  · rw [hclose] at hclose'
    cases hclose'

/-- An appender goes on after writes that have failed. When it is closed, it has counted the records
since the last failure, and the log is read as what was read when it was opened and these records.
Only where the appender has made the log and a write has failed, what is left is no log. -/
theorem valuesAt_appendAll (hopen : «open» path schema codec marker fs = (.ok a, gs))
    (hw : (Header.new schema codec marker).Writable) {held : List Datum}
    (hheld : Contents.valuesAt gs path = .ok held) {ds : List Datum}
    (hds : ∀ d ∈ ds, schema.fault d = none ∧ a.header.codec.Carries d.bytes)
    (happend : appendAll ds (a, gs) = (calls, b, hs)) {ks : FileSystem}
    (hclose : b.close hs = (.ok (), ks)) :
    (a.created = true → held = []) ∧ b.appended = (sinceFailure calls).length
      ∧ ((a.created = true → ∀ call ∈ calls, call.2 = .ok ()) →
        Contents.valuesAt ks path = .ok (held ++ sinceFailure calls))
      ∧ (¬(a.created = true → ∀ call ∈ calls, call.2 = .ok ()) →
        ∃ e, Contents.load ks path = .error (.corrupt e)) := by
  obtain ⟨start, hfind, hstart, ho, happended, hfind', hcontent⟩ :=
    exists_closed hopen hw (fun d hd => (hds d hd).1) happend hclose
  have hsince : ∀ d ∈ sinceFailure calls, a.header.schema.fault d = none ∧ a.header.codec.Carries d.bytes := by
    intro d hd
    have hmem := mem_of_mem_sinceFailure hd
    rw [map_fst_appendAll happend] at hmem
    exact ⟨Schema.fault_eq_none_of_fields ho.fields (hds d hmem).1, (hds d hmem).2⟩
  refine ⟨fun hcreated => eq_nil_of_created ho hcreated hfind hstart hheld, happended,
    fun hsound => ?_, fun hunsound => ?_⟩
  · rw [base_of_sound ho hsound] at hcontent
    exact valuesAt_written ho hfind hstart hheld hsince hfind' hcontent
  · rw [base_of_unsound ho hunsound, List.nil_append] at hcontent
    exact load_written hfind' hcontent

/-- One write is cut short and the next one goes through. -/
theorem exists_interrupted (a : Appender) {content : Bytes} (hfile : fs.content? a.place = some content)
    (hkept : a.kept ≤ content.length) (hlimit : fs.limit = none) {count : Nat}
    (hfates : fs.fates = [.cut count]) {d : Datum} (hfault : a.header.schema.fault d = none) :
    ∃ b hs ks, Appender.appendAll [d, d] (a, fs) = ([(d, .error (.io .fileTooLarge)), (d, .ok ())], b, hs)
      ∧ b.close hs = (.ok (), ks) := by
  have hblock := blockOf_of_fits hfault
  obtain ⟨gs, hcut, hlimit', hfates'⟩ :=
    FileSystem.append_cut hfates a.place ((Block.ofDatum d).encode a.header)
  obtain ⟨r, gs', n, hwrite, hwritten, -, -⟩ :=
    FileSystem.append_rewrites hfile ((Block.ofDatum d).encode a.header)
  rw [hcut] at hwrite
  cases hwrite
  have hquiet : gs.Quiet := ⟨hlimit'.trans hlimit, by rw [hfates']; nofun⟩
  obtain ⟨hs₁, hback, hrewrites₁⟩ := rollBack_spec hwritten.content?_self (by
    rw [List.length_append]
    exact Nat.le_trans hkept (Nat.le_add_right _ _))
  rw [List.take_append_of_le_length hkept] at hrewrites₁
  have hquiet₁ := hquiet.rewrites hrewrites₁
  have hkept₁ : a.kept ≤ (content.take a.kept).length := (List.length_take_of_le hkept).ge
  obtain ⟨hs, ⟨hagain, hrewrites⟩ | ⟨_, hloud, _⟩⟩ :=
    append_cases (a := { a with appended := 0 }) hrewrites₁.content?_self hkept₁ hfault
  · obtain ⟨ks, ⟨hclose, _⟩ | ⟨_, hloud, _⟩⟩ :=
      close_cases (a := { a with appended := 0 + 1 }) hrewrites.content?_self (by
        rw [List.length_append]
        exact Nat.le_trans hkept₁ (Nat.le_add_right _ _))
    · refine ⟨_, hs, ks, ?_, hclose⟩
      simp only [Appender.appendAll, Appender.append, hblock, hcut, hback]
      simp only [Appender.append, hblock] at hagain
      rw [hagain]
    · exact absurd (hquiet₁.rewrites hrewrites) hloud
  · exact absurd hquiet₁ hloud

/-- A log of one record, to which the next write is cut short. -/
def interruptedLog : FileSystem where
  entries := [(["log"], .file (plainHeader.log [plainEntry]))]
  fates := [.cut 3]

/-- The record whose block was cut short is not there, the one after it is. -/
theorem valuesAt_appendAll_interrupted : ∃ a b hs ks,
    (Appender.open ⟨"log"⟩ DeviceRecord.schema (.deflate 9) (.numbered 1) interruptedLog
        = (.ok a, interruptedLog)
      ∧ (Header.new DeviceRecord.schema (.deflate 9) (.numbered 1)).Writable
      ∧ Contents.valuesAt interruptedLog ⟨"log"⟩ = .ok [plainEntry.datum]
      ∧ (∀ d ∈ [plainEntry.datum, plainEntry.datum],
        DeviceRecord.schema.fault d = none ∧ a.header.codec.Carries d.bytes)
      ∧ Appender.appendAll [plainEntry.datum, plainEntry.datum] (a, interruptedLog)
        = ([(plainEntry.datum, .error (.io .fileTooLarge)), (plainEntry.datum, .ok ())], b, hs)
      ∧ b.close hs = (.ok (), ks))
    ∧ b.appended = 1 ∧ Contents.valuesAt ks ⟨"log"⟩ = .ok [plainEntry.datum, plainEntry.datum] := by
  have hl : plainHeader.Logs [plainEntry] := logs_plain.take 1
  have hfile : interruptedLog.entry? ["log"] = some (.file (plainHeader.log [plainEntry])) := rfl
  have hfields : plainHeader.stated.schema.fields = DeviceRecord.schema.fields := rfl
  have hfind : interruptedLog.findForFile ⟨"log"⟩ = .ok ["log"] := rfl
  have hopen := open_whole hl.isLog hfields hfind hfile (.deflate 9) (.numbered 1)
  have hheld : Contents.valuesAt interruptedLog ⟨"log"⟩ = .ok [plainEntry.datum] := by
    obtain ⟨contents, hload, -, hvalues⟩ :=
      hl.isLog.exists_load (FileSystem.find_of_findForFile hfind) hfile
    simp only [Contents.valuesAt, hload]
    exact hvalues
  have hd : DeviceRecord.schema.fault plainEntry.datum = none
      ∧ plainHeader.codec.Carries plainEntry.datum.bytes :=
    ⟨hl.fits plainEntry List.mem_cons_self, hl.carries plainEntry List.mem_cons_self⟩
  have hds : ∀ d ∈ [plainEntry.datum, plainEntry.datum],
      DeviceRecord.schema.fault d = none ∧ plainHeader.stated.codec.Carries d.bytes := by
    intro d hmem
    simp only [List.mem_cons, List.not_mem_nil, or_false, or_self] at hmem
    subst hmem
    exact hd
  have hw := DeviceRecord.writable_header (.deflate 9) (.numbered 1)
  obtain ⟨b, hs, ks, happend, hclose⟩ := exists_interrupted
    ⟨⟨"log"⟩, ["log"], plainHeader.stated, (plainHeader.log [plainEntry]).length, false, 0⟩
    (FileSystem.content?_of_file hfile) (Nat.le_refl _) rfl rfl hd.1
  obtain ⟨-, happended, hsound, -⟩ := valuesAt_appendAll hopen hw hheld hds happend hclose
  exact ⟨_, b, hs, ks, ⟨hopen, hw, hheld, hds, happend, hclose⟩, happended, hsound nofun⟩

/-- Where there is no file, one is made, and its header is written if that write is to go through. -/
theorem exists_created (codec : Codec) (marker : Marker) (hfind : fs.findForFile path = .ok place)
    (hnone : fs.entry? place = none) (hlimit : fs.limit = none) {fates : List Fate}
    (hfates : fs.fates = .whole :: fates) :
    ∃ gs, «open» path schema codec marker fs
        = (.ok ⟨path, place, Header.new schema codec marker, 0, true, 0⟩, gs)
      ∧ gs.content? place = some (Header.new schema codec marker).encode
      ∧ gs.limit = none ∧ gs.fates = fates := by
  have hplace : place ≠ [] := FileSystem.ne_top_of_not_directory (by rw [hnone]; simp)
  have hmade : FileSystem.openFile path fs = (.ok (place, true), fs.set place (.file [])) := by
    simp only [FileSystem.openFile, hfind, hnone]
  have hempty : (fs.set place (.file [])).content? place = some [] :=
    FileSystem.content?_of_file (by rw [FileSystem.entry?_set _ hplace, if_pos rfl])
  have hwritten := (fs.set place (.file [])).append_whole hlimit hfates place
    (Header.new schema codec marker).encode
  rw [hempty, Option.getD_some, List.nil_append] at hwritten
  simp only [«open»]
  rw [hmade]
  simp only [hempty, Option.getD_some, if_true, create]
  rw [hwritten]
  refine ⟨_, rfl, FileSystem.content?_of_file ?_, hlimit, rfl⟩
  rw [FileSystem.entry?_set _ hplace, if_pos rfl]

/-- Where the log is new, the record after the failure is appended and counted, but there is no log. -/
theorem load_interrupted : ∃ a gs b hs ks,
    Appender.open ⟨"log"⟩ DeviceRecord.schema .null (.numbered 0) { fates := [.whole, .cut 3] } = (.ok a, gs)
      ∧ Appender.appendAll [plainEntry.datum, plainEntry.datum] (a, gs)
        = ([(plainEntry.datum, .error (.io .fileTooLarge)), (plainEntry.datum, .ok ())], b, hs)
      ∧ b.close hs = (.ok (), ks) ∧ b.appended = 1
      ∧ ∃ e, Contents.load ks ⟨"log"⟩ = .error (.corrupt e) := by
  have hfits : DeviceRecord.schema.fault plainEntry.datum = none := DeviceRecord.fault_toDatum _
  have hfind : FileSystem.findForFile { fates := [.whole, .cut 3] } ⟨"log"⟩ = .ok ["log"] := rfl
  obtain ⟨gs, hopen, hcontent, hlimit, hfates⟩ := exists_created .null (.numbered 0) hfind rfl rfl rfl
  obtain ⟨b, hs, ks, happend, hclose⟩ := exists_interrupted
    ⟨⟨"log"⟩, ["log"], .new DeviceRecord.schema .null (.numbered 0), 0, true, 0⟩ hcontent (Nat.zero_le _)
    hlimit hfates hfits
  obtain ⟨start, -, -, ho, happended, hfind', hleft⟩ :=
    exists_closed hopen (DeviceRecord.writable_header _ _) (by simpa using hfits) happend hclose
  rw [base_of_unsound ho (by simp), List.nil_append] at hleft
  exact ⟨_, gs, b, hs, ks, hopen, happend, hclose, happended, load_written hfind' hleft⟩

end Appender

end DeviceLog
