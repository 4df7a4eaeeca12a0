import DeviceLog.Proofs.Container.Exact
import DeviceLog.Proofs.Log.Content
import DeviceLog.Proofs.Wire.Varint

/-! # What a body may look like

The grammar of what follows a header, on the bytes alone, and that readers accept exactly this.

* `Datum.Sequence`: records one after another, and nothing left. `Block.datums_eq_ok_iff`: the records
  of a block are such a sequence, as many as the block says.
* `Block.Spelled`: a count, a size, a payload of this size and the marker of the header.
  `Block.spelled_iff`: these are the blocks that are read, with records that are read.
* `Header.Body`: blocks one after another. `Header.datums_eq_ok_iff` and `Contents.values_spelled`: a
  body has records if and only if it is spelled so, and any other is refused as a whole.
-/

namespace DeviceLog

/-! ## The records of a block -/

/-- Bytes that are records of a schema one after another, up to their end. -/
inductive Datum.Sequence (schema : Schema) : List Datum → Bytes → Prop
  | nil : Sequence schema [] []
  | cons {d : Datum} {ds : List Datum} {bytes rest : Bytes} :
      Datum.read schema bytes = (.ok d, rest) → Sequence schema ds rest → Sequence schema (d :: ds) bytes

theorem Datum.times_read_eq_ok_iff {schema : Schema} {ds : List Datum} : ∀ {count : Nat} {bytes : Bytes},
    Action.times (read schema) count bytes = (.ok ds, []) ↔ Sequence schema ds bytes ∧ ds.length = count := by
  induction ds with
  | nil =>
    intro count bytes
    constructor
    · intro h
      cases count with
      | zero =>
        cases h
        exact ⟨.nil, rfl⟩
      | succ count =>
        obtain ⟨_, _, _, hcons, -, -⟩ := Action.times_succ_eq_ok h
        cases hcons
    · rintro ⟨hsequence, hlength⟩
      cases hsequence
      subst hlength
      rfl
  | cons d ds ih =>
    intro count bytes
    constructor
    · intro h
      cases count with
      | zero => cases h
      | succ count =>
        obtain ⟨first, others, afterFirst, hcons, hfirst, hothers⟩ := Action.times_succ_eq_ok h
        cases hcons
        obtain ⟨hsequence, hlength⟩ := ih.1 hothers
        exact ⟨.cons hfirst hsequence, congrArg Nat.succ hlength⟩
    · rintro ⟨hsequence, rfl⟩
      cases hsequence with
      | cons hfirst hothers =>
        rw [List.length_cons, Action.times_succ, Action.bind_of_ok hfirst,
          Action.bind_of_ok (ih.2 ⟨hothers, rfl⟩)]
        rfl

namespace Block

/-- A block has the records that its data are, if they are as many as it says. -/
theorem datums_eq_ok_iff {schema : Schema} {b : Block} {ds : List Datum} :
    b.datums schema = .ok ds ↔ Datum.Sequence schema ds b.data ∧ ds.length = b.count := by
  rw [← Datum.times_read_eq_ok_iff, datums]
  split
  · rename_i found h
    rw [h, Except.ok.injEq, Prod.mk.injEq, Except.ok.injEq, and_iff_left rfl]
  · rename_i found rest hrest h
    rw [h]
    constructor
    · intro heq
      cases heq
    · intro heq
      cases heq
      exact absurd rfl hrest
  · rename_i h
    rw [h]
    constructor <;> (intro heq; cases heq)

/-! ## One block -/

/-- Bytes that are a block with these records: how many there are, the size of the payload, the
payload, whose data are the records, and the marker of the log. -/
def Spelled (h : Header) (ds : List Datum) (bytes : Bytes) : Prop :=
  ∃ count size payload data, bytes = count ++ (size ++ (payload ++ h.marker.bytes))
    ∧ Wire.SpelledLength ds.length count ∧ Wire.SpelledLength payload.length size
    ∧ h.codec.decompress payload = .ok data ∧ Datum.Sequence h.schema ds data

/-- The blocks that are read, and whose records are read. -/
theorem spelled_iff {h : Header} {ds : List Datum} {bytes : Bytes} :
    Spelled h ds bytes ↔ ∃ b : Block, b.Framed h bytes ∧ b.datums h.schema = .ok ds := by
  constructor
  · rintro ⟨count, size, payload, data, rfl, hcount, hsize, hdata, hsequence⟩
    have hframe : Framed h ⟨ds.length, data⟩ (count ++ (size ++ (payload ++ h.marker.bytes))) :=
      framed_of_parts (Wire.reads_length_iff.2 hcount) (Wire.reads_length_iff.2 hsize) hdata
    exact ⟨⟨ds.length, data⟩, hframe, datums_eq_ok_iff.2 ⟨hsequence, rfl⟩⟩
  · rintro ⟨b, hframe, hdatums⟩
    obtain ⟨hsequence, hcounted⟩ := datums_eq_ok_iff.1 hdatums
    obtain ⟨count, size, payload, hbytes, hcount, hsize, hdata⟩ := exists_parts_of_readOne hframe.reads.alone
    rw [List.append_nil] at hbytes
    refine ⟨count, size, payload, b.data, hbytes, ?_, Wire.reads_length_iff.1 hsize, hdata, hsequence⟩
    rw [hcounted]
    exact Wire.reads_length_iff.1 hcount

end Block

/-! ## All blocks -/

namespace Header

variable {h : Header}

/-- Bytes that are blocks of a log one after another, with the records of all of them. -/
inductive Body (h : Header) : List Datum → Bytes → Prop
  | nil : Body h [] []
  | cons {ds more : List Datum} {bytes rest : Bytes} :
      Block.Spelled h ds bytes → Body h more rest → Body h (ds ++ more) (bytes ++ rest)

theorem Body.exists_frames {ds : List Datum} {body : Bytes} (hb : h.Body ds body) :
    ∃ found, h.Frames found body ∧ ∃ lists, found.mapM (Block.datums h.schema) = .ok lists
      ∧ lists.flatten = ds := by
  induction hb with
  | nil => exact ⟨[], .nil, [], rfl, rfl⟩
  | @cons ds more bytes rest hspelled _ ih =>
    obtain ⟨found, hframes, lists, hlists, rfl⟩ := ih
    obtain ⟨b, hframe, hdatums⟩ := Block.spelled_iff.1 hspelled
    refine ⟨b :: found, .cons hframe hframes, ds :: lists, ?_, List.flatten_cons⟩
    rw [List.mapM_cons, hdatums, hlists]
    rfl

theorem Frames.body {found : List Block} {body : Bytes} (hb : h.Frames found body) :
    ∀ {lists : List (List Datum)}, found.mapM (Block.datums h.schema) = .ok lists → h.Body lists.flatten body := by
  induction hb with
  | nil =>
    intro lists hlists
    cases hlists
    exact .nil
  | @cons b blocks bytes rest hframe _ ih =>
    intro lists hlists
    rw [List.mapM_cons] at hlists
    cases hfirst : b.datums h.schema with
    | error e =>
      rw [hfirst] at hlists
      cases hlists
    | ok ds =>
      cases hrest : blocks.mapM (Block.datums h.schema) with
      | error e =>
        rw [hfirst, hrest] at hlists
        cases hlists
      | ok more =>
        rw [hfirst, hrest] at hlists
        cases hlists
        rw [List.flatten_cons]
        exact .cons (Block.spelled_iff.2 ⟨b, hframe, hfirst⟩) (ih hrest)

theorem datums_eq_ok_iff {ds : List Datum} {body : Bytes} : h.datums body = .ok ds ↔ h.Body ds body := by
  constructor
  · intro hread
    obtain ⟨found, hframes, hall⟩ := frames_of_datums hread
    cases hlists : found.mapM (Block.datums h.schema) with
    | error e =>
      rw [hlists] at hall
      cases hall
    | ok lists =>
      rw [hlists] at hall
      cases hall
      exact hframes.body hlists
  · intro hb
    obtain ⟨found, hframes, lists, hlists, rfl⟩ := hb.exists_frames
    rw [datums_frames hframes, hlists]
    rfl

end Header

/-- The records of a log are read if and only if its body is blocks up to its end, and then they are
those of the blocks in their order. Any other body is refused, without any records. -/
theorem Contents.values_spelled (c : Contents) :
    (∀ ds, c.values = .ok ds ↔ c.header.Body ds c.body)
      ∧ ((∃ e, c.values = .error (.corrupt e)) ↔ ¬∃ ds, c.header.Body ds c.body) := by
  have hiff : ∀ ds, c.values = .ok ds ↔ c.header.Body ds c.body := fun ds =>
    values_eq_ok_iff.trans Header.datums_eq_ok_iff
  refine ⟨hiff, ?_⟩
  constructor
  · rintro ⟨e, hrefused⟩ ⟨ds, hbody⟩
    rw [(hiff ds).2 hbody] at hrefused
    cases hrefused
  · intro hnone
    cases hdatums : c.header.datums c.body with
    | error e => exact ⟨e, by rw [values, hdatums]⟩
    | ok ds => exact absurd ⟨ds, Header.datums_eq_ok_iff.1 hdatums⟩ hnone

/-- A block without records, of which even the count is spelled with a group to spare. -/
example (marker : Marker) (schema : Schema) (metadata : Metadata) :
    (⟨schema, .null, metadata, marker⟩ : Header).Body [] ([0x80, 0x00] ++ ([0x00] ++ ([] ++ marker.bytes)) ++ []) :=
  .cons ⟨_, _, _, [], rfl, ⟨0, ⟨0, .more (by decide) (.last (by decide)), by decide, by decide⟩, by decide⟩,
    ⟨0, ⟨0, .last (by decide), by decide, by decide⟩, by decide⟩, rfl, .nil⟩ .nil

end DeviceLog
