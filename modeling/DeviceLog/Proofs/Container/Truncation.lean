import DeviceLog.Proofs.Container.Stream
import DeviceLog.Proofs.Wire.Datum

/-! # Every cut is told

Whether a file was written to its end is told by one error only, so what was cut off must not look like
anything else: neither like a shorter value nor like something malformed. Of headers, blocks and records
alike it is said exactly of their proper prefixes that the data end too early.

* `Wire.endOfData_iff` turns cuts after so many bytes into prefixes.
* `Header.layout_fst_endOfData_iff` does not ask what a header says, so that it may say anything.
* `Block.read_fst_endOfData_iff`: before its first byte a block is not cut but absent.
* `endOfData_iff_cut` puts these together with the records.
-/

namespace DeviceLog

/-! ## Prefixes -/

theorem Action.ofExcept_fst {ε σ α : Type} (r : Except ε α) (s : σ) :
    ((Action.ofExcept r : Action ε σ α) s).1 = r := by
  cases r <;> rfl

namespace Wire

variable {α : Type} {p : Reader α} {bytes front : Bytes}

theorem endOfData_iff (hcut : ∀ n < bytes.length, ∃ rest, p (bytes.take n) = (.error .endOfData, rest))
    (hwhole : (p bytes).1 ≠ .error .endOfData) (hfront : front <+: bytes) :
    (p front).1 = .error .endOfData ↔ front ≠ bytes := by
  constructor
  · rintro hend rfl
    exact hwhole hend
  · intro hne
    have hlength : front.length < bytes.length :=
      Nat.lt_of_le_of_ne hfront.length_le fun heq => hne (hfront.eq_of_length heq)
    obtain ⟨rest, hrest⟩ := hcut front.length hlength
    rw [← List.prefix_iff_eq_take.1 hfront] at hrest
    rw [hrest]

theorem Reads.endOfData_iff {a : α} (h : Reads p bytes a) (hfront : front <+: bytes) :
    (p front).1 = .error .endOfData ↔ front ≠ bytes := by
  apply Wire.endOfData_iff h.cut _ hfront
  rw [h.alone]
  nofun

end Wire

/-! ## Headers and blocks -/

namespace Header

theorem schemaOf_ne_endOfData (entry : Option Bytes) : schemaOf entry ≠ .error .endOfData := by
  unfold schemaOf
  split
  · nofun
  · split <;> nofun

theorem codecOf_ne_endOfData (entry : Option Bytes) : codecOf entry ≠ .error .endOfData := by
  unfold codecOf
  split
  · nofun
  · simp only
    split <;> nofun

/-- What the entries of a whole header say is at worst wrong. -/
theorem ofEntries_ne_endOfData (entries : List (String × Bytes)) (marker : Marker) :
    ofEntries entries marker ≠ .error .endOfData := by
  intro hend
  obtain ⟨schema, codec, -, -, hok⟩ | ⟨e, herror, hentry⟩ := ofEntries_cases entries marker
  · rw [hok] at hend
    cases hend
  · rw [herror] at hend
    cases hend
    cases hentry with
    | inl hschema => exact schemaOf_ne_endOfData _ hschema
    | inr hcodec => exact codecOf_ne_endOfData _ hcodec

/-- However the entries are laid out, a cut is told and nothing else is taken for one. -/
theorem layout_fst_endOfData_iff {blocks : List MapBlock} (h : Countable (blocks.flatMap MapBlock.entries))
    {marker : Marker} {front : Bytes} (hfront : front <+: layout blocks marker) :
    (read front).1 = .error .endOfData ↔ front ≠ layout blocks marker := by
  apply Wire.endOfData_iff (cut_layout h marker) _ hfront
  have hread := read_layout h marker []
  rw [List.append_nil] at hread
  rw [hread, Action.ofExcept_fst]
  exact ofEntries_ne_endOfData _ marker

theorem read_fst_endOfData_iff {h : Header} (hcountable : Countable h.entries) {front : Bytes}
    (hfront : front <+: h.encode) : (read front).1 = .error .endOfData ↔ front ≠ h.encode := by
  rw [← flatMap_ownBlock] at hcountable
  rw [encode_eq_layout] at hfront ⊢
  exact layout_fst_endOfData_iff hcountable hfront

end Header

theorem Block.read_fst_endOfData_iff {h : Header} {b : Block} (hw : b.Writable h) {front : Bytes}
    (hfront : front <+: b.encode h) :
    (read h front).1 = .error .endOfData ↔ front ≠ [] ∧ front ≠ b.encode h := by
  have hframe : b.Framed h (b.encode h) := hw.framed rfl rfl
  by_cases hnil : front = []
  · subst hnil
    simp [read]
  · have hone : (read h front).1 = .error .endOfData ↔ (readOne h front).1 = .error .endOfData := by
      cases hread : readOne h front with
      | mk r left =>
        cases r with
        | ok found => simp [read_of_ok hread]
        | error e => simp [read_of_error hnil hread]
    rw [hone, hframe.reads.endOfData_iff hfront]
    simp [hnil]

/-! ## Records -/

theorem Datum.read_fst_endOfData_iff {schema : Schema} {datum : Datum} {bytes : Bytes}
    (hbytes : encode schema datum = .ok bytes) (hfits : ∀ value ∈ datum, value.Fits) {front : Bytes}
    (hfront : front <+: bytes) : (read schema front).1 = .error .endOfData ↔ front ≠ bytes := by
  cases hfault : schema.fault datum with
  | some fault => simp [encode, hfault] at hbytes
  | none =>
    rw [encode_eq_ok hfault, Except.ok.injEq] at hbytes
    subst hbytes
    exact (reads_fields (Schema.fault_eq_none_iff.1 hfault) hfits).endOfData_iff hfront

/-- Of what is written for a header, for a block or for a record, a part from its beginning is told to end
too early exactly if it is not the whole, and of a block not nothing. This is so whatever the header says,
be it that its metadata have the names that are kept for the schema and the codec and it is refused as a
whole; whatever the records of the block and its codec; and wherever the cut falls. All that is asked is
that the lengths can be written. -/
theorem endOfData_iff_cut :
    (∀ h : Header, Header.Countable h.entries → ∀ front, front <+: h.encode →
        ((Header.read front).1 = .error .endOfData ↔ front ≠ h.encode))
      ∧ (∀ (h : Header) (b : Block), b.Writable h → ∀ front, front <+: b.encode h →
          ((Block.read h front).1 = .error .endOfData ↔ front ≠ [] ∧ front ≠ b.encode h))
      ∧ ∀ (schema : Schema) (datum : Datum) (bytes : Bytes), Datum.encode schema datum = .ok bytes →
          (∀ value ∈ datum, value.Fits) → ∀ front, front <+: bytes →
            ((Datum.read schema front).1 = .error .endOfData ↔ front ≠ bytes) :=
  ⟨fun _ hcountable _ hfront => Header.read_fst_endOfData_iff hcountable hfront,
    fun _ _ hw _ hfront => Block.read_fst_endOfData_iff hw hfront,
    fun _ _ _ hbytes hfits _ hfront => Datum.read_fst_endOfData_iff hbytes hfits hfront⟩

/-- A header whose metadata name a codec that there is not: as a whole it is refused for that. -/
def strangeHeader : Header :=
  { Header.gaugeHeader with metadata := Metadata.empty.insert Header.codecKey (Utf8.encode "zstandard") }

/-- Cut within a letter of two bytes, within a payload, and within a number. -/
theorem endOfData_iff_cut_strangeHeader :
    (Header.Countable strangeHeader.entries
        ∧ (Header.read (strangeHeader.encode.take 54)).1 = .error .endOfData)
      ∧ (Block.Writable Block.plainHeader ⟨1, [2, 3]⟩
        ∧ (Block.read Block.plainHeader ((Block.encode Block.plainHeader ⟨1, [2, 3]⟩).take 3)).1
          = .error .endOfData)
      ∧ Datum.encode Datum.sampleSchema Datum.sampleDatum = .ok Datum.sampleDatum.bytes
        ∧ (∀ value ∈ Datum.sampleDatum, value.Fits)
        ∧ (Datum.read Datum.sampleSchema (Datum.sampleDatum.bytes.take 4)).1 = .error .endOfData := by
  have hcountable : Header.Countable strangeHeader.entries :=
    ⟨by decide, by decide +kernel, by decide +kernel⟩
  have hwritable : Block.Writable Block.plainHeader ⟨1, [2, 3]⟩ := Block.writable_of_length_lt (by simp) (by simp) _
  have hencode : Datum.encode Datum.sampleSchema Datum.sampleDatum = .ok Datum.sampleDatum.bytes := by rfl
  have hfits : ∀ value ∈ Datum.sampleDatum, value.Fits := by decide +kernel
  obtain ⟨hheader, hblock, hdatum⟩ := endOfData_iff_cut
  refine ⟨⟨hcountable, ?_⟩, ⟨hwritable, ?_⟩, hencode, hfits, ?_⟩
  · exact (hheader _ hcountable _ (List.take_prefix _ _)).2 (by decide +kernel)
  · exact (hblock _ _ hwritable _ (List.take_prefix _ _)).2 (by decide +kernel)
  · exact (hdatum _ _ _ hencode hfits _ (List.take_prefix _ _)).2 (by decide +kernel)

end DeviceLog
