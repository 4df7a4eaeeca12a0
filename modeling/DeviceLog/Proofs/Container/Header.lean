import DeviceLog.Proofs.Container.Layout
import DeviceLog.Proofs.Schema.Document

/-! # Headers are read as they were written

A header is what its own bytes are read as, but for the level of its codec, which is not stated.

* `Metadata.eq_of_find?` and `Metadata.find?_insertAll`: metadata are known through what is found in
  them, and of a list of entries that is inserted the last of each name is found.
* `Header.ofEntries_cases` and `Header.ofEntries_of_lookup` say which header some entries are.
* `Header.Writable` says which headers can be written: the two entries that are kept apart are not
  among the others, and the header is not too long for its lengths to be written.
* `Header.reads_encode` is the round trip. It also says that a header that is cut off at the end is
  recognised as such.
* `Header.exists_read_layout` is the header that all layouts of a list of entries are read as.
* `Header.length_encode_new_le` and `Header.length_encode_new_le_document`: how long a header is hardly
  depends on anything but the schema.
-/

namespace DeviceLog

/-! ## Metadata -/

namespace Metadata

theorem lookup_eq_none_of_forall_lt {name : String} {entries : List (String × Bytes)}
    (h : ∀ e ∈ entries, name < e.1) : entries.lookup name = none := by
  rw [List.lookup_eq_none_iff]
  intro e he
  exact bne_iff_ne.2 fun heq => String.lt_irrefl _ (heq ▸ h e he)

/-- Entries in order in which the same is found are the same. -/
theorem entries_eq_of_lookup : ∀ {entries entries' : List (String × Bytes)},
    InOrder entries → InOrder entries' →
      (∀ name, entries.lookup name = entries'.lookup name) → entries = entries'
  | [], [], _, _, _ => rfl
  | [], (name, value) :: rest, _, _, h => by
    have := h name
    rw [lookup_cons, if_pos rfl] at this
    cases this
  | (name, value) :: rest, [], _, _, h => by
    have := h name
    rw [lookup_cons, if_pos rfl] at this
    cases this
  | (name, value) :: rest, (name', value') :: rest', ho, ho', h => by
    have hlt := (List.pairwise_cons.1 ho).1
    have hlt' := (List.pairwise_cons.1 ho').1
    have hname : name = name' := by
      rcases Decidable.em (name < name') with hbefore | hnot
      · have hnone : ((name', value') :: rest').lookup name = none :=
          lookup_eq_none_of_forall_lt fun e he => by
            rcases List.mem_cons.1 he with rfl | he
            · exact hbefore
            · exact String.lt_trans hbefore (hlt' e he)
        rw [← h, lookup_cons, if_pos rfl] at hnone
        cases hnone
      · refine Classical.byContradiction fun hne => ?_
        have hafter := lt_of_not_lt_of_ne hnot hne
        have hnone : ((name, value) :: rest).lookup name' = none :=
          lookup_eq_none_of_forall_lt fun e he => by
            rcases List.mem_cons.1 he with rfl | he
            · exact hafter
            · exact String.lt_trans hafter (hlt e he)
        rw [h, lookup_cons, if_pos rfl] at hnone
        cases hnone
    subst hname
    have hvalue := h name
    rw [lookup_cons, lookup_cons, if_pos rfl, if_pos rfl, Option.some.injEq] at hvalue
    subst hvalue
    -- Behind the first name both find what they found before, as no name is there twice.
    have hrest : rest = rest' := by
      refine entries_eq_of_lookup (List.pairwise_cons.1 ho).2 (List.pairwise_cons.1 ho').2 fun n => ?_
      by_cases hn : n = name
      · subst hn
        rw [lookup_eq_none_of_forall_lt hlt, lookup_eq_none_of_forall_lt hlt']
      · have := h n
        rwa [lookup_cons, lookup_cons, if_neg hn, if_neg hn] at this
    rw [hrest]

theorem eq_of_find? {m m' : Metadata} (h : ∀ name, m.find? name = m'.find? name) : m = m' := by
  obtain ⟨entries, ho⟩ := m
  obtain ⟨entries', ho'⟩ := m'
  cases entries_eq_of_lookup ho ho' h
  rfl

/-- Of entries that are inserted one after another the last of a name is found, and else what was there. -/
theorem find?_insertAll (name : String) : ∀ (entries : List (String × Bytes)) (m : Metadata),
    (entries.foldl (fun m e => m.insert e.1 e.2) m).find? name
      = (entries.reverse.lookup name).or (m.find? name)
  | [], _ => rfl
  | (key, value) :: rest, m => by
    rw [List.foldl_cons, find?_insertAll name rest, find?_insert, List.reverse_cons, List.lookup_append,
      lookup_cons]
    by_cases hname : name = key <;> simp [hname]

theorem find?_ofList (entries : List (String × Bytes)) (name : String) :
    (ofList entries).find? name = entries.reverse.lookup name := by
  rw [ofList, find?_insertAll]
  exact Option.or_none

/-- Among entries in order the first of a name is also the last. -/
theorem lookup_reverse (name : String) : ∀ {entries : List (String × Bytes)}, InOrder entries →
    entries.reverse.lookup name = entries.lookup name
  | [], _ => rfl
  | (key, value) :: rest, h => by
    obtain ⟨hlt, hrest⟩ := List.pairwise_cons.1 h
    rw [List.reverse_cons, List.lookup_append, lookup_reverse name hrest, lookup_cons, lookup_cons]
    by_cases hname : name = key
    · subst hname
      rw [lookup_eq_none_of_forall_lt hlt]
      simp
    · simp [hname]

end Metadata

/-! ## Codecs -/

/-- The codec as a header states it: without a level of its own. -/
def Codec.stated : Codec → Codec
  | null => null
  | deflate _ => deflate defaultLevel

@[simp] theorem Codec.stated_stated (codec : Codec) : codec.stated.stated = codec.stated := by
  cases codec <;> rfl

theorem Codec.ofName?_name (codec : Codec) : ofName? codec.name defaultLevel = some codec.stated := by
  cases codec <;> rfl

namespace Header

def stated (h : Header) : Header := { h with codec := h.codec.stated }

/-- Whether a header can be written so that it can be read again. -/
structure Writable (h : Header) : Prop where
  schemaKey_free : h.metadata.find? schemaKey = none
  codecKey_free : h.metadata.find? codecKey = none
  length_lt : h.encode.length < 2 ^ 63

/-- The entries of a map are a header as far as those of the schema and of the codec are what they should be. -/
theorem ofEntries_cases (entries : List (String × Bytes)) (marker : Marker) :
    (∃ schema codec, schemaOf ((Metadata.ofList entries).find? schemaKey) = .ok schema
        ∧ codecOf ((Metadata.ofList entries).find? codecKey) = .ok codec
        ∧ ofEntries entries marker
          = .ok ⟨schema, codec, ((Metadata.ofList entries).erase schemaKey).erase codecKey, marker⟩)
      ∨ ∃ e, ofEntries entries marker = .error e
          ∧ (schemaOf ((Metadata.ofList entries).find? schemaKey) = .error e
            ∨ codecOf ((Metadata.ofList entries).find? codecKey) = .error e) := by
  simp only [ofEntries]
  cases schemaOf ((Metadata.ofList entries).find? schemaKey) with
  | error e => exact .inr ⟨e, rfl, .inl rfl⟩
  | ok schema =>
    cases codecOf ((Metadata.ofList entries).find? codecKey) with
    | error e => exact .inr ⟨e, rfl, .inr rfl⟩
    | ok codec => exact .inl ⟨schema, codec, rfl, rfl, rfl⟩

/-- Of the entries of each name the last counts, and without one for the codec there is no compression. -/
theorem ofEntries_of_lookup {entries : List (String × Bytes)} {document : Bytes} {schema : Schema}
    {codec : Option Codec} (hschema : entries.reverse.lookup schemaKey = some document)
    (hdocument : Schema.ofDocument document = .ok schema)
    (hcodec : entries.reverse.lookup codecKey = codec.map fun c => Utf8.encode c.name) (marker : Marker) :
    ofEntries entries marker = .ok ⟨schema, (codec.map Codec.stated).getD .null,
      ((Metadata.ofList entries).erase schemaKey).erase codecKey, marker⟩ := by
  have hcodecOf : codecOf (codec.map fun c => Utf8.encode c.name)
      = .ok ((codec.map Codec.stated).getD .null) := by
    cases codec with
    | none => rfl
    | some c =>
      simp only [Option.map_some, codecOf]
      rw [Utf8.decodeLossy_encode, Codec.ofName?_name]
      rfl
  simp only [ofEntries, Metadata.find?_ofList, hschema, hcodec, schemaOf, hdocument, hcodecOf]
  rfl

/-- The entries of a header are sorted into schema, codec and metadata again. -/
theorem ofEntries_entries {h : Header} (hschemaKey : h.metadata.find? schemaKey = none)
    (hcodecKey : h.metadata.find? codecKey = none) : ofEntries h.entries h.marker = .ok h.stated := by
  have hlast : ∀ name, h.entries.reverse.lookup name
      = (h.metadata.find? name).or (if name = codecKey then some (Utf8.encode h.codec.name)
          else if name = schemaKey then some (Utf8.encode h.schema.document) else none) := by
    intro name
    rw [entries, List.reverse_cons, List.reverse_cons, List.append_assoc, List.lookup_append,
      Metadata.lookup_reverse name h.metadata.inOrder, List.singleton_append, Metadata.lookup_cons,
      Metadata.lookup_cons]
    rfl
  have hrest : ((Metadata.ofList h.entries).erase schemaKey).erase codecKey = h.metadata := by
    refine Metadata.eq_of_find? fun name => ?_
    rw [Metadata.find?_erase, Metadata.find?_erase, Metadata.find?_ofList, hlast]
    by_cases hcodec : name = codecKey
    · rw [if_pos hcodec, hcodec, hcodecKey]
    · by_cases hschema : name = schemaKey
      · rw [if_neg hcodec, if_pos hschema, hschema, hschemaKey]
      · simp [hcodec, hschema]
  have hschema : h.entries.reverse.lookup schemaKey = some (Utf8.encode h.schema.document) := by
    rw [hlast, hschemaKey, if_neg (by decide), if_pos rfl]
    rfl
  have hcodec : h.entries.reverse.lookup codecKey = (some h.codec).map fun c => Utf8.encode c.name := by
    rw [hlast, hcodecKey, if_pos rfl]
    rfl
  rw [ofEntries_of_lookup hschema (Schema.ofDocument_document h.schema) hcodec, hrest]
  rfl

/-! ## Headers -/

/-- A header is read as it was written, but for the level of its codec. -/
theorem reads_encode_of_countable {h : Header} (hschemaKey : h.metadata.find? schemaKey = none)
    (hcodecKey : h.metadata.find? codecKey = none) (hcountable : Countable h.entries) :
    Wire.Reads read h.encode h.stated := by
  have hblock : Countable ([h.ownBlock].flatMap MapBlock.entries) := by rwa [flatMap_ownBlock]
  rw [encode_eq_layout]
  refine ⟨fun rest => ?_, cut_layout hblock h.marker⟩
  rw [read_layout hblock, flatMap_ownBlock, ofEntries_entries hschemaKey hcodecKey]
  rfl

theorem reads_encode {h : Header} (hw : h.Writable) : Wire.Reads read h.encode h.stated := by
  refine reads_encode_of_countable hw.schemaKey_free hw.codecKey_free (countable_of_length_lt ?_)
  have := hw.length_lt
  simp only [encode, encodeFront, List.length_append] at this
  omega

/-- A header with names of its own is found in front of whatever follows it. Nothing of it is lost but
the level of its codec, in whose place the standard one is found. -/
theorem read_encode_append {h : Header} (hschemaKey : h.metadata.find? schemaKey = none)
    (hcodecKey : h.metadata.find? codecKey = none) (hcountable : Countable h.entries) (rest : Bytes) :
    read (h.encode ++ rest)
      = (.ok { h with codec := match h.codec with | .null => .null | .deflate _ => .deflate 5 }, rest) := by
  rw [(reads_encode_of_countable hschemaKey hcodecKey hcountable).whole rest]
  cases h with
  | mk schema codec metadata marker => cases codec <;> rfl

/-- Two entries of its own, one of them with a name that has to be spelled in UTF-8, and a schema whose
names have to be escaped. -/
def gaugeHeader : Header where
  schema := { name := "Pegel \"Süd\"", scope := some "a\\b", fields := [⟨"höhe\n", .long⟩, ⟨"", .bytes⟩] }
  codec := .deflate 9
  metadata := (Metadata.empty.insert "größe" [0xFF, 0x00]).insert creatorKey []
  marker := .numbered 7

theorem read_encode_append_gaugeHeader : read (gaugeHeader.encode ++ [1, 2, 3])
    = (.ok { gaugeHeader with codec := .deflate 5 }, [1, 2, 3]) := by
  have hcountable : Countable gaugeHeader.entries :=
    ⟨by decide, by decide +kernel, by decide +kernel⟩
  exact read_encode_append (by decide +kernel) (by decide +kernel) hcountable [1, 2, 3]

/-- Let the last entry for the schema be a document of one, and the last for the codec, if there is any, the
name of one. Then there is a header that is read from the entries however they are laid out: in one block or
in several, each with a positive count or with a negative one and whatever size, of which none need be the
right one. Without an entry for the codec there is no compression, and of the other entries the last of each
name is found. What stands behind the marker is left. -/
theorem exists_read_layout {entries : List (String × Bytes)} {document : Bytes} {schema : Schema}
    {codec : Option Codec} (hcountable : Countable entries)
    (hschema : entries.reverse.lookup schemaKey = some document)
    (hdocument : Schema.ofDocument document = .ok schema)
    (hcodec : entries.reverse.lookup codecKey = codec.map fun c => Utf8.encode c.name) (marker : Marker) :
    ∃ h : Header,
      (∀ blocks : List MapBlock, blocks.flatMap MapBlock.entries = entries → ∀ rest,
          read (layout blocks marker ++ rest) = (.ok h, rest))
        ∧ h.schema = schema ∧ h.codec = (codec.map Codec.stated).getD .null ∧ h.marker = marker
        ∧ ∀ name, h.metadata.find? name
            = if name = schemaKey ∨ name = codecKey then none else entries.reverse.lookup name := by
  have hentries := ofEntries_of_lookup hschema hdocument hcodec marker
  let metadata := ((Metadata.ofList entries).erase schemaKey).erase codecKey
  refine ⟨⟨schema, (codec.map Codec.stated).getD .null, metadata, marker⟩, fun blocks hblocks rest => ?_,
    rfl, rfl, rfl, fun name => ?_⟩
  · subst hblocks
    rw [read_layout hcountable, hentries]
    rfl
  · rw [Metadata.find?_erase, Metadata.find?_erase, Metadata.find?_ofList]
    by_cases hname : name = schemaKey <;> simp [hname]

/-- Of the names that are there twice the first entry is not the one that counts: it is no document, and
no codec. -/
def repeatedEntries : List (String × Bytes) :=
  [(schemaKey, [0]), (codecKey, Utf8.encode "zstandard"), ("größe", [1]), (codecKey, Utf8.encode "deflate"),
    (schemaKey, Utf8.encode gaugeHeader.schema.document), ("größe", [0xFF, 0])]

/-- These entries in three blocks, of which the first and the last have a size, and not their own. -/
def scatteredBlocks : List MapBlock :=
  [⟨repeatedEntries.take 1, List.cons_ne_nil _ _, some 0, fun _ hn => by cases hn; decide⟩,
    .single ((repeatedEntries.drop 1).take 2) (List.cons_ne_nil _ _),
    ⟨repeatedEntries.drop 3, List.cons_ne_nil _ _, some (2 ^ 63 - 1), fun _ hn => by cases hn; decide⟩]

theorem exists_read_layout_scatteredBlocks :
    ∃ h : Header, read (layout scatteredBlocks (.numbered 7) ++ [1, 2, 3]) = (.ok h, [1, 2, 3])
      ∧ read (layout [.single repeatedEntries nofun] (.numbered 7) ++ [4]) = (.ok h, [4])
      ∧ h.schema = gaugeHeader.schema ∧ h.codec = .deflate 5 ∧ h.metadata.find? "größe" = some [0xFF, 0] := by
  have hcountable : Countable repeatedEntries := ⟨by decide, by decide +kernel, by decide +kernel⟩
  have hlast : repeatedEntries.reverse.lookup codecKey
      = (some (Codec.deflate 5)).map fun c => Utf8.encode c.name := rfl
  obtain ⟨h, hread, hschema, hcodec, -, hfind⟩ := exists_read_layout hcountable rfl
    (Schema.ofDocument_document gaugeHeader.schema) hlast (.numbered 7)
  have hvalue := hfind "größe"
  rw [if_neg (by decide)] at hvalue
  exact ⟨h, hread scatteredBlocks rfl [1, 2, 3], hread [_] rfl [4], hschema, hcodec, hvalue⟩

theorem writable_new {schema : Schema} {codec : Codec} {marker : Marker}
    (h : (new schema codec marker).encode.length < 2 ^ 63) : (new schema codec marker).Writable where
  schemaKey_free := by
    simp only [new]
    rw [Metadata.find?_insert, if_neg (by decide)]
    rfl
  codecKey_free := by
    simp only [new]
    rw [Metadata.find?_insert, if_neg (by decide)]
    rfl
  length_lt := h

theorem creator?_new (schema : Schema) (codec : Codec) (marker : Marker) :
    (new schema codec marker).creator? = some ownCreator := by
  simp only [creator?, new]
  rw [Metadata.find?_insert, if_pos rfl]
  exact Utf8.decode?_encode ownCreator

theorem length_encode_withMarker (h : Header) (other : Marker) :
    ({ h with marker := other } : Header).encode.length = h.encode.length := by
  simp only [encode, List.length_append, h.marker.length_eq, other.length_eq]
  rfl

/-- A header may have any marker. -/
theorem Writable.withMarker {h : Header} (hw : h.Writable) (other : Marker) :
    ({ h with marker := other } : Header).Writable where
  schemaKey_free := hw.schemaKey_free
  codecKey_free := hw.codecKey_free
  length_lt := by
    rw [length_encode_withMarker]
    exact hw.length_lt

theorem length_encodeLength_of_lt {n : Nat} (h : n < 64) : (Wire.encodeLength n).length = 1 := by
  have hint := Wire.toInt_ofNat (show n < 2 ^ 63 by omega)
  simp only [Wire.encodeLength, Varint.encode, Varint.fold]
  rw [hint, if_pos (by omega), Int.toNat_natCast, Varint.groups, if_pos (by omega), List.length_singleton]

theorem length_encode_name (codec : Codec) :
    4 ≤ (Utf8.encode codec.name).length ∧ (Utf8.encode codec.name).length ≤ 7 := by
  cases codec with
  | null => exact (by decide : 4 ≤ (Utf8.encode "null").length ∧ (Utf8.encode "null").length ≤ 7)
  | deflate level =>
    exact (by decide : 4 ≤ (Utf8.encode "deflate").length ∧ (Utf8.encode "deflate").length ≤ 7)

/-- Of two headers for one schema the one is at most by the name of its codec longer. -/
theorem length_encode_new_le (schema : Schema) (codec codec' : Codec) (marker marker' : Marker) :
    (new schema codec marker).encode.length ≤ (new schema codec' marker').encode.length + 3 := by
  have hcodec : ∀ codec : Codec, (encodeEntry (codecKey, Utf8.encode codec.name)).length
      = (Wire.encodeString codecKey).length + 1 + (Utf8.encode codec.name).length := by
    intro codec
    have hshort : (Utf8.encode codec.name).length < 64 := Nat.lt_of_le_of_lt (length_encode_name codec).2 (by decide)
    simp only [encodeEntry, Wire.encodeBytes, List.length_append, length_encodeLength_of_lt hshort]
    omega
  have hlower := (length_encode_name codec').1
  have hupper := (length_encode_name codec).2
  simp only [encode, encodeFront, entries, new, List.flatMap_cons, List.length_append, List.length_cons,
    hcodec, marker.length_eq, marker'.length_eq]
  omega

/-- A header is little longer than the document of its schema. -/
theorem length_encode_new_le_document (schema : Schema) (codec : Codec) (marker : Marker) :
    (new schema codec marker).encode.length ≤ (Utf8.encode schema.document).length + 180 := by
  have hkeys : (Utf8.encode schemaKey).length = 11 ∧ (Utf8.encode codecKey).length = 10
      ∧ (Utf8.encode creatorKey).length = 7 ∧ (Utf8.encode ownCreator).length = 19 := by decide
  have hname := (length_encode_name codec).2
  have hentry : ∀ (name : String) (value : Bytes), (encodeEntry (name, value)).length
      ≤ 20 + (Utf8.encode name).length + value.length := fun name value => length_encodeEntry_le_add (name, value)
  have hschema := hentry schemaKey (Utf8.encode schema.document)
  have hcodec := hentry codecKey (Utf8.encode codec.name)
  have hcreator := hentry creatorKey (Utf8.encode ownCreator)
  have hentries : (new schema codec marker).entries
      = [(schemaKey, Utf8.encode schema.document), (codecKey, Utf8.encode codec.name),
        (creatorKey, Utf8.encode ownCreator)] := rfl
  have hcount : (Wire.encodeLength (new schema codec marker).entries.length).length ≤ 10 :=
    Wire.length_encode_le _
  have hend : (Wire.encodeLength 0).length ≤ 10 := Wire.length_encode_le _
  have hmagic : magic.length = 4 := rfl
  have hmarker : (new schema codec marker).marker.bytes.length = 16 := marker.length_eq
  rw [hentries] at hcount
  simp only [encode, encodeFront, List.length_append, hmagic, hmarker, hentries, List.flatMap_cons,
    List.flatMap_nil, List.length_nil]
  omega

end Header

end DeviceLog
