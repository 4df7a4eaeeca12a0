import DeviceLog.Container.Block
import DeviceLog.Proofs.Container.Header
import DeviceLog.Proofs.Deflate.Blocks

/-! # Blocks are read as they were written

* `Codec.decompress_compress`: what a payload holds does not depend on the level it was made at.
* `Block.Framed header b bytes`: the bytes are read as the block, end in the marker, and are
  recognised when they are cut off. `Block.framed_encode` says so of the bytes that are written.
* `Header.Frames header blocks bytes`: blocks one after another. `Header.blocks_frames` finds them in
  front of whatever part of a further block is left, and `Header.datums_frames` reads their records.
-/

namespace DeviceLog

/-- A payload holds what it was made of; for its reader the level does not matter. -/
theorem Codec.decompress_compress (codec : Codec) (data : Bytes) :
    codec.stated.decompress (codec.compress data) = .ok data := by
  cases codec with
  | null => rfl
  | deflate level =>
    simp only [stated, compress, decompress]
    rw [Deflate.expand_compress]

/-- Data of reasonable length give a payload whose length can be written. -/
theorem Codec.length_compress_lt {data : Bytes} (h : data.length < 2 ^ 50) (codec : Codec) :
    (codec.compress data).length < 2 ^ 63 := by
  cases codec with
  | null =>
    show data.length < 2 ^ 63
    omega
  | deflate level =>
    have hle := Deflate.length_compress_le level data
    show (Deflate.compress level data).length < 2 ^ 63
    omega

namespace Block

/-! ## One block -/

/-- Bytes that are one block of a log. -/
structure Framed (h : Header) (b : Block) (bytes : Bytes) : Prop where
  reads : Wire.Reads (readOne h) bytes b
  ends : ∃ front, bytes = front ++ h.marker.bytes

theorem Framed.length_pos {h : Header} {b : Block} {bytes : Bytes} (hb : b.Framed h bytes) :
    0 < bytes.length := by
  obtain ⟨front, rfl⟩ := hb.ends
  rw [List.length_append, h.marker.length_eq]
  omega

/-- Where a payload and a marker are there, it is the marker that decides. -/
theorem readPayload_whole (own marker : Marker) (payload rest : Bytes) :
    readPayload own payload.length (payload ++ marker.bytes ++ rest)
      = if marker.bytes ≠ own.bytes then
          (.error (.malformed .foreignMarker), payload ++ marker.bytes ++ rest)
        else (.ok payload, rest) := by
  have hending : (marker.bytes ++ rest).take Marker.size = marker.bytes := by
    rw [List.take_append_of_le_length (by rw [marker.length_eq]; exact Nat.le_refl _)]
    exact List.take_of_length_le (by rw [marker.length_eq]; exact Nat.le_refl _)
  have hrest : (marker.bytes ++ rest).drop Marker.size = rest := List.drop_left' marker.length_eq
  simp only [readPayload]
  rw [List.append_assoc]
  simp only [List.take_left', List.drop_left', hending, hrest]
  rw [if_neg]
  rw [marker.length_eq]
  simp [Marker.size]

theorem reads_payload (marker : Marker) (payload : Bytes) :
    Wire.Reads (readPayload marker payload.length) (payload ++ marker.bytes) payload where
  whole rest := by rw [readPayload_whole, if_neg (not_not_intro rfl)]
  cut n hn := by
    rw [List.length_append, marker.length_eq] at hn
    refine ⟨(payload ++ marker.bytes).take n, ?_⟩
    simp only [readPayload]
    rw [if_pos]
    simp only [List.length_take, List.length_drop, List.length_append, marker.length_eq, Marker.size]
    omega

/-- The bytes that are written for a block are the block. Their payload may have been made at any
level of the codec. -/
theorem framed_encode {h : Header} {b : Block} (hcount : b.count < 2 ^ 63)
    (hpayload : (h.codec.compress b.data).length < 2 ^ 63) : b.Framed h.stated (b.encode h) where
  reads := by
    have hdata : ∀ rest : Bytes,
        (Action.ofExcept (h.stated.codec.decompress (h.codec.compress b.data)) : Wire.Reader Bytes) rest
          = (.ok b.data, rest) := by
      intro rest
      show (Action.ofExcept (h.codec.stated.decompress _) : Wire.Reader Bytes) rest = _
      rw [Codec.decompress_compress]
      rfl
    have hall : Wire.Reads (readOne h.stated) (Wire.encodeLength b.count
        ++ (Wire.encodeLength (h.codec.compress b.data).length
          ++ (h.codec.compress b.data ++ h.marker.bytes))) b :=
      (Wire.reads_length hcount).bind ((Wire.reads_length hpayload).bind
        ((reads_payload h.marker (h.codec.compress b.data)).bind_done fun rest => by
          rw [Action.bind_of_ok (hdata rest)]
          rfl))
    simpa only [encode, List.append_assoc] using hall
  ends := ⟨_, rfl⟩

/-- A block is not written as nothing. -/
theorem encode_append_ne_nil (h : Header) (b : Block) (rest : Bytes) : b.encode h ++ rest ≠ [] := by
  have hpos := Wire.length_encodeLength_pos b.count
  intro hnil
  have hlength := congrArg List.length hnil
  simp only [encode, List.length_append, List.length_nil] at hlength
  omega

theorem read_of_ok {h : Header} {b : Block} {bytes rest : Bytes} (hone : readOne h bytes = (.ok b, rest)) :
    read h bytes = (.ok (some b), rest) := by
  cases bytes with
  | nil => cases hone
  | cons first bytes =>
    rw [read, Action.bind_of_ok hone]
    rfl

/-- Only where nothing is left it is no failure that there is no block. -/
theorem read_of_error {h : Header} {bytes left : Bytes} {e : FormatError} (hne : bytes ≠ [])
    (hone : readOne h bytes = (.error e, left)) : read h bytes = (.error e, left) := by
  cases bytes with
  | nil => exact absurd rfl hne
  | cons first bytes => rw [read, Action.bind_of_error hone]

theorem read_framed {h : Header} {b : Block} {bytes : Bytes} (hb : b.Framed h bytes) (rest : Bytes) :
    read h (bytes ++ rest) = (.ok (some b), rest) :=
  read_of_ok (hb.reads.whole rest)

theorem read_cut {h : Header} {b : Block} {bytes : Bytes} (hb : b.Framed h bytes) {n : Nat}
    (hpos : 0 < n) (hn : n < bytes.length) :
    ∃ rest, read h (bytes.take n) = (.error .endOfData, rest) := by
  have hne : bytes.take n ≠ [] := by
    rw [← List.length_pos_iff, List.length_take]
    omega
  obtain ⟨rest, hrest⟩ := hb.reads.cut n hn
  exact ⟨rest, read_of_error hne hrest⟩

/-- A block of another log is not read. -/
theorem read_foreign {own h : Header} (hforeign : h.marker.bytes ≠ own.marker.bytes) {b : Block}
    (hcount : b.count < 2 ^ 63) (hpayload : (h.codec.compress b.data).length < 2 ^ 63) (rest : Bytes) :
    ∃ left, read own (b.encode h ++ rest) = (.error (.malformed .foreignMarker), left) := by
  obtain ⟨payload, hencoded⟩ : ∃ payload, payload = h.codec.compress b.data := ⟨_, rfl⟩
  rw [← hencoded] at hpayload
  obtain ⟨left, hfailed⟩ : ∃ left, readPayload own.marker payload.length (payload ++ h.marker.bytes ++ rest)
      = (.error (.malformed .foreignMarker), left) :=
    ⟨_, by rw [readPayload_whole, if_pos hforeign]⟩
  refine ⟨left, read_of_error (encode_append_ne_nil h b rest) ?_⟩
  simp only [encode, readOne, ← hencoded, List.append_assoc]
  rw [Action.bind_of_ok ((Wire.reads_length hcount).whole _),
    Action.bind_of_ok ((Wire.reads_length hpayload).whole _), ← List.append_assoc]
  exact Action.bind_of_error hfailed

/-! ## The record of a block -/

def ofDatum (datum : Datum) : Block := ⟨1, datum.bytes⟩

theorem datums_ofDatum {schema : Schema} {datum : Datum} (hfault : schema.fault datum = none)
    (hlength : datum.bytes.length < 2 ^ 63) : (ofDatum datum).datums schema = .ok [datum] := by
  have hread := (Datum.reads hfault hlength).alone
  simp only [datums, ofDatum]
  rw [show Action.times (Datum.read schema) 1 = _ from Action.times_succ _ 0,
    Action.bind_of_ok hread]
  rfl

end Block

/-! ## Blocks one after another -/

namespace Header

/-- Bytes that are blocks of a log one after another. -/
inductive Frames (h : Header) : List Block → Bytes → Prop
  | nil : Frames h [] []
  | cons {b : Block} {blocks : List Block} {bytes rest : Bytes} :
      b.Framed h bytes → Frames h blocks rest → Frames h (b :: blocks) (bytes ++ rest)

namespace Frames

variable {h : Header}

theorem append {blocks blocks' : List Block} {bytes bytes' : Bytes} (hb : Frames h blocks bytes)
    (hb' : Frames h blocks' bytes') : Frames h (blocks ++ blocks') (bytes ++ bytes') := by
  induction hb with
  | nil => exact hb'
  | cons hframe _ ih =>
    rw [List.cons_append, List.append_assoc]
    exact .cons hframe ih

theorem concat {blocks : List Block} {bytes frame : Bytes} {b : Block} (hb : Frames h blocks bytes)
    (hframe : b.Framed h frame) : Frames h (blocks ++ [b]) (bytes ++ frame) := by
  have := hb.append (.cons hframe .nil)
  rwa [List.append_nil] at this

theorem length_le {blocks : List Block} {bytes : Bytes} (hb : Frames h blocks bytes) :
    blocks.length ≤ bytes.length := by
  induction hb with
  | nil => exact Nat.le_refl 0
  | cons hframe _ ih =>
    have := hframe.length_pos
    rw [List.length_cons, List.length_append]
    omega

/-- Blocks end in the marker, unless there are none. -/
theorem ends {blocks : List Block} {bytes : Bytes} (hb : Frames h blocks bytes) :
    bytes = [] ∨ ∃ front, bytes = front ++ h.marker.bytes := by
  induction hb with
  | nil => exact .inl rfl
  | @cons b blocks bytes rest hframe _ ih =>
    refine .inr ?_
    rcases ih with hrest | ⟨front, hrest⟩
    · obtain ⟨front, hfront⟩ := hframe.ends
      exact ⟨front, by rw [hrest, List.append_nil, hfront]⟩
    · exact ⟨bytes ++ front, by rw [hrest, List.append_assoc]⟩

end Frames

/-- Blocks are found one after another, a turn for each. -/
theorem blocksAfter_frames {h : Header} {found : List Block} {body : Bytes}
    (hb : Frames h found body) (rest : Bytes) : ∀ (before : List Block) (turns : Nat), found.length ≤ turns →
      h.blocksAfter before turns (body ++ rest)
        = h.blocksAfter (found.reverse ++ before) (turns - found.length) rest := by
  induction hb with
  | nil => intro before turns _; rfl
  | @cons b blocks bytes more hframe _ ih =>
    intro before turns hturns
    cases turns with
    | zero => simp at hturns
    | succ turns =>
      rw [List.length_cons] at hturns
      rw [List.append_assoc, blocksAfter, Block.read_framed hframe]
      simp only
      rw [ih (b :: before) turns (by omega)]
      simp

theorem blocks_frames {h : Header} {found : List Block} {body : Bytes} (hb : Frames h found body) :
    h.blocks body = ⟨found, [], none⟩ := by
  have hle := hb.length_le
  -- One turn more than there are blocks is left, and it finds the end.
  have hturns : body.length + 1 - found.length = body.length - found.length + 1 := by omega
  have hall := blocksAfter_frames hb [] [] (body.length + 1) (by omega)
  rw [List.append_nil, List.append_nil, hturns] at hall
  simp only [blocks]
  rw [hall, blocksAfter]
  simp [Block.read]

/-- The scan ends behind blocks where no further one can be read. -/
theorem blocks_refused {h : Header} {found : List Block} {body rest left : Bytes} {e : FormatError}
    (hb : Frames h found body) (hread : Block.read h rest = (.error e, left)) :
    h.blocks (body ++ rest) = ⟨found, rest, some e⟩ := by
  have hle := hb.length_le
  have hlength : (body ++ rest).length = body.length + rest.length := List.length_append
  have hturns : (body ++ rest).length + 1 - found.length = body.length + rest.length - found.length + 1 := by
    omega
  have hlast : h.blocksAfter (found.reverse ++ []) (body.length + rest.length - found.length + 1) rest
      = ⟨found, rest, some e⟩ := by
    rw [blocksAfter, hread]
    simp
  simp only [blocks]
  rw [blocksAfter_frames hb rest [] _ (by omega), hturns, hlast]

/-- Of blocks and part of a further one the blocks are found, and the part is left. -/
theorem blocks_torn {h : Header} {found : List Block} {body frame : Bytes} {b : Block} {n : Nat}
    (hb : Frames h found body) (hframe : b.Framed h frame) (hpos : 0 < n) (hn : n < frame.length) :
    h.blocks (body ++ frame.take n) = ⟨found, frame.take n, some .endOfData⟩ := by
  obtain ⟨left, hcut⟩ := Block.read_cut hframe hpos hn
  exact blocks_refused hb hcut

/-- Of a body that ends in part of a block what stands before that part is kept. -/
theorem intact_torn {h : Header} {found : List Block} {body frame : Bytes} {b : Block} {n : Nat}
    (hb : Frames h found body) (hframe : b.Framed h frame) (hpos : 0 < n) (hn : n < frame.length) :
    h.intact (body ++ frame.take n) = body.length := by
  simp only [intact]
  rw [blocks_torn hb hframe hpos hn, List.length_append]
  exact Nat.add_sub_cancel _ _

/-- The records of blocks are the records of each, one after another. -/
theorem datums_frames {h : Header} {found : List Block} {body : Bytes} (hb : Frames h found body) :
    h.datums body = (found.mapM (Block.datums h.schema)).map List.flatten := by
  simp only [datums]
  rw [blocks_frames hb]
  cases found.mapM (Block.datums h.schema) <;> rfl

theorem mapM_datums_ofDatum {schema : Schema} {records : List Datum}
    (hrecords : ∀ d ∈ records, schema.fault d = none ∧ d.bytes.length < 2 ^ 63) :
    (records.map Block.ofDatum).mapM (Block.datums schema) = .ok (records.map fun d => [d]) := by
  induction records with
  | nil => rfl
  | cons d ds ih =>
    obtain ⟨hfault, hlength⟩ := hrecords d List.mem_cons_self
    rw [List.map_cons, List.mapM_cons, Block.datums_ofDatum hfault hlength,
      ih fun e he => hrecords e (List.mem_cons_of_mem _ he)]
    rfl

theorem flatten_singletons (records : List Datum) : (records.map fun d => [d]).flatten = records := by
  rw [← List.flatMap_def, List.flatMap_singleton']

/-- The records of blocks that hold one each. -/
theorem datums_records {h : Header} {records : List Datum} {body : Bytes}
    (hrecords : ∀ d ∈ records, h.schema.fault d = none ∧ d.bytes.length < 2 ^ 63)
    (hb : Frames h (records.map Block.ofDatum) body) : h.datums body = .ok records := by
  rw [datums_frames hb, mapM_datums_ofDatum hrecords]
  simp only [Except.map, flatten_singletons]

end Header

end DeviceLog
