import DeviceLog.Proofs.Container.Block

/-! # Blocks in a stream

Blocks that are written one after another are read one after another, whatever their data look like and
whatever stands behind them. How long a payload is stands in front of it, so nothing is searched for.

* `Block.Writable`: the count of a block and the length of its payload can be written.
* `Block.Framed.congr`: which block some bytes are depends on the marker and the kind of codec only. So
  with `Block.Writable.framed` a reader needs to share no more with the writer.
* `Header.Frames.times` reads so many blocks in so many calls, and `Header.frames_encode` is about those
  that were written.
* `Block.read_uncountable` and `Block.read_foreign` are the two kinds of block that are refused.
* `Block.stream_round_trip` puts them together.
-/

namespace DeviceLog

/-- The level is not needed to read a payload. -/
theorem Codec.decompress_congr : ∀ {codec other : Codec}, codec.name = other.name →
    codec.decompress = other.decompress
  | null, null, _ => rfl
  | deflate _, deflate _, _ => rfl
  | null, deflate _, h => by simp [name] at h
  | deflate _, null, h => by simp [name] at h

@[simp] theorem Codec.name_stated (codec : Codec) : codec.stated.name = codec.name := by
  cases codec <;> rfl

namespace Block

/-- Whether the two numbers in front of the payload of a block can be written. -/
structure Writable (h : Header) (b : Block) : Prop where
  count_lt : b.count < 2 ^ 63
  payload_lt : (h.codec.compress b.data).length < 2 ^ 63

theorem writable_of_length_lt {b : Block} (hcount : b.count < 2 ^ 63) (hdata : b.data.length < 2 ^ 50)
    (h : Header) : b.Writable h :=
  ⟨hcount, h.codec.length_compress_lt hdata⟩

theorem Framed.congr {own h : Header} {b : Block} {bytes : Bytes} (hb : b.Framed h bytes)
    (hmarker : own.marker = h.marker) (hcodec : own.codec.name = h.codec.name) : b.Framed own bytes where
  reads := by
    have hone : readOne own = readOne h := by
      simp only [readOne, hmarker, Codec.decompress_congr hcodec]
    rw [hone]
    exact hb.reads
  ends := by
    rw [hmarker]
    exact hb.ends

/-- What is written for a block is this block to every reader with the marker and the kind of codec. -/
theorem Writable.framed {writer reader : Header} {b : Block} (hw : b.Writable writer)
    (hmarker : reader.marker = writer.marker) (hcodec : reader.codec.name = writer.codec.name) :
    b.Framed reader (b.encode writer) := by
  have hname : reader.codec.name = writer.stated.codec.name := hcodec.trans writer.codec.name_stated.symm
  exact (framed_encode hw.count_lt hw.payload_lt).congr hmarker hname

end Block

/-! ## One call for each block -/

namespace Header

theorem Frames.times {h : Header} {blocks : List Block} {bytes : Bytes} (hb : h.Frames blocks bytes)
    (rest : Bytes) :
    Action.times (Block.read h) blocks.length (bytes ++ rest) = (.ok (blocks.map some), rest) := by
  induction hb with
  | nil => rfl
  | @cons b blocks bytes more hframe _ ih =>
    rw [List.append_assoc, List.length_cons, Action.times_succ, Action.bind_of_ok (Block.read_framed hframe _),
      Action.bind_of_ok ih]
    rfl

theorem frames_encode {writer reader : Header} (hmarker : reader.marker = writer.marker)
    (hcodec : reader.codec.name = writer.codec.name) : ∀ {blocks : List Block},
      (∀ b ∈ blocks, b.Writable writer) → reader.Frames blocks (blocks.flatMap (Block.encode writer))
  | [], _ => .nil
  | b :: blocks, hw => by
    obtain ⟨hfirst, hrest⟩ := List.forall_mem_cons.1 hw
    exact .cons (hfirst.framed hmarker hcodec) (frames_encode hmarker hcodec hrest)

end Header

/-! ## Blocks that are refused -/

namespace Block

/-- A count of 64 bits that takes all of them is refused, whoever has written it and whoever reads it. -/
theorem read_uncountable {b : Block} (hle : 2 ^ 63 ≤ b.count) (hlt : b.count < 2 ^ 64) (reader writer : Header)
    (rest : Bytes) : ∃ left, read reader (b.encode writer ++ rest)
      = (.error (.malformed (.negativeLength (Int64.ofNat b.count))), left) := by
  obtain ⟨more, hmore⟩ : ∃ more, b.encode writer ++ rest = Wire.encodeLength b.count ++ more :=
    ⟨_, by simp only [encode, List.append_assoc]; rfl⟩
  refine ⟨more, read_of_error (encode_append_ne_nil writer b rest) ?_⟩
  rw [hmore]
  exact Action.bind_of_error (Wire.length_of_le hle hlt more)

/-- Blocks that are written with one header, and then anything else, are read by as many calls, each of
which returns the next block, and the rest is left. The reader may have the header itself, or what the
file says of it, which is not the level. A block with a count of 2 ^ 63 or more is refused because of a
negative length, and one with another marker than that of the reader is not accepted either; that its
marker is a foreign one is said unless its count has been refused already. -/
theorem stream_round_trip {writer reader : Header} (hmarker : reader.marker = writer.marker)
    (hcodec : reader.codec.name = writer.codec.name) (rest : Bytes) :
    (∀ blocks : List Block, (∀ b ∈ blocks, b.Writable writer) →
        Action.times (read reader) blocks.length (blocks.flatMap (encode writer) ++ rest)
          = (.ok (blocks.map some), rest))
      ∧ (∀ b : Block, 2 ^ 63 ≤ b.count → b.count < 2 ^ 64 →
          ∃ n left, read reader (b.encode writer ++ rest) = (.error (.malformed (.negativeLength n)), left)
            ∧ n.toInt = (b.count : Int) - 2 ^ 64)
      ∧ ∀ (other : Header) (b : Block), other.marker.bytes ≠ reader.marker.bytes → b.count < 2 ^ 64 →
          (other.codec.compress b.data).length < 2 ^ 63 →
            ∃ cause left, read reader (b.encode other ++ rest) = (.error (.malformed cause), left)
              ∧ (b.count < 2 ^ 63 → cause = .foreignMarker) := by
  refine ⟨fun blocks hw => ?_, fun b hle hlt => ?_, fun other b hforeign hlt hpayload => ?_⟩
  · exact (Header.frames_encode hmarker hcodec hw).times rest
  · obtain ⟨left, hread⟩ := read_uncountable hle hlt reader writer rest
    exact ⟨Int64.ofNat b.count, left, hread, Wire.toInt_ofNat_of_le hle hlt⟩
  · by_cases hcount : b.count < 2 ^ 63
    · obtain ⟨left, hread⟩ := read_foreign hforeign hcount hpayload rest
      exact ⟨_, left, hread, fun _ => rfl⟩
    · obtain ⟨left, hread⟩ := read_uncountable (Nat.le_of_not_lt hcount) hlt reader other rest
      exact ⟨_, left, hread, fun h => absurd h hcount⟩

/-- Without compression data stand in a log as they are. -/
def plainHeader : Header := { Header.gaugeHeader with codec := .null }

/-- A block of no records and one of as many as there can be, and data that are two markers, and that are
a block themselves. -/
def nestedBlocks : List Block :=
  [⟨0, []⟩, ⟨2 ^ 63 - 1, plainHeader.marker.bytes ++ plainHeader.marker.bytes⟩,
    ⟨1, encode plainHeader ⟨2, [0, 1]⟩⟩]

/-- The blocks at either codec; a count of one too many; and a block of another log. -/
theorem stream_round_trip_nestedBlocks :
    (Action.times (read plainHeader) 3 (nestedBlocks.flatMap (encode plainHeader) ++ [7])
        = (.ok (nestedBlocks.map some), [7]))
      ∧ (Action.times (read Header.gaugeHeader.stated) 3
            (nestedBlocks.flatMap (encode Header.gaugeHeader) ++ [7])
          = (.ok (nestedBlocks.map some), [7]))
      ∧ (∃ n left, read plainHeader (encode plainHeader ⟨2 ^ 63, [1]⟩ ++ [7])
            = (.error (.malformed (.negativeLength n)), left) ∧ n.toInt = -2 ^ 63)
      ∧ ∃ left, read plainHeader (encode { plainHeader with marker := .numbered 8 } ⟨1, [1]⟩ ++ [7])
          = (.error (.malformed .foreignMarker), left) := by
  have hplain := @stream_round_trip plainHeader plainHeader rfl rfl [7]
  have hgauge := @stream_round_trip Header.gaugeHeader Header.gaugeHeader.stated rfl rfl [7]
  have hwritable : ∀ h : Header, ∀ b ∈ nestedBlocks, b.Writable h := by
    have hsizes : ∀ b ∈ nestedBlocks, b.count < 2 ^ 63 ∧ b.data.length < 2 ^ 50 := by decide +kernel
    exact fun h b hb => writable_of_length_lt (hsizes b hb).1 (hsizes b hb).2 h
  obtain ⟨n, left, hrefused, hvalue⟩ := hplain.2.1 ⟨2 ^ 63, [1]⟩ (by simp) (by simp)
  obtain ⟨cause, left', hforeign, hcause⟩ := hplain.2.2 { plainHeader with marker := .numbered 8 } ⟨1, [1]⟩
    (by decide) (by simp) (by decide)
  rw [hcause (by simp)] at hforeign
  exact ⟨hplain.1 nestedBlocks (hwritable _), hgauge.1 nestedBlocks (hwritable _),
    ⟨n, left, hrefused, by simpa using hvalue⟩, left', hforeign⟩

end Block

end DeviceLog
