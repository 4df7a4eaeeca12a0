import DeviceLog.Container.Header
import DeviceLog.Proofs.Wire.Exact

/-! # The layouts of a map

The writer makes one block of all entries of a header. Others may make several, with or without sizes,
and may have entries of one name more than once. What is read depends on the list of the entries only.

* `MapBlock` is a block of the map in either of its two forms, and `MapBlock.reads` takes one of them off.
* `reads_mapBlocks` takes them off one after another, and `reads_mapEntries` says that there are turns enough
  for all of them.
* `exact_readEntries`: wherever entries are read, there are bytes that are read so whatever follows them.
* `layout` is the bytes of a header whose map is laid out in some blocks. `read_layout` and `cut_layout`:
  what the entries say is looked at only when the bytes are known to be complete.
* `encode_eq_layout` is the layout of the writer.
-/

namespace DeviceLog.Header

/-! ## Entries -/

/-- Whether the lengths in a map can be written: that of each name and value, and their number. -/
structure Countable (entries : List (String × Bytes)) : Prop where
  count_lt : entries.length < 2 ^ 63
  name_lt : ∀ e ∈ entries, (Utf8.encode e.1).length < 2 ^ 63
  value_lt : ∀ e ∈ entries, e.2.length < 2 ^ 63

theorem Countable.of_append {entries more : List (String × Bytes)} (h : Countable (entries ++ more)) :
    Countable entries ∧ Countable more := by
  have hcount := h.count_lt
  rw [List.length_append] at hcount
  refine ⟨⟨by omega, fun e he => ?_, fun e he => ?_⟩, by omega, fun e he => ?_, fun e he => ?_⟩
  · exact h.name_lt e (List.mem_append_left more he)
  · exact h.value_lt e (List.mem_append_left more he)
  · exact h.name_lt e (List.mem_append_right entries he)
  · exact h.value_lt e (List.mem_append_right entries he)

theorem reads_entry {e : String × Bytes} (hname : (Utf8.encode e.1).length < 2 ^ 63)
    (hvalue : e.2.length < 2 ^ 63) : Wire.Reads readEntry (encodeEntry e) e :=
  (Wire.reads_string hname).bind ((Wire.reads_bytes hvalue).bind_done fun _ => rfl)

theorem length_encodeEntry_le {e : String × Bytes} {entries : List (String × Bytes)}
    (h : e ∈ entries) : (encodeEntry e).length ≤ (entries.flatMap encodeEntry).length :=
  (List.sublist_flatten_of_mem (List.mem_map_of_mem h)).length_le

/-- An entry is little longer than its name and its value. -/
theorem length_encodeEntry_le_add (e : String × Bytes) :
    (encodeEntry e).length ≤ 20 + (Utf8.encode e.1).length + e.2.length := by
  have hname := Wire.length_encode_le (Int64.ofNat (Utf8.encode e.1).length)
  have hvalue := Wire.length_encode_le (Int64.ofNat e.2.length)
  simp only [encodeEntry, Wire.encodeString, Wire.encodeBytes, Wire.encodeLength, List.length_append]
  omega

theorem length_encodeEntry_pos (e : String × Bytes) : 0 < (encodeEntry e).length := by
  have hname := Wire.length_encodeString_pos e.1
  simp only [encodeEntry, List.length_append]
  omega

/-- Where all entries together are not too long, none of them is. -/
theorem countable_of_length_lt {entries : List (String × Bytes)}
    (h : (entries.flatMap encodeEntry).length < 2 ^ 63) : Countable entries := by
  have hparts : ∀ e ∈ entries, (Utf8.encode e.1).length < 2 ^ 63 ∧ e.2.length < 2 ^ 63 := by
    intro e he
    have hentry := Nat.lt_of_le_of_lt (length_encodeEntry_le he) h
    simp only [encodeEntry, Wire.encodeString, Wire.encodeBytes, List.length_append] at hentry
    omega
  have hcount := Wire.length_le_length_flatMap length_encodeEntry_pos entries
  exact ⟨Nat.lt_of_le_of_lt hcount h, fun e he => (hparts e he).1, fun e he => (hparts e he).2⟩

/-! ## Blocks of entries -/

/-- A block of the map of a header: some entries, and the size that stands behind a negative count. With
a positive count there is none. -/
structure MapBlock where
  entries : List (String × Bytes)
  entries_ne_nil : entries ≠ []
  size : Option Nat
  size_lt : ∀ n ∈ size, n < 2 ^ 63

/-- The count of a block is negative where a size follows it. -/
def MapBlock.count (b : MapBlock) : Int64 :=
  match b.size with
  | none => Int64.ofNat b.entries.length
  | some _ => -Int64.ofNat b.entries.length

def MapBlock.encode (b : MapBlock) : Bytes :=
  Varint.encode b.count ++ (b.size.elim [] Wire.encodeLength ++ b.entries.flatMap encodeEntry)

namespace MapBlock

/-- All entries in one block, without a size, as the writer makes it. -/
def single (entries : List (String × Bytes)) (hne : entries ≠ []) : MapBlock := ⟨entries, hne, none, nofun⟩

theorem length_encode_pos (b : MapBlock) : 0 < b.encode.length := by
  have hcount := Wire.length_encode_pos b.count
  simp only [encode, List.length_append]
  omega

variable {b : MapBlock}

theorem toInt_count (h : b.entries.length < 2 ^ 63) :
    b.count.toInt = if b.size = none then (b.entries.length : Int) else -(b.entries.length : Int) := by
  have hlength := Wire.toInt_ofNat h
  cases hsize : b.size with
  | none => simp [count, hsize, hlength]
  | some size =>
    simp only [count, hsize, Int64.toInt_neg, hlength]
    apply Int.bmod_eq_of_le <;> omega

theorem count_ne_zero (h : b.entries.length < 2 ^ 63) : b.count ≠ 0 := by
  have hpos := List.length_pos_iff.2 b.entries_ne_nil
  have hcount := toInt_count h
  intro hzero
  rw [hzero, Int64.toInt_zero] at hcount
  split at hcount <;> omega

/-- Behind the count, and the size if there is one, it is known how many entries there are. -/
theorem reads_entryCount (h : b.entries.length < 2 ^ 63) :
    Wire.Reads (entryCount b.count) (b.size.elim [] Wire.encodeLength) b.entries.length := by
  have hpos := List.length_pos_iff.2 b.entries_ne_nil
  have hcount := toInt_count h
  cases hsize : b.size with
  | none =>
    rw [hsize, if_pos rfl] at hcount
    apply Wire.Reads.of_apply_eq
    intro rest
    rw [entryCount, hcount, if_pos (Int.natCast_nonneg _), Int.toNat_natCast]
    rfl
  | some size =>
    rw [hsize, if_neg (Option.some_ne_none size)] at hcount
    have hmin : b.count ≠ Int64.minValue := by
      intro heq
      rw [heq] at hcount
      have hvalue : Int64.minValue.toInt = -2 ^ 63 := rfl
      omega
    rw [entryCount, hcount, if_neg (by omega), if_neg hmin, Int.neg_neg, Int.toNat_natCast]
    exact (Wire.reads_length (b.size_lt size hsize)).bind_done fun _ => rfl

/-- A block is read in one turn, and the blocks behind it in the others. -/
theorem reads {before found : List (String × Bytes)} {turns : Nat} {more : Bytes} (h : Countable b.entries)
    (hmore : Wire.Reads (readBlocks (before ++ b.entries) turns) more found) :
    Wire.Reads (readBlocks before (turns + 1)) (b.encode ++ more) found := by
  have hentries : ∀ e ∈ b.entries, Wire.Reads readEntry (encodeEntry e) e := fun e he =>
    reads_entry (h.name_lt e he) (h.value_lt e he)
  rw [encode, List.append_assoc, List.append_assoc]
  apply (Wire.reads_decode b.count).bind
  -- A count of zero would end the map.
  rw [if_neg (count_ne_zero h.count_lt)]
  exact (reads_entryCount h.count_lt).bind ((Wire.Reads.times hentries).bind hmore)

end MapBlock

/-- The count of zero ends the map. -/
theorem reads_mapEnd (entries : List (String × Bytes)) (turns : Nat) :
    Wire.Reads (readBlocks entries (turns + 1)) (Wire.encodeLength 0) entries :=
  (Wire.reads_decode 0).bind_done fun _ => rfl

/-- The bytes of a map in some blocks. -/
def encodeMap (blocks : List MapBlock) : Bytes := blocks.flatMap MapBlock.encode ++ Wire.encodeLength 0

/-- There is a turn for each block and one for the count of zero. -/
theorem reads_mapBlocks : ∀ {blocks : List MapBlock} {before : List (String × Bytes)} {turns : Nat},
    blocks.length ≤ turns → Countable (blocks.flatMap MapBlock.entries) →
      Wire.Reads (readBlocks before (turns + 1)) (encodeMap blocks)
        (before ++ blocks.flatMap MapBlock.entries)
  | [], before, turns, _, _ => by
    have hend := reads_mapEnd before turns
    simpa [encodeMap] using hend
  | b :: blocks, before, turns, hturns, h => by
    rw [List.flatMap_cons] at h ⊢
    obtain ⟨hfirst, hrest⟩ := h.of_append
    obtain ⟨turns, rfl⟩ := Nat.exists_eq_add_one_of_ne_zero (Nat.ne_zero_of_lt hturns)
    rw [encodeMap, List.flatMap_cons, List.append_assoc, ← List.append_assoc before]
    apply MapBlock.reads hfirst
    exact reads_mapBlocks (Nat.le_of_succ_le_succ hturns) hrest

/-! ## All entries -/

theorem exact_readEntry : Wire.Exact readEntry :=
  Wire.exact_string.bind fun _ => Wire.exact_bytes.bind fun _ => .done _

theorem exact_entryCount (n : Int64) : Wire.Exact (entryCount n) :=
  .ite (.done _) (.ite (.fail _) (Wire.exact_length.bind fun _ => .done _))

/-- The entries of a map are read in as many turns as there are bytes, and of part of a map it is told
that it ends too early in any number of turns. -/
theorem exists_of_readBlocks {found : List (String × Bytes)} {rest : Bytes} :
    ∀ {turns : Nat} {before : List (String × Bytes)} {bytes : Bytes},
      readBlocks before turns bytes = (.ok found, rest) →
        ∃ front, bytes = front ++ rest
          ∧ (∀ t, front.length ≤ t → ∀ other, readBlocks before t (front ++ other) = (.ok found, other))
          ∧ ∀ t, ∀ n < front.length, ∃ left, readBlocks before t (front.take n) = (.error .endOfData, left)
  | 0, _, _, h => by cases h
  | turns + 1, before, bytes, h => by
    obtain ⟨n, afterCount, hcount, hmore⟩ := Action.bind_eq_ok h
    obtain ⟨front₀, rfl, hreads₀⟩ := Wire.exact_decode hcount
    have hpos : 0 < front₀.length := by
      cases front₀ with
      | nil => cases hreads₀.alone
      | cons b front₀ => exact Nat.zero_lt_succ _
    by_cases hn : n = 0
    · rw [if_pos hn] at hmore
      cases hmore
      refine ⟨front₀, rfl, fun t ht other => ?_, fun t k hk => ?_⟩
      · obtain ⟨t, rfl⟩ := Nat.exists_eq_add_of_lt (Nat.lt_of_lt_of_le hpos ht)
        rw [readBlocks, Action.bind_of_ok (hreads₀.whole other), if_pos hn]
        rfl
      · cases t with
        | zero => exact ⟨_, rfl⟩
        | succ t => exact hreads₀.cut_first _ k hk
    · rw [if_neg hn] at hmore
      obtain ⟨count, afterSize, hsize, hitems⟩ := Action.bind_eq_ok hmore
      obtain ⟨items, afterItems, hitems, hnext⟩ := Action.bind_eq_ok hitems
      obtain ⟨front₁, rfl, hreads₁⟩ := exact_entryCount n hsize
      obtain ⟨front₂, rfl, hreads₂⟩ := exact_readEntry.times count hitems
      obtain ⟨front₃, rfl, hwhole, hcut⟩ := exists_of_readBlocks hnext
      refine ⟨front₀ ++ (front₁ ++ (front₂ ++ front₃)), by simp only [List.append_assoc],
        fun t ht other => ?_, fun t k hk => ?_⟩
      · simp only [List.length_append] at ht
        cases t with
        | zero => omega
        | succ t =>
          simp only [List.append_assoc]
          rw [readBlocks, Action.bind_of_ok (hreads₀.whole _), if_neg hn,
            Action.bind_of_ok (hreads₁.whole _), Action.bind_of_ok (hreads₂.whole _),
            hwhole t (by omega)]
      · cases t with
        | zero => exact ⟨_, rfl⟩
        | succ t =>
          refine hreads₀.cut_bind ?_ k hk
          rw [if_neg hn]
          exact hreads₁.cut_bind (hreads₂.cut_bind (hcut t))

theorem exact_readEntries : Wire.Exact readEntries := by
  intro bytes rest found h
  obtain ⟨front, rfl, hwhole, hcut⟩ := exists_of_readBlocks h
  refine ⟨front, rfl, fun other => hwhole _ ?_ other, fun n hn => hcut _ n hn⟩
  rw [List.length_append]
  omega

theorem reads_mapEntries {blocks : List MapBlock} (h : Countable (blocks.flatMap MapBlock.entries)) :
    Wire.Reads readEntries (encodeMap blocks) (blocks.flatMap MapBlock.entries) := by
  -- There is a turn for each byte and one more, and a block takes a byte at least.
  have hturns : blocks.length ≤ (encodeMap blocks).length := by
    have hblocks := Wire.length_le_length_flatMap MapBlock.length_encode_pos blocks
    rw [encodeMap, List.length_append]
    omega
  apply exact_readEntries.reads
  exact (reads_mapBlocks hturns h).alone

/-! ## Layouts -/

theorem reads_magic : Wire.Reads readMagic magic () :=
  (Wire.reads_take magic).bind_done fun _ => rfl

theorem reads_marker (marker : Marker) : Wire.Reads readMarker marker.bytes marker := by
  have htake := Wire.reads_take marker.bytes
  rw [marker.length_eq] at htake
  refine htake.bind_done fun rest => ?_
  simp [Marker.ofBytes?, marker.length_eq]

/-- The bytes of a header with the entries of some blocks. -/
def layout (blocks : List MapBlock) (marker : Marker) : Bytes :=
  magic ++ (encodeMap blocks ++ marker.bytes)

/-- What the entries say is looked at when the marker has been read. -/
theorem read_layout {blocks : List MapBlock} (h : Countable (blocks.flatMap MapBlock.entries)) (marker : Marker)
    (rest : Bytes) : read (layout blocks marker ++ rest)
      = (Action.ofExcept (ofEntries (blocks.flatMap MapBlock.entries) marker) : Wire.Reader Header) rest := by
  rw [layout, List.append_assoc, List.append_assoc, read, Action.bind_of_ok (reads_magic.whole _),
    Action.bind_of_ok ((reads_mapEntries h).whole _), Action.bind_of_ok ((reads_marker marker).whole rest)]

/-- So a header that is cut off is not judged by what it says. -/
theorem cut_layout {blocks : List MapBlock} (h : Countable (blocks.flatMap MapBlock.entries)) (marker : Marker) :
    ∀ n < (layout blocks marker).length,
      ∃ left, read ((layout blocks marker).take n) = (.error .endOfData, left) := by
  have hmarker := (reads_marker marker).cut_first fun marker =>
    (Action.ofExcept (ofEntries (blocks.flatMap MapBlock.entries) marker) : Wire.Reader Header)
  exact reads_magic.cut_bind ((reads_mapEntries h).cut_bind hmarker)

/-- The one block of the writer. -/
def ownBlock (h : Header) : MapBlock := .single h.entries (List.cons_ne_nil _ _)

@[simp] theorem flatMap_ownBlock (h : Header) : [h.ownBlock].flatMap MapBlock.entries = h.entries :=
  List.flatMap_singleton _ _

theorem encode_eq_layout (h : Header) : h.encode = layout [h.ownBlock] h.marker := by
  simp [encode, encodeFront, layout, encodeMap, ownBlock, MapBlock.single, MapBlock.encode, MapBlock.count,
    Wire.encodeLength]

end DeviceLog.Header
