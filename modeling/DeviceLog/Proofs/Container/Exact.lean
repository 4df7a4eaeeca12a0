import DeviceLog.Proofs.Container.Block
import DeviceLog.Proofs.Wire.Exact

/-! # What is found in a file was written there

A file may hold other bytes than a log that was written in one go: part of it may be damaged, or blocks
may have been put behind it later. Whatever it holds, what readers find in it does not depend on what
follows.

* `Header.exact_read`: a header that is found is found again when other bytes stand behind it.
* `Block.framed_of_readOne`: bytes that a block is read from are that block.
* `Header.blocks_spec`: a body is the blocks that are found and a rest, and the scan ends for want of
  a block only where nothing is left. `Header.take_intact` finds these blocks in what the scan keeps.
* `Header.datums_append`: blocks behind a body add their records to those of the body.
* `Header.datums_append_error`: a body that is refused is refused with blocks behind it, unless it only
  ends too early.
* `Header.fault_of_datums`: the records of a body fit the schema of its header.
-/

namespace DeviceLog

namespace Header

/-! ## Headers -/

theorem exact_readMagic : Wire.Exact readMagic :=
  (Wire.exact_take _).bind fun _ => .ite (.done _) (.fail _)

theorem exact_readMarker : Wire.Exact readMarker := by
  refine (Wire.exact_take _).bind fun bytes => ?_
  split
  · exact .done _
  · exact .fail _

theorem exact_read : Wire.Exact read :=
  exact_readMagic.bind fun _ => exact_readEntries.bind fun _ => exact_readMarker.bind fun _ =>
    .ofExcept _

/-- Bytes behind a file do not change its header. -/
theorem read_append {bytes rest : Bytes} {h : Header} (hread : read bytes = (.ok h, rest)) (more : Bytes) :
    read (bytes ++ more) = (.ok h, rest ++ more) := by
  obtain ⟨front, rfl, hreads⟩ := exact_read hread
  rw [List.append_assoc, hreads.whole]

/-- Where a file ends behind its header does not change the header. -/
theorem read_take {bytes body : Bytes} {h : Header} (hread : read bytes = (.ok h, body)) (n : Nat) :
    read (bytes.take (bytes.length - body.length + n)) = (.ok h, body.take n) := by
  obtain ⟨front, rfl, hreads⟩ := exact_read hread
  have hfront : (front ++ body).length - body.length = front.length := by
    rw [List.length_append, Nat.add_sub_cancel]
  rw [hfront, List.take_length_add_append, hreads.whole]

/-- What is read as a log begins as one. -/
theorem magic_prefix_of_read {bytes rest : Bytes} {h : Header} (hread : read bytes = (.ok h, rest)) :
    magic <+: bytes := by
  obtain ⟨_, _, hmagic, _⟩ := Action.bind_eq_ok hread
  obtain ⟨found, _, htake, hfound⟩ := Action.bind_eq_ok hmagic
  have hfront : bytes.take magic.length = found := by
    simp only [Wire.take] at htake
    split at htake
    · cases htake
    · cases htake
      rfl
  by_cases heq : found = magic
  · rw [← heq, ← hfront]
    exact List.take_prefix _ _
  · rw [if_neg heq] at hfound
    cases hfound

theorem stated_of_codecOf {entry : Option Bytes} {codec : Codec} (h : codecOf entry = .ok codec) :
    codec.stated = codec := by
  cases entry with
  | none =>
    cases h
    rfl
  | some bytes =>
    simp only [codecOf, Codec.ofName?] at h
    split at h
    · rename_i hname
      cases h
      split at hname
      · cases hname
        rfl
      · split at hname
        · cases hname
          rfl
        · cases hname
    · cases h

theorem stated_of_ofEntries {entries : List (String × Bytes)} {marker : Marker} {h : Header}
    (hof : ofEntries entries marker = .ok h) : h.stated = h := by
  obtain ⟨schema, codec, -, hcodec, hok⟩ | ⟨e, herror, -⟩ := ofEntries_cases entries marker
  · rw [hok] at hof
    cases hof
    simp only [stated, stated_of_codecOf hcodec]
  · rw [herror] at hof
    cases hof

/-- The codec of a header that is read has no level of its own. -/
theorem stated_of_read {bytes rest : Bytes} {h : Header} (hread : read bytes = (.ok h, rest)) :
    h.stated = h := by
  obtain ⟨_, _, _, hentries⟩ := Action.bind_eq_ok hread
  obtain ⟨entries, _, _, hmarker⟩ := Action.bind_eq_ok hentries
  obtain ⟨marker, _, _, hof⟩ := Action.bind_eq_ok hmarker
  exact stated_of_ofEntries (Action.ofExcept_eq_ok hof).1

end Header

namespace Block

/-! ## One block -/

theorem eq_of_readPayload {marker : Marker} {size : Nat} {bytes payload rest : Bytes}
    (h : readPayload marker size bytes = (.ok payload, rest)) :
    bytes = payload ++ marker.bytes ++ rest ∧ payload.length = size := by
  simp only [readPayload] at h
  split at h
  · cases h
  · rename_i hlength
    split at h
    · cases h
    · rename_i hmarker
      rw [not_or] at hlength
      cases h
      have hending := Decidable.not_not.1 hmarker
      refine ⟨?_, ?_⟩
      · rw [← hending, List.append_assoc, List.take_append_drop, List.take_append_drop]
      · rw [List.length_take] at hlength ⊢
        omega

/-- A count, a size, a payload of this size and the marker are a block, if the payload can be expanded. -/
theorem framed_of_parts {h : Header} {b : Block} {count size payload : Bytes}
    (hcount : Wire.Reads Wire.length count b.count) (hsize : Wire.Reads Wire.length size payload.length)
    (hdata : h.codec.decompress payload = .ok b.data) :
    b.Framed h (count ++ (size ++ (payload ++ h.marker.bytes))) := by
  refine ⟨?_, count ++ (size ++ payload), by simp only [List.append_assoc]⟩
  refine hcount.bind (hsize.bind ((reads_payload h.marker payload).bind_done fun other => ?_))
  show (Action.ofExcept (h.codec.decompress payload) >>= fun data => Action.done (⟨b.count, data⟩ : Block))
    other = _
  rw [hdata]
  rfl

/-- Bytes that a block is read from are read in four steps, of which the first three take what they find. -/
theorem exists_parts_of_readOne {h : Header} {b : Block} {bytes rest : Bytes}
    (hread : readOne h bytes = (.ok b, rest)) :
    ∃ count size payload, bytes = count ++ (size ++ (payload ++ h.marker.bytes)) ++ rest
      ∧ Wire.Reads Wire.length count b.count ∧ Wire.Reads Wire.length size payload.length
      ∧ h.codec.decompress payload = .ok b.data := by
  obtain ⟨count, afterCount, hcount, htail⟩ := Action.bind_eq_ok hread
  obtain ⟨size, afterSize, hsize, htail'⟩ := Action.bind_eq_ok htail
  obtain ⟨payload, afterPayload, hpayload, hexpand⟩ := Action.bind_eq_ok htail'
  obtain ⟨data, afterData, hdata, hdone⟩ := Action.bind_eq_ok hexpand
  cases hdone
  obtain ⟨front₀, rfl, hreads₀⟩ := Wire.exact_length hcount
  obtain ⟨front₁, rfl, hreads₁⟩ := Wire.exact_length hsize
  obtain ⟨rfl, rfl⟩ := eq_of_readPayload hpayload
  obtain ⟨hexpanded, rfl⟩ := Action.ofExcept_eq_ok hdata
  exact ⟨front₀, front₁, payload, by simp only [List.append_assoc], hreads₀, hreads₁, hexpanded⟩

theorem framed_of_readOne {h : Header} {b : Block} {bytes rest : Bytes}
    (hread : readOne h bytes = (.ok b, rest)) : ∃ front, bytes = front ++ rest ∧ b.Framed h front := by
  obtain ⟨count, size, payload, rfl, hcount, hsize, hdata⟩ := exists_parts_of_readOne hread
  exact ⟨_, rfl, framed_of_parts hcount hsize hdata⟩

theorem exact_readPayload (marker : Marker) (size : Nat) : Wire.Exact (readPayload marker size) := by
  intro bytes rest payload h
  obtain ⟨rfl, rfl⟩ := eq_of_readPayload h
  exact ⟨payload ++ marker.bytes, rfl, reads_payload marker payload⟩

theorem settled_readPayload (marker : Marker) (size : Nat) : Wire.Settled (readPayload marker size) := by
  intro bytes rest e h hne more
  simp only [readPayload] at h
  split at h
  · cases h
    exact absurd rfl hne
  · rename_i hlength
    split at h
    · rename_i hmarker
      cases h
      have hsize : size + Marker.size ≤ bytes.length := by
        simp only [List.length_take, List.length_drop] at hlength
        omega
      have hdrop : (bytes ++ more).drop size = bytes.drop size ++ more :=
        List.drop_append_of_le_length (by omega)
      have htake : (bytes ++ more).take size = bytes.take size := List.take_append_of_le_length (by omega)
      have hending : (bytes.drop size ++ more).take Marker.size = (bytes.drop size).take Marker.size := by
        apply List.take_append_of_le_length
        rw [List.length_drop]
        omega
      refine ⟨bytes ++ more, ?_⟩
      simp only [readPayload, hdrop, htake, hending]
      rw [if_neg hlength, if_pos hmarker]
    · cases h

theorem exact_readOne (h : Header) : Wire.Exact (readOne h) := by
  intro bytes rest b hread
  obtain ⟨front, hfront, hframe⟩ := framed_of_readOne hread
  exact ⟨front, hfront, hframe.reads⟩

theorem settled_readOne (h : Header) : Wire.Settled (readOne h) :=
  Wire.settled_length.bind Wire.exact_length fun _ => Wire.settled_length.bind Wire.exact_length fun _ =>
    (settled_readPayload _ _).bind (exact_readPayload _ _) fun _ =>
      (Wire.Settled.ofExcept _).bind (.ofExcept _) fun _ => .done _

/-- Bytes that are no block are none with others behind them, unless they only end too early. -/
theorem read_append_error {h : Header} {bytes rest : Bytes} {e : FormatError}
    (hread : read h bytes = (.error e, rest)) (hne : e ≠ .endOfData) (more : Bytes) :
    ∃ left, read h (bytes ++ more) = (.error e, left) := by
  cases bytes with
  | nil => cases hread
  | cons first bytes =>
    have hsettled : Wire.Settled (readOne h >>= fun block => Action.done (some block)) :=
      (settled_readOne h).bind (exact_readOne h) fun _ => .done _
    exact hsettled hread hne more

/-- A block that is found stands in front of the rest. -/
theorem framed_of_read {h : Header} {b : Block} {bytes rest : Bytes}
    (hread : read h bytes = (.ok (some b), rest)) : ∃ front, bytes = front ++ rest ∧ b.Framed h front := by
  cases bytes with
  | nil => cases hread
  | cons first bytes =>
    obtain ⟨found, afterBlock, hfound, hdone⟩ := Action.bind_eq_ok hread
    cases hdone
    exact framed_of_readOne hfound

theorem eq_nil_of_read {h : Header} {bytes rest : Bytes} (hread : read h bytes = (.ok none, rest)) :
    bytes = [] := by
  cases bytes with
  | nil => rfl
  | cons first bytes =>
    obtain ⟨found, afterBlock, _, hdone⟩ := Action.bind_eq_ok hread
    cases hdone

theorem exists_read_of_datums {schema : Schema} {b : Block} {records : List Datum}
    (hread : b.datums schema = .ok records) :
    ∀ d ∈ records, ∃ own left, Datum.read schema own = (.ok d, left) := by
  simp only [datums] at hread
  split at hread
  · rename_i htimes
    cases hread
    exact Datum.exists_read_of_times htimes
  · cases hread
  · cases hread

end Block

/-! ## All blocks -/

namespace Header

variable {h : Header}

/-- A scan ends where nothing is left, or where no block can be read. -/
inductive Stops (h : Header) : Bytes → Option FormatError → Prop
  | done : Stops h [] none
  | refused {rest left : Bytes} {e : FormatError} : Block.read h rest = (.error e, left) → Stops h rest (some e)

theorem Stops.eq_none_iff {rest : Bytes} {stop : Option FormatError} (hstops : h.Stops rest stop) :
    stop = none ↔ rest = [] := by
  cases hstops with
  | done => exact ⟨fun _ => rfl, fun _ => rfl⟩
  | refused hread =>
    refine ⟨nofun, ?_⟩
    rintro rfl
    cases hread

theorem blocksAfter_spec (turns : Nat) : ∀ (body : Bytes) (before : List Block), body.length < turns →
    ∃ found front rest stop, h.blocksAfter before turns body = ⟨before.reverse ++ found, rest, stop⟩
      ∧ body = front ++ rest ∧ h.Frames found front ∧ h.Stops rest stop := by
  induction turns with
  | zero => exact fun body _ hturns => absurd hturns (Nat.not_lt_zero body.length)
  | succ turns ih =>
    intro body before hturns
    rw [blocksAfter]
    cases hread : Block.read h body with
    | mk r rest =>
      cases r with
      | error e => exact ⟨[], [], body, some e, by rw [List.append_nil], rfl, .nil, .refused hread⟩
      | ok block? =>
        cases block? with
        | none =>
          have hnil := Block.eq_nil_of_read hread
          subst hnil
          exact ⟨[], [], [], none, by rw [List.append_nil], rfl, .nil, .done⟩
        | some block =>
          obtain ⟨front, rfl, hframe⟩ := Block.framed_of_read hread
          have hpos := hframe.length_pos
          rw [List.length_append] at hturns
          obtain ⟨found, more, left, stop, hblocks, rfl, hframes, hstops⟩ :=
            ih rest (block :: before) (by omega)
          refine ⟨block :: found, front ++ more, left, stop, ?_, ?_, .cons hframe hframes, hstops⟩
          · simp only
            rw [hblocks, List.reverse_cons, List.append_assoc]
            rfl
          · rw [List.append_assoc]

/-- A body is the blocks that are found in it and a rest, where the scan ends. -/
theorem blocks_stops (h : Header) (body : Bytes) :
    ∃ front, body = front ++ (h.blocks body).rest ∧ h.Frames (h.blocks body).found front
      ∧ h.Stops (h.blocks body).rest (h.blocks body).stop := by
  obtain ⟨found, front, rest, stop, hblocks, hbody, hframes, hstops⟩ :=
    blocksAfter_spec (h := h) _ body [] (Nat.lt_succ_self body.length)
  refine ⟨front, ?_⟩
  simp only [blocks, hblocks]
  exact ⟨hbody, hframes, hstops⟩

/-- Only where there is no rest the scan ends for want of a block. -/
theorem blocks_spec (h : Header) (body : Bytes) :
    ∃ front, body = front ++ (h.blocks body).rest ∧ h.Frames (h.blocks body).found front
      ∧ ((h.blocks body).stop = none ↔ (h.blocks body).rest = []) := by
  obtain ⟨front, hbody, hframes, hstops⟩ := blocks_stops h body
  exact ⟨front, hbody, hframes, hstops.eq_none_iff⟩

/-- The part of a body that a scan keeps is the blocks it has found, and behind it the scan ends. -/
theorem take_intact (h : Header) (body : Bytes) :
    ∃ rest, body = body.take (h.intact body) ++ rest ∧ h.Frames (h.blocks body).found (body.take (h.intact body))
      ∧ h.Stops rest (h.blocks body).stop := by
  obtain ⟨front, hbody, hframes, hstops⟩ := blocks_stops h body
  have hlength := congrArg List.length hbody
  rw [List.length_append] at hlength
  have hintact : h.intact body = front.length := by
    simp only [intact]
    omega
  have hfront : body.take (h.intact body) = front := by
    rw [hintact, hbody, List.take_left]
  rw [hfront]
  exact ⟨_, hbody, hframes, hstops⟩

/-- Where the records of a body are read, it is blocks up to its end. -/
theorem frames_of_datums {body : Bytes} {records : List Datum} (hread : h.datums body = .ok records) :
    ∃ found, h.Frames found body ∧ (found.mapM (Block.datums h.schema)).map List.flatten = .ok records := by
  obtain ⟨front, hbody, hframes, hstop⟩ := blocks_spec h body
  simp only [datums] at hread
  cases hstopped : (h.blocks body).stop with
  | some e =>
    rw [hstopped] at hread
    cases hlists : (h.blocks body).found.mapM (Block.datums h.schema) <;> rw [hlists] at hread <;> cases hread
  | none =>
    rw [hstop.1 hstopped, List.append_nil] at hbody
    subst hbody
    refine ⟨_, hframes, ?_⟩
    rw [← hread, ← datums_frames hframes]
    rfl

/-- Blocks behind a body that hold a record each add these records. -/
theorem datums_append {body more : Bytes} {records added : List Datum}
    (hread : h.datums body = .ok records)
    (hadded : ∀ d ∈ added, h.schema.fault d = none ∧ d.bytes.length < 2 ^ 63)
    (hmore : h.Frames (added.map Block.ofDatum) more) :
    h.datums (body ++ more) = .ok (records ++ added) := by
  obtain ⟨found, hframes, hfound⟩ := frames_of_datums hread
  rw [datums_frames (hframes.append hmore), List.mapM_append, mapM_datums_ofDatum hadded]
  cases hlists : found.mapM (Block.datums h.schema) with
  | error e =>
    rw [hlists] at hfound
    cases hfound
  | ok lists =>
    rw [hlists] at hfound
    cases hfound
    show (Except.ok (lists ++ added.map fun d => [d]).flatten : Except FormatError (List Datum)) = _
    rw [List.flatten_append, flatten_singletons]

/-- Behind blocks further ones are found. -/
theorem exists_found_append {found : List Block} {front : Bytes} (hframes : h.Frames found front)
    (rest : Bytes) : ∃ others, (h.blocks (front ++ rest)).found = found ++ others := by
  have hle := hframes.length_le
  have hlength : (front ++ rest).length = front.length + rest.length := List.length_append
  obtain ⟨others, _, _, _, hblocks, -⟩ := blocksAfter_spec (h := h)
    ((front ++ rest).length + 1 - found.length) rest (found.reverse ++ []) (by omega)
  refine ⟨others, ?_⟩
  simp only [blocks]
  rw [blocksAfter_frames hframes rest [] _ (by omega), hblocks, List.append_nil, List.reverse_reverse]

/-- Where a block is not the last one but is malformed, or its records are, what stands behind it makes no
difference. -/
theorem datums_append_error {body : Bytes} {e : FormatError} (hread : h.datums body = .error e)
    (hne : e ≠ .endOfData) (more : Bytes) : h.datums (body ++ more) = .error e := by
  obtain ⟨front, hbody, hframes, hstops⟩ := blocks_stops h body
  simp only [datums] at hread ⊢
  cases hlists : (h.blocks body).found.mapM (Block.datums h.schema) with
  | error e' =>
    rw [hlists] at hread
    cases hread
    obtain ⟨others, hothers⟩ := exists_found_append hframes ((h.blocks body).rest ++ more)
    rw [← List.append_assoc, ← hbody] at hothers
    rw [hothers, List.mapM_append, hlists]
    rfl
  | ok lists =>
    rw [hlists] at hread
    generalize (h.blocks body).stop = stop at hstops hread
    generalize (h.blocks body).rest = rest at hstops hbody
    cases hstops with
    | done => cases hread
    | refused hrefused =>
      cases hread
      obtain ⟨left, hleft⟩ := Block.read_append_error hrefused hne more
      rw [hbody, List.append_assoc, blocks_refused hframes hleft, hlists]
      rfl

theorem exists_of_mem_mapM {α β ε : Type} {f : α → Except ε β} : ∀ {as : List α} {bs : List β},
    as.mapM f = .ok bs → ∀ b ∈ bs, ∃ a ∈ as, f a = .ok b
  | [], _, h, b, hb => by
    cases h
    cases hb
  | a :: as, bs, h, b, hb => by
    rw [List.mapM_cons] at h
    cases hfirst : f a with
    | error e =>
      rw [hfirst] at h
      cases h
    | ok b' =>
      cases hrest : as.mapM f with
      | error e =>
        rw [hfirst, hrest] at h
        cases h
      | ok bs' =>
        rw [hfirst, hrest] at h
        cases h
        cases hb with
        | head => exact ⟨a, List.mem_cons_self, hfirst⟩
        | tail _ hb =>
          obtain ⟨a', ha', hb'⟩ := exists_of_mem_mapM hrest b hb
          exact ⟨a', List.mem_cons_of_mem a ha', hb'⟩

/-- Each record of a body was read from some bytes of it. -/
theorem exists_read_of_datums {body : Bytes} {records : List Datum} (hread : h.datums body = .ok records) :
    ∀ d ∈ records, ∃ own left, Datum.read h.schema own = (.ok d, left) := by
  obtain ⟨found, -, hfound⟩ := frames_of_datums hread
  intro d hd
  cases hlists : found.mapM (Block.datums h.schema) with
  | error e =>
    rw [hlists] at hfound
    cases hfound
  | ok lists =>
    rw [hlists] at hfound
    cases hfound
    obtain ⟨list, hlist, hd⟩ := List.mem_flatten.1 hd
    obtain ⟨b, -, hb⟩ := exists_of_mem_mapM hlists list hlist
    exact Block.exists_read_of_datums hb d hd

theorem fault_of_datums {body : Bytes} {records : List Datum} (hread : h.datums body = .ok records) :
    ∀ d ∈ records, h.schema.fault d = none := by
  intro d hd
  obtain ⟨_, _, hown⟩ := exists_read_of_datums hread d hd
  exact Datum.fault_of_read hown

end Header

end DeviceLog
