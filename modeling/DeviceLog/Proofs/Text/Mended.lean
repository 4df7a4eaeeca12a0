import DeviceLog.Proofs.Text.Pieces

/-! # What becomes of bytes that are no text

* `isValidUTF8_iff`: bytes are valid, as the standard library has it, exactly if they are those of a text.
* `Unfit bad bytes`: the most bytes at the front that no character is made of, and `Mended bytes cs`: the
  characters of bytes, with one replacement character for each such front.
* `mended_iff`: all bytes can be mended, in one way only, and that is how they are decoded.
* `kept_decodeLossy`: bytes are given back exactly if they are valid.
-/

namespace DeviceLog.Utf8

/-! ## Bytes of the standard library -/

theorem encodeChar_eq (c : Char) : encodeChar c = String.utf8EncodeChar c := by
  have hvalid := toNat_valid c
  have hval : c.val.toNat = c.toNat := rfl
  simp only [encodeChar, String.utf8EncodeChar, hval]
  split
  · rw [if_pos (by omega)]
  split
  · rw [if_neg (by omega), if_pos (by omega), Nat.mod_eq_of_lt (a := c.toNat / 64) (by omega)]
    simp only [Nat.add_comm]
  split
  · rw [if_neg (by omega), if_neg (by omega), if_pos (by omega),
      Nat.mod_eq_of_lt (a := c.toNat / 4096) (by omega)]
    simp only [Nat.add_comm]
  · rw [if_neg (by omega), if_neg (by omega), if_neg (by omega),
      Nat.mod_eq_of_lt (a := c.toNat / 262144) (by omega)]
    simp only [Nat.add_comm]

theorem toByteArray_flatMap (cs : List Char) : (cs.flatMap encodeChar).toByteArray = cs.utf8Encode := by
  rw [List.utf8Encode, funext encodeChar_eq]

theorem isValidUTF8_iff {bytes : Bytes} : bytes.toByteArray.IsValidUTF8 ↔ ∃ s, encode s = bytes := by
  constructor
  · rintro ⟨cs, hcs⟩
    rw [← toByteArray_flatMap, List.toByteArray_inj] at hcs
    refine ⟨String.ofList cs, ?_⟩
    rw [encode, String.toList_ofList, hcs]
  · rintro ⟨s, rfl⟩
    exact ⟨s.toList, toByteArray_flatMap s.toList⟩

theorem encode_decodeLossy_iff {bytes : Bytes} :
    encode (decodeLossy bytes) = bytes ↔ bytes.toByteArray.IsValidUTF8 := by
  rw [isValidUTF8_iff]
  constructor
  · intro h
    exact ⟨_, h⟩
  · rintro ⟨s, rfl⟩
    rw [decodeLossy_encode]

/-! ## Pieces are found one after another -/

/-- The splitter with some more pieces found before. -/
def Splitter.after (s : Splitter) (before : List Piece) : Splitter := { s with found := s.found ++ before }

/-- What has been found is never looked at again. -/
theorem Splitter.step_after (s : Splitter) (before : List Piece) (b : UInt8) :
    (s.after before).step b = (s.step b).after before := by
  have hstart : ∀ found, Splitter.start (found ++ before) b = (Splitter.start found b).after before := by
    intro found
    unfold Splitter.start
    cases lead b <;> rfl
  obtain ⟨found, begun⟩ := s
  cases begun with
  | none => exact hstart found
  | some p =>
    simp only [after, step]
    split
    · split <;> rfl
    · exact hstart (.bad p.seen :: found)

theorem Splitter.foldl_after (before : List Piece) (bytes : Bytes) : ∀ s : Splitter,
    bytes.foldl Splitter.step (s.after before) = (bytes.foldl Splitter.step s).after before := by
  induction bytes with
  | nil => intro s; rfl
  | cons b bytes ih =>
    intro s
    rw [List.foldl_cons, step_after, ih, List.foldl_cons]

theorem Splitter.finish_after (s : Splitter) (before : List Piece) :
    (s.after before).finish = before.reverse ++ s.finish := by
  obtain ⟨found, begun⟩ := s
  cases begun <;> simp [finish, after]

/-- Once a piece has been found, it is the first one. -/
theorem pieces_append {front : Bytes} {s : Splitter} {piece : Piece}
    (h : front.foldl Splitter.step {} = s.after [piece]) (rest : Bytes) :
    pieces (front ++ rest) = piece :: (rest.foldl Splitter.step s).finish := by
  rw [pieces, List.foldl_append, h, Splitter.foldl_after, Splitter.finish_after]
  rfl

theorem pieces_encodeChar_append (c : Char) (rest : Bytes) :
    pieces (encodeChar c ++ rest) = .char c :: pieces rest :=
  pieces_append (foldl_encodeChar [] c) rest

/-! ## Fronts of bytes -/

/-- Whether bytes are the first ones of a character. -/
def Begins (bytes : Bytes) : Prop := ∃ c, bytes <+: encodeChar c

theorem Begins.of_prefix {front more : Bytes} (h : Begins more) (hextends : front <+: more) :
    Begins front := by
  obtain ⟨c, hc⟩ := h
  exact ⟨c, hextends.trans hc⟩

/-- The most bytes at the front that no character is made of: as many as still might begin one, and one at
least. -/
structure Unfit (bad bytes : Bytes) : Prop where
  nonempty : bad ≠ []
  front : bad <+: bytes
  no_char : ∀ c, ¬encodeChar c <+: bytes
  begins : Begins bad ∨ bad.length = 1
  longest : ∀ other, other <+: bytes → Begins other → other.length ≤ bad.length

theorem Unfit.length_le {bad other bytes : Bytes} (h : Unfit bad bytes) (hother : Unfit other bytes) :
    other.length ≤ bad.length := by
  obtain hbegins | hone := hother.begins
  · exact h.longest other hother.front hbegins
  · rw [hone]
    exact List.length_pos_of_ne_nil h.nonempty

theorem Unfit.unique {bad other bytes : Bytes} (h : Unfit bad bytes) (hother : Unfit other bytes) :
    bad = other := by
  have hlength : bad.length = other.length := Nat.le_antisymm (hother.length_le h) (h.length_le hother)
  exact (List.prefix_of_prefix_length_le h.front hother.front (Nat.le_of_eq hlength)).eq_of_length hlength

/-- The fronts of bytes that begin a character end before those that do not. -/
theorem length_lt_of_begins {other more bytes : Bytes} (hmore : more <+: bytes) (hnot : ¬Begins more)
    (hother : other <+: bytes) (hbegins : Begins other) : other.length < more.length := by
  apply Nat.lt_of_not_le
  intro hle
  exact hnot (hbegins.of_prefix (List.prefix_of_prefix_length_le hmore hother hle))

/-! ## Characters that have begun -/

theorem Splitter.found_foldl_after (s : Splitter) (before : List Piece) (bytes : Bytes) :
    (bytes.foldl Splitter.step (s.after before)).found = (bytes.foldl Splitter.step s).found ++ before := by
  rw [foldl_after]
  rfl

/-- The first bytes of a character are split into nothing else. -/
theorem not_begins_of_found {front : Bytes} {s : Splitter} {piece : Piece}
    (h : front.foldl Splitter.step {} = s.after [piece]) (hpiece : ∀ c, piece ≠ .char c) : ¬Begins front := by
  rintro ⟨c, more, hmore⟩
  have hfound := congrArg Splitter.found (foldl_encodeChar [] c)
  rw [← hmore, List.foldl_append, h, Splitter.found_foldl_after] at hfound
  obtain ⟨-, heq⟩ := List.append_inj' (hfound.trans (List.nil_append _).symm) rfl
  exact hpiece c (List.singleton_inj.1 heq)

theorem foldl_of_lead {b : UInt8} {piece : Piece} (h : lead b = .inl piece) :
    [b].foldl Splitter.step {} = Splitter.after {} [piece] := by
  simp [Splitter.step, Splitter.start, Splitter.after, h]

/-- The bytes of a character that has begun and nothing else. -/
structure Opens (front : Bytes) (p : Begun) : Prop where
  reads : front.foldl Splitter.step {} = { begun := some p }
  takes : ∃ b, p.Takes b

theorem Begun.exists_takes_next (p : Begun) (b : UInt8) : ∃ other, (p.next b).Takes other :=
  ⟨0x80, Nat.le_refl 0x80, (by decide : 0x80 ≤ 0xBF)⟩

theorem Opens.of_lead {b : UInt8} {p : Begun} (h : lead b = .inr p) : Opens [b] p := by
  refine ⟨step_lead h, UInt8.ofNat p.high, ?_⟩
  have hrange : p.low ≤ p.high ∧ p.high < 256 := by
    obtain ⟨-, ⟨-, -, -, -, hlow, hhigh⟩ | ⟨-, -, -, hlow, hhigh⟩ | ⟨-, -, -, hlow, hhigh⟩⟩ := lead_cases h
    · omega
    · split at hlow <;> split at hhigh <;> omega
    · split at hlow <;> split at hhigh <;> omega
  rw [Begun.Takes, toNat_ofNat_of_lt hrange.2]
  exact ⟨hrange.1, Nat.le_refl _⟩

section Opens

variable {front : Bytes} {p : Begun} {b : UInt8}

theorem Opens.foldl_append_singleton (h : Opens front p) (b : UInt8) :
    (front ++ [b]).foldl Splitter.step {} = Splitter.step { begun := some p } b := by
  rw [List.foldl_append, h.reads]
  rfl

theorem Opens.next (h : Opens front p) (hb : p.Takes b) (howed : p.owed ≠ 1) :
    Opens (front ++ [b]) (p.next b) := by
  refine ⟨?_, p.exists_takes_next b⟩
  rw [h.foldl_append_singleton, Splitter.step]
  simp only
  rw [if_pos ⟨hb.1, hb.2⟩, if_neg howed]
  rfl

theorem Opens.ne_nil (h : Opens front p) : front ≠ [] := by
  rintro rfl
  cases h.reads

theorem Opens.awaits (h : Opens front p) : p.Awaits p.owed front := by
  have hstart : Splitter.Covers {} [] := ⟨[], [], rfl, .nil, rfl⟩
  have hall := covers_foldl front hstart
  rw [h.reads, List.nil_append] at hall
  obtain ⟨parts, last, hparts, hfound, hlast⟩ := hall
  cases hfound
  rw [List.flatten_nil, List.nil_append] at hparts
  rw [hparts]
  exact hlast.2

/-- With the last byte that is owed, a character ends. -/
theorem Opens.exists_char (h : Opens front p) (hb : p.Takes b) (howed : p.owed = 1) :
    ∃ c, encodeChar c = front ++ [b] := by
  have hawaits := h.awaits
  rw [howed] at hawaits
  exact ⟨_, hawaits b hb⟩

theorem begins_of_awaits {owed : Nat} : ∀ {p : Begun} {front : Bytes},
    p.Awaits owed front → (∃ b, p.Takes b) → Begins front := by
  induction owed with
  | zero =>
    intro p front h _
    exact h.elim
  | succ owed ih =>
    intro p front h htakes
    obtain ⟨b, hb⟩ := htakes
    cases owed with
    | zero => exact ⟨_, [b], (h b hb).symm⟩
    | succ owed =>
      have hnext : Begins (front ++ [b]) := ih (h b hb) (p.exists_takes_next b)
      exact hnext.of_prefix (List.prefix_append front [b])

theorem Opens.begins (h : Opens front p) : Begins front := begins_of_awaits h.awaits h.takes

/-- No character ends before the one that has begun. -/
theorem Opens.not_prefix (h : Opens front p) (c : Char) : ¬encodeChar c <+: front := by
  rintro ⟨more, hmore⟩
  have hfound := congrArg Splitter.found h.reads
  have hchar : (encodeChar c).foldl Splitter.step {} = Splitter.after {} [.char c] := foldl_encodeChar [] c
  rw [← hmore, List.foldl_append, hchar, Splitter.found_foldl_after] at hfound
  exact List.append_ne_nil_of_right_ne_nil _ (List.cons_ne_nil _ _) hfound

theorem Opens.unfit (h : Opens front p) {bytes : Bytes} (hfront : front <+: bytes)
    (hlongest : ∀ other, other <+: bytes → Begins other → other.length ≤ front.length) :
    Unfit front bytes where
  nonempty := h.ne_nil
  front := hfront
  no_char c hc :=
    have hle := hlongest _ hc ⟨c, List.prefix_rfl⟩
    h.not_prefix c (List.prefix_of_prefix_length_le hc hfront hle)
  begins := .inl h.begins
  longest := hlongest

/-- A byte that is not taken ends the piece before it. -/
theorem Opens.foldl_of_not_takes (h : Opens front p) (hb : ¬p.Takes b) :
    (front ++ [b]).foldl Splitter.step {} = (Splitter.step {} b).after [.bad p.seen] := by
  have hend : Splitter.step { begun := some p } b = Splitter.step (Splitter.after {} [.bad p.seen]) b := by
    rw [Begun.Takes] at hb
    rw [Splitter.step]
    simp only
    rw [if_neg hb]
    rfl
  rw [h.foldl_append_singleton, hend, Splitter.step_after]

theorem Opens.not_begins (h : Opens front p) (hb : ¬p.Takes b) : ¬Begins (front ++ [b]) :=
  not_begins_of_found (h.foldl_of_not_takes hb) nofun

end Opens

/-! ## Mending -/

/-- Bytes and the characters that are shown for them: those that they are made of, and one replacement for
each front that no character is made of. -/
inductive Mended : Bytes → List Char → Prop
  | nil : Mended [] []
  | char {rest : Bytes} {cs : List Char} (c : Char) : Mended rest cs → Mended (encodeChar c ++ rest) (c :: cs)
  | bad {bad rest : Bytes} {cs : List Char} : Unfit bad (bad ++ rest) → Mended rest cs →
      Mended (bad ++ rest) (replacement :: cs)

/-- Bytes are mended in one way only. -/
theorem Mended.unique {bytes : Bytes} {cs : List Char} (h : Mended bytes cs) :
    ∀ {other : List Char}, Mended bytes other → cs = other := by
  have hchar : ∀ c : Char, encodeChar c ≠ [] := by
    intro c hc
    have hlength := length_encodeChar c
    rw [hc] at hlength
    exact absurd hlength (Nat.ne_of_lt c.utf8Size_pos)
  -- The bytes decide what comes first: no character does where a front is unfit, and of fronts the longest.
  induction h with
  | nil =>
    intro other hother
    generalize hbytes : ([] : Bytes) = bytes at hother
    cases hother with
    | nil => rfl
    | char c _ => exact absurd (List.append_eq_nil_iff.1 hbytes.symm).1 (hchar c)
    | bad hunfit _ => exact absurd (List.append_eq_nil_iff.1 hbytes.symm).1 hunfit.nonempty
  | @char rest cs c _ ih =>
    intro other hother
    generalize hbytes : encodeChar c ++ rest = bytes at hother
    cases hother with
    | nil => exact absurd (List.append_eq_nil_iff.1 hbytes).1 (hchar c)
    | char c' hrest =>
      have hpieces := congrArg pieces hbytes
      rw [pieces_encodeChar_append, pieces_encodeChar_append] at hpieces
      obtain rfl : c = c' := Piece.char.inj (List.cons.inj hpieces).1
      rw [List.append_cancel_left hbytes] at ih
      rw [ih hrest]
    | bad hunfit _ => exact absurd ⟨rest, hbytes⟩ (hunfit.no_char c)
  | @bad bad rest cs hunfit _ ih =>
    intro other hother
    generalize hbytes : bad ++ rest = bytes at hother hunfit
    cases hother with
    | nil => exact absurd (List.append_eq_nil_iff.1 hbytes).1 hunfit.nonempty
    | char c _ => exact absurd (List.prefix_append _ _) (hunfit.no_char c)
    | bad hunfit' hrest =>
      obtain rfl := hunfit.unique hunfit'
      rw [List.append_cancel_left hbytes] at ih
      rw [ih hrest]

/-- A byte that begins no longer character is mended alone. -/
theorem mended_of_lead {b : UInt8} {piece : Piece} {rest : Bytes} {cs : List Char}
    (hlead : lead b = .inl piece) (hrest : Mended rest cs) : Mended ([b] ++ rest) (piece.shown :: cs) := by
  have hunfit : (∀ c, piece ≠ .char c) → Unfit [b] ([b] ++ rest) := by
    intro hpiece
    have hnot : ¬Begins [b] := not_begins_of_found (foldl_of_lead hlead) hpiece
    have hlength : ∀ other, other <+: [b] ++ rest → Begins other → other.length < 1 :=
      fun other => length_lt_of_begins (List.prefix_append [b] rest) hnot
    refine ⟨List.cons_ne_nil b [], List.prefix_append [b] rest, ?_, .inr rfl, ?_⟩
    · intro c hc
      have hpos := c.utf8Size_pos
      have hlt := hlength _ hc ⟨c, List.prefix_rfl⟩
      rw [length_encodeChar] at hlt
      omega
    · intro other hother hbegins
      exact Nat.le_of_lt (hlength other hother hbegins)
  have hcovers := covers_of_lead hlead
  cases piece with
  | char c =>
    generalize [b] = part at hcovers
    cases hcovers
    exact .char c hrest
  | bad length => exact .bad (hunfit nofun) hrest
  | cut length => exact .bad (hunfit nofun) hrest

/-- What bytes are split into is shown as they are mended, whether a character has begun before or not. -/
theorem mended_pieces (rest : Bytes) : Mended rest ((pieces rest).map Piece.shown)
    ∧ ∀ {front : Bytes} {p : Begun}, Opens front p →
      Mended (front ++ rest) ((pieces (front ++ rest)).map Piece.shown) := by
  induction rest with
  | nil =>
    refine ⟨.nil, ?_⟩
    intro front p h
    have hpieces : pieces (front ++ []) = [.cut p.seen] := by
      rw [pieces, List.append_nil, h.reads]
      rfl
    have hunfit : Unfit front (front ++ []) := by
      apply h.unfit (List.prefix_append front [])
      intro other hother _
      rw [List.append_nil] at hother
      exact hother.length_le
    rw [hpieces]
    exact .bad hunfit .nil
  | cons b rest ih =>
    obtain ⟨hrest, hopens⟩ := ih
    have hfirst : Mended (b :: rest) ((pieces (b :: rest)).map Piece.shown) := by
      cases hlead : lead b with
      | inr p => exact hopens (.of_lead hlead)
      | inl piece =>
        have hpieces : pieces (b :: rest) = piece :: pieces rest := pieces_append (foldl_of_lead hlead) rest
        rw [hpieces]
        exact mended_of_lead hlead hrest
    refine ⟨hfirst, ?_⟩
    intro front p h
    rw [List.append_cons]
    by_cases hb : p.Takes b
    · by_cases howed : p.owed = 1
      · obtain ⟨c, hc⟩ := h.exists_char hb howed
        rw [← hc, pieces_encodeChar_append]
        exact .char c hrest
      · exact hopens (h.next hb howed)
    · -- The byte is looked at again, as the first one of the rest.
      have hpieces : pieces (front ++ [b] ++ rest) = .bad p.seen :: pieces (b :: rest) :=
        pieces_append (h.foldl_of_not_takes hb) rest
      have hunfit : Unfit front (front ++ b :: rest) := by
        apply h.unfit (List.prefix_append front _)
        intro other hother hbegins
        have hextends : front ++ [b] <+: front ++ b :: rest := ⟨rest, (List.append_cons front b rest).symm⟩
        have hlt := length_lt_of_begins hextends (h.not_begins hb) hother hbegins
        rw [List.length_append] at hlt
        exact Nat.le_of_lt_succ hlt
      rw [hpieces, ← List.append_cons]
      exact .bad hunfit hfirst

theorem mended_decodeLossy (bytes : Bytes) : Mended bytes (decodeLossy bytes).toList := by
  rw [decodeLossy, String.toList_ofList]
  exact (mended_pieces bytes).1

/-- Bytes can be mended, and decoding them is the only way to. -/
theorem mended_iff {bytes : Bytes} {cs : List Char} : Mended bytes cs ↔ cs = (decodeLossy bytes).toList := by
  constructor
  · intro h
    exact h.unique (mended_decodeLossy bytes)
  · rintro rfl
    exact mended_decodeLossy bytes

/-- A surrogate has no valid front of two bytes, and a character that is cut off is replaced once. -/
example : (decodeLossy [0x61, 0xED, 0xA0, 0xE2, 0x82, 0x62]).toList
    = ['a', replacement, replacement, replacement, 'b'] := by
  decide

/-- A blob and the text that is kept of it: mended, and with the same bytes exactly if these are valid. -/
structure Kept (blob : Bytes) (text : String) : Prop where
  valid_iff : encode text = blob ↔ blob.toByteArray.IsValidUTF8
  mended_iff : ∀ cs, Mended blob cs ↔ cs = text.toList

theorem kept_decodeLossy (blob : Bytes) : Kept blob (decodeLossy blob) :=
  ⟨encode_decodeLossy_iff, fun _ => mended_iff⟩

end DeviceLog.Utf8
