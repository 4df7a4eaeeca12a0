import DeviceLog.Text.Utf8

/-! # UTF-8 is read as it was written

The bytes of a text split into its characters and nothing else, so that decoding them gives the text
back.

* `encode_append` and `length_encode`: the bytes of a text, put together and counted.
* `foldl_encodeChar`: the splitter passes the bytes of one character as that character.
* `pieces_encode`: the pieces of an encoded text are its characters.
* `decode_encode`: decoding undoes encoding.
* `utf8ByteSize_of_decode?` and `utf8ByteSize_decodeLossy_le`: a text that bytes are decoded to takes four
  times as many bytes at most.
-/

namespace DeviceLog.Utf8

/-- The numbers of characters leave out the surrogates and end at U+10FFFF. -/
theorem toNat_valid (c : Char) :
    c.toNat < 0xD800 ∨ (0xDFFF < c.toNat ∧ c.toNat < 0x110000) := c.valid

theorem toNat_ofNat_of_lt {n : Nat} (h : n < 256) : (UInt8.ofNat n).toNat = n := by
  simp [Nat.mod_eq_of_lt h]

/-! ## Encoding -/

@[simp] theorem encode_empty : encode "" = [] := rfl

@[simp] theorem encode_append (s t : String) : encode (s ++ t) = encode s ++ encode t := by
  simp [encode]

@[simp] theorem encode_singleton (c : Char) : encode (String.singleton c) = encodeChar c := by
  simp [encode]

theorem encode_join (l : List String) : encode (String.join l) = l.flatMap encode := by
  induction l with
  | nil => rfl
  | cons s l ih => simp [ih]

theorem length_encodeChar (c : Char) : (encodeChar c).length = c.utf8Size := by
  have hv : c.val.toNat = c.toNat := rfl
  simp only [encodeChar, Char.utf8Size, UInt32.le_iff_toNat_le, hv, UInt32.toNat_ofNatLT]
  split
  · rw [if_pos (by omega)]
    rfl
  split
  · rw [if_neg (by omega), if_pos (by omega)]
    rfl
  split
  · rw [if_neg (by omega), if_neg (by omega), if_pos (by omega)]
    rfl
  · rw [if_neg (by omega), if_neg (by omega), if_neg (by omega)]
    rfl

theorem length_encode (s : String) : (encode s).length = s.utf8ByteSize := by
  have hlist : ∀ cs : List Char,
      (encode (String.ofList cs)).length = (String.ofList cs).utf8ByteSize := by
    intro cs
    induction cs with
    | nil => rfl
    | cons c cs ih =>
      have hcons : String.ofList (c :: cs) = String.singleton c ++ String.ofList cs := by
        rw [String.singleton_eq_ofList, ← String.ofList_append]
        rfl
      rw [hcons, encode_append, List.length_append, ih, encode_singleton, length_encodeChar,
        String.utf8ByteSize_append, String.utf8ByteSize_singleton]
  have hs := hlist s.toList
  rwa [String.ofList_toList] at hs

/-! ## One byte -/

/-- The last byte of a character ends it. -/
theorem step_last {found : List Piece} {p : Begun} {m : Nat} (howed : p.owed = 1) (hm : m < 64)
    (hlow : p.low ≤ 0x80 + m) (hhigh : 0x80 + m ≤ p.high) :
    Splitter.step ⟨found, some p⟩ (UInt8.ofNat (0x80 + m))
      = { found := .char (Char.ofNat (p.value * 64 + m)) :: found } := by
  unfold Splitter.step
  simp only
  rw [toNat_ofNat_of_lt (by omega), if_pos ⟨hlow, hhigh⟩, if_pos howed, Nat.add_sub_cancel_left]

/-- Another byte of a character adds six bits to its value. -/
theorem step_more {found : List Piece} {p : Begun} {m : Nat} (howed : p.owed ≠ 1) (hm : m < 64)
    (hlow : p.low ≤ 0x80 + m) (hhigh : 0x80 + m ≤ p.high) :
    Splitter.step ⟨found, some p⟩ (UInt8.ofNat (0x80 + m))
      = { found := found,
          begun := some { value := p.value * 64 + m, owed := p.owed - 1, seen := p.seen + 1 } } := by
  unfold Splitter.step
  simp only
  rw [toNat_ofNat_of_lt (by omega), if_pos ⟨hlow, hhigh⟩, if_neg howed, Nat.add_sub_cancel_left]

theorem step_lead {found : List Piece} {b : UInt8} {p : Begun} (h : lead b = .inr p) :
    Splitter.step { found := found } b = ⟨found, some p⟩ := by
  simp [Splitter.step, Splitter.start, h]

theorem lead_two {a : Nat} (h : 2 ≤ a) (h' : a < 32) :
    lead (UInt8.ofNat (0xC0 + a)) = .inr { value := a, owed := 1 } := by
  unfold lead
  rw [toNat_ofNat_of_lt (by omega)]
  simp only
  rw [if_neg (by omega), if_neg (by omega), if_pos (by omega), Nat.add_sub_cancel_left]

/-- The range of the second byte keeps out overlong forms and surrogates. -/
theorem lead_three {a : Nat} (h : a < 16) :
    ∃ p : Begun, lead (UInt8.ofNat (0xE0 + a)) = .inr p ∧ p.value = a ∧ p.owed = 2
      ∧ p.low = (if a = 0 then 0xA0 else 0x80) ∧ p.high = (if a = 13 then 0x9F else 0xBF) := by
  unfold lead
  rw [toNat_ofNat_of_lt (by omega)]
  simp only
  rw [if_neg (by omega), if_neg (by omega), if_neg (by omega)]
  -- The first lead byte keeps out overlong forms, and the thirteenth surrogates.
  by_cases h0 : a = 0
  · subst h0
    exact ⟨_, rfl, rfl, rfl, rfl, rfl⟩
  · by_cases h13 : a = 13
    · subst h13
      exact ⟨_, rfl, rfl, rfl, rfl, rfl⟩
    · rw [if_neg (by omega), if_neg (by omega), if_pos (by omega), Nat.add_sub_cancel_left, if_neg h0,
        if_neg h13]
      exact ⟨_, rfl, rfl, rfl, rfl, rfl⟩

/-- The range of the second byte keeps out overlong forms and values above U+10FFFF. -/
theorem lead_four {a : Nat} (h : a < 5) :
    ∃ p : Begun, lead (UInt8.ofNat (0xF0 + a)) = .inr p ∧ p.value = a ∧ p.owed = 3
      ∧ p.low = (if a = 0 then 0x90 else 0x80) ∧ p.high = (if a = 4 then 0x8F else 0xBF) := by
  unfold lead
  rw [toNat_ofNat_of_lt (by omega)]
  simp only
  rw [if_neg (by omega), if_neg (by omega), if_neg (by omega), if_neg (by omega), if_neg (by omega),
    if_neg (by omega)]
  by_cases h0 : a = 0
  · subst h0
    exact ⟨_, rfl, rfl, rfl, rfl, rfl⟩
  · by_cases h4 : a = 4
    · subst h4
      exact ⟨_, rfl, rfl, rfl, rfl, rfl⟩
    · rw [if_neg (by omega), if_pos (by omega), Nat.add_sub_cancel_left, if_neg h0, if_neg h4]
      exact ⟨_, rfl, rfl, rfl, rfl, rfl⟩

/-! ## One character -/

theorem foldl_encodeChar (found : List Piece) (c : Char) :
    (encodeChar c).foldl Splitter.step { found := found } = { found := .char c :: found } := by
  have hv := toNat_valid c
  unfold encodeChar
  simp only
  split
  · rename_i h1
    have hb : (UInt8.ofNat c.toNat).toNat = c.toNat := toNat_ofNat_of_lt (by omega)
    simp [Splitter.step, Splitter.start, lead, hb, h1]
  split
  · rename_i h1 h2
    simp only [List.foldl_cons, List.foldl_nil]
    rw [step_lead (lead_two (by omega) (by omega)),
      step_last rfl (by omega) (by simp only; omega) (by simp only; omega)]
    rw [show c.toNat / 64 * 64 + c.toNat % 64 = c.toNat by omega, Char.ofNat_toNat]
  split
  · rename_i h1 h2 h3
    obtain ⟨p, hp, hvalue, howed, hlow, hhigh⟩ := lead_three (a := c.toNat / 4096) (by omega)
    simp only [List.foldl_cons, List.foldl_nil]
    rw [step_lead hp, step_more (by omega) (by omega)
      (by rw [hlow]; split <;> omega) (by rw [hhigh]; split <;> omega)]
    rw [step_last (by simp only; omega) (by omega) (by simp only; omega) (by simp only; omega)]
    simp only [hvalue]
    rw [show (c.toNat / 4096 * 64 + c.toNat / 64 % 64) * 64 + c.toNat % 64 = c.toNat by omega,
      Char.ofNat_toNat]
  · rename_i h1 h2 h3
    obtain ⟨p, hp, hvalue, howed, hlow, hhigh⟩ := lead_four (a := c.toNat / 262144) (by omega)
    simp only [List.foldl_cons, List.foldl_nil]
    rw [step_lead hp, step_more (by omega) (by omega)
      (by rw [hlow]; split <;> omega) (by rw [hhigh]; split <;> omega)]
    rw [step_more (by simp only; omega) (by omega) (by simp only; omega) (by simp only; omega)]
    rw [step_last (by simp only; omega) (by omega) (by simp only; omega) (by simp only; omega)]
    simp only [hvalue]
    rw [show ((c.toNat / 262144 * 64 + c.toNat / 4096 % 64) * 64 + c.toNat / 64 % 64) * 64
      + c.toNat % 64 = c.toNat by omega, Char.ofNat_toNat]

/-! ## Texts -/

theorem foldl_encodeChars (cs : List Char) : ∀ found : List Piece,
    (cs.flatMap encodeChar).foldl Splitter.step { found := found }
      = { found := (cs.map Piece.char).reverse ++ found } := by
  induction cs with
  | nil => intro found; rfl
  | cons c cs ih =>
    intro found
    rw [List.flatMap_cons, List.foldl_append, foldl_encodeChar, ih]
    simp

/-- The pieces of an encoded text are its characters. -/
theorem pieces_encode (s : String) : pieces (encode s) = s.toList.map Piece.char := by
  simp only [pieces, encode]
  rw [foldl_encodeChars]
  simp [Splitter.finish]

theorem characters_map_char (cs : List Char) : ∀ (index : Nat) (before : List Char),
    characters index before (cs.map Piece.char) = .ok (before.reverse ++ cs) := by
  induction cs with
  | nil => intro index before; simp [characters]
  | cons c cs ih => intro index before; simp [characters, ih]

@[simp] theorem decode_encode (s : String) : decode (encode s) = .ok s := by
  simp only [decode]
  rw [pieces_encode, characters_map_char]
  simp [Except.map]

@[simp] theorem decode?_encode (s : String) : decode? (encode s) = some s := by
  simp [decode?, Except.toOption]

@[simp] theorem decodeLossy_encode (s : String) : decodeLossy (encode s) = s := by
  simp only [decodeLossy]
  rw [pieces_encode, List.map_map]
  have h : Piece.shown ∘ Piece.char = id := rfl
  simp [h]

/-! ## Sizes -/

/-- The pieces that have been found or begun. -/
def Splitter.size (s : Splitter) : Nat := s.found.length + if s.begun.isSome then 1 else 0

theorem Splitter.size_start (found : List Piece) (b : UInt8) : (Splitter.start found b).size = found.length + 1 := by
  unfold start
  cases lead b <;> rfl

/-- A byte begins one piece at most. -/
theorem Splitter.size_step (s : Splitter) (b : UInt8) : (s.step b).size ≤ s.size + 1 := by
  obtain ⟨found, begun⟩ := s
  cases begun with
  | none =>
    simp only [step, size_start]
    exact Nat.le_refl _
  | some p =>
    simp only [step]
    split
    · split <;> simp [size]
    · rw [size_start]
      exact Nat.le_refl _

theorem length_pieces_le (bytes : Bytes) : (pieces bytes).length ≤ bytes.length := by
  have hfold : ∀ (bytes : Bytes) (s : Splitter), (bytes.foldl Splitter.step s).size ≤ s.size + bytes.length := by
    intro bytes
    induction bytes with
    | nil => intro s; exact Nat.le_refl _
    | cons b bytes ih =>
      intro s
      have hstep := s.size_step b
      have hrest := ih (s.step b)
      rw [List.foldl_cons, List.length_cons]
      omega
  have hfinish : ∀ s : Splitter, s.finish.length = s.size := by
    rintro ⟨found, _ | p⟩ <;> simp [Splitter.finish, Splitter.size]
  have hle := hfold bytes {}
  rw [pieces, hfinish]
  simpa [Splitter.size] using hle

theorem utf8ByteSize_ofList_le (cs : List Char) : (String.ofList cs).utf8ByteSize ≤ 4 * cs.length := by
  rw [← length_encode, encode, String.toList_ofList]
  induction cs with
  | nil => exact Nat.le_refl _
  | cons c cs ih =>
    have hc := c.utf8Size_le_four
    rw [List.flatMap_cons, List.length_append, length_encodeChar, List.length_cons]
    omega

theorem length_of_characters (found : List Piece) : ∀ {index : Nat} {before cs : List Char},
    characters index before found = .ok cs → cs.length = before.length + found.length := by
  induction found with
  | nil =>
    intro index before cs h
    cases h
    simp
  | cons piece rest ih =>
    intro index before cs h
    cases piece with
    | char c =>
      have hrest := ih h
      rw [List.length_cons] at hrest ⊢
      omega
    | bad length => cases h
    | cut length => cases h

theorem utf8ByteSize_of_decode? {bytes : Bytes} {s : String} (h : decode? bytes = some s) :
    s.utf8ByteSize ≤ 4 * bytes.length := by
  simp only [decode?, decode] at h
  cases hcs : characters 0 [] (pieces bytes) with
  | error e =>
    rw [hcs] at h
    cases h
  | ok cs =>
    rw [hcs] at h
    cases h
    have hcount := length_of_characters _ hcs
    have hpieces := length_pieces_le bytes
    have hsize := utf8ByteSize_ofList_le cs
    rw [List.length_nil, Nat.zero_add] at hcount
    omega

theorem utf8ByteSize_decodeLossy_le (bytes : Bytes) : (decodeLossy bytes).utf8ByteSize ≤ 4 * bytes.length := by
  have hsize := utf8ByteSize_ofList_le ((pieces bytes).map Piece.shown)
  have hpieces := length_pieces_le bytes
  rw [List.length_map] at hsize
  exact Nat.le_trans hsize (Nat.mul_le_mul_left 4 hpieces)

end DeviceLog.Utf8
