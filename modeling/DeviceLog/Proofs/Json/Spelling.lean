import DeviceLog.Json.Token
import DeviceLog.Json.Value
import DeviceLog.Proofs.Text.Utf8

/-! # Documents are split as they were written

A document that was rendered is split into the tokens of the value it was rendered from.

* `Token.Spelled tokens bytes`: the bytes are the tokens one after another, with blanks anywhere
  between them. `Token.ofBytes_of_spelled` says that splitting finds exactly these tokens.
* `Token.SpelledChars cs bytes`: the bytes are the characters in a text, each as it is or escaped in one of the
  ways there are. `Token.spelled_chars` says that between quotes they are one token, whose content is the
  text, and `Token.spelled_text` that a rendered text is.
* `Renders s tokens`: the text spells the tokens, whatever follows it. A number has no mark at its end, so
  it is `Renders.Apart` only: it spells its token where no number goes on after it.
* `renders_list` and `renders_object`: a rendered value spells the tokens of the value.
-/

namespace DeviceLog

namespace Json

namespace Token

/-! ## Splitting -/

/-- Bytes that are tokens one after another, perhaps with blanks between them. -/
inductive Spelled : List Token → Bytes → Prop
  | nil : Spelled [] []
  | blank {b : UInt8} {bytes : Bytes} {tokens : List Token} :
      isSpace b = true → Spelled tokens bytes → Spelled tokens (b :: bytes)
  | token {b : UInt8} {bytes rest : Bytes} {token : Token} {tokens : List Token} :
      isSpace b = false → next b bytes = some (token, rest) → rest.length ≤ bytes.length →
        Spelled tokens rest → Spelled (token :: tokens) (b :: bytes)

/-- Splitting finds the tokens, in as many turns as there are bytes or more. -/
theorem split_of_spelled {tokens : List Token} {bytes : Bytes} (h : Spelled tokens bytes) :
    ∀ (found : List Token) (turns : Nat), bytes.length ≤ turns →
      split found turns bytes = found.reverse ++ tokens := by
  -- A blank takes a turn and gives no token; a token takes one turn, however long it is.
  induction h with
  | nil => intro found turns _; cases turns <;> simp [split]
  | blank hb _ ih =>
    intro found turns hturns
    cases turns with
    | zero => simp at hturns
    | succ turns => rw [split, if_pos hb, ih found turns (by simpa using hturns)]
  | token hb hnext hle _ ih =>
    intro found turns hturns
    cases turns with
    | zero => simp at hturns
    | succ turns =>
      rw [List.length_cons] at hturns
      rw [split, if_neg (by simp [hb]), hnext]
      simp only
      rw [ih _ turns (by omega)]
      simp

theorem ofBytes_of_spelled {tokens : List Token} {bytes : Bytes} (h : Spelled tokens bytes) :
    ofBytes bytes = tokens := by
  simp only [ofBytes]
  rw [split_of_spelled h [] _ (Nat.le_refl _)]
  rfl

/-! ## Texts -/

theorem textParts_byte {b : UInt8} (hquote : b ≠ 0x22) (hslash : b ≠ 0x5C) (hcontrol : ¬ b < 0x20)
    (before : List Part) (rest : Bytes) :
    textParts before (b :: rest) = textParts (.byte b :: before) rest := by
  rw [textParts.eq_def]
  simp only [if_neg hquote, if_neg hslash, if_neg hcontrol]

/-- Bytes that stand in a text as they are. -/
theorem textParts_bytes {bytes : Bytes} (h : ∀ b ∈ bytes, b ≠ 0x22 ∧ b ≠ 0x5C ∧ ¬ b < 0x20)
    (rest : Bytes) : ∀ before : List Part,
    textParts before (bytes ++ rest) = textParts ((bytes.map Part.byte).reverse ++ before) rest := by
  induction bytes with
  | nil => intro before; rfl
  | cons b bytes ih =>
    intro before
    obtain ⟨h1, h2, h3⟩ := h b List.mem_cons_self
    rw [List.cons_append, textParts_byte h1 h2 h3, ih fun b hb => h b (List.mem_cons_of_mem _ hb)]
    simp

theorem partBytes_map_byte (bytes : Bytes) (rest : List Part) : ∀ before : Bytes,
    partBytes before (bytes.map Part.byte ++ rest) = partBytes (bytes.reverse ++ before) rest := by
  induction bytes with
  | nil => intro before; rfl
  | cons b bytes ih => intro before; simp [partBytes, ih]

/-- Bytes of which some parts of a text consist, and what the parts stand for. -/
structure Stands (bytes : Bytes) (parts : List Part) (content : Bytes) : Prop where
  split : ∀ before rest, textParts before (bytes ++ rest) = textParts (parts.reverse ++ before) rest
  gather : ∀ before rest, partBytes before (parts ++ rest) = partBytes (content.reverse ++ before) rest

theorem Stands.nil : Stands [] [] [] := ⟨fun _ _ => rfl, fun _ _ => rfl⟩

/-- Parts one after another stand for what they stand for one after another. -/
theorem Stands.append {bytes bytes' : Bytes} {parts parts' : List Part} {content content' : Bytes}
    (h : Stands bytes parts content) (h' : Stands bytes' parts' content') :
    Stands (bytes ++ bytes') (parts ++ parts') (content ++ content') where
  split before rest := by
    rw [List.append_assoc, h.split, h'.split]
    simp
  gather before rest := by
    rw [List.append_assoc, h.gather, h'.gather]
    simp

theorem Stands.plain {bytes : Bytes} (h : ∀ b ∈ bytes, b ≠ 0x22 ∧ b ≠ 0x5C ∧ ¬ b < 0x20) :
    Stands bytes (bytes.map Part.byte) bytes :=
  ⟨fun before rest => textParts_bytes h rest before,
    fun before rest => partBytes_map_byte bytes rest before⟩

/-- A backslash with a letter stands for one byte. -/
theorem Stands.letter {e b : UInt8} (hu : e ≠ 0x75) (h : escape e = some b) :
    Stands [0x5C, e] [.byte b] [b] where
  split before rest := by
    rw [List.cons_append, List.singleton_append, textParts.eq_def]
    simp only [if_neg (show (0x5C : UInt8) ≠ 0x22 by decide), if_true, if_neg hu, h]
    rfl
  gather before rest := by simp [partBytes]

/-- An escaped unit is one part. -/
theorem textParts_unit {h₁ h₂ h₃ h₄ : UInt8} {n : Nat} (h : hexUnit h₁ h₂ h₃ h₄ = some n) (before : List Part)
    (rest : Bytes) :
    textParts before ([0x5C, 0x75, h₁, h₂, h₃, h₄] ++ rest) = textParts (.unit n :: before) rest := by
  rw [textParts.eq_def]
  simp [h]

/-- An escaped unit that is no half of a pair stands for its character. -/
theorem Stands.unit {h₁ h₂ h₃ h₄ : UInt8} {n : Nat} (h : hexUnit h₁ h₂ h₃ h₄ = some n)
    (hhigh : isHigh n = false) (hlow : isLow n = false) :
    Stands [0x5C, 0x75, h₁, h₂, h₃, h₄] [.unit n] (Utf8.encodeChar (Char.ofNat n)) where
  split before rest := textParts_unit h before rest
  gather before rest := by
    rw [List.singleton_append, partBytes.eq_def]
    simp only [hhigh, hlow]
    rfl

/-- Two escaped halves of a pair stand for its character. -/
theorem Stands.pair {high low : Bytes} {n m : Nat} (hn : n < 0x400) (hm : m < 0x400)
    (hhigh : ∀ before rest, textParts before (high ++ rest) = textParts (.unit (0xD800 + n) :: before) rest)
    (hlow : ∀ before rest, textParts before (low ++ rest) = textParts (.unit (0xDC00 + m) :: before) rest) :
    Stands (high ++ low) [.unit (0xD800 + n), .unit (0xDC00 + m)]
      (Utf8.encodeChar (Char.ofNat (0x10000 + n * 0x400 + m))) where
  split before rest := by
    rw [List.append_assoc, hhigh, hlow]
    rfl
  gather before rest := by
    have hfirst : isHigh (0xD800 + n) = true := by simp [isHigh]; omega
    have hsecond : isLow (0xDC00 + m) = true := by simp [isLow]; omega
    simp only [List.cons_append, List.nil_append, partBytes, hfirst, hsecond, if_true, Nat.add_sub_cancel_left]

/-- A byte that is no quote, no backslash and no control character, by its number. -/
theorem plain_ofNat {n : Nat} (h : n < 256) (hquote : n ≠ 0x22) (hslash : n ≠ 0x5C)
    (hcontrol : 0x20 ≤ n) : UInt8.ofNat n ≠ 0x22 ∧ UInt8.ofNat n ≠ 0x5C ∧ ¬ UInt8.ofNat n < 0x20 := by
  have hn := Utf8.toNat_ofNat_of_lt h
  refine ⟨fun he => hquote ?_, fun he => hslash ?_, ?_⟩
  · rw [← hn, he]; rfl
  · rw [← hn, he]; rfl
  · rw [UInt8.lt_iff_toNat_lt, hn]
    exact Nat.not_lt.2 hcontrol

theorem plain_encodeChar {c : Char} (hquote : c ≠ '"') (hslash : c ≠ '\\') (hcontrol : ¬ c.toNat < 0x20) :
    ∀ b ∈ Utf8.encodeChar c, b ≠ 0x22 ∧ b ≠ 0x5C ∧ ¬ b < 0x20 := by
  have hv := Utf8.toNat_valid c
  have hq : c.toNat ≠ 0x22 := fun h => hquote (by rw [← Char.ofNat_toNat c, h])
  have hs : c.toNat ≠ 0x5C := fun h => hslash (by rw [← Char.ofNat_toNat c, h])
  intro b hb
  -- The cases are the lengths of characters: beyond the first all bytes are 0x80 or more.
  unfold Utf8.encodeChar at hb
  simp only at hb
  split at hb
  · rw [List.mem_singleton] at hb
    subst hb
    exact plain_ofNat (by omega) hq hs (by omega)
  split at hb
  · simp only [List.mem_cons, List.not_mem_nil, or_false] at hb
    rcases hb with rfl | rfl <;> exact plain_ofNat (by omega) (by omega) (by omega) (by omega)
  split at hb
  · simp only [List.mem_cons, List.not_mem_nil, or_false] at hb
    rcases hb with rfl | rfl | rfl <;> exact plain_ofNat (by omega) (by omega) (by omega) (by omega)
  · simp only [List.mem_cons, List.not_mem_nil, or_false] at hb
    rcases hb with rfl | rfl | rfl | rfl <;>
      exact plain_ofNat (by omega) (by omega) (by omega) (by omega)

/-! ### The ways to spell a text -/

/-- A digit of a number in base 16, whose letters may be capital or small. -/
def HexDigit (d : Nat) (b : UInt8) : Prop :=
  (d < 10 ∧ b.toNat = 0x30 + d) ∨ (10 ≤ d ∧ d < 16 ∧ (b.toNat = 0x37 + d ∨ b.toNat = 0x57 + d))

instance (d : Nat) (b : UInt8) : Decidable (HexDigit d b) := inferInstanceAs (Decidable (_ ∨ _))

/-- A unit of 16 bits is spelled with four digits. -/
inductive SpelledUnit (n : Nat) : Bytes → Prop
  | digits {h₁ h₂ h₃ h₄ : UInt8} : HexDigit (n / 0x1000) h₁ → HexDigit (n / 0x100 % 0x10) h₂ →
      HexDigit (n / 0x10 % 0x10) h₃ → HexDigit (n % 0x10) h₄ → SpelledUnit n [0x5C, 0x75, h₁, h₂, h₃, h₄]

/-- The characters that a letter after a backslash stands for. -/
def letters : List (UInt8 × Char) :=
  [(0x22, '"'), (0x5C, '\\'), (0x2F, '/'), (0x62, Char.ofNat 0x08), (0x66, Char.ofNat 0x0C), (0x6E, '\n'),
    (0x72, '\r'), (0x74, '\t')]

/-- The ways to spell a character: as it is, unless it is a quote, a backslash or a control character; with a
letter, if it has one; or with one unit or two, as in UTF-16. -/
inductive SpelledChar (c : Char) : Bytes → Prop
  | plain : c ≠ '"' → c ≠ '\\' → ¬c.toNat < 0x20 → SpelledChar c (Utf8.encodeChar c)
  | letter {e : UInt8} : (e, c) ∈ letters → SpelledChar c [0x5C, e]
  | unit {bytes : Bytes} : SpelledUnit c.toNat bytes → SpelledChar c bytes
  | pair {n m : Nat} {high low : Bytes} : n < 0x400 → m < 0x400 → c.toNat = 0x10000 + n * 0x400 + m →
      SpelledUnit (0xD800 + n) high → SpelledUnit (0xDC00 + m) low → SpelledChar c (high ++ low)

/-- A text is spelled character by character. -/
inductive SpelledChars : List Char → Bytes → Prop
  | nil : SpelledChars [] []
  | cons {c : Char} {cs : List Char} {own rest : Bytes} :
      SpelledChar c own → SpelledChars cs rest → SpelledChars (c :: cs) (own ++ rest)

theorem HexDigit.hexDigit {d : Nat} {b : UInt8} (h : HexDigit d b) : hexDigit b = some d := by
  simp only [Token.hexDigit]
  rcases h with ⟨hd, hb⟩ | ⟨hle, hlt, hb | hb⟩ <;> rw [hb]
  · rw [if_pos (by omega)]
    simp
  · rw [if_neg (by omega), if_pos (by omega)]
    simp
  · rw [if_neg (by omega), if_neg (by omega), if_pos (by omega)]
    simp

theorem SpelledUnit.exists_hexUnit {n : Nat} {bytes : Bytes} (h : SpelledUnit n bytes) :
    ∃ h₁ h₂ h₃ h₄, bytes = [0x5C, 0x75, h₁, h₂, h₃, h₄] ∧ hexUnit h₁ h₂ h₃ h₄ = some n := by
  obtain ⟨ha, hb, hc, hd⟩ := h
  refine ⟨_, _, _, _, rfl, ?_⟩
  have hn : ((n / 0x1000 * 16 + n / 0x100 % 0x10) * 16 + n / 0x10 % 0x10) * 16 + n % 0x10 = n := by omega
  simp only [hexUnit, ha.hexDigit, hb.hexDigit, hc.hexDigit, hd.hexDigit, Option.bind_eq_bind, Option.bind_some,
    Option.pure_def, hn]

theorem SpelledUnit.textParts {n : Nat} {bytes : Bytes} (h : SpelledUnit n bytes) (before : List Part)
    (rest : Bytes) : textParts before (bytes ++ rest) = Token.textParts (.unit n :: before) rest := by
  obtain ⟨h₁, h₂, h₃, h₄, rfl, hunit⟩ := h.exists_hexUnit
  exact textParts_unit hunit before rest

/-- However a character is spelled, it is what the spelling stands for. -/
theorem SpelledChar.stands {c : Char} {bytes : Bytes} (h : SpelledChar c bytes) :
    ∃ parts, Stands bytes parts (Utf8.encodeChar c) := by
  cases h with
  | plain hquote hslash hcontrol => exact ⟨_, .plain (plain_encodeChar hquote hslash hcontrol)⟩
  | @letter e h =>
    have hall : ∀ l ∈ letters, l.1 ≠ 0x75 ∧ ∃ b, escape l.1 = some b ∧ Utf8.encodeChar l.2 = [b] := by
      simp only [letters, List.forall_mem_cons]
      refine ⟨⟨?_, _, rfl, rfl⟩, ⟨?_, _, rfl, rfl⟩, ⟨?_, _, rfl, rfl⟩, ⟨?_, _, rfl, rfl⟩, ⟨?_, _, rfl, rfl⟩,
        ⟨?_, _, rfl, rfl⟩, ⟨?_, _, rfl, rfl⟩, ⟨?_, _, rfl, rfl⟩, nofun⟩ <;> decide
    obtain ⟨hu, b, hescape, hencode⟩ := hall _ h
    rw [hencode]
    exact ⟨_, .letter hu hescape⟩
  | unit h =>
    obtain ⟨h₁, h₂, h₃, h₄, rfl, hunit⟩ := h.exists_hexUnit
    have hvalid := Utf8.toNat_valid c
    have hhigh : isHigh c.toNat = false := by simp [isHigh]; omega
    have hlow : isLow c.toNat = false := by simp [isLow]; omega
    have hstands := Stands.unit hunit hhigh hlow
    rw [Char.ofNat_toNat] at hstands
    exact ⟨_, hstands⟩
  | pair hn hm hc hhigh hlow =>
    have hstands := Stands.pair hn hm hhigh.textParts hlow.textParts
    rw [← hc, Char.ofNat_toNat] at hstands
    exact ⟨_, hstands⟩

theorem SpelledChars.stands {cs : List Char} {bytes : Bytes} (h : SpelledChars cs bytes) :
    ∃ parts, Stands bytes parts (cs.flatMap Utf8.encodeChar) := by
  induction h with
  | nil => exact ⟨[], .nil⟩
  | cons hc _ ih =>
    obtain ⟨parts, hparts⟩ := hc.stands
    obtain ⟨parts', hparts'⟩ := ih
    exact ⟨_, hparts.append hparts'⟩

/-- A text between quotes is one token, and its content is the text. -/
theorem spelled_chars {s : String} {own : Bytes} (hs : SpelledChars s.toList own) {tokens : List Token}
    {rest : Bytes} (h : Spelled tokens rest) :
    Spelled (text (some s) :: tokens) (0x22 :: (own ++ 0x22 :: rest)) := by
  obtain ⟨parts, hparts⟩ := hs.stands
  -- The quote at the end stops the parts, which have none of their own.
  have hsplit : textParts [] (own ++ 0x22 :: rest) = some (parts, rest) := by
    rw [hparts.split, textParts.eq_def]
    simp
  have hcontent : content parts = some s := by
    have hgather := hparts.gather [] []
    simp only [List.append_nil] at hgather
    simp only [content]
    rw [hgather]
    simp only [partBytes, List.reverse_reverse, Option.bind_some]
    exact Utf8.decode?_encode s
  refine .token (by decide) ?_ (by simp; omega) h
  simp only [next]
  simp [hsplit, hcontent]

/-! ### The way that is written -/

theorem spelledUnit_control {n : Nat} (h : n < 0x20) :
    SpelledUnit n (Utf8.encode ("\\u00" ++ Text.hexByte (UInt8.ofNat n))) := by
  have hdigits : ∀ m < 0x20, Utf8.encode (Text.hexByte (UInt8.ofNat m))
        = [if m < 16 then 0x30 else 0x31, UInt8.ofNat (Nat.digitChar (m % 16)).toNat]
      ∧ HexDigit (m / 0x1000) 0x30 ∧ HexDigit (m / 0x100 % 0x10) 0x30
      ∧ HexDigit (m / 0x10 % 0x10) (if m < 16 then 0x30 else 0x31)
      ∧ HexDigit (m % 0x10) (UInt8.ofNat (Nat.digitChar (m % 16)).toNat) := by decide
  obtain ⟨hbytes, h₁, h₂, h₃, h₄⟩ := hdigits n h
  rw [Utf8.encode_append, hbytes]
  exact .digits h₁ h₂ h₃ h₄

theorem spelledChar_escaped (c : Char) : SpelledChar c (Utf8.encode (escaped c)) := by
  -- Seven characters have letters, the other controls have a unit, and the rest need none.
  have hletter : ∀ {e : UInt8} {b : Char} {s : String}, (e, b) ∈ letters → Utf8.encode s = [0x5C, e] → c = b →
      SpelledChar c (Utf8.encode s) := by
    intro e b s hmem hs hc
    rw [hs]
    exact .letter (hc ▸ hmem)
  have hcode : ∀ {n : Nat}, c.toNat = n → c = Char.ofNat n := fun h => by rw [← h, Char.ofNat_toNat]
  simp only [escaped]
  split
  · rename_i h
    exact hletter (e := 0x22) (by decide) rfl h
  split
  · rename_i h
    exact hletter (e := 0x5C) (by decide) rfl h
  split
  · rename_i h
    exact hletter (e := 0x6E) (by decide) rfl h
  split
  · rename_i h
    exact hletter (e := 0x72) (by decide) rfl h
  split
  · rename_i h
    exact hletter (e := 0x74) (by decide) rfl h
  split
  · rename_i h
    exact hletter (e := 0x62) (by decide) rfl (hcode h)
  split
  · rename_i h
    exact hletter (e := 0x66) (by decide) rfl (hcode h)
  split
  · rename_i h
    exact .unit (spelledUnit_control h)
  · rename_i hquote hslash _ _ _ _ _ hcontrol
    rw [Utf8.encode_singleton]
    exact .plain hquote hslash hcontrol

theorem spelledChars_escaped : ∀ cs : List Char, SpelledChars cs (cs.flatMap fun c => Utf8.encode (escaped c))
  | [] => .nil
  | c :: cs => .cons (spelledChar_escaped c) (spelledChars_escaped cs)

theorem encode_renderText (s : String) :
    Utf8.encode (renderText s) = 0x22 :: ((s.toList.flatMap fun c => Utf8.encode (escaped c)) ++ [0x22]) := by
  have hquote : Utf8.encode "\"" = [0x22] := rfl
  simp [renderText, Utf8.encode_join, List.flatMap_map, hquote]

/-- A rendered text is one token, and its content is the text. -/
theorem spelled_text (s : String) {tokens : List Token} {rest : Bytes} (h : Spelled tokens rest) :
    Spelled (text (some s) :: tokens) (Utf8.encode (renderText s) ++ rest) := by
  rw [encode_renderText, List.cons_append, List.append_assoc]
  exact spelled_chars (spelledChars_escaped s.toList) h

/-- Whether bytes cannot go on with a number before them. -/
def EndNumber (rest : Bytes) : Prop :=
  ∀ b ∈ rest.head?, isDigit b = false ∧ b ≠ 0x2E ∧ b ≠ 0x65 ∧ b ≠ 0x45

end Token

/-! ## Values -/

/-- Text that spells tokens, whatever tokens follow. -/
structure Renders (s : String) (tokens : List Token) : Prop where
  spelled : ∀ {more : List Token} {rest : Bytes}, Token.Spelled more rest →
    Token.Spelled (tokens ++ more) (Utf8.encode s ++ rest)

theorem Renders.ofBytes {s : String} {tokens : List Token} (h : Renders s tokens) :
    Token.ofBytes (Utf8.encode s) = tokens := by
  simpa using Token.ofBytes_of_spelled (h.spelled .nil)

/-- One text after another spells the tokens of both. -/
theorem Renders.append {s t : String} {tokens tokens' : List Token} (h : Renders s tokens)
    (h' : Renders t tokens') : Renders (s ++ t) (tokens ++ tokens') where
  spelled hmore := by
    rw [Utf8.encode_append, List.append_assoc, List.append_assoc]
    exact h.spelled (h'.spelled hmore)

/-- Text that spells tokens where no number goes on after it. -/
structure Renders.Apart (s : String) (tokens : List Token) : Prop where
  spelled : ∀ {more : List Token} {rest : Bytes}, Token.EndNumber rest → Token.Spelled more rest →
    Token.Spelled (tokens ++ more) (Utf8.encode s ++ rest)

theorem Renders.apart {s : String} {tokens : List Token} (h : Renders s tokens) : Renders.Apart s tokens :=
  ⟨fun _ hmore => h.spelled hmore⟩

theorem Renders.append_apart {s t : String} {tokens tokens' : List Token} (h : Renders s tokens)
    (h' : Renders.Apart t tokens') : Renders.Apart (s ++ t) (tokens ++ tokens') where
  spelled hrest hmore := by
    rw [Utf8.encode_append, List.append_assoc, List.append_assoc]
    exact h.spelled (h'.spelled hrest hmore)

/-- A mark that no number goes on with keeps what is before it apart. -/
theorem Renders.Apart.append {s t : String} {b : UInt8} {tokens tokens' : List Token}
    (h : Renders.Apart s tokens) (h' : Renders t tokens') (ht : Utf8.encode t = [b])
    (hb : Token.isDigit b = false ∧ b ≠ 0x2E ∧ b ≠ 0x65 ∧ b ≠ 0x45) : Renders (s ++ t) (tokens ++ tokens') where
  spelled hmore := by
    rw [Utf8.encode_append, List.append_assoc, List.append_assoc]
    refine h.spelled ?_ (h'.spelled hmore)
    rw [ht]
    rintro _ ⟨⟩
    exact hb

theorem renders_mark {s : String} {b : UInt8} {token : Token} (hs : Utf8.encode s = [b])
    (hb : Token.isSpace b = false) (h : ∀ rest, Token.next b rest = some (token, rest)) :
    Renders s [token] where
  spelled hmore := by
    rw [hs]
    exact .token hb (h _) (Nat.le_refl _) hmore

theorem renders_text (s : String) : Renders (renderText s) [.text (some s)] :=
  ⟨fun h => Token.spelled_text s h⟩

theorem renders_comma : Renders "," [.comma] := renders_mark rfl rfl fun _ => rfl

theorem renders_colon : Renders ":" [.colon] := renders_mark rfl rfl fun _ => rfl

theorem renders_openList : Renders "[" [.openList] := renders_mark rfl rfl fun _ => rfl

theorem renders_closeList : Renders "]" [.closeList] := renders_mark rfl rfl fun _ => rfl

theorem renders_openObject : Renders "\x7b" [.openObject] := renders_mark rfl rfl fun _ => rfl

theorem renders_closeObject : Renders "\x7d" [.closeObject] := renders_mark rfl rfl fun _ => rfl

/-- The tokens of several things with commas between them. -/
def separated : List (List Token) → List Token
  | [] => []
  | first :: others => first ++ others.flatMap fun tokens => .comma :: tokens

/-- Things with commas between them spell their tokens with commas between them. -/
theorem apart_intercalate : ∀ {parts : List (String × List Token)},
    (∀ p ∈ parts, Renders.Apart p.1 p.2) →
      Renders.Apart (String.intercalate "," (parts.map Prod.fst)) (separated (parts.map Prod.snd))
  | [], _ => ⟨fun _ h => h⟩
  | p :: [], h => by
    simpa [separated] using h p List.mem_cons_self
  | p :: q :: parts, h => by
    have hp := h p List.mem_cons_self
    have hrest := apart_intercalate fun r hr => h r (List.mem_cons_of_mem p hr)
    have hall := (hp.append renders_comma rfl (by decide)).append_apart hrest
    simpa [separated, String.append_assoc] using hall

theorem renderItems_eq_map (items : List Value) : Value.renderItems items = items.map Value.render := by
  induction items with
  | nil => rfl
  | cons v items ih => rw [Value.renderItems, ih, List.map_cons]

theorem renderMembers_eq_map (members : List (String × Value)) :
    Value.renderMembers members
      = members.map fun m => renderText m.1 ++ ":" ++ m.2.render := by
  induction members with
  | nil => rfl
  | cons m members ih => rw [Value.renderMembers, ih, List.map_cons]

def listTokens (items : List (List Token)) : List Token :=
  .openList :: separated items ++ [.closeList]

def objectTokens (members : List (String × List Token)) : List Token :=
  .openObject :: separated (members.map fun m => .text (some m.1) :: .colon :: m.2) ++ [.closeObject]

/-- A rendered list spells the tokens of its items between brackets. -/
theorem renders_list {items : List (Value × List Token)} (h : ∀ p ∈ items, Renders.Apart p.1.render p.2) :
    Renders (Value.list (items.map Prod.fst)).render (listTokens (items.map Prod.snd)) := by
  have hparts : ∀ q ∈ items.map fun p => (p.1.render, p.2), Renders.Apart q.1 q.2 :=
    List.forall_mem_map.2 h
  have hall := (renders_openList.append_apart (apart_intercalate hparts)).append renders_closeList rfl (by decide)
  simpa [Value.render, renderItems_eq_map, listTokens, Function.comp_def] using hall

theorem apart_member (name : String) {v : Value} {tokens : List Token} (h : Renders.Apart v.render tokens) :
    Renders.Apart (renderText name ++ ":" ++ v.render) (.text (some name) :: .colon :: tokens) :=
  ((renders_text name).append renders_colon).append_apart h

theorem render_object (members : List (String × Value)) :
    (Value.object members).render
      = "\x7b" ++ String.intercalate "," (Value.renderMembers members) ++ "\x7d" := by
  rw [Value.render]

/-- A rendered object spells the tokens of its members between braces. -/
theorem renders_object (members : List (String × Value × List Token))
    (h : ∀ p ∈ members, Renders.Apart p.2.1.render p.2.2) :
    Renders (Value.object (members.map fun p => (p.1, p.2.1))).render
      (objectTokens (members.map fun p => (p.1, p.2.2))) := by
  let parts : List (String × List Token) := members.map fun p =>
    (renderText p.1 ++ ":" ++ p.2.1.render, .text (some p.1) :: .colon :: p.2.2)
  have hparts : ∀ q ∈ parts, Renders.Apart q.1 q.2 := by
    intro q hq
    obtain ⟨p, hp, rfl⟩ := List.mem_map.1 hq
    exact apart_member p.1 (h p hp)
  have hall := (renders_openObject.append_apart (apart_intercalate hparts)).append renders_closeObject rfl
    (by decide)
  have hmembers : Value.renderMembers (members.map fun p => (p.1, p.2.1)) = parts.map Prod.fst := by
    rw [renderMembers_eq_map, List.map_map, List.map_map]
    rfl
  have htokens : (members.map fun p => (p.1, p.2.2)).map (fun m => Token.text (some m.1) :: .colon :: m.2)
      = parts.map Prod.snd := by
    rw [List.map_map, List.map_map]
    rfl
  rw [render_object, hmembers, objectTokens, htokens]
  exact hall

end Json

end DeviceLog
