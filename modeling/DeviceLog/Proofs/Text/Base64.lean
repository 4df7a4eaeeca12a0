import DeviceLog.Proofs.Text.Utf8
import DeviceLog.Text.Base64

/-! # Base64 is read as it was written

* `decode_encode`: the symbols of any bytes stand for these bytes.
* `encode_decodeLossy`: all symbols are ASCII, so that they are the bytes of a text.
* `length_decode_le`: bytes that symbols stand for are hardly more than the symbols.
-/

namespace DeviceLog.Base64

/-! ## Symbols -/

theorem valueOf_symbolOf {n : Nat} (h : n < 64) : valueOf (symbolOf n) = some n := by
  revert n
  decide

theorem symbolOf_ne_pad {n : Nat} (h : n < 64) : symbolOf n ≠ pad := by
  revert n
  decide

theorem symbolOf_lt {n : Nat} (h : n < 64) : symbolOf n < 0x80 := by
  revert n
  decide

theorem valueAt_symbolOf (offset : Nat) {n : Nat} (h : n < 64) : valueAt offset (symbolOf n) = .ok n := by
  simp only [valueAt, valueOf_symbolOf h]

/-- The four values that three bytes are split into. -/
theorem values_lt (a b c : UInt8) : a.toNat / 4 < 64 ∧ a.toNat % 4 * 16 + b.toNat / 16 < 64
    ∧ b.toNat % 16 * 4 + c.toNat / 64 < 64 ∧ c.toNat % 64 < 64 := by
  have ha := a.toNat_lt
  have hb := b.toNat_lt
  have hc := c.toNat_lt
  omega

theorem ofNat_eq_of_toNat {n : Nat} {b : UInt8} (h : n = b.toNat) : UInt8.ofNat n = b := by
  rw [h, UInt8.ofNat_toNat]

/-- The three bytes that were split give the bytes again. -/
theorem threeBytes_values (a b c : UInt8) :
    threeBytes (a.toNat / 4) (a.toNat % 4 * 16 + b.toNat / 16) (b.toNat % 16 * 4 + c.toNat / 64)
      (c.toNat % 64) = [a, b, c] := by
  have hb := b.toNat_lt
  have hc := c.toNat_lt
  rw [threeBytes, ofNat_eq_of_toNat (b := a) (by omega), ofNat_eq_of_toNat (b := b) (by omega),
    ofNat_eq_of_toNat (b := c) (by omega)]

/-! ## The last group -/

theorem lastValues_symbol {n : Nat} (h : n < 64) (start offset : Nat) (values : List Nat) (rest : Bytes) :
    lastValues start offset values (symbolOf n :: rest) = lastValues start (offset + 1) (n :: values) rest := by
  simp only [lastValues, if_neg (symbolOf_ne_pad h), valueAt_symbolOf _ h]

theorem lastGroup_three (offset : Nat) (a b c : UInt8) :
    lastGroup offset (encode [a, b, c]) = .ok [a, b, c] := by
  obtain ⟨h₁, h₂, h₃, h₄⟩ := values_lt a b c
  have hvalues : lastValues offset offset [] (encode [a, b, c]) = .ok ([c.toNat % 64,
      b.toNat % 16 * 4 + c.toNat / 64, a.toNat % 4 * 16 + b.toNat / 16, a.toNat / 4], 0) := by
    rw [encode, lastValues_symbol h₁, lastValues_symbol h₂, lastValues_symbol h₃, lastValues_symbol h₄]
    rfl
  have hbytes := threeBytes_values a b c
  simp only [lastGroup, hvalues, hbytes]
  rfl

theorem lastGroup_two (offset : Nat) (a b : UInt8) : lastGroup offset (encode [a, b]) = .ok [a, b] := by
  obtain ⟨h₁, h₂, -⟩ := values_lt a b 0
  have h₃ : b.toNat % 16 * 4 < 64 := by omega
  have hbytes := threeBytes_values a b 0
  have hvalues : lastValues offset offset [] (encode [a, b]) = .ok ([b.toNat % 16 * 4,
      a.toNat % 4 * 16 + b.toNat / 16, a.toNat / 4], 1) := by
    rw [encode, lastValues_symbol h₁, lastValues_symbol h₂, lastValues_symbol h₃]
    rfl
  -- The third symbol has two bits that belong to no byte, and they are zero.
  have hbits : b.toNat % 16 * 4 % 4 = 0 := Nat.mul_mod_left _ _
  simp only [lastGroup, hvalues, hbits]
  exact congrArg (fun bytes : Bytes => (.ok (bytes.take 2) : Except Error Bytes)) hbytes

theorem lastGroup_one (offset : Nat) (a : UInt8) : lastGroup offset (encode [a]) = .ok [a] := by
  have h₁ := (values_lt a 0 0).1
  have h₂ : a.toNat % 4 * 16 < 64 := by omega
  have hbytes := threeBytes_values a 0 0
  have hvalues : lastValues offset offset [] (encode [a]) = .ok ([a.toNat % 4 * 16, a.toNat / 4], 2) := by
    rw [encode, lastValues_symbol h₁, lastValues_symbol h₂]
    rfl
  have hbits : a.toNat % 4 * 16 % 16 = 0 := Nat.mul_mod_left _ _
  simp only [lastGroup, hvalues, hbits]
  exact congrArg (fun bytes : Bytes => (.ok (bytes.take 1) : Except Error Bytes)) hbytes

/-! ## All groups -/

theorem encode_ne_nil : ∀ {bytes : Bytes}, bytes ≠ [] → encode bytes ≠ []
  | [], h => absurd rfl h
  | [_], _ | [_, _], _ | _ :: _ :: _ :: _, _ => by simp [encode]

theorem groups_encode : ∀ {bytes : Bytes} (offset : Nat), bytes ≠ [] → groups offset (encode bytes) = .ok bytes
  | [], _, h => absurd rfl h
  | [a], offset, _ => lastGroup_one offset a
  | [a, b], offset, _ => lastGroup_two offset a b
  | [a, b, c], offset, _ => lastGroup_three offset a b c
  | a :: b :: c :: d :: rest, offset, _ => by
    obtain ⟨h₁, h₂, h₃, h₄⟩ := values_lt a b c
    have ih : groups (offset + 4) (encode (d :: rest)) = .ok (d :: rest) :=
      groups_encode (offset + 4) (List.cons_ne_nil _ _)
    obtain ⟨next, more, hnext⟩ := List.exists_cons_of_ne_nil (encode_ne_nil (List.cons_ne_nil d rest))
    rw [hnext] at ih
    rw [encode, hnext, groups, valueAt_symbolOf _ h₁, valueAt_symbolOf _ h₂, valueAt_symbolOf _ h₃,
      valueAt_symbolOf _ h₄, ih]
    show Except.ok (threeBytes _ _ _ _ ++ d :: rest) = _
    rw [threeBytes_values]
    rfl

theorem length_encode_mod : ∀ bytes : Bytes, (encode bytes).length % 4 = 0
  | [] | [_] | [_, _] => by simp [encode]
  | _ :: _ :: _ :: rest => by
    have ih := length_encode_mod rest
    simp only [encode, List.length_cons]
    omega

/-- The symbols of any bytes stand for these bytes. -/
theorem decode_encode (bytes : Bytes) : decode (encode bytes) = .ok bytes := by
  by_cases h : bytes = []
  · subst h
    rfl
  obtain ⟨last, hlast⟩ := Option.ne_none_iff_exists'.1 (mt List.getLast?_eq_none_iff.1 (encode_ne_nil h))
  simp only [decode, hlast]
  rw [if_neg (by simp [length_encode_mod]), groups_encode 0 h]

theorem ascii_encode : ∀ bytes : Bytes, ∀ symbol ∈ encode bytes, symbol < 0x80
  | [] => nofun
  | [a] => by
    obtain ⟨h₁, h₂, -, -⟩ := values_lt a 0 0
    have hzero : (0 : UInt8).toNat = 0 := rfl
    simp only [hzero, Nat.zero_div, Nat.add_zero] at h₂
    simp [encode, symbolOf_lt h₁, symbolOf_lt h₂, pad]
  | [a, b] => by
    obtain ⟨h₁, h₂, h₃, -⟩ := values_lt a b 0
    have hzero : (0 : UInt8).toNat = 0 := rfl
    simp only [hzero, Nat.zero_div, Nat.add_zero] at h₃
    simp [encode, symbolOf_lt h₁, symbolOf_lt h₂, symbolOf_lt h₃, pad]
  | a :: b :: c :: rest => by
    obtain ⟨h₁, h₂, h₃, h₄⟩ := values_lt a b c
    have ih := ascii_encode rest
    simpa [encode, symbolOf_lt h₁, symbolOf_lt h₂, symbolOf_lt h₃, symbolOf_lt h₄] using ih

theorem encodeChar_ofNat {n : Nat} (h : n < 128) : Utf8.encodeChar (Char.ofNat n) = [UInt8.ofNat n] := by
  revert n
  decide

/-- ASCII bytes are those of a text. -/
theorem exists_encode_of_ascii : ∀ {bytes : Bytes}, (∀ b ∈ bytes, b < 0x80) →
    ∃ text : String, Utf8.encode text = bytes
  | [], _ => ⟨"", rfl⟩
  | b :: bytes, h => by
    obtain ⟨hb, hbytes⟩ := List.forall_mem_cons.1 h
    obtain ⟨text, htext⟩ := exists_encode_of_ascii hbytes
    refine ⟨String.singleton (Char.ofNat b.toNat) ++ text, ?_⟩
    rw [Utf8.encode_append, Utf8.encode_singleton, encodeChar_ofNat (UInt8.lt_iff_toNat_lt.1 hb),
      UInt8.ofNat_toNat, htext]
    rfl

/-- Symbols are the bytes of their text. -/
theorem encode_decodeLossy (bytes : Bytes) : Utf8.encode (Utf8.decodeLossy (encode bytes)) = encode bytes := by
  obtain ⟨text, htext⟩ := exists_encode_of_ascii (ascii_encode bytes)
  rw [← htext, Utf8.decodeLossy_encode]

/-! ## Sizes -/

theorem length_threeBytes (v w x y : Nat) : (threeBytes v w x y).length = 3 := rfl

theorem length_lastGroup_le {offset : Nat} {group bytes : Bytes} (h : lastGroup offset group = .ok bytes) :
    bytes.length ≤ 3 := by
  simp only [lastGroup] at h
  split at h
  · cases h
  · split at h
    · cases h
    split at h
    · cases h
    split at h
    · split at h <;> cases h
      simp [threeBytes]
    · split at h <;> cases h
      simp [threeBytes]
    · cases h
      simp [threeBytes]
    · cases h

theorem exists_of_bind {ε α β : Type} {x : Except ε α} {next : α → Except ε β} {b : β}
    (h : x >>= next = .ok b) : ∃ a, x = .ok a ∧ next a = .ok b := by
  cases x with
  | error e => cases h
  | ok a => exact ⟨a, rfl, h⟩

/-- A group gives three bytes for its four symbols, and the last one at most three. -/
theorem length_groups_le {offset : Nat} {symbols : Bytes} : ∀ {bytes : Bytes},
    groups offset symbols = .ok bytes → bytes.length ≤ symbols.length + 3 := by
  induction offset, symbols using groups.induct with
  | case1 offset s t u v next rest ih =>
    intro bytes h
    rw [groups] at h
    obtain ⟨a, -, h⟩ := exists_of_bind h
    obtain ⟨b, -, h⟩ := exists_of_bind h
    obtain ⟨c, -, h⟩ := exists_of_bind h
    obtain ⟨d, -, h⟩ := exists_of_bind h
    obtain ⟨more, hmore, h⟩ := exists_of_bind h
    cases h
    have hle := ih hmore
    simp only [List.length_append, length_threeBytes, List.length_cons] at hle ⊢
    omega
  | case2 offset group hshort =>
    intro bytes h
    rw [groups.eq_2 offset group hshort] at h
    exact Nat.le_trans (length_lastGroup_le h) (Nat.le_add_left _ _)

/-- Bytes that symbols stand for are hardly more than the symbols. -/
theorem length_decode_le {symbols bytes : Bytes} (h : decode symbols = .ok bytes) :
    bytes.length ≤ symbols.length + 3 := by
  simp only [decode] at h
  split at h
  · split at h
    · cases h
    · exact length_groups_le h
  · cases h
    exact Nat.zero_le _

end DeviceLog.Base64
