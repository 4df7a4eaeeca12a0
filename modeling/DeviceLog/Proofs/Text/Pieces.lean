import DeviceLog.Proofs.Text.Utf8
import Mathlib.Data.List.Forall2

/-! # What bytes are split into is made of these bytes

* `Piece.Covers piece bytes`: the bytes of a character, or as many bytes as a piece that is none says.
* `Begun.Awaits owed p bytes`: with as many bytes more as are owed, each in its range, the bytes are those
  of a character.
* `pieces_cover`: the bytes of the pieces of a byte string are the byte string.
* `encode_of_decode`: bytes that can be decoded are those of the text that they are decoded to.
-/

namespace DeviceLog.Utf8

inductive Piece.Covers : Piece → Bytes → Prop
  | char (c : Char) : Covers (.char c) (encodeChar c)
  | bad (bytes : Bytes) : Covers (.bad bytes.length) bytes
  | cut (bytes : Bytes) : Covers (.cut bytes.length) bytes

/-! ## One character -/

/-- What a character that has begun becomes with one byte more, but for the last. -/
def Begun.next (p : Begun) (b : UInt8) : Begun :=
  { value := p.value * 64 + (b.toNat - 0x80), owed := p.owed - 1, seen := p.seen + 1 }

theorem Begun.value_next (p : Begun) (b : UInt8) : (p.next b).value = p.value * 64 + (b.toNat - 0x80) := rfl

def Begun.Takes (p : Begun) (b : UInt8) : Prop := p.low ≤ b.toNat ∧ b.toNat ≤ p.high

def Begun.Awaits : Nat → Begun → Bytes → Prop
  | 0, _, _ => False
  | 1, p, bytes => ∀ b, p.Takes b → encodeChar (Char.ofNat (p.next b).value) = bytes ++ [b]
  | owed + 2, p, bytes => ∀ b, p.Takes b → Awaits (owed + 1) (p.next b) (bytes ++ [b])

/-- Lead bytes by the bytes that they owe. -/
theorem lead_cases {b : UInt8} {p : Begun} (h : lead b = .inr p) : p.seen = 1 ∧
    ((p.owed = 1 ∧ p.value + 0xC0 = b.toNat ∧ 2 ≤ p.value ∧ p.value < 32 ∧ p.low = 0x80 ∧ p.high = 0xBF)
    ∨ (p.owed = 2 ∧ p.value + 0xE0 = b.toNat ∧ p.value < 16 ∧ p.low = (if p.value = 0 then 0xA0 else 0x80)
      ∧ p.high = (if p.value = 13 then 0x9F else 0xBF))
    ∨ (p.owed = 3 ∧ p.value + 0xF0 = b.toNat ∧ p.value < 5 ∧ p.low = (if p.value = 0 then 0x90 else 0x80)
      ∧ p.high = (if p.value = 4 then 0x8F else 0xBF))) := by
  unfold lead at h
  simp only at h
  split at h
  · cases h
  split at h
  · cases h
  split at h
  · obtain rfl := Sum.inr.inj h
    refine ⟨rfl, .inl ⟨rfl, ?_, ?_, ?_, rfl, rfl⟩⟩ <;> simp only <;> omega
  split at h
  · rename_i hn
    cases h
    exact ⟨rfl, .inr (.inl ⟨rfl, hn.symm, by decide, rfl, rfl⟩)⟩
  split at h
  · rename_i hn
    cases h
    exact ⟨rfl, .inr (.inl ⟨rfl, hn.symm, by decide, rfl, rfl⟩)⟩
  split at h
  · obtain rfl := Sum.inr.inj h
    refine ⟨rfl, .inr (.inl ⟨rfl, ?_, ?_, ?_, ?_⟩)⟩ <;> simp only
    · omega
    · omega
    · rw [if_neg (by omega)]
    · rw [if_neg (by omega)]
  split at h
  · rename_i hn
    cases h
    exact ⟨rfl, .inr (.inr ⟨rfl, hn.symm, by decide, rfl, rfl⟩)⟩
  split at h
  · obtain rfl := Sum.inr.inj h
    refine ⟨rfl, .inr (.inr ⟨rfl, ?_, ?_, ?_, ?_⟩)⟩ <;> simp only
    · omega
    · omega
    · rw [if_neg (by omega)]
    · rw [if_neg (by omega)]
  split at h
  · rename_i hn
    cases h
    exact ⟨rfl, .inr (.inr ⟨rfl, hn.symm, by decide, rfl, rfl⟩)⟩
  · cases h

theorem toNat_ofNat_of_valid {n : Nat} (h : n < 0xD800 ∨ (0xDFFF < n ∧ n < 0x110000)) :
    (Char.ofNat n).toNat = n := by
  rw [Char.ofNat, dif_pos h]
  rfl

theorem encodeChar_one {n : Nat} (hlt : n < 0x80) : encodeChar (Char.ofNat n) = [UInt8.ofNat n] := by
  unfold encodeChar
  rw [toNat_ofNat_of_valid (by omega), if_pos hlt]

theorem encodeChar_two {n : Nat} (hle : 0x80 ≤ n) (hlt : n < 0x800) :
    encodeChar (Char.ofNat n) = [UInt8.ofNat (0xC0 + n / 64), UInt8.ofNat (0x80 + n % 64)] := by
  unfold encodeChar
  rw [toNat_ofNat_of_valid (by omega), if_neg (by omega), if_pos hlt]

theorem encodeChar_three {n : Nat} (hle : 0x800 ≤ n) (hlt : n < 0x10000) (hvalid : n < 0xD800 ∨ 0xDFFF < n) :
    encodeChar (Char.ofNat n)
      = [UInt8.ofNat (0xE0 + n / 4096), UInt8.ofNat (0x80 + n / 64 % 64), UInt8.ofNat (0x80 + n % 64)] := by
  unfold encodeChar
  rw [toNat_ofNat_of_valid (by omega), if_neg (by omega), if_neg (by omega), if_pos hlt]

theorem encodeChar_four {n : Nat} (hle : 0x10000 ≤ n) (hlt : n < 0x110000) :
    encodeChar (Char.ofNat n) = [UInt8.ofNat (0xF0 + n / 262144), UInt8.ofNat (0x80 + n / 4096 % 64),
      UInt8.ofNat (0x80 + n / 64 % 64), UInt8.ofNat (0x80 + n % 64)] := by
  unfold encodeChar
  rw [toNat_ofNat_of_valid (by omega), if_neg (by omega), if_neg (by omega), if_neg (by omega)]

theorem ofNat_eq_of_toNat {b : UInt8} {n : Nat} (h : n = b.toNat) : UInt8.ofNat n = b := by
  subst h
  exact UInt8.ofNat_toNat

/-- A byte that begins no longer character is a character or none. -/
theorem covers_of_lead {b : UInt8} {piece : Piece} (h : lead b = .inl piece) : piece.Covers [b] := by
  unfold lead at h
  simp only at h
  split at h
  · rename_i hb
    obtain rfl := Sum.inl.inj h
    have hchar := encodeChar_one hb
    rw [UInt8.ofNat_toNat] at hchar
    rw [← hchar]
    exact .char _
  split at h
  · obtain rfl := Sum.inl.inj h
    exact .bad [b]
  split at h
  · cases h
  split at h
  · cases h
  split at h
  · cases h
  split at h
  · cases h
  split at h
  · cases h
  split at h
  · cases h
  split at h
  · cases h
  · obtain rfl := Sum.inl.inj h
    exact .bad [b]

/-- A lead byte awaits the other bytes of its character. -/
theorem awaits_of_lead {first : UInt8} {p : Begun} (h : lead first = .inr p) : p.Awaits p.owed [first] := by
  obtain ⟨-, ⟨howed, hvalue, hleast, hmost, hlow, hhigh⟩ | ⟨howed, hvalue, hmost, hlow, hhigh⟩
    | ⟨howed, hvalue, hmost, hlow, hhigh⟩⟩ := lead_cases h
  · rw [howed, Begun.Awaits]
    intro b hb
    have hl : 0x80 ≤ b.toNat := hlow ▸ hb.1
    have hh : b.toNat ≤ 0xBF := hhigh ▸ hb.2
    rw [Begun.value_next, encodeChar_two (by omega) (by omega), ofNat_eq_of_toNat (b := first) (by omega),
      ofNat_eq_of_toNat (b := b) (by omega)]
    rfl
  · rw [howed, Begun.Awaits]
    intro b₁ hb₁
    rw [Begun.Awaits]
    intro b₂ hb₂
    -- The range of the second byte leaves out overlong forms and surrogates.
    have hl₁ : (if p.value = 0 then 0xA0 else 0x80) ≤ b₁.toNat := hlow ▸ hb₁.1
    have hh₁ : b₁.toNat ≤ (if p.value = 13 then 0x9F else 0xBF) := hhigh ▸ hb₁.2
    have hl₂ : 0x80 ≤ b₂.toNat := hb₂.1
    have hh₂ : b₂.toNat ≤ 0xBF := hb₂.2
    have hrange : (p.value = 0 → 0xA0 ≤ b₁.toNat) ∧ (p.value = 13 → b₁.toNat ≤ 0x9F)
        ∧ 0x80 ≤ b₁.toNat ∧ b₁.toNat ≤ 0xBF := by
      split at hl₁ <;> split at hh₁ <;> omega
    rw [Begun.value_next, Begun.value_next, encodeChar_three (by omega) (by omega) (by omega),
      ofNat_eq_of_toNat (b := first) (by omega), ofNat_eq_of_toNat (b := b₁) (by omega),
      ofNat_eq_of_toNat (b := b₂) (by omega)]
    rfl
  · rw [howed, Begun.Awaits]
    intro b₁ hb₁
    rw [Begun.Awaits]
    intro b₂ hb₂
    rw [Begun.Awaits]
    intro b₃ hb₃
    -- Here it leaves out overlong forms and what is above U+10FFFF.
    have hl₁ : (if p.value = 0 then 0x90 else 0x80) ≤ b₁.toNat := hlow ▸ hb₁.1
    have hh₁ : b₁.toNat ≤ (if p.value = 4 then 0x8F else 0xBF) := hhigh ▸ hb₁.2
    have hl₂ : 0x80 ≤ b₂.toNat := hb₂.1
    have hh₂ : b₂.toNat ≤ 0xBF := hb₂.2
    have hl₃ : 0x80 ≤ b₃.toNat := hb₃.1
    have hh₃ : b₃.toNat ≤ 0xBF := hb₃.2
    have hrange : (p.value = 0 → 0x90 ≤ b₁.toNat) ∧ (p.value = 4 → b₁.toNat ≤ 0x8F)
        ∧ 0x80 ≤ b₁.toNat ∧ b₁.toNat ≤ 0xBF := by
      split at hl₁ <;> split at hh₁ <;> omega
    rw [Begun.value_next, Begun.value_next, Begun.value_next, encodeChar_four (by omega) (by omega),
      ofNat_eq_of_toNat (b := first) (by omega), ofNat_eq_of_toNat (b := b₁) (by omega),
      ofNat_eq_of_toNat (b := b₂) (by omega), ofNat_eq_of_toNat (b := b₃) (by omega)]
    rfl

/-! ## All bytes -/

/-- What the splitter has found and begun is made of the bytes so far. -/
structure Splitter.Covers (s : Splitter) (bytes : Bytes) : Prop where
  parts : ∃ parts front, bytes = parts.flatten ++ front ∧ List.Forall₂ Piece.Covers s.found.reverse parts
    ∧ match s.begun with
      | none => front = []
      | some p => p.seen = front.length ∧ p.Awaits p.owed front

variable {found : List Piece} {parts : List Bytes}

theorem forall₂_concat {piece : Piece} {bytes : Bytes} (h : List.Forall₂ Piece.Covers found.reverse parts)
    (hpiece : piece.Covers bytes) : List.Forall₂ Piece.Covers (piece :: found).reverse (parts ++ [bytes]) := by
  rw [List.reverse_cons]
  exact List.rel_append h (.cons hpiece .nil)

theorem covers_found {piece : Piece} {bytes : Bytes} (h : List.Forall₂ Piece.Covers found.reverse parts)
    (hpiece : piece.Covers bytes) : Splitter.Covers ⟨piece :: found, none⟩ (parts.flatten ++ bytes) :=
  ⟨_, [], by simp, forall₂_concat h hpiece, rfl⟩

theorem covers_start (h : List.Forall₂ Piece.Covers found.reverse parts) (b : UInt8) :
    (Splitter.start found b).Covers (parts.flatten ++ [b]) := by
  unfold Splitter.start
  cases hlead : lead b with
  | inr p => exact ⟨parts, [b], rfl, h, (lead_cases hlead).1, awaits_of_lead hlead⟩
  | inl piece => exact covers_found h (covers_of_lead hlead)

theorem Splitter.Covers.step {s : Splitter} {bytes : Bytes} (h : s.Covers bytes) (b : UInt8) :
    (s.step b).Covers (bytes ++ [b]) := by
  obtain ⟨found, begun⟩ := s
  obtain ⟨parts, front, rfl, hparts, hfront⟩ := h
  cases begun with
  | none =>
    cases hfront
    rw [List.append_nil]
    exact covers_start hparts b
  | some p =>
    obtain ⟨hseen, hawaits⟩ := hfront
    simp only [Splitter.step]
    split
    · rename_i htakes
      split
      · rename_i howed
        rw [howed] at hawaits
        rw [List.append_assoc, ← hawaits b htakes]
        exact covers_found hparts (.char _)
      · rename_i howed
        have hnext : (p.next b).seen = (front ++ [b]).length ∧ (p.next b).Awaits (p.next b).owed (front ++ [b]) := by
          refine ⟨by rw [List.length_append, ← hseen]; rfl, ?_⟩
          simp only [show (p.next b).owed = p.owed - 1 from rfl]
          generalize p.owed = owed at hawaits howed
          rcases owed with _ | _ | owed
          · exact hawaits.elim
          · exact absurd rfl howed
          · exact hawaits b htakes
        exact ⟨parts, front ++ [b], by rw [List.append_assoc], hparts, hnext⟩
    · have hbad := forall₂_concat hparts (.bad front)
      have hstart := covers_start hbad b
      simpa [hseen] using hstart

theorem covers_foldl (more : Bytes) : ∀ {s : Splitter} {bytes : Bytes}, s.Covers bytes →
    (more.foldl Splitter.step s).Covers (bytes ++ more) := by
  induction more with
  | nil =>
    intro s bytes h
    rwa [List.append_nil]
  | cons b more ih =>
    intro s bytes h
    rw [List.foldl_cons, List.append_cons]
    exact ih (h.step b)

/-- The pieces of a byte string are made of its bytes, one after another. -/
theorem pieces_cover (bytes : Bytes) :
    ∃ parts, List.Forall₂ Piece.Covers (pieces bytes) parts ∧ parts.flatten = bytes := by
  have hstart : Splitter.Covers {} [] := ⟨[], [], rfl, .nil, rfl⟩
  have hall := covers_foldl bytes hstart
  unfold pieces Splitter.finish
  generalize bytes.foldl Splitter.step {} = s at hall
  obtain ⟨found, begun⟩ := s
  obtain ⟨parts, front, rfl, hparts, hfront⟩ := hall
  cases begun with
  | none =>
    cases hfront
    exact ⟨parts, hparts, by simp⟩
  | some p =>
    refine ⟨parts ++ [front], ?_, by simp⟩
    simp only [hfront.1]
    exact forall₂_concat hparts (.cut front)

/-! ## Texts -/

/-- What is decoded to a text is split into the characters of the text. -/
theorem eq_map_of_characters {found : List Piece} : ∀ {index : Nat} {before cs : List Char},
    characters index before found = .ok cs → ∃ more, found = more.map Piece.char ∧ cs = before.reverse ++ more := by
  induction found with
  | nil =>
    intro index before cs h
    cases h
    exact ⟨[], rfl, by simp⟩
  | cons piece found ih =>
    intro index before cs h
    cases piece with
    | char c =>
      obtain ⟨more, rfl, rfl⟩ := ih h
      exact ⟨c :: more, rfl, by simp⟩
    | bad length => cases h
    | cut length => cases h

theorem flatten_of_covers {cs : List Char} : ∀ {parts : List Bytes},
    List.Forall₂ Piece.Covers (cs.map Piece.char) parts → parts.flatten = cs.flatMap encodeChar := by
  induction cs with
  | nil =>
    intro parts h
    cases h
    rfl
  | cons c cs ih =>
    intro parts h
    cases h with
    | cons hfirst hrest =>
      cases hfirst
      rw [List.flatten_cons, ih hrest, List.flatMap_cons]

theorem encode_of_decode {bytes : Bytes} {s : String} (h : decode bytes = .ok s) : encode s = bytes := by
  rw [decode] at h
  cases hcs : characters 0 [] (pieces bytes) with
  | error e =>
    rw [hcs] at h
    cases h
  | ok cs =>
    rw [hcs] at h
    cases h
    obtain ⟨more, hmore, rfl⟩ := eq_map_of_characters hcs
    obtain ⟨parts, hparts, hbytes⟩ := pieces_cover bytes
    rw [hmore] at hparts
    rw [← hbytes, flatten_of_covers hparts]
    simp [encode]

end DeviceLog.Utf8
