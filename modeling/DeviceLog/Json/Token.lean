import DeviceLog.Json.Numeral
import DeviceLog.Text.Utf8

/-! # Tokens of a document

A document is first split into tokens: brackets, separators, the three words, numbers and texts.
Splitting never fails. Where no token can be read a `bad` token stands and the rest of the document
is dropped, so a reader that goes through the tokens in order meets the faults of a document in
the order in which they stand in it. A text whose bytes or escapes name no characters is a token
without content, which only matters to a reader that wants the content.
-/

namespace DeviceLog.Json

inductive Token where
  | openObject
  | closeObject
  | openList
  | closeList
  | comma
  | colon
  | null
  | bool (b : Bool)
  | number (n : Numeral)
  | text (content : Option String)
  | bad
  deriving DecidableEq, Repr

namespace Token

/-! ## Texts -/

/-- What a text is made of: bytes as they stand, and units of 16 bits that escapes give. -/
inductive Part where
  | byte (b : UInt8)
  | unit (n : Nat)
  deriving DecidableEq, Repr

def hexDigit (b : UInt8) : Option Nat :=
  let n := b.toNat
  if 48 ≤ n ∧ n ≤ 57 then some (n - 48)
  else if 65 ≤ n ∧ n ≤ 70 then some (n - 55)
  else if 97 ≤ n ∧ n ≤ 102 then some (n - 87)
  else none

def hexUnit (a b c d : UInt8) : Option Nat := do
  let a ← hexDigit a
  let b ← hexDigit b
  let c ← hexDigit c
  let d ← hexDigit d
  return ((a * 16 + b) * 16 + c) * 16 + d

/-- The byte that a letter after a backslash stands for. -/
def escape (b : UInt8) : Option UInt8 :=
  if b = 0x22 then some 0x22
  else if b = 0x5C then some 0x5C
  else if b = 0x2F then some 0x2F
  else if b = 0x62 then some 0x08
  else if b = 0x66 then some 0x0C
  else if b = 0x6E then some 0x0A
  else if b = 0x72 then some 0x0D
  else if b = 0x74 then some 0x09
  else none

/-- The parts of a text up to its closing quote, after the ones already read, last first. -/
def textParts (before : List Part) : Bytes → Option (List Part × Bytes)
  | [] => none
  | b :: rest =>
    if b = 0x22 then some (before.reverse, rest)
    else if b = 0x5C then
      match rest with
      | [] => none
      | e :: rest =>
        if e = 0x75 then
          match rest with
          | h₁ :: h₂ :: h₃ :: h₄ :: rest =>
            match hexUnit h₁ h₂ h₃ h₄ with
            | some n => textParts (.unit n :: before) rest
            | none => none
          | _ => none
        else
          match escape e with
          | some b => textParts (.byte b :: before) rest
          | none => none
    -- Control characters cannot stand in a text as they are.
    else if b < 0x20 then none
    else textParts (.byte b :: before) rest

/-- Whether a unit is the first half of a pair. -/
def isHigh (n : Nat) : Bool := 0xD800 ≤ n ∧ n ≤ 0xDBFF

/-- Whether a unit is the second half of a pair. -/
def isLow (n : Nat) : Bool := 0xDC00 ≤ n ∧ n ≤ 0xDFFF

/-- The bytes of the parts, after the ones already found, last first; none if half a pair stands
alone. -/
def partBytes (before : Bytes) : List Part → Option Bytes
  | [] => some before.reverse
  | .byte b :: rest => partBytes (b :: before) rest
  | .unit n :: rest =>
    if isHigh n then
      match rest with
      | .unit m :: rest =>
        if isLow m then
          let c := Char.ofNat (0x10000 + (n - 0xD800) * 0x400 + (m - 0xDC00))
          partBytes ((Utf8.encodeChar c).reverse ++ before) rest
        else none
      | _ => none
    else if isLow n then none
    else partBytes ((Utf8.encodeChar (Char.ofNat n)).reverse ++ before) rest

def content (parts : List Part) : Option String := (partBytes [] parts).bind Utf8.decode?

/-! ## Numbers -/

def isDigit (b : UInt8) : Bool := 0x30 ≤ b ∧ b ≤ 0x39

/-- The digits at the front, and what follows them. -/
def digits (s : Bytes) : List Nat × Bytes :=
  let (found, rest) := s.span isDigit
  (found.map fun b => b.toNat - 0x30, rest)

/-- The fraction at the front, if there is one; at least one digit follows the point. -/
def fraction : Bytes → Option (Option (List Nat) × Bytes)
  | 0x2E :: s =>
    match digits s with
    | ([], _) => none
    | (found, rest) => some (some found, rest)
  | s => some (none, s)

/-- The digits of an exponent, of which there is at least one. -/
def exponentDigits (down : Bool) (s : Bytes) : Option (Option (Bool × List Nat) × Bytes) :=
  match digits s with
  | ([], _) => none
  | (found, rest) => some (some (down, found), rest)

/-- The exponent at the front, if there is one. -/
def exponent : Bytes → Option (Option (Bool × List Nat) × Bytes)
  | b :: s =>
    if b = 0x65 ∨ b = 0x45 then
      match s with
      | 0x2B :: s => exponentDigits false s
      | 0x2D :: s => exponentDigits true s
      | s => exponentDigits false s
    else some (none, b :: s)
  | [] => some (none, [])

/-- The number at the front, after its sign. A zero is not followed by more digits. -/
def numeral (negative : Bool) (s : Bytes) : Option (Numeral × Bytes) := do
  let (whole, rest) := digits s
  guard (whole ≠ [] ∧ (whole.head? ≠ some 0 ∨ whole.length = 1))
  let (fraction, rest) ← fraction rest
  let (exponent, rest) ← exponent rest
  return (⟨negative, whole, fraction, exponent⟩, rest)

/-! ## Splitting -/

def isSpace (b : UInt8) : Bool := b = 0x20 ∨ b = 0x0A ∨ b = 0x0D ∨ b = 0x09

/-- The token that begins with a byte, and what follows it. -/
def next (b : UInt8) (rest : Bytes) : Option (Token × Bytes) :=
  if b = 0x7B then some (openObject, rest)
  else if b = 0x7D then some (closeObject, rest)
  else if b = 0x5B then some (openList, rest)
  else if b = 0x5D then some (closeList, rest)
  else if b = 0x2C then some (comma, rest)
  else if b = 0x3A then some (colon, rest)
  else if b = 0x22 then (textParts [] rest).map fun found => (text (content found.1), found.2)
  else if b = 0x2D then (numeral true rest).map fun found => (number found.1, found.2)
  else if isDigit b then (numeral false (b :: rest)).map fun found => (number found.1, found.2)
  else
    match b, rest with
    | 0x6E, 0x75 :: 0x6C :: 0x6C :: rest => some (null, rest)
    | 0x74, 0x72 :: 0x75 :: 0x65 :: rest => some (bool true, rest)
    | 0x66, 0x61 :: 0x6C :: 0x73 :: 0x65 :: rest => some (bool false, rest)
    | _, _ => none

/-- The tokens of a document, after the ones already found, last first. Each turn takes a byte at
least. -/
def split (found : List Token) : Nat → Bytes → List Token
  | 0, _ => found.reverse
  | _ + 1, [] => found.reverse
  | turns + 1, b :: rest =>
    if isSpace b then split found turns rest
    else
      match next b rest with
      | some (token, rest) => split (token :: found) turns rest
      -- What follows a fault is not looked at.
      | none => (bad :: found).reverse

def ofBytes (document : Bytes) : List Token := split [] document.length document

end Token

end DeviceLog.Json
