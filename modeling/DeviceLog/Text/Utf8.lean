import DeviceLog.Action

/-! # UTF-8

Text is kept in files as UTF-8. This module holds

* `encode`: the bytes of a text;
* `pieces`: any byte string split into characters and maximal invalid prefixes;
* `decode`: the text of a byte string, or where and how it stops being UTF-8;
* `decodeLossy`: the text with U+FFFD in place of every maximal invalid prefix.

The splitting looks at one byte at a time. Between characters it waits for a lead byte, and
inside one it knows how many bytes are owed and in which range the next one must lie. A byte
outside that range ends the piece before it and is then looked at as a lead byte.
-/

namespace DeviceLog.Utf8

def encodeChar (c : Char) : Bytes :=
  let n := c.toNat
  if n < 0x80 then
    [UInt8.ofNat n]
  else if n < 0x800 then
    [UInt8.ofNat (0xC0 + n / 64), UInt8.ofNat (0x80 + n % 64)]
  else if n < 0x10000 then
    [UInt8.ofNat (0xE0 + n / 4096), UInt8.ofNat (0x80 + n / 64 % 64), UInt8.ofNat (0x80 + n % 64)]
  else
    [UInt8.ofNat (0xF0 + n / 262144), UInt8.ofNat (0x80 + n / 4096 % 64),
      UInt8.ofNat (0x80 + n / 64 % 64), UInt8.ofNat (0x80 + n % 64)]

def encode (s : String) : Bytes := s.toList.flatMap encodeChar

/-! ## Splitting into pieces -/

/-- A character that has begun: the value so far, the bytes owed, the range of the next one and
the bytes seen. -/
structure Begun where
  value : Nat
  owed : Nat
  low : Nat := 0x80
  high : Nat := 0xBF
  seen : Nat := 1
  deriving DecidableEq, Repr

/-- What a byte string is made of. -/
inductive Piece where
  | char (c : Char)
  /-- A maximal prefix of so many bytes that no character begins with, followed by another byte. -/
  | bad (length : Nat)
  /-- The first so many bytes of a character that the end of the string cuts off. -/
  | cut (length : Nat)
  deriving DecidableEq, Repr

/-- What a byte means between characters. The narrower ranges after four of the lead bytes keep
out overlong forms, surrogates and values above U+10FFFF. -/
def lead (b : UInt8) : Piece ⊕ Begun :=
  let n := b.toNat
  if n < 0x80 then .inl (.char (Char.ofNat n))
  else if n < 0xC2 then .inl (.bad 1)
  else if n < 0xE0 then .inr { value := n - 0xC0, owed := 1 }
  else if n = 0xE0 then .inr { value := 0, owed := 2, low := 0xA0 }
  else if n = 0xED then .inr { value := 0xD, owed := 2, high := 0x9F }
  else if n < 0xF0 then .inr { value := n - 0xE0, owed := 2 }
  else if n = 0xF0 then .inr { value := 0, owed := 3, low := 0x90 }
  else if n < 0xF4 then .inr { value := n - 0xF0, owed := 3 }
  else if n = 0xF4 then .inr { value := 4, owed := 3, high := 0x8F }
  else .inl (.bad 1)

/-- The splitting between two bytes: the pieces found, last first, and the character begun. -/
structure Splitter where
  found : List Piece := []
  begun : Option Begun := none

def Splitter.start (found : List Piece) (b : UInt8) : Splitter :=
  match lead b with
  | .inl piece => { found := piece :: found }
  | .inr begun => { found := found, begun := some begun }

def Splitter.step (s : Splitter) (b : UInt8) : Splitter :=
  match s.begun with
  | none => .start s.found b
  | some p =>
    if p.low ≤ b.toNat ∧ b.toNat ≤ p.high then
      let value := p.value * 64 + (b.toNat - 0x80)
      if p.owed = 1 then
        { found := .char (Char.ofNat value) :: s.found }
      else
        { found := s.found, begun := some { value := value, owed := p.owed - 1, seen := p.seen + 1 } }
    else
      .start (.bad p.seen :: s.found) b

/-- The pieces at the end of the string, in order. -/
def Splitter.finish (s : Splitter) : List Piece :=
  match s.begun with
  | none => s.found.reverse
  | some p => (.cut p.seen :: s.found).reverse

/-- A byte string as characters and maximal invalid prefixes. -/
def pieces (bytes : Bytes) : List Piece :=
  (bytes.foldl Splitter.step {}).finish

/-! ## Decoding -/

/-- Why a byte string is not UTF-8. -/
inductive Error where
  /-- So many bytes from an index on can begin no character that goes on as the string does. -/
  | invalid (length index : Nat)
  /-- The string ends inside the character that begins at an index. -/
  | incomplete (index : Nat)
  deriving DecidableEq, Repr

def Error.message : Error → String
  | .invalid length index =>
    "invalid utf-8 sequence of " ++ toString length ++ " bytes from index " ++ toString index
  | .incomplete index => "incomplete utf-8 byte sequence from index " ++ toString index

/-- The characters of the pieces from an index on, put before the ones already read, last first. -/
def characters (index : Nat) (before : List Char) : List Piece → Except Error (List Char)
  | [] => .ok before.reverse
  | .char c :: rest => characters (index + c.utf8Size) (c :: before) rest
  | .bad length :: _ => .error (.invalid length index)
  | .cut _ :: _ => .error (.incomplete index)

def decode (bytes : Bytes) : Except Error String :=
  (characters 0 [] (pieces bytes)).map String.ofList

/-- The text of a byte string that encodes one. -/
def decode? (bytes : Bytes) : Option String :=
  (decode bytes).toOption

/-- Stands in a text for a maximal invalid prefix. -/
def replacement : Char := Char.ofNat 0xFFFD

/-- The character that a piece becomes when nothing is refused. -/
def Piece.shown : Piece → Char
  | .char c => c
  | .bad _ => replacement
  | .cut _ => replacement

/-- The text of any byte string, with U+FFFD in place of every maximal invalid prefix. -/
def decodeLossy (bytes : Bytes) : String :=
  String.ofList ((pieces bytes).map Piece.shown)

end DeviceLog.Utf8
