import DeviceLog.Text.Utf8

/-! # Base64

Three bytes are written as four symbols of six bits each; one or two bytes that are left at the
end are written as two or three symbols and filled up with `=`. `decode` accepts exactly what
`encode` writes: other symbols, missing or surplus padding and bits that stand for nothing are
refused.
-/

namespace DeviceLog.Base64

/-- Why a text is not base64. A symbol is given by its byte and its place. -/
inductive Error where
  /-- A symbol that cannot stand where it does. -/
  | symbol (byte : UInt8) (offset : Nat)
  /-- A last symbol that holds bits which belong to no byte. -/
  | lastSymbol (byte : UInt8) (offset : Nat)
  /-- A single symbol is left at the end. -/
  | length (symbols : Nat)
  /-- The last group is not filled up. -/
  | padding
  deriving DecidableEq, Repr

def Error.message : Error → String
  | .symbol byte offset =>
    "Invalid symbol " ++ toString byte.toNat ++ ", offset " ++ toString offset ++ "."
  | .lastSymbol byte offset =>
    "Invalid last symbol " ++ toString byte.toNat ++ ", offset " ++ toString offset ++ "."
  | .length symbols => "Invalid input length: " ++ toString symbols
  | .padding => "Invalid padding"

def pad : UInt8 := 0x3D

def symbolOf (n : Nat) : UInt8 :=
  if n < 26 then UInt8.ofNat (65 + n)
  else if n < 52 then UInt8.ofNat (71 + n)
  else if n < 62 then UInt8.ofNat (n - 4)
  else if n = 62 then 0x2B
  else 0x2F

def valueOf (symbol : UInt8) : Option Nat :=
  let n := symbol.toNat
  if 65 ≤ n ∧ n ≤ 90 then some (n - 65)
  else if 97 ≤ n ∧ n ≤ 122 then some (n - 71)
  else if 48 ≤ n ∧ n ≤ 57 then some (n + 4)
  else if n = 0x2B then some 62
  else if n = 0x2F then some 63
  else none

/-! ## Writing -/

def encode : Bytes → Bytes
  | a :: b :: c :: rest =>
    symbolOf (a.toNat / 4) :: symbolOf (a.toNat % 4 * 16 + b.toNat / 16)
      :: symbolOf (b.toNat % 16 * 4 + c.toNat / 64) :: symbolOf (c.toNat % 64) :: encode rest
  | [a, b] =>
    [symbolOf (a.toNat / 4), symbolOf (a.toNat % 4 * 16 + b.toNat / 16),
      symbolOf (b.toNat % 16 * 4), pad]
  | [a] => [symbolOf (a.toNat / 4), symbolOf (a.toNat % 4 * 16), pad, pad]
  | [] => []

/-! ## Reading -/

def valueAt (offset : Nat) (symbol : UInt8) : Except Error Nat :=
  match valueOf symbol with
  | some n => .ok n
  | none => .error (.symbol symbol offset)

def threeBytes (v w x y : Nat) : Bytes :=
  [UInt8.ofNat (v * 4 + w / 16), UInt8.ofNat (w % 16 * 16 + x / 4), UInt8.ofNat (x % 4 * 64 + y)]

/-- The values of the last group's symbols up to its padding, last first, and the padding. Padding
comes after two symbols at least, and only padding comes after it. -/
def lastValues (start offset : Nat) (values : List Nat) : Bytes → Except Error (List Nat × Nat)
  | [] => .ok (values, 0)
  | symbol :: rest =>
    if symbol = pad then
      if values.length < 2 then .error (.symbol symbol offset)
      else if rest.all (· == pad) then .ok (values, rest.length + 1)
      else .error (.symbol pad offset)
    else
      match valueAt offset symbol with
      | .ok n => lastValues start (offset + 1) (n :: values) rest
      | .error e => .error e

/-- The bytes of the last group, of one to four symbols. -/
def lastGroup (start : Nat) (group : Bytes) : Except Error Bytes :=
  match lastValues start start [] group with
  | .error e => .error e
  | .ok (values, padding) =>
    if values.length < 2 then .error (.length (start + values.length))
    else if values.length + padding ≠ 4 then .error .padding
    else
      match values with
      | [w, v] =>
        if w % 16 = 0 then .ok ((threeBytes v w 0 0).take 1)
        else .error (.lastSymbol (group.getD 1 0) (start + 1))
      | [x, w, v] =>
        if x % 4 = 0 then .ok ((threeBytes v w x 0).take 2)
        else .error (.lastSymbol (group.getD 2 0) (start + 2))
      | [y, x, w, v] => .ok (threeBytes v w x y)
      | _ => .error .padding

/-- The bytes of the groups from an offset on; a group is the last one if nothing follows it. -/
def groups (offset : Nat) : Bytes → Except Error Bytes
  | s :: t :: u :: v :: next :: rest => do
    let a ← valueAt offset s
    let b ← valueAt (offset + 1) t
    let c ← valueAt (offset + 2) u
    let d ← valueAt (offset + 3) v
    let bytes ← groups (offset + 4) (next :: rest)
    return threeBytes a b c d ++ bytes
  | group => lastGroup offset group

/-- The bytes that symbols stand for. A single symbol left at the end that is none is named
before any other fault. -/
def decode (symbols : Bytes) : Except Error Bytes :=
  match symbols.getLast? with
  | some last =>
    if symbols.length % 4 = 1 ∧ last ≠ pad ∧ valueOf last = none then
      .error (.symbol last (symbols.length - 1))
    else groups 0 symbols
  | none => .ok []

end DeviceLog.Base64
