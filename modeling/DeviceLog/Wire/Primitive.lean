import DeviceLog.Wire.Varint

/-! # Lengths, bytes and strings

Bytes are written after their length, and a string as its UTF-8 bytes.
-/

namespace DeviceLog.Wire

/-- A reading of the bytes of a log. -/
abbrev Reader (α : Type) := Action FormatError Bytes α

def byte : Reader UInt8 := fun bytes =>
  match bytes with
  | [] => (.error .endOfData, [])
  | b :: rest => (.ok b, rest)

/-- Takes so many bytes; fewer are all taken, and are no value. -/
def take (count : Nat) : Reader Bytes := fun bytes =>
  let taken := bytes.take count
  if taken.length < count then (.error .endOfData, []) else (.ok taken, bytes.drop count)

/-- The bytes of a length or count. From 2 ^ 63 on it is written as a negative number. -/
def encodeLength (n : Nat) : Bytes := Varint.encode (Int64.ofNat n)

def length : Reader Nat := do
  let n ← Varint.decode
  if n.toInt < 0 then Action.fail (.malformed (.negativeLength n)) else return n.toInt.toNat

def encodeBytes (bytes : Bytes) : Bytes := encodeLength bytes.length ++ bytes

def bytes : Reader Bytes := do take (← length)

def encodeString (s : String) : Bytes := encodeBytes (Utf8.encode s)

def string : Reader String := do
  match Utf8.decode (← bytes) with
  | .ok s => return s
  | .error e => Action.fail (.malformed (.notText e))

end DeviceLog.Wire
