import DeviceLog.Action
import DeviceLog.Wire.Error

/-! # Numbers of variable length

A signed number is first folded into a natural one, so that numbers near zero become small: 0, -1,
1, -2 are 0, 1, 2, 3. The natural number is written in groups of seven bits, lowest first, a byte
for each, and every byte but the last has its high bit set.

A number takes ten bytes at most. Ten bytes hold more than 64 bits; what exceeds them is dropped.
-/

namespace DeviceLog.Varint

/-- The natural number that a signed number is folded into. -/
def fold (n : Int64) : Nat :=
  if 0 ≤ n.toInt then 2 * n.toInt.toNat else 2 * (-n.toInt).toNat - 1

/-- The signed number that is folded into a natural number. -/
def unfold (n : Nat) : Int64 :=
  if n % 2 = 0 then Int64.ofInt (n / 2) else Int64.ofInt (-(n / 2 : Nat) - 1)

def groups (n : Nat) : Bytes :=
  if n < 128 then [UInt8.ofNat n] else UInt8.ofNat (n % 128 + 128) :: groups (n / 128)
termination_by n

def encode (n : Int64) : Bytes := groups (fold n)

def maxBytes : Nat := 10

/-- Reads the natural number of at most `budget` groups. -/
def readGroups : Nat → Action FormatError Bytes Nat
  | 0 => Action.fail (.malformed .longVarint)
  | budget + 1 => fun bytes =>
    match bytes with
    | [] => (.error .endOfData, [])
    | b :: rest =>
      if b < 128 then (.ok b.toNat, rest)
      else
        match readGroups budget rest with
        | (.ok n, rest) => (.ok (b.toNat - 128 + 128 * n), rest)
        | (.error e, rest) => (.error e, rest)

def decode : Action FormatError Bytes Int64 := do
  return unfold ((← readGroups maxBytes) % UInt64.size)

end DeviceLog.Varint
