import DeviceLog.Action

/-! # Bits of a compressed payload

A payload is a sequence of bytes read as bits, the lowest bit of each byte first. Numbers in it
have their lowest bit first; code words have their first bit first. This module holds

* `BitSource`: the bits still to be read, with the readers `bit`, `number`, `align` and `byte`;
* `numberBits` and `Packer`, which write what the readers read.
-/

namespace DeviceLog.Deflate

/-- Why a payload cannot be expanded. -/
inductive Error where
  | corrupt
  | incomplete
  deriving DecidableEq, Repr

def Error.message : Error → String
  | .corrupt => "corrupt deflate stream"
  | .incomplete => "incomplete deflate stream"

/-! ## Reading -/

/-- What is left of a payload: the bits of the byte being read, then the bytes after it. -/
structure BitSource where
  pending : List Bool := []
  bytes : Bytes
  deriving DecidableEq, Repr

/-- The eight bits of a byte, lowest first. -/
def byteBits (b : UInt8) : List Bool :=
  [b.toNat.testBit 0, b.toNat.testBit 1, b.toNat.testBit 2, b.toNat.testBit 3,
    b.toNat.testBit 4, b.toNat.testBit 5, b.toNat.testBit 6, b.toNat.testBit 7]

def BitSource.size (s : BitSource) : Nat := s.pending.length + 8 * s.bytes.length

def bit : Action Error BitSource Bool := fun s =>
  match s.pending, s.bytes with
  | b :: pending, _ => (.ok b, { s with pending := pending })
  | [], b :: bytes => (.ok (b.toNat.testBit 0), { pending := (byteBits b).tail, bytes := bytes })
  | [], [] => (.error .incomplete, s)

def number : Nat → Action Error BitSource Nat
  | 0 => Action.done 0
  | width + 1 => do
    let low ← bit
    let high ← number width
    return (if low then 1 else 0) + 2 * high

/-- Drops what is left of the byte being read. -/
def align : Action Error BitSource Unit := fun s => (.ok (), { s with pending := [] })

def byte : Action Error BitSource UInt8 := fun s =>
  match s.bytes with
  | b :: bytes => (.ok b, { s with bytes := bytes })
  | [] => (.error .incomplete, s)

def wholeBytes (count : Nat) : Action Error BitSource Bytes := fun s =>
  let (taken, rest) := s.bytes.splitAt count
  if taken.length = count then (.ok taken, { s with bytes := rest })
  else (.error .incomplete, { s with bytes := [] })

/-! ## Writing -/

/-- A number in so many bits, lowest first. -/
def numberBits (n : Nat) : Nat → List Bool
  | 0 => []
  | width + 1 => (n % 2 = 1) :: numberBits (n / 2) width

/-- The byte of at most eight bits, lowest first; bits that are missing are zero. -/
def byteOfBits (bits : List Bool) : UInt8 :=
  UInt8.ofNat (bits.foldr (fun b n => (if b then 1 else 0) + 2 * n) 0)

/-- Bits gathered into bytes: the finished bytes, and the bits of the next one, last first. -/
structure Packer where
  bytes : Array UInt8 := #[]
  pending : List Bool := []

def Packer.push (p : Packer) (b : Bool) : Packer :=
  match p.pending with
  | [b₆, b₅, b₄, b₃, b₂, b₁, b₀] =>
    { bytes := p.bytes.push (byteOfBits [b₀, b₁, b₂, b₃, b₄, b₅, b₆, b]) }
  | pending => { p with pending := b :: pending }

def Packer.append (p : Packer) (bits : List Bool) : Packer := bits.foldl Packer.push p

/-- Fills the byte that is begun up with zeros. -/
def Packer.align (p : Packer) : Packer :=
  match p.pending with
  | [] => p
  | pending => { bytes := p.bytes.push (byteOfBits pending.reverse) }

/-- Takes whole bytes, from the next whole byte on. -/
def Packer.appendBytes (p : Packer) (bytes : Bytes) : Packer :=
  { bytes := bytes.foldl Array.push p.align.bytes }

/-- The bytes, the last one filled up with zeros. -/
def Packer.finish (p : Packer) : Bytes := p.align.bytes.toList

end DeviceLog.Deflate
