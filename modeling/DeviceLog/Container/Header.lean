import DeviceLog.Container.Codec
import DeviceLog.Container.Marker
import DeviceLog.Container.Metadata
import DeviceLog.Schema.Document
import DeviceLog.Wire.Primitive

/-! # Headers

A log begins with four fixed bytes, a map of named byte strings and its marker. Two entries of the
map are the schema and the name of the codec; the others are the metadata.

The map is written in blocks, each a count and so many entries, and ends with a count of zero. A
count may also be negative: then its opposite is meant, and the size of the block follows it. The
writer makes one block with a positive count; the reader takes any layout, and of entries of one
name the last.
-/

namespace DeviceLog

structure Header where
  schema : Schema
  codec : Codec
  /-- The entries other than the schema and the codec. -/
  metadata : Metadata
  marker : Marker
  deriving DecidableEq

namespace Header

def magic : Bytes := [0x4F, 0x62, 0x6A, 0x01]

def schemaKey : String := "avro.schema"

def codecKey : String := "avro.codec"

/-- The name of the entry that says who made the log. -/
def creatorKey : String := "creator"

/-- What logs made here say in that entry. -/
def ownCreator : String := "device-state-engine"

def new (schema : Schema) (codec : Codec) (marker : Marker) : Header :=
  ⟨schema, codec, Metadata.empty.insert creatorKey (Utf8.encode ownCreator), marker⟩

/-- Who made the log, if it says so in UTF-8. -/
def creator? (h : Header) : Option String := (h.metadata.find? creatorKey).bind Utf8.decode?

/-! ## Writing -/

def entries (h : Header) : List (String × Bytes) :=
  (schemaKey, Utf8.encode h.schema.document) :: (codecKey, Utf8.encode h.codec.name)
    :: h.metadata.entries

def encodeEntry (e : String × Bytes) : Bytes := Wire.encodeString e.1 ++ Wire.encodeBytes e.2

/-- The bytes of a header up to its marker. -/
def encodeFront (h : Header) : Bytes :=
  magic ++ Wire.encodeLength h.entries.length ++ h.entries.flatMap encodeEntry ++ Wire.encodeLength 0

def encode (h : Header) : Bytes := h.encodeFront ++ h.marker.bytes

/-! ## Reading -/

def readEntry : Wire.Reader (String × Bytes) := do
  let name ← Wire.string
  let value ← Wire.bytes
  return (name, value)

/-- The number of entries that a count stands for, after the size that follows a negative count. -/
def entryCount (n : Int64) : Wire.Reader Nat :=
  if 0 ≤ n.toInt then Action.done n.toInt.toNat
  else if n = Int64.minValue then Action.fail (.malformed .entryCountOverflow)
  else do
    -- The size of a block only helps those who want to pass over it.
    let _ ← Wire.length
    return (-n.toInt).toNat

/-- Reads the entries of the blocks up to the count of zero, after those already read. -/
def readBlocks (before : List (String × Bytes)) : Nat → Wire.Reader (List (String × Bytes))
  -- A block takes a byte at least, and there is a turn for every byte and one more.
  | 0 => Action.fail .endOfData
  | turns + 1 => do
    let n ← Varint.decode
    if n = 0 then return before
    let count ← entryCount n
    let found ← Action.times readEntry count
    readBlocks (before ++ found) turns

def readEntries : Wire.Reader (List (String × Bytes)) := fun bytes =>
  readBlocks [] (bytes.length + 1) bytes

def readMagic : Wire.Reader Unit := do
  let found ← Wire.take magic.length
  if found = magic then return () else Action.fail (.malformed (.badMagic found))

def readMarker : Wire.Reader Marker := do
  match Marker.ofBytes? (← Wire.take Marker.size) with
  | some marker => return marker
  | none => Action.fail .endOfData

/-- The codec that an entry names; none is no compression. -/
def codecOf : Option Bytes → Except FormatError Codec
  | none => .ok .null
  | some bytes =>
    let name := Utf8.decodeLossy bytes
    match Codec.ofName? name Codec.defaultLevel with
    | some codec => .ok codec
    | none => .error (.unsupportedCodec name)

def schemaOf : Option Bytes → Except FormatError Schema
  | none => .error (.malformed .noSchema)
  | some bytes =>
    match Schema.ofDocument bytes with
    | .ok schema => .ok schema
    | .error e => .error (.badSchema e)

/-- The header of the entries of a map and a marker. -/
def ofEntries (entries : List (String × Bytes)) (marker : Marker) : Except FormatError Header := do
  let all := Metadata.ofList entries
  -- Where schema and codec are both at fault, the schema is named.
  let schema ← schemaOf (all.find? schemaKey)
  let codec ← codecOf (all.find? codecKey)
  return ⟨schema, codec, (all.erase schemaKey).erase codecKey, marker⟩

/-- Reads a header. The level of its codec is the standard one. -/
def read : Wire.Reader Header := do
  readMagic
  let entries ← readEntries
  let marker ← readMarker
  Action.ofExcept (ofEntries entries marker)

end Header

end DeviceLog
