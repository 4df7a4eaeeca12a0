import DeviceLog.Schema.Basic
import DeviceLog.Wire.Primitive

/-! # Records as bytes

The bytes of a record are the bytes of its values, one after another. Nothing in them tells the
fields apart, so they can only be read with the schema they were written for.

* `FieldValue.encode` and `FieldType.read` are the two directions for a value.
* `Datum.encode` writes a record that fits a schema, and `Datum.append` onto bytes already there.
* `Datum.read` reads a record of a schema.
-/

namespace DeviceLog

def FieldValue.encode : FieldValue → Bytes
  | boolean b => [if b then 1 else 0]
  | int n => Varint.encode n.toInt64
  | long n => Varint.encode n
  | string s => Wire.encodeString s
  | bytes b => Wire.encodeBytes b

def Wire.boolean : Reader Bool := do
  let b ← byte
  if b = 0 then return false
  else if b = 1 then return true
  else Action.fail (.malformed (.badBoolean b))

def Wire.int : Reader Int32 := do
  let n ← Varint.decode
  if Int32.minValue.toInt ≤ n.toInt ∧ n.toInt ≤ Int32.maxValue.toInt then return n.toInt32
  else Action.fail (.malformed (.intOutOfRange n))

def FieldType.read : FieldType → Wire.Reader FieldValue
  | boolean => do return .boolean (← Wire.boolean)
  | int => do return .int (← Wire.int)
  | long => do return .long (← Varint.decode)
  | string => do return .string (← Wire.string)
  | bytes => do return .bytes (← Wire.bytes)

namespace Datum

/-- The bytes of a record of a schema. -/
def encode (schema : Schema) (datum : Datum) : Except Schema.Fault Bytes :=
  match schema.fault datum with
  | some fault => .error fault
  | none => .ok (datum.flatMap FieldValue.encode)

/-- Writes a record onto bytes already there, which a record that does not fit the schema leaves as
they are. -/
def append (schema : Schema) (datum : Datum) (buffer : Bytes) : Except Schema.Fault Unit × Bytes :=
  match encode schema datum with
  | .ok bytes => (.ok (), buffer ++ bytes)
  | .error fault => (.error fault, buffer)

def readFields : List Field → Wire.Reader Datum
  | [] => Action.done []
  | f :: fields => do
    let v ← f.type.read
    let vs ← readFields fields
    return v :: vs

def read (schema : Schema) : Wire.Reader Datum := readFields schema.fields

end Datum

end DeviceLog
