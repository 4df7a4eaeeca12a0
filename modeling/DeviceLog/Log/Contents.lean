import DeviceLog.Container.Block
import DeviceLog.Device.Record
import DeviceLog.Log.Error

/-! # Reading logs

A log is read whole: its header first, then the records of its blocks. Either all of its records
are read or none.
-/

namespace DeviceLog

/-- A log that has been read up to the end of its header. -/
structure Contents where
  path : Path
  header : Header
  body : Bytes

namespace Contents

/-- Reads the file at a path and the header in it. -/
def load (fs : FileSystem) (path : Path) : Except LogError Contents :=
  match fs.read path with
  | .error e => .error (.io e)
  | .ok bytes =>
    match Header.read bytes with
    | (.ok header, body) => .ok ⟨path, header, body⟩
    | (.error e, _) => .error (.corrupt e)

/-- All records, in the order in which they were appended. -/
def values (c : Contents) : Except LogError (List Datum) :=
  match c.header.datums c.body with
  | .ok datums => .ok datums
  | .error e => .error (.corrupt e)

def deviceRecord (datum : Datum) : Except LogError DeviceRecord :=
  match DeviceRecord.ofDatum? datum with
  | some r => .ok r
  | none => .error (.mismatch .noDeviceRecord)

/-- All records, as the device records that they are. -/
def records (c : Contents) : Except LogError (List DeviceRecord) :=
  match DeviceRecord.schema.difference c.header.schema with
  | some d => .error (.mismatch (.wanted c.path d))
  | none => do (← c.values).mapM deviceRecord

def count (c : Contents) : Except LogError Nat := do return (← c.values).length

end Contents

end DeviceLog
