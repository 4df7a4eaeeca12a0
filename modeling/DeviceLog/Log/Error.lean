import DeviceLog.Schema.Basic
import DeviceLog.Storage.FileSystem
import DeviceLog.Wire.Error

/-! # What can go wrong with a log

The file system may refuse, schemas may differ, or the bytes of the file may be none of a log.
-/

namespace DeviceLog

/-- Which schemas or values do not fit together. -/
inductive Mismatch where
  /-- The log at a path states a schema with other fields than the caller's. -/
  | stated (path : Path) (schema : String) (difference : Schema.Difference)
  /-- The log at a path holds other records than the ones wanted. -/
  | wanted (path : Path) (difference : Schema.Difference)
  /-- Values are no record of the log's schema. -/
  | values (fault : Schema.Fault)
  | noDeviceRecord
  deriving DecidableEq

/-- Why a log cannot be read or written. -/
inductive LogError where
  | io (e : IoError)
  | mismatch (m : Mismatch)
  | corrupt (e : FormatError)

def Mismatch.message : Mismatch → String
  | stated path schema difference =>
    path.text ++ " embeds schema " ++ schema ++ ": " ++ difference.message
  | wanted path difference => path.text ++ ": " ++ difference.message
  | values fault => fault.message
  | noDeviceRecord => "values do not form a DeviceState record"

def LogError.message : LogError → String
  | io e => "io error: " ++ e.name
  | mismatch m => "schema mismatch: " ++ m.message
  | corrupt e => "corrupt log: " ++ e.message

end DeviceLog
