import DeviceLog.Deflate.Compress
import DeviceLog.Deflate.Expand
import DeviceLog.Wire.Error

/-! # Compression of blocks

A log states by name how its blocks are compressed: not at all, or as deflate streams. The level
says how hard the writer tries and is not stated.
-/

namespace DeviceLog

/-- How the blocks of a log are compressed. -/
inductive Codec where
  | null
  | deflate (level : Nat)
  deriving DecidableEq, Repr

namespace Codec

def defaultLevel : Nat := 5

/-- How blocks are compressed where nothing is chosen. -/
def standard : Codec := deflate defaultLevel

def name : Codec → String
  | null => "null"
  | deflate _ => "deflate"

def ofName? (name : String) (level : Nat) : Option Codec :=
  if name = "null" then some null
  else if name = "deflate" then some (deflate level)
  else none

def compress : Codec → Bytes → Bytes
  | null, data => data
  | deflate level, data => Deflate.compress level data

def decompress : Codec → Bytes → Except FormatError Bytes
  | null, payload => .ok payload
  | deflate _, payload =>
    match Deflate.expand payload with
    | .ok data => .ok data
    | .error e => .error (.malformed (.badPayload e))

end Codec

end DeviceLog
