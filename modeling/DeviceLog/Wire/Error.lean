import DeviceLog.Deflate.Bits
import DeviceLog.Json.Error
import DeviceLog.Text.Utf8

/-! # What can be wrong with the bytes of a log

Bytes either end too early, which is how an interrupted write shows, or they are malformed, or they
name a compression or state a schema that is not supported.
-/

namespace DeviceLog

/-- Why bytes are malformed. -/
inductive Malformed where
  | longVarint
  | negativeLength (n : Int64)
  | notText (e : Utf8.Error)
  /-- A truth value other than 0 and 1. -/
  | badBoolean (b : UInt8)
  /-- A number that does not fit in 32 bits. -/
  | intOutOfRange (n : Int64)
  /-- A file that begins with other bytes than a log does. -/
  | badMagic (found : Bytes)
  /-- The one negative count whose opposite is not a number of 64 bits. -/
  | entryCountOverflow
  | noSchema
  | badPayload (e : Deflate.Error)
  /-- A block that ends in another marker than the header's. -/
  | foreignMarker
  /-- Bytes of a block that are left after its records. -/
  | trailing (count : Nat)
  deriving DecidableEq, Repr

/-- Why bytes of a log cannot be read. -/
inductive FormatError where
  | endOfData
  | malformed (cause : Malformed)
  /-- The header names a compression that is not known. -/
  | unsupportedCodec (name : String)
  | badSchema (e : Json.Error)

def Malformed.message : Malformed → String
  | longVarint => "varint longer than 10 bytes"
  | negativeLength n => "negative length " ++ toString n.toInt
  | notText e => "string is not utf-8: " ++ e.message
  | badBoolean b => "invalid boolean byte " ++ toString b.toNat
  | intOutOfRange n => "int out of range: " ++ toString n.toInt
  | badMagic found =>
    "bad magic [" ++ String.intercalate ", " (found.map Text.hexByte) ++ "], not a container file"
  | entryCountOverflow => "metadata block count overflow"
  | noSchema => "header has no avro.schema"
  | badPayload e => "deflate: " ++ e.message
  | foreignMarker => "sync marker mismatch"
  | trailing count => toString count ++ " trailing bytes after block datums"

/-- What bytes that cannot be read are described as. -/
def FormatError.message : FormatError → String
  | endOfData => "unexpected end of data"
  | malformed cause => "malformed data: " ++ cause.message
  | unsupportedCodec name => "unsupported codec: " ++ name
  | badSchema e => "invalid schema: " ++ e.message

end DeviceLog
