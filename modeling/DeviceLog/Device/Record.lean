import DeviceLog.Json.Decode
import DeviceLog.Json.Value
import DeviceLog.Schema.Basic

/-! # Updates and records

A device reports its state in an update: its ids, a version, and two blobs of bytes. What is kept
is a record, which holds the blobs as text.

* `DeviceRecord.ofUpdate` turns an update into a record.
* `DeviceRecord.schema`, `toDatum` and `ofDatum?` tie records to logs.
* `toJson` and `layout` write and read updates and records as JSON.
-/

namespace DeviceLog

/-- A report of a device about its state. -/
structure StateUpdate where
  deviceId : String
  namespaceId : String
  version : UInt64
  reported : Bytes := []
  desired : Bytes := []
  deriving DecidableEq

/-- A report as it is kept. -/
structure DeviceRecord where
  deviceId : String
  version : Int64
  namespaceId : String
  reported : String
  desired : String
  deriving DecidableEq

/-- A version above the greatest one that a record holds. -/
structure VersionError where
  version : UInt64
  deriving DecidableEq

def VersionError.message (e : VersionError) : String :=
  "version " ++ toString e.version.toNat ++ " does not fit in a signed 64-bit long"

namespace DeviceRecord

/-- The record of an update. Bytes of a blob that are not UTF-8 become replacement characters. -/
def ofUpdate (u : StateUpdate) : Except VersionError DeviceRecord :=
  if u.version.toNat ≤ Int64.maxValue.toInt then
    .ok {
      deviceId := u.deviceId
      version := Int64.ofNat u.version.toNat
      namespaceId := u.namespaceId
      reported := Utf8.decodeLossy u.reported
      desired := Utf8.decodeLossy u.desired }
  else .error ⟨u.version⟩

/-! ## Records in logs -/

/-- The schema of the logs that hold records. -/
def schema : Schema where
  name := "DeviceState"
  scope := some "devstate"
  fields := [⟨"deviceId", .string⟩, ⟨"version", .long⟩, ⟨"namespaceId", .string⟩,
    ⟨"reportedState", .string⟩, ⟨"desiredState", .string⟩]

def toDatum (r : DeviceRecord) : Datum :=
  [.string r.deviceId, .long r.version, .string r.namespaceId, .string r.reported,
    .string r.desired]

def ofDatum? : Datum → Option DeviceRecord
  | [.string deviceId, .long version, .string namespaceId, .string reported, .string desired] =>
    some ⟨deviceId, version, namespaceId, reported, desired⟩
  | _ => none

/-- The values of a record give it back. -/
@[simp] theorem ofDatum?_toDatum (r : DeviceRecord) : ofDatum? r.toDatum = some r := rfl

/-- The values of a record fit its schema. -/
theorem fault_toDatum (r : DeviceRecord) : schema.fault r.toDatum = none := rfl

/-! ## Records as JSON -/

def toJson (r : DeviceRecord) : Json.Value :=
  .object [("device_id", .text r.deviceId), ("version", .integer r.version.toInt),
    ("namespace_id", .text r.namespaceId), ("reported_state", .text r.reported),
    ("desired_state", .text r.desired)]

structure Draft where
  deviceId : Option String := none
  version : Option Int64 := none
  namespaceId : Option String := none
  reported : Option String := none
  desired : Option String := none

def layout : Json.Layout Draft DeviceRecord where
  name := "DeviceStateRecord"
  blank := {}
  members := [
    { name := "device_id", required := true, given := fun d => d.deviceId.isSome,
      read := fun d => do return { d with deviceId := some (← .text) } },
    { name := "version", required := true, given := fun d => d.version.isSome,
      read := fun d => do return { d with version := some (← .signed) } },
    { name := "namespace_id", required := true, given := fun d => d.namespaceId.isSome,
      read := fun d => do return { d with namespaceId := some (← .text) } },
    { name := "reported_state", required := true, given := fun d => d.reported.isSome,
      read := fun d => do return { d with reported := some (← .text) } },
    { name := "desired_state", required := true, given := fun d => d.desired.isSome,
      read := fun d => do return { d with desired := some (← .text) } }]
  build d := do
    return ⟨← d.deviceId, ← d.version, ← d.namespaceId, ← d.reported, ← d.desired⟩

end DeviceRecord

/-! ## Updates as JSON -/

namespace StateUpdate

/-- An update as an object; its blobs are lists of numbers. -/
def toJson (u : StateUpdate) : Json.Value :=
  .object [("device_id", .text u.deviceId), ("namespace_id", .text u.namespaceId),
    ("version", .integer u.version.toNat), ("reported_state", .ofBytes u.reported),
    ("desired_state", .ofBytes u.desired)]

structure Draft where
  deviceId : Option String := none
  namespaceId : Option String := none
  version : Option UInt64 := none
  reported : Option Bytes := none
  desired : Option Bytes := none

def layout : Json.Layout Draft StateUpdate where
  name := "StateUpdate"
  blank := {}
  members := [
    { name := "device_id", required := true, given := fun d => d.deviceId.isSome,
      read := fun d => do return { d with deviceId := some (← .text) } },
    { name := "namespace_id", required := true, given := fun d => d.namespaceId.isSome,
      read := fun d => do return { d with namespaceId := some (← .text) } },
    { name := "version", required := true, given := fun d => d.version.isSome,
      read := fun d => do return { d with version := some (← .unsigned) } },
    { name := "reported_state", required := true, given := fun d => d.reported.isSome,
      read := fun d => do return { d with reported := some (← .list .byte) } },
    { name := "desired_state", required := true, given := fun d => d.desired.isSome,
      read := fun d => do return { d with desired := some (← .list .byte) } }]
  build d := do
    return ⟨← d.deviceId, ← d.namespaceId, ← d.version, ← d.reported, ← d.desired⟩

end StateUpdate

/-! ## The answer to an update -/

/-- Says whether an update was kept. -/
structure Response where
  status : Bool
  deriving DecidableEq, Repr

namespace Response

def toJson (r : Response) : Json.Value := .object [("status", .bool r.status)]

def layout : Json.Layout (Option Bool) Response where
  name := "SetDeviceStateResponse"
  blank := none
  members := [
    { name := "status", required := true, given := fun d => d.isSome,
      read := fun _ => do return some (← .bool) }]
  build d := d.map fun status => ⟨status⟩

end Response

end DeviceLog
