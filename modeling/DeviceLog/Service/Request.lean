import DeviceLog.Device.Record

/-! # Requests

The body of a request is a JSON document with the members of an update. Its blobs are base64 texts;
they and the version may be missing, and then they are empty and zero.
-/

namespace DeviceLog

namespace StateUpdate

def blob : Json.Decoder Bytes := fun tokens =>
  match Json.Decoder.text tokens with
  | (.error e, rest) => (.error e, rest)
  | (.ok s, rest) =>
    match Base64.decode (Utf8.encode s) with
    | .ok bytes => (.ok bytes, rest)
    | .error e => (.error (.shape (.base64 e)), rest)

/-- How the body of a request is read. -/
def requestLayout : Json.Layout Draft StateUpdate where
  name := "SetDeviceStateRequest"
  blank := {}
  members := [
    { name := "deviceId", required := true, given := fun d => d.deviceId.isSome,
      read := fun d => do return { d with deviceId := some (← .text) } },
    { name := "namespaceId", required := true, given := fun d => d.namespaceId.isSome,
      read := fun d => do return { d with namespaceId := some (← .text) } },
    { name := "version", required := false, given := fun d => d.version.isSome,
      read := fun d => do return { d with version := some (← .unsigned) } },
    { name := "reportedState", required := false, given := fun d => d.reported.isSome,
      read := fun d => do return { d with reported := some (← blob) } },
    { name := "desiredState", required := false, given := fun d => d.desired.isSome,
      read := fun d => do return { d with desired := some (← blob) } }]
  build d := do
    return {
      deviceId := ← d.deviceId
      namespaceId := ← d.namespaceId
      version := d.version.getD 0
      reported := d.reported.getD []
      desired := d.desired.getD [] }

/-- The update in the body of a request. -/
def ofRequest (body : Bytes) : Except Json.Error StateUpdate :=
  Json.decode requestLayout.read body

def blobText (bytes : Bytes) : String := Utf8.decodeLossy (Base64.encode bytes)

/-- The body of a request with an update. -/
def toRequest (u : StateUpdate) : Json.Value :=
  .object [("deviceId", .text u.deviceId), ("namespaceId", .text u.namespaceId),
    ("version", .integer u.version.toNat), ("reportedState", .text (blobText u.reported)),
    ("desiredState", .text (blobText u.desired))]

end StateUpdate

end DeviceLog
