import DeviceLog.Device.Id
import DeviceLog.Device.Record
import DeviceLog.Log.Appender
import DeviceLog.Log.Contents
import DeviceLog.Partition.Key

/-! # The store

The store keeps every update as one record at the end of the log of its partition.

* `Store.save` keeps an update: `Store.prepare` checks it and makes the directory, and
  `Store.keep` appends the record. Only the second needs the log to be held.
* `Store.read` reads a partition. One that was never written has no records.
* `Store.set` says no more than whether an update was kept.
-/

namespace DeviceLog

/-- Where records are kept, and how new logs are compressed. -/
structure Store where
  root : Path
  codec : Codec := .standard

/-- Why an update is not kept or a partition is not read. -/
inductive StoreError where
  | id (e : IdError)
  | directory (path : Path) (e : IoError)
  | version (e : VersionError)
  | log (e : LogError)

def StoreError.message : StoreError → String
  | id e => "invalid id: " ++ e.message
  | directory path e =>
    "failed to create partition directory " ++ path.text ++ ": " ++ e.name
  | version e => "encoding error: " ++ e.message
  | log e => e.message

/-- An action on the file system that may fail as a store does. -/
abbrev StoreAct (α : Type) := Action StoreError FileSystem α

namespace Store

def pathOf (s : Store) (k : PartitionKey) : Path := k.pathUnder s.root

/-- Makes the directory of a partition, and yields the path of the log in it. -/
def resolve (s : Store) (k : PartitionKey) : StoreAct Path := fun fs =>
  let directory := k.directoryUnder s.root
  match FileSystem.makeDirectories directory fs with
  | (.ok (), fs) => (.ok (directory.join ⟨k.fileName⟩), fs)
  | (.error e, fs) => (.error (.directory directory e), fs)

def checkIds (namespaceId deviceId : String) : Except StoreError Unit :=
  match IdKind.namespaceId.check namespaceId with
  | .error e => .error (.id e)
  | .ok () =>
    match IdKind.deviceId.check deviceId with
    | .error e => .error (.id e)
    | .ok () => .ok ()

/-- The record of an update whose ids and version can be kept. -/
def recordOf (u : StateUpdate) : Except StoreError DeviceRecord :=
  match checkIds u.namespaceId u.deviceId with
  | .error e => .error e
  | .ok () =>
    match DeviceRecord.ofUpdate u with
    | .error e => .error (.version e)
    | .ok r => .ok r

/-- Checks an update and makes the directory that its log is in. -/
def prepare (s : Store) (u : StateUpdate) (instant : Instant) : StoreAct (DeviceRecord × Path) := do
  let record ← Action.ofExcept (recordOf u)
  let path ← s.resolve (.of u.namespaceId u.deviceId instant)
  return (record, path)

/-- Appends a record to an open log and closes it. -/
def appendAndClose (record : DeviceRecord) (a : Appender) : LogAct Unit := fun fs =>
  match Appender.append record.toDatum (a, fs) with
  | (.error e, _, fs) => (.error e, fs)
  | (.ok (), a, fs) => a.close fs

/-- Appends a record to the log at a path. -/
def keep (s : Store) (marker : Marker) (path : Path) (record : DeviceRecord) : LogAct Unit := do
  let a ← Appender.open path DeviceRecord.schema s.codec marker
  appendAndClose record a

/-- Keeps an update. If its log has to be made, it gets the marker. -/
def save (s : Store) (marker : Marker) (u : StateUpdate) (instant : Instant) : StoreAct Unit := do
  let (record, path) ← s.prepare u instant
  (s.keep marker path record).mapError .log

/-- The records of the log at a path; there are none if there is no log. -/
def recordsAt (fs : FileSystem) (path : Path) : Except LogError (List DeviceRecord) :=
  if fs.exists? path then do (← Contents.load fs path).records else .ok []

def read (s : Store) (namespaceId deviceId : String) (instant : Instant) (fs : FileSystem) :
    Except StoreError (List DeviceRecord) :=
  match checkIds namespaceId deviceId with
  | .error e => .error e
  | .ok () =>
    match recordsAt fs (s.pathOf (.of namespaceId deviceId instant)) with
    | .error e => .error (.log e)
    | .ok records => .ok records

/-- Keeps an update, and says whether that went well. -/
def set (s : Store) (marker : Marker) (u : StateUpdate) (instant : Instant) (fs : FileSystem) :
    Response × FileSystem :=
  match s.save marker u instant fs with
  | (.ok (), fs) => (⟨true⟩, fs)
  | (.error _, fs) => (⟨false⟩, fs)

end Store

end DeviceLog
