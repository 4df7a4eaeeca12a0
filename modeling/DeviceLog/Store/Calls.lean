import DeviceLog.Locks.Threads
import DeviceLog.Store.Basic

/-! # Threads that share a store

Threads save and read at the same time. A save checks its update and makes directories first; it
opens, writes and closes the log under the lock of its path, each in a step of its own. A read is one
step under the lock of its path.
-/

namespace DeviceLog

/-- How a call to a store ends. -/
inductive StoreAnswer where
  | saved (outcome : Except StoreError Unit)
  | records (outcome : Except StoreError (List DeviceRecord))

/-- A call to a store. Paths that are the same have one lock. -/
abbrev StoreCall := Call (List String) FileSystem StoreAnswer

namespace Store

/-- Turns the outcome of a step into the end of a save, or into the work after it. -/
def afterStep {α : Type} (next : α → Work FileSystem StoreAnswer) :
    Except LogError α × FileSystem → Work FileSystem StoreAnswer × FileSystem
  | (.ok a, fs) => (next a, fs)
  | (.error e, fs) => (.finish (.saved (.error (.log e))), fs)

/-- The last step of a save: closes the log. -/
def closeWork (a : Appender) : Work FileSystem StoreAnswer :=
  .step fun fs => afterStep (fun () => .finish (.saved (.ok ()))) (a.close fs)

/-- What is left of a save once the log is open: appends the record and closes the log. -/
def appendWork (record : DeviceRecord) (a : Appender) : Work FileSystem StoreAnswer :=
  .step fun fs =>
    match Appender.append record.toDatum (a, fs) with
    | (.error e, _, fs) => (.finish (.saved (.error (.log e))), fs)
    | (.ok (), a, fs) => (closeWork a, fs)

/-- The work of a save: opens the log, appends the record and closes the log. -/
def saveWork (s : Store) (marker : Marker) (path : Path) (record : DeviceRecord) :
    Work FileSystem StoreAnswer :=
  .step fun fs =>
    afterStep (appendWork record) (Appender.open path DeviceRecord.schema s.codec marker fs)

/-- The work of a read, which is one step. -/
def readWork (path : Path) : Work FileSystem StoreAnswer :=
  .step fun fs =>
    match recordsAt fs path with
    | .ok records => (.finish (.records (.ok records)), fs)
    | .error e => (.finish (.records (.error (.log e))), fs)

def saveCall (s : Store) (marker : Marker) (u : StateUpdate) (instant : Instant) : StoreCall where
  prepare fs :=
    match s.prepare u instant fs with
    | (.error e, fs) => (.result (.saved (.error e)), fs)
    | (.ok (record, path), fs) => (.under path.names (s.saveWork marker path record), fs)

def readCall (s : Store) (namespaceId deviceId : String) (instant : Instant) : StoreCall where
  prepare fs :=
    match checkIds namespaceId deviceId with
    | .error e => (.result (.records (.error e)), fs)
    | .ok () =>
      let path := s.pathOf (.of namespaceId deviceId instant)
      (.under path.names (readWork path), fs)

end Store

end DeviceLog
