import DeviceLog.Partition.Calendar
import DeviceLog.Storage.Path

/-! # Partitions

A record belongs to the partition of its namespace, its device, and the hour in which it arrives. A
partition is one log, whose path is made of these.
-/

namespace DeviceLog

/-- What records of one log have in common. -/
structure PartitionKey where
  namespaceId : String
  deviceId : String
  date : Date
  hour : Nat
  deriving DecidableEq, Repr

namespace PartitionKey

/-- The partition of an instant, by the date and hour of its zone. -/
def of (namespaceId deviceId : String) (instant : Instant) : PartitionKey :=
  ⟨namespaceId, deviceId, instant.date, instant.hour⟩

/-- The directory of a partition under the root: namespace, device, date and hour. -/
def directory (k : PartitionKey) : Path :=
  (((Path.mk k.namespaceId).join ⟨k.deviceId⟩).join ⟨k.date.text⟩).join ⟨toString k.hour⟩

def fileName (k : PartitionKey) : String := "device_state_" ++ k.deviceId ++ ".avro"

def directoryUnder (k : PartitionKey) (root : Path) : Path := root.join k.directory

def pathUnder (k : PartitionKey) (root : Path) : Path := (k.directoryUnder root).join ⟨k.fileName⟩

end PartitionKey

end DeviceLog
