import DeviceLog.Main
import DeviceLog.Locks.Nested
import DeviceLog.Service.Http
import DeviceLog.Store.Calls
import DeviceLog.Proofs.Lookup
import DeviceLog.Proofs.Text.Utf8
import DeviceLog.Proofs.Wire.Reads
import DeviceLog.Proofs.Wire.Exact
import DeviceLog.Proofs.Json.Spelling
import DeviceLog.Proofs.Schema.Document
import DeviceLog.Proofs.Container.Header
import DeviceLog.Proofs.Container.Block
import DeviceLog.Proofs.Storage.Files
import DeviceLog.Proofs.Storage.Path
import DeviceLog.Proofs.Storage.Walk
import DeviceLog.Proofs.Log.Content
import DeviceLog.Proofs.Storage.Directories
import DeviceLog.Proofs.Log.Appender
import DeviceLog.Proofs.Partition.Calendar
import DeviceLog.Proofs.Partition.Key
import DeviceLog.Proofs.Store.Keep
import DeviceLog.Proofs.Store.Invariant
import DeviceLog.Proofs.Store.Save
import DeviceLog.Proofs.Store.Runs
import DeviceLog.Proofs.Store.Failure
import DeviceLog.Proofs.Log.Opening
import DeviceLog.Proofs.Log.Recovery
import DeviceLog.Proofs.Log.Damage
import DeviceLog.Proofs.Log.Handle
import DeviceLog.Proofs.Locks.Registry
import DeviceLog.Proofs.Locks.Exclusion
import DeviceLog.Proofs.Locks.Progress
import DeviceLog.Proofs.Locks.Entries
import DeviceLog.Proofs.Store.Steps
import DeviceLog.Proofs.Store.Requests
import DeviceLog.Proofs.Store.Linear
import DeviceLog.Proofs.Container.Exact
import DeviceLog.Proofs.Partition.Days
import DeviceLog.Proofs.Store.Paths
import DeviceLog.Proofs.Log.Readable
import DeviceLog.Proofs.Store.Outcome
import DeviceLog.Proofs.Store.AppendOnly
import DeviceLog.Proofs.Store.Acknowledged
import DeviceLog.Locks.Guarded
import DeviceLog.Proofs.Wire.Varint
import DeviceLog.Proofs.Container.Grammar
import DeviceLog.Proofs.Locks.Waiting
import DeviceLog.Proofs.Text.Base64
import DeviceLog.Proofs.Deflate.Blocks
import DeviceLog.Proofs.Json.Size
import DeviceLog.Proofs.Json.Number
import DeviceLog.Proofs.Storage.Making
import DeviceLog.Proofs.Service.Body
import DeviceLog.Proofs.Store.Adds
import DeviceLog.Proofs.Store.Fits
import DeviceLog.Proofs.Service.Replies
import DeviceLog.Proofs.Log.Tail
import DeviceLog.Proofs.Log.Reopening
import DeviceLog.Proofs.Log.Mismatch
import DeviceLog.Proofs.Log.RollBack
import DeviceLog.Proofs.Wire.Datum
import DeviceLog.Proofs.Container.Stream
import DeviceLog.Proofs.Container.Truncation
import DeviceLog.Proofs.Container.Layout
import DeviceLog.Proofs.Text.Pieces
import DeviceLog.Proofs.Log.Records
import DeviceLog.Proofs.Container.Effort
import DeviceLog.Proofs.Json.Grammar
import DeviceLog.Proofs.Json.Line
import DeviceLog.Proofs.Command.Dump
import DeviceLog.Proofs.Schema.Difference
import DeviceLog.Proofs.Service.Settings
import DeviceLog.Proofs.Text.Mended
