import DeviceLog.Container.Block
import DeviceLog.Log.Error

/-! # Appending to logs

An appender writes records to the end of one log, each in a block of its own.

* `Appender.open` makes the log if there is none. What an interrupted write has left behind is cut
  off first: part of a header, or part of a block.
* `Appender.append` writes a record. A write that fails takes the log back to the length it had when
  the appender was opened.
* `Appender.close` makes sure that everything stays.
-/

namespace DeviceLog

structure Appender where
  path : Path
  place : Place
  header : Header
  /-- The length that the log is taken back to when a write fails. -/
  kept : Nat
  /-- Whether the header was written by this appender. -/
  created : Bool
  /-- How many records were appended since the appender was opened or last taken back. -/
  appended : Nat

/-- An action on the file system that may fail as logs do. -/
abbrev LogAct (α : Type) := Action LogError FileSystem α

namespace Appender

/-! ## Opening -/

/-- Writes the header of a new log into an empty file. -/
def create (path : Path) (place : Place) (header : Header) : LogAct Appender := fun fs =>
  match FileSystem.append place header.encode fs with
  | (.ok (), fs) => (.ok ⟨path, place, header, 0, true, 0⟩, fs)
  | (.error e, fs) => (.error (.io e), (FileSystem.setLength place 0 fs).2)

/-- Whether a body ends as a whole log does: there is nothing after the header, or the marker is at
the end. -/
def looksWhole (header : Header) (body : Bytes) : Bool :=
  body = [] ∨ (Marker.size ≤ body.length ∧ body.drop (body.length - Marker.size) = header.marker.bytes)

/-- How much of a body is kept when the log is opened: all of it if it looks whole, and otherwise
the blocks up to the first that cannot be read. -/
def keptOf (header : Header) (body : Bytes) : Nat :=
  if looksWhole header body then body.length else header.intact body

def resume (path : Path) (place : Place) (header : Header) (content body : Bytes) (schema : Schema) :
    LogAct Appender := fun fs =>
  match header.schema.difference schema with
  | some d => (.error (.mismatch (.stated path header.schema.name d)), fs)
  | none =>
    let kept := content.length - body.length + keptOf header body
    if looksWhole header body then (.ok ⟨path, place, header, kept, false, 0⟩, fs)
    else
      match FileSystem.setLength place kept fs with
      | (.ok (), fs) => (.ok ⟨path, place, header, kept, false, 0⟩, fs)
      | (.error e, fs) => (.error (.io e), fs)

/-- Whether bytes may be the first ones of a log. -/
def mayBegin (content : Bytes) : Bool := (content.take Header.magic.length).isPrefixOf Header.magic

/-- Opens the log at a path for records of a schema. A log that is made here has that schema, the
codec and the marker; a log that is there keeps its own, and its fields must be the same. -/
def «open» (path : Path) (schema : Schema) (codec : Codec) (marker : Marker) : LogAct Appender :=
  fun fs =>
    match FileSystem.openFile path fs with
    | (.error e, fs) => (.error (.io e), fs)
    | (.ok (place, _), fs) =>
      let content := (fs.content? place).getD []
      let fresh := create path place (Header.new schema codec marker)
      if content = [] then fresh fs
      else
        match Header.read content with
        | (.ok header, body) => resume path place header content body schema fs
        | (.error .endOfData, _) =>
          -- No record was written behind a header that is cut off, so the log is begun again.
          if mayBegin content then
            match FileSystem.setLength place 0 fs with
            | (.ok (), fs) => fresh fs
            | (.error e, fs) => (.error (.io e), fs)
          else (.error (.corrupt .endOfData), fs)
        | (.error e, _) => (.error (.corrupt e), fs)

/-! ## Appending -/

/-- Takes the log back to the length it had. -/
def rollBack (a : Appender) (fs : FileSystem) : Appender × FileSystem :=
  match FileSystem.setLength a.place a.kept fs with
  | (.ok (), fs) => ({ a with appended := 0 }, fs)
  -- The count stays too, since the records do.
  | (.error _, fs) => (a, fs)

def blockOf (header : Header) (datum : Datum) : Except Schema.Fault Bytes :=
  match Datum.encode header.schema datum with
  | .ok data => .ok (Block.encode header ⟨1, data⟩)
  | .error fault => .error fault

/-- Appends a record. One that does not fit the schema of the log changes nothing. -/
def append (datum : Datum) : Action LogError (Appender × FileSystem) Unit := fun (a, fs) =>
  match blockOf a.header datum with
  | .error fault => (.error (.mismatch (.values fault)), a, fs)
  | .ok block =>
    match FileSystem.append a.place block fs with
    | (.ok (), fs) => (.ok (), { a with appended := a.appended + 1 }, fs)
    | (.error e, fs) => (.error (.io e), a.rollBack fs)

/-- Makes sure that what was appended stays, and gives the log up. -/
def close (a : Appender) : LogAct Unit := fun fs =>
  match FileSystem.sync fs with
  | (.ok (), fs) => (.ok (), fs)
  -- Which of the records would stay is not known, so none is kept.
  | (.error e, fs) => (.error (.io e), (a.rollBack fs).2)

end Appender

end DeviceLog
