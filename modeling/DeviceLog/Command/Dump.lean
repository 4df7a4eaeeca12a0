import DeviceLog.Command.Surroundings
import DeviceLog.Log.Contents

/-! # Showing a log

A log is shown as lines of JSON: its header, and then its records. Device records are shown with
their members in the usual order; the records of other logs are objects with the fields in the order
of their names.

`dump` shows the log at a path, and `runDump` is the command that does it.
-/

namespace DeviceLog

/-- A value as JSON; bytes are a list of numbers. -/
def FieldValue.toJson : FieldValue → Json.Value
  | boolean b => .bool b
  | int n => .integer n.toInt
  | long n => .integer n.toInt
  | string s => .text s
  | bytes b => .ofBytes b

namespace Contents

def headerLine (h : Header) : String :=
  let creator := match h.creator? with
    | some name => Json.Value.text name
    | none => .null
  (Json.Value.object [("schema", h.schema.toJson), ("codec", .text h.codec.name),
    ("creator", creator)]).sorted.render

/-- The line of a record of any schema. -/
def datumLine (schema : Schema) (datum : Datum) : String :=
  (Json.Value.object ((schema.fields.map Field.name).zip (datum.map FieldValue.toJson))).sorted.render

def recordLines (c : Contents) : Except LogError (List String) :=
  match c.records with
  | .ok records => .ok (records.map fun r => r.toJson.render)
  -- The log holds other records. They are shown by the fields of its schema.
  | .error (.mismatch _) =>
    match c.values with
    | .ok datums => .ok (datums.map (datumLine c.header.schema))
    | .error e => .error e
  | .error e => .error e

end Contents

/-- Shows the log at a path. If its records cannot be read none of them is shown. -/
def dump (fs : FileSystem) (path : Path) : Report :=
  match Contents.load fs path with
  | .error _ => .failed [] ("failed to read " ++ path.text)
  | .ok c =>
    let header := Contents.headerLine c.header
    match c.recordLines with
    | .ok lines => .success (header :: lines)
    | .error e => .failed [header] e.message

/-- Shows the log at a path, if the command can begin. -/
def runDump (env : Environment) (fs : FileSystem) (path : Path) : Report :=
  match withNearest? env fs with
  | none => .brokenDown
  | some _ => dump fs path

end DeviceLog
