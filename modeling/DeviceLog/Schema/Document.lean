import DeviceLog.Json.Decode
import DeviceLog.Json.Value
import DeviceLog.Schema.Basic
import DeviceLog.Text.Utf8

/-! # Schema documents

A log holds its schema as a JSON document: an object that says it describes a record, with the
name, the namespace if there is one, and the list of fields.

* `Schema.toJson` and `Schema.document` write it.
* `Schema.ofDocument` reads it, in any order of members and with members of other names.
-/

namespace DeviceLog

/-! ## Writing -/

def Field.toJson (f : Field) : Json.Value :=
  .object [("name", .text f.name), ("type", .text f.type.label)]

namespace Schema

def toJson (s : Schema) : Json.Value :=
  let scope := match s.scope with
    | some n => [("namespace", Json.Value.text n)]
    | none => []
  .object ([("type", .text "record"), ("name", .text s.name)] ++ scope
    ++ [("fields", .list (s.fields.map Field.toJson))])

def document (s : Schema) : String := s.toJson.render

end Schema

/-! ## Reading -/

def FieldType.decoder : Json.Decoder FieldType :=
  .choice (FieldType.all.map fun t => (t.label, t))

structure Field.Draft where
  name : Option String := none
  type : Option FieldType := none

def Field.layout : Json.Layout Field.Draft Field where
  name := "Field"
  blank := {}
  members := [
    { name := "name", required := true, given := fun d => d.name.isSome,
      read := fun d => do return { d with name := some (← .text) } },
    { name := "type", required := true, given := fun d => d.type.isSome,
      read := fun d => do return { d with type := some (← FieldType.decoder) } }]
  build d := do
    let name ← d.name
    let type ← d.type
    return { name := name, type := type }

structure Schema.Draft where
  tag : Option Unit := none
  name : Option String := none
  scope : Option (Option String) := none
  fields : Option (List Field) := none

def Schema.layout : Json.Layout Schema.Draft Schema where
  name := "Schema"
  blank := {}
  members := [
    { name := "type", required := true, given := fun d => d.tag.isSome,
      read := fun d => do return { d with tag := some (← .choice [("record", ())]) } },
    { name := "name", required := true, given := fun d => d.name.isSome,
      read := fun d => do return { d with name := some (← .text) } },
    { name := "namespace", required := false, given := fun d => d.scope.isSome,
      read := fun d => do return { d with scope := some (← .optional .text) } },
    { name := "fields", required := true, given := fun d => d.fields.isSome,
      read := fun d => do return { d with fields := some (← .list Field.layout.read) } }]
  build d := do
    let name ← d.name
    let fields ← d.fields
    return { name := name, scope := d.scope.join, fields := fields }

def Schema.ofDocument (document : Bytes) : Except Json.Error Schema :=
  Json.decode Schema.layout.read document

end DeviceLog
