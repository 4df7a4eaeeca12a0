import DeviceLog.Action

/-! # Schemas

A log states the shape of its records: a name, perhaps a namespace, and a list of fields with a
type each. A record is a list of values, one for every field.

* `Schema.difference` tells how the fields of two schemas differ; names of schemas do not count.
* `Schema.fault` tells how a list of values fails to be a record of a schema.
-/

namespace DeviceLog

inductive FieldType where
  | boolean
  | int
  | long
  | string
  | bytes
  deriving DecidableEq, Repr

structure Field where
  name : String
  type : FieldType
  deriving DecidableEq, Repr

/-- The shape of the records of a log. -/
structure Schema where
  name : String
  scope : Option String := none
  fields : List Field
  deriving DecidableEq, Repr

inductive FieldValue where
  | boolean (b : Bool)
  | int (n : Int32)
  | long (n : Int64)
  | string (s : String)
  | bytes (b : Bytes)
  deriving DecidableEq

/-- A record as the values of its fields, in the order of the schema. -/
abbrev Datum := List FieldValue

namespace FieldType

/-- The name of a type in a schema document. -/
def label : FieldType → String
  | boolean => "boolean"
  | int => "int"
  | long => "long"
  | string => "string"
  | bytes => "bytes"

/-- The name of a type in a message. -/
def title : FieldType → String
  | boolean => "Boolean"
  | int => "Int"
  | long => "Long"
  | string => "String"
  | bytes => "Bytes"

/-- All types, in the order in which messages list them. -/
def all : List FieldType := [boolean, int, long, string, bytes]

end FieldType

def FieldValue.type : FieldValue → FieldType
  | boolean _ => .boolean
  | int _ => .int
  | long _ => .long
  | string _ => .string
  | bytes _ => .bytes

namespace Schema

/-! ## Comparing schemas -/

/-- How the fields of a schema differ from the ones that were expected. -/
inductive Difference where
  | count (expected found : Nat)
  /-- The first two of one place that are not the same. -/
  | field (expected found : Field)
  deriving DecidableEq, Repr

def Difference.message : Difference → String
  | count expected found =>
    "expected " ++ toString expected ++ " fields, found " ++ toString found
  | field expected found =>
    "expected field " ++ expected.name ++ " (" ++ expected.type.title ++ "), found " ++ found.name
      ++ " (" ++ found.type.title ++ ")"

/-- How the fields of `found` differ from those of `expected`, if they do. -/
def difference (expected found : Schema) : Option Difference :=
  if expected.fields.length ≠ found.fields.length then
    some (.count expected.fields.length found.fields.length)
  else
    ((expected.fields.zip found.fields).find? fun pair => pair.1 ≠ pair.2).map fun pair =>
      .field pair.1 pair.2

def isCompatible (a b : Schema) : Bool := a.fields = b.fields

/-! ## Comparing a record with a schema -/

/-- How a list of values fails to be a record of a schema. -/
inductive Fault where
  /-- There are more or fewer values than fields. -/
  | count (schema : String) (fields values : Nat)
  /-- The first value that does not have the type of its field. -/
  | type (field : Field) (found : FieldType)
  deriving DecidableEq, Repr

def Fault.message : Fault → String
  | count schema fields values =>
    "schema " ++ schema ++ " has " ++ toString fields ++ " fields, record has " ++ toString values
  | type field found =>
    "field " ++ field.name ++ " is " ++ field.type.title ++ ", record has " ++ found.title

/-- How a list of values fails to be a record of a schema, if it does. -/
def fault (schema : Schema) (datum : Datum) : Option Fault :=
  if datum.length ≠ schema.fields.length then
    some (.count schema.name schema.fields.length datum.length)
  else
    ((schema.fields.zip datum).find? fun pair => pair.1.type ≠ pair.2.type).map fun pair =>
      .type pair.1 pair.2.type

end Schema

end DeviceLog
