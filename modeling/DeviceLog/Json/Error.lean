import DeviceLog.Json.Numeral
import DeviceLog.Text.Base64
import DeviceLog.Text.Quoted

/-! # Faults of a document

A document either breaks the rules of JSON, or it is JSON but not what the reader asked for. The
second kind says what stood where something else was wanted.
-/

namespace DeviceLog.Json

/-- What stands where something else is wanted. -/
inductive Found where
  | null
  | bool (b : Bool)
  | integer (n : Int)
  | real (x : Float)
  | text (s : String)
  | list
  | object

/-- What a reader wants. -/
inductive Wanted where
  | null
  | bool
  | signed
  | unsigned
  | byte
  | text
  | list
  | record (name : String)

/-- A document of the wrong shape. -/
inductive ShapeError where
  | kind (found : Found) (wanted : Wanted)
  | range (found : Int) (wanted : Wanted)
  /-- A list that ends before the members of a record do. -/
  | tooShort (found : Nat) (record : String) (members : Nat)
  | missing (member : String)
  | duplicate (member : String)
  | unknownChoice (found : String) (offered : List String)
  | base64 (e : Base64.Error)

/-- Why a document cannot be read. -/
inductive Error where
  | notJson
  | shape (e : ShapeError)

/-! ## Messages -/

def named (s : String) : String := "\x60" ++ s ++ "\x60"

def Found.message : Found → String
  | null => "null"
  | bool b => "boolean " ++ named (if b then "true" else "false")
  | integer n => "integer " ++ named (toString n)
  | real x => "floating point " ++ named (Number.renderFloat Numeral.messageStyle x)
  | text s => "string " ++ Text.quoted s
  | list => "sequence"
  | object => "map"

def Wanted.message : Wanted → String
  | null => "unit"
  | bool => "a boolean"
  | signed => "i64"
  | unsigned => "u64"
  | byte => "u8"
  | text => "a string"
  | list => "a sequence"
  | record name => "struct " ++ name

def offer : List String → String
  | [] => "there are no variants"
  | [only] => "expected " ++ named only
  | [one, other] => "expected " ++ named one ++ " or " ++ named other
  | many => "expected one of " ++ String.intercalate ", " (many.map named)

/-- What a document of the wrong shape is told. -/
def ShapeError.message : ShapeError → String
  | kind found wanted => "invalid type: " ++ found.message ++ ", expected " ++ wanted.message
  | range found wanted =>
    "invalid value: integer " ++ named (toString found) ++ ", expected " ++ wanted.message
  | tooShort found record members =>
    "invalid length " ++ toString found ++ ", expected struct " ++ record ++ " with "
      ++ toString members ++ (if members = 1 then " element" else " elements")
  | missing member => "missing field " ++ named member
  | duplicate member => "duplicate field " ++ named member
  | unknownChoice found offered => "unknown variant " ++ named found ++ ", " ++ offer offered
  | base64 e => e.message

/-- What a document that cannot be read is told. -/
def Error.message : Error → String
  | notJson => "not JSON"
  | shape e => e.message

end DeviceLog.Json
