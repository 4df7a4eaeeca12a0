import DeviceLog.Action
import DeviceLog.Text.Quoted

/-! # Writing documents

A document is written on one line without blanks. Texts keep every character that may stand in
them; the quote, the backslash and control characters are escaped, so no line break is ever
written.

* `Value` is what can be written; objects keep the order of their members.
* `render` writes a value.
* `sorted` puts the members of every object in the order of their names, each name once.
-/

namespace DeviceLog.Json

inductive Value where
  | null
  | bool (b : Bool)
  | integer (n : Int)
  | text (s : String)
  | list (items : List Value)
  | object (members : List (String × Value))

/-! ## Texts -/

def escaped (c : Char) : String :=
  if c = '"' then "\\\""
  else if c = '\\' then "\\\\"
  else if c = '\n' then "\\n"
  else if c = '\r' then "\\r"
  else if c = '\t' then "\\t"
  else if c.toNat = 0x08 then "\\b"
  else if c.toNat = 0x0C then "\\f"
  else if c.toNat < 0x20 then "\\u00" ++ Text.hexByte (UInt8.ofNat c.toNat)
  else String.singleton c

def renderText (s : String) : String :=
  "\"" ++ String.join (s.toList.map escaped) ++ "\""

/-! ## Values -/

namespace Value

mutual

def render : Value → String
  | null => "null"
  | bool b => if b then "true" else "false"
  | integer n => toString n
  | text s => renderText s
  | list items => "[" ++ String.intercalate "," (renderItems items) ++ "]"
  | object members => "\x7b" ++ String.intercalate "," (renderMembers members) ++ "\x7d"

def renderItems : List Value → List String
  | [] => []
  | v :: rest => render v :: renderItems rest

def renderMembers : List (String × Value) → List String
  | [] => []
  | (name, v) :: rest => (renderText name ++ ":" ++ render v) :: renderMembers rest

end

/-- Puts a member among members in the order of their names; it takes the place of a member of
the same name. -/
def put (name : String) (v : Value) : List (String × Value) → List (String × Value)
  | [] => [(name, v)]
  | (other, w) :: rest =>
    if name < other then (name, v) :: (other, w) :: rest
    else if name = other then (name, v) :: rest
    else (other, w) :: put name v rest

mutual

/-- The value with the members of every object in the order of their names; of members of one
name the last stands. -/
def sorted : Value → Value
  | list items => list (sortedItems items)
  | object members => object (sortedMembers members [])
  | v => v

def sortedItems : List Value → List Value
  | [] => []
  | v :: rest => sorted v :: sortedItems rest

/-- Members put one after another among those already in order. -/
def sortedMembers : List (String × Value) → List (String × Value) → List (String × Value)
  | [], placed => placed
  | (name, v) :: rest, placed => sortedMembers rest (put name (sorted v) placed)

end

def ofBytes (bytes : Bytes) : Value := list (bytes.map fun b => integer b.toNat)

end Value

end DeviceLog.Json
