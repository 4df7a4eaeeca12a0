import DeviceLog.Text.Quoted

/-! # Ids

Namespace ids and device ids become names of directories and files, so an id must be usable as one
name: not empty, not one of the two names that every directory has, and without the characters that
separate names.
-/

namespace DeviceLog

/-- What an id names. -/
inductive IdKind where
  | namespaceId
  | deviceId
  deriving DecidableEq, Repr

/-- Why an id cannot be used. -/
inductive IdError where
  | empty (kind : IdKind)
  | relative (kind : IdKind) (id : String)
  | illegalCharacter (kind : IdKind) (id : String)
  deriving DecidableEq, Repr

/-- How messages name the kind of an id. -/
def IdKind.message : IdKind → String
  | namespaceId => "namespace id"
  | deviceId => "device id"

def IdError.message : IdError → String
  | empty kind => kind.message ++ " is empty"
  | relative kind id =>
    kind.message ++ " " ++ Text.quoted id ++ " is a relative path component"
  | illegalCharacter kind id =>
    kind.message ++ " " ++ Text.quoted id ++ " contains a path separator or NUL byte"

/-- Whether a character may not stand in an id. -/
def isSeparator (c : Char) : Bool := c = '/' ∨ c = '\\' ∨ c = Char.ofNat 0

/-- Checks that an id can be used as a name. -/
def IdKind.check (kind : IdKind) (id : String) : Except IdError Unit :=
  if id = "" then .error (.empty kind)
  else if id = "." ∨ id = ".." then .error (.relative kind id)
  else if id.toList.any isSeparator then .error (.illegalCharacter kind id)
  else .ok ()

end DeviceLog
