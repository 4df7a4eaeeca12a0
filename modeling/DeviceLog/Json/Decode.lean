import DeviceLog.Action
import DeviceLog.Json.Error
import DeviceLog.Json.Token

/-! # Reading documents

A decoder takes a value from the front of a token list. It goes through the tokens in order, so the
first fault in the document is the one reported.

* `text`, `integer`, `bool`, `null`, `optional`, `list` and `choice` read single values.
* `skip` passes over a value of any shape.
* `Layout` describes a record: it may be written as an object, its members in any order among other
  members, or as a list of its members in order.
-/

namespace DeviceLog.Json

abbrev Decoder (α : Type) := Action Error (List Token) α

namespace Decoder

variable {α δ : Type}

def notJson : Decoder α := Action.fail .notJson

/-- What stands at the front of the tokens. -/
def found : List Token → Except Error Found
  | .null :: _ => .ok .null
  | .bool b :: _ => .ok (.bool b)
  | .number n :: _ =>
    match n.value with
    | some (.integer i) => .ok (.integer i)
    | some (.real x) => .ok (.real x)
    | none => .error .notJson
  | .text (some s) :: _ => .ok (.text s)
  | .openList :: _ => .ok .list
  | .openObject :: _ => .ok .object
  | _ => .error .notJson

/-- Refuses what stands at the front where something else is wanted. -/
def refuse (wanted : Wanted) : Decoder α := fun tokens =>
  match found tokens with
  | .ok f => (.error (.shape (.kind f wanted)), tokens)
  | .error e => (.error e, tokens)

def exactly (token : Token) : Decoder Unit := fun tokens =>
  match tokens with
  | t :: rest => if t = token then (.ok (), rest) else (.error .notJson, tokens)
  | [] => (.error .notJson, [])

/-! ## Single values -/

def text : Decoder String := fun tokens =>
  match tokens with
  | .text (some s) :: rest => (.ok s, rest)
  | _ => refuse .text tokens

def integer (wanted : Wanted) (low high : Int) : Decoder Int := fun tokens =>
  match tokens with
  | .number n :: rest =>
    match n.value with
    | some (.integer i) =>
      -- An integer out of range is still an integer, and is refused as one.
      if low ≤ i ∧ i ≤ high then (.ok i, rest) else (.error (.shape (.range i wanted)), tokens)
    | _ => refuse wanted tokens
  | _ => refuse wanted tokens

/-- Reads an integer of 64 bits with sign. -/
def signed : Decoder Int64 := do
  return Int64.ofInt (← integer .signed Int64.minValue.toInt Int64.maxValue.toInt)

/-- Reads an integer of 64 bits without sign. -/
def unsigned : Decoder UInt64 := do
  return UInt64.ofNat (← integer .unsigned 0 (UInt64.size - 1)).toNat

def byte : Decoder UInt8 := do
  return UInt8.ofNat (← integer .byte 0 255).toNat

def bool : Decoder Bool := fun tokens =>
  match tokens with
  | .bool b :: rest => (.ok b, rest)
  | _ => refuse .bool tokens

def null : Decoder Unit := fun tokens =>
  match tokens with
  | .null :: rest => (.ok (), rest)
  | _ => refuse .null tokens

def optional (value : Decoder α) : Decoder (Option α) := fun tokens =>
  match tokens with
  | .null :: rest => (.ok none, rest)
  | _ => (value >>= fun a => Action.done (some a)) tokens

/-- Reads more items up to the end of a list, after the ones already read, last first. Each turn takes
a token at least, so the tokens at the beginning count the turns. -/
def moreItems (item : Decoder α) (before : List α) : List Token → Decoder (List α)
  | [] => notJson
  | _ :: turns => fun tokens =>
    match tokens with
    | .closeList :: rest => (.ok before.reverse, rest)
    | .comma :: rest => (item >>= fun a => moreItems item (a :: before) turns) rest
    | _ => notJson tokens

def list (item : Decoder α) : Decoder (List α) := fun tokens =>
  match tokens with
  | .openList :: .closeList :: rest => (.ok [], rest)
  | .openList :: rest => (item >>= fun a => moreItems item [a] rest) rest
  | _ => refuse .list tokens

def choose (offered : List (String × α)) (name : String) : Decoder α :=
  match offered.lookup name with
  | some a => Action.done a
  | none => Action.fail (.shape (.unknownChoice name (offered.map Prod.fst)))

/-- Reads a choice: its name, or an object with the name as its only member and null as value. A brace
that no text follows is not JSON, whatever else does. -/
def choice (offered : List (String × α)) : Decoder α := fun tokens =>
  match tokens with
  | .text (some name) :: rest => choose offered name rest
  | .openObject :: .text (some name) :: rest =>
    (do
      let a ← choose offered name
      exactly .colon
      null
      exactly .closeObject
      return a) rest
  | _ => notJson tokens

/-! ## Passing over a value -/

inductive Bracket where
  | list
  | object
  deriving DecidableEq, Repr

/-- What may come next inside a value that is passed over. -/
inductive Place where
  /-- A value. -/
  | value
  /-- A value, or the end of the list just opened. -/
  | firstItem
  /-- The name of a member. -/
  | name
  /-- The name of a member, or the end of the object just opened. -/
  | firstName
  /-- The colon after a name. -/
  | colon
  /-- What follows a value inside a bracket. -/
  | after
  /-- Nothing: the value is complete. -/
  | finished
  deriving DecidableEq, Repr

/-- The place after a value, by the brackets still open. -/
def Place.afterValue : List Bracket → Place
  | [] => .finished
  | _ => .after

/-- The place and the open brackets after one more token. -/
def Place.step (place : Place) (stack : List Bracket) (token : Token) :
    Option (Place × List Bracket) :=
  match place, token with
  | .name, .text _ => some (.colon, stack)
  | .firstName, .text _ => some (.colon, stack)
  | .firstName, .closeObject => some (.afterValue stack.tail, stack.tail)
  | .colon, .colon => some (.value, stack)
  | .firstItem, .closeList => some (.afterValue stack.tail, stack.tail)
  | .after, .comma =>
    match stack with
    | .list :: _ => some (.value, stack)
    | .object :: _ => some (.name, stack)
    | [] => none
  | .after, .closeList =>
    if stack.head? = some .list then some (.afterValue stack.tail, stack.tail) else none
  | .after, .closeObject =>
    if stack.head? = some .object then some (.afterValue stack.tail, stack.tail) else none
  | place, token =>
    if place = .value ∨ place = .firstItem then
      match token with
      | .openList => some (.firstItem, .list :: stack)
      | .openObject => some (.firstName, .object :: stack)
      | .null => some (.afterValue stack, stack)
      | .bool _ => some (.afterValue stack, stack)
      | .number _ => some (.afterValue stack, stack)
      | .text _ => some (.afterValue stack, stack)
      | _ => none
    else none

def skipFrom (place : Place) (stack : List Bracket) : Decoder Unit
  | [] => (.error .notJson, [])
  | token :: rest =>
    match place.step stack token with
    | none => (.error .notJson, token :: rest)
    | some (.finished, _) => (.ok (), rest)
    | some (place, stack) => skipFrom place stack rest

def skip : Decoder Unit := skipFrom .value []

end Decoder

/-! ## Records -/

/-- A member of a record. A draft `δ` holds what has been read so far. -/
structure Member (δ : Type) where
  name : String
  /-- Whether a record must have the member. -/
  required : Bool
  /-- Whether the draft has the member. -/
  given : δ → Bool
  /-- Reads the member's value into the draft. -/
  read : δ → Decoder δ

/-- How a record is read. -/
structure Layout (δ α : Type) where
  name : String
  /-- The draft that nothing has been read into. -/
  blank : δ
  /-- The members in order. -/
  members : List (Member δ)
  /-- The record of a draft that has all required members. -/
  build : δ → Option α

namespace Layout

variable {δ α : Type}

/-- Ends the record: the first required member that is missing is named. -/
def finish (l : Layout δ α) (draft : δ) : Decoder α :=
  match l.members.find? fun m => m.required && !m.given draft with
  | some m => Action.fail (.shape (.missing m.name))
  | none => Action.expect .notJson (l.build draft)

/-- Reads one member of an object, whose name has been read. -/
def member (l : Layout δ α) (draft : δ) (name : String) : Decoder δ :=
  match l.members.find? fun m => m.name == name with
  | some m =>
    if m.given draft then Action.fail (.shape (.duplicate m.name))
    else do
      Decoder.exactly .colon
      m.read draft
  | none => do
    Decoder.exactly .colon
    -- A member that nobody asks for may have any value.
    Decoder.skip
    return draft

/-- Reads the members of an object after the first, and its end. Each turn takes a token at least, so
the tokens at the beginning count the turns. -/
def moreMembers (l : Layout δ α) : List Token → δ → Decoder α
  | [], _ => Decoder.notJson
  | _ :: turns, draft => fun tokens =>
    match tokens with
    | .closeObject :: rest => l.finish draft rest
    | .comma :: .text (some name) :: rest =>
      (l.member draft name >>= fun draft => l.moreMembers turns draft) rest
    | _ => Decoder.notJson tokens

/-- Reads the members of a list, each in its place. A list may end before a member that is not
required. -/
def inOrder (l : Layout δ α) (place : Nat) : List (Member δ) → δ → Decoder α
  | [], draft => fun tokens =>
    match tokens with
    | .closeList :: rest => l.finish draft rest
    | _ => Decoder.notJson tokens
  | m :: members, draft => fun tokens =>
    match tokens with
    | .closeList :: _ =>
      -- The list is at its end. It may leave out what is not required.
      if m.required then
        (.error (.shape (.tooShort place l.name l.members.length)), tokens)
      else l.inOrder (place + 1) members draft tokens
    | _ =>
      (do
        if place ≠ 0 then Decoder.exactly .comma
        let draft ← m.read draft
        l.inOrder (place + 1) members draft) tokens

def read (l : Layout δ α) : Decoder α := fun tokens =>
  match tokens with
  | .openObject :: .closeObject :: rest => l.finish l.blank rest
  | .openObject :: .text (some name) :: rest =>
    (l.member l.blank name >>= fun draft => l.moreMembers rest draft) rest
  | .openObject :: _ => Decoder.notJson tokens
  | .openList :: rest => l.inOrder 0 l.members l.blank rest
  | _ => Decoder.refuse (.record l.name) tokens

end Layout

def decode {α : Type} (value : Decoder α) (document : Bytes) : Except Error α :=
  match value (Token.ofBytes document) with
  | (.ok a, []) => .ok a
  | (.ok _, _) => .error .notJson
  | (.error e, _) => .error e

end DeviceLog.Json
