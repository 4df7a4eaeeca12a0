import DeviceLog.Service.Address
import DeviceLog.Service.Variables
import DeviceLog.Store.Basic
import DeviceLog.Text.Character

/-! # Settings

A service is set up by variables: where the records are kept, where it listens, and how new logs are
compressed. A variable that is empty is the same as one that is not set.
-/

namespace DeviceLog

/-- How a service is set up. -/
structure Settings where
  root : Path
  bind : SocketAddress
  codec : Codec

/-- A variable with a value that cannot be used. -/
inductive SettingsError where
  | bind (value : String)
  | codec (value : String)
  | level (value : String)
  deriving DecidableEq, Repr

def SettingsError.message : SettingsError → String
  | bind value => "DEVSTATE_BIND is not a valid socket address: " ++ value
  | codec value =>
    "DEVSTATE_CODEC must be \"deflate\" or \"null\", got " ++ Text.quoted value
  | level value =>
    "DEVSTATE_DEFLATE_LEVEL must be an integer from 0 to 9, got " ++ Text.quoted value

namespace Settings

/-- The value of a variable that is not empty. -/
def value? (vars : Variables) (name : String) : Option String := (vars name).filter (· ≠ "")

/-- Where a service listens if nothing is said. -/
def standardBind : SocketAddress := .four ⟨127, 0, 0, 1⟩ 50054

/-- Where records are kept: under the home directory if nothing is said. -/
def rootOf (vars : Variables) : Path :=
  match value? vars "DEVSTATE_ROOT" with
  | some root => ⟨root⟩
  | none => ((Path.mk ((value? vars "HOME").getD "/tmp")).join ⟨".devstate"⟩).join ⟨"data"⟩

def bindOf (vars : Variables) : Except SettingsError SocketAddress :=
  match value? vars "DEVSTATE_BIND" with
  | none => .ok standardBind
  | some raw =>
    match SocketAddress.ofText? raw with
    | some address => .ok address
    | none => .error (.bind raw)

/-- A number without sign: perhaps a plus, and at least one digit. -/
def numberOf? (cs : List Char) : Option Nat :=
  let digits := match cs with
    | '+' :: rest => rest
    | cs => cs
  if digits ≠ [] ∧ digits.all Char.isDigit then
    some (digits.foldl (fun n c => n * 10 + (c.toNat - 48)) 0)
  else none

def levelOf (vars : Variables) : Except SettingsError Nat :=
  match value? vars "DEVSTATE_DEFLATE_LEVEL" with
  | none => .ok Codec.defaultLevel
  | some raw =>
    match (numberOf? (Text.trimmed raw.toList)).filter (· ≤ 9) with
    | some level => .ok level
    | none => .error (.level raw)

/-- The compression of new logs, at a level. -/
def codecOf (vars : Variables) (level : Nat) : Except SettingsError Codec :=
  match value? vars "DEVSTATE_CODEC" with
  | none => .ok (.deflate level)
  | some raw =>
    match Codec.ofName? (String.ofList (Text.trimmed raw.toList)) level with
    | some codec => .ok codec
    | none => .error (.codec raw)

/-- The settings that variables make. Of several that cannot be used the first is named: where the
service listens, the level, the compression. -/
def ofVariables (vars : Variables) : Except SettingsError Settings := do
  let bind ← bindOf vars
  -- The level has to be one even where nothing is compressed.
  let level ← levelOf vars
  let codec ← codecOf vars level
  return ⟨rootOf vars, bind, codec⟩

def store (s : Settings) : Store := ⟨s.root, s.codec⟩

end Settings

end DeviceLog
