import DeviceLog.Service.VariableFile
import DeviceLog.Storage.FileSystem

/-! # What commands begin and end with

Before a command does anything else, the variables that are not set may be set by a file in the
working directory, or in the nearest directory above that has one. With a value that no variable can
have the command breaks down. In the end there is a report of what it printed and how it went.
-/

namespace DeviceLog

/-- What a command prints, and how it ends. -/
structure Report where
  code : Nat
  output : List String
  failure : Option String
  deriving DecidableEq, Repr

namespace Report

def success (output : List String) : Report := ⟨0, output, none⟩

def failed (output : List String) (why : String) : Report := ⟨1, output, some ("Error: " ++ why)⟩

/-- A command that broke down and cannot say why. -/
def brokenDown : Report := ⟨101, [], some ""⟩

end Report

/-- The name of the file that variables may be set by. -/
def variableFileName : String := ".env"

/-- The environment with the variables that the nearest file sets. -/
def withNearest? (env : Environment) (fs : FileSystem) : Option Environment :=
  match fs.nearest? variableFileName fs.working.reverse with
  | some bytes => env.addFile? bytes
  | none => some env

end DeviceLog
