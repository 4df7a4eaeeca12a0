import DeviceLog.Command.Dump
import DeviceLog.Command.Serve

/-! # The command line

`dump FILE` shows a log, and `serve` starts the service; with no arguments the service is started.
This program brings no network along, so the service ends where it would begin to listen.
-/

namespace DeviceLog

/-- What the command line asks for. -/
inductive Command where
  | dump (path : Path)
  | serve (overrides : Overrides)

namespace Command

def options : List String → Overrides → Option Overrides
  | [], o => some o
  | "--root" :: root :: rest, o => options rest { o with root := some ⟨root⟩ }
  | "--bind" :: bind :: rest, o =>
    match SocketAddress.ofText? bind with
    | some address => options rest { o with bind := some address }
    | none => none
  | _, _ => none

def ofArguments : List String → Option Command
  | [] => some (serve {})
  | ["dump", path] => some (dump ⟨path⟩)
  | "serve" :: rest => (options rest {}).map serve
  | _ => none

/-- The variables that a service is set up by. -/
def variableNames : List String :=
  ["DEVSTATE_ROOT", "DEVSTATE_BIND", "DEVSTATE_CODEC", "DEVSTATE_DEFLATE_LEVEL", "HOME"]

def withFile (path : Path) (bytes : Bytes) (fs : FileSystem) : FileSystem :=
  let act : FileSystem.Act Unit := do
    if let some directory := path.above? then FileSystem.makeDirectories directory
    let (place, _) ← FileSystem.openFile path
    FileSystem.append place bytes
  (act fs).2

def print (r : Report) : IO UInt32 := do
  for line in r.output do IO.println line
  if let some why := r.failure then IO.eprintln why
  return UInt32.ofNat r.code

/-- What the first file of a name holds that is in one of some directories. -/
def firstFile (name : String) : List Path → IO (Option Bytes)
  | [] => return none
  | directory :: others => do
    try
      let bytes ← IO.FS.readBinFile (directory.join ⟨name⟩).text
      return some bytes.toList
    catch _ => firstFile name others

/-- The file system with the file that variables may be set by, and the environment as far as a
command asks for it. -/
def surroundings : IO (Environment × FileSystem) := do
  let working : Path := ⟨(← IO.currentDir).toString⟩
  let file ← firstFile variableFileName (working :: working.allAbove)
  let names := variableNames ++ (file.map VariableFile.asksFor).getD []
  let entries ← names.filterMapM fun name => do
    return (← IO.getEnv name).map (Environment.entry name)
  let empty := { working := working.steps }
  let fs := (FileSystem.makeDirectories working empty).2
  return (⟨entries⟩, (file.map fun bytes => withFile ⟨variableFileName⟩ bytes fs).getD fs)

def showLog (path : Path) : IO UInt32 := do
  let (env, fs) ← surroundings
  let fs ← try
      let bytes ← IO.FS.readBinFile path.text
      pure (withFile path bytes.toList fs)
    catch _ => pure fs
  print (runDump env fs path)

def runServe (overrides : Overrides) : IO UInt32 := do
  let (env, fs) ← surroundings
  match (start env overrides fs).1 with
  | .error report => print report
  | .ok settings =>
    try
      IO.FS.createDirAll settings.root.text
      print (cannotListen settings)
    catch _ => print (.failed [] ("failed to create storage root " ++ settings.root.text))

end Command

end DeviceLog

def main (arguments : List String) : IO UInt32 :=
  match DeviceLog.Command.ofArguments arguments with
  | some (.dump path) => DeviceLog.Command.showLog path
  | some (.serve overrides) => DeviceLog.Command.runServe overrides
  | none => do
    IO.eprintln "usage: dump FILE | serve [--root DIRECTORY] [--bind ADDRESS]"
    return 2
