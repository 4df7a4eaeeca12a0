import DeviceLog.Command.Surroundings
import DeviceLog.Service.Settings

/-! # Starting the service

Before it can listen a service reads its settings and makes the directory that records are kept in.
Either may fail, and so may listening.
-/

namespace DeviceLog

/-- What is given on the command line instead of in variables. -/
structure Overrides where
  root : Option Path := none
  bind : Option SocketAddress := none

/-- Settings with what is given on the command line. -/
def Settings.overridden (s : Settings) (o : Overrides) : Settings :=
  { s with root := o.root.getD s.root, bind := o.bind.getD s.bind }

/-- What is said when the service cannot listen. -/
def cannotListen (s : Settings) : Report := .failed [] ("failed to bind " ++ s.bind.text)

/-- Does what comes before listening: the settings to listen with, or what is said about the
failure. -/
def start (env : Environment) (o : Overrides) (fs : FileSystem) :
    Except Report Settings × FileSystem :=
  match withNearest? env fs with
  | none => (.error .brokenDown, fs)
  | some env =>
    match Settings.ofVariables env.get? with
    | .error _ => (.error (.failed [] "invalid configuration"), fs)
    | .ok s =>
      -- Variables that cannot be used are refused even where something else is given instead.
      let s := s.overridden o
      match FileSystem.makeDirectories s.root fs with
      | (.ok (), fs) => (.ok s, fs)
      | (.error _, fs) =>
        (.error (.failed [] ("failed to create storage root " ++ s.root.text)), fs)

end DeviceLog
