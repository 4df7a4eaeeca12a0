import DeviceLog.Locks.Registry
import DeviceLog.Storage.Path

/-! # Locks inside locks

A single caller may work under the locks of several paths at once, one inside another. A script says
what it does under each. Running it tells what happened, and how many paths had a lock at the time.
A panic ends the work under the innermost lock, and that lock is released as after any other work.
-/

namespace DeviceLog

/-- What a caller does. Every step is followed by a script. -/
inductive Script where
  | done
  | under (path : Path) (body rest : Script)
  | panic
  | count (rest : Script)
  deriving DecidableEq, Repr

/-- What happened. Each event has the number of paths that had a lock after it. -/
inductive LockEvent where
  | entered (path : Path) (size : Nat)
  /-- The work under a lock came to its end after so many steps. -/
  | left (path : Path) (size steps : Nat)
  | panicked (path : Path) (size : Nat)
  | counted (size : Nat)
  deriving DecidableEq, Repr

namespace Script

/-- How many steps a script has, without those under its locks. A panic is the last step. -/
def length : Script → Nat
  | done => 0
  | under _ _ rest => rest.length + 1
  | panic => 1
  | count rest => rest.length + 1

/-- How a script ends. -/
inductive End where
  | finished
  | panicked
  /-- The caller waits for ever for a lock that it is inside of. -/
  | stuck
  deriving DecidableEq, Repr

/-- What running a script leads to. -/
structure Outcome where
  registry : Registry (List String)
  events : List LockEvent
  ending : End

def runFrom (r : Registry (List String)) (events : List LockEvent) : Script → Outcome
  | done => ⟨r, events, .finished⟩
  | panic => ⟨r, events, .panicked⟩
  | count rest => rest.runFrom r (.counted r.size :: events)
  | under path body rest =>
    let (lock, r) := r.join path.names
    match r.enter? lock 0 with
    | none => ⟨r, events, .stuck⟩
    | some r =>
      let inner := body.runFrom r (.entered path r.size :: events)
      match inner.ending with
      | .stuck => inner
      -- The panic goes no further than this lock.
      | .panicked =>
        let r := (inner.registry.leave lock true).release path.names lock
        rest.runFrom r (.panicked path r.size :: inner.events)
      | .finished =>
        let r := (inner.registry.leave lock false).release path.names lock
        rest.runFrom r (.left path r.size body.length :: inner.events)

/-- Runs a script where nobody holds a lock. -/
def run (s : Script) : Outcome := s.runFrom Registry.empty []

end Script

end DeviceLog
