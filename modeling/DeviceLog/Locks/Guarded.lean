import DeviceLog.Locks.Threads

/-! # The table has a lock of its own

The table of locks is itself shared, and only one thread at a time may read or change it: the one that
holds the guard of the table. Here a step that concerns the table is three steps of a thread. It takes
the guard, it does what it came for, and it gives the guard back before it does anything else. Other
threads may take their steps in between, unless they need the guard themselves.

* `Guarded.step` is one step of one thread, where it can take one.
* `Guarded.run` follows a schedule, as `System.run` does.
-/

namespace DeviceLog

variable {κ σ ρ : Type}

/-- Whether what a thread does next concerns the table. -/
def Position.atTable : Position κ σ ρ → Bool
  | prepared _ _ | outside _ _ _ => true
  | _ => false

/-- Threads with what they share, the guard of the table among it. -/
structure Guarded (κ σ ρ : Type) where
  system : System κ σ ρ
  /-- Who holds the guard. -/
  guard : Option Nat := none

namespace Guarded

variable [DecidableEq κ]

/-- One step of a thread, if it can take one. -/
def step (me : Nat) (g : Guarded κ σ ρ) : Option (Guarded κ σ ρ) :=
  match g.system.threads[me]? with
  | none => none
  | some t =>
    let go := (g.system.step me).map fun s => { g with system := s }
    -- First the guard is taken, and at a later turn the step is made.
    if t.position.atTable then
      match g.guard with
      | none => some { g with guard := some me }
      | some owner => if owner = me then go else none
    else if g.guard = some me then some { g with guard := none }
    else go

/-- The turn of a thread: a step, or nothing where it has to wait. -/
def turn (g : Guarded κ σ ρ) (me : Nat) : Guarded κ σ ρ := (g.step me).getD g

def run (g : Guarded κ σ ρ) (schedule : List Nat) : Guarded κ σ ρ := schedule.foldl turn g

end Guarded

end DeviceLog
