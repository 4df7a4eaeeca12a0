/-! # Locks by key

Callers that write to one log must take turns, and callers that write to different logs need not
wait for each other. The registry has a lock for every key that somebody holds or waits for.

A caller goes through five steps: it joins the users of the lock of a key, which is made if there is
none; it enters when nobody else is inside; it leaves; it retires the lock if there is no other
caller among the users; and it lets go of the lock. The table is itself a user of every lock in it,
so a caller that counts two users when it retires the lock is the last one.
-/

namespace DeviceLog

structure Lock where
  /-- How many use the lock: the callers that came for it, and the table. -/
  users : Nat
  holder : Option Nat := none
  /-- Whether somebody left in a panic. It keeps nobody out. -/
  poisoned : Bool := false
  deriving DecidableEq, Repr

/-- The locks that somebody uses. -/
structure Registry (κ : Type) where
  /-- The number of the lock of each key. -/
  table : List (κ × Nat) := []
  locks : List (Nat × Lock) := []
  /-- The number of the next lock that is made. -/
  next : Nat := 0
  deriving DecidableEq, Repr

namespace Registry

variable {κ : Type} [DecidableEq κ]

def empty : Registry κ := {}

def size (r : Registry κ) : Nat := r.table.length

def lock? (r : Registry κ) (n : Nat) : Option Lock := r.locks.lookup n

def update (r : Registry κ) (n : Nat) (f : Lock → Lock) : Registry κ :=
  { r with locks := r.locks.map fun e => if e.1 = n then (n, f e.2) else e }

/-- Joins the users of the lock of a key. -/
def join (r : Registry κ) (key : κ) : Nat × Registry κ :=
  match r.table.lookup key with
  | some n => (n, r.update n fun l => { l with users := l.users + 1 })
  | none =>
    -- The users of a new lock are the table and the caller.
    (r.next, ⟨(key, r.next) :: r.table, (r.next, { users := 2 }) :: r.locks, r.next + 1⟩)

/-- Enters a lock if nobody is inside, whether or not somebody left it in a panic. -/
def enter? (r : Registry κ) (n caller : Nat) : Option (Registry κ) :=
  match r.lock? n with
  | some l =>
    if l.holder = none then some (r.update n fun l => { l with holder := some caller }) else none
  | none => none

def leave (r : Registry κ) (n : Nat) (panicked : Bool) : Registry κ :=
  r.update n fun l => { l with holder := none, poisoned := l.poisoned || panicked }

/-- Takes the lock of a key out of the table if only the table and the caller use it. -/
def retire (r : Registry κ) (key : κ) (n : Nat) : Registry κ :=
  -- Both are still counted here: the table, and the caller itself.
  if (r.lock? n).any fun l => l.users = 2 then
    let r := r.update n fun l => { l with users := l.users - 1 }
    { r with table := r.table.filter fun e => e.1 ≠ key }
  else r

/-- Lets go of a lock. A lock without users is gone. -/
def letGo (r : Registry κ) (n : Nat) : Registry κ :=
  let r := r.update n fun l => { l with users := l.users - 1 }
  { r with locks := r.locks.filter fun e => e.2.users ≠ 0 }

/-- What a caller does after it has left. -/
def release (r : Registry κ) (key : κ) (n : Nat) : Registry κ := (r.retire key n).letGo n

end Registry

end DeviceLog
