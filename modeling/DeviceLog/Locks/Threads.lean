import DeviceLog.Locks.Registry

/-! # Threads

Threads make calls that share a state. A call first prepares; then it either has its result, or it
goes on to work under the lock of a key. Every step of a thread is done at once, and the steps of
different threads may follow each other in any order.

* `System.step` is one step of one thread, where it can take one.
* `System.run` follows a schedule, a list of the threads whose turn it is.
* `System.finish` gives every thread a turn after another until all calls are made.
-/

namespace DeviceLog

/-- Work under a lock, step by step. -/
inductive Work (σ ρ : Type) where
  | finish (result : ρ)
  | panic
  /-- A step on the shared state, and the work after it. -/
  | step (next : σ → Work σ ρ × σ)

/-- What follows when a call has prepared. -/
inductive Prepared (κ σ ρ : Type) where
  | result (r : ρ)
  /-- The call goes on under the lock of a key. -/
  | under (key : κ) (work : Work σ ρ)

/-- A call of a thread. -/
structure Call (κ σ ρ : Type) where
  prepare : σ → Prepared κ σ ρ × σ

/-- How a call has ended: with a result, or in a panic. -/
abbrev Ending (ρ : Type) := Option ρ

/-- How far a thread has come with a call. Locks go by their numbers. -/
inductive Position (κ σ ρ : Type) where
  | idle
  /-- Prepared, and not yet a user of the lock. -/
  | prepared (key : κ) (work : Work σ ρ)
  /-- A user of a lock, and not inside. -/
  | waiting (key : κ) (lock : Nat) (work : Work σ ρ)
  | inside (key : κ) (lock : Nat) (work : Work σ ρ)
  | outside (key : κ) (lock : Nat) (ending : Ending ρ)
  /-- Out of the lock, and done with the table. -/
  | retired (key : κ) (lock : Nat) (ending : Ending ρ)

structure Thread (κ σ ρ : Type) where
  /-- The calls that it has still to make. -/
  todo : List (Call κ σ ρ)
  position : Position κ σ ρ := .idle
  endings : List (Ending ρ) := []

/-- Threads with what they share. -/
structure System (κ σ ρ : Type) where
  shared : σ
  registry : Registry κ := {}
  threads : List (Thread κ σ ρ)

namespace Position

variable {κ σ ρ : Type} [DecidableEq κ]

/-- Whether a thread is inside the lock of a key. -/
def isInside (key : κ) : Position κ σ ρ → Bool
  | inside k _ _ => k = key
  | _ => false

def isIdle : Position κ σ ρ → Bool
  | idle => true
  | _ => false

end Position

namespace Thread

variable {κ σ ρ : Type} [DecidableEq κ]

def isDone (t : Thread κ σ ρ) : Bool := t.todo.isEmpty && t.position.isIdle

/-- The next step of thread number `me`, if it can take one. -/
def step (me : Nat) (t : Thread κ σ ρ) (s : σ) (r : Registry κ) :
    Option (Thread κ σ ρ × σ × Registry κ) :=
  match t.position with
  | .idle =>
    match t.todo with
    | [] => none
    | call :: rest =>
      match call.prepare s with
      | (.result a, s) => some ({ todo := rest, endings := some a :: t.endings }, s, r)
      | (.under key work, s) =>
        some ({ t with todo := rest, position := .prepared key work }, s, r)
  | .prepared key work =>
    let (lock, r) := r.join key
    some ({ t with position := .waiting key lock work }, s, r)
  | .waiting key lock work =>
    (r.enter? lock me).map fun r => ({ t with position := .inside key lock work }, s, r)
  | .inside key lock (.step next) =>
    let (work, s) := next s
    some ({ t with position := .inside key lock work }, s, r)
  | .inside key lock (.finish a) =>
    some ({ t with position := .outside key lock (some a) }, s, r.leave lock false)
  | .inside key lock .panic =>
    some ({ t with position := .outside key lock none }, s, r.leave lock true)
  | .outside key lock ending =>
    some ({ t with position := .retired key lock ending }, s, r.retire key lock)
  | .retired _ lock ending =>
    some ({ t with position := .idle, endings := ending :: t.endings }, s, r.letGo lock)

end Thread

namespace System

variable {κ σ ρ : Type} [DecidableEq κ]

/-- One step of a thread, if it can take one. -/
def step (me : Nat) (s : System κ σ ρ) : Option (System κ σ ρ) :=
  match s.threads[me]? with
  | none => none
  | some t =>
    (t.step me s.shared s.registry).map fun (t, shared, registry) =>
      ⟨shared, registry, s.threads.set me t⟩

/-- The turn of a thread: a step, or nothing where it has to wait. -/
def turn (s : System κ σ ρ) (me : Nat) : System κ σ ρ := (s.step me).getD s

def run (s : System κ σ ρ) (schedule : List Nat) : System κ σ ρ := schedule.foldl turn s

def isDone (s : System κ σ ρ) : Bool := s.threads.all Thread.isDone

/-- Gives every thread a turn, again and again until all calls are made, at most so many times. -/
def finish : Nat → System κ σ ρ → System κ σ ρ
  | 0, s => s
  | rounds + 1, s =>
    if s.isDone then s else finish rounds (s.run (List.range s.threads.length))

/-- How many threads are inside the lock of a key. -/
def holders (s : System κ σ ρ) (key : κ) : Nat :=
  (s.threads.filter fun t => t.position.isInside key).length

end System

end DeviceLog
