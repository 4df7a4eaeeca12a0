/-!
# Actions and bytes

An action on a state yields a value or fails, and leaves a state in either case.

Reading is an action on what is still to be read: it takes a value from the front and leaves the
rest, and one that fails leaves what it had not taken. The file system is acted on as well: an
action that fails there leaves what it had already done.
-/

namespace DeviceLog

/-- Logs, payloads and documents are sequences of bytes. -/
abbrev Bytes := List UInt8

/-- An action on a state `σ` that yields an `α` or fails with an `ε`. -/
def Action (ε σ α : Type) : Type := σ → Except ε α × σ

namespace Action

variable {ε ε' σ α β : Type}

@[inline] def done (a : α) : Action ε σ α := fun s => (.ok a, s)

@[inline] def fail (e : ε) : Action ε σ α := fun s => (.error e, s)

/-- Runs one action and hands its value to the next; the first failure ends both. -/
@[inline] def andThen (p : Action ε σ α) (k : α → Action ε σ β) : Action ε σ β := fun s =>
  match p s with
  | (.ok a, s') => k a s'
  | (.error e, s') => (.error e, s')

@[always_inline] instance : Monad (Action ε σ) where
  pure := done
  bind := andThen

/-- Fails with `e` where there is no value. -/
def expect (e : ε) : Option α → Action ε σ α
  | some a => done a
  | none => fail e

/-- Takes the outcome of a computation that needs no state. -/
def ofExcept : Except ε α → Action ε σ α
  | .ok a => done a
  | .error e => fail e

def mapError (f : ε → ε') (p : Action ε σ α) : Action ε' σ α := fun s =>
  match p s with
  | (.ok a, s') => (.ok a, s')
  | (.error e, s') => (.error (f e), s')

/-- The values of `n` more runs of an action, after those already there, last first. -/
def timesAfter (p : Action ε σ α) (before : List α) : Nat → Action ε σ (List α)
  | 0 => done before.reverse
  | n + 1 => fun s =>
    match p s with
    | (.ok a, s') => timesAfter p (a :: before) n s'
    | (.error e, s') => (.error e, s')

/-- The values of `n` runs of one action. -/
def times (p : Action ε σ α) (n : Nat) : Action ε σ (List α) := timesAfter p [] n

@[simp] theorem pure_apply (a : α) (s : σ) : (pure a : Action ε σ α) s = (.ok a, s) := rfl

@[simp] theorem done_apply (a : α) (s : σ) : (done a : Action ε σ α) s = (.ok a, s) := rfl

@[simp] theorem fail_apply (e : ε) (s : σ) : (fail e : Action ε σ α) s = (.error e, s) := rfl

/-- An action that yields `a` is followed by what `a` calls for. -/
theorem bind_of_ok {p : Action ε σ α} {k : α → Action ε σ β} {a : α} {s t : σ}
    (h : p s = (.ok a, t)) : (p >>= k) s = k a t := by
  show (match p s with | (.ok a, s') => k a s' | (.error e, s') => (.error e, s')) = _
  rw [h]

theorem bind_of_error {p : Action ε σ α} {k : α → Action ε σ β} {e : ε} {s t : σ}
    (h : p s = (.error e, t)) : (p >>= k) s = (.error e, t) := by
  show (match p s with | (.ok a, s') => k a s' | (.error e, s') => (.error e, s')) = _
  rw [h]

/-- Values found before stand in front of those found after them. -/
theorem timesAfter_eq (p : Action ε σ α) (n : Nat) : ∀ (before : List α) (s : σ),
    timesAfter p before n s
      = match times p n s with
        | (.ok as, s') => (.ok (before.reverse ++ as), s')
        | (.error e, s') => (.error e, s') := by
  unfold times
  induction n with
  | zero => intro before s; simp [timesAfter]
  | succ n ih =>
    intro before s
    unfold timesAfter
    cases h : p s with
    | mk r s' =>
      cases r with
      | error e => rfl
      | ok a =>
        simp only
        rw [ih (a :: before), ih [a]]
        cases timesAfter p [] n s' with
        | mk r s'' => cases r <;> simp

@[simp] theorem times_zero (p : Action ε σ α) (s : σ) : times p 0 s = (.ok [], s) := rfl

/-- A run more yields a value more, in front of those of the other runs. -/
theorem times_succ (p : Action ε σ α) (n : Nat) :
    times p (n + 1) = p >>= fun a => times p n >>= fun as => pure (a :: as) := by
  funext s
  show timesAfter p [] (n + 1) s = andThen p (fun a => andThen (times p n) fun as => done (a :: as)) s
  unfold timesAfter andThen
  cases p s with
  | mk r s' =>
    cases r with
    | error e => rfl
    | ok a =>
      simp only
      rw [timesAfter_eq p n [a] s']
      cases times p n s' with
      | mk r s'' => cases r <;> rfl

end Action

end DeviceLog
