/-! # Variables

A service is set up by variables, which have names and texts as values. A variable may not be set at
all.

* `Variables` tells the values of variables.
* `Environment` is what a process is started with: texts in which an equals sign stands between a
  name and a value. `Environment.get?` looks a variable up in it, and `Environment.add?` adds one.
-/

namespace DeviceLog

/-- The values of the variables that are set. -/
abbrev Variables := String → Option String

/-- What a process is started with. -/
structure Environment where
  entries : List String := []
  deriving DecidableEq, Repr

namespace Environment

def entry (name value : String) : String := name ++ "=" ++ value

/-- The value that an entry has for a name: what follows the name and an equals sign. A name may
itself have an equals sign in it; then it stands for a part of a value. -/
def valueIn? (name entry : String) : Option String :=
  ((name ++ "=").toList.isPrefixOf? entry.toList).map String.ofList

/-- The value of a variable, by the first entry that has one. No name is empty. -/
def get? (env : Environment) : Variables := fun name =>
  if name = "" then none else env.entries.findSome? (valueIn? name)

/-- The value of a variable, with nothing for one that is not set. -/
def orEmpty (env : Environment) (name : String) : String := (env.get? name).getD ""

/-- Whether a text can be a value. The character zero ends an entry, so it cannot be in one. -/
def canHold (value : String) : Bool := !value.toList.contains (Char.ofNat 0)

/-- The environment with one more variable. One that is set already keeps its value; for one that is
not set the value has to be one that it can have. -/
def add? (env : Environment) (name value : String) : Option Environment :=
  if (env.get? name).isSome then some env
  else if canHold value then some ⟨env.entries ++ [entry name value]⟩
  else none

theorem isPrefixOf?_append (cs rest : List Char) : cs.isPrefixOf? (cs ++ rest) = some rest := by
  induction cs with
  | nil => rfl
  | cons c cs ih =>
    show (if c == c then cs.isPrefixOf? (cs ++ rest) else none) = some rest
    rw [if_pos (beq_self_eq_true c), ih]

theorem valueIn?_entry (name value : String) : valueIn? name (entry name value) = some value := by
  have h : (entry name value).toList = (name ++ "=").toList ++ value.toList := String.toList_append
  simp [valueIn?, h, isPrefixOf?_append, -String.toList_append]

theorem add?_of_some {env : Environment} {name value kept : String} (h : env.get? name = some kept) :
    env.add? name value = some env := by
  simp [add?, h]

theorem get?_add?_of_none {env after : Environment} {name value : String} (hn : name ≠ "")
    (h : env.get? name = none) (ha : env.add? name value = some after) :
    after.get? name = some value := by
  have hf : env.entries.findSome? (valueIn? name) = none := by simpa [get?, hn] using h
  simp only [add?, h, Option.isSome_none, Bool.false_eq_true, if_false] at ha
  split at ha
  · cases ha
    simp [get?, hn, hf, valueIn?_entry]
  · cases ha

end Environment

end DeviceLog
