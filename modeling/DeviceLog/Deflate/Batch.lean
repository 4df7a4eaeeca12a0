import DeviceLog.Deflate.Repeats

/-! # Batches of tokens

The tokens of a byte string are written in batches, one block each. A batch counts the bytes that
its tokens stand for, and the bytes that they take until they are written: one for a literal and
three for a copy, and one for every eight tokens besides. `batches` starts a new batch where one is
full.
-/

namespace DeviceLog.Deflate

/-- Tokens that are written together. -/
structure Batch where
  tokens : Array Token := #[]
  /-- The bytes that the tokens stand for. -/
  covered : Nat := 0
  /-- The bytes that the tokens take, without those for every eight of them. -/
  own : Nat := 0
  deriving Repr

namespace Batch

def add (batch : Batch) (token : Token) : Batch :=
  match token with
  | .literal _ => ⟨batch.tokens.push token, batch.covered + 1, batch.own + 1⟩
  | .copy length _ => ⟨batch.tokens.push token, batch.covered + length, batch.own + 3⟩

/-- The most bytes that the tokens of a batch take before it is full. -/
def most : Nat := 65528

/-- A batch that stands for more bytes than this is full once it saves too little. -/
def large : Nat := 31744

/-- Whether a batch is full. A place is held for the next eight tokens; a writer in a hurry does not
ask what is saved. -/
def full (quick : Bool) (batch : Batch) : Bool :=
  let place := batch.own + batch.tokens.size / 8 + 1
  most < place ∨ (¬quick ∧ large < batch.covered ∧ batch.covered ≤ place * 115 / 128)

end Batch

/-- Full batches and the one that is being filled. -/
structure Batches where
  done : Array Batch := #[]
  current : Batch := {}

def Batches.add (quick : Bool) (batches : Batches) (token : Token) : Batches :=
  let current := batches.current.add token
  if current.full quick then ⟨batches.done.push current, {}⟩ else { batches with current := current }

/-- The tokens of a byte string in batches; the last one may be empty. -/
def batches (level : Nat) (data : Array UInt8) : Batches :=
  (Repeats.tokens level data).foldl (Batches.add (Repeats.isQuick level)) {}

end DeviceLog.Deflate
