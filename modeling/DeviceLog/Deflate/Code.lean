import DeviceLog.Deflate.Bits

/-! # Prefix codes

A prefix code gives each symbol that occurs a word of bits, no word being the beginning of
another. The format states a code by the lengths of its words alone: among words of one length
the order is that of the symbols, and shorter words come before longer ones. A length of zero
means that the symbol does not occur.
-/

namespace DeviceLog.Deflate

/-- A prefix code as the tree of its words: a step to the left for a zero, to the right for a one. -/
inductive Code where
  /-- No word begins this way. -/
  | absent
  /-- The word of a symbol ends here. -/
  | symbol (value : Nat)
  /-- The words that go on with a zero, and those that go on with a one. -/
  | fork (zero one : Code)
  deriving Repr

namespace Code

def maxLength : Nat := 15

/-- The subtrees of one depth from those one step deeper, taken in pairs from the left. -/
def pairUp : List Code → List Code
  | zero :: one :: rest => fork zero one :: pairUp rest
  | [zero] => [fork zero absent]
  | [] => []

/-- The symbols whose words have one length, in order. -/
def symbolsOfLength (lengths : List Nat) (length : Nat) : List Code :=
  (lengths.zipIdx.filter fun entry => entry.1 == length).map fun entry => symbol entry.2

/-- The subtrees at a depth, for words of up to so many bits more: the words that end there, then
the subtrees of longer ones. -/
def subtrees (lengths : List Nat) (depth : Nat) : Nat → List Code
  | 0 => symbolsOfLength lengths depth
  | more + 1 => symbolsOfLength lengths depth ++ pairUp (subtrees lengths (depth + 1) more)

/-- The tree of the words with the given lengths. Where no symbol occurs every first bit leaves
the tree. -/
def ofLengths (lengths : List Nat) : Code :=
  match pairUp (subtrees lengths 1 (maxLength - 1)) with
  | tree :: _ => tree
  | [] => fork absent absent

def occurring (lengths : List Nat) : Nat := (lengths.filter (· != 0)).length

/-- Whether one symbol occurs, with a word of one bit. -/
def isSingleBit (lengths : List Nat) : Bool := lengths.filter (· != 0) == [1]

/-- The share of all words of the longest length that the words with the given lengths take up. -/
def weight (lengths : List Nat) : Nat :=
  (lengths.filter (· != 0)).foldl (fun total length => total + 1 <<< (maxLength - length)) 0

/-- Whether the words leave no bit sequence unused and do not overlap. -/
def complete (lengths : List Nat) : Bool := weight lengths == 1 <<< maxLength

/-- Reads one word and yields its symbol. The first bit that leaves the tree is refused. -/
def read : Code → Action Error BitSource Nat
  | absent => Action.fail .corrupt
  | symbol value => Action.done value
  | fork zero one => bit >>= fun b => if b then one.read else zero.read

/-- The words below a subtree that is reached by the given bits, last first. -/
def wordsFrom (reached : List Bool) : Code → List (Nat × List Bool)
  | absent => []
  | symbol value => [(value, reached.reverse)]
  | fork zero one => zero.wordsFrom (false :: reached) ++ one.wordsFrom (true :: reached)

/-- The word of every symbol below a bound; it is empty for a symbol that does not occur. -/
def words (code : Code) (bound : Nat) : Array (List Bool) :=
  (code.wordsFrom []).foldl (fun table entry => table.setIfInBounds entry.1 entry.2)
    (Array.replicate bound [])

end Code

end DeviceLog.Deflate
