import DeviceLog.Deflate.Code

/-! # Word lengths from counts

The shorter the words of the symbols that occur often, the shorter the block.

* `depths`: how long the words are, as the depths in a tree that is built by joining the two
  lightest subtrees until one is left.
* `withinLimit`: where words would be longer than the format allows they are made as long as it
  allows, and other words longer until all of them fit.
* `ofCounts`: the lengths given to the symbols, the rarest symbol having the longest word.
-/

namespace DeviceLog.Deflate.WordLengths

/-! ## Depths -/

/-- A subtree: how often its symbols occur together, and the depth of each. -/
structure Group where
  count : Nat
  depths : List Nat
  deriving DecidableEq, Repr

/-- Adds a group to groups ordered by count, after those of its own count. -/
def insert (g : Group) : List Group → List Group
  | [] => [g]
  | h :: rest => if g.count < h.count then g :: h :: rest else h :: insert g rest

/-- Two groups as one, each symbol one step deeper. -/
def join (g h : Group) : Group := ⟨g.count + h.count, (g.depths ++ h.depths).map (· + 1)⟩

/-- Joins groups ordered by count, as often as `turns` says at most. -/
def joinAll : Nat → List Group → List Nat
  | turns + 1, g :: h :: rest => joinAll turns (insert (join g h) rest)
  | _, [g] => g.depths
  | _, _ => []

/-- The depths for counts in rising order; a symbol that occurs alone has depth one. -/
def depths : List Nat → List Nat
  | [_] => [1]
  | counts => joinAll counts.length (counts.map fun count => ⟨count, [0]⟩)

/-! ## The longest word -/

/-- The share of all words of the longest length that so many words of each length take up. -/
def weight (longest : Nat) (numbers : Array Nat) : Nat :=
  numbers.toList.zipIdx.foldl (fun total entry => total + entry.1 <<< (longest - entry.2)) 0

/-- One of the longest words goes with the longest of the others, which is made one bit longer for
the two of them. -/
def lengthen (longest : Nat) (numbers : Array Nat) : Array Nat :=
  let numbers := numbers.modify longest (· - 1)
  match (List.range longest).reverse.find? fun length => numbers.getD length 0 != 0 with
  | some length => (numbers.modify length (· - 1)).modify (length + 1) (· + 2)
  | none => numbers

/-- Lengthens words until all of them fit. Each turn frees one word of the longest length, and no
more of them are in excess than there are symbols. -/
def fit (longest : Nat) : Nat → Array Nat → Array Nat
  | 0, numbers => numbers
  | turns + 1, numbers =>
    if weight longest numbers ≤ 1 <<< longest then numbers
    else fit longest turns (lengthen longest numbers)

/-- The lengths for depths, none above `longest`, the longest first. -/
def withinLimit (longest : Nat) (depths : List Nat) : List Nat :=
  let numbers := depths.foldl (fun numbers depth => numbers.modify (min depth longest) (· + 1))
    (Array.replicate (longest + 1) 0)
  ((fit longest depths.length numbers).toList.zipIdx.flatMap fun entry =>
    List.replicate entry.1 entry.2).reverse

/-! ## Symbols -/

/-- The counts of the symbols that occur, each with its symbol, the rarest first. -/
def ranked (counts : List Nat) : List (Nat × Nat) :=
  (counts.zipIdx.filter (·.1 != 0)).mergeSort fun a b => a.1 ≤ b.1

/-- Word lengths for the counts of the symbols, none above `longest`. A symbol that does not occur
has length zero. -/
def ofCounts (longest : Nat) (counts : List Nat) : List Nat :=
  let ranked := ranked counts
  let lengths := withinLimit longest (depths (ranked.map (·.1)))
  let table := (ranked.zip lengths).foldl
    (fun table entry => table.setIfInBounds entry.1.2 entry.2) (Array.replicate counts.length 0)
  table.toList

end DeviceLog.Deflate.WordLengths
