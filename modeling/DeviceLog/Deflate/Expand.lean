import DeviceLog.Deflate.Format

/-! # Expanding

A payload is a sequence of blocks, the last one marked. A block holds its bytes as they are, or
literals and copies in fixed codes, or literals and copies in codes that it states first. What
follows the last block is not looked at.

A payload is refused at the first rule it breaks; where it ends before a rule is broken it is
incomplete.
-/

namespace DeviceLog.Deflate

/-- Appends `length` bytes, each the one `distance` places back. -/
def copyBack (distance : Nat) : Nat → Array UInt8 → Array UInt8
  | 0, out => out
  | length + 1, out =>
    match out[out.size - distance]? with
    | some b => copyBack distance length (out.push b)
    | none => out

/-- Reads a member of the class at a place of a table. -/
def classMember (classes : Array Class) (place : Nat) : Action Error BitSource Nat :=
  match classes[place]? with
  | none => Action.fail .corrupt
  | some c => number c.extra >>= fun offset => Action.done (c.base + offset)

/-- Reads literals and copies up to the end of the block. Each takes at least one bit, so a bound
on the bits bounds the turns. -/
def contents (codes : Codes) : Nat → Array UInt8 → Action Error BitSource (Array UInt8)
  | 0, _ => Action.fail .incomplete
  | turns + 1, out => do
    let symbol ← codes.literals.read
    if symbol < endOfBlock then
      contents codes turns (out.push (UInt8.ofNat symbol))
    else if symbol = endOfBlock then
      return out
    else
      let length ← classMember lengthClasses (symbol - 257)
      let place ← codes.distances.read
      let distance ← classMember distanceClasses place
      if distance ≤ out.size then
        contents codes turns (copyBack distance length out)
      else
        Action.fail .corrupt

/-- Reads an uncompressed block: its length, the complement of its length, its bytes. -/
def storedBlock (out : Array UInt8) : Action Error BitSource (Array UInt8) := do
  align
  let low ← byte
  let high ← byte
  let lowComplement ← byte
  let highComplement ← byte
  if low.toNat + lowComplement.toNat = 255 ∧ high.toNat + highComplement.toNat = 255 then
    let taken ← wholeBytes (low.toNat + 256 * high.toNat)
    return out ++ taken
  else
    Action.fail .corrupt

/-- Reads the word lengths of `total` symbols, written in a code of their own: a length itself,
the last length 3 to 6 times more, or a run of 3 to 10 or of 11 to 138 zeros. The lengths read are
kept last first. -/
def statedLengths (code : Code) (total : Nat) : Nat → List Nat → Action Error BitSource (List Nat)
  | 0, _ => Action.fail .corrupt
  | turns + 1, lengths =>
    if lengths.length = total then Action.done lengths.reverse
    -- A run went on behind the last symbol.
    else if lengths.length > total then Action.fail .corrupt
    else do
      let symbol ← code.read
      if symbol < 16 then
        statedLengths code total turns (symbol :: lengths)
      else if symbol = 16 then
        match lengths with
        | [] => Action.fail .corrupt
        | last :: _ =>
          let more ← number 2
          statedLengths code total turns (List.replicate (3 + more) last ++ lengths)
      else if symbol = 17 then
        let more ← number 3
        statedLengths code total turns (List.replicate (3 + more) 0 ++ lengths)
      else
        let more ← number 7
        statedLengths code total turns (List.replicate (11 + more) 0 ++ lengths)

/-- The code with the given word lengths, where a block may state it: it leaves nothing unused, or
it has no word, or one word of one bit. -/
def statedCode (lengths : List Nat) : Action Error BitSource Code :=
  if Code.complete lengths ∨ Code.occurring lengths = 0 ∨ Code.isSingleBit lengths then
    Action.done (.ofLengths lengths)
  else Action.fail .corrupt

def statedCodes : Action Error BitSource Codes := do
  let literals := 257 + (← number 5)
  let distances := 1 + (← number 5)
  let stated := 4 + (← number 4)
  if literals > maxLiterals ∨ distances > maxDistances then
    Action.fail .corrupt
  else
    let written ← Action.times (number 3) stated
    let placed := statedOrder.zip written
    let lengths := (List.range 19).map fun symbol => (placed.lookup symbol).getD 0
    -- This code must use up all words. Those that it states may also be empty or have one word.
    if Code.complete lengths then
      let total := literals + distances
      let all ← statedLengths (.ofLengths lengths) total (total + 1) []
      let literalCode ← statedCode (all.take literals)
      let distanceCode ← statedCode (all.drop literals)
      return ⟨literalCode, distanceCode⟩
    else
      Action.fail .corrupt

/-- Reads one block; the flag says whether it is the last. -/
def block (turns : Nat) (out : Array UInt8) : Action Error BitSource (Bool × Array UInt8) := do
  let last ← bit
  let kind ← number 2
  if kind = 0 then
    return (last, ← storedBlock out)
  else if kind = 1 then
    return (last, ← contents fixedCodes turns out)
  else if kind = 2 then
    let codes ← statedCodes
    return (last, ← contents codes turns out)
  else
    Action.fail .corrupt

def blocks : Nat → Array UInt8 → Action Error BitSource (Array UInt8)
  | 0, _ => Action.fail .incomplete
  | turns + 1, out => do
    let (last, out) ← block turns out
    if last then return out else blocks turns out

def expand (payload : Bytes) : Except Error Bytes :=
  let source : BitSource := { bytes := payload }
  ((blocks (source.size + 1) #[] source).1).map Array.toList

end DeviceLog.Deflate
