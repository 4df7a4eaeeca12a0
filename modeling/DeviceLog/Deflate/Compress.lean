import DeviceLog.Deflate.Batch
import DeviceLog.Deflate.Format
import DeviceLog.Deflate.WordLengths

/-! # Compressing

`compress` writes a payload that stands for the given bytes. At level zero they are stored as they
are. At other levels they are written as literals and copies, in one block for each batch of them: in
the fixed codes where they stand for few bytes, otherwise in codes made for them, and as they are
where that saves nothing.
-/

namespace DeviceLog.Deflate

/-! ## Uncompressed blocks -/

/-- What comes before the bytes of an uncompressed block: their number, and the same with every bit
changed. -/
def storedHead (count : Nat) : Bytes :=
  let low := count % 256
  let high := count / 256
  [UInt8.ofNat low, UInt8.ofNat high, UInt8.ofNat (255 - low), UInt8.ofNat (255 - high)]

def stored (last : Bool) (bytes : Bytes) : Bytes :=
  (if last then 1 else 0) :: storedHead bytes.length ++ bytes

def storedBlocks (bytes : Bytes) : Bytes :=
  if bytes.length ≤ maxStored then stored true bytes
  else stored false (bytes.take maxStored) ++ storedBlocks (bytes.drop maxStored)
termination_by bytes.length
decreasing_by simp [maxStored] at *; omega

/-! ## Compressed blocks -/

structure Words where
  literals : Array (List Bool)
  distances : Array (List Bool)

def Codes.words (codes : Codes) : Words := ⟨codes.literals.words 288, codes.distances.words 32⟩

/-- Writes the place of a class and the offset within it. -/
def Packer.member (p : Packer) (classes : Array Class) (words : Array (List Bool)) (first n : Nat) :
    Packer :=
  let place := classOf classes n
  let c := classes.getD place ⟨n, 0⟩
  (p.append (words.getD (first + place) [])).append (numberBits (n - c.base) c.extra)

def Packer.token (words : Words) (p : Packer) : Token → Packer
  | .literal b => p.append (words.literals.getD b.toNat [])
  | .copy length distance =>
    (p.member lengthClasses words.literals 257 length).member distanceClasses words.distances 0
      distance

/-- Writes tokens and the end of the block. -/
def Packer.tokens (p : Packer) (words : Words) (ts : Array Token) : Packer :=
  (ts.foldl (Packer.token words) p).append (words.literals.getD endOfBlock [])

def countOne (counts : Array Nat) (symbol : Nat) : Array Nat := counts.modify symbol (· + 1)

/-- How often each literal and length class occurs, the end of the block included, and each
distance class. -/
def tokenCounts (ts : Array Token) : Array Nat × Array Nat :=
  ts.foldl (fun counts t =>
    match t with
    | .literal b => (countOne counts.1 b.toNat, counts.2)
    | .copy length distance =>
      (countOne counts.1 (257 + classOf lengthClasses length),
        countOne counts.2 (classOf distanceClasses distance)))
    (countOne (Array.replicate maxLiterals 0) endOfBlock, Array.replicate maxDistances 0)

/-- A list without the zeros at its end, but at least so long. -/
def trimZeros (atLeast : Nat) (lengths : List Nat) : List Nat :=
  let kept := (lengths.reverse.dropWhile (· == 0)).length
  lengths.take (max atLeast kept)

/-- A symbol of the code that word lengths are written in, with the bits after it. -/
structure LengthSymbol where
  symbol : Nat
  offset : Nat := 0
  extra : Nat := 0

def zeroRun : Nat → Nat → List LengthSymbol
  | 0, _ => []
  | turns + 1, count =>
    if count = 0 then []
    else if count < 3 then ⟨0, 0, 0⟩ :: zeroRun turns (count - 1)
    else if count ≤ 10 then [⟨17, count - 3, 3⟩]
    else
      let taken := min count 138
      ⟨18, taken - 11, 7⟩ :: zeroRun turns (count - taken)

def sameRun (length : Nat) : Nat → Nat → List LengthSymbol
  | 0, _ => []
  | turns + 1, count =>
    if count = 0 then []
    else if count < 3 then ⟨length, 0, 0⟩ :: sameRun length turns (count - 1)
    else
      let taken := min count 6
      ⟨16, taken - 3, 2⟩ :: sameRun length turns (count - taken)

def lengthSymbols : Nat → List Nat → List LengthSymbol
  | 0, _ => []
  | _ + 1, [] => []
  | turns + 1, length :: rest =>
    let more := (rest.takeWhile (· == length)).length
    let after := rest.drop more
    if length = 0 then zeroRun (more + 1) (more + 1) ++ lengthSymbols turns after
    else ⟨length, 0, 0⟩ :: sameRun length more more ++ lengthSymbols turns after

/-- Writes a block in the fixed codes, from its kind on. -/
def Packer.fixed (p : Packer) (ts : Array Token) : Packer :=
  (p.append [true, false]).tokens fixedCodes.words ts

/-- Writes a block in codes made for its tokens, from its kind on. -/
def Packer.made (p : Packer) (ts : Array Token) : Packer :=
  let counts := tokenCounts ts
  let literals := trimZeros 257 (WordLengths.ofCounts 15 counts.1.toList)
  let distances := trimZeros 1 (WordLengths.ofCounts 15 counts.2.toList)
  let all := literals ++ distances
  let symbols := lengthSymbols all.length all
  let symbolCounts := symbols.foldl (fun counts s => countOne counts s.symbol) (Array.replicate 19 0)
  let lengths := WordLengths.ofCounts 7 symbolCounts.toList
  let written := trimZeros 4 (statedOrder.map fun symbol => lengths.getD symbol 0)
  let lengthWords := (Code.ofLengths lengths).words 19
  let p := p.append [false, true]
  let p := p.append (numberBits (literals.length - 257) 5)
  let p := p.append (numberBits (distances.length - 1) 5)
  let p := p.append (numberBits (written.length - 4) 4)
  let p := written.foldl (fun p length => p.append (numberBits length 3)) p
  let p := symbols.foldl (fun p s =>
    (p.append (lengthWords.getD s.symbol [])).append (numberBits s.offset s.extra)) p
  p.tokens (Codes.mk (.ofLengths literals) (.ofLengths distances)).words ts

/-! ## Batches -/

/-- Tokens that stand for fewer bytes are not worth stating codes. -/
def worthStating : Nat := 48

/-- So few bytes are not worth storing as they are. -/
def notWorthStoring : Nat := 32

/-- The most bytes that are stored as they are in place of a batch. -/
def window : Nat := 32768

/-- Writes a batch, given the bytes that it stands for. -/
def Packer.batch (p : Packer) (last : Bool) (batch : Batch) (bytes : Bytes) : Packer :=
  let p := p.append [last]
  let coded := if batch.covered < worthStating then p.fixed batch.tokens else p.made batch.tokens
  -- The coded block is made in any case, to see what it would take.
  if notWorthStoring < batch.covered ∧ batch.covered ≤ window
      ∧ batch.covered ≤ coded.bytes.size - p.bytes.size + 1 then
    (p.append [false, false]).appendBytes (storedHead batch.covered ++ bytes)
  else coded

/-- Writes batches one after the other, given the bytes that they stand for together. -/
def Packer.batches (p : Packer) (last : Batch) : List Batch → Bytes → Packer
  | [], bytes => p.batch true last bytes
  | batch :: rest, bytes =>
    let (here, after) := bytes.splitAt batch.covered
    (p.batch false batch here).batches last rest after

/-- A byte string in batches of literals and copies. -/
def inBatches (level : Nat) (bytes : Bytes) : Bytes :=
  let made := batches level bytes.toArray
  (({} : Packer).batches made.current made.done.toList bytes).finish

/-- A payload that stands for the given bytes. -/
def compress (level : Nat) (bytes : Bytes) : Bytes :=
  if level = 0 then storedBlocks bytes else inBatches level bytes

end DeviceLog.Deflate
