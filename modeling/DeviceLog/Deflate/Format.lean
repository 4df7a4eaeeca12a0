import DeviceLog.Deflate.Code

/-! # Tables of the compressed format

A compressed block is a sequence of literal bytes and of copies, each copy a length from 3 to 258
and a distance from 1 to 32768 back in the output. Lengths and distances are written as a class
and the offset within the class, of a fixed number of bits.
-/

namespace DeviceLog.Deflate

/-- A class of lengths or of distances: the least one, and the bits of the offset from it. -/
structure Class where
  base : Nat
  extra : Nat
  deriving DecidableEq, Repr

def endOfBlock : Nat := 256

/-- The classes of copy lengths; the first has symbol 257. -/
def lengthClasses : Array Class := #[
  ⟨3, 0⟩, ⟨4, 0⟩, ⟨5, 0⟩, ⟨6, 0⟩, ⟨7, 0⟩, ⟨8, 0⟩, ⟨9, 0⟩, ⟨10, 0⟩, ⟨11, 1⟩, ⟨13, 1⟩,
  ⟨15, 1⟩, ⟨17, 1⟩, ⟨19, 2⟩, ⟨23, 2⟩, ⟨27, 2⟩, ⟨31, 2⟩, ⟨35, 3⟩, ⟨43, 3⟩, ⟨51, 3⟩, ⟨59, 3⟩,
  ⟨67, 4⟩, ⟨83, 4⟩, ⟨99, 4⟩, ⟨115, 4⟩, ⟨131, 5⟩, ⟨163, 5⟩, ⟨195, 5⟩, ⟨227, 5⟩, ⟨258, 0⟩]

def distanceClasses : Array Class := #[
  ⟨1, 0⟩, ⟨2, 0⟩, ⟨3, 0⟩, ⟨4, 0⟩, ⟨5, 1⟩, ⟨7, 1⟩, ⟨9, 2⟩, ⟨13, 2⟩, ⟨17, 3⟩, ⟨25, 3⟩,
  ⟨33, 4⟩, ⟨49, 4⟩, ⟨65, 5⟩, ⟨97, 5⟩, ⟨129, 6⟩, ⟨193, 6⟩, ⟨257, 7⟩, ⟨385, 7⟩, ⟨513, 8⟩, ⟨769, 8⟩,
  ⟨1025, 9⟩, ⟨1537, 9⟩, ⟨2049, 10⟩, ⟨3073, 10⟩, ⟨4097, 11⟩, ⟨6145, 11⟩, ⟨8193, 12⟩, ⟨12289, 12⟩,
  ⟨16385, 13⟩, ⟨24577, 13⟩]

/-- The class that a length or distance belongs to, by its place in the table: the last one whose
least member does not exceed it. -/
def classOf (classes : Array Class) (n : Nat) : Nat :=
  (classes.toList.takeWhile fun c => c.base ≤ n).length - 1

/-- The word lengths of the code for literals and copy lengths that is not stated in the block. -/
def fixedLiteralLengths : List Nat :=
  List.replicate 144 8 ++ List.replicate 112 9 ++ List.replicate 24 7 ++ List.replicate 8 8

/-- The word lengths of the code for distances that is not stated in the block. -/
def fixedDistanceLengths : List Nat := List.replicate 32 5

structure Codes where
  literals : Code
  distances : Code

/-- The codes of a block that states none. -/
def fixedCodes : Codes := ⟨.ofLengths fixedLiteralLengths, .ofLengths fixedDistanceLengths⟩

/-- The order in which a block states the word lengths of the code that its other word lengths
are written in. -/
def statedOrder : List Nat := [16, 17, 18, 0, 8, 7, 9, 6, 10, 5, 11, 4, 12, 3, 13, 2, 14, 1, 15]

/-- The most symbols a block may state word lengths for: literals with copy lengths, distances. -/
def maxLiterals : Nat := 286

/-- The most distance classes a block may state word lengths for. -/
def maxDistances : Nat := 30

/-- The most bytes that one uncompressed block holds. -/
def maxStored : Nat := 65535

end DeviceLog.Deflate
