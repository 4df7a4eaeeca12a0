/-! # Paths

A path is text in which slashes separate names. It is shown as it was put together.

* `names` tells paths apart: slashes that separate nothing and names that stand for the directory
  itself do not count.
* `steps` leads to what is at a path. There the names that stand for the directory itself count,
  because a step from something that is no directory fails.
* `above?` is the path of the directory that a path is in, by its text alone.
-/

namespace DeviceLog

/-- Where a file is. -/
structure Path where
  text : String
  deriving DecidableEq, Repr

namespace Path

/-- Whether a path begins at the top and not in the working directory. -/
def isAbsolute (p : Path) : Bool := p.text.toList.head? = some '/'

/-- Whether a path ends in a slash, so that it can only name a directory. -/
def endsInSlash (p : Path) : Bool := p.text.toList.getLast? = some '/'

/-- A path inside another. One that begins at the top takes its place. -/
def join (p q : Path) : Path :=
  if q.isAbsolute then q
  else if p.text = "" ∨ p.text.toList.getLast? = some '/' then ⟨p.text ++ q.text⟩
  else ⟨p.text ++ "/" ++ q.text⟩

/-- Text cut at its slashes, after the characters of the piece that has begun, last first. -/
def cut (begun : List Char) : List Char → List String
  | [] => [String.ofList begun.reverse]
  | c :: rest => if c = '/' then String.ofList begun.reverse :: cut [] rest else cut (c :: begun) rest

def top : String := "/"

def here : String := "."

def up : String := ".."

/-- The pieces of a path between its slashes. -/
def pieces (p : Path) : List String := cut [] p.text.toList

/-! ## Names and steps -/

/-- The names of a path in order. The directory itself is only named where a path begins with it. -/
def names (p : Path) : List String :=
  let inner := p.pieces.filter fun n => n ≠ "" ∧ n ≠ here
  if p.isAbsolute then top :: inner
  else if p.pieces.head? = some here then here :: inner
  else inner

/-- The steps of a path in order, whether or not they lead elsewhere. -/
def steps (p : Path) : List String := p.pieces.filter (· ≠ "")

/-! ## The path above -/

/-- Whether a piece that is not the first leads nowhere. -/
def isIdle (piece : String) : Bool := piece = "" ∨ piece = here

/-- Pieces, last first, from the last that leads somewhere. The first is kept in any case. -/
def trimmed : List String → List String
  | [] => []
  | [first] => [first]
  | piece :: rest => if isIdle piece then trimmed rest else piece :: rest

def ofPieces (pieces : List String) : Path :=
  if pieces = [""] then ⟨top⟩ else ⟨String.intercalate "/" pieces.reverse⟩

/-- The paths above that of pieces, last first. The nearest comes first; above the first name there
is the top, or the empty path. -/
def abovePieces : List String → List Path
  | [] => []
  | [first] => if first = "" then [] else [⟨""⟩]
  | piece :: rest =>
    if isIdle piece then abovePieces rest else ofPieces (trimmed rest) :: abovePieces rest

/-- The paths above a path, the nearest first. -/
def allAbove (p : Path) : List Path := abovePieces p.pieces.reverse

def above? (p : Path) : Option Path := p.allAbove.head?

end Path

end DeviceLog
