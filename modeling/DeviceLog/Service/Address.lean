import DeviceLog.Text.Quoted

/-! # Socket addresses

A service listens at an address of four numbers or of eight groups, and at a socket there, which has
a number.

* `SocketAddress.ofText?` reads an address. Four numbers are written with points between them and
  without zeros in front; eight groups are written in hexadecimal in brackets, with colons between
  them, where one run of zeros may be left out and the last two groups may be written as four
  numbers.
* `SocketAddress.text` writes an address in one way only: the longest run of zero groups is left
  out.
-/

namespace DeviceLog

/-- Four numbers below 256. -/
structure Quad where
  a : Nat
  b : Nat
  c : Nat
  d : Nat
  deriving DecidableEq, Repr

/-- Where a service listens. -/
inductive SocketAddress where
  | four (host : Quad) (socket : Nat)
  /-- Eight groups below 65536, and the number of the network they belong to. -/
  | eight (groups : List Nat) (scope socket : Nat)
  deriving DecidableEq, Repr

namespace SocketAddress

/-! ## Numbers -/

/-- The value of a digit, in the base given. -/
def digitOf (base : Nat) (c : Char) : Option Nat :=
  let n := c.toNat
  let value :=
    if 48 ≤ n ∧ n ≤ 57 then some (n - 48)
    else if 65 ≤ n ∧ n ≤ 90 then some (n - 55)
    else if 97 ≤ n ∧ n ≤ 122 then some (n - 87)
    else none
  value.filter (· < base)

/-- The digits at the front, and what follows them. -/
def digits (base : Nat) : List Char → List Nat × List Char
  | [] => ([], [])
  | c :: rest =>
    match digitOf base c with
    | none => ([], c :: rest)
    | some d =>
      let (found, rest) := digits base rest
      (d :: found, rest)

/-- How a number is written. -/
structure NumberRule where
  base : Nat
  width : Option Nat := none
  padded : Bool
  greatest : Nat

def number (rule : NumberRule) (cs : List Char) : Option (Nat × List Char) :=
  let (found, rest) := digits rule.base cs
  let value := found.foldl (fun n d => n * rule.base + d) 0
  if found = [] ∨ rule.width.any (· < found.length) then none
  else if ¬rule.padded ∧ found.head? = some 0 ∧ found.length ≠ 1 then none
  else if rule.greatest < value then none
  else some (value, rest)

def octet : NumberRule := { base := 10, width := some 3, padded := false, greatest := 255 }

def group : NumberRule := { base := 16, width := some 4, padded := true, greatest := 65535 }

def socketRule : NumberRule := { base := 10, padded := true, greatest := 65535 }

def scopeRule : NumberRule := { base := 10, padded := true, greatest := UInt32.size - 1 }

/-! ## Reading -/

def pass (c : Char) : List Char → Option (List Char)
  | [] => none
  | d :: rest => if d = c then some rest else none

def quad (cs : List Char) : Option (Quad × List Char) := do
  let (a, cs) ← number octet cs
  let (b, cs) ← pass '.' cs >>= number octet
  let (c, cs) ← pass '.' cs >>= number octet
  let (d, cs) ← pass '.' cs >>= number octet
  return (⟨a, b, c, d⟩, cs)

/-- What has been read of the groups. -/
structure Groups where
  found : List Nat
  endsInQuad : Bool
  rest : List Char

/-- Reads groups with colons between them, at most `room` of them. `first` says that no colon comes
before the next. -/
def groups (first : Bool) : Nat → List Char → Groups
  | 0, cs => ⟨[], false, cs⟩
  | room + 1, cs =>
    let start := if first then some cs else pass ':' cs
    match if room = 0 then none else start >>= quad with
    | some (q, rest) => ⟨[q.a * 256 + q.b, q.c * 256 + q.d], true, rest⟩
    | none =>
      match start >>= number group with
      | none => ⟨[], false, cs⟩
      | some (g, rest) =>
        let more := groups false room rest
        ⟨g :: more.found, more.endsInQuad, more.rest⟩

/-- Reads eight groups, or fewer with two colons in place of those that are zero. -/
def eightGroups (cs : List Char) : Option (List Nat × List Char) := do
  let front := groups true 8 cs
  if front.found.length = 8 then return (front.found, front.rest)
  guard ¬front.endsInQuad
  let cs ← pass ':' front.rest >>= pass ':'
  let back := groups true (7 - front.found.length) cs
  let zeros := List.replicate (8 - front.found.length - back.found.length) 0
  return (front.found ++ zeros ++ back.found, back.rest)

/-- Reads the number of a network, if there is one. -/
def scope (cs : List Char) : Nat × List Char :=
  match pass '%' cs >>= number scopeRule with
  | some (n, rest) => (n, rest)
  | none => (0, cs)

/-- Reads the number of a socket, up to the end. -/
def socket (cs : List Char) : Option Nat := do
  let (n, rest) ← pass ':' cs >>= number socketRule
  guard (rest = [])
  return n

def fourOfText? (cs : List Char) : Option SocketAddress := do
  let (host, cs) ← quad cs
  return .four host (← socket cs)

def eightOfText? (cs : List Char) : Option SocketAddress := do
  let (groups, cs) ← pass '[' cs >>= eightGroups
  let (scope, cs) := scope cs
  let cs ← pass ']' cs
  return .eight groups scope (← socket cs)

def ofText? (s : String) : Option SocketAddress :=
  (fourOfText? s.toList).orElse fun () => eightOfText? s.toList

/-! ## Writing -/

def quadText (q : Quad) : String :=
  String.intercalate "." ([q.a, q.b, q.c, q.d].map toString)

def groupsText (gs : List Nat) : String := String.intercalate ":" (gs.map Text.hex)

def zerosOf (gs : List Nat) : Nat := (gs.takeWhile (· = 0)).length

/-- Where the longest run of zeros begins and how long it is; of several the first. -/
def longestRun (gs : List Nat) : Nat × Nat :=
  (List.range gs.length).foldl (fun best start =>
    let length := zerosOf (gs.drop start)
    if best.2 < length then (start, length) else best) (0, 0)

def eightText (gs : List Nat) : String :=
  match gs with
  | [0, 0, 0, 0, 0, 65535, g, h] =>
    "::ffff:" ++ quadText ⟨g / 256, g % 256, h / 256, h % 256⟩
  | gs =>
    let (start, length) := longestRun gs
    if 1 < length then groupsText (gs.take start) ++ "::" ++ groupsText (gs.drop (start + length))
    else groupsText gs

def text : SocketAddress → String
  | four host socket => quadText host ++ ":" ++ toString socket
  | eight groups scope socket =>
    let network := if scope = 0 then "" else "%" ++ toString scope
    "[" ++ eightText groups ++ network ++ "]:" ++ toString socket

end SocketAddress

end DeviceLog
