import DeviceLog.Deflate.Format

/-! # Repeats

Before it is written, a byte string is turned into literals and copies of earlier stretches.

* `quickTokens` looks at one earlier place only, the latest token that began with the same three
  bytes, and takes the copy that it finds.
* `searchedTokens` tries the earlier places that begin in the same way, the latest first and only so
  many of them. A patient writer takes the longest copy only if the next place has no longer one.
* `tokens` chooses by the compression level.
-/

namespace DeviceLog.Deflate

/-- One step of writing out a byte string. -/
inductive Token where
  | literal (b : UInt8)
  | copy (length distance : Nat)
  deriving DecidableEq, Repr

namespace Repeats

def minLength : Nat := 3

/-- The longest stretch that one copy can state. -/
def maxLength : Nat := 258

/-- The farthest back that a copy can reach. -/
def maxDistance : Nat := 32768

/-- A copy of the shortest stretch from so far back is not worth it. -/
def farAway : Nat := 8192

/-- A stretch that a copy is sought for: its length and how far back it is found. No distance stands
for none. -/
structure Stretch where
  length : Nat
  distance : Nat
  deriving DecidableEq, Repr

def Stretch.pays (s : Stretch) : Bool :=
  s.distance ≠ 0 ∧ minLength ≤ s.length ∧ (s.length ≠ minLength ∨ s.distance < farAway)

def byteAt (data : Array UInt8) (i : Nat) : Nat := (data.getD i 0).toNat

/-- How many bytes from `i` and `j` on agree, at most `bound`. -/
def agreement (data : Array UInt8) (i j : Nat) : Nat → Nat
  | 0 => 0
  | bound + 1 =>
    match data[i]?, data[j]? with
    | some a, some b => if a == b then agreement data (i + 1) (j + 1) bound + 1 else 0
    | _, _ => 0

/-! ## Looking at one place -/

/-- The number of stretches of bytes that are looked at together. -/
def chunk : Nat := 4096

/-- The slot of a place among those of the latest tokens, by its first three bytes. -/
def slotOf (data : Array UInt8) (i : Nat) : Nat :=
  let three := byteAt data i + 256 * byteAt data (i + 1) + 65536 * byteAt data (i + 2)
  (three ^^^ (three / 131072)) % chunk

/-- The tokens from a place on, after the ones before it, `latest` being the place of the latest
token for each slot. No copy leaves its chunk, and the last bytes of a chunk are literals. Each turn
passes one place at least. -/
def quickFrom (data : Array UInt8) : Nat → Nat → Array Nat → Array Token → Array Token
  | 0, _, _, out => out
  | turns + 1, i, latest, out =>
    match data[i]? with
    | none => out
    | some b =>
      let room := min (data.size - i) (chunk - i % chunk)
      if room ≤ minLength then quickFrom data turns (i + 1) latest (out.push (.literal b))
      else
        let slot := slotOf data i
        -- A slot that nothing was put into stands for the first place. The bytes are compared in
        -- any case, since different ones may have the same slot.
        let j := latest.getD slot 0
        let latest := latest.setIfInBounds slot i
        let reach := min i (maxDistance - room)
        let found : Stretch :=
          ⟨if i - j ≤ reach then agreement data j i (min room maxLength) else 0, i - j⟩
        if found.pays then
          quickFrom data turns (i + found.length) latest
            (out.push (.copy found.length found.distance))
        else quickFrom data turns (i + 1) latest (out.push (.literal b))

/-- A byte string as literals and copies, with one earlier place looked at. -/
def quickTokens (data : Array UInt8) : Array Token :=
  quickFrom data data.size 0 (Array.replicate chunk 0) #[]

/-! ## Trying places -/

/-- The number of lists that places are kept in. -/
def lists : Nat := 32768

/-- The list that a place belongs to, by its first three bytes. -/
def listOf (data : Array UInt8) (i : Nat) : Nat :=
  ((byteAt data i * 1024) ^^^ (byteAt data (i + 1) * 32) ^^^ byteAt data (i + 2)) % lists

/-- For each place the one before it in its list, after those already known. Zero stands for none,
so nothing is copied from the first place. -/
def earlierFrom (data : Array UInt8) : Nat → Array Nat → Array Nat → Array Nat
  | 0, _, earlier => earlier
  | turns + 1, latest, earlier =>
    let i := earlier.size
    let list := listOf data i
    earlierFrom data turns (latest.setIfInBounds list i) (earlier.push (latest.getD list 0))

/-- For each place that three bytes begin at, the one before it in its list. -/
def earlierPlaces (data : Array UInt8) : Array Nat :=
  earlierFrom data (data.size - (minLength - 1)) (Array.replicate lists 0) #[]

/-- How hard copies are looked for at each compression level; higher levels look as hard as the last
one listed. -/
def effort (level : Nat) : Nat :=
  #[0, 1, 6, 32, 16, 32, 128, 256, 512, 768, 1500].getD level 1500

/-- How many tries there are; fewer once there is a good stretch. -/
def triesFor (level length : Nat) : Nat :=
  let effort := if length < 32 then effort level else effort level / 4
  (effort + 2) / 3 + 1

/-- A search at a place. -/
structure Search where
  data : Array UInt8
  earlier : Array Nat
  place : Nat
  reach : Nat
  room : Nat

namespace Search

/-- Whether the bytes that would make the best stretch longer are at another place too. -/
def mayImprove (s : Search) (j : Nat) (best : Stretch) : Bool :=
  let last := best.length - 1
  byteAt s.data (j + last) = byteAt s.data (s.place + last)
    ∧ byteAt s.data (j + last + 1) = byteAt s.data (s.place + last + 1)

/-- The best stretch at the places before one in its list. A try ends at a place that may improve
it, or after three places; `steps` of them are left in this one. -/
def improve (s : Search) : Nat → Nat → Nat → Nat → Stretch → Stretch
  | 0, _, _, _, best => best
  | turns + 1, tries, 0, j, best =>
    if tries ≤ 1 then best else s.improve turns (tries - 1) 3 j best
  | turns + 1, tries, steps + 1, j, best =>
    let next := s.earlier.getD j 0
    -- The list ends here, or goes on out of reach.
    if next = 0 ∨ s.reach < s.place - next then best
    else if s.mayImprove next best then
      let length := agreement s.data next s.place s.room
      if best.length < length then
        let better : Stretch := ⟨length, s.place - next⟩
        if length = s.room then better else s.improve turns tries 0 next better
      else s.improve turns tries 0 next best
    else s.improve turns tries steps next best

/-- The best stretch that is longer than a length. -/
def beyond (s : Search) (level length : Nat) : Stretch :=
  if s.room ≤ length then ⟨length, 0⟩
  else
    let tries := triesFor level length
    s.improve (4 * tries) tries 0 s.place ⟨length, 0⟩

end Search

/-- The best stretch at a place that is longer than a length. -/
def bestAt (data : Array UInt8) (earlier : Array Nat) (level i length : Nat) : Stretch :=
  let room := min (data.size - i) maxLength
  Search.beyond ⟨data, earlier, i, min i (maxDistance - room), room⟩ level length

/-- The least length of a stretch that is taken without looking at the next place. -/
def goodEnough : Nat := 128

/-- A stretch that was found at the place before, with the byte there. -/
structure Pending where
  byte : UInt8
  stretch : Stretch

/-- The tokens from a place on, after the ones before it. Each turn passes one place at least. -/
def searchedFrom (data : Array UInt8) (earlier : Array Nat) (level : Nat) (patient : Bool) :
    Nat → Nat → Option Pending → Array Token → Array Token
  | 0, _, _, out => out
  | turns + 1, i, pending, out =>
    match data[i]? with
    | none => out
    | some b =>
      match pending with
      | some p =>
        let found := bestAt data earlier level i p.stretch.length
        if found.pays ∧ p.stretch.length < found.length then
          -- There is a longer stretch one place on, so the byte before it stays alone.
          let out := out.push (.literal p.byte)
          if goodEnough ≤ found.length then
            searchedFrom data earlier level patient turns (i + found.length) none
              (out.push (.copy found.length found.distance))
          else searchedFrom data earlier level patient turns (i + 1) (some ⟨b, found⟩) out
        else
          -- The first byte of the stretch has been passed already.
          searchedFrom data earlier level patient turns (i + (p.stretch.length - 1)) none
            (out.push (.copy p.stretch.length p.stretch.distance))
      | none =>
        let found := bestAt data earlier level i (minLength - 1)
        if ¬found.pays then
          searchedFrom data earlier level patient turns (i + 1) none (out.push (.literal b))
        else if ¬patient ∨ goodEnough ≤ found.length then
          searchedFrom data earlier level patient turns (i + found.length) none
            (out.push (.copy found.length found.distance))
        else searchedFrom data earlier level patient turns (i + 1) (some ⟨b, found⟩) out

/-- A byte string as literals and copies, with earlier places tried. -/
def searchedTokens (level : Nat) (patient : Bool) (data : Array UInt8) : Array Token :=
  searchedFrom data (earlierPlaces data) level patient data.size 0 none #[]

/-! ## Levels -/

/-- Whether a level asks for one look only. -/
def isQuick (level : Nat) : Bool := level ≤ 1

def tokens (level : Nat) (data : Array UInt8) : Array Token :=
  if isQuick level then quickTokens data else searchedTokens level (3 < level) data

end Repeats

end DeviceLog.Deflate
