import DeviceLog.Action
import DeviceLog.Storage.Path
import DeviceLog.Text.Utf8

/-! # The file system

A file system is a value: which files and directories there are, and what the files hold. It also
holds what is to befall the writes to come. There may be a greatest length of files, and each of the
next writes may be cut short.

* `find`, `at?`, `read`, `exists?` and `isDirectory` look at it.
* `makeDirectory`, `makeDirectories`, `openFile`, `append`, `setLength` and `sync` are actions on
  it. One that fails leaves what it has already done.
-/

namespace DeviceLog

/-- Why the file system refuses an action. -/
inductive IoError where
  | notFound
  | notADirectory
  | isADirectory
  | alreadyExists
  | invalidFilename
  | invalidInput
  | fileTooLarge
  deriving DecidableEq, Repr

def IoError.name : IoError → String
  | notFound => "NotFound"
  | notADirectory => "NotADirectory"
  | isADirectory => "IsADirectory"
  | alreadyExists => "AlreadyExists"
  | invalidFilename => "InvalidFilename"
  | invalidInput => "InvalidInput"
  | fileTooLarge => "FileTooLarge"

/-- The names that lead from the top to a file or directory. -/
abbrev Place := List String

/-- What is at a place. -/
inductive Entry where
  | directory
  | file (content : Bytes)
  deriving DecidableEq

/-- What befalls a write or a flush. -/
inductive Fate where
  | whole
  | cut (bytes : Nat)
  deriving DecidableEq, Repr

structure FileSystem where
  entries : List (Place × Entry) := []
  /-- The directory in which paths begin that do not begin at the top. -/
  working : Place := []
  limit : Option Nat := none
  /-- What befalls the next writes and flushes; those after them go through. -/
  fates : List Fate := []

namespace FileSystem

/-! ## Entries -/

/-- What is at a place. The top is always there. -/
def entry? (fs : FileSystem) (place : Place) : Option Entry :=
  if place = [] then some .directory else fs.entries.lookup place

def setEntry (place : Place) (e : Entry) : List (Place × Entry) → List (Place × Entry)
  | [] => [(place, e)]
  | (other, f) :: rest =>
    if other = place then (place, e) :: rest else (other, f) :: setEntry place e rest

/-- The file system with something at a place. -/
def set (fs : FileSystem) (place : Place) (e : Entry) : FileSystem :=
  { fs with entries := setEntry place e fs.entries }

def content? (fs : FileSystem) (place : Place) : Option Bytes :=
  match fs.entry? place with
  | some (.file content) => some content
  | _ => none

/-! ## Finding places -/

def longestName : Nat := 255

def longestPath : Nat := 4095

/-- The place that a step leads to from another, which must be that of a directory. Above the top
there is the top. -/
def enter (fs : FileSystem) (place : Place) (name : String) : Except IoError Place :=
  match fs.entry? place with
  | none => .error .notFound
  | some (.file _) => .error .notADirectory
  | some .directory =>
    if name = Path.here then .ok place
    else if name = Path.up then .ok place.dropLast
    else if (Utf8.encode name).length > longestName then .error .invalidFilename
    else .ok (place ++ [name])

/-- The place that steps lead to from where a path begins, if the path can be used at all. All
steps but the last must lead to directories. -/
def follow (fs : FileSystem) (path : Path) (steps : List String) : Except IoError Place :=
  if path.text.toList.contains (Char.ofNat 0) then .error .invalidInput
  else if path.text.utf8ByteSize > longestPath then .error .invalidFilename
  else if path.text = "" then .error .notFound
  else steps.foldlM fs.enter (if path.isAbsolute then [] else fs.working)

/-- The place of a path that is to be looked at. A slash at the end is a step to the directory
itself. -/
def find (fs : FileSystem) (path : Path) : Except IoError Place :=
  fs.follow path (path.steps ++ if path.endsInSlash then [Path.here] else [])

/-- The place of a path at which a directory is to be made. A slash at the end does not matter. -/
def findForDirectory (fs : FileSystem) (path : Path) : Except IoError Place :=
  fs.follow path path.steps

/-- The place of a path at which a file is to be written. A slash at the end shows that a directory
is meant; that is found out in the directory above. -/
def findForFile (fs : FileSystem) (path : Path) : Except IoError Place :=
  if path.endsInSlash then
    -- The step to the directory itself fails where there is none above.
    match fs.follow path (path.steps.dropLast ++ [Path.here]) with
    | .error e => .error e
    | .ok _ => .error .isADirectory
  else fs.follow path path.steps

def at? (fs : FileSystem) (path : Path) : Option Entry :=
  match fs.find path with
  | .ok place => fs.entry? place
  | .error _ => none

def exists? (fs : FileSystem) (path : Path) : Bool := (fs.at? path).isSome

/-- Whether there is a directory at a path. -/
def isDirectory (fs : FileSystem) (path : Path) : Bool := fs.at? path = some .directory

def read (fs : FileSystem) (path : Path) : Except IoError Bytes :=
  match fs.find path with
  | .error e => .error e
  | .ok place =>
    match fs.entry? place with
    | none => .error .notFound
    | some .directory => .error .isADirectory
    | some (.file content) => .ok content

/-- What the nearest file of a name holds, in a directory or above it. The place of the directory is
given last name first. -/
def nearest? (fs : FileSystem) (name : String) : List String → Option Bytes
  | [] => fs.content? [name]
  | step :: above =>
    match fs.content? ((step :: above).reverse ++ [name]) with
    | some content => some content
    | none => nearest? fs name above

/-- What a place is called below another, if it is below it. -/
def below (place : Place) (other : Place) : Option (List String) :=
  if place.isPrefixOf other ∧ place ≠ other then some (other.drop place.length) else none

/-- Everything below a path, by the names that lead there. -/
def entriesBelow (fs : FileSystem) (path : Path) : List (List String × Entry) :=
  match fs.find path with
  | .error _ => []
  | .ok place => fs.entries.filterMap fun e => (below place e.1).map fun names => (names, e.2)

/-! ## Actions -/

abbrev Act (α : Type) := Action IoError FileSystem α

def makeDirectory (path : Path) : Act Unit := fun fs =>
  match fs.findForDirectory path with
  | .error e => (.error e, fs)
  | .ok place =>
    match fs.entry? place with
    | some _ => (.error .alreadyExists, fs)
    | none => (.ok (), fs.set place .directory)

/-- The outcome of making a directory, in which it does no harm that the directory is there. -/
def orDirectory (path : Path) : Except IoError Unit × FileSystem → Except IoError Unit × FileSystem
  | (.ok (), fs) => (.ok (), fs)
  | (.error e, fs) =>
    if e = .alreadyExists ∧ fs.isDirectory path then (.ok (), fs) else (.error e, fs)

/-- Makes a directory, and those above it that are missing. The paths are given nearest first. -/
def makeAll : List Path → Act Unit
  | [] => Action.done ()
  | path :: above => fun fs =>
    match makeDirectory path fs with
    | (.error .notFound, fs) =>
      -- What is above is missing, so it is made first, and then there is a second try.
      match makeAll above fs with
      | (.error e, fs) => (.error e, fs)
      | (.ok (), fs) => orDirectory path (makeDirectory path fs)
    | (r, fs) => orDirectory path (r, fs)

/-- Makes a directory, and those above it that are missing. The empty path asks for none. -/
def makeDirectories (path : Path) : Act Unit :=
  makeAll ((path :: path.allAbove).filter fun p => p.text ≠ "")

/-- Finds the file at a path to write to it, and makes it if there is nothing; also whether it was
made. -/
def openFile (path : Path) : Act (Place × Bool) := fun fs =>
  match fs.findForFile path with
  | .error e => (.error e, fs)
  | .ok place =>
    match fs.entry? place with
    | some .directory => (.error .isADirectory, fs)
    | some (.file _) => (.ok (place, false), fs)
    | none => (.ok (place, true), fs.set place (.file []))

def nextFate (fs : FileSystem) : Fate × FileSystem :=
  match fs.fates with
  | [] => (.whole, fs)
  | fate :: fates => (fate, { fs with fates := fates })

/-- How many bytes of a write reach a file of a length. -/
def room (fs : FileSystem) (fate : Fate) (length : Nat) (bytes : Bytes) : Nat :=
  let byLimit := match fs.limit with
    | none => bytes.length
    | some limit => min bytes.length (limit - length)
  match fate with
  | .whole => byLimit
  | .cut n => min n byLimit

/-- Writes at the end of a file. Where it fails the first bytes may have been written. -/
def append (place : Place) (bytes : Bytes) : Act Unit := fun fs =>
  let (fate, fs) := fs.nextFate
  let before := (fs.content? place).getD []
  let written := fs.room fate before.length bytes
  let fs := fs.set place (.file (before ++ bytes.take written))
  -- The bytes that were written before a failure stay.
  if fate = .whole ∧ written = bytes.length then (.ok (), fs) else (.error .fileTooLarge, fs)

/-- Cuts a file off, or fills it up with zeros, to a length. Only filling up can fail. -/
def setLength (place : Place) (length : Nat) : Act Unit := fun fs =>
  let before := (fs.content? place).getD []
  if before.length < length ∧ fs.limit.any (· < length) then (.error .fileTooLarge, fs)
  else
    let content := before.take length ++ List.replicate (length - before.length) 0
    (.ok (), fs.set place (.file content))

def sync : Act Unit := fun fs =>
  match fs.nextFate with
  | (.whole, fs) => (.ok (), fs)
  | (.cut _, fs) => (.error .fileTooLarge, fs)

end FileSystem

end DeviceLog
