import DeviceLog.Proofs.Storage.Files
import DeviceLog.Proofs.Storage.Path

/-! # Where paths lead

Where the steps of a path lead does not depend on what is there; it only depends on it whether they
can be taken.

* `placeOf start steps` is where the steps lead, and `Walks fs start steps` says that they can be
  taken. `foldlM_enter_iff` ties both to the walk itself.
* `Grows fs gs`: directories stay. A path that could be found is found again, at the same place.
-/

namespace DeviceLog.FileSystem

/-! ## Steps -/

def stepPlace (place : Place) (name : String) : Place :=
  if name = Path.here then place else if name = Path.up then place.dropLast else place ++ [name]

/-- The place that steps lead to. -/
def placeOf (start : Place) (steps : List String) : Place := steps.foldl stepPlace start

/-- A name that is not too long, unless it leads to a place that is there already. -/
def Short (name : String) : Prop :=
  name = Path.here ∨ name = Path.up ∨ (Utf8.encode name).length ≤ longestName

/-- Whether steps can be taken: each begins at a directory. -/
def Walks (fs : FileSystem) (start : Place) : List String → Prop
  | [] => True
  | name :: rest =>
    fs.entry? start = some .directory ∧ Short name ∧ fs.Walks (stepPlace start name) rest

/-- A step leads where it leads if it can be taken. -/
theorem enter_iff {fs : FileSystem} {place next : Place} {name : String} :
    fs.enter place name = .ok next
      ↔ fs.entry? place = some .directory ∧ Short name ∧ next = stepPlace place name := by
  simp only [enter, stepPlace, Short]
  cases h : fs.entry? place with
  | none => simp
  | some e =>
    cases e with
    | file content => simp
    | directory =>
      -- The cases are those of the definition: here, up, and a name that may be too long.
      by_cases hhere : name = Path.here
      · simp [hhere, eq_comm]
      · by_cases hup : name = Path.up
        · simp [hup, show Path.up ≠ Path.here by decide, eq_comm]
        · by_cases hlong : longestName < (Utf8.encode name).length
          · simp [hhere, hup, hlong, Nat.not_le.2 hlong]
          · simp [hhere, hup, hlong, Nat.not_lt.1 hlong, eq_comm]

/-- A walk leads where its steps lead if they can be taken. -/
theorem foldlM_enter_iff {fs : FileSystem} {place : Place} : ∀ {steps : List String} {start : Place},
    steps.foldlM fs.enter start = .ok place ↔ fs.Walks start steps ∧ place = placeOf start steps
  | [], start => by
    simp only [List.foldlM_nil, Walks, true_and, placeOf, List.foldl_nil]
    constructor
    · intro h
      cases h
      rfl
    · rintro rfl
      rfl
  | name :: rest, start => by
    rw [List.foldlM_cons]
    cases h : fs.enter start name with
    | error e =>
      constructor
      · intro hbad
        cases hbad
      · rintro ⟨⟨hstart, hshort, -⟩, -⟩
        rw [enter_iff.2 ⟨hstart, hshort, rfl⟩] at h
        cases h
    | ok next =>
      obtain ⟨hstart, hshort, rfl⟩ := enter_iff.1 h
      show rest.foldlM fs.enter _ = .ok place ↔ _
      rw [foldlM_enter_iff]
      simp only [Walks, hstart, hshort, true_and]
      rfl

theorem placeOf_append (start : Place) (steps more : List String) :
    placeOf start (steps ++ more) = placeOf (placeOf start steps) more :=
  List.foldl_append

theorem walks_append {fs : FileSystem} : ∀ {steps more : List String} {start : Place},
    fs.Walks start (steps ++ more) ↔ fs.Walks start steps ∧ fs.Walks (placeOf start steps) more
  | [], more, start => by simp [Walks, placeOf]
  | name :: rest, more, start => by
    rw [List.cons_append, Walks, Walks, walks_append, and_assoc, and_assoc]
    rfl

/-- Names that lead below lead there one after another. -/
theorem placeOf_names {names : List String} (h : ∀ name ∈ names, name ≠ Path.here ∧ name ≠ Path.up) :
    ∀ start : Place, placeOf start names = start ++ names := by
  induction names with
  | nil => intro start; simp [placeOf]
  | cons name names ih =>
    intro start
    obtain ⟨hhere, hup⟩ := h name List.mem_cons_self
    have hstep : stepPlace start name = start ++ [name] := by
      simp only [stepPlace]
      rw [if_neg hhere, if_neg hup]
    show placeOf (stepPlace start name) names = _
    rw [hstep, ih fun n hn => h n (List.mem_cons_of_mem _ hn)]
    simp

/-! ## Finding -/

def start (fs : FileSystem) (path : Path) : Place := if path.isAbsolute then [] else fs.working

structure Usable (path : Path) : Prop where
  clean : path.text.toList.contains (Char.ofNat 0) = false
  short : path.text.utf8ByteSize ≤ longestPath
  nonempty : path.text ≠ ""

theorem follow_iff {fs : FileSystem} {path : Path} {steps : List String} {place : Place} :
    fs.follow path steps = .ok place
      ↔ Usable path ∧ fs.Walks (fs.start path) steps ∧ place = placeOf (fs.start path) steps := by
  simp only [follow]
  by_cases hclean : path.text.toList.contains (Char.ofNat 0) = true
  · rw [if_pos hclean]
    exact ⟨nofun, fun h => by rw [h.1.clean] at hclean; cases hclean⟩
  · rw [if_neg hclean]
    by_cases hlong : path.text.utf8ByteSize > longestPath
    · rw [if_pos hlong]
      exact ⟨nofun, fun h => absurd h.1.short (Nat.not_le.2 hlong)⟩
    · rw [if_neg hlong]
      by_cases hempty : path.text = ""
      · rw [if_pos hempty]
        exact ⟨nofun, fun h => absurd hempty h.1.nonempty⟩
      · rw [if_neg hempty, foldlM_enter_iff]
        have husable : Usable path := ⟨by simpa using hclean, Nat.not_lt.1 hlong, hempty⟩
        simp only [husable, true_and, start]

/-- The end of a path does not change where it leads. -/
theorem placeOf_here (start : Place) (steps : List String) (slash : Bool) :
    placeOf start (steps ++ if slash then [Path.here] else []) = placeOf start steps := by
  cases slash
  · simp
  · rw [if_pos rfl, placeOf_append]
    rfl

theorem placeOf_of_find {fs : FileSystem} {path : Path} {place : Place} (h : fs.find path = .ok place) :
    place = placeOf (fs.start path) path.steps := by
  rw [(follow_iff.1 h).2.2]
  exact placeOf_here _ _ _

/-- A path without a slash at its end is found if its steps can be taken. -/
theorem find_iff {fs : FileSystem} {path : Path} {place : Place} (hslash : path.endsInSlash = false) :
    fs.find path = .ok place
      ↔ Usable path ∧ fs.Walks (fs.start path) path.steps ∧ place = placeOf (fs.start path) path.steps := by
  have hsteps : path.steps ++ (if path.endsInSlash = true then [Path.here] else []) = path.steps := by
    rw [hslash]
    exact List.append_nil _
  simp only [find]
  rw [hsteps]
  exact follow_iff

/-- A path leads to a directory if its steps can be taken and there is a directory at the end. -/
theorem isDirectory_iff {fs : FileSystem} {path : Path} :
    fs.isDirectory path = true ↔ Usable path ∧ fs.Walks (fs.start path) path.steps
      ∧ fs.entry? (placeOf (fs.start path) path.steps) = some .directory := by
  unfold isDirectory at?
  rw [decide_eq_true_eq]
  constructor
  · intro h
    cases hfind : fs.find path with
    | error e =>
      rw [hfind] at h
      cases h
    | ok place =>
      obtain ⟨husable, hwalks, -⟩ := follow_iff.1 hfind
      cases placeOf_of_find hfind
      rw [hfind] at h
      exact ⟨husable, (walks_append.1 hwalks).1, h⟩
  · rintro ⟨husable, hwalks, hentry⟩
    have hslash : fs.Walks (placeOf (fs.start path) path.steps)
        (if path.endsInSlash then [Path.here] else []) := by
      split
      · exact ⟨hentry, .inl rfl, trivial⟩
      · trivial
    have hfind : fs.find path = .ok (placeOf (fs.start path) path.steps) :=
      follow_iff.2 ⟨husable, walks_append.2 ⟨hwalks, hslash⟩, (placeOf_here _ _ _).symm⟩
    rw [hfind]
    exact hentry

/-- All steps to a directory lead to directories. -/
theorem directory_of_isDirectory {fs : FileSystem} {path : Path} (h : fs.isDirectory path = true)
    {steps : List String} (hsteps : steps <+: path.steps) :
    fs.entry? (placeOf (fs.start path) steps) = some .directory := by
  obtain ⟨-, hwalks, hentry⟩ := isDirectory_iff.1 h
  obtain ⟨more, hmore⟩ := hsteps
  rw [← hmore] at hwalks hentry
  cases more with
  | nil => rwa [List.append_nil] at hentry
  | cons name more => exact (walks_append.1 hwalks).2.1

theorem findForFile_eq_find {fs : FileSystem} {path : Path} (h : path.endsInSlash = false) :
    fs.findForFile path = fs.find path := by
  simp only [findForFile, find]
  rw [h]
  simp

/-- A path that is found for a file has no slash at its end, and is found. -/
theorem find_of_findForFile {fs : FileSystem} {path : Path} {place : Place}
    (h : fs.findForFile path = .ok place) : fs.find path = .ok place := by
  cases hslash : path.endsInSlash with
  | false => rwa [← findForFile_eq_find hslash]
  | true =>
    simp only [findForFile] at h
    rw [hslash, if_pos rfl] at h
    split at h <;> cases h

/-- Where a file is found, a file is found: a slash at the end of the path would have led to a directory. -/
theorem findForFile_of_find {fs : FileSystem} {path : Path} {place : Place} {content : Bytes}
    (hfind : fs.find path = .ok place) (hfile : fs.entry? place = some (.file content)) :
    fs.findForFile path = .ok place := by
  cases hslash : path.endsInSlash with
  | false => rwa [findForFile_eq_find hslash]
  | true =>
    obtain ⟨-, hwalks, -⟩ := follow_iff.1 hfind
    rw [hslash, if_pos rfl] at hwalks
    have hdirectory := (walks_append.1 hwalks).2.1
    rw [← placeOf_of_find hfind, hfile] at hdirectory
    cases hdirectory

theorem read_of_file {fs : FileSystem} {path : Path} {place : Place} {content : Bytes}
    (hfind : fs.find path = .ok place) (hfile : fs.entry? place = some (.file content)) :
    fs.read path = .ok content := by
  simp only [read, hfind, hfile]

theorem read_of_content? {fs : FileSystem} {path : Path} {place : Place} {content : Bytes}
    (hfind : fs.find path = .ok place) (hfile : fs.content? place = some content) :
    fs.read path = .ok content :=
  read_of_file hfind (entry?_of_content? hfile)

theorem exists_of_read {fs : FileSystem} {path : Path} {content : Bytes} (h : fs.read path = .ok content) :
    ∃ place, fs.find path = .ok place ∧ fs.entry? place = some (.file content) := by
  simp only [read] at h
  cases hfind : fs.find path with
  | error e =>
    rw [hfind] at h
    cases h
  | ok place =>
    simp only [hfind] at h
    split at h
    · cases h
    · cases h
    · rename_i hfile
      cases h
      exact ⟨place, rfl, hfile⟩

/-! ## Directories that stay -/

/-- All directories of the first file system are in the second. -/
structure Grows (fs gs : FileSystem) : Prop where
  directory : ∀ place, fs.entry? place = some .directory → gs.entry? place = some .directory
  working : gs.working = fs.working

namespace Grows

variable {fs gs hs : FileSystem}

theorem refl (fs : FileSystem) : Grows fs fs := ⟨fun _ h => h, rfl⟩

theorem trans (h : Grows fs gs) (h' : Grows gs hs) : Grows fs hs where
  directory place hplace := h'.directory place (h.directory place hplace)
  working := h'.working.trans h.working

theorem start_eq (h : Grows fs gs) (path : Path) : gs.start path = fs.start path := by
  simp only [start]
  rw [h.working]

theorem walks (h : Grows fs gs) : ∀ {steps : List String} {start : Place},
    fs.Walks start steps → gs.Walks start steps
  | [], _, _ => trivial
  | _ :: _, _, ⟨hstart, hshort, hrest⟩ => ⟨h.directory _ hstart, hshort, h.walks hrest⟩

theorem find (h : Grows fs gs) {path : Path} {place : Place} (hfind : fs.find path = .ok place) :
    gs.find path = .ok place := by
  obtain ⟨husable, hwalks, hplace⟩ := follow_iff.1 hfind
  refine follow_iff.2 ⟨husable, ?_, ?_⟩
  · rw [h.start_eq]
    exact h.walks hwalks
  · rw [h.start_eq]
    exact hplace

end Grows

theorem Rewrites.grows {fs gs : FileSystem} {place : Place} {content : Bytes}
    (h : Rewrites fs gs place content) (hplace : fs.entry? place ≠ some .directory) :
    Grows fs gs where
  directory other hother := by
    rw [h.entry_other (fun heq => hplace (heq ▸ hother)), hother]
  working := h.working

/-- A file is read as what it has been given. -/
theorem Rewrites.read {fs gs : FileSystem} {path : Path} {place : Place} {content : Bytes}
    (h : Rewrites fs gs place content) (hfind : fs.find path = .ok place)
    (hplace : fs.entry? place ≠ some .directory) : gs.read path = .ok content :=
  read_of_content? ((h.grows hplace).find hfind) h.content?_self

end DeviceLog.FileSystem
