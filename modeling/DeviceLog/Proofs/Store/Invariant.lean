import DeviceLog.Proofs.Partition.Key
import DeviceLog.Proofs.Storage.Directories
import DeviceLog.Proofs.Store.Keep

/-! # What the root of a store holds

Below its root a store has the logs of partitions and the directories that lead to them.

* `Store.EmptyRoot`: there is nothing below the root yet.
* `Store.Holds root allowed fs records`: the log of every partition holds its records. `EmptyRoot.holds`
  starts with no records; `Holds.makes` and `Holds.rewrites` carry the invariant over the two changes
  a save makes, which are directories and one log.
* `Holds.recordsAt_eq` is what a reader sees.
-/

namespace DeviceLog.Store

open FileSystem

/-! ## Places -/

def home (fs : FileSystem) (root : Path) : Place := placeOf (fs.start root) root.steps

/-- The place of the log of a partition. -/
def logPlace (fs : FileSystem) (root : Path) (k : PartitionKey) : Place := home fs root ++ k.names

variable {fs gs : FileSystem} {root : Path} {k other : PartitionKey}

theorem logPlace_inj (h : logPlace fs root k = logPlace fs root other) : k = other :=
  PartitionKey.names_inj (List.append_cancel_left h)

theorem logPlace_of_grows (h : fs.Grows gs) (root : Path) (k : PartitionKey) :
    logPlace gs root k = logPlace fs root k := by
  simp only [logPlace, home]
  rw [h.start_eq]

theorem eq_logPlace_of_find (hk : k.Valid) {place : Place} (h : fs.find (k.pathUnder root) = .ok place) :
    place = logPlace fs root k := by
  have hstart : fs.start (k.pathUnder root) = fs.start root := by
    simp only [start]
    rw [PartitionKey.isAbsolute_pathUnder hk]
  rw [placeOf_of_find h, hstart, PartitionKey.placeOf_pathUnder hk]
  rfl

theorem findForFile_pathUnder (hk : k.Valid) (fs : FileSystem) (root : Path) :
    fs.findForFile (k.pathUnder root) = fs.find (k.pathUnder root) :=
  findForFile_eq_find (PartitionKey.endsInSlash_pathUnder hk root)

/-- Whether the steps to the root keep clear of what is below it. -/
def Clear (fs : FileSystem) (root : Path) : Prop :=
  ∀ steps, steps <+: root.steps → ∀ names, names ≠ [] →
    placeOf (fs.start root) steps ≠ home fs root ++ names

/-- Directories that are made for a partition are not where logs are. -/
theorem not_made_logPlace (hclear : Clear fs root) (hk : k.Valid) (other : PartitionKey) :
    ¬∃ steps, steps <+: (k.directoryUnder root).steps
      ∧ logPlace fs root other = placeOf (fs.start (k.directoryUnder root)) steps := by
  rintro ⟨steps, hsteps, hplace⟩
  rw [PartitionKey.start_directoryUnder hk] at hplace
  rcases PartitionKey.prefix_directoryUnder hk root hsteps with hroot | ⟨down, hdown, hplaces⟩
  · exact hclear steps hroot other.names (by simp [PartitionKey.names]) hplace.symm
  · -- At most four steps lead down from the root, and a log is five steps below it.
    rw [hplaces] at hplace
    have heq : other.names = down := List.append_cancel_left hplace
    have hlength := hdown.length_le
    rw [← heq] at hlength
    simp [PartitionKey.names, PartitionKey.directoryNames] at hlength

/-! ## Nothing yet -/

/-- A root with nothing below it. Either it is there, or it is still to be made and no step to it
leads up, so that making it puts nothing below it. -/
structure EmptyRoot (fs : FileSystem) (root : Path) : Prop where
  nothing : ∀ names, names ≠ [] → fs.entry? (home fs root ++ names) = none
  reachable : fs.isDirectory root = true ∨ Path.up ∉ root.steps

theorem length_placeOf_le {steps : List String} (h : Path.up ∉ steps) : ∀ start : Place,
    start.length ≤ (placeOf start steps).length := by
  induction steps with
  | nil => intro start; exact Nat.le_refl _
  | cons name rest ih =>
    intro start
    have hname : name ≠ Path.up := fun heq => h (heq ▸ List.mem_cons_self)
    have hstep : start.length ≤ (stepPlace start name).length := by
      simp only [stepPlace]
      rw [if_neg hname]
      split
      · exact Nat.le_refl _
      · rw [List.length_append]
        exact Nat.le_add_right _ _
    exact Nat.le_trans hstep (ih (fun hrest => h (List.mem_cons_of_mem _ hrest)) _)

theorem EmptyRoot.clear (h : EmptyRoot fs root) : Clear fs root := by
  rintro steps ⟨more, hmore⟩ names hnames hplace
  rcases h.reachable with hdirectory | hup
  · have hwalks := (isDirectory_iff.1 hdirectory).2.1
    rw [← hmore, walks_append] at hwalks
    cases more with
    | nil =>
      have hhome : home fs root = placeOf (fs.start root) steps := by
        simp only [home]
        rw [← hmore, List.append_nil]
      rw [← hhome] at hplace
      exact hnames (List.self_eq_append_right.1 hplace)
    | cons name more =>
      have hdir := hwalks.2.1
      rw [hplace, h.nothing names hnames] at hdir
      cases hdir
  · -- All steps lead down, so that no place on the way is as deep as what is below the root.
    have hup' : Path.up ∉ more := fun hmem => hup (hmore ▸ List.mem_append_right _ hmem)
    have hle := length_placeOf_le hup' (placeOf (fs.start root) steps)
    rw [← placeOf_append, hmore, hplace, List.length_append] at hle
    have hpos := List.length_pos_iff.2 hnames
    have hhome : (placeOf (fs.start root) root.steps).length = (home fs root).length := rfl
    omega

def emptyStore : FileSystem := { entries := [(["store"], .directory)] }

theorem emptyRoot_emptyStore : EmptyRoot emptyStore ⟨"store"⟩ where
  nothing names hnames := by
    cases names with
    | nil => exact absurd rfl hnames
    | cons name rest => rfl
  reachable := .inr (by decide)

/-! ## The invariant -/

/-- The log of a partition holds these records; where there are none it may be missing. -/
def LogHolds (root : Path) (allowed : Codec → Prop) (fs : FileSystem) (k : PartitionKey)
    (records : List DeviceRecord) : Prop :=
  (fs.entry? (logPlace fs root k) = none ∧ records = [])
    ∨ ∃ content, fs.entry? (logPlace fs root k) = some (.file content)
      ∧ fs.find (k.pathUnder root) = .ok (logPlace fs root k)
      ∧ Log.Keeps DeviceRecord.schema allowed (records.map DeviceRecord.toDatum) content

/-- The log of every partition holds its records. -/
structure Holds (root : Path) (allowed : Codec → Prop) (fs : FileSystem)
    (records : PartitionKey → List DeviceRecord) : Prop where
  clear : Clear fs root
  log : ∀ k : PartitionKey, k.Valid → LogHolds root allowed fs k (records k)

variable {allowed : Codec → Prop} {records : PartitionKey → List DeviceRecord}

theorem EmptyRoot.holds (h : EmptyRoot fs root) (allowed : Codec → Prop) :
    Holds root allowed fs fun _ => [] where
  clear := h.clear
  log k _ := .inl ⟨h.nothing k.names (by simp [PartitionKey.names]), rfl⟩

namespace Holds

theorem clear_of_grows (h : Holds root allowed fs records) (hgrows : fs.Grows gs) : Clear gs root := by
  have hclear := h.clear
  simp only [Clear, home] at hclear ⊢
  rwa [hgrows.start_eq]

theorem entry_ne_directory (h : Holds root allowed fs records) (hk : k.Valid) :
    fs.entry? (logPlace fs root k) ≠ some .directory := by
  rcases h.log k hk with ⟨hnone, _⟩ | ⟨content, hfile, _⟩
  · rw [hnone]
    simp
  · rw [hfile]
    simp

theorem keeps (h : Holds root allowed fs records) (hk : k.Valid) :
    Log.Keeps DeviceRecord.schema allowed ((records k).map DeviceRecord.toDatum)
      ((fs.content? (logPlace fs root k)).getD []) := by
  rcases h.log k hk with ⟨hnone, hrecords⟩ | ⟨content, hfile, _, hkeeps⟩
  · rw [show fs.content? (logPlace fs root k) = none by simp [content?, hnone], hrecords]
    exact .nothing
  · rw [content?_of_file hfile]
    exact hkeeps

/-- What a log is read as does not depend on directories that are made for a partition. -/
theorem entry_of_makes (h : Holds root allowed fs records) (hk : k.Valid)
    (hmakes : fs.Makes gs fun place => ∃ steps, steps <+: (k.directoryUnder root).steps
      ∧ place = placeOf (fs.start (k.directoryUnder root)) steps) (other : PartitionKey) :
    gs.entry? (logPlace gs root other) = fs.entry? (logPlace fs root other) := by
  rw [logPlace_of_grows hmakes.grows]
  exact hmakes.entry_of_not_made (not_made_logPlace h.clear hk other)

theorem makes (h : Holds root allowed fs records) (hk : k.Valid)
    (hmakes : fs.Makes gs fun place => ∃ steps, steps <+: (k.directoryUnder root).steps
      ∧ place = placeOf (fs.start (k.directoryUnder root)) steps) :
    Holds root allowed gs records where
  clear := h.clear_of_grows hmakes.grows
  log other hother := by
    have hentry := h.entry_of_makes hk hmakes other
    rcases h.log other hother with ⟨hnone, hrecords⟩ | ⟨content, hfile, hfind, hkeeps⟩
    · exact .inl ⟨hentry.trans hnone, hrecords⟩
    · refine .inr ⟨content, hentry.trans hfile, ?_, hkeeps⟩
      rw [logPlace_of_grows hmakes.grows]
      exact hmakes.grows.find hfind

/-- What a log is read as does not depend on what is written to another one. -/
theorem entry_of_rewrites (h : Holds root allowed fs records) (hk : k.Valid) {content : Bytes}
    (hrewrites : fs.Rewrites gs (logPlace fs root k) content) {other : PartitionKey}
    (hother : other ≠ k) : gs.entry? (logPlace gs root other) = fs.entry? (logPlace fs root other) := by
  rw [logPlace_of_grows (hrewrites.grows (h.entry_ne_directory hk))]
  exact hrewrites.entry_other fun heq => hother (logPlace_inj heq)

theorem rewrites (h : Holds root allowed fs records) (hk : k.Valid) {content : Bytes}
    {after : PartitionKey → List DeviceRecord}
    (hfind : fs.find (k.pathUnder root) = .ok (logPlace fs root k))
    (hrewrites : fs.Rewrites gs (logPlace fs root k) content)
    (hkeeps : Log.Keeps DeviceRecord.schema allowed ((after k).map DeviceRecord.toDatum) content)
    (hafter : ∀ other, other ≠ k → after other = records other) : Holds root allowed gs after := by
  have hgrows := hrewrites.grows (h.entry_ne_directory hk)
  refine ⟨h.clear_of_grows hgrows, fun other hother => ?_⟩
  by_cases heq : other = k
  · subst heq
    simp only [LogHolds]
    rw [logPlace_of_grows hgrows]
    exact .inr ⟨content, (hrewrites.entry _).trans (if_pos rfl), hgrows.find hfind, hkeeps⟩
  · simp only [LogHolds]
    rw [h.entry_of_rewrites hk hrewrites heq, hafter other heq, logPlace_of_grows hgrows]
    rcases h.log other hother with hnone | ⟨content', hfile, hfind', hkeeps'⟩
    · exact .inl hnone
    · exact .inr ⟨content', hfile, hgrows.find hfind', hkeeps'⟩

end Holds

/-! ## Reading -/

/-- Whether no log is empty. An empty file is no log that can be read. -/
def NoneEmpty (root : Path) (fs : FileSystem) : Prop :=
  ∀ k : PartitionKey, k.Valid → fs.entry? (logPlace fs root k) ≠ some (.file [])

theorem EmptyRoot.noneEmpty (h : EmptyRoot fs root) : NoneEmpty root fs := by
  intro k _ hfile
  rw [logPlace, h.nothing k.names (by simp [PartitionKey.names])] at hfile
  cases hfile

/-- The records of a partition are read in their order, unless its log is an empty file. That is no
log. -/
theorem Holds.recordsAt_eq (h : Holds root allowed fs records) (hk : k.Valid) :
    recordsAt fs (k.pathUnder root)
      = if fs.entry? (logPlace fs root k) = some (.file []) then .error (.corrupt .endOfData)
        else .ok (records k) := by
  cases hfound : fs.find (k.pathUnder root) with
  | error e =>
    rcases h.log k hk with ⟨hnone, hrecords⟩ | ⟨_, _, hfind, _⟩
    · rw [hnone, if_neg (by simp), hrecords]
      exact recordsAt_of_error hfound
    · rw [hfound] at hfind
      cases hfind
  | ok place =>
    cases eq_logPlace_of_find hk hfound
    rcases h.log k hk with ⟨hnone, hrecords⟩ | ⟨content, hfile, _, hkeeps⟩
    · rw [hnone, if_neg (by simp), hrecords]
      exact recordsAt_of_none hfound hnone
    · -- An appender that failed may have left the file without its header.
      by_cases hempty : content = []
      · subst hempty
        rw [hfile, if_pos rfl]
        exact recordsAt_of_empty hfound hfile
      · obtain ⟨header, hfields, _, hl⟩ := hkeeps.isLog hempty
        rw [hfile, if_neg (by simpa using hempty)]
        exact recordsAt_of_isLog hfound hfile hfields hl

end DeviceLog.Store
