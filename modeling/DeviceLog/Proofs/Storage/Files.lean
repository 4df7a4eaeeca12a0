import DeviceLog.Proofs.Lookup
import DeviceLog.Storage.FileSystem

/-! # What actions do to one file

Every action on an open file changes the content of that file and nothing else.

* `Rewrites fs gs place content`: the second file system is the first with the content at the place.
* `append_rewrites`, `setLength_rewrites` and `sync_rewrites` say what each action leaves, whether it
  goes through or not.
* `Quiet fs`: no write or flush to come is to fail. A write then goes through, and the file system
  stays quiet.
-/

namespace DeviceLog.FileSystem

/-! ## Entries -/

theorem lookup_setEntry (place other : Place) (e : Entry) :
    ∀ entries : List (Place × Entry),
      (setEntry place e entries).lookup other
        = if other = place then some e else entries.lookup other
  | [] => by rw [setEntry, lookup_cons_eq]
  | (key, f) :: rest => by
    simp only [setEntry]
    by_cases hkey : key = place
    · subst hkey
      -- The entry is replaced where it stands; its key stays in front of those behind it.
      rw [if_pos rfl, lookup_cons_eq, lookup_cons_eq]
      split <;> rfl
    · rw [if_neg hkey, lookup_cons_eq, lookup_cons_eq, lookup_setEntry place other e rest]
      by_cases h : other = key
      · rw [if_pos h, if_pos h, if_neg (h ▸ hkey)]
      · rw [if_neg h, if_neg h]

theorem entry?_set (fs : FileSystem) {place : Place} (hplace : place ≠ []) (other : Place)
    (e : Entry) :
    entry? (fs.set place e) other = if other = place then some e else fs.entry? other := by
  simp only [set, entry?]
  by_cases h : other = []
  · subst h
    rw [if_pos rfl, if_neg (Ne.symm hplace), if_pos rfl]
  · simp only [if_neg h]
    exact lookup_setEntry place other e fs.entries

theorem ne_top_of_not_directory {fs : FileSystem} {place : Place} (h : fs.entry? place ≠ some .directory) :
    place ≠ [] := by
  rintro rfl
  exact h rfl

theorem entry?_of_content? {fs : FileSystem} {place : Place} {content : Bytes}
    (h : fs.content? place = some content) : fs.entry? place = some (.file content) := by
  simp only [content?] at h
  split at h
  · rename_i heq
    rw [Option.some.injEq] at h
    rw [heq, h]
  · cases h

theorem ne_directory_of_content? {fs : FileSystem} {place : Place} {content : Bytes}
    (h : fs.content? place = some content) : fs.entry? place ≠ some .directory := by
  rw [entry?_of_content? h]
  simp

theorem content?_of_file {fs : FileSystem} {place : Place} {content : Bytes}
    (h : fs.entry? place = some (.file content)) : fs.content? place = some content := by
  simp only [content?]
  rw [h]

/-! ## One file changed -/

/-- The second file system is the first with other content at one place. What is to befall writes
has at most been used up. -/
structure Rewrites (fs gs : FileSystem) (place : Place) (content : Bytes) : Prop where
  entry : ∀ other, gs.entry? other = if other = place then some (.file content) else fs.entry? other
  working : gs.working = fs.working
  limit : gs.limit = fs.limit
  fates : ∀ fate ∈ gs.fates, fate ∈ fs.fates

namespace Rewrites

variable {fs gs hs : FileSystem} {place : Place} {content content' : Bytes}

theorem content?_self (h : Rewrites fs gs place content) : gs.content? place = some content :=
  content?_of_file (by rw [h.entry, if_pos rfl])

theorem entry_other (h : Rewrites fs gs place content) {other : Place} (hne : other ≠ place) :
    gs.entry? other = fs.entry? other := by
  rw [h.entry, if_neg hne]

theorem content?_eq (h : Rewrites fs gs place content) (other : Place) :
    gs.content? other = if other = place then some content else fs.content? other := by
  by_cases hother : other = place
  · rw [if_pos hother, hother, h.content?_self]
  · rw [if_neg hother]
    simp only [content?, h.entry_other hother]

theorem refl (h : fs.content? place = some content) : Rewrites fs fs place content where
  entry other := by
    by_cases hother : other = place
    · rw [if_pos hother, hother, entry?_of_content? h]
    · rw [if_neg hother]
  working := rfl
  limit := rfl
  fates _ h := h

theorem trans (h : Rewrites fs gs place content) (h' : Rewrites gs hs place content') :
    Rewrites fs hs place content' where
  entry other := by
    rw [h'.entry]
    by_cases hother : other = place
    · rw [if_pos hother, if_pos hother]
    · rw [if_neg hother, if_neg hother, h.entry, if_neg hother]
  working := h'.working.trans h.working
  limit := h'.limit.trans h.limit
  fates fate hfate := h.fates fate (h'.fates fate hfate)

/-- An entry set, and fates used up. -/
theorem of_set (hplace : place ≠ []) {fates : List Fate} (hfates : ∀ fate ∈ fates, fate ∈ fs.fates) :
    Rewrites fs { fs.set place (.file content) with fates := fates } place content where
  entry other := entry?_set fs hplace other (.file content)
  working := rfl
  limit := rfl
  fates := hfates

end Rewrites

/-! ## Actions -/

/-- No write or flush to come is to fail. -/
structure Quiet (fs : FileSystem) : Prop where
  limit : fs.limit = none
  fates : ∀ fate ∈ fs.fates, fate = .whole

theorem Quiet.rewrites {fs gs : FileSystem} {place : Place} {content : Bytes} (h : fs.Quiet)
    (hr : Rewrites fs gs place content) : gs.Quiet where
  limit := hr.limit.trans h.limit
  fates fate hfate := h.fates fate (hr.fates fate hfate)

theorem nextFate_eq (fs : FileSystem) : ∃ fate fates, fs.nextFate = (fate, { fs with fates := fates })
    ∧ (∀ f ∈ fates, f ∈ fs.fates) ∧ (fs.Quiet → fate = .whole) := by
  obtain ⟨entries, working, limit, fates⟩ := fs
  cases fates with
  | nil => exact ⟨.whole, [], rfl, fun _ h => h, fun _ => rfl⟩
  | cons fate fates =>
    exact ⟨fate, fates, rfl, fun _ h => List.mem_cons_of_mem _ h,
      fun h => h.fates fate List.mem_cons_self⟩

/-- A write leaves the first bytes of what was to be written at the end of the file; all of them if
it goes through. -/
theorem append_rewrites {fs : FileSystem} {place : Place} {content : Bytes}
    (h : fs.content? place = some content) (bytes : Bytes) :
    ∃ r gs n, append place bytes fs = (r, gs) ∧ fs.Rewrites gs place (content ++ bytes.take n)
      ∧ (r = .ok () → bytes.take n = bytes) ∧ (fs.Quiet → r = .ok ()) := by
  obtain ⟨fate, fates, hnext, hsub, hwhole⟩ := nextFate_eq fs
  have hplace : place ≠ [] := ne_top_of_not_directory (ne_directory_of_content? h)
  have hcontent : ({ fs with fates := fates } : FileSystem).content? place = some content := h
  -- How much reaches the file is settled before it is known whether that is all.
  obtain ⟨n, hn⟩ : ∃ n, room { fs with fates := fates } fate content.length bytes = n := ⟨_, rfl⟩
  have hrewrites : fs.Rewrites { fs.set place (.file (content ++ bytes.take n)) with fates := fates }
      place (content ++ bytes.take n) := .of_set hplace hsub
  simp only [append, hnext, hcontent, Option.getD_some, hn]
  by_cases hok : fate = .whole ∧ n = bytes.length
  · rw [if_pos hok]
    refine ⟨_, _, n, rfl, hrewrites, fun _ => ?_, fun _ => rfl⟩
    rw [hok.2, List.take_length]
  · rw [if_neg hok]
    refine ⟨_, _, n, rfl, hrewrites, nofun, fun hquiet => absurd ?_ hok⟩
    refine ⟨hwhole hquiet, ?_⟩
    rw [← hn]
    simp [room, hwhole hquiet, hquiet.limit]

/-- Where the next write is to go through, it does. -/
theorem append_whole (fs : FileSystem) (hlimit : fs.limit = none) {fates : List Fate}
    (hfates : fs.fates = .whole :: fates) (place : Place) (bytes : Bytes) :
    append place bytes fs = (.ok (),
      { fs with fates := fates }.set place (.file ((fs.content? place).getD [] ++ bytes))) := by
  obtain ⟨entries, working, limit, _⟩ := fs
  subst hlimit hfates
  simp only [append, nextFate, room, true_and, if_true, List.take_length]
  rfl

/-- Where the next write is to be cut short, it fails. -/
theorem append_cut {fs : FileSystem} {count : Nat} {fates : List Fate}
    (hfates : fs.fates = .cut count :: fates) (place : Place) (bytes : Bytes) :
    ∃ gs, append place bytes fs = (.error .fileTooLarge, gs) ∧ gs.limit = fs.limit ∧ gs.fates = fates := by
  obtain ⟨entries, working, limit, _⟩ := fs
  subst hfates
  simp only [append, nextFate, reduceCtorEq, false_and, if_false]
  exact ⟨_, rfl, rfl, rfl⟩

theorem setLength_rewrites {fs : FileSystem} {place : Place} {content : Bytes}
    (h : fs.content? place = some content) {length : Nat} (hle : length ≤ content.length) :
    ∃ gs, setLength place length fs = (.ok (), gs)
      ∧ fs.Rewrites gs place (content.take length) := by
  have hplace : place ≠ [] := ne_top_of_not_directory (ne_directory_of_content? h)
  simp only [setLength, h, Option.getD_some]
  rw [if_neg (by omega), Nat.sub_eq_zero_of_le hle]
  refine ⟨_, rfl, ?_⟩
  simp only [List.replicate_zero, List.append_nil]
  exact .of_set hplace fun _ hf => hf

theorem sync_rewrites {fs : FileSystem} {place : Place} {content : Bytes}
    (h : fs.content? place = some content) :
    ∃ r gs, sync fs = (r, gs) ∧ fs.Rewrites gs place content ∧ (fs.Quiet → r = .ok ()) := by
  obtain ⟨fate, fates, hnext, hsub, hwhole⟩ := nextFate_eq fs
  have hrewrites : fs.Rewrites { fs with fates := fates } place content :=
    ⟨(Rewrites.refl h).entry, rfl, rfl, hsub⟩
  simp only [sync]
  rw [hnext]
  cases fate with
  | whole => exact ⟨_, _, rfl, hrewrites, fun _ => rfl⟩
  | cut n => exact ⟨_, _, rfl, hrewrites, fun hquiet => by cases hwhole hquiet⟩

/-- To open a file that is there changes nothing. -/
theorem openFile_of_file {fs : FileSystem} {path : Path} {place : Place} {content : Bytes}
    (hfind : fs.findForFile path = .ok place) (hfile : fs.entry? place = some (.file content)) :
    openFile path fs = (.ok (place, false), fs) := by
  simp only [openFile, hfind, hfile]

/-- A file that is not there is made, and one that is there stays. -/
theorem openFile_rewrites {fs : FileSystem} {path : Path} {place : Place}
    (hfind : fs.findForFile path = .ok place) (hentry : fs.entry? place ≠ some .directory) :
    ∃ made gs, openFile path fs = (.ok (place, made), gs)
      ∧ fs.Rewrites gs place ((fs.content? place).getD []) := by
  have hplace := ne_top_of_not_directory hentry
  cases hplaced : fs.entry? place with
  | none =>
    have hcontent : fs.content? place = none := by simp [content?, hplaced]
    rw [hcontent]
    simp only [openFile, hfind, hplaced]
    exact ⟨true, _, rfl, .of_set hplace fun _ hf => hf⟩
  | some e =>
    cases e with
    | directory => exact absurd hplaced hentry
    | file content =>
      have hcontent := content?_of_file hplaced
      rw [hcontent]
      exact ⟨false, fs, openFile_of_file hfind hplaced, .refl hcontent⟩

end DeviceLog.FileSystem
