import DeviceLog.Proofs.Storage.Making
import DeviceLog.Proofs.Store.Steps

/-! # Which partitions can be attained

* `Store.Site` says that nothing is in the way of a root; one that is there is a site.
* `Store.Fits` says that the file system takes the path of a log.
* `EmptyRoot.attainable_iff_fits`: on a site with nothing below the root this is all it takes for the
  directory of a partition to be made and its log to be found.
-/

namespace DeviceLog

/-! ## Paths that end in a step -/

namespace Path

theorem exists_pieces_join {p q : Path} (hq : q.isAbsolute = false) :
    ∃ front, (p.join q).pieces = front ++ q.pieces := by
  simp only [join]
  rw [if_neg (by simp [hq])]
  split
  · rename_i h
    rcases h with hempty | hslash
    · exact ⟨[], by rw [hempty, String.empty_append, List.nil_append]⟩
    · obtain ⟨s, hs⟩ := exists_of_endsInSlash hslash
      exact ⟨pieces ⟨s⟩, by rw [hs]; exact pieces_append_slash s q.text⟩
  · exact ⟨p.pieces, pieces_append_slash p.text q.text⟩

theorem exists_text_join {p q : Path} (hq : q.isAbsolute = false) :
    ∃ more, (p.join q).text = p.text ++ more := by
  simp only [join]
  rw [if_neg (by simp [hq])]
  split
  · exact ⟨q.text, rfl⟩
  · exact ⟨_, String.append_assoc⟩

theorem isBelow_join {p : Path} {name : String} (h : IsStep name) : IsBelow (p.join ⟨name⟩) p name where
  text := exists_text_join h.isAbsolute_eq
  absolute := isAbsolute_join h.isAbsolute_eq
  steps := ⟨[], by rw [List.append_nil]; exact steps_join_step h, List.forall_mem_nil _⟩

theorem IsStep.pieces_eq {name : String} (h : IsStep name) : pieces ⟨name⟩ = [name] := by
  simp only [pieces]
  rw [cut_of_not_mem h.no_slash]
  simp

theorem trimmed_of_isStep {name : String} (h : IsStep name) (rest : List String) :
    trimmed (name :: rest) = name :: rest := by
  have hidle : isIdle name = false := by
    simp [isIdle, h.ne_empty, h.ne_here]
  cases rest with
  | nil => rfl
  | cons next rest => simp only [trimmed, hidle, Bool.false_eq_true, if_false]

end Path

theorem PartitionKey.trimmed_directoryUnder {k : PartitionKey} (h : k.Valid) (root : Path) :
    Path.trimmed (k.directoryUnder root).pieces.reverse = (k.directoryUnder root).pieces.reverse := by
  have hhour := isStep_hour k.hour
  obtain ⟨front, hdirectory⟩ : ∃ front, k.directory.pieces = front ++ [toString k.hour] := by
    rw [← hhour.pieces_eq]
    exact Path.exists_pieces_join hhour.isAbsolute_eq
  obtain ⟨more, hpieces⟩ : ∃ more, (k.directoryUnder root).pieces = more ++ k.directory.pieces :=
    Path.exists_pieces_join (isAbsolute_directory h)
  rw [hpieces, hdirectory, ← List.append_assoc, List.reverse_append, List.reverse_singleton]
  exact Path.trimmed_of_isStep hhour _

namespace Store

open FileSystem

variable {root : Path} {fs : FileSystem} {k : PartitionKey}

/-- Whether nothing but missing directories is in the way of a root. -/
structure Site (fs : FileSystem) (root : Path) : Prop where
  start : fs.entry? (fs.start root) = some .directory
  short : ∀ name ∈ root.steps, Short name
  way : ∀ steps, steps <+: root.steps → fs.entry? (placeOf (fs.start root) steps) = none
    ∨ fs.entry? (placeOf (fs.start root) steps) = some .directory

theorem site_of_isDirectory (h : fs.isDirectory root = true) : Site fs root where
  start := directory_of_isDirectory h List.nil_prefix
  short := short_of_walks (isDirectory_iff.1 h).2.1
  way _ hsteps := .inr (directory_of_isDirectory h hsteps)

/-- Whether the file system takes the path of a log: it can be used, and no name below the root is too
long. -/
structure Fits (root : Path) (k : PartitionKey) : Prop where
  usable : Usable (k.pathUnder root)
  names : ∀ name ∈ k.names, (Utf8.encode name).length ≤ longestName

theorem fits_of_find (hk : k.Valid) {place : Place} (h : fs.find (k.pathUnder root) = .ok place) :
    Fits root k := by
  obtain ⟨husable, hall⟩ := usable_and_short_of_find h
  refine ⟨husable, fun name hname => ?_⟩
  have hstep := PartitionKey.isStep_of_mem_names hk name hname
  have hmem : name ∈ (k.pathUnder root).steps := by
    rw [PartitionKey.steps_pathUnder hk]
    exact List.mem_append_right _ hname
  rcases hall name hmem with hhere | hup | hshort
  · exact absurd hhere hstep.ne_here
  · exact absurd hup hstep.ne_up
  · exact hshort

/-- Nothing but missing directories is in the way of the directory of a partition. -/
theorem EmptyRoot.free (h : EmptyRoot fs root) (hsite : Site fs root) (hk : k.Valid) (hfits : Fits root k) :
    fs.Free (k.directoryUnder root) := by
  have hsteps := PartitionKey.steps_directoryUnder hk root
  refine ⟨?_, fun name hname => ?_, fun steps htaken => ?_⟩
  · obtain ⟨more, htext⟩ : ∃ more, (k.pathUnder root).text = (k.directoryUnder root).text ++ more :=
      (Path.isBelow_join (PartitionKey.isStep_fileName hk)).text
    refine hfits.usable.of_append htext fun hempty => ?_
    have : (k.directoryUnder root).steps = [] := by
      simp only [Path.steps, Path.pieces, hempty]
      rfl
    rw [hsteps] at this
    exact absurd (List.append_eq_nil_iff.1 this).2 (by simp [PartitionKey.directoryNames])
  · rw [hsteps] at hname
    rcases List.mem_append.1 hname with hroot | hbelow
    · exact hsite.short name hroot
    · exact .inr (.inr (hfits.names name (List.mem_append_left _ hbelow)))
  · rw [PartitionKey.start_directoryUnder hk]
    rcases PartitionKey.prefix_directoryUnder hk root htaken with hroot | ⟨down, -, hplaces⟩
    · exact hsite.way steps hroot
    · rw [hplaces]
      by_cases hnil : down = []
      · rw [hnil, List.append_nil]
        exact hsite.way _ (List.prefix_refl _)
      · exact .inl (h.nothing down hnil)

/-- On a site with nothing below the root a partition can be attained if the path of its log fits. -/
theorem EmptyRoot.attainable_iff_fits (h : EmptyRoot fs root) (hsite : Site fs root) (hk : k.Valid) :
    Attainable fs root k ↔ Fits root k := by
  constructor
  · rintro ⟨gs, place, -, hfind⟩
    exact fits_of_find hk hfind
  · intro hfits
    obtain ⟨gs, hgs⟩ := (h.free hsite hk hfits).makeDirectories (PartitionKey.trimmed_directoryUnder hk root)
      (by rw [PartitionKey.start_directoryUnder hk]; exact hsite.start)
    have hdirectory : gs.isDirectory (k.directoryUnder root) = true := by
      simp only [makeDirectories] at hgs
      rw [filter_named (h.free hsite hk hfits).usable.nonempty] at hgs
      exact isDirectory_of_makeAll hgs
    have hfile := PartitionKey.isStep_fileName hk
    have hshort : Short k.fileName := .inr (.inr (hfits.names _ (by simp [PartitionKey.names])))
    have hbelow : (k.pathUnder root).IsBelow (k.directoryUnder root) k.fileName := Path.isBelow_join hfile
    obtain ⟨place, hfind⟩ := exists_find_of_isBelow hbelow hdirectory hshort hfits.usable
      (PartitionKey.endsInSlash_pathUnder hk root)
    exact ⟨gs, place, hgs, hfind⟩

end Store

end DeviceLog
