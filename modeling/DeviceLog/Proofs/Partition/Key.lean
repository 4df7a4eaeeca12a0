import DeviceLog.Device.Id
import DeviceLog.Partition.Key
import DeviceLog.Proofs.Partition.Calendar
import DeviceLog.Proofs.Storage.Walk

/-! # The path of a partition

The log of a partition is five steps below the root, and the steps tell the partition.

* `Path.IsStep` says what text leads one step down; ids that pass their check do.
* `PartitionKey.names` are the five steps. `steps_pathUnder` and `steps_directoryUnder` find them in
  the paths, and `names_inj` finds the partition in them.
* `placeOf_pathUnder` is the place of a log. `names_pathUnder` are the names of its path, and
  `names_pathUnder_inj` says that its lock is its own.
-/

namespace DeviceLog

namespace Path

/-! ## Single steps -/

/-- Text that leads one step down. -/
structure IsStep (name : String) : Prop where
  ne_empty : name ≠ ""
  ne_here : name ≠ here
  ne_up : name ≠ up
  no_slash : '/' ∉ name.toList

namespace IsStep

variable {name : String}

/-- The names that do not lead down have nothing but dots. -/
theorem of_mem {c : Char} (hc : c ∈ name.toList) (hdot : c ≠ '.') (hslash : '/' ∉ name.toList) :
    IsStep name where
  ne_empty heq := by
    rw [heq] at hc
    cases hc
  ne_here heq := by
    rw [heq, show here.toList = ['.'] from rfl, List.mem_singleton] at hc
    exact hdot hc
  ne_up heq := by
    rw [heq, show up.toList = ['.', '.'] from rfl] at hc
    simp [hdot] at hc
  no_slash := hslash

theorem steps_eq (h : IsStep name) : steps ⟨name⟩ = [name] := by
  simp only [steps, pieces]
  rw [cut_of_not_mem h.no_slash]
  simp [h.ne_empty]

theorem isAbsolute_eq (h : IsStep name) : isAbsolute ⟨name⟩ = false := by
  simp only [isAbsolute]
  rw [decide_eq_false_iff_not]
  exact fun hhead => h.no_slash (List.mem_of_mem_head? hhead)

theorem endsInSlash_eq (h : IsStep name) : endsInSlash ⟨name⟩ = false := by
  simp only [endsInSlash]
  rw [decide_eq_false_iff_not]
  exact fun hlast => h.no_slash (List.mem_of_getLast? hlast)

end IsStep

theorem steps_join_step {p : Path} {name : String} (h : IsStep name) :
    (p.join ⟨name⟩).steps = p.steps ++ [name] := by
  rw [steps_join h.isAbsolute_eq, h.steps_eq]

end Path

/-! ## Ids -/

/-- An id that passes its check leads one step down. -/
theorem isStep_of_check {kind : IdKind} {id : String} (h : kind.check id = .ok ()) :
    Path.IsStep id := by
  simp only [IdKind.check] at h
  split at h
  · cases h
  · -- The checks come in the order of the fields: empty, dots only, and characters.
    rename_i hempty
    split at h
    · cases h
    · rename_i hrelative
      split at h
      · cases h
      · rename_i hclean
        refine ⟨hempty, fun heq => hrelative (.inl heq), fun heq => hrelative (.inr heq), fun hmem => ?_⟩
        exact hclean (List.any_eq_true.2 ⟨'/', hmem, by decide⟩)

namespace PartitionKey

structure Valid (k : PartitionKey) : Prop where
  namespaceId : IdKind.namespaceId.check k.namespaceId = .ok ()
  deviceId : IdKind.deviceId.check k.deviceId = .ok ()

/-- The steps from the root to the directory of a partition. -/
def directoryNames (k : PartitionKey) : List String :=
  [k.namespaceId, k.deviceId, k.date.text, toString k.hour]

/-- The steps from the root to the log of a partition. -/
def names (k : PartitionKey) : List String := k.directoryNames ++ [k.fileName]

/-! ## Steps down -/

theorem isStep_date (d : Date) : Path.IsStep d.text :=
  .of_mem d.dash_mem_text (by decide) d.slash_not_mem_text

theorem isStep_hour (n : Nat) : Path.IsStep (toString n) := by
  have hdigit : ∀ c ∈ (toString n).toList, c.isDigit = true := by
    intro c hc
    rw [Nat.toString_eq_repr, Nat.toList_repr] at hc
    exact Nat.isDigit_of_mem_toDigits (by decide) (by decide) hc
  have hother : ∀ c : Char, c.isDigit = false → c ∉ (toString n).toList := by
    intro c hc hmem
    rw [hdigit c hmem] at hc
    cases hc
  have hne : (toString n).toList ≠ [] := by
    rw [Nat.toString_eq_repr, ne_eq, String.toList_eq_nil_iff]
    exact Nat.repr_ne_empty
  obtain ⟨c, hc⟩ := List.exists_mem_of_ne_nil _ hne
  refine .of_mem hc ?_ (hother '/' rfl)
  rintro rfl
  exact hother '.' rfl hc

theorem isStep_fileName {k : PartitionKey} (h : k.Valid) : Path.IsStep k.fileName := by
  refine .of_mem (c := '_') (by simp [fileName]) (by decide) ?_
  simp [fileName, (isStep_of_check h.deviceId).no_slash]

/-- All steps to the log of a partition lead down. -/
theorem isStep_of_mem_names {k : PartitionKey} (h : k.Valid) : ∀ name ∈ k.names, Path.IsStep name := by
  intro name hname
  simp only [names, directoryNames, List.cons_append, List.nil_append, List.mem_cons,
    List.not_mem_nil, or_false] at hname
  rcases hname with rfl | rfl | rfl | rfl | rfl
  · exact isStep_of_check h.namespaceId
  · exact isStep_of_check h.deviceId
  · exact isStep_date _
  · exact isStep_hour _
  · exact isStep_fileName h

/-! ## Paths -/

section Valid

variable {k : PartitionKey} (h : k.Valid) (root : Path)
include h

theorem isAbsolute_directory : k.directory.isAbsolute = false := by
  simp only [directory]
  rw [Path.isAbsolute_join (isStep_hour _).isAbsolute_eq,
    Path.isAbsolute_join (isStep_date _).isAbsolute_eq,
    Path.isAbsolute_join (isStep_of_check h.deviceId).isAbsolute_eq]
  exact (isStep_of_check h.namespaceId).isAbsolute_eq

theorem steps_directoryUnder : (k.directoryUnder root).steps = root.steps ++ k.directoryNames := by
  simp only [directoryUnder]
  rw [Path.steps_join (isAbsolute_directory h)]
  simp only [directory, directoryNames]
  rw [Path.steps_join_step (isStep_hour _), Path.steps_join_step (isStep_date _),
    Path.steps_join_step (isStep_of_check h.deviceId), (isStep_of_check h.namespaceId).steps_eq]
  rfl

theorem steps_pathUnder : (k.pathUnder root).steps = root.steps ++ k.names := by
  simp only [pathUnder, names]
  rw [Path.steps_join_step (isStep_fileName h), steps_directoryUnder h root, List.append_assoc]

theorem isAbsolute_directoryUnder : (k.directoryUnder root).isAbsolute = root.isAbsolute :=
  Path.isAbsolute_join (isAbsolute_directory h)

theorem isAbsolute_pathUnder : (k.pathUnder root).isAbsolute = root.isAbsolute := by
  simp only [pathUnder]
  rw [Path.isAbsolute_join (isStep_fileName h).isAbsolute_eq, isAbsolute_directoryUnder h root]

theorem endsInSlash_pathUnder : (k.pathUnder root).endsInSlash = false := by
  simp only [pathUnder]
  rw [Path.endsInSlash_join (isStep_fileName h).isAbsolute_eq (isStep_fileName h).ne_empty]
  exact (isStep_fileName h).endsInSlash_eq

theorem placeOf_pathUnder (start : Place) :
    FileSystem.placeOf start (k.pathUnder root).steps
      = FileSystem.placeOf start root.steps ++ k.names := by
  rw [steps_pathUnder h, FileSystem.placeOf_append, FileSystem.placeOf_names]
  intro name hname
  have hstep := isStep_of_mem_names h name hname
  exact ⟨hstep.ne_here, hstep.ne_up⟩

theorem start_directoryUnder (fs : FileSystem) : fs.start (k.directoryUnder root) = fs.start root := by
  simp only [FileSystem.start]
  rw [isAbsolute_directoryUnder h]

/-- On the way to its directory are steps to the root, and then steps below it. -/
theorem prefix_directoryUnder {steps : List String} (hsteps : steps <+: (k.directoryUnder root).steps) :
    steps <+: root.steps ∨ ∃ down, down <+: k.directoryNames
      ∧ ∀ start, FileSystem.placeOf start steps = FileSystem.placeOf start root.steps ++ down := by
  rw [steps_directoryUnder h] at hsteps
  rcases List.prefix_or_prefix_of_prefix hsteps (List.prefix_append root.steps _) with hroot | ⟨down, rfl⟩
  · exact .inl hroot
  · have hdown : down <+: k.directoryNames := (List.prefix_append_right_inj _).1 hsteps
    refine .inr ⟨down, hdown, fun start => ?_⟩
    rw [FileSystem.placeOf_append, FileSystem.placeOf_names]
    intro name hname
    have hstep := isStep_of_mem_names h name (List.mem_append_left _ (hdown.subset hname))
    exact ⟨hstep.ne_here, hstep.ne_up⟩

/-- The names of the path are those of the root and the five steps. -/
theorem names_pathUnder : (k.pathUnder root).names = root.names ++ k.names := by
  apply Path.names_of_steps (isAbsolute_pathUnder h root) (steps_pathUnder h root)
  intro name hname
  exact (isStep_of_mem_names h name hname).ne_here

end Valid

theorem names_inj {a b : PartitionKey} (h : a.names = b.names) : a = b := by
  obtain ⟨namespaceId, deviceId, date, hour⟩ := a
  obtain ⟨namespaceId', deviceId', date', hour'⟩ := b
  simp only [names, directoryNames, List.cons_append, List.nil_append, List.cons.injEq] at h
  obtain ⟨rfl, rfl, hdate, hhour, _⟩ := h
  have hvalue : hour = hour' := by
    simpa using congrArg (fun s => Nat.ofDigitChars 10 s.toList 0) hhour
  rw [PartitionKey.mk.injEq]
  exact ⟨rfl, rfl, Date.text_inj hdate, hvalue⟩

/-- A partition is told by the names of its path, so no two partitions have one lock. -/
theorem names_pathUnder_inj {a b : PartitionKey} (ha : a.Valid) (hb : b.Valid) {root : Path}
    (h : (a.pathUnder root).names = (b.pathUnder root).names) : a = b := by
  rw [names_pathUnder ha, names_pathUnder hb] at h
  exact names_inj (List.append_cancel_left h)

end PartitionKey

end DeviceLog
