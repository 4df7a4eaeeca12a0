import DeviceLog.Proofs.Storage.Walk

/-! # Making directories

* `Makes fs gs made`: the second file system is the first with more directories, all of them at such
  places, and with nothing else changed.
* `makeDirectories_makes`: what is made for a path lies along its steps, whether or not all of it can
  be made.
* `makeDirectories_again`: what can be made can be made where there are at most more directories. The
  directories of one partition do not stand in the way of those of another.
-/

namespace DeviceLog.FileSystem

/-- The second file system is the first with more directories at such places. -/
structure Makes (fs gs : FileSystem) (made : Place → Prop) : Prop where
  entry : ∀ place, gs.entry? place = fs.entry? place
    ∨ fs.entry? place = none ∧ gs.entry? place = some .directory ∧ made place
  working : gs.working = fs.working
  limit : gs.limit = fs.limit
  fates : gs.fates = fs.fates

namespace Makes

variable {fs gs hs : FileSystem} {made made' : Place → Prop}

theorem refl (fs : FileSystem) (made : Place → Prop) : Makes fs fs made :=
  ⟨fun _ => .inl rfl, rfl, rfl, rfl⟩

theorem trans (h : Makes fs gs made) (h' : Makes gs hs made) : Makes fs hs made where
  entry place := by
    rcases h.entry place with hsame | ⟨hnone, hdir, hmade⟩
    · rcases h'.entry place with hsame' | ⟨hnone', hdir', hmade'⟩
      · exact .inl (hsame'.trans hsame)
      · exact .inr ⟨hsame ▸ hnone', hdir', hmade'⟩
    · rcases h'.entry place with hsame' | ⟨hnone', _, _⟩
      · exact .inr ⟨hnone, hsame'.trans hdir, hmade⟩
      · rw [hdir] at hnone'
        cases hnone'
  working := h'.working.trans h.working
  limit := h'.limit.trans h.limit
  fates := h'.fates.trans h.fates

theorem mono (h : Makes fs gs made) (hle : ∀ place, made place → made' place) : Makes fs gs made' where
  entry place := (h.entry place).imp id fun ⟨hnone, hdir, hmade⟩ => ⟨hnone, hdir, hle place hmade⟩
  working := h.working
  limit := h.limit
  fates := h.fates

theorem grows (h : Makes fs gs made) : Grows fs gs where
  directory place hplace := by
    rcases h.entry place with hsame | ⟨hnone, _, _⟩
    · rw [hsame, hplace]
    · rw [hplace] at hnone
      cases hnone
  working := h.working

/-- What was there is there, and what is there besides is a directory. -/
theorem entry_of_not_made (h : Makes fs gs made) {place : Place} (hplace : ¬made place) :
    gs.entry? place = fs.entry? place :=
  (h.entry place).resolve_right fun hmade => hplace hmade.2.2

theorem content?_eq (h : Makes fs gs made) (place : Place) : gs.content? place = fs.content? place := by
  rcases h.entry place with hsame | ⟨hnone, hdir, _⟩
  · simp only [content?, hsame]
  · simp only [content?, hnone, hdir]

theorem quiet (h : Makes fs gs made) (hquiet : fs.Quiet) : gs.Quiet where
  limit := h.limit.trans hquiet.limit
  fates := h.fates ▸ hquiet.fates

end Makes

theorem makeDirectory_makes (path : Path) (fs : FileSystem) :
    Makes fs (makeDirectory path fs).2 fun place => place = placeOf (fs.start path) path.steps := by
  simp only [makeDirectory]
  cases hfind : fs.findForDirectory path with
  | error e => exact .refl fs _
  | ok place =>
    simp only
    cases hentry : fs.entry? place with
    | some e => exact .refl fs _
    | none =>
      have hplace : place ≠ [] := ne_top_of_not_directory (by rw [hentry]; simp)
      refine ⟨fun other => ?_, rfl, rfl, rfl⟩
      rw [entry?_set fs hplace]
      by_cases h : other = place
      · refine .inr ⟨h ▸ hentry, if_pos h, ?_⟩
        rw [h]
        exact (follow_iff.1 hfind).2.2
      · exact .inl (if_neg h)

/-- It does not matter for the file system whether it does harm that a directory is there. -/
theorem orDirectory_snd (path : Path) (r : Except IoError Unit) (fs : FileSystem) :
    (orDirectory path (r, fs)).2 = fs := by
  simp only [orDirectory]
  cases r with
  | ok u => rfl
  | error e =>
    simp only
    split <;> rfl

/-- A directory is made at most where its path leads. -/
theorem orDirectory_makes (path : Path) (fs : FileSystem) :
    Makes fs (orDirectory path (makeDirectory path fs)).2
      fun place => place = placeOf (fs.start path) path.steps := by
  rw [orDirectory_snd]
  exact makeDirectory_makes path fs

theorem eq_of_makeDirectory_error {path : Path} {fs gs : FileSystem} {e : IoError}
    (h : makeDirectory path fs = (.error e, gs)) : gs = fs := by
  simp only [makeDirectory] at h
  split at h
  · exact (Prod.mk.inj h).2.symm
  · split at h
    · exact (Prod.mk.inj h).2.symm
    · cases (Prod.mk.inj h).1

theorem makeAll_of_ne_notFound {path : Path} {above : List Path} {fs gs : FileSystem}
    {r : Except IoError Unit} (h : makeDirectory path fs = (r, gs)) (hne : r ≠ .error .notFound) :
    makeAll (path :: above) fs = orDirectory path (r, gs) := by
  rw [makeAll]
  simp only [h]

theorem makeAll_of_notFound {path : Path} {above : List Path} {fs gs : FileSystem}
    (h : makeDirectory path fs = (.error .notFound, gs)) :
    makeAll (path :: above) fs
      = match makeAll above fs with
        | (.error e, fs) => (.error e, fs)
        | (.ok (), fs) => orDirectory path (makeDirectory path fs) := by
  cases eq_of_makeDirectory_error h
  cases hall : makeAll above fs with
  | mk r hs => cases r <;> simp only [makeAll, h, hall]

/-- Of several directories each is made at most where its path leads. -/
theorem makeAll_makes : ∀ (paths : List Path) (fs : FileSystem),
    Makes fs (makeAll paths fs).2
      fun place => ∃ path ∈ paths, place = placeOf (fs.start path) path.steps
  | [], fs => .refl fs _
  | path :: above, fs => by
    cases hmake : makeDirectory path fs with
    | mk r gs =>
      by_cases hr : r = .error .notFound
      · -- The directories above are made first, and then the directory once more.
        subst hr
        have habove : Makes fs (makeAll above fs).2
            fun place => ∃ p ∈ path :: above, place = placeOf (fs.start p) p.steps :=
          (makeAll_makes above fs).mono
            fun place ⟨p, hp, hplace⟩ => ⟨p, List.mem_cons_of_mem _ hp, hplace⟩
        rw [makeAll_of_notFound hmake]
        cases hall : makeAll above fs with
        | mk r' hs =>
          rw [hall] at habove
          cases r' with
          | error e => exact habove
          | ok u =>
            have hstart := habove.grows.start_eq path
            have hagain : Makes hs (orDirectory path (makeDirectory path hs)).2
                fun place => ∃ p ∈ path :: above, place = placeOf (fs.start p) p.steps :=
              (orDirectory_makes path hs).mono
                fun place hplace => ⟨path, List.mem_cons_self, hstart ▸ hplace⟩
            exact habove.trans hagain
      · rw [makeAll_of_ne_notFound hmake hr, ← hmake]
        exact (orDirectory_makes path fs).mono
          fun place hplace => ⟨path, List.mem_cons_self, hplace⟩

/-- What is made for a path lies along its steps. -/
theorem makeDirectories_makes (path : Path) (fs : FileSystem) :
    Makes fs (makeDirectories path fs).2
      fun place => ∃ steps, steps <+: path.steps ∧ place = placeOf (fs.start path) steps := by
  refine (makeAll_makes _ fs).mono ?_
  rintro place ⟨p, hp, rfl⟩
  rw [List.mem_filter, decide_eq_true_eq] at hp
  rcases List.mem_cons.1 hp.1 with rfl | habove
  · exact ⟨_, List.prefix_refl _, rfl⟩
  · obtain ⟨habsolute, hsteps⟩ := Path.mem_allAbove habove hp.2
    refine ⟨p.steps, hsteps, ?_⟩
    simp only [start]
    rw [habsolute]

/-! ## Making them again -/

/-- Whether nothing but a missing directory is in the way of a path. -/
structure Free (fs : FileSystem) (path : Path) : Prop where
  usable : Usable path
  short : ∀ name ∈ path.steps, Short name
  way : ∀ steps, steps <+: path.steps → fs.entry? (placeOf (fs.start path) steps) = none
    ∨ fs.entry? (placeOf (fs.start path) steps) = some .directory

theorem short_of_walks {fs : FileSystem} : ∀ {steps : List String} {start : Place},
    fs.Walks start steps → ∀ name ∈ steps, Short name
  | [], _, _, _, hmem => absurd hmem List.not_mem_nil
  | first :: rest, start, ⟨_, hshort, hrest⟩, name, hmem => by
    cases hmem with
    | head => exact hshort
    | tail _ hmem => exact short_of_walks hrest name hmem

/-- If steps with nothing else in the way cannot be taken, then because something is missing. -/
theorem eq_notFound_of_foldlM {fs : FileSystem} {e : IoError} : ∀ {steps : List String} {start : Place},
    (∀ name ∈ steps, Short name) →
    (∀ taken, taken <+: steps → fs.entry? (placeOf start taken) = none
      ∨ fs.entry? (placeOf start taken) = some .directory) →
    steps.foldlM fs.enter start = .error e → e = .notFound
  | [], _, _, _, h => by cases h
  | name :: rest, start, hshort, hway, h => by
    rw [List.foldlM_cons] at h
    rcases hway [] List.nil_prefix with hnone | hdir
    · have henter : fs.enter start name = .error .notFound := by
        simp only [enter]
        rw [show fs.entry? start = none from hnone]
      rw [henter] at h
      cases h
      rfl
    · have henter : fs.enter start name = .ok (stepPlace start name) :=
        enter_iff.2 ⟨hdir, hshort name List.mem_cons_self, rfl⟩
      rw [henter] at h
      refine eq_notFound_of_foldlM (fun n hn => hshort n (List.mem_cons_of_mem _ hn))
        (fun taken htaken => ?_) h
      exact hway (name :: taken) (List.cons_prefix_cons.2 ⟨rfl, htaken⟩)

/-- A directory with nothing but missing directories in its way is made or is there, unless
directories above it are missing. -/
theorem Free.makeDirectory {fs : FileSystem} {path : Path} (h : fs.Free path) :
    (∃ gs, makeDirectory path fs = (.error .notFound, gs))
      ∨ ∃ gs, orDirectory path (makeDirectory path fs) = (.ok (), gs) := by
  simp only [FileSystem.makeDirectory, findForDirectory]
  cases hfollow : fs.follow path path.steps with
  | error e =>
    have hfold : path.steps.foldlM fs.enter (fs.start path) = .error e := by
      simp only [follow] at hfollow
      rwa [if_neg (by rw [h.usable.clean]; simp), if_neg (Nat.not_lt.2 h.usable.short),
        if_neg h.usable.nonempty] at hfollow
    cases eq_notFound_of_foldlM h.short h.way hfold
    exact .inl ⟨fs, rfl⟩
  | ok place =>
    obtain ⟨-, hwalks, rfl⟩ := follow_iff.1 hfollow
    refine .inr ?_
    rcases h.way path.steps (List.prefix_refl _) with hnone | hdir
    · simp only [hnone]
      exact ⟨_, rfl⟩
    · -- It is refused, which does no harm as there is a directory.
      simp only [hdir, orDirectory]
      rw [if_pos ⟨trivial, isDirectory_iff.2 ⟨h.usable, hwalks, hdir⟩⟩]
      exact ⟨fs, rfl⟩

theorem isDirectory_of_makeDirectory {fs gs : FileSystem} {path : Path}
    (h : makeDirectory path fs = (.ok (), gs)) : gs.isDirectory path = true := by
  have hgrows := (makeDirectory_makes path fs).grows
  rw [h] at hgrows
  simp only [makeDirectory] at h
  split at h
  · cases h
  · rename_i place hfind
    split at h
    · cases h
    · rename_i hnone
      cases h
      obtain ⟨husable, hwalks, rfl⟩ := follow_iff.1 hfind
      have hne := ne_top_of_not_directory (by rw [hnone]; simp)
      rw [isDirectory_iff, hgrows.start_eq, entry?_set fs hne, if_pos rfl]
      exact ⟨husable, hgrows.walks hwalks, rfl⟩

theorem isDirectory_of_orDirectory {fs gs : FileSystem} {path : Path}
    (h : orDirectory path (makeDirectory path fs) = (.ok (), gs)) : gs.isDirectory path = true := by
  cases hmake : makeDirectory path fs with
  | mk r hs =>
    rw [hmake] at h
    cases r with
    | error e =>
      -- It was there already, or else the error would stand.
      simp only [orDirectory] at h
      split at h
      · rename_i hthere
        cases h
        exact hthere.2
      · cases h
    | ok u =>
      cases h
      exact isDirectory_of_makeDirectory hmake

/-- Where a directory could be made or was there, nothing above it is missing; nor is it where there are
more directories. -/
theorem Grows.makeDirectory_ne_notFound {fs fs' gs hs : FileSystem} {path : Path} (h : fs.Grows gs)
    (hmade : orDirectory path (makeDirectory path fs) = (.ok (), fs')) :
    makeDirectory path gs ≠ (.error .notFound, hs) := by
  -- In the first file system the steps could be taken, whichever way it went.
  have hfollow : Usable path ∧ fs.Walks (fs.start path) path.steps := by
    simp only [makeDirectory] at hmade
    cases hfind : fs.findForDirectory path with
    | error e =>
      simp only [hfind, orDirectory] at hmade
      split at hmade
      · rename_i hthere
        obtain ⟨husable, hwalks, -⟩ := isDirectory_iff.1 hthere.2
        exact ⟨husable, hwalks⟩
      · cases hmade
    | ok place =>
      obtain ⟨husable, hwalks, -⟩ := follow_iff.1 hfind
      exact ⟨husable, hwalks⟩
  have hfind : gs.findForDirectory path = .ok (placeOf (gs.start path) path.steps) := by
    refine follow_iff.2 ⟨hfollow.1, ?_, rfl⟩
    rw [h.start_eq]
    exact h.walks hfollow.2
  intro hmissing
  simp only [makeDirectory, hfind] at hmissing
  split at hmissing <;> cases hmissing

/-- The second file system has all directories of the first, and at such places it has nothing else
where the first has nothing. -/
structure Fuller (way : Place → Prop) (fs gs : FileSystem) : Prop where
  grows : fs.Grows gs
  nothing : ∀ place, way place → fs.entry? place = none →
    gs.entry? place = none ∨ gs.entry? place = some .directory

/-- The way to a directory that can be made is free, and it is free wherever there are at most more
directories. -/
theorem Fuller.free {way : Place → Prop} {fs fs' gs : FileSystem} {made : Place → Prop} {path : Path}
    (h : Fuller way fs gs) (hway : ∀ steps, steps <+: path.steps → way (placeOf (fs.start path) steps))
    (hmakes : fs.Makes fs' made) (hdirectory : fs'.isDirectory path = true) : gs.Free path := by
  obtain ⟨husable, hwalks, -⟩ := isDirectory_iff.1 hdirectory
  refine ⟨husable, short_of_walks hwalks, fun steps hsteps => ?_⟩
  have hthere := directory_of_isDirectory hdirectory hsteps
  rw [hmakes.grows.start_eq] at hthere
  rw [h.grows.start_eq]
  rcases hmakes.entry (placeOf (fs.start path) steps) with hsame | ⟨hnone, -, -⟩
  · exact .inr (h.grows.directory _ (hsame ▸ hthere))
  · exact h.nothing _ (hway steps hsteps) hnone

theorem makeAll_cons_ok {path : Path} {above : List Path} {fs fs' : FileSystem}
    (h : makeAll (path :: above) fs = (.ok (), fs')) :
    orDirectory path (makeDirectory path fs) = (.ok (), fs')
      ∨ ∃ gs, makeAll above fs = (.ok (), gs)
        ∧ orDirectory path (makeDirectory path gs) = (.ok (), fs') := by
  cases hmake : makeDirectory path fs with
  | mk r gs =>
    -- Only where something is missing those above come first.
    by_cases hr : r = .error .notFound
    · subst hr
      rw [makeAll_of_notFound hmake] at h
      cases hall : makeAll above fs with
      | mk r' hs =>
        rw [hall] at h
        cases r' with
        | error e => cases h
        | ok u => exact .inr ⟨hs, rfl, h⟩
    · rw [makeAll_of_ne_notFound hmake hr] at h
      exact .inl h

theorem makeAll_of_made {path : Path} {above : List Path} {fs gs : FileSystem}
    (h : orDirectory path (makeDirectory path fs) = (.ok (), gs)) :
    makeAll (path :: above) fs = (.ok (), gs) := by
  cases hmake : makeDirectory path fs with
  | mk r hs =>
    rw [hmake] at h
    have hr : r ≠ .error .notFound := by
      rintro rfl
      cases h
    rw [makeAll_of_ne_notFound hmake hr, h]

theorem isDirectory_of_makeAll {path : Path} {above : List Path} {fs fs' : FileSystem}
    (h : makeAll (path :: above) fs = (.ok (), fs')) : fs'.isDirectory path = true := by
  rcases makeAll_cons_ok h with hfirst | ⟨gs, -, hagain⟩
  · exact isDirectory_of_orDirectory hfirst
  · exact isDirectory_of_orDirectory hagain

/-- After the same directories have been made in both, the second file system has all directories of
the first. -/
theorem Fuller.makeAll {way : Place → Prop} {path : Path} {above : List Path}
    {fs fs' gs gs' : FileSystem} (h : Fuller way fs gs)
    (habove : ∀ q ∈ above, q.isAbsolute = path.isAbsolute ∧ q.steps <+: path.steps)
    (hfs : makeAll (path :: above) fs = (.ok (), fs'))
    (hgs : makeAll (path :: above) gs = (.ok (), gs')) : Fuller way fs' gs' := by
  have hfs' := makeAll_makes (path :: above) fs
  have hgs' := makeAll_makes (path :: above) gs
  rw [hfs] at hfs'
  rw [hgs] at hgs'
  refine ⟨⟨fun place hplace => ?_, ?_⟩, fun place hplace hnone => ?_⟩
  · rcases hfs'.entry place with hsame | ⟨-, -, q, hq, heq⟩
    · exact hgs'.grows.directory _ (h.grows.directory _ (hsame ▸ hplace))
    · -- All that was made lies on the way to the first of the paths.
      have hsteps : q.isAbsolute = path.isAbsolute ∧ q.steps <+: path.steps := by
        cases hq with
        | head => exact ⟨rfl, List.prefix_refl _⟩
        | tail _ hq => exact habove q hq
      have hstart : fs.start q = gs'.start path := by
        rw [hgs'.grows.start_eq, h.grows.start_eq]
        simp only [start]
        rw [hsteps.1]
      rw [heq, hstart]
      exact directory_of_isDirectory (isDirectory_of_makeAll hgs) hsteps.2
  · rw [hgs'.working, h.grows.working, hfs'.working]
  · have hbefore : fs.entry? place = none := by
      rcases hfs'.entry place with hsame | ⟨hnone', -, -⟩
      · rw [← hsame, hnone]
      · exact hnone'
    rcases hgs'.entry place with hsame | ⟨-, hdir, -⟩
    · rw [hsame]
      exact h.nothing place hplace hbefore
    · exact .inr hdir

theorem makeAll_again {way : Place → Prop} : ∀ {paths : List Path} {fs fs' gs : FileSystem},
    (paths.Pairwise fun p q => q.isAbsolute = p.isAbsolute ∧ q.steps <+: p.steps) →
    (∀ path ∈ paths, ∀ steps, steps <+: path.steps → way (placeOf (fs.start path) steps)) →
    Fuller way fs gs → makeAll paths fs = (.ok (), fs') →
    ∃ gs', makeAll paths gs = (.ok (), gs') ∧ Fuller way fs' gs'
  | [], fs, _, gs, _, _, hfuller, h => by
    cases h
    exact ⟨gs, rfl, hfuller⟩
  | path :: above, fs, fs', gs, hpairs, hway, hfuller, h => by
    obtain ⟨habove, hpairs'⟩ := List.pairwise_cons.1 hpairs
    suffices hgs : ∃ gs', FileSystem.makeAll (path :: above) gs = (.ok (), gs') by
      obtain ⟨gs', hgs'⟩ := hgs
      exact ⟨gs', hgs', hfuller.makeAll habove h hgs'⟩
    have hmakes := makeAll_makes (path :: above) fs
    rw [h] at hmakes
    have hfree := hfuller.free (hway path List.mem_cons_self) hmakes (isDirectory_of_makeAll h)
    rcases hfree.makeDirectory with ⟨gs₁, hmissing⟩ | ⟨gs₁, hmade⟩
    · -- What is missing in the second is missing in the first, where all above could be made.
      rcases makeAll_cons_ok h with hfirst | ⟨hs, hall, hagain⟩
      · exact absurd hmissing (hfuller.grows.makeDirectory_ne_notFound hfirst)
      · obtain ⟨gs₂, hgs₂, hfuller₂⟩ := makeAll_again hpairs'
          (fun p hp => hway p (List.mem_cons_of_mem _ hp)) hfuller hall
        have hstart : hs.start path = fs.start path := by
          have hgrows := (makeAll_makes above fs).grows
          rw [hall] at hgrows
          exact hgrows.start_eq path
        have hlast := orDirectory_makes path hs
        rw [hagain] at hlast
        have hfree₂ := hfuller₂.free (hstart ▸ hway path List.mem_cons_self) hlast
          (isDirectory_of_orDirectory hagain)
        rw [makeAll_of_notFound hmissing, hgs₂]
        -- With those above made in both, nothing is missing any more.
        rcases hfree₂.makeDirectory with ⟨gs₃, hmissing₂⟩ | ⟨gs₃, hmade₂⟩
        · exact absurd hmissing₂ (hfuller₂.grows.makeDirectory_ne_notFound hagain)
        · exact ⟨gs₃, hmade₂⟩
    · exact ⟨gs₁, makeAll_of_made hmade⟩

/-- A directory that can be made can be made where there are at most more directories. -/
theorem makeDirectories_again {way : Place → Prop} {path : Path} {fs fs' gs : FileSystem}
    (hway : ∀ steps, steps <+: path.steps → way (placeOf (fs.start path) steps))
    (hfuller : Fuller way fs gs) (h : makeDirectories path fs = (.ok (), fs')) :
    ∃ gs', makeDirectories path gs = (.ok (), gs') ∧ Fuller way fs' gs' := by
  refine makeAll_again (Path.pairwise_allAbove path) (fun p hp steps hsteps => ?_) hfuller h
  obtain ⟨hmem, hne⟩ := List.mem_filter.1 hp
  cases hmem with
  | head => exact hway steps hsteps
  | tail _ habove =>
    obtain ⟨habsolute, hprefix⟩ := Path.mem_allAbove habove (of_decide_eq_true hne)
    have hstart : fs.start p = fs.start path := by
      simp only [start]
      rw [habsolute]
    rw [hstart]
    exact hway steps (hsteps.trans hprefix)

end DeviceLog.FileSystem
