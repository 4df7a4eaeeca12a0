import DeviceLog.Proofs.Storage.Directories

/-! # Which directories can be made

A directory can be made, with those above it that are missing, if nothing but missing directories is in its
way.

* `Path.ofPieces_pieces`: a path is that of its pieces. `Path.isBelow_ofPieces` says how it leads on from the
  path above it.
* `Free.makeAll` is one step of making: where those above can be made, so can the directory below them.
* `Free.makeDirectories` goes up along the pieces.
-/

namespace DeviceLog

/-! ## The path above -/

namespace Path

theorem intercalate_cut : ∀ (cs begun : List Char),
    String.intercalate "/" (cut begun cs) = String.ofList (begun.reverse ++ cs)
  | [], begun => by rw [cut, String.intercalate_singleton, List.append_nil]
  | c :: cs, begun => by
    rw [cut]
    split
    · rename_i hc
      subst hc
      rw [String.intercalate_cons_of_ne_nil (cut_ne_nil cs []), intercalate_cut cs []]
      apply String.toList_inj.1
      simp
    · rw [intercalate_cut cs (c :: begun), List.reverse_cons, List.append_assoc]
      rfl

theorem ofPieces_pieces {p : Path} (h : p.text ≠ "") : ofPieces p.pieces.reverse = p := by
  have htext : String.intercalate "/" p.pieces = p.text := by
    rw [pieces, intercalate_cut]
    simp
  simp only [ofPieces]
  split
  · rename_i htop
    rw [List.reverse_eq_iff] at htop
    rw [htop] at htext
    exact absurd htext.symm h
  · rw [List.reverse_reverse, htext]

theorem steps_ofPieces {ps : List String} (hne : ps ≠ []) (hclean : ∀ piece ∈ ps, '/' ∉ piece.toList) :
    (ofPieces ps).steps = ps.reverse.filter (· ≠ "") := by
  simp only [ofPieces]
  split
  · rename_i htop
    subst htop
    decide
  · simp only [steps]
    rw [pieces_intercalate (by simpa using hne) (by simpa using hclean)]

theorem text_ofPieces_ne_empty {ps : List String} (hne : ps ≠ []) : (ofPieces ps).text ≠ "" := by
  simp only [ofPieces]
  split
  · decide
  · rename_i htop
    cases ps with
    | nil => exact absurd rfl hne
    | cons piece rest =>
      cases hrest : rest.reverse with
      | nil =>
        rw [List.reverse_eq_nil_iff] at hrest
        subst hrest
        rw [List.reverse_singleton, String.intercalate_singleton]
        simpa using htop
      | cons first more =>
        intro hempty
        have := congrArg String.toList hempty
        rw [List.reverse_cons, hrest,
          String.intercalate_append_of_ne_nil (List.cons_ne_nil _ _) (List.cons_ne_nil _ _)] at this
        simp at this

theorem exists_trimmed : ∀ ps : List String,
    ∃ idle, ps = idle ++ trimmed ps ∧ ∀ piece ∈ idle, isIdle piece = true
  | [] => ⟨[], rfl, List.forall_mem_nil _⟩
  | [first] => ⟨[], rfl, List.forall_mem_nil _⟩
  | piece :: next :: ps => by
    by_cases hidle : isIdle piece = true
    · obtain ⟨idle, hps, hall⟩ := exists_trimmed (next :: ps)
      refine ⟨piece :: idle, ?_, List.forall_mem_cons.2 ⟨hidle, hall⟩⟩
      simp only [trimmed, hidle, if_true]
      exact congrArg (piece :: ·) hps
    · refine ⟨[], ?_, List.forall_mem_nil _⟩
      simp only [trimmed, hidle, Bool.false_eq_true, if_false, List.nil_append]

theorem trimmed_trimmed : ∀ ps : List String, trimmed (trimmed ps) = trimmed ps
  | [] => rfl
  | [first] => rfl
  | piece :: next :: ps => by
    by_cases hidle : isIdle piece = true
    · simp only [trimmed, hidle, if_true, trimmed_trimmed (next :: ps)]
    · simp only [trimmed, hidle, Bool.false_eq_true, if_false]

theorem not_isIdle_of_trimmed {piece next : String} {ps : List String}
    (h : trimmed (piece :: next :: ps) = piece :: next :: ps) : isIdle piece = false := by
  by_contra hidle
  rw [Bool.not_eq_false] at hidle
  simp only [trimmed, hidle, if_true] at h
  have hlength := (trimmed_suffix (next :: ps)).length_le
  rw [h, List.length_cons] at hlength
  exact Nat.not_succ_le_self _ hlength

/-- A path that leads one step further than another, perhaps after steps that stay. -/
structure IsBelow (p q : Path) (name : String) : Prop where
  text : ∃ more, p.text = q.text ++ more
  absolute : p.isAbsolute = q.isAbsolute
  steps : ∃ stays, p.steps = q.steps ++ stays ++ [name] ∧ ∀ n ∈ stays, n = here

section Below

variable {piece : String} {rest : List String}

theorem abovePieces_cons (hidle : isIdle piece = false) (hne : rest ≠ []) :
    abovePieces (piece :: rest) = ofPieces (trimmed rest) :: abovePieces (trimmed rest) := by
  cases rest with
  | nil => exact absurd rfl hne
  | cons next ps => simp only [abovePieces, hidle, Bool.false_eq_true, if_false, abovePieces_trimmed]

theorem text_ofPieces_cons (piece : String) (hne : rest ≠ []) :
    ∃ more, (ofPieces (piece :: rest)).text = (ofPieces (trimmed rest)).text ++ more := by
  obtain ⟨idle, hrest, -⟩ := exists_trimmed rest
  have hqs := trimmed_ne_nil hne
  generalize trimmed rest = qs at hrest hqs
  subst hrest
  have htext : (ofPieces (piece :: (idle ++ qs))).text
      = String.intercalate "/" qs.reverse ++ "/" ++ String.intercalate "/" (piece :: idle).reverse := by
    simp only [ofPieces]
    rw [if_neg (by simp [hqs]), ← List.cons_append, List.reverse_append,
      String.intercalate_append_of_ne_nil (by simpa using hqs) (by simp)]
  rw [htext]
  simp only [ofPieces]
  split
  · -- Above what begins at the top there is the slash itself.
    rename_i htop
    subst htop
    exact ⟨String.intercalate "/" (piece :: idle).reverse, rfl⟩
  · exact ⟨_, String.append_assoc⟩

theorem steps_ofPieces_cons (hidle : isIdle piece = false) (hne : rest ≠ [])
    (hclean : ∀ p ∈ piece :: rest, '/' ∉ p.toList) :
    ∃ stays, (ofPieces (piece :: rest)).steps = (ofPieces (trimmed rest)).steps ++ stays ++ [piece]
      ∧ ∀ name ∈ stays, name = here := by
  obtain ⟨idle, hrest, hall⟩ := exists_trimmed rest
  have hcleanAbove : ∀ p ∈ trimmed rest, '/' ∉ p.toList := fun p hp =>
    hclean p (List.mem_cons_of_mem _ ((trimmed_suffix rest).subset hp))
  have hpiece : piece ≠ "" := by
    rintro rfl
    cases hidle
  refine ⟨idle.reverse.filter (· ≠ ""), ?_, fun name hname => ?_⟩
  · rw [steps_ofPieces (List.cons_ne_nil _ _) hclean, steps_ofPieces (trimmed_ne_nil hne) hcleanAbove,
      List.reverse_cons, List.filter_append, List.filter_cons_of_pos (by simpa using hpiece), List.filter_nil]
    conv_lhs => rw [hrest, List.reverse_append, List.filter_append]
  · rw [List.mem_filter, List.mem_reverse, decide_eq_true_eq] at hname
    have hstays := hall name hname.1
    simp only [isIdle, decide_eq_true_eq] at hstays
    exact hstays.resolve_left hname.2

/-- Pieces lead one step further than those above the last of them. -/
theorem isBelow_ofPieces (hidle : isIdle piece = false) (hne : rest ≠ [])
    (hclean : ∀ p ∈ piece :: rest, '/' ∉ p.toList) :
    IsBelow (ofPieces (piece :: rest)) (ofPieces (trimmed rest)) piece where
  text := text_ofPieces_cons piece hne
  absolute := by
    have hmem : ofPieces (trimmed rest) ∈ (ofPieces (piece :: rest)).allAbove := by
      rw [allAbove_ofPieces (List.cons_ne_nil _ _) hclean, abovePieces_cons hidle hne]
      exact List.mem_cons_self
    exact (mem_allAbove hmem (text_ofPieces_ne_empty (trimmed_ne_nil hne))).1.symm
  steps := steps_ofPieces_cons hidle hne hclean

end Below

end Path

namespace FileSystem

/-! ## One directory -/

variable {fs gs : FileSystem} {path : Path}

/-- A path can be used whose text is the first of one that can. -/
theorem Usable.of_append {p q : Path} {more : String} (h : Usable p) (htext : p.text = q.text ++ more)
    (hne : q.text ≠ "") : Usable q where
  clean := by
    have := h.clean
    rw [htext, String.toList_append, List.contains_append, Bool.or_eq_false_iff] at this
    exact this.1
  short := by
    have := h.short
    rw [htext, String.utf8ByteSize_append] at this
    exact Nat.le_trans (Nat.le_add_right _ _) this
  nonempty := hne

theorem walks_of_stays {place : Place} (h : fs.entry? place = some .directory) : ∀ {stays : List String},
    (∀ name ∈ stays, name = Path.here) → fs.Walks place stays ∧ placeOf place stays = place
  | [], _ => ⟨trivial, rfl⟩
  | name :: rest, hall => by
    obtain ⟨rfl, hrest⟩ := List.forall_mem_cons.1 hall
    obtain ⟨hwalks, hplace⟩ := walks_of_stays h hrest
    exact ⟨⟨h, .inl rfl, hwalks⟩, hplace⟩

theorem start_of_isBelow {q : Path} {name : String} (h : path.IsBelow q name) : fs.start path = fs.start q := by
  simp only [start]
  rw [h.absolute]

/-- A path can be walked if the one above it leads to a directory. -/
theorem walks_of_isBelow {q : Path} {name : String} (h : path.IsBelow q name) (hq : fs.isDirectory q = true)
    (hshort : Short name) : fs.Walks (fs.start path) path.steps := by
  obtain ⟨-, hwalks, hentry⟩ := isDirectory_iff.1 hq
  obtain ⟨stays, hsteps, hall⟩ := h.steps
  obtain ⟨hstay, hplace⟩ := walks_of_stays hentry hall
  rw [start_of_isBelow h, hsteps, walks_append, walks_append, placeOf_append, hplace]
  exact ⟨⟨hwalks, hstay⟩, hentry, hshort, trivial⟩

/-- What is in a directory that is there is found. -/
theorem exists_find_of_isBelow {q : Path} {name : String} (h : path.IsBelow q name)
    (hq : fs.isDirectory q = true) (hshort : Short name) (husable : Usable path) (hslash : path.endsInSlash = false) :
    ∃ place, fs.find path = .ok place :=
  ⟨_, (find_iff hslash).2 ⟨husable, walks_of_isBelow h hq hshort, rfl⟩⟩

theorem usable_and_short_of_find {place : Place} (h : fs.find path = .ok place) :
    Usable path ∧ ∀ name ∈ path.steps, Short name := by
  obtain ⟨husable, hwalks, -⟩ := follow_iff.1 h
  exact ⟨husable, fun name hname => short_of_walks hwalks name (List.mem_append_left _ hname)⟩

theorem Free.of_makes {made : Place → Prop} (h : fs.Free path) (hmakes : fs.Makes gs made) :
    gs.Free path where
  usable := h.usable
  short := h.short
  way steps hsteps := by
    rw [hmakes.grows.start_eq]
    rcases hmakes.entry (placeOf (fs.start path) steps) with hsame | ⟨-, hdirectory, -⟩
    · rw [hsame]
      exact h.way steps hsteps
    · exact .inr hdirectory

/-- What is in the way of the path above is in the way. -/
theorem Free.above {q : Path} {name : String} (h : fs.Free path) (hbelow : path.IsBelow q name)
    (hne : q.text ≠ "") : fs.Free q := by
  obtain ⟨more, htext⟩ := hbelow.text
  obtain ⟨stays, hsteps, -⟩ := hbelow.steps
  have hfirst : q.steps <+: path.steps := by
    rw [hsteps, List.append_assoc]
    exact List.prefix_append _ _
  refine ⟨h.usable.of_append htext hne, fun n hn => h.short n (hfirst.subset hn), fun steps htaken => ?_⟩
  rw [← start_of_isBelow hbelow]
  exact h.way steps (htaken.trans hfirst)

theorem makeDirectory_ne_notFound (husable : Usable path) (hwalks : fs.Walks (fs.start path) path.steps) :
    makeDirectory path fs ≠ (.error .notFound, gs) := by
  have hfind : fs.findForDirectory path = .ok (placeOf (fs.start path) path.steps) :=
    follow_iff.2 ⟨husable, hwalks, rfl⟩
  intro hmissing
  simp only [makeDirectory, hfind] at hmissing
  split at hmissing <;> cases hmissing

/-- Where the directories above can be made, and nothing is missing then, a directory can be made. -/
theorem Free.makeAll {above : List Path} (h : fs.Free path)
    (habove : ∃ gs, FileSystem.makeAll above fs = (.ok (), gs) ∧ gs.Walks (gs.start path) path.steps) :
    ∃ gs, FileSystem.makeAll (path :: above) fs = (.ok (), gs) := by
  rcases h.makeDirectory with ⟨fs', hmissing⟩ | ⟨gs, hmade⟩
  · obtain ⟨gs, hgs, hwalks⟩ := habove
    have hmakes := makeAll_makes above fs
    rw [hgs] at hmakes
    rw [makeAll_of_notFound hmissing, hgs]
    rcases (h.of_makes hmakes).makeDirectory with ⟨hs, hstill⟩ | ⟨hs, hmade⟩
    · exact absurd hstill (makeDirectory_ne_notFound h.usable hwalks)
    · exact ⟨hs, hmade⟩
  · exact ⟨gs, makeAll_of_made hmade⟩

/-! ## All directories above -/

theorem filter_named {paths : List Path} (h : path.text ≠ "") :
    (path :: paths).filter (fun p => p.text ≠ "") = path :: paths.filter fun p => p.text ≠ "" :=
  List.filter_cons_of_pos (decide_eq_true h)

/-- The first directory of a path is where paths begin. -/
theorem Free.walks_first {first : String} (h : fs.Free (Path.ofPieces [first]))
    (hclean : ∀ piece ∈ [first], '/' ∉ piece.toList)
    (hstart : fs.entry? (fs.start (Path.ofPieces [first])) = some .directory) :
    fs.Walks (fs.start (Path.ofPieces [first])) (Path.ofPieces [first]).steps := by
  have hshort := h.short
  rw [Path.steps_ofPieces (List.cons_ne_nil _ _) hclean, List.reverse_singleton] at hshort ⊢
  by_cases hfirst : first = ""
  · rw [hfirst]
    exact trivial
  · have hkept : [first].filter (· ≠ "") = [first] := by simp [hfirst]
    rw [hkept] at hshort ⊢
    exact ⟨hstart, hshort first (List.mem_singleton_self _), trivial⟩

/-- The induction is on the pieces that are above, without those that lead nowhere. -/
theorem makeAll_ofPieces : ∀ {ps : List String}, (∀ piece ∈ ps, '/' ∉ piece.toList) →
    Path.trimmed ps = ps → fs.Free (Path.ofPieces ps) →
    fs.entry? (fs.start (Path.ofPieces ps)) = some .directory →
    ∃ gs, makeAll ((Path.ofPieces ps :: Path.abovePieces ps).filter fun p => p.text ≠ "") fs = (.ok (), gs)
  | [], _, _, hfree, _ => absurd rfl hfree.usable.nonempty
  | [first], hclean, _, hfree, hstart => by
    have habove : (Path.abovePieces [first]).filter (fun p => p.text ≠ "") = [] := by
      rw [Path.abovePieces]
      split <;> rfl
    rw [filter_named hfree.usable.nonempty, habove]
    exact hfree.makeAll ⟨fs, rfl, hfree.walks_first hclean hstart⟩
  | piece :: next :: ps, hclean, htrimmed, hfree, hstart => by
    have hidle := Path.not_isIdle_of_trimmed htrimmed
    have hne : next :: ps ≠ [] := List.cons_ne_nil _ _
    have hbelow := Path.isBelow_ofPieces hidle hne hclean
    have hnamed := Path.text_ofPieces_ne_empty (Path.trimmed_ne_nil hne)
    have hcleanAbove : ∀ p ∈ Path.trimmed (next :: ps), '/' ∉ p.toList := fun p hp =>
      hclean p (List.mem_cons_of_mem _ ((Path.trimmed_suffix _).subset hp))
    obtain ⟨gs, hgs⟩ := makeAll_ofPieces hcleanAbove (Path.trimmed_trimmed _) (hfree.above hbelow hnamed)
      (by rw [← start_of_isBelow hbelow]; exact hstart)
    rw [filter_named hfree.usable.nonempty, Path.abovePieces_cons hidle hne]
    refine hfree.makeAll ⟨gs, hgs, ?_⟩
    rw [filter_named hnamed] at hgs
    obtain ⟨stays, hsteps, -⟩ := hbelow.steps
    have hmem : piece ∈ (Path.ofPieces (piece :: next :: ps)).steps := by
      rw [hsteps]
      exact List.mem_append_right _ (List.mem_singleton_self _)
    exact walks_of_isBelow hbelow (isDirectory_of_makeAll hgs) (hfree.short piece hmem)
  termination_by ps => ps.length
  decreasing_by
    have := (Path.trimmed_suffix (next :: ps)).length_le
    exact Nat.lt_succ_of_le this

/-- A directory can be made if nothing but missing directories is in its way and its path ends in a name. -/
theorem Free.makeDirectories (h : fs.Free path)
    (htrimmed : Path.trimmed path.pieces.reverse = path.pieces.reverse)
    (hstart : fs.entry? (fs.start path) = some .directory) :
    ∃ gs, FileSystem.makeDirectories path fs = (.ok (), gs) := by
  have hpath := Path.ofPieces_pieces h.usable.nonempty
  have hclean : ∀ piece ∈ path.pieces.reverse, '/' ∉ piece.toList := fun piece hpiece =>
    Path.slash_not_mem_of_mem_cut (by simp) (List.mem_reverse.1 hpiece)
  rw [← hpath] at h hstart
  have hall := makeAll_ofPieces hclean htrimmed h hstart
  rw [hpath] at hall
  exact hall

end FileSystem

end DeviceLog
