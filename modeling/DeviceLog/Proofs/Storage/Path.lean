import DeviceLog.Storage.Path

/-! # The text of paths

A path is text, and what its steps are is found out by cutting the text at its slashes. These lemmas
say what comes out for paths that are put together.

* `steps_join`: a path inside another leads on from it.
* `isAbsolute_join` and `endsInSlash_join`: it begins where the first begins and ends as the second
  does.
* `mem_allAbove`: the paths above a path lead along the first of its steps, and `pairwise_allAbove`:
  so does each of them for those before it.
* `names_of_steps`: a path that leads on from another by names has the names of the first and these.
-/

namespace DeviceLog.Path

/-! ## Cutting -/

theorem cut_of_not_mem : ∀ {cs begun : List Char}, '/' ∉ cs →
    cut begun cs = [String.ofList (begun.reverse ++ cs)]
  | [], begun, _ => by simp [cut]
  | c :: cs, begun, h => by
    have hc : c ≠ '/' := fun hc => h (hc ▸ List.mem_cons_self)
    have ih : cut (c :: begun) cs = [String.ofList ((c :: begun).reverse ++ cs)] :=
      cut_of_not_mem fun hcs => h (List.mem_cons_of_mem c hcs)
    rw [cut, if_neg hc, ih]
    simp

/-- Text is cut at each of its slashes. -/
theorem cut_append_slash (rest : List Char) : ∀ (cs begun : List Char),
    cut begun (cs ++ '/' :: rest) = cut begun cs ++ cut [] rest
  | [], begun => by simp [cut]
  | c :: cs, begun => by
    have ih := cut_append_slash rest cs
    rw [List.cons_append, cut, cut]
    split
    · rw [ih, List.cons_append]
    · rw [ih]

theorem cut_ne_nil : ∀ (cs begun : List Char), cut begun cs ≠ []
  | [], begun => by simp [cut]
  | c :: cs, begun => by
    rw [cut]
    split
    · simp
    · exact cut_ne_nil cs (c :: begun)

theorem slash_not_mem_of_mem_cut {piece : String} : ∀ {cs begun : List Char}, '/' ∉ begun →
    piece ∈ cut begun cs → '/' ∉ piece.toList
  | [], begun, hbegun, h => by
    rw [cut, List.mem_singleton] at h
    subst h
    simpa using hbegun
  | c :: cs, begun, hbegun, h => by
    rw [cut] at h
    split at h
    · rcases List.mem_cons.1 h with rfl | h
      · simpa using hbegun
      · exact slash_not_mem_of_mem_cut (by simp) h
    · rename_i hc
      refine slash_not_mem_of_mem_cut ?_ h
      intro hmem
      rcases List.mem_cons.1 hmem with heq | hmem
      · exact hc heq.symm
      · exact hbegun hmem

/-! ## Paths put together -/

/-- The pieces of two texts with a slash between them. -/
theorem pieces_append_slash (s t : String) :
    pieces ⟨s ++ "/" ++ t⟩ = pieces ⟨s⟩ ++ pieces ⟨t⟩ := by
  simp only [pieces, String.toList_append]
  rw [show "/".toList = ['/'] from rfl, List.append_assoc, List.singleton_append]
  exact cut_append_slash _ _ _

theorem exists_of_endsInSlash {p : Path} (h : p.text.toList.getLast? = some '/') :
    ∃ s, p.text = s ++ "/" := by
  obtain ⟨cs, hcs⟩ := List.getLast?_eq_some_iff.1 h
  refine ⟨String.ofList cs, String.toList_inj.1 ?_⟩
  rw [hcs, String.toList_append, String.toList_ofList]
  rfl

/-- A path inside another leads on from it. -/
theorem steps_join {p q : Path} (hq : q.isAbsolute = false) :
    (p.join q).steps = p.steps ++ q.steps := by
  simp only [join]
  rw [if_neg (by simp [hq])]
  split
  · rename_i h
    -- No slash is put in where the first path is empty or ends in one already.
    rcases h with hempty | hslash
    · have hp : p.steps = [] := by
        simp only [steps, pieces]
        rw [hempty]
        rfl
      rw [hempty, hp]
      simp
    · obtain ⟨s, hs⟩ := exists_of_endsInSlash hslash
      have hp : p.pieces = pieces ⟨s⟩ ++ [""] := by
        have := pieces_append_slash s ""
        rw [String.append_empty, ← hs] at this
        exact this
      simp only [steps]
      rw [hs, pieces_append_slash, hp]
      simp
  · simp only [steps]
    rw [pieces_append_slash, List.filter_append]

theorem isAbsolute_join {p q : Path} (hq : q.isAbsolute = false) :
    (p.join q).isAbsolute = p.isAbsolute := by
  simp only [join]
  rw [if_neg (by simp [hq])]
  by_cases hp : p.text = ""
  · rw [if_pos (.inl hp), hp]
    simp only [String.empty_append]
    rw [show isAbsolute ⟨q.text⟩ = false from hq]
    simp [isAbsolute, hp]
  · have hne : p.text.toList ≠ [] := fun h => hp (String.toList_inj.1 h)
    have hhead : ∀ t : String, isAbsolute ⟨p.text ++ t⟩ = p.isAbsolute := by
      intro t
      simp only [isAbsolute]
      rw [String.toList_append, List.head?_append]
      cases h : p.text.toList with
      | nil => exact absurd h hne
      | cons c cs => rfl
    split
    · exact hhead q.text
    · rw [String.append_assoc]
      exact hhead _

theorem endsInSlash_join {p q : Path} (hq : q.isAbsolute = false) (hne : q.text ≠ "") :
    (p.join q).endsInSlash = q.endsInSlash := by
  have hq' : q.text.toList ≠ [] := fun h => hne (String.toList_inj.1 h)
  have hlast : ∀ t : String, endsInSlash ⟨t ++ q.text⟩ = q.endsInSlash := by
    intro t
    simp only [endsInSlash]
    rw [String.toList_append, List.getLast?_append]
    cases h : q.text.toList.getLast? with
    | none => exact absurd (List.getLast?_eq_none_iff.1 h) hq'
    | some c => rfl
  simp only [join]
  rw [if_neg (by simp [hq])]
  split
  · exact hlast p.text
  · exact hlast _

/-! ## Paths above -/

theorem pieces_intercalate : ∀ {ps : List String}, ps ≠ [] → (∀ piece ∈ ps, '/' ∉ piece.toList) →
    pieces ⟨String.intercalate "/" ps⟩ = ps
  | [], hne, _ => absurd rfl hne
  | [piece], _, h => by
    simp only [String.intercalate_singleton, pieces]
    rw [cut_of_not_mem (h piece List.mem_cons_self)]
    simp
  | piece :: next :: ps, _, h => by
    have ih : pieces ⟨String.intercalate "/" (next :: ps)⟩ = next :: ps :=
      pieces_intercalate (List.cons_ne_nil _ _) fun p hp => h p (List.mem_cons_of_mem _ hp)
    have hpiece : pieces ⟨piece⟩ = [piece] := by
      simp only [pieces]
      rw [cut_of_not_mem (h piece List.mem_cons_self)]
      simp
    rw [String.intercalate_cons_cons, pieces_append_slash, hpiece, ih]
    rfl

theorem head?_cut_ne : ∀ {cs begun : List Char}, begun ≠ [] → (cut begun cs).head? ≠ some ""
  | [], begun, h => by
    have hne : begun.reverse ≠ [] := by simpa using h
    rw [cut, List.head?_cons, ne_eq, Option.some.injEq]
    intro heq
    exact hne (by simpa using congrArg String.toList heq)
  | c :: cs, begun, h => by
    have hne : begun.reverse ≠ [] := by simpa using h
    rw [cut]
    split
    · rw [List.head?_cons, ne_eq, Option.some.injEq]
      intro heq
      exact hne (by simpa using congrArg String.toList heq)
    · exact head?_cut_ne (List.cons_ne_nil _ _)

/-- A path begins at the top if its first piece is empty and there are others. -/
theorem isAbsolute_iff {p : Path} :
    p.isAbsolute = true ↔ p.pieces.head? = some "" ∧ 2 ≤ p.pieces.length := by
  simp only [isAbsolute, pieces]
  cases h : p.text.toList with
  | nil => simp [cut]
  | cons c cs =>
    by_cases hc : c = '/'
    · -- The slash in front ends an empty piece, and at least one piece follows.
      subst hc
      have hpos := List.length_pos_iff.2 (cut_ne_nil cs [])
      simp only [List.head?_cons, decide_true, cut, if_true, List.length_cons, List.reverse_nil,
        String.ofList_nil, true_and, true_iff]
      omega
    · simp only [List.head?_cons, Option.some.injEq, decide_eq_true_eq, hc, false_iff]
      rw [cut, if_neg hc]
      exact fun hboth => head?_cut_ne (List.cons_ne_nil _ _) hboth.1

theorem trimmed_suffix : ∀ ps : List String, trimmed ps <:+ ps
  | [] => List.suffix_refl []
  | [first] => List.suffix_refl [first]
  | piece :: next :: ps => by
    rw [trimmed]
    split
    · exact (trimmed_suffix (next :: ps)).trans (List.suffix_cons piece _)
    · exact List.suffix_refl _
    · exact nofun

theorem trimmed_ne_nil : ∀ {ps : List String}, ps ≠ [] → trimmed ps ≠ []
  | [], h => absurd rfl h
  | [first], _ => List.cons_ne_nil _ _
  | piece :: next :: ps, _ => by
    rw [trimmed]
    split
    · exact trimmed_ne_nil (List.cons_ne_nil _ _)
    · exact List.cons_ne_nil _ _
    · exact nofun

/-- The paths above pieces are made of fewer of them, or empty. -/
theorem mem_abovePieces {p : Path} : ∀ {ps : List String}, p ∈ abovePieces ps → p.text ≠ "" →
    ∃ qs, p = ofPieces qs ∧ qs ≠ [] ∧ qs <:+ ps ∧ qs.length < ps.length
  | [], h, _ => by simp [abovePieces] at h
  | [first], h, hne => by
    rw [abovePieces] at h
    split at h
    · simp at h
    · rw [List.mem_singleton] at h
      exact absurd (h ▸ rfl) hne
  | piece :: next :: ps, h, hne => by
    have hrest : p ∈ abovePieces (next :: ps) →
        ∃ qs, p = ofPieces qs ∧ qs ≠ [] ∧ qs <:+ piece :: next :: ps
          ∧ qs.length < (piece :: next :: ps).length := by
      intro h
      obtain ⟨qs, hp, hqs, hsuffix, hlength⟩ := mem_abovePieces h hne
      exact ⟨qs, hp, hqs, hsuffix.trans (List.suffix_cons piece _),
        Nat.lt_trans hlength (Nat.lt_succ_self _)⟩
    rw [abovePieces] at h
    · split at h
      · exact hrest h
      · rcases List.mem_cons.1 h with rfl | h
        · have hsuffix := trimmed_suffix (next :: ps)
          exact ⟨_, rfl, trimmed_ne_nil (List.cons_ne_nil _ _), hsuffix.trans (List.suffix_cons piece _),
            Nat.lt_succ_of_le hsuffix.length_le⟩
        · exact hrest h
    · exact nofun

/-- A path above another begins where it begins, and leads along the first of its steps. -/
theorem mem_allAbove {p q : Path} (h : q ∈ p.allAbove) (hne : q.text ≠ "") :
    q.isAbsolute = p.isAbsolute ∧ q.steps <+: p.steps := by
  obtain ⟨qs, rfl, hqs, hsuffix, hlength⟩ := mem_abovePieces h hne
  have hclean : ∀ piece ∈ qs.reverse, '/' ∉ piece.toList := by
    intro piece hpiece
    have hmem : piece ∈ cut [] p.text.toList :=
      List.mem_reverse.1 (hsuffix.subset (List.mem_reverse.1 hpiece))
    exact slash_not_mem_of_mem_cut (by simp) hmem
  have hprefix : qs.reverse <+: p.pieces := by
    have := List.reverse_prefix.2 hsuffix
    rwa [List.reverse_reverse] at this
  have hhead : p.pieces.head? = qs.reverse.head? := by
    obtain ⟨more, hmore⟩ := hprefix
    rw [← hmore]
    cases hrev : qs.reverse with
    | nil => exact absurd (List.reverse_eq_nil_iff.1 hrev) hqs
    | cons first rest => rfl
  have hmany : 2 ≤ p.pieces.length := by
    have := List.length_pos_iff.2 hqs
    rw [List.length_reverse] at hlength
    omega
  have habsolute : p.isAbsolute = true ↔ qs.reverse.head? = some "" := by
    rw [isAbsolute_iff, hhead]
    exact ⟨fun h => h.1, fun h => ⟨h, hmany⟩⟩
  simp only [ofPieces]
  split
  · -- The top: its one piece is empty.
    rename_i htop
    subst htop
    refine ⟨?_, List.nil_prefix⟩
    rw [habsolute.2 rfl]
    rfl
  · rename_i htop
    have hpieces := pieces_intercalate (by simpa using hqs) hclean
    refine ⟨?_, ?_⟩
    · rw [Bool.eq_iff_iff, isAbsolute_iff, hpieces, habsolute]
      refine ⟨fun h => h.1, fun h => ⟨h, ?_⟩⟩
      -- The only path of one piece that is empty is the top, which has been dealt with.
      match qs, hqs, htop, h with
      | [first], _, htop, h => exact absurd (by simpa using h) htop
      | _ :: _ :: _, _, _, _ => simp
    · simp only [steps]
      rw [hpieces]
      exact hprefix.filter _

theorem abovePieces_trimmed : ∀ ps : List String, abovePieces (trimmed ps) = abovePieces ps
  | [] => rfl
  | [first] => rfl
  | piece :: next :: ps => by
    have ih := abovePieces_trimmed (next :: ps)
    by_cases hidle : isIdle piece = true
    · simp only [trimmed, hidle, if_true, abovePieces, ih]
    · simp only [trimmed, hidle, Bool.false_eq_true, if_false]

theorem allAbove_ofPieces {ps : List String} (hne : ps ≠ []) (hclean : ∀ piece ∈ ps, '/' ∉ piece.toList) :
    (ofPieces ps).allAbove = abovePieces ps := by
  simp only [ofPieces]
  split
  · rename_i htop
    subst htop
    rfl
  · simp only [allAbove]
    rw [pieces_intercalate (by simpa using hne) (by simpa using hclean), List.reverse_reverse]

/-- Of the paths above pieces each is above those before it. -/
theorem pairwise_abovePieces : ∀ {ps : List String}, (∀ piece ∈ ps, '/' ∉ piece.toList) →
    (abovePieces ps).Pairwise fun p q =>
      q.text ≠ "" → q.isAbsolute = p.isAbsolute ∧ q.steps <+: p.steps
  | [], _ => List.Pairwise.nil
  | [first], _ => by
    rw [abovePieces]
    split
    · exact List.Pairwise.nil
    · exact List.pairwise_singleton _ _
  | piece :: next :: ps, h => by
    have hclean : ∀ p ∈ next :: ps, '/' ∉ p.toList := fun p hp => h p (List.mem_cons_of_mem _ hp)
    have ih := pairwise_abovePieces hclean
    rw [abovePieces]
    · split
      · exact ih
      · refine List.Pairwise.cons (fun q hq hne => ?_) ih
        have htrimmed : ∀ p ∈ trimmed (next :: ps), '/' ∉ p.toList :=
          fun p hp => hclean p ((trimmed_suffix _).subset hp)
        rw [← abovePieces_trimmed,
          ← allAbove_ofPieces (trimmed_ne_nil (List.cons_ne_nil _ _)) htrimmed] at hq
        exact mem_allAbove hq hne
    · exact nofun

/-- Of a path and the paths above it each is above those before it. -/
theorem pairwise_allAbove (p : Path) :
    ((p :: p.allAbove).filter fun q => q.text ≠ "").Pairwise fun p q =>
      q.isAbsolute = p.isAbsolute ∧ q.steps <+: p.steps := by
  have hclean : ∀ piece ∈ p.pieces.reverse, '/' ∉ piece.toList := fun piece hpiece =>
    slash_not_mem_of_mem_cut (by simp) (List.mem_reverse.1 hpiece)
  have hall : (p :: p.allAbove).Pairwise fun p q =>
      q.text ≠ "" → q.isAbsolute = p.isAbsolute ∧ q.steps <+: p.steps :=
    List.Pairwise.cons (fun q hq hne => mem_allAbove hq hne) (pairwise_abovePieces hclean)
  refine (hall.filter _).imp_of_mem fun _ hq himp => himp ?_
  simpa using (List.mem_filter.1 hq).2

/-! ## Names -/

/-- A path that begins with the directory itself does so with its first step. -/
theorem head?_pieces_iff {p : Path} (h : p.isAbsolute = false) :
    p.pieces.head? = some here ↔ p.steps.head? = some here := by
  have habsolute := isAbsolute_iff (p := p)
  rw [h, Bool.false_eq_true, false_iff] at habsolute
  simp only [steps]
  cases hpieces : p.pieces with
  | nil => simp
  | cons first rest =>
    by_cases hfirst : first = ""
    · -- Only the empty path begins with an empty piece and not at the top.
      subst hfirst
      rw [hpieces] at habsolute
      cases rest with
      | nil => simp [here]
      | cons next rest => simp at habsolute
    · rw [List.filter_cons_of_pos (by simpa using hfirst)]
      rfl

/-- The names of a path are its steps but for those that stay, with the beginning of the path in front. -/
theorem names_eq (p : Path) : p.names
    = (if p.isAbsolute then [top] else if p.steps.head? = some here then [here] else [])
      ++ p.steps.filter (· ≠ here) := by
  have hinner : p.pieces.filter (fun n => n ≠ "" ∧ n ≠ here) = p.steps.filter (· ≠ here) := by
    simp only [steps]
    rw [List.filter_filter]
    apply List.filter_congr
    intro n _
    rw [Bool.decide_and, Bool.and_comm]
  simp only [names, hinner]
  cases habsolute : p.isAbsolute with
  | true => rfl
  | false =>
    simp only [Bool.false_eq_true, if_false, head?_pieces_iff habsolute]
    split <;> rfl

/-- A path that leads on from another by names has these names besides. -/
theorem names_of_steps {p q : Path} {more : List String} (habsolute : q.isAbsolute = p.isAbsolute)
    (hsteps : q.steps = p.steps ++ more) (hmore : ∀ name ∈ more, name ≠ here) :
    q.names = p.names ++ more := by
  have hfilter : more.filter (· ≠ here) = more :=
    List.filter_eq_self.2 fun name hname => decide_eq_true (hmore name hname)
  rw [names_eq, names_eq, habsolute, hsteps, List.filter_append, hfilter, List.append_assoc]
  congr 1
  cases p.steps with
  | nil =>
    have hhead : more.head? ≠ some here := fun heq => hmore _ (List.mem_of_mem_head? heq) rfl
    simp [hhead]
  | cons first rest => rfl
end DeviceLog.Path
