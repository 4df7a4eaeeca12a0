import DeviceLog.Deflate.WordLengths
import DeviceLog.Proofs.Deflate.Words
import Mathlib.Data.List.Nodup

/-! # Word lengths leave no bit sequence unused

The lengths that are chosen for two symbols or more are those of a complete code, and none is longer than
allowed.

* `WordLengths.Full`: depths of a tree in which every way ends at a symbol. `full_joinAll`: joining keeps
  this, so the depths that are found have it.
* `WordLengths.spread`: the lengths that an array of their numbers stands for. Clamping the depths makes the
  words take up too much room, but not more than there are longest words (`Clamped`).
* `WordLengths.Clamped.lengthen`: a turn frees one word of the longest length, so that the last turn leaves
  a code that is complete, and no less (`withinLimit_spec`).
* `WordLengths.ofCounts_spec` says it of the lengths of the symbols.
-/

namespace DeviceLog.Deflate

/-- Counted in longer words, words take up so many times the room. -/
theorem span_eq_mul {longest longer : Nat} (hle : longest ≤ longer) {lengths : List Nat}
    (h : ∀ length ∈ lengths, length ≤ longest) :
    span longer lengths = 2 ^ (longer - longest) * span longest lengths := by
  induction lengths with
  | nil => simp
  | cons length lengths ih =>
    obtain ⟨hfirst, hothers⟩ := List.forall_mem_cons.1 h
    have hpow : 2 ^ (longer - length) = 2 ^ (longer - longest) * 2 ^ (longest - length) := by
      rw [← Nat.pow_add]
      congr 1
      omega
    simp [ih hothers, hpow, Nat.mul_add]

namespace WordLengths

/-! ## Depths -/

/-- Whether depths are those of a tree in which every way ends at a symbol. -/
def Full (depths : List Nat) : Prop :=
  ∀ longest, (∀ depth ∈ depths, depth ≤ longest) → span longest depths = 2 ^ longest

theorem full_zero : Full [0] := fun longest _ => by simp

theorem Full.join {g h : Group} (hg : Full g.depths) (hh : Full h.depths) : Full (join g h).depths := by
  intro longest hle
  have hall : ∀ depth ∈ g.depths ++ h.depths, depth + 1 ≤ longest := fun depth hmem =>
    hle (depth + 1) (List.mem_map_of_mem hmem)
  cases longest with
  | zero =>
    -- A tree has a symbol at least, which is one step deeper now.
    have hnone : g.depths = [] := List.eq_nil_iff_forall_not_mem.2 fun depth hmem => by
      simpa using hall depth (List.mem_append_left _ hmem)
    have hone := hg 0 (by simp [hnone])
    simp [hnone] at hone
  | succ longest =>
    have hdeeper : ∀ depths : List Nat, span (longest + 1) (depths.map (· + 1)) = span longest depths := by
      intro depths
      simp [span, Function.comp_def]
    have hg' := hg longest fun depth hmem => by simpa using hall depth (List.mem_append_left _ hmem)
    have hh' := hh longest fun depth hmem => by simpa using hall depth (List.mem_append_right _ hmem)
    simp only [WordLengths.join, hdeeper, span_append, hg', hh', Nat.pow_succ]
    omega

theorem perm_insert (g : Group) : ∀ groups : List Group, (insert g groups).Perm (g :: groups)
  | [] => List.Perm.refl _
  | h :: rest => by
    rw [insert]
    split
    · exact List.Perm.refl _
    · exact ((perm_insert g rest).cons h).trans (List.Perm.swap g h rest)

/-- How many symbols there are in groups. -/
def symbolsIn (groups : List Group) : Nat := (groups.map fun g => g.depths.length).sum

/-- Groups that are joined until one is left keep all their symbols, and the ways of it end at them. -/
theorem full_joinAll : ∀ (turns : Nat) (groups : List Group), groups ≠ [] → groups.length ≤ turns + 1 →
    (∀ g ∈ groups, Full g.depths) →
      Full (joinAll turns groups) ∧ (joinAll turns groups).length = symbolsIn groups
  | _, [], hne, _, _ => absurd rfl hne
  | 0, [g], _, _, h => by simpa [joinAll, symbolsIn] using h
  | _ + 1, [g], _, _, h => by simpa [joinAll, symbolsIn] using h
  | 0, _ :: _ :: _, _, hlength, _ => by simp at hlength
  | turns + 1, g :: h :: rest, _, hlength, hfull => by
    have hperm := perm_insert (join g h) rest
    have hcount : symbolsIn (insert (join g h) rest) = symbolsIn (g :: h :: rest) := by
      rw [symbolsIn, (hperm.map _).sum_nat]
      simp [symbolsIn, WordLengths.join]
      omega
    rw [← hcount, joinAll]
    refine full_joinAll turns _ ?_ ?_ fun k hk => ?_
    · exact List.ne_nil_of_length_pos (by simp [hperm.length_eq])
    · simpa [hperm.length_eq] using hlength
    · obtain ⟨hg, hothers⟩ := List.forall_mem_cons.1 hfull
      obtain ⟨hh, hrest⟩ := List.forall_mem_cons.1 hothers
      rcases List.mem_cons.1 (hperm.mem_iff.1 hk) with rfl | hmem
      · exact hg.join hh
      · exact hrest k hmem

theorem full_depths (counts : List Nat) (h : 2 ≤ counts.length) :
    Full (depths counts) ∧ (depths counts).length = counts.length := by
  have hjoined := full_joinAll counts.length (counts.map fun count => ⟨count, [0]⟩)
    (List.ne_nil_of_length_pos (by simp; omega)) (by simp) (by simp [full_zero])
  simp only [symbolsIn, List.map_map, Function.comp_def, List.length_singleton, List.map_const',
    List.sum_replicate_nat, Nat.mul_one] at hjoined
  match counts, h with
  | _ :: _ :: _, _ => exact hjoined

/-- Where there are two symbols or more, none is at the top. -/
theorem Full.pos {depths : List Nat} (h : Full depths) (htwo : 2 ≤ depths.length) : 0 ∉ depths := by
  intro hzero
  have hspan := h (depths.max?.getD 0) fun _ => List.le_max?_getD_of_mem
  have hperm := List.perm_cons_erase hzero
  rw [span_perm hperm, span_cons, Nat.sub_zero] at hspan
  have hlength := hperm.length_eq
  match hrest : depths.erase 0 with
  | [] => simp [hrest] at hlength; omega
  | depth :: rest =>
    have hpos := Nat.two_pow_pos (depths.max?.getD 0 - depth)
    rw [hrest, span_cons] at hspan
    omega

/-! ## Numbers of lengths -/

/-- The lengths that the numbers of them stand for, in order. -/
def spread (numbers : Array Nat) : List Nat :=
  numbers.toList.zipIdx.flatMap fun entry => List.replicate entry.1 entry.2

theorem weight_eq_span (longest : Nat) (numbers : Array Nat) :
    weight longest numbers = span longest (spread numbers) := by
  have hsum : ∀ (entries : List (Nat × Nat)) (start : Nat),
      entries.foldl (fun total entry => total + entry.1 <<< (longest - entry.2)) start
        = start + span longest (entries.flatMap fun entry => List.replicate entry.1 entry.2) := by
    intro entries
    induction entries with
    | nil => simp
    | cons entry entries ih =>
      intro start
      rw [List.foldl_cons, ih, List.flatMap_cons, span_append, Nat.shiftLeft_eq, Nat.add_assoc]
      simp [span]
  rw [weight, hsum, Nat.zero_add, spread]

theorem count_spread (numbers : Array Nat) (length : Nat) :
    (spread numbers).count length = numbers.getD length 0 := by
  have hlist : ∀ (xs : List Nat) (start : Nat),
      ((xs.zipIdx start).flatMap fun entry => List.replicate entry.1 entry.2).count length
        = if start ≤ length then xs.getD (length - start) 0 else 0 := by
    intro xs
    induction xs with
    | nil => simp
    | cons x xs ih =>
      intro start
      rw [List.zipIdx_cons, List.flatMap_cons, List.count_append, ih, List.count_replicate]
      rcases Nat.lt_trichotomy start length with h | rfl | h
      · obtain ⟨k, rfl⟩ : ∃ k, length = start + 1 + k := ⟨length - (start + 1), by omega⟩
        simp [show start + 1 + k - start = k + 1 by omega, show start ≤ start + 1 + k by omega,
          show start ≠ start + 1 + k by omega]
      · have hnot : ¬start + 1 ≤ start := by omega
        simp only [if_neg hnot, Nat.le_refl, if_true, beq_self_eq_true, Nat.sub_self, List.getD_cons_zero, Nat.add_zero]
      · simp [Nat.not_le.2 h, show ¬start + 1 ≤ length by omega, Nat.ne_of_gt h]
  rw [spread, hlist]
  simp [Array.getD_eq_getD_getElem?]

theorem mem_spread {numbers : Array Nat} {length : Nat} : length ∈ spread numbers ↔ numbers.getD length 0 ≠ 0 := by
  rw [← count_spread, ← Nat.pos_iff_ne_zero, List.count_pos_iff]

theorem le_of_mem_spread {numbers : Array Nat} {longest length : Nat} (hsize : numbers.size = longest + 1)
    (h : length ∈ spread numbers) : length ≤ longest := by
  by_contra hlt
  have hout : numbers.getD length 0 = 0 := by simp [Array.getD_eq_getD_getElem?, show numbers.size ≤ length by omega]
  exact mem_spread.1 h hout

theorem getD_modify (numbers : Array Nat) (f : Nat → Nat) {i : Nat} (hi : i < numbers.size) (length : Nat) :
    (numbers.modify i f).getD length 0 = if length = i then f (numbers.getD length 0) else numbers.getD length 0 := by
  simp only [Array.getD_eq_getD_getElem?, Array.getElem?_modify]
  by_cases h : length = i
  · subst h
    simp [hi]
  · simp [h, Ne.symm h]

theorem perm_spread_succ {numbers : Array Nat} {i : Nat} (hi : i < numbers.size) :
    (spread (numbers.modify i (· + 1))).Perm (i :: spread numbers) := by
  refine List.perm_iff_count.2 fun length => ?_
  rw [count_spread, getD_modify _ _ hi, List.count_cons, count_spread]
  by_cases h : length = i <;> simp [h, Ne.symm]

theorem spread_replicate_zero (count : Nat) : spread (Array.replicate count 0) = [] := by
  refine List.eq_nil_iff_forall_not_mem.2 fun length hmem => mem_spread.1 hmem ?_
  simp [Array.getD_eq_getD_getElem?, Array.getElem?_replicate]
  split <;> simp

/-- How many depths there are of each, none above the longest length. -/
def numbersOf (longest : Nat) (depths : List Nat) : Array Nat :=
  depths.foldl (fun numbers depth => numbers.modify (min depth longest) (· + 1)) (Array.replicate (longest + 1) 0)

theorem withinLimit_eq (longest : Nat) (depths : List Nat) :
    withinLimit longest depths = (spread (fit longest depths.length (numbersOf longest depths))).reverse := rfl

theorem numbersOf_spec (longest : Nat) (depths : List Nat) :
    (numbersOf longest depths).size = longest + 1
      ∧ (spread (numbersOf longest depths)).Perm (depths.map (min · longest)) := by
  have hcounted : ∀ {depths : List Nat} {numbers : Array Nat}, numbers.size = longest + 1 →
      (depths.foldl (fun numbers depth => numbers.modify (min depth longest) (· + 1)) numbers).size = longest + 1
        ∧ (spread (depths.foldl (fun numbers depth => numbers.modify (min depth longest) (· + 1)) numbers)).Perm
          (depths.map (min · longest) ++ spread numbers) := by
    intro depths
    induction depths with
    | nil => exact fun hsize => ⟨hsize, by simp⟩
    | cons depth depths ih =>
      intro numbers hsize
      have hlast : min depth longest < numbers.size := by omega
      obtain ⟨hsize', hperm⟩ := @ih (numbers.modify (min depth longest) (· + 1)) (by simpa using hsize)
      refine ⟨hsize', hperm.trans ?_⟩
      exact ((perm_spread_succ hlast).append_left _).trans (by simp [List.perm_middle])
  obtain ⟨hsize, hperm⟩ := @hcounted depths (Array.replicate (longest + 1) 0) (by simp)
  rw [spread_replicate_zero, List.append_nil] at hperm
  exact ⟨hsize, hperm⟩

/-! ## The longest word -/

/-- Numbers of lengths whose words may take up too much room, but not more of it than the longest words do. -/
structure Clamped (longest : Nat) (numbers : Array Nat) : Prop where
  size_eq : numbers.size = longest + 1
  pos : 0 ∉ spread numbers
  few : (spread numbers).length ≤ 2 ^ longest
  least : 2 ^ longest ≤ weight longest numbers
  enough : weight longest numbers ≤ 2 ^ longest + numbers.getD longest 0

/-- If only the longest words are there, they fit. -/
theorem Clamped.exists_shorter {longest : Nat} {numbers : Array Nat} (h : Clamped longest numbers)
    (hover : 2 ^ longest < weight longest numbers) : ∃ length < longest, numbers.getD length 0 ≠ 0 := by
  by_contra hnone
  have hall : ∀ length ∈ spread numbers, length = longest := by
    intro length hmem
    have hle := le_of_mem_spread h.size_eq hmem
    by_contra hne
    exact hnone ⟨length, by omega, mem_spread.1 hmem⟩
  have hspan : span longest (spread numbers) = (spread numbers).length := by
    rw [List.eq_replicate_of_mem hall]
    simp [span]
  have hfew := h.few
  rw [weight_eq_span, hspan] at hover
  omega

/-- One turn takes away one of the longest words and one of the longest of the others, and puts two in their
place that are one bit longer than that. -/
theorem exists_perm_lengthen {longest : Nat} {numbers : Array Nat} (hsize : numbers.size = longest + 1)
    (hlast : 0 < numbers.getD longest 0) (hshorter : ∃ length < longest, numbers.getD length 0 ≠ 0) :
    (lengthen longest numbers).size = longest + 1 ∧ ∃ length others, length < longest
      ∧ (spread numbers).Perm (longest :: length :: others)
      ∧ (spread (lengthen longest numbers)).Perm ((length + 1) :: (length + 1) :: others) := by
  have hother : ∀ length < longest, (numbers.modify longest (· - 1)).getD length 0 = numbers.getD length 0 := by
    intro length hlt
    rw [getD_modify _ _ (by omega), if_neg (Nat.ne_of_lt hlt)]
  cases hfind : (List.range longest).reverse.find? fun length =>
      (numbers.modify longest (· - 1)).getD length 0 != 0 with
  | none =>
    obtain ⟨length, hlt, hne⟩ := hshorter
    have hzero := List.find?_eq_none.1 hfind length (by simpa using hlt)
    rw [hother length hlt] at hzero
    exact absurd hne (by simpa using hzero)
  | some length =>
    have hlt : length < longest := by simpa using List.mem_of_find?_eq_some hfind
    have hne : numbers.getD length 0 ≠ 0 := by
      rw [← hother length hlt]
      simpa using List.find?_some hfind
    have hmem : length ∈ (spread numbers).erase longest :=
      (List.mem_erase_of_ne (Nat.ne_of_lt hlt)).2 (mem_spread.2 hne)
    obtain ⟨others, hperm⟩ : ∃ others, (spread numbers).Perm (longest :: length :: others) :=
      ⟨_, (List.perm_cons_erase (mem_spread.2 (Nat.ne_of_gt hlast))).trans
        ((List.perm_cons_erase hmem).cons longest)⟩
    have hturn : lengthen longest numbers
        = ((numbers.modify longest (· - 1)).modify length (· - 1)).modify (length + 1) (· + 2) := by
      simp only [lengthen, hfind]
    rw [hturn]
    refine ⟨by simpa using hsize, length, others, hlt, hperm, List.perm_iff_count.2 fun other => ?_⟩
    have hcount := hperm.count_eq other
    simp only [count_spread, List.count_cons, beq_iff_eq] at hcount ⊢
    rw [getD_modify _ _ (by simp; omega), getD_modify _ _ (by simp; omega), getD_modify _ _ (by omega)]
    grind

/-- A turn frees one of the longest words, and keeps what it begins with. -/
theorem Clamped.lengthen {longest : Nat} {numbers : Array Nat} (h : Clamped longest numbers)
    (hover : 2 ^ longest < weight longest numbers) :
    Clamped longest (lengthen longest numbers)
      ∧ weight longest (WordLengths.lengthen longest numbers) + 1 = weight longest numbers
      ∧ (spread (WordLengths.lengthen longest numbers)).length = (spread numbers).length := by
  have henough := h.enough
  obtain ⟨hsize, length, others, hlt, hbefore, hafter⟩ :=
    exists_perm_lengthen h.size_eq (by omega) (h.exists_shorter hover)
  have hweight : weight longest (WordLengths.lengthen longest numbers) + 1 = weight longest numbers := by
    have hhalf : 2 ^ (longest - length) = 2 ^ (longest - (length + 1)) * 2 := by
      rw [← Nat.pow_succ]
      congr 1
      omega
    rw [weight_eq_span, weight_eq_span, span_perm hbefore, span_perm hafter]
    simp only [span_cons, Nat.sub_self, Nat.pow_zero]
    omega
  have hlength : (spread (WordLengths.lengthen longest numbers)).length = (spread numbers).length := by
    rw [hbefore.length_eq, hafter.length_eq]
    rfl
  have hlongest : numbers.getD longest 0 ≤ (WordLengths.lengthen longest numbers).getD longest 0 + 1 := by
    rw [← count_spread, ← count_spread, hbefore.count_eq, hafter.count_eq]
    simp [List.count_cons, Nat.ne_of_lt hlt]
    omega
  refine ⟨⟨hsize, ?_, ?_, by omega, by omega⟩, hweight, hlength⟩
  · have hpos := h.pos
    simp [hbefore.mem_iff] at hpos
    simp [hafter.mem_iff, hpos]
  · rw [hlength]
    exact h.few

/-- Where there is a turn for each word that is too many, the words take up all the room and no more. -/
theorem Clamped.fit {longest : Nat} : ∀ {turns : Nat} {numbers : Array Nat}, Clamped longest numbers →
    weight longest numbers ≤ 2 ^ longest + turns →
      Clamped longest (fit longest turns numbers) ∧ weight longest (WordLengths.fit longest turns numbers) = 2 ^ longest
        ∧ (spread (WordLengths.fit longest turns numbers)).length = (spread numbers).length
  | 0, numbers, h, hturns => ⟨h, Nat.le_antisymm hturns h.least, rfl⟩
  | turns + 1, numbers, h, hturns => by
    rw [WordLengths.fit, Nat.one_shiftLeft]
    by_cases hover : weight longest numbers ≤ 2 ^ longest
    · rw [if_pos hover]
      exact ⟨h, Nat.le_antisymm hover h.least, rfl⟩
    · obtain ⟨hclamped, hweight, hlength⟩ := h.lengthen (Nat.lt_of_not_le hover)
      rw [if_neg hover, ← hlength]
      exact hclamped.fit (by omega)

/-- Depths that are clamped take up too much room, but not more of it than the clamped ones do. -/
theorem Full.span_clamped {depths : List Nat} (h : Full depths) (longest : Nat) :
    2 ^ longest ≤ span longest (depths.map (min · longest))
      ∧ span longest (depths.map (min · longest))
        ≤ 2 ^ longest + (depths.map (min · longest)).count longest := by
  obtain ⟨deepest, hdeepest, hlongest⟩ : ∃ deepest, (∀ depth ∈ depths, depth ≤ deepest) ∧ longest ≤ deepest :=
    ⟨depths.max?.getD 0 + longest, fun depth hmem =>
      Nat.le_trans (List.le_max?_getD_of_mem hmem) (Nat.le_add_right _ _), Nat.le_add_left _ _⟩
  have hspan := h deepest hdeepest
  -- Counted in the deepest words, a clamped depth takes up as much room as it did, or that of a longest word.
  have hbounds : span deepest depths ≤ span deepest (depths.map (min · longest))
      ∧ span deepest (depths.map (min · longest))
        ≤ span deepest depths + 2 ^ (deepest - longest) * (depths.map (min · longest)).count longest := by
    clear hspan h hdeepest
    induction depths with
    | nil => simp
    | cons depth depths ih =>
      simp only [List.map_cons, span_cons, List.count_cons, Nat.mul_add]
      by_cases hlt : depth < longest
      · simp [Nat.min_eq_left (Nat.le_of_lt hlt), Nat.ne_of_lt hlt]
        omega
      · have hle : 2 ^ (deepest - depth) ≤ 2 ^ (deepest - longest) := Nat.pow_le_pow_right (by omega) (by omega)
        have hpos := Nat.two_pow_pos (deepest - depth)
        simp [Nat.min_eq_right (Nat.le_of_not_lt hlt)]
        omega
  have hscale : span deepest (depths.map (min · longest))
      = 2 ^ (deepest - longest) * span longest (depths.map (min · longest)) :=
    span_eq_mul hlongest fun length hmem => by
      obtain ⟨depth, -, rfl⟩ := List.mem_map.1 hmem
      exact Nat.min_le_right depth longest
  have hwhole : 2 ^ deepest = 2 ^ (deepest - longest) * 2 ^ longest := by
    rw [← Nat.pow_add]
    congr 1
    omega
  rw [hscale, hspan, hwhole, ← Nat.mul_add] at hbounds
  exact ⟨Nat.le_of_mul_le_mul_left hbounds.1 (Nat.two_pow_pos _),
    Nat.le_of_mul_le_mul_left hbounds.2 (Nat.two_pow_pos _)⟩

/-- The lengths for the depths of a tree are as many as the depths and leave no bit sequence unused. -/
theorem withinLimit_spec {longest : Nat} {depths : List Nat} (h : Full depths) (htwo : 2 ≤ depths.length)
    (hfew : depths.length ≤ 2 ^ longest) :
    (withinLimit longest depths).length = depths.length
      ∧ span longest (withinLimit longest depths) = 2 ^ longest
      ∧ ∀ length ∈ withinLimit longest depths, length ≠ 0 ∧ length ≤ longest := by
  obtain ⟨hsize, hperm⟩ := numbersOf_spec longest depths
  obtain ⟨hleast, henough⟩ := h.span_clamped longest
  have hlongest : longest ≠ 0 := by
    rintro rfl
    simp at hfew
    omega
  have hclamped : Clamped longest (numbersOf longest depths) := by
    refine ⟨hsize, ?_, ?_, ?_, ?_⟩
    · have hpos := h.pos htwo
      rw [hperm.mem_iff]
      simp only [List.mem_map, not_exists, not_and]
      rintro depth hmem hzero
      have : depth = 0 := by omega
      exact hpos (this ▸ hmem)
    · rw [hperm.length_eq, List.length_map]
      exact hfew
    · rw [weight_eq_span, span_perm hperm]
      exact hleast
    · rw [weight_eq_span, span_perm hperm, ← count_spread, hperm.count_eq]
      exact henough
  have hturns : weight longest (numbersOf longest depths) ≤ 2 ^ longest + depths.length := by
    have hcount : (depths.map (min · longest)).count longest ≤ (depths.map (min · longest)).length :=
      List.count_le_length
    rw [weight_eq_span, span_perm hperm]
    rw [List.length_map] at hcount
    omega
  obtain ⟨hfit, hweight, hlength⟩ := hclamped.fit hturns
  rw [withinLimit_eq]
  refine ⟨?_, ?_, fun length hmem => ?_⟩
  · rw [List.length_reverse, hlength, hperm.length_eq, List.length_map]
  · rw [span_perm (List.reverse_perm _), ← weight_eq_span, hweight]
  · have hmem' := List.mem_reverse.1 hmem
    refine ⟨?_, le_of_mem_spread hfit.size_eq hmem'⟩
    rintro rfl
    exact hfit.pos hmem'

/-! ## Symbols -/

/-- A symbol that occurs alone has a word of one bit. -/
theorem withinLimit_one {longest : Nat} (hlongest : longest ≠ 0) : withinLimit longest [1] = [1] := by
  obtain ⟨hsize, hperm⟩ := numbersOf_spec longest [1]
  have hone : min 1 longest = 1 := by omega
  rw [List.map_singleton, hone] at hperm
  have hroom : weight longest (numbersOf longest [1]) ≤ 1 <<< longest := by
    rw [weight_eq_span, span_perm hperm, Nat.one_shiftLeft]
    simpa using Nat.pow_le_pow_right (by omega) (Nat.sub_le longest 1)
  rw [withinLimit_eq, List.length_singleton, fit, if_pos hroom, List.perm_singleton.1 hperm, List.reverse_singleton]

/-- The lengths for counts are as many as the counts. -/
theorem withinLimit_depths {longest : Nat} (hlongest : longest ≠ 0) (counts : List Nat)
    (hfew : counts.length ≤ 2 ^ longest) :
    (withinLimit longest (depths counts)).length = counts.length
      ∧ (∀ length ∈ withinLimit longest (depths counts), length ≠ 0 ∧ length ≤ longest)
      ∧ (counts.length = 1 → withinLimit longest (depths counts) = [1])
      ∧ (2 ≤ counts.length → span longest (withinLimit longest (depths counts)) = 2 ^ longest) := by
  match counts with
  | [] =>
    have hnone : withinLimit longest (depths []) = [] := by
      have hspread : spread (numbersOf longest []) = [] := spread_replicate_zero (longest + 1)
      simp [withinLimit_eq, depths, joinAll, fit, hspread]
    simp [hnone]
  | [count] =>
    have hone : withinLimit longest (depths [count]) = [1] := withinLimit_one hlongest
    simp [hone]
    omega
  | first :: second :: rest =>
    obtain ⟨hfull, hlength⟩ := full_depths (first :: second :: rest) (by simp)
    obtain ⟨hlength', hspan, hall⟩ := withinLimit_spec hfull (by simp [hlength]) (by rwa [hlength])
    exact ⟨hlength'.trans hlength, hall, by simp, fun _ => hspan⟩

/-- A length that is entered for a symbol without one is there besides the others. -/
theorem perm_filter_foldl_setIfInBounds {α : Type} (place : α → Nat) (length : α → Nat) : ∀ (entries : List α)
    (table : Array Nat), (entries.map place).Nodup →
      (∀ entry ∈ entries, place entry < table.size ∧ table.getD (place entry) 0 = 0 ∧ length entry ≠ 0) →
      ((entries.foldl (fun table entry => table.setIfInBounds (place entry) (length entry)) table).toList.filter
          (· != 0)).Perm (entries.map length ++ table.toList.filter (· != 0))
  | [], table, _, _ => by simp
  | entry :: entries, table, hnodup, h => by
    obtain ⟨⟨hlt, hfree, hne⟩, hothers⟩ := List.forall_mem_cons.1 h
    obtain ⟨hnew, hnodup'⟩ := List.nodup_cons.1 hnodup
    have hentered : ((table.setIfInBounds (place entry) (length entry)).toList.filter (· != 0)).Perm
        (length entry :: table.toList.filter (· != 0)) := by
      have hlt' : place entry < table.toList.length := by simpa using hlt
      have hzero : table.toList[place entry] = 0 := by simpa [Array.getD_eq_getD_getElem?, hlt] using hfree
      have hsplit : table.toList = table.toList.take (place entry) ++ 0 :: table.toList.drop (place entry + 1) := by
        rw [← hzero, List.getElem_cons_drop, List.take_append_drop]
      conv_rhs => rw [hsplit]
      rw [Array.toList_setIfInBounds, List.set_eq_take_append_cons_drop, if_pos hlt']
      simp [hne, List.perm_middle]
    have ih := perm_filter_foldl_setIfInBounds place length entries
      (table.setIfInBounds (place entry) (length entry)) hnodup' fun other hmem => by
        obtain ⟨hlt', hfree', hne'⟩ := hothers other hmem
        have hplace : place entry ≠ place other := fun heq =>
          hnew (List.mem_map.2 ⟨other, hmem, heq.symm⟩)
        refine ⟨by simpa using hlt', ?_, hne'⟩
        rw [Array.getD_eq_getD_getElem?] at hfree' ⊢
        rwa [Array.getElem?_setIfInBounds_ne hplace]
    rw [List.foldl_cons]
    refine ih.trans ?_
    simpa using (hentered.append_left (entries.map length)).trans List.perm_middle

/-- The counts of the symbols that occur are ranked, each with the place of its symbol. -/
theorem ranked_spec (counts : List Nat) :
    ((ranked counts).map (·.2)).Nodup ∧ (ranked counts).length = (counts.filter (· != 0)).length
      ∧ ∀ entry, entry ∈ ranked counts ↔ counts[entry.2]? = some entry.1 ∧ entry.1 ≠ 0 := by
  have hperm : (ranked counts).Perm (counts.zipIdx.filter (·.1 != 0)) := List.mergeSort_perm _ _
  refine ⟨?_, ?_, fun entry => ?_⟩
  · rw [(hperm.map _).nodup_iff]
    refine List.Nodup.sublist (List.filter_sublist.map Prod.snd) ?_
    rw [List.zipIdx_map_snd]
    exact List.nodup_range'
  · have hfirst : counts.filter (· != 0) = (counts.zipIdx.map Prod.fst).filter (· != 0) := by
      rw [List.zipIdx_map_fst]
    rw [hperm.length_eq, hfirst, List.filter_map, List.length_map]
    rfl
  · rw [hperm.mem_iff, List.mem_filter, List.mem_zipIdx_iff_getElem?]
    simp

/-- The symbols that occur, each with its count and the length of its word. -/
def entries (longest : Nat) (counts : List Nat) : List ((Nat × Nat) × Nat) :=
  (ranked counts).zip (withinLimit longest (depths ((ranked counts).map (·.1))))

theorem ofCounts_eq (longest : Nat) (counts : List Nat) :
    ofCounts longest counts = ((entries longest counts).foldl
      (fun table entry => table.setIfInBounds entry.1.2 entry.2) (Array.replicate counts.length 0)).toList := rfl

section Entries

variable {longest : Nat} (hlongest : longest ≠ 0) (counts : List Nat)
  (hfew : (counts.filter (· != 0)).length ≤ 2 ^ longest)

include hlongest hfew

/-- Each symbol that occurs has one entry, and its length is not zero. -/
theorem entries_spec :
    (entries longest counts).map (·.1) = ranked counts
      ∧ (entries longest counts).map (·.2) = withinLimit longest (depths ((ranked counts).map (·.1)))
      ∧ ∀ entry ∈ entries longest counts, counts[entry.1.2]? = some entry.1.1 ∧ entry.2 ≠ 0 := by
  obtain ⟨-, hlength, hmem⟩ := ranked_spec counts
  obtain ⟨hlengths, hall, -⟩ := withinLimit_depths hlongest ((ranked counts).map (·.1))
    (by simpa [hlength] using hfew)
  rw [List.length_map] at hlengths
  refine ⟨List.map_fst_zip (Nat.le_of_eq hlengths.symm), List.map_snd_zip (Nat.le_of_eq hlengths),
    fun entry hentry => ?_⟩
  obtain ⟨hranked, hlimited⟩ := List.of_mem_zip hentry
  exact ⟨((hmem entry.1).1 hranked).1, (hall entry.2 hlimited).1⟩

/-- The lengths that are not zero are those of the entries. -/
theorem perm_ofCounts :
    ((ofCounts longest counts).filter (· != 0)).Perm (withinLimit longest (depths ((ranked counts).map (·.1)))) := by
  obtain ⟨hranked, hlimited, hentries⟩ := entries_spec hlongest counts hfew
  have hnodup : ((entries longest counts).map (·.1.2)).Nodup := by
    have hsymbols := (ranked_spec counts).1
    rwa [← hranked, List.map_map] at hsymbols
  have hperm := perm_filter_foldl_setIfInBounds (fun entry : (Nat × Nat) × Nat => entry.1.2) (·.2)
    (entries longest counts) (Array.replicate counts.length 0) hnodup fun entry hentry => by
      obtain ⟨hget, hne⟩ := hentries entry hentry
      have hlt : entry.1.2 < counts.length := (List.getElem?_eq_some_iff.1 hget).1
      exact ⟨by simpa using hlt, by simp [Array.getD_eq_getD_getElem?, hlt], hne⟩
  rw [hlimited] at hperm
  simpa [ofCounts_eq] using hperm

/-- Every symbol that occurs gets a word. -/
theorem getD_ofCounts_ne_zero {symbol : Nat} (hoccurs : counts.getD symbol 0 ≠ 0) :
    (ofCounts longest counts).getD symbol 0 ≠ 0 := by
  obtain ⟨hranked, -, hentries⟩ := entries_spec hlongest counts hfew
  have hget : counts[symbol]? = some (counts.getD symbol 0) := by
    cases hget : counts[symbol]? with
    | none => simp [hget] at hoccurs
    | some count => simp [hget]
  have hlt : symbol < counts.length := (List.getElem?_eq_some_iff.1 hget).1
  have hmem : (counts.getD symbol 0, symbol) ∈ (entries longest counts).map (·.1) := by
    rw [hranked]
    exact ((ranked_spec counts).2.2 _).2 ⟨hget, hoccurs⟩
  obtain ⟨known, hknown, hplace⟩ := List.mem_map.1 hmem
  obtain ⟨entry, hentry, -, hvalue⟩ := getD_foldl_setIfInBounds (fun entry : (Nat × Nat) × Nat => entry.1.2) (·.2) 0
    (Array.replicate counts.length 0) (by simpa using hlt) ⟨known, hknown, congrArg Prod.snd hplace⟩
  have hne := (hentries entry hentry).2
  rw [← hvalue, Array.getD_eq_getD_getElem?] at hne
  simpa [ofCounts_eq] using hne

/-- Every symbol that occurs gets a word, no word is longer than allowed, and where two symbols occur their
words leave no bit sequence unused. A symbol that occurs alone has a word of one bit. -/
theorem ofCounts_spec :
    (∀ length ∈ ofCounts longest counts, length ≤ longest)
      ∧ (∀ symbol, counts.getD symbol 0 ≠ 0 → (ofCounts longest counts).getD symbol 0 ≠ 0)
      ∧ ((counts.filter (· != 0)).length = 0 → (ofCounts longest counts).filter (· != 0) = [])
      ∧ ((counts.filter (· != 0)).length = 1 → (ofCounts longest counts).filter (· != 0) = [1])
      ∧ (2 ≤ (counts.filter (· != 0)).length →
        span longest ((ofCounts longest counts).filter (· != 0)) = 2 ^ longest) := by
  have hlength := (ranked_spec counts).2.1
  obtain ⟨hlengths, hall, hone, htwo⟩ := withinLimit_depths hlongest ((ranked counts).map (·.1))
    (by simpa [hlength] using hfew)
  rw [List.length_map, hlength] at hlengths hone htwo
  have hperm := perm_ofCounts hlongest counts hfew
  refine ⟨fun length hmem => ?_, fun _ => getD_ofCounts_ne_zero hlongest counts hfew, fun h => ?_, fun h => ?_,
    fun h => ?_⟩
  · by_cases hzero : length = 0
    · omega
    · exact (hall length (hperm.mem_iff.1 (List.mem_filter.2 ⟨hmem, by simpa using hzero⟩))).2
  · exact (hperm.trans (.of_eq (List.length_eq_zero_iff.1 (hlengths.trans h)))).eq_nil
  · exact List.perm_singleton.1 (hperm.trans (.of_eq (hone h)))
  · rw [span_perm hperm]
    exact htwo h

end Entries

end WordLengths

end DeviceLog.Deflate
