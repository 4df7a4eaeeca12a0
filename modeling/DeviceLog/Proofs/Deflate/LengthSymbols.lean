import DeviceLog.Proofs.Deflate.Tokens

/-! # Lengths are read as they are spelled

The word lengths of a code are written as symbols of a further code.

* `LengthSymbol.Adds before s added`, `Spells before symbols after`: what one symbol adds to the lengths that have
  been read, and what symbols make of them.
* `spells_lengthSymbols`: the symbols that are written spell the lengths. `yields_statedLengths`: they are read
  as what they spell.
* `exists_ne_symbols`: at least two symbols are written, so that the further code is complete, as it must be.
-/

namespace DeviceLog.Deflate

/-! ## Spelled lengths -/

/-- What a symbol of the code for word lengths adds to those that have been read before, the last first. -/
inductive LengthSymbol.Adds : List Nat → LengthSymbol → List Nat → Prop
  | length {before : List Nat} {length : Nat} : length < 16 → Adds before ⟨length, 0, 0⟩ [length]
  | same {last k : Nat} {before : List Nat} : k < 4 →
      Adds (last :: before) ⟨16, k, 2⟩ (List.replicate (3 + k) last)
  | zeros {k : Nat} {before : List Nat} : k < 8 → Adds before ⟨17, k, 3⟩ (List.replicate (3 + k) 0)
  | moreZeros {k : Nat} {before : List Nat} : k < 128 → Adds before ⟨18, k, 7⟩ (List.replicate (11 + k) 0)

/-- How symbols take the lengths that have been read before them, the last first, to those read after them. -/
inductive Spells : List Nat → List LengthSymbol → List Nat → Prop
  | nil {before : List Nat} : Spells before [] before
  | cons {before added after : List Nat} {s : LengthSymbol} {symbols : List LengthSymbol} : s.Adds before added →
      Spells (added ++ before) symbols after → Spells before (s :: symbols) after

theorem LengthSymbol.Adds.length_pos {before added : List Nat} {s : LengthSymbol} (h : s.Adds before added) :
    0 < added.length := by
  cases h <;> simp only [List.length_replicate, List.length_singleton] <;> omega

theorem LengthSymbol.Adds.symbol_lt {before added : List Nat} {s : LengthSymbol} (h : s.Adds before added) :
    s.symbol < 19 := by
  cases h <;> simp
  omega

namespace Spells

variable {before middle after : List Nat} {symbols more : List LengthSymbol}

theorem append (h : Spells before symbols middle) (h' : Spells middle more after) :
    Spells before (symbols ++ more) after := by
  induction h with
  | nil => exact h'
  | cons hfirst _ ih => exact .cons hfirst (ih h')

/-- Every symbol stands for a length at least. -/
theorem length_le (h : Spells before symbols after) : before.length + symbols.length ≤ after.length := by
  induction h with
  | nil => simp
  | cons hfirst _ ih =>
    have hpos := hfirst.length_pos
    simp only [List.length_append, List.length_cons] at ih ⊢
    omega

theorem symbol_lt (h : Spells before symbols after) : ∀ s ∈ symbols, s.symbol < 19 := by
  induction h with
  | nil => simp
  | cons hfirst _ ih => exact List.forall_mem_cons.2 ⟨hfirst.symbol_lt, ih⟩

end Spells

/-- A run of equal lengths is the length as often as it is there, and what follows it begins otherwise. -/
theorem exists_run (length : Nat) (rest : List Nat) :
    rest = List.replicate (rest.takeWhile (· == length)).length length
        ++ rest.drop (rest.takeWhile (· == length)).length
      ∧ ∀ next ∈ (rest.drop (rest.takeWhile (· == length)).length).head?, next ≠ length := by
  induction rest with
  | nil => simp
  | cons other rest ih =>
    by_cases h : other = length
    · subst h
      simpa [List.replicate_succ] using ih
    · simp [h]

theorem spells_zeroRun : ∀ (turns count : Nat) (before : List Nat), count ≤ turns →
    Spells before (zeroRun turns count) (List.replicate count 0 ++ before)
  | 0, count, before, h => by
    obtain rfl : count = 0 := by omega
    exact .nil
  | turns + 1, count, before, h => by
    rw [zeroRun]
    split
    · rename_i hzero
      subst hzero
      exact .nil
    · split
      · obtain ⟨count, rfl⟩ : ∃ less, count = less + 1 := ⟨count - 1, by omega⟩
        have hrest := spells_zeroRun turns count (0 :: before) (by omega)
        refine .cons (.length (by omega)) ?_
        rwa [List.append_cons, ← List.replicate_succ'] at hrest
      · split
        · obtain ⟨k, rfl⟩ : ∃ k, count = 3 + k := ⟨count - 3, by omega⟩
          rw [Nat.add_sub_cancel_left]
          exact .cons (.zeros (by omega)) .nil
        · obtain ⟨k, hk⟩ : ∃ k, min count 138 = 11 + k := ⟨min count 138 - 11, by omega⟩
          have hrest := spells_zeroRun turns (count - (11 + k)) (List.replicate (11 + k) 0 ++ before) (by omega)
          simp only [hk, Nat.add_sub_cancel_left]
          refine .cons (.moreZeros (by omega)) ?_
          rwa [← List.append_assoc, List.replicate_append_replicate, Nat.sub_add_cancel (by omega)] at hrest

theorem spells_sameRun {length : Nat} (hlength : length < 16) : ∀ (turns count n : Nat) (before : List Nat),
    count ≤ turns → Spells (List.replicate (n + 1) length ++ before) (sameRun length turns count)
      (List.replicate (count + (n + 1)) length ++ before)
  | 0, count, n, before, h => by
    obtain rfl : count = 0 := by omega
    simpa [sameRun] using Spells.nil
  | turns + 1, count, n, before, h => by
    rw [sameRun]
    split
    · rename_i hzero
      subst hzero
      simpa using Spells.nil
    · split
      · obtain ⟨count, rfl⟩ : ∃ less, count = less + 1 := ⟨count - 1, by omega⟩
        have hrest := spells_sameRun hlength turns count (n + 1) before (by omega)
        refine .cons (.length hlength) ?_
        rwa [show count + (n + 1 + 1) = count + 1 + (n + 1) by omega, List.replicate_succ] at hrest
      · obtain ⟨k, hk⟩ : ∃ k, min count 6 = 3 + k := ⟨min count 6 - 3, by omega⟩
        have hrest := spells_sameRun hlength turns (count - (3 + k)) (n + (3 + k)) before (by omega)
        simp only [hk, Nat.add_sub_cancel_left]
        rw [List.replicate_succ, List.cons_append]
        refine .cons (.same (by omega)) ?_
        rw [← List.cons_append, ← List.replicate_succ, ← List.append_assoc, List.replicate_append_replicate]
        rwa [show count - (3 + k) + (n + (3 + k) + 1) = count + (n + 1) by omega,
          show n + (3 + k) + 1 = 3 + k + (n + 1) by omega] at hrest

/-- The symbols that are written for lengths spell them. -/
theorem spells_lengthSymbols : ∀ (turns : Nat) (lengths before : List Nat), lengths.length ≤ turns →
    (∀ length ∈ lengths, length < 16) → Spells before (lengthSymbols turns lengths) (lengths.reverse ++ before)
  | 0, lengths, before, h, _ => by
    obtain rfl : lengths = [] := List.length_eq_zero_iff.1 (by omega)
    exact .nil
  | _ + 1, [], _, _, _ => .nil
  | turns + 1, length :: rest, before, h, hall => by
    obtain ⟨hlength, hrest⟩ := List.forall_mem_cons.1 hall
    obtain ⟨hrun, -⟩ := exists_run length rest
    rw [lengthSymbols]
    generalize (rest.takeWhile (· == length)).length = more at hrun ⊢
    generalize rest.drop more = following at hrun ⊢
    subst hrun
    have hfollowing := spells_lengthSymbols turns following (List.replicate (more + 1) length ++ before)
      (by simp at h; omega)
      fun other hmem => hrest other (List.mem_append_right _ hmem)
    have hall' : (length :: (List.replicate more length ++ following)).reverse ++ before
        = following.reverse ++ (List.replicate (more + 1) length ++ before) := by
      rw [← List.cons_append, ← List.replicate_succ]
      simp
    rw [hall']
    split
    · rename_i hzero
      subst hzero
      exact (spells_zeroRun _ _ _ (Nat.le_refl _)).append hfollowing
    · have hsame := spells_sameRun hlength more more 0 before (Nat.le_refl _)
      exact (Spells.cons (.length hlength) hsame).append hfollowing

/-! ## Reading stated lengths -/

/-- The bits of a symbol of the code for word lengths. -/
def LengthSymbol.bits (words : Array (List Bool)) (s : LengthSymbol) : List Bool :=
  words.getD s.symbol [] ++ numberBits s.offset s.extra

/-- Where lengths are missing, a symbol is read as what it adds. -/
theorem LengthSymbol.Adds.yields {before added lengths : List Nat} {s : LengthSymbol} (h : s.Adds before added)
    {code : Code} {words : Array (List Bool)} {total turns : Nat} {bits : List Bool} (hless : before.length < total)
    (hhas : code.Has words s.symbol)
    (hrest : Yields (statedLengths code total turns (added ++ before)) bits lengths) :
    Yields (statedLengths code total (turns + 1) before) (s.bits words ++ bits) lengths := by
  rw [statedLengths.eq_def]
  simp only
  rw [if_neg (Nat.ne_of_lt hless), if_neg (Nat.lt_asymm hless), LengthSymbol.bits, List.append_assoc]
  refine hhas.1.bind ?_
  cases h with
  | length hlt =>
    rw [if_pos hlt]
    exact hrest
  | same hk => exact (yields_number 2 hk).bind hrest
  | zeros hk => exact (yields_number 3 hk).bind hrest
  | moreZeros hk => exact (yields_number 7 hk).bind hrest

/-- Symbols are read as the lengths that they spell. -/
theorem yields_statedLengths {code : Code} {words : Array (List Bool)} {total : Nat} {symbols : List LengthSymbol}
    {before after : List Nat} (h : Spells before symbols after) (htotal : after.length = total)
    (hall : ∀ s ∈ symbols, code.Has words s.symbol) : ∀ turns : Nat, symbols.length < turns →
      Yields (statedLengths code total turns before) (symbols.flatMap (LengthSymbol.bits words)) after.reverse := by
  induction h with
  | nil =>
    intro turns hturns
    obtain ⟨turns, rfl⟩ := Nat.exists_eq_succ_of_ne_zero (Nat.ne_of_gt hturns)
    rw [statedLengths.eq_def]
    simp only
    rw [if_pos htotal]
    exact yields_done _
  | cons hadds hrest ih =>
    intro turns hturns
    obtain ⟨turns, rfl⟩ := Nat.exists_eq_succ_of_ne_zero (Nat.ne_of_gt (Nat.zero_lt_of_lt hturns))
    obtain ⟨hfirst, hothers⟩ := List.forall_mem_cons.1 hall
    have hle := hrest.length_le
    have hpos := hadds.length_pos
    rw [List.length_append] at hle
    rw [List.length_cons] at hturns
    exact hadds.yields (by omega) hfirst (ih htotal hothers turns (by omega))

/-! ## Two symbols -/

/-- The first symbols of lengths tell the first length, if not how often it is there. -/
theorem exists_first_symbol (turns length : Nat) (rest : List Nat) :
    ∃ s ∈ lengthSymbols (turns + 1) (length :: rest),
      (length = 0 ∧ (s.symbol = 0 ∨ s.symbol = 17 ∨ s.symbol = 18)) ∨ (length ≠ 0 ∧ s.symbol = length) := by
  rw [lengthSymbols]
  split
  · rename_i hzero
    generalize (rest.takeWhile (· == length)).length = more
    rw [zeroRun, if_neg (by omega)]
    split
    · exact ⟨⟨0, 0, 0⟩, by simp, .inl ⟨hzero, .inl rfl⟩⟩
    · split
      · exact ⟨⟨17, more + 1 - 3, 3⟩, by simp, .inl ⟨hzero, .inr (.inl rfl)⟩⟩
      · exact ⟨⟨18, min (more + 1) 138 - 11, 7⟩, by simp, .inl ⟨hzero, .inr (.inr rfl)⟩⟩
  · rename_i hne
    exact ⟨⟨length, 0, 0⟩, by simp, .inr ⟨hne, rfl⟩⟩

/-- A length that is not zero and is there four times or more in a row takes the symbol for that. -/
theorem exists_same_symbol (turns : Nat) {length more : Nat} {rest : List Nat} (hne : length ≠ 0)
    (hmore : (rest.takeWhile (· == length)).length = more) (hmany : 3 ≤ more) :
    ∃ s ∈ lengthSymbols (turns + 1) (length :: rest), s.symbol = 16 := by
  rw [lengthSymbols, hmore]
  obtain ⟨count, rfl⟩ := Nat.exists_eq_add_of_le' (Nat.le_trans (by decide : 1 ≤ 3) hmany)
  refine ⟨⟨16, min (count + 1) 6 - 3, 2⟩, ?_, rfl⟩
  rw [if_neg hne, sameRun, if_neg (by omega), if_neg (by omega)]
  simp

/-- The symbols of what follows a run are there. -/
theorem mem_lengthSymbols_of_following {turns length more : Nat} {rest : List Nat} {s : LengthSymbol}
    (hmore : (rest.takeWhile (· == length)).length = more) (h : s ∈ lengthSymbols turns (rest.drop more)) :
    s ∈ lengthSymbols (turns + 1) (length :: rest) := by
  rw [lengthSymbols, hmore]
  split <;> simp [h]

/-- Lengths that are not all zero, and not few, need two symbols at least. -/
theorem exists_ne_symbols {turns : Nat} {lengths : List Nat} (hturns : lengths.length ≤ turns)
    (hmany : 5 ≤ lengths.length) (hall : ∀ length ∈ lengths, length < 16) (hsome : ∃ length ∈ lengths, length ≠ 0) :
    ∃ s ∈ lengthSymbols turns lengths, ∃ t ∈ lengthSymbols turns lengths, s.symbol ≠ t.symbol := by
  obtain ⟨turns, rfl⟩ : ∃ less, turns = less + 2 := ⟨turns - 2, by omega⟩
  match lengths, hmany with
  | length :: rest, hmany =>
    obtain ⟨hlength, hrest⟩ := List.forall_mem_cons.1 hall
    obtain ⟨s, hs, hfirst⟩ := exists_first_symbol (turns + 1) length rest
    obtain ⟨hrun, hnext⟩ := exists_run length rest
    refine ⟨s, hs, ?_⟩
    match hfollowing : rest.drop (rest.takeWhile (· == length)).length, hnext with
    | [], _ =>
      -- There is one run only, which is not of zeros.
      rw [hfollowing, List.append_nil] at hrun
      have hne : length ≠ 0 := by
        obtain ⟨other, hmem, hother⟩ := hsome
        rw [hrun] at hmem
        rintro rfl
        simp at hmem
        exact hother (by omega)
      have hcount : rest.length = (rest.takeWhile (· == length)).length := by
        conv_lhs => rw [hrun]
        simp
      obtain ⟨t, ht, hsame⟩ := exists_same_symbol (turns + 1) hne hcount.symm
        (by rw [List.length_cons] at hmany; omega)
      exact ⟨t, ht, by omega⟩
    | next :: following, hnext =>
      have hother : next ≠ length := hnext next (by simp)
      obtain ⟨t, ht, hsecond⟩ := exists_first_symbol turns next following
      rw [← hfollowing] at ht
      have hlt : next < 16 := hrest next (List.mem_of_mem_drop (by rw [hfollowing]; exact List.mem_cons_self))
      exact ⟨t, mem_lengthSymbols_of_following rfl ht, by omega⟩

end DeviceLog.Deflate
