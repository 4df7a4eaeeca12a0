import DeviceLog.Deflate.Compress

/-! # Payloads do not grow much

A payload takes space in proportion to the bytes that it was made of, at every level.

* `Packer.count`: the bits that have been written. `count_append` says that bits are written as they are,
  and `count_align` and `count_appendBytes` that whole bytes waste less than one.
* `Code.length_getD_words`: no word of a code is longer than fifteen bits.
* `Packer.count_batch`: a batch takes so many bits for each of its tokens and so many for its codes.
* `batches_bounds`: there are hardly more tokens and batches than bytes.
* `length_compress_le` puts these together.
-/

namespace DeviceLog.Deflate

/-! ## Bits written -/

namespace Packer

variable {p : Packer}

/-- The bits that have been written. -/
def count (p : Packer) : Nat := 8 * p.bytes.size + p.pending.length

theorem count_push (p : Packer) (b : Bool) : (p.push b).count = p.count + 1 := by
  unfold push count
  split
  · rename_i h
    simp only [h, Array.size_push, List.length_cons, List.length_nil]
    omega
  · simp only [List.length_cons]
    omega

theorem count_append (bits : List Bool) : ∀ p : Packer, (p.append bits).count = p.count + bits.length := by
  induction bits with
  | nil => intro p; rfl
  | cons b bits ih =>
    intro p
    have hrest := ih (p.push b)
    simp only [append, List.foldl_cons, List.length_cons] at hrest ⊢
    rw [hrest, count_push]
    omega

/-- The byte that is begun is filled up with seven bits at most. -/
theorem count_align (p : Packer) : p.align.count = 8 * p.align.bytes.size ∧ p.align.count ≤ p.count + 7 := by
  unfold align count
  split
  · rename_i h
    simp only [h, List.length_nil]
    omega
  · rename_i h
    have hpos := List.length_pos_iff.2 h
    simp only [Array.size_push, List.length_nil]
    omega

theorem size_foldl_push (bytes : Bytes) : ∀ out : Array UInt8,
    (bytes.foldl Array.push out).size = out.size + bytes.length := by
  induction bytes with
  | nil => intro out; rfl
  | cons b bytes ih =>
    intro out
    rw [List.foldl_cons, ih, Array.size_push, List.length_cons]
    omega

theorem count_appendBytes (p : Packer) (bytes : Bytes) :
    (p.appendBytes bytes).count ≤ p.count + 7 + 8 * bytes.length := by
  obtain ⟨hwhole, hle⟩ := p.count_align
  simp only [appendBytes, count, List.length_nil, size_foldl_push] at hwhole hle ⊢
  omega

theorem length_finish (p : Packer) : 8 * p.finish.length ≤ p.count + 7 := by
  obtain ⟨hwhole, hle⟩ := p.count_align
  simp only [finish, Array.length_toList]
  omega

/-- What is written piece by piece takes no more than its pieces. -/
theorem count_foldl {α : Type} (write : Packer → α → Packer) (most : Nat) {pieces : List α}
    (h : ∀ piece ∈ pieces, ∀ p : Packer, (write p piece).count ≤ p.count + most) :
    ∀ p : Packer, (pieces.foldl write p).count ≤ p.count + most * pieces.length := by
  induction pieces with
  | nil => intro p; exact Nat.le_refl _
  | cons piece pieces ih =>
    intro p
    obtain ⟨hfirst, hrest⟩ := List.forall_mem_cons.1 h
    have hpiece := hfirst p
    have hpieces := ih hrest (write p piece)
    rw [List.foldl_cons, List.length_cons, Nat.mul_add]
    omega

end Packer

theorem length_numberBits (width : Nat) : ∀ n, (numberBits n width).length = width := by
  induction width with
  | zero => intro n; rfl
  | succ width ih => intro n; rw [numberBits, List.length_cons, ih]

/-! ## Words of a code -/

namespace Code

/-- The length of the longest word. -/
def depth : Code → Nat
  | absent => 0
  | symbol _ => 0
  | fork zero one => max zero.depth one.depth + 1

theorem depth_of_mem_pairUp {most : Nat} : ∀ {trees : List Code}, (∀ tree ∈ trees, tree.depth ≤ most) →
    ∀ tree ∈ pairUp trees, tree.depth ≤ most + 1
  | [], _, tree, hmem => by simp [pairUp] at hmem
  | [zero], h, tree, hmem => by
    have hzero := h zero List.mem_cons_self
    rw [pairUp, List.mem_singleton] at hmem
    subst hmem
    simp only [depth]
    omega
  | zero :: one :: rest, h, tree, hmem => by
    rw [pairUp, List.mem_cons] at hmem
    rcases hmem with rfl | hmem
    · have hzero := h zero List.mem_cons_self
      have hone := h one (List.mem_cons_of_mem _ List.mem_cons_self)
      simp only [depth]
      omega
    · exact depth_of_mem_pairUp (fun t ht => h t (List.mem_cons_of_mem _ (List.mem_cons_of_mem _ ht)))
        tree hmem

theorem depth_of_mem_symbolsOfLength {lengths : List Nat} {length : Nat} {tree : Code}
    (h : tree ∈ symbolsOfLength lengths length) : tree.depth = 0 := by
  obtain ⟨entry, -, rfl⟩ := List.mem_map.1 h
  rfl

theorem depth_of_mem_subtrees (lengths : List Nat) (more : Nat) : ∀ {length : Nat},
    ∀ tree ∈ subtrees lengths length more, tree.depth ≤ more := by
  induction more with
  | zero =>
    intro length tree hmem
    exact Nat.le_of_eq (depth_of_mem_symbolsOfLength hmem)
  | succ more ih =>
    intro length tree hmem
    rw [subtrees, List.mem_append] at hmem
    rcases hmem with hmem | hmem
    · rw [depth_of_mem_symbolsOfLength hmem]
      exact Nat.zero_le _
    · exact depth_of_mem_pairUp ih tree hmem

theorem depth_ofLengths (lengths : List Nat) : (ofLengths lengths).depth ≤ maxLength := by
  unfold ofLengths
  split
  · rename_i tree rest heq
    exact depth_of_mem_pairUp (depth_of_mem_subtrees lengths (maxLength - 1)) tree
      (by rw [heq]; exact List.mem_cons_self)
  · decide

theorem length_of_mem_wordsFrom : ∀ {code : Code} {reached : List Bool} {entry : Nat × List Bool},
    entry ∈ code.wordsFrom reached → entry.2.length ≤ reached.length + code.depth
  | absent, reached, entry, h => by simp [wordsFrom] at h
  | symbol value, reached, entry, h => by
    rw [wordsFrom, List.mem_singleton] at h
    subst h
    simp [depth]
  | fork zero one, reached, entry, h => by
    rw [wordsFrom, List.mem_append] at h
    simp only [depth]
    rcases h with h | h
    · have hle := length_of_mem_wordsFrom h
      rw [List.length_cons] at hle
      omega
    · have hle := length_of_mem_wordsFrom h
      rw [List.length_cons] at hle
      omega

/-- A table in which words are entered has no longer words than it had or gets. -/
theorem length_foldl_setIfInBounds {most : Nat} {entries : List (Nat × List Bool)}
    (h : ∀ entry ∈ entries, entry.2.length ≤ most) : ∀ {table : Array (List Bool)},
    (∀ word ∈ table, word.length ≤ most) →
      ∀ word ∈ entries.foldl (fun table entry => table.setIfInBounds entry.1 entry.2) table,
        word.length ≤ most := by
  induction entries with
  | nil => intro table htable; exact htable
  | cons entry entries ih =>
    intro table htable
    obtain ⟨hfirst, hrest⟩ := List.forall_mem_cons.1 h
    rw [List.foldl_cons]
    refine ih hrest fun word hword => ?_
    rcases Array.mem_or_eq_of_mem_setIfInBounds hword with hold | rfl
    · exact htable word hold
    · exact hfirst

theorem length_getD_words (lengths : List Nat) (bound symbol : Nat) :
    (((ofLengths lengths).words bound).getD symbol []).length ≤ maxLength := by
  have hall : ∀ word ∈ (ofLengths lengths).words bound, word.length ≤ maxLength := by
    refine length_foldl_setIfInBounds (fun entry hentry => ?_) fun word hword => ?_
    · exact Nat.le_trans (length_of_mem_wordsFrom hentry)
        (by rw [List.length_nil, Nat.zero_add]; exact depth_ofLengths lengths)
    · rw [(Array.mem_replicate.1 hword).2]
      exact Nat.zero_le _
  rw [Array.getD_eq_getD_getElem?]
  cases hword : ((ofLengths lengths).words bound)[symbol]? with
  | none => exact Nat.zero_le _
  | some word => exact hall word (Array.mem_of_getElem? hword)

end Code

/-! ## One block -/

theorem length_trimZeros_le (atLeast : Nat) (lengths : List Nat) :
    (trimZeros atLeast lengths).length ≤ lengths.length := List.length_take_le' _ _

theorem WordLengths.length_ofCounts (longest : Nat) (counts : List Nat) :
    (WordLengths.ofCounts longest counts).length = counts.length := by
  have hsize : ∀ (entries : List ((Nat × Nat) × Nat)) (table : Array Nat),
      (entries.foldl (fun table entry => table.setIfInBounds entry.1.2 entry.2) table).size = table.size := by
    intro entries
    induction entries with
    | nil => intro table; rfl
    | cons entry entries ih => intro table; rw [List.foldl_cons, ih, Array.size_setIfInBounds]
  simp only [WordLengths.ofCounts, Array.length_toList, hsize, Array.size_replicate]

theorem size_tokenCounts (ts : Array Token) :
    (tokenCounts ts).1.size = maxLiterals ∧ (tokenCounts ts).2.size = maxDistances := by
  unfold tokenCounts
  refine Array.foldl_induction
    (fun _ (counts : Array Nat × Array Nat) => counts.1.size = maxLiterals ∧ counts.2.size = maxDistances)
    ⟨?_, ?_⟩ ?_
  · simp only [countOne, Array.size_modify, Array.size_replicate]
  · exact Array.size_replicate
  · rintro i counts ⟨hliterals, hdistances⟩
    split
    · exact ⟨by simpa only [countOne, Array.size_modify] using hliterals, hdistances⟩
    · exact ⟨by simpa only [countOne, Array.size_modify] using hliterals,
        by simpa only [countOne, Array.size_modify] using hdistances⟩

/-- A symbol has at most seven bits after it. -/
theorem zeroRun_bounds : ∀ turns count : Nat,
    (zeroRun turns count).length ≤ turns ∧ ∀ s ∈ zeroRun turns count, s.extra ≤ 7
  | 0, count => by simp [zeroRun]
  | turns + 1, count => by
    rw [zeroRun]
    split
    · simp
    split
    · have ih := zeroRun_bounds turns (count - 1)
      simpa using ih
    split
    · simp
    · have ih := zeroRun_bounds turns (count - min count 138)
      simpa using ih

theorem sameRun_bounds (length : Nat) : ∀ turns count : Nat,
    (sameRun length turns count).length ≤ turns ∧ ∀ s ∈ sameRun length turns count, s.extra ≤ 7
  | 0, count => by simp [sameRun]
  | turns + 1, count => by
    rw [sameRun]
    split
    · simp
    split
    · have ih := sameRun_bounds length turns (count - 1)
      simpa using ih
    · have ih := sameRun_bounds length turns (count - min count 6)
      simpa using ih

theorem lengthSymbols_bounds : ∀ (turns : Nat) (lengths : List Nat),
    (lengthSymbols turns lengths).length ≤ lengths.length ∧ ∀ s ∈ lengthSymbols turns lengths, s.extra ≤ 7
  | 0, lengths => by simp [lengthSymbols]
  | turns + 1, [] => by simp [lengthSymbols]
  | turns + 1, length :: rest => by
    have hmore : (rest.takeWhile (· == length)).length ≤ rest.length :=
      (List.takeWhile_prefix _).length_le
    obtain ⟨hrest, hextra⟩ :=
      lengthSymbols_bounds turns (rest.drop (rest.takeWhile (· == length)).length)
    rw [List.length_drop] at hrest
    simp only [lengthSymbols]
    split
    · obtain ⟨hrun, hextra'⟩ := zeroRun_bounds ((rest.takeWhile (· == length)).length + 1)
        ((rest.takeWhile (· == length)).length + 1)
      refine ⟨?_, fun s hs => (List.mem_append.1 hs).elim (hextra' s) (hextra s)⟩
      simp only [List.length_append, List.length_cons]
      omega
    · obtain ⟨hrun, hextra'⟩ := sameRun_bounds length (rest.takeWhile (· == length)).length
        (rest.takeWhile (· == length)).length
      refine ⟨?_, fun s hs => ?_⟩
      · simp only [List.length_append, List.length_cons]
        omega
      · rw [List.cons_append, List.mem_cons, List.mem_append] at hs
        rcases hs with rfl | hs | hs
        · exact Nat.zero_le _
        · exact hextra' s hs
        · exact hextra s hs

/-- Codes whose words are not long. -/
def Words.Short (words : Words) : Prop :=
  (∀ symbol, (words.literals.getD symbol []).length ≤ Code.maxLength)
    ∧ ∀ symbol, (words.distances.getD symbol []).length ≤ Code.maxLength

theorem Words.short_ofLengths (literals distances : List Nat) :
    (Codes.mk (.ofLengths literals) (.ofLengths distances)).words.Short :=
  ⟨Code.length_getD_words literals 288, Code.length_getD_words distances 32⟩

namespace Packer

/-- The bits that a token takes at most: two words, and what comes after them. -/
def mostOfToken : Nat := 56

theorem count_member (p : Packer) (classes : Array Class) {words : Array (List Bool)} (first n : Nat)
    (hclasses : ∀ c ∈ classes, c.extra ≤ 13) (hwords : ∀ symbol, (words.getD symbol []).length ≤ Code.maxLength) :
    (p.member classes words first n).count ≤ p.count + 28 := by
  have hword := hwords (first + classOf classes n)
  have hextra : (classes.getD (classOf classes n) ⟨n, 0⟩).extra ≤ 13 := by
    rw [Array.getD_eq_getD_getElem?]
    cases hclass : classes[classOf classes n]? with
    | none => exact Nat.zero_le _
    | some c => exact hclasses c (Array.mem_of_getElem? hclass)
  simp only [member, count_append, length_numberBits]
  rw [show Code.maxLength = 15 from rfl] at hword
  omega

theorem count_token {words : Words} (hshort : words.Short) (p : Packer) (t : Token) :
    (Packer.token words p t).count ≤ p.count + mostOfToken := by
  simp only [mostOfToken]
  cases t with
  | literal b =>
    have hword := hshort.1 b.toNat
    rw [show Code.maxLength = 15 from rfl] at hword
    simp only [token, count_append]
    omega
  | copy length distance =>
    have hlength := p.count_member lengthClasses 257 length (by decide) hshort.1
    have hdistance := (p.member lengthClasses words.literals 257 length).count_member distanceClasses 0 distance
      (by decide) hshort.2
    simp only [token]
    omega

theorem count_tokens {words : Words} (hshort : words.Short) (p : Packer) (ts : Array Token) :
    (p.tokens words ts).count ≤ p.count + mostOfToken * ts.size + 15 := by
  have hend := hshort.1 endOfBlock
  rw [show Code.maxLength = 15 from rfl] at hend
  have htokens : (ts.toList.foldl (Packer.token words) p).count ≤ p.count + mostOfToken * ts.toList.length :=
    count_foldl (Packer.token words) mostOfToken (fun t _ p => count_token hshort p t) p
  rw [Array.foldl_toList, Array.length_toList] at htokens
  simp only [tokens, count_append]
  omega

/-- The bits that a block takes at most besides those of its tokens. -/
def mostOfCodes : Nat := 7200

theorem count_fixed (p : Packer) (ts : Array Token) :
    (p.fixed ts).count ≤ p.count + mostOfToken * ts.size + mostOfCodes := by
  have htokens := (p.append [true, false]).count_tokens
    (Words.short_ofLengths fixedLiteralLengths fixedDistanceLengths) ts
  rw [count_append] at htokens
  simp only [fixed, mostOfCodes, List.length_cons, List.length_nil] at htokens ⊢
  exact Nat.le_trans htokens (by omega)

/-- The word lengths of a block's codes take three bits each where they are written as numbers, and a word
with at most seven bits after it where they are written in a code. -/
theorem count_lengths (p : Packer) (written lengths : List Nat) {symbols : List LengthSymbol}
    (hextra : ∀ s ∈ symbols, s.extra ≤ 7) :
    (symbols.foldl
        (fun p s => (p.append (((Code.ofLengths lengths).words 19).getD s.symbol [])).append
          (numberBits s.offset s.extra))
        (written.foldl (fun p length => p.append (numberBits length 3)) p)).count
      ≤ p.count + 3 * written.length + 22 * symbols.length := by
  have hwritten : (written.foldl (fun p length => p.append (numberBits length 3)) p).count
      ≤ p.count + 3 * written.length :=
    count_foldl (fun p length => p.append (numberBits length 3)) 3
      (fun length _ p => Nat.le_of_eq (by rw [count_append, length_numberBits])) p
  refine Nat.le_trans (count_foldl _ 22 (fun s hs p => ?_) _) (Nat.add_le_add_right hwritten _)
  have hword := Code.length_getD_words lengths 19 s.symbol
  have hoffset := hextra s hs
  rw [show Code.maxLength = 15 from rfl] at hword
  rw [count_append, count_append, length_numberBits]
  omega

theorem count_made (p : Packer) (ts : Array Token) :
    (p.made ts).count ≤ p.count + mostOfToken * ts.size + mostOfCodes := by
  obtain ⟨hliterals, hdistances⟩ := size_tokenCounts ts
  simp only [made]
  generalize hl : trimZeros 257 (WordLengths.ofCounts 15 (tokenCounts ts).1.toList) = literals
  generalize hd : trimZeros 1 (WordLengths.ofCounts 15 (tokenCounts ts).2.toList) = distances
  have hsymbols := lengthSymbols_bounds (literals ++ distances).length (literals ++ distances)
  generalize lengthSymbols (literals ++ distances).length (literals ++ distances) = symbols at hsymbols ⊢
  generalize WordLengths.ofCounts 7 _ = lengths
  generalize hw : trimZeros 4 (statedOrder.map fun symbol => lengths.getD symbol 0) = written
  have hall : literals.length ≤ 286 ∧ distances.length ≤ 30 ∧ written.length ≤ 19 := by
    subst hl hd hw
    refine ⟨Nat.le_trans (length_trimZeros_le _ _) ?_, Nat.le_trans (length_trimZeros_le _ _) ?_,
      Nat.le_trans (length_trimZeros_le _ _) ?_⟩
    · rw [WordLengths.length_ofCounts, Array.length_toList, hliterals]
      exact Nat.le_refl _
    · rw [WordLengths.length_ofCounts, Array.length_toList, hdistances]
      exact Nat.le_refl _
    · rw [List.length_map]
      exact Nat.le_refl _
  refine Nat.le_trans (count_tokens (Words.short_ofLengths literals distances) _ ts) ?_
  have hlengths := count_lengths ((((p.append [false, true]).append
    (numberBits (literals.length - 257) 5)).append (numberBits (distances.length - 1) 5)).append
      (numberBits (written.length - 4) 4)) written lengths hsymbols.2
  have hstated := hsymbols.1
  simp only [count_append, length_numberBits, List.length_cons, List.length_nil, List.length_append]
    at hlengths hstated
  simp only [mostOfCodes]
  omega

end Packer

/-! ## All blocks -/

namespace Packer

/-- The bits that a batch takes at most besides those of its tokens and of its bytes. -/
def mostOfBatch : Nat := 7300

/-- A batch takes no more than its tokens and codes, or the bytes that it stands for. -/
theorem count_batch (p : Packer) (last : Bool) (batch : Batch) (bytes : Bytes) :
    (p.batch last batch bytes).count
      ≤ p.count + mostOfBatch + mostOfToken * batch.tokens.size + 8 * bytes.length := by
  have hlast : (p.append [last]).count = p.count + 1 := count_append [last] p
  simp only [Packer.batch]
  generalize p.append [last] = q at hlast ⊢
  have hcodes : mostOfCodes + 100 = mostOfBatch := rfl
  have hcoded : (if batch.covered < worthStating then q.fixed batch.tokens else q.made batch.tokens).count
      ≤ q.count + mostOfToken * batch.tokens.size + mostOfCodes := by
    split
    · exact q.count_fixed batch.tokens
    · exact q.count_made batch.tokens
  generalize (if batch.covered < worthStating then q.fixed batch.tokens else q.made batch.tokens) = coded
    at hcoded ⊢
  split
  · have hstored := (q.append [false, false]).count_appendBytes (storedHead batch.covered ++ bytes)
    have hhead : (storedHead batch.covered).length = 4 := rfl
    simp only [count_append, List.length_append, List.length_cons, List.length_nil, hhead] at hstored
    omega
  · omega

/-- The tokens of batches one after another. -/
def tokensOf (batches : List Batch) : List Token := batches.flatMap fun batch => batch.tokens.toList

/-- Batches take what each of them takes. -/
theorem count_batches (last : Batch) : ∀ (done : List Batch) (p : Packer) (bytes : Bytes),
    (p.batches last done bytes).count ≤ p.count + mostOfBatch * (done.length + 1)
      + mostOfToken * ((tokensOf done).length + last.tokens.size) + 8 * bytes.length
  | [], p, bytes => by
    have hbatch := p.count_batch true last bytes
    simp only [batches, tokensOf, List.flatMap_nil, List.length_nil, Nat.zero_add]
    omega
  | batch :: done, p, bytes => by
    have hbatch := p.count_batch false batch (bytes.take batch.covered)
    have ih := count_batches last done (p.batch false batch (bytes.take batch.covered))
      (bytes.drop batch.covered)
    have hbytes : (bytes.take batch.covered).length + (bytes.drop batch.covered).length = bytes.length := by
      rw [← List.length_append, List.take_append_drop]
    simp only [batches, tokensOf, List.splitAt_eq, List.length_cons, List.flatMap_cons, List.length_append,
      Array.length_toList]
    simp only [tokensOf, Nat.mul_add] at ih ⊢
    omega

end Packer

/-! ## Tokens and batches -/

namespace Repeats

/-- Every turn passes a byte and gives one token at most. -/
theorem size_quickFrom (data : Array UInt8) : ∀ (turns i : Nat) (latest : Array Nat) (out : Array Token),
    (quickFrom data turns i latest out).size ≤ out.size + turns
  | 0, i, latest, out => Nat.le_refl _
  | turns + 1, i, latest, out => by
    have ih := size_quickFrom data turns
    have hpush : ∀ token, (out.push token).size = out.size + 1 := fun token => Array.size_push token
    rw [quickFrom]
    split
    · exact Nat.le_add_right _ _
    · simp only
      split
      · exact Nat.le_trans (ih _ _ _) (by rw [hpush]; omega)
      · -- Whatever is found, it adds one token.
        repeat' split
        all_goals exact Nat.le_trans (ih _ _ _) (by rw [hpush]; omega)

/-- Every turn gives two tokens at most: a literal that was held back, and a copy. -/
theorem size_searchedFrom (data : Array UInt8) (earlier : Array Nat) (level : Nat) (patient : Bool) :
    ∀ (turns i : Nat) (pending : Option Pending) (out : Array Token),
      (searchedFrom data earlier level patient turns i pending out).size ≤ out.size + 2 * turns
  | 0, i, pending, out => Nat.le_refl _
  | turns + 1, i, pending, out => by
    have ih := size_searchedFrom data earlier level patient turns
    rw [searchedFrom]
    split
    · exact Nat.le_add_right _ _
    · simp only
      split
      · split
        · split
          · exact Nat.le_trans (ih _ _ _) (by simp only [Array.size_push]; omega)
          · exact Nat.le_trans (ih _ _ _) (by simp only [Array.size_push]; omega)
        · exact Nat.le_trans (ih _ _ _) (by simp only [Array.size_push]; omega)
      · split
        · exact Nat.le_trans (ih _ _ _) (by simp only [Array.size_push]; omega)
        · split
          · exact Nat.le_trans (ih _ _ _) (by simp only [Array.size_push]; omega)
          · exact Nat.le_trans (ih _ _ _) (by omega)

theorem size_tokens (level : Nat) (data : Array UInt8) : (tokens level data).size ≤ 2 * data.size := by
  unfold tokens
  split
  · have hsize := size_quickFrom data data.size 0 (Array.replicate chunk 0) #[]
    simp only [List.size_toArray, List.length_nil] at hsize
    simp only [quickTokens]
    omega
  · have hsize := size_searchedFrom data (earlierPlaces data) level (3 < level) data.size 0 none #[]
    simp only [List.size_toArray, List.length_nil] at hsize
    simp only [searchedTokens]
    omega

end Repeats

def Batches.size (batches : Batches) : Nat :=
  (Packer.tokensOf batches.done.toList).length + batches.current.tokens.size

theorem Batch.size_add (batch : Batch) (token : Token) : (batch.add token).tokens.size = batch.tokens.size + 1 := by
  cases token <;> exact Array.size_push _

/-- A token is added to the batch that is being filled, which may be full then. -/
theorem Batches.add_bounds (quick : Bool) (batches : Batches) (token : Token) :
    (batches.add quick token).size = batches.size + 1
      ∧ (batches.add quick token).done.size ≤ batches.done.size + 1 := by
  have hcurrent := batches.current.size_add token
  simp only [add]
  split
  · simp only [size, Packer.tokensOf, Array.toList_push, List.flatMap_append, List.flatMap_cons, List.flatMap_nil,
      List.append_nil, List.length_append, Array.length_toList, Array.size_push, hcurrent]
    exact ⟨rfl, Nat.le_refl _⟩
  · simp only [size, hcurrent]
    exact ⟨rfl, Nat.le_succ _⟩

theorem batches_bounds (level : Nat) (data : Array UInt8) :
    (batches level data).size ≤ 2 * data.size ∧ (batches level data).done.size ≤ 2 * data.size := by
  have htokens := Repeats.size_tokens level data
  have hadded : (batches level data).size ≤ (Repeats.tokens level data).size
      ∧ (batches level data).done.size ≤ (Repeats.tokens level data).size := by
    unfold batches
    refine Array.foldl_induction
      (fun count (batches : Batches) => batches.size ≤ count ∧ batches.done.size ≤ count) ?_ ?_
    · exact ⟨Nat.le_refl _, Nat.le_refl _⟩
    · rintro i batches ⟨hsize, hdone⟩
      obtain ⟨hsize', hdone'⟩ := batches.add_bounds (Repeats.isQuick level) (Repeats.tokens level data)[i]
      omega
  omega

/-! ## Payloads -/

theorem length_storedBlocks_le (bytes : Bytes) : (storedBlocks bytes).length ≤ 6 * bytes.length + 5 := by
  induction bytes using storedBlocks.induct with
  | case1 bytes h =>
    rw [storedBlocks, if_pos h]
    simp only [stored, storedHead, List.length_append, List.length_cons, List.length_nil]
    omega
  | case2 bytes h ih =>
    rw [storedBlocks, if_neg h]
    simp only [stored, storedHead, List.length_append, List.length_cons, List.length_nil, List.length_take,
      List.length_drop, maxStored] at ih h ⊢
    omega

theorem length_inBatches_le (level : Nat) (bytes : Bytes) :
    (inBatches level bytes).length ≤ 2000 * bytes.length + 1000 := by
  obtain ⟨htokens, hdone⟩ := batches_bounds level bytes.toArray
  rw [show bytes.toArray.size = bytes.length from List.size_toArray] at htokens hdone
  simp only [inBatches]
  generalize batches level bytes.toArray = made at htokens hdone ⊢
  have hcount := Packer.count_batches made.current made.done.toList {} bytes
  have hfinish := (({} : Packer).batches made.current made.done.toList bytes).length_finish
  have hempty : ({} : Packer).count = 0 := rfl
  have hsize : (Packer.tokensOf made.done.toList).length + made.current.tokens.size = made.size := rfl
  rw [hempty, hsize, Array.length_toList] at hcount
  simp only [Packer.mostOfBatch, Packer.mostOfToken] at hcount
  omega

/-- A payload is no more than two thousand times as long as the bytes that it was made of. -/
theorem length_compress_le (level : Nat) (bytes : Bytes) :
    (compress level bytes).length ≤ 2000 * bytes.length + 1000 := by
  have hstored := length_storedBlocks_le bytes
  have hbatches := length_inBatches_le level bytes
  unfold compress
  split
  · omega
  · exact hbatches

end DeviceLog.Deflate
