import DeviceLog.Proofs.Deflate.LengthSymbols
import DeviceLog.Proofs.Deflate.Size
import DeviceLog.Proofs.Deflate.WordLengths
import Mathlib.Data.List.TakeWhile

/-! # Codes are read as a block states them

A block that has codes of its own states their word lengths, as symbols of a further code. That code has its
word lengths stated as numbers.

* `Statable lengths`: the lengths are those of a code that a block may state. `statable_lengthsFor`: what is
  made of the counts of symbols is such a code, and has a word for every symbol that occurs.
* `symbolLengths_spec`: the further code is complete, as it must be. `writtenLengths_spec`: its lengths are put
  back in order when they are read.
* `yields_statedCodes`: codes are read as they are stated. `madeCodes_spec` says so of those that are made for
  tokens, and that they have words for the tokens.
-/

namespace DeviceLog.Deflate

/-! ## Lengths that may be stated -/

/-- Words that leave nothing unused have room beside each other. -/
theorem Code.Fits.of_complete {lengths : List Nat} (hshort : ∀ length ∈ lengths, length ≤ Code.maxLength)
    (h : Code.complete lengths = true) : Code.Fits lengths := by
  have hweight := eq_of_beq h
  rw [Nat.one_shiftLeft] at hweight
  exact ⟨hshort, Nat.le_of_eq hweight⟩

/-- Whether lengths are those of a code that a block may state: no word is too long, and the words leave
nothing unused, or there is one of one bit, or none. -/
structure Statable (lengths : List Nat) : Prop where
  short : ∀ length ∈ lengths, length ≤ Code.maxLength
  whole : lengths.filter (· != 0) = [] ∨ lengths.filter (· != 0) = [1]
    ∨ span Code.maxLength (lengths.filter (· != 0)) = 2 ^ Code.maxLength

namespace Statable

variable {lengths : List Nat}

theorem fits (h : Statable lengths) : Code.Fits lengths where
  short := h.short
  room := by
    rw [Code.weight_eq_span]
    rcases h.whole with hused | hused | hused
    · simp [hused]
    · simp [hused, Code.maxLength]
    · exact Nat.le_of_eq hused

theorem yields_statedCode (h : Statable lengths) : Yields (statedCode lengths) [] (.ofLengths lengths) := by
  have hallowed : Code.complete lengths ∨ Code.occurring lengths = 0 ∨ Code.isSingleBit lengths := by
    rcases h.whole with hused | hused | hused
    · exact .inr (.inl (by simp [Code.occurring, hused]))
    · exact .inr (.inr (by simp [Code.isSingleBit, hused]))
    · exact .inl (by simp [Code.complete, Code.weight_eq_span, hused, Nat.one_shiftLeft])
  rw [statedCode, if_pos hallowed]
  exact yields_done _

end Statable

/-! ## Zeros at the end -/

section Trimming

variable (atLeast : Nat) (lengths : List Nat)

/-- What is left out at the end is zeros. -/
theorem exists_trimZeros : ∃ count, lengths = trimZeros atLeast lengths ++ List.replicate count 0 := by
  have hreverse : lengths = (lengths.reverse.dropWhile (· == 0)).reverse
      ++ (lengths.reverse.takeWhile (· == 0)).reverse := by
    rw [← List.reverse_append, List.takeWhile_append_dropWhile, List.reverse_reverse]
  have hzeros : ∀ length ∈ lengths.drop (lengths.reverse.dropWhile (· == 0)).length, length = 0 := by
    intro length hmem
    rw [← @List.length_reverse Nat (lengths.reverse.dropWhile (· == 0))] at hmem
    conv at hmem => rw [hreverse]
    simp only [List.reverse_append, List.reverse_reverse, List.takeWhile_append_dropWhile, List.drop_left,
      List.mem_reverse] at hmem
    simpa using List.mem_takeWhile_imp hmem
  refine ⟨(lengths.drop (max atLeast (lengths.reverse.dropWhile (· == 0)).length)).length, ?_⟩
  rw [← List.eq_replicate_of_mem fun length hmem => ?_]
  · exact (List.take_append_drop _ lengths).symm
  · exact hzeros length ((List.drop_sublist_drop_left lengths (Nat.le_max_right _ _)).subset hmem)

theorem getD_trimZeros (i : Nat) : (trimZeros atLeast lengths).getD i 0 = lengths.getD i 0 := by
  obtain ⟨count, hsplit⟩ := exists_trimZeros atLeast lengths
  conv_rhs => rw [hsplit]
  by_cases hlt : i < (trimZeros atLeast lengths).length
  · simp [List.getElem?_append_left hlt]
  · simp [List.getElem?_append_right (Nat.le_of_not_lt hlt), List.getElem?_replicate, Nat.le_of_not_lt hlt]
    split <;> simp

theorem filter_trimZeros : (trimZeros atLeast lengths).filter (· != 0) = lengths.filter (· != 0) := by
  obtain ⟨count, hsplit⟩ := exists_trimZeros atLeast lengths
  conv_rhs => rw [hsplit]
  simp

theorem mem_of_mem_trimZeros {length : Nat} (h : length ∈ trimZeros atLeast lengths) : length ∈ lengths :=
  List.mem_of_mem_take h

theorem le_length_trimZeros (h : atLeast ≤ lengths.length) : atLeast ≤ (trimZeros atLeast lengths).length := by
  simp only [trimZeros, List.length_take]
  omega

end Trimming

/-! ## Lengths for counts -/

/-- The lengths that are stated for the counts of symbols. -/
def lengthsFor (atLeast : Nat) (counts : List Nat) : List Nat := trimZeros atLeast (WordLengths.ofCounts 15 counts)

section Counted

variable (atLeast : Nat) {counts : List Nat}

theorem length_lengthsFor (h : atLeast ≤ counts.length) :
    atLeast ≤ (lengthsFor atLeast counts).length ∧ (lengthsFor atLeast counts).length ≤ counts.length := by
  rw [← WordLengths.length_ofCounts 15 counts] at h ⊢
  exact ⟨le_length_trimZeros atLeast _ h, length_trimZeros_le atLeast _⟩

/-- The lengths for counts may be stated, and every symbol that occurs has one. -/
theorem statable_lengthsFor (hfew : counts.length ≤ 2 ^ 15) :
    Statable (lengthsFor atLeast counts)
      ∧ ∀ symbol, counts.getD symbol 0 ≠ 0 → (lengthsFor atLeast counts).getD symbol 0 ≠ 0 := by
  obtain ⟨hshort, hoccurs, hnone, hone, htwo⟩ := WordLengths.ofCounts_spec (show 15 ≠ 0 by decide) counts
    (Nat.le_trans (List.length_filter_le _ counts) hfew)
  refine ⟨⟨fun length hmem => hshort length (mem_of_mem_trimZeros _ _ hmem), ?_⟩, fun symbol h => ?_⟩
  · rw [lengthsFor, filter_trimZeros]
    rcases hused : (counts.filter (· != 0)).length with _ | _ | _
    · exact .inl (hnone hused)
    · exact .inr (.inl (hone hused))
    · exact .inr (.inr (htwo (by omega)))
  · rw [lengthsFor, getD_trimZeros]
    exact hoccurs symbol h

end Counted

/-! ## Counts -/

/-- A table of counts has every symbol as often as it was counted. -/
theorem getD_foldl_countOne : ∀ {symbols : List Nat} (counts : Array Nat), (∀ symbol ∈ symbols, symbol < counts.size) →
    ∀ symbol, (symbols.foldl countOne counts).getD symbol 0 = counts.getD symbol 0 + symbols.count symbol
  | [], _, _, _ => by simp
  | first :: others, counts, h, symbol => by
    obtain ⟨hfirst, hothers⟩ := List.forall_mem_cons.1 h
    rw [List.foldl_cons, getD_foldl_countOne _ (by simpa [countOne] using hothers), countOne,
      WordLengths.getD_modify _ _ hfirst, List.count_cons]
    by_cases hsymbol : symbol = first
    · simp [hsymbol]
      omega
    · simp [hsymbol, Ne.symm hsymbol]

theorem size_foldl_countOne (symbols : List Nat) : ∀ counts : Array Nat,
    (symbols.foldl countOne counts).size = counts.size := by
  induction symbols with
  | nil => exact fun _ => rfl
  | cons symbol symbols ih => exact fun counts => (ih _).trans Array.size_modify

/-- The symbol of a token in the code for literals and lengths. -/
def Token.literalSymbol : Token → Nat
  | .literal b => b.toNat
  | .copy length _ => 257 + classOf lengthClasses length

/-- The symbol of a token in the code for distances, if it needs one. -/
def Token.distanceSymbol : Token → List Nat
  | .literal _ => []
  | .copy _ distance => [classOf distanceClasses distance]

theorem tokenCounts_eq (ts : Array Token) :
    tokenCounts ts = ((endOfBlock :: ts.toList.map Token.literalSymbol).foldl countOne (Array.replicate maxLiterals 0),
      (ts.toList.flatMap Token.distanceSymbol).foldl countOne (Array.replicate maxDistances 0)) := by
  rw [tokenCounts, ← Array.foldl_toList, List.foldl_cons]
  generalize countOne (Array.replicate maxLiterals 0) endOfBlock = literals
  generalize Array.replicate maxDistances 0 = distances
  induction ts.toList generalizing literals distances with
  | nil => rfl
  | cons t ts ih => cases t <;> simp [ih, Token.literalSymbol, Token.distanceSymbol]

theorem symbols_lt {ts : List Token} {out whole : Array UInt8} (h : Stands out ts whole) :
    (∀ symbol ∈ ts.map Token.literalSymbol, symbol < maxLiterals)
      ∧ ∀ symbol ∈ ts.flatMap Token.distanceSymbol, symbol < maxDistances := by
  induction h with
  | nil => simp
  | @literal out whole b ts _ ih =>
    have hlt := b.toNat_lt
    refine ⟨?_, by simpa [Token.distanceSymbol] using ih.2⟩
    rw [List.map_cons, List.forall_mem_cons]
    exact ⟨by simp only [Token.literalSymbol, maxLiterals]; omega, ih.1⟩
  | @copy out whole length distance ts hleast hmost hback hnear hwithin _ ih =>
    obtain ⟨c, hc, -⟩ := exists_lengthClass hleast hmost
    obtain ⟨d, hd, -⟩ := exists_distanceClass hback hnear
    have hlength : classOf lengthClasses length < 29 := (Array.getElem?_eq_some_iff.1 hc).1
    have hdistance : classOf distanceClasses distance < 30 := (Array.getElem?_eq_some_iff.1 hd).1
    rw [List.map_cons, List.forall_mem_cons, List.flatMap_cons, Token.distanceSymbol, List.singleton_append,
      List.forall_mem_cons]
    exact ⟨⟨by simp only [Token.literalSymbol, maxLiterals]; omega, ih.1⟩, hdistance, ih.2⟩

/-- What has been counted has a count. -/
theorem getD_counted_ne_zero {symbols : List Nat} {size : Nat} (hall : ∀ symbol ∈ symbols, symbol < size) :
    ∀ symbol ∈ symbols, (symbols.foldl countOne (Array.replicate size 0)).toList.getD symbol 0 ≠ 0 := by
  intro symbol hmem
  have hcount := getD_foldl_countOne (Array.replicate size 0) (by simpa using hall) symbol
  have hpos := List.count_pos_iff.2 hmem
  rw [Array.getD_eq_getD_getElem?] at hcount
  simp only [List.getD_eq_getElem?_getD, Array.getElem?_toList]
  omega

/-- What the tokens of a block need has been counted, and so has the end of the block. -/
theorem counted_tokenCounts {ts : Array Token} {out whole : Array UInt8} (h : Stands out ts.toList whole) :
    (∀ symbol ∈ endOfBlock :: ts.toList.map Token.literalSymbol, (tokenCounts ts).1.toList.getD symbol 0 ≠ 0)
      ∧ ∀ symbol ∈ ts.toList.flatMap Token.distanceSymbol, (tokenCounts ts).2.toList.getD symbol 0 ≠ 0 := by
  obtain ⟨hliterals, hdistances⟩ := symbols_lt h
  rw [tokenCounts_eq]
  exact ⟨getD_counted_ne_zero (List.forall_mem_cons.2 ⟨by decide, hliterals⟩), getD_counted_ne_zero hdistances⟩

/-! ## The code for word lengths -/

/-- Two counts that are not zero are those of two symbols. -/
theorem two_le_length_filter {counts : List Nat} {i j : Nat} (hij : i < j) (hi : counts.getD i 0 ≠ 0)
    (hj : counts.getD j 0 ≠ 0) : 2 ≤ (counts.filter (· != 0)).length := by
  have hsome : ∀ {part : List Nat} {k : Nat}, part.getD k 0 ≠ 0 → 0 < (part.filter (· != 0)).length := by
    intro part k hk
    cases hget : part[k]? with
    | none => simp [hget] at hk
    | some count =>
      exact List.length_pos_of_mem
        (List.mem_filter.2 ⟨List.mem_of_getElem? hget, by simpa [hget] using hk⟩)
  have hfront : 0 < ((counts.take j).filter (· != 0)).length :=
    hsome (k := i) (by simpa [List.getElem?_take, hij] using hi)
  have hback : 0 < ((counts.drop j).filter (· != 0)).length := hsome (k := 0) (by simpa using hj)
  rw [← List.take_append_drop j counts, List.filter_append, List.length_append]
  omega

/-- The word lengths of the code that symbols are written in. -/
def symbolLengths (symbols : List LengthSymbol) : List Nat :=
  WordLengths.ofCounts 7
    (symbols.foldl (fun counts s => countOne counts s.symbol) (Array.replicate 19 0)).toList

/-- The code for word lengths may be stated, and has a word for every symbol that is written. -/
theorem symbolLengths_spec {symbols : List LengthSymbol} (hlt : ∀ s ∈ symbols, s.symbol < 19)
    (hne : ∃ s ∈ symbols, ∃ t ∈ symbols, s.symbol ≠ t.symbol) :
    (symbolLengths symbols).length = 19 ∧ (∀ length ∈ symbolLengths symbols, length < 8)
      ∧ Code.complete (symbolLengths symbols) = true
      ∧ ∀ s ∈ symbols, (symbolLengths symbols).getD s.symbol 0 ≠ 0 := by
  unfold symbolLengths
  rw [← List.foldl_map (f := LengthSymbol.symbol) (g := countOne)]
  have hsize := (size_foldl_countOne (symbols.map LengthSymbol.symbol) (Array.replicate 19 0)).trans Array.size_replicate
  have hcounted : ∀ s ∈ symbols,
      ((symbols.map LengthSymbol.symbol).foldl countOne (Array.replicate 19 0)).toList.getD s.symbol 0 ≠ 0 :=
    fun s hs => getD_counted_ne_zero (by simpa using hlt) _ (List.mem_map_of_mem hs)
  generalize hcounts : (symbols.map LengthSymbol.symbol).foldl countOne (Array.replicate 19 0) = counts
    at hsize hcounted ⊢
  have htwo : 2 ≤ (counts.toList.filter (· != 0)).length := by
    obtain ⟨s, hs, t, ht, hst⟩ := hne
    rcases Nat.lt_or_gt_of_ne hst with h | h
    · exact two_le_length_filter h (hcounted s hs) (hcounted t ht)
    · exact two_le_length_filter h (hcounted t ht) (hcounted s hs)
  obtain ⟨hshort, hoccurs, -, -, hspan⟩ := WordLengths.ofCounts_spec (show 7 ≠ 0 by decide) counts.toList
    (Nat.le_trans (List.length_filter_le _ counts.toList) (by simp [hsize]))
  refine ⟨by simpa [WordLengths.length_ofCounts] using hsize, fun length hmem => ?_, ?_, fun s hs => ?_⟩
  · exact Nat.lt_succ_of_le (hshort length hmem)
  · have hshort' : ∀ length ∈ (WordLengths.ofCounts 7 counts.toList).filter (· != 0), length ≤ 7 :=
      fun length hmem => hshort length (List.mem_of_mem_filter hmem)
    have hweight := span_eq_mul (show 7 ≤ Code.maxLength by decide) hshort'
    rw [Code.complete, Code.weight_eq_span, hweight, hspan htwo]
    rfl
  · exact hoccurs s.symbol (hcounted s hs)

/-- What is looked up is what stands in the place of the key. -/
theorem getD_lookup_zip {key : Nat} : ∀ (keys values : List Nat), key ∈ keys →
    ((keys.zip values).lookup key).getD 0 = values.getD (keys.idxOf key) 0
  | k :: keys, [], _ => by simp
  | k :: keys, v :: values, h => by
    by_cases hkey : key = k
    · simp [hkey]
    · have hmem : key ∈ keys := by simpa [hkey] using h
      have hother : (key == k) = false := by simpa using hkey
      have hrest := getD_lookup_zip keys values hmem
      simpa [List.lookup_cons, hother, List.idxOf_cons, Ne.symm hkey] using hrest

/-- The lengths of the code for word lengths, in the order in which they are written. -/
def writtenLengths (lengths : List Nat) : List Nat :=
  trimZeros 4 (statedOrder.map fun symbol => lengths.getD symbol 0)

/-- The lengths of the code for word lengths are written in few bits, and are put back in order. -/
theorem writtenLengths_spec {lengths : List Nat} (hlength : lengths.length = 19)
    (hshort : ∀ length ∈ lengths, length < 8) :
    4 ≤ (writtenLengths lengths).length ∧ (writtenLengths lengths).length ≤ 19
      ∧ (∀ length ∈ writtenLengths lengths, length < 8)
      ∧ (List.range 19).map (fun symbol => ((statedOrder.zip (writtenLengths lengths)).lookup symbol).getD 0)
        = lengths := by
  refine ⟨le_length_trimZeros _ _ (by rw [List.length_map]; decide), length_trimZeros_le _ _,
    fun length hmem => ?_, ?_⟩
  · obtain ⟨symbol, -, rfl⟩ := List.mem_map.1 (mem_of_mem_trimZeros _ _ hmem)
    cases hget : lengths[symbol]? with
    | none => simp [hget]
    | some length => simpa [hget] using hshort length (List.mem_of_getElem? hget)
  · have horder : ∀ symbol < 19, statedOrder[statedOrder.idxOf symbol]? = some symbol := by decide
    refine List.ext_getElem (by simp [hlength]) fun symbol h h' => ?_
    have hget := horder symbol (by simpa using h)
    rw [List.getElem_map, List.getElem_range, getD_lookup_zip _ _ (List.mem_of_getElem? hget), writtenLengths,
      getD_trimZeros]
    simp only [List.getD_eq_getElem?_getD, List.getElem?_map, hget, Option.map_some, Option.getD_some,
      List.getElem?_eq_getElem h']

/-! ## Stated codes -/

/-- The symbols that the word lengths of two codes are written as. -/
def symbolsOf (literals distances : List Nat) : List LengthSymbol :=
  lengthSymbols (literals ++ distances).length (literals ++ distances)

/-- The bits that state codes with words of these lengths. -/
def statedBits (literals distances : List Nat) : List Bool :=
  let lengths := symbolLengths (symbolsOf literals distances)
  numberBits (literals.length - 257) 5 ++ (numberBits (distances.length - 1) 5
    ++ (numberBits ((writtenLengths lengths).length - 4) 4 ++ ((writtenLengths lengths).flatMap (numberBits · 3)
      ++ (symbolsOf literals distances).flatMap (LengthSymbol.bits ((Code.ofLengths lengths).words 19)))))

/-- The symbols of lengths of which one is not zero spell them, in a code that may be stated. -/
theorem symbolsOf_spec {literals distances : List Nat} (hliterals : Statable literals) (hdistances : Statable distances)
    (hleast : 257 ≤ literals.length) (hend : literals.getD endOfBlock 0 ≠ 0) :
    Spells [] (symbolsOf literals distances) (literals ++ distances).reverse
      ∧ ∃ s ∈ symbolsOf literals distances, ∃ t ∈ symbolsOf literals distances, s.symbol ≠ t.symbol := by
  have hsmall : ∀ length ∈ literals ++ distances, length < 16 := by
    intro length hmem
    rcases List.mem_append.1 hmem with h | h
    · exact Nat.lt_succ_of_le (hliterals.short length h)
    · exact Nat.lt_succ_of_le (hdistances.short length h)
  have hsome : ∃ length ∈ literals ++ distances, length ≠ 0 := by
    cases hget : literals[endOfBlock]? with
    | none => simp [hget] at hend
    | some length =>
      exact ⟨length, List.mem_append_left _ (List.mem_of_getElem? hget), by simpa [hget] using hend⟩
  have hspells := spells_lengthSymbols _ (literals ++ distances) [] (Nat.le_refl _) hsmall
  rw [List.append_nil] at hspells
  exact ⟨hspells, exists_ne_symbols (Nat.le_refl _) (by simp; omega) hsmall hsome⟩

/-- Codes are read as they are stated. -/
theorem yields_statedCodes {literals distances : List Nat} (hliterals : Statable literals)
    (hdistances : Statable distances) (hleast : 257 ≤ literals.length) (hmost : literals.length ≤ maxLiterals)
    (hleast' : 1 ≤ distances.length) (hmost' : distances.length ≤ maxDistances)
    (hend : literals.getD endOfBlock 0 ≠ 0) :
    Yields statedCodes (statedBits literals distances) ⟨.ofLengths literals, .ofLengths distances⟩ := by
  obtain ⟨hspells, hne⟩ := symbolsOf_spec hliterals hdistances hleast hend
  rw [statedBits]
  generalize symbolsOf literals distances = symbols at hspells hne ⊢
  obtain ⟨hlength, hshort, hcomplete, hoccurs⟩ := symbolLengths_spec hspells.symbol_lt hne
  generalize symbolLengths symbols = lengths at hlength hshort hcomplete hoccurs ⊢
  obtain ⟨hfew, hmany, hwritten, hplaced⟩ := writtenLengths_spec hlength hshort
  have hfits : Code.Fits lengths :=
    .of_complete (fun length hmem => Nat.le_trans (Nat.le_of_lt (hshort length hmem)) (by decide)) hcomplete
  have htotal : (literals ++ distances).reverse.length = literals.length + distances.length := by
    rw [List.length_reverse, List.length_append]
  have hcount : symbols.length ≤ literals.length + distances.length := by
    have hle := hspells.length_le
    rwa [htotal, List.length_nil, Nat.zero_add] at hle
  have hall := yields_statedLengths hspells htotal (fun s hs => hfits.has (Nat.le_of_eq hlength) (hoccurs s hs))
    (literals.length + distances.length + 1) (Nat.lt_succ_of_le hcount)
  have hsizes : ¬(literals.length > maxLiterals ∨ distances.length > maxDistances) := by omega
  simp only [maxLiterals, maxDistances] at hmost hmost'
  unfold statedCodes
  refine (yields_number 5 (by omega)).bind ((yields_number 5 (by omega)).bind ((yields_number 4 (by omega)).bind ?_))
  rw [Nat.add_sub_cancel' hleast, Nat.add_sub_cancel' hleast', Nat.add_sub_cancel' hfew, if_neg hsizes]
  refine (yields_times fun length hmem => yields_number 3 (hwritten length hmem)).bind ?_
  simp only [hplaced]
  rw [if_pos hcomplete]
  refine hall.bind_done ?_
  rw [List.reverse_reverse, List.take_left, List.drop_left]
  exact hliterals.yields_statedCode.bind (hdistances.yields_statedCode.bind (yields_done _))

/-! ## Codes made for tokens -/

/-- The codes that a block states for its tokens, by the lengths of their words. -/
def madeLiterals (ts : Array Token) : List Nat := lengthsFor 257 (tokenCounts ts).1.toList

def madeDistances (ts : Array Token) : List Nat := lengthsFor 1 (tokenCounts ts).2.toList

def madeCodes (ts : Array Token) : Codes := ⟨.ofLengths (madeLiterals ts), .ofLengths (madeDistances ts)⟩

theorem Packer.Holds.lengths {p : Packer} {bits : List Bool} (h : p.Holds bits) (words : Array (List Bool))
    (written : List Nat) (symbols : List LengthSymbol) :
    (symbols.foldl (fun p s => (p.append (words.getD s.symbol [])).append (numberBits s.offset s.extra))
        (written.foldl (fun p length => p.append (numberBits length 3)) p)).Holds
      (bits ++ written.flatMap (numberBits · 3) ++ symbols.flatMap (LengthSymbol.bits words)) := by
  refine Packer.Holds.foldl (fun s _ p bits h => ?_) (Packer.Holds.foldl (fun length _ p bits h => h.append _) h)
  simpa [LengthSymbol.bits] using (h.append (words.getD s.symbol [])).append (numberBits s.offset s.extra)

theorem Packer.Holds.made {p : Packer} {bits : List Bool} (h : p.Holds bits) (ts : Array Token) :
    (p.made ts).Holds (bits ++ ([false, true] ++ (statedBits (madeLiterals ts) (madeDistances ts)
      ++ blockBits (madeCodes ts).words ts.toList))) := by
  have hmade : (p.made ts).Holds _ := (((((h.append _).append _).append _).append _).lengths _ _ _).tokens _ _
  simpa [statedBits, symbolsOf, symbolLengths, writtenLengths, madeLiterals, madeDistances, madeCodes, lengthsFor]
    using hmade

/-- The codes that a block states are read, and have words for its tokens. -/
theorem madeCodes_spec {ts : Array Token} {out whole : Array UInt8} (h : Stands out ts.toList whole) :
    Yields statedCodes (statedBits (madeLiterals ts) (madeDistances ts)) (madeCodes ts)
      ∧ (madeCodes ts).Serves ts.toList := by
  obtain ⟨hsize, hsize'⟩ := size_tokenCounts ts
  rw [← Array.length_toList] at hsize hsize'
  obtain ⟨hcounted, hcounted'⟩ := counted_tokenCounts h
  have hliterals := length_lengthsFor 257 (hsize ▸ (by decide : 257 ≤ maxLiterals))
  have hdistances := length_lengthsFor 1 (hsize' ▸ (by decide : 1 ≤ maxDistances))
  obtain ⟨hstatable, hstated⟩ := statable_lengthsFor 257 (hsize ▸ (by decide : maxLiterals ≤ 2 ^ 15))
  obtain ⟨hstatable', hstated'⟩ := statable_lengthsFor 1 (hsize' ▸ (by decide : maxDistances ≤ 2 ^ 15))
  rw [hsize] at hliterals
  rw [hsize'] at hdistances
  have hend := hstated endOfBlock (hcounted _ List.mem_cons_self)
  refine ⟨yields_statedCodes hstatable hstatable' hliterals.1 hliterals.2 hdistances.1 hdistances.2 hend,
    serves_ofLengths hstatable.fits hstatable'.fits ?_ ?_ hend fun t hmem => ?_⟩
  · exact Nat.le_trans hliterals.2 (by decide)
  · exact Nat.le_trans hdistances.2 (by decide)
  · have hliteral := hstated _ (hcounted _ (List.mem_cons_of_mem _ (List.mem_map_of_mem hmem)))
    cases t with
    | literal b => exact hliteral
    | copy length distance =>
      exact ⟨hliteral, hstated' _ (hcounted' _ (List.mem_flatMap.2 ⟨_, hmem, List.mem_singleton_self _⟩))⟩

end DeviceLog.Deflate
