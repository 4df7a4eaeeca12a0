import DeviceLog.Deflate.Code
import DeviceLog.Proofs.Deflate.Stream
import Mathlib.Data.List.Induction

/-! # Words of a prefix code are read as their symbols

A code is stated by the lengths of its words. Where the words do not take up more than all bit sequences,
the tree that is made of the lengths has a place for every one of them.

* `Code.yields_of_mem_wordsFrom`: the way down a tree to a symbol is read as the symbol.
* `Code.length_subtrees_mul_lt`: how many subtrees there are at a depth, by the share that their words take
  up. From it `Code.mem_symbols_ofLengths`: no symbol with a word is lost.
* `Code.Fits.yields_word` puts both together: what the table of words says of a symbol is read as the symbol.
-/

namespace DeviceLog.Deflate

/-- How many words of the longest length words of these lengths stand for together. -/
def span (longest : Nat) (lengths : List Nat) : Nat := (lengths.map fun length => 2 ^ (longest - length)).sum

@[simp] theorem span_nil (longest : Nat) : span longest [] = 0 := rfl

@[simp] theorem span_cons (longest length : Nat) (lengths : List Nat) :
    span longest (length :: lengths) = 2 ^ (longest - length) + span longest lengths := by
  simp [span]

@[simp] theorem span_append (longest : Nat) (front back : List Nat) :
    span longest (front ++ back) = span longest front + span longest back := by
  simp [span]

theorem span_perm {longest : Nat} {lengths other : List Nat} (h : lengths.Perm other) :
    span longest lengths = span longest other := (h.map _).sum_nat

/-- In a table that is filled entry by entry, a place has what an entry for it says. -/
theorem getD_foldl_setIfInBounds {α β : Type} (place : β → Nat) (value : β → α) (missing : α) {i : Nat} :
    ∀ (table : Array α) {entries : List β}, i < table.size → (∃ entry ∈ entries, place entry = i) →
      ∃ entry ∈ entries, place entry = i
        ∧ (entries.foldl (fun table entry => table.setIfInBounds (place entry) (value entry)) table).getD i missing
          = value entry := by
  intro table entries
  induction entries using List.reverseRecOn generalizing table with
  | nil => simp
  | append_singleton entries last ih =>
    intro hi hentry
    have hsize : ∀ (entries : List β) (table : Array α),
        (entries.foldl (fun table entry => table.setIfInBounds (place entry) (value entry)) table).size
          = table.size := by
      intro entries
      induction entries with
      | nil => simp
      | cons entry entries ih => simp [ih]
    by_cases hlast : place last = i
    · exact ⟨last, by simp, hlast, by simp [hlast, hsize, hi]⟩
    · obtain ⟨entry, hmem, hplace⟩ := hentry
      have hbefore : entry ∈ entries := by
        rcases List.mem_append.1 hmem with h | h
        · exact h
        · simp at h
          exact absurd (h ▸ hplace) hlast
      obtain ⟨found, hfound, hat, hvalue⟩ := ih table hi ⟨entry, hbefore, hplace⟩
      exact ⟨found, by simp [hfound], hat, by simp [← hvalue, Array.getElem?_setIfInBounds_ne hlast]⟩

namespace Code

/-! ## Ways down a tree -/

/-- The symbols of a tree. -/
def symbols : Code → List Nat
  | absent => []
  | symbol value => [value]
  | fork zero one => zero.symbols ++ one.symbols

theorem map_fst_wordsFrom : ∀ (code : Code) (reached : List Bool),
    (code.wordsFrom reached).map Prod.fst = code.symbols
  | absent, _ => rfl
  | symbol _, _ => rfl
  | fork zero one, reached => by
    simp [wordsFrom, symbols, map_fst_wordsFrom zero, map_fst_wordsFrom one]

/-- What is left of a word below the place that was reached is read as its symbol. -/
theorem yields_of_mem_wordsFrom : ∀ {code : Code} {reached : List Bool} {entry : Nat × List Bool},
    entry ∈ code.wordsFrom reached → ∃ word, entry.2 = reached.reverse ++ word ∧ Yields code.read word entry.1
  | absent, _, _, h => by simp [wordsFrom] at h
  | symbol value, reached, entry, h => by
    obtain rfl : entry = (value, reached.reverse) := by simpa [wordsFrom] using h
    exact ⟨[], by simp, yields_done value⟩
  | fork zero one, reached, entry, h => by
    rcases List.mem_append.1 h with h | h
    · obtain ⟨word, hword, hyields⟩ := yields_of_mem_wordsFrom h
      exact ⟨false :: word, by simp [hword], (yields_bit false).bind hyields⟩
    · obtain ⟨word, hword, hyields⟩ := yields_of_mem_wordsFrom h
      exact ⟨true :: word, by simp [hword], (yields_bit true).bind hyields⟩

/-! ## Trees made of lengths -/

@[simp] theorem length_pairUp : ∀ trees : List Code, (pairUp trees).length = (trees.length + 1) / 2
  | [] => rfl
  | [_] => by simp [pairUp]
  | _ :: _ :: rest => by simp [pairUp, length_pairUp rest]; omega

@[simp] theorem flatMap_symbols_pairUp : ∀ trees : List Code,
    (pairUp trees).flatMap symbols = trees.flatMap symbols
  | [] => rfl
  | [zero] => by simp [pairUp, symbols]
  | zero :: one :: rest => by simp [pairUp, symbols, flatMap_symbols_pairUp rest]

/-- The share of all words of the longest length that words of a length or longer take up. -/
def share (lengths : List Nat) (depth : Nat) : Nat := span maxLength (lengths.filter (depth ≤ ·))

theorem weight_eq_span (lengths : List Nat) : weight lengths = span maxLength (lengths.filter (· != 0)) := by
  have hsum : ∀ (used : List Nat) (start : Nat),
      used.foldl (fun total length => total + 2 ^ (maxLength - length)) start = start + span maxLength used := by
    intro used
    induction used with
    | nil => simp
    | cons length used ih => simp [ih, Nat.add_assoc]
  simp only [weight, Nat.one_shiftLeft, hsum, Nat.zero_add]

theorem weight_eq_share (lengths : List Nat) : weight lengths = share lengths 1 := by
  have hfilter : lengths.filter (· != 0) = lengths.filter (1 ≤ ·) := by
    refine List.filter_congr fun length _ => ?_
    cases length <;> simp
  rw [weight_eq_span, share, hfilter]

theorem length_symbolsOfLength (lengths : List Nat) (length : Nat) :
    (symbolsOfLength lengths length).length = lengths.count length := by
  have hfirst : lengths.count length = (lengths.zipIdx.map Prod.fst).count length := by
    rw [List.zipIdx_map_fst]
  rw [hfirst, symbolsOfLength, List.length_map, ← List.countP_eq_length_filter, List.count, List.countP_map]
  rfl

/-- Words of a length take up their share before the longer ones do. -/
theorem share_eq (lengths : List Nat) (depth : Nat) :
    share lengths depth = lengths.count depth * 2 ^ (maxLength - depth) + share lengths (depth + 1) := by
  induction lengths with
  | nil => simp [share]
  | cons length lengths ih =>
    simp only [share, List.filter_cons, List.count_cons, Nat.add_one_le_iff] at ih ⊢
    rcases Nat.lt_trichotomy length depth with h | rfl | h
    · simp [Nat.not_le.2 h, Nat.lt_asymm h, ih, Nat.ne_of_lt h]
    · simp [ih, Nat.add_mul]
      omega
    · simp [h, Nat.le_of_lt h, ih, Nat.ne_of_gt h]
      omega

theorem share_maxLength_succ {lengths : List Nat} (h : ∀ length ∈ lengths, length ≤ maxLength) :
    share lengths (maxLength + 1) = 0 := by
  have hnone : lengths.filter (maxLength + 1 ≤ ·) = [] := by
    rw [List.filter_eq_nil_iff]
    intro length hmem
    simpa [Nat.lt_succ_iff] using h length hmem
  rw [share, hnone]
  rfl

/-- There is less than one subtree at a depth beyond the share that words of this length or longer take up. -/
theorem length_subtrees_mul_lt {lengths : List Nat} (h : ∀ length ∈ lengths, length ≤ maxLength) (more : Nat) :
    ∀ depth : Nat, depth + more = maxLength →
      (subtrees lengths depth more).length * 2 ^ more < share lengths depth + 2 ^ more := by
  induction more with
  | zero =>
    rintro depth rfl
    simp [subtrees, length_symbolsOfLength, share_eq lengths maxLength, share_maxLength_succ h]
  | succ more ih =>
    intro depth hdepth
    have hdeeper := ih (depth + 1) (by omega)
    have hpairs : (((subtrees lengths (depth + 1) more).length + 1) / 2) * 2 ^ (more + 1)
        ≤ ((subtrees lengths (depth + 1) more).length + 1) * 2 ^ more := by
      rw [Nat.pow_succ, ← Nat.mul_assoc, Nat.mul_right_comm]
      exact Nat.mul_le_mul_right _ (Nat.div_mul_le_self _ _)
    rw [share_eq lengths depth, show maxLength - depth = more + 1 by omega]
    simp only [subtrees, List.length_append, length_symbolsOfLength, length_pairUp, Nat.add_mul] at hpairs ⊢
    rw [Nat.pow_succ] at hpairs ⊢
    omega

theorem mem_subtrees {lengths : List Nat} {value length : Nat} (hget : lengths[value]? = some length) (more : Nat) :
    ∀ depth : Nat, depth ≤ length → length ≤ depth + more →
      value ∈ (subtrees lengths depth more).flatMap symbols := by
  have hhere : value ∈ (symbolsOfLength lengths length).flatMap symbols := by
    refine List.mem_flatMap.2 ⟨symbol value, ?_, by simp [symbols]⟩
    refine List.mem_map.2 ⟨(length, value), ?_, rfl⟩
    simpa [List.mem_zipIdx_iff_getElem?] using hget
  induction more with
  | zero =>
    intro depth hle hge
    obtain rfl : depth = length := by omega
    exact hhere
  | succ more ih =>
    intro depth hle hge
    rw [subtrees, List.flatMap_append, flatMap_symbols_pairUp, List.mem_append]
    by_cases hlength : depth = length
    · subst hlength
      exact .inl hhere
    · exact .inr (ih (depth + 1) (by omega) (by omega))

/-- Whether no word is too long, and all words have room beside each other. -/
structure Fits (lengths : List Nat) : Prop where
  short : ∀ length ∈ lengths, length ≤ maxLength
  room : weight lengths ≤ 2 ^ maxLength

namespace Fits

variable {lengths : List Nat} {value length : Nat}

/-- Words that have room beside each other make one tree, or none. -/
theorem length_pairUp_le (h : Fits lengths) : (pairUp (subtrees lengths 1 (maxLength - 1))).length ≤ 1 := by
  have hlt := length_subtrees_mul_lt h.short (maxLength - 1) 1 rfl
  have hroom := h.room
  rw [weight_eq_share] at hroom
  rw [length_pairUp]
  simp only [maxLength] at hlt hroom ⊢
  omega

/-- Every symbol with a word has a place in the tree. -/
theorem mem_symbols (h : Fits lengths) (hget : lengths[value]? = some length) (hpos : length ≠ 0) :
    value ∈ (ofLengths lengths).symbols := by
  have hle := h.short length (List.mem_of_getElem? hget)
  have hmem := mem_subtrees hget (maxLength - 1) 1 (by omega) (by simp only [maxLength] at hle ⊢; omega)
  have hone := h.length_pairUp_le
  rw [← flatMap_symbols_pairUp] at hmem
  unfold ofLengths
  match pairUp (subtrees lengths 1 (maxLength - 1)), hmem, hone with
  | [tree], hmem, _ => simpa using hmem

/-- A tree made of lengths has a fork at its top. -/
theorem exists_fork (lengths : List Nat) : ∃ zero one, ofLengths lengths = fork zero one := by
  unfold ofLengths
  match subtrees lengths 1 (maxLength - 1) with
  | [] => exact ⟨_, _, rfl⟩
  | [zero] => exact ⟨_, _, rfl⟩
  | zero :: one :: rest => exact ⟨_, _, rfl⟩

/-- The word of a symbol is read as the symbol, and has a bit at least. -/
theorem yields_word (h : Fits lengths) (hget : lengths[value]? = some length) (hpos : length ≠ 0) {bound : Nat}
    (hbound : value < bound) :
    Yields (ofLengths lengths).read (((ofLengths lengths).words bound).getD value []) value
      ∧ 0 < (((ofLengths lengths).words bound).getD value []).length := by
  have hmem := h.mem_symbols hget hpos
  rw [← map_fst_wordsFrom _ []] at hmem
  obtain ⟨entry, hentry, hvalue⟩ := List.mem_map.1 hmem
  obtain ⟨found, hfound, hat, hword⟩ := getD_foldl_setIfInBounds Prod.fst Prod.snd []
    (Array.replicate bound []) (by simpa using hbound) ⟨entry, hentry, hvalue⟩
  have hword' : ((ofLengths lengths).words bound).getD value [] = found.2 := hword
  obtain ⟨word, heq, hyields⟩ := yields_of_mem_wordsFrom hfound
  rw [hword', ← hat]
  refine ⟨by simpa [heq] using hyields, ?_⟩
  obtain ⟨zero, one, htree⟩ := exists_fork lengths
  rw [htree] at hfound
  rcases List.mem_append.1 hfound with hbelow | hbelow
  · obtain ⟨rest, hrest, -⟩ := yields_of_mem_wordsFrom hbelow
    simp [hrest]
  · obtain ⟨rest, hrest, -⟩ := yields_of_mem_wordsFrom hbelow
    simp [hrest]

end Fits

end Code

end DeviceLog.Deflate
