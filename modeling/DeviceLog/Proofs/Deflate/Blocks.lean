import DeviceLog.Proofs.Deflate.StatedCodes
import DeviceLog.Proofs.Deflate.Stored

/-! # Payloads expand to what they stand for

A payload expands to the bytes that it was made of, at every level.

* `ReadsAsBlock start word out last whole`: bits that stand behind as many others as `start` says are one block,
  which makes `whole` of the bytes `out`. A block may hold whole bytes, and so it matters where its bits are.
* `Packer.Holds.batch`, `Packer.Holds.batches`: what is written of batches are such blocks.
* `Batches.Hold`: batches have tokens in order, and count the bytes that these stand for.
* `expand_compress` puts these together.
-/

namespace DeviceLog.Deflate

/-! ## One block -/

/-- Whether bits are read as one block by as many turns as it has bits. What is read before and after it makes up
whole bytes with it. -/
def ReadsAsBlock (start : Nat) (word : List Bool) (out : Array UInt8) (last : Bool) (whole : Array UInt8) : Prop :=
  ∀ turns s rest, word.length ≤ turns → (start + word.length + rest.length) % 8 = 0 → s.Holds (word ++ rest) →
    ∃ t, block turns out s = (.ok (last, whole), t) ∧ t.Holds rest

section Block

variable {ts : List Token} {out whole : Array UInt8}

theorem readsAsBlock_fixed (h : Stands out ts whole) (start : Nat) (last : Bool) :
    ReadsAsBlock start ([last] ++ ([true, false] ++ blockBits fixedCodes.words ts)) out last whole := by
  intro turns s rest hturns _ hs
  have hserves := serves_fixedCodes h
  have hlength := length_lt_blockBits hserves
  simp only [List.length_append] at hturns
  have hcontents := yields_contents h hserves turns (by omega)
  have hblock : Yields (block turns out) _ (last, whole) :=
    (yields_bit last).bind ((yields_number 2 (n := 1) (by decide)).bind (hcontents.bind_done (yields_done _)))
  exact hblock s rest hs

theorem readsAsBlock_made {ts : Array Token} (h : Stands out ts.toList whole) (start : Nat) (last : Bool) :
    ReadsAsBlock start ([last] ++ ([false, true] ++ (statedBits (madeLiterals ts) (madeDistances ts)
      ++ blockBits (madeCodes ts).words ts.toList))) out last whole := by
  intro turns s rest hturns _ hs
  obtain ⟨hcodes, hserves⟩ := madeCodes_spec h
  have hlength := length_lt_blockBits hserves
  simp only [List.length_append] at hturns
  have hcontents := yields_contents h hserves turns (by omega)
  have hblock : Yields (block turns out) _ (last, whole) :=
    (yields_bit last).bind ((yields_number 2 (n := 2) (by decide)).bind
      (hcodes.bind (hcontents.bind_done (yields_done _))))
  exact hblock s rest hs

/-- A block that holds its bytes begins them where a byte begins. -/
theorem readsAsBlock_stored {start : Nat} {pad : List Bool} {bytes : Bytes} (hpad : pad.length < 8)
    (haligned : (start + 3 + pad.length) % 8 = 0) (hbytes : bytes.length ≤ maxStored) (last : Bool)
    (out : Array UInt8) :
    ReadsAsBlock start ([last] ++ ([false, false] ++ (pad ++ bitsOf (storedHead bytes.length ++ bytes)))) out last
      (out ++ bytes) := by
  intro turns s rest _ hwhole hs
  have hrest : rest.length % 8 = 0 := by
    simp only [List.length_append, length_bitsOf, List.length_cons, List.length_nil] at hwhole
    omega
  rw [List.append_assoc] at hs
  obtain ⟨t, hbit, ht⟩ := yields_bit last s _ hs
  rw [List.append_assoc] at ht
  obtain ⟨u, hkind, hu⟩ := yields_number 2 (n := 0) (by decide) t _ ht
  obtain ⟨left, hleft, rfl⟩ := hu.exists_left hpad hrest
  obtain ⟨pending, bytes'⟩ := u
  obtain rfl : bytes' = storedHead bytes.length ++ bytes ++ left := hleft
  refine ⟨⟨[], left⟩, ?_, by simp, rfl⟩
  rw [block, Action.bind_of_ok hbit, Action.bind_of_ok hkind, if_pos rfl,
    Action.bind_of_ok (storedBlock_stored hbytes left pending out)]
  rfl

end Block

/-! ## Writing batches -/

/-- A batch counts the bytes that its tokens stand for. -/
def Batch.Counts (batch : Batch) : Prop := batch.covered = (batch.tokens.toList.map Token.covers).sum

namespace Packer.Holds

variable {p : Packer} {bits : List Bool} {out whole : Array UInt8} {bytes : Bytes}

/-- A batch is written as one block. -/
theorem batch (h : p.Holds bits) (last : Bool) (batch : Batch) (hstands : Stands out batch.tokens.toList (out ++ bytes))
    (hcovered : batch.covered = bytes.length) :
    ∃ word, (p.batch last batch bytes).Holds (bits ++ word) ∧ word ≠ []
      ∧ ReadsAsBlock bits.length word out last (out ++ bytes) := by
  have hlast := h.append [last]
  have hcoded : ∃ word, (if batch.covered < worthStating then (p.append [last]).fixed batch.tokens
      else (p.append [last]).made batch.tokens).Holds (bits ++ word) ∧ word ≠ []
        ∧ ReadsAsBlock bits.length word out last (out ++ bytes) := by
    split
    · have hfixed := (hlast.append [true, false]).tokens fixedCodes.words batch.tokens
      simp only [List.append_assoc] at hfixed
      exact ⟨_, hfixed, by simp, readsAsBlock_fixed hstands bits.length last⟩
    · have hmade := hlast.made batch.tokens
      rw [List.append_assoc] at hmade
      exact ⟨_, hmade, by simp, readsAsBlock_made hstands bits.length last⟩
  simp only [Packer.batch]
  generalize (if batch.covered < worthStating then (p.append [last]).fixed batch.tokens
    else (p.append [last]).made batch.tokens) = coded at hcoded ⊢
  split
  · rename_i hsaves
    obtain ⟨pad, hlt, haligned, hstored⟩ :=
      (hlast.append [false, false]).appendBytes (storedHead batch.covered ++ bytes)
    simp only [List.append_assoc] at hstored
    refine ⟨_, hstored, by simp, ?_⟩
    rw [hcovered] at hsaves ⊢
    exact readsAsBlock_stored hlt (by simp at haligned; omega) (Nat.le_trans hsaves.2.1 (by decide)) last out
  · exact hcoded

/-- Batches are written as blocks, which are read as the bytes that the tokens stand for. -/
theorem batches (last : Batch) (hlast : last.Counts) : ∀ {done : List Batch} {p : Packer} {bits : List Bool}
    (out : Array UInt8) (bytes : Bytes), p.Holds bits → (∀ batch ∈ done, batch.Counts) →
      Stands out (tokensOf done ++ last.tokens.toList) (out ++ bytes) →
      ∃ word, (p.batches last done bytes).Holds (bits ++ word) ∧
        ∀ turns s rest, word.length < turns → (bits.length + word.length + rest.length) % 8 = 0 →
          s.Holds (word ++ rest) → ∃ t, blocks turns out s = (.ok (out ++ bytes), t)
  | [], _, _, out, bytes, h, _, hstands => by
    obtain ⟨read, hread, hlength⟩ := hstands.exists_bytes
    obtain rfl : bytes = read := by simpa using congrArg Array.toList hread
    obtain ⟨word, hword, -, hblock⟩ := h.batch true last hstands (hlast.trans hlength.symm)
    refine ⟨word, hword, fun turns s rest hturns hwhole hs => ?_⟩
    obtain ⟨turns, rfl⟩ := Nat.exists_eq_succ_of_ne_zero (Nat.ne_of_gt (Nat.zero_lt_of_lt hturns))
    obtain ⟨t, ht, -⟩ := hblock turns s rest (Nat.le_of_lt_succ hturns) hwhole hs
    exact ⟨t, by rw [blocks, Action.bind_of_ok ht]; rfl⟩
  | batch :: done, _, _, out, bytes, h, hcounts, hstands => by
    obtain ⟨hfirst, hothers⟩ := List.forall_mem_cons.1 hcounts
    rw [tokensOf, List.flatMap_cons, List.append_assoc] at hstands
    obtain ⟨middle, hhere, hafter⟩ := hstands.exists_middle
    obtain ⟨here, rfl, hlength⟩ := hhere.exists_bytes
    obtain ⟨after, hjoin, -⟩ := hafter.exists_bytes
    obtain rfl : bytes = here ++ after := by simpa using congrArg Array.toList hjoin
    have hcovered : batch.covered = here.length := hfirst.trans hlength.symm
    obtain ⟨word, hword, hne, hblock⟩ := h.batch false batch hhere hcovered
    rw [hjoin] at hafter
    obtain ⟨more, hmore, hblocks⟩ := batches last hlast _ _ hword hothers hafter
    refine ⟨word ++ more, ?_, fun turns s rest hturns hwhole hs => ?_⟩
    · simpa [Packer.batches, hcovered] using hmore
    · obtain ⟨turns, rfl⟩ := Nat.exists_eq_succ_of_ne_zero (Nat.ne_of_gt (Nat.zero_lt_of_lt hturns))
      -- A block takes a bit at least, so the turns that are left are enough for the others.
      have hpos := List.length_pos_iff.2 hne
      rw [List.append_assoc] at hs
      simp only [List.length_append] at hturns hwhole
      obtain ⟨t, ht, hholds⟩ := hblock turns s (more ++ rest) (by omega) (by simp; omega) hs
      obtain ⟨u, hu⟩ := hblocks turns t rest (by omega) (by simp; omega) hholds
      refine ⟨u, ?_⟩
      rw [hjoin, blocks, Action.bind_of_ok ht]
      exact hu

end Packer.Holds

/-! ## Making batches -/

theorem Batch.Counts.add {batch : Batch} (h : batch.Counts) (t : Token) :
    (batch.add t).Counts ∧ (batch.add t).tokens.toList = batch.tokens.toList ++ [t] := by
  cases t <;> simp_all [Batch.Counts, Batch.add, Token.covers]

/-- Whether batches have these tokens in order, and count the bytes that they stand for. -/
structure Batches.Hold (batches : Batches) (ts : List Token) : Prop where
  done : ∀ batch ∈ batches.done.toList, batch.Counts
  current : batches.current.Counts
  tokens : Packer.tokensOf batches.done.toList ++ batches.current.tokens.toList = ts

theorem Batches.Hold.add {batches : Batches} {ts : List Token} (h : batches.Hold ts) (quick : Bool) (t : Token) :
    (batches.add quick t).Hold (ts ++ [t]) := by
  obtain ⟨hcounts, htokens⟩ := h.current.add t
  have hall := h.tokens
  rw [Batches.add]
  split
  · refine ⟨fun batch hmem => ?_, rfl, ?_⟩
    · rw [Array.toList_push, List.mem_append, List.mem_singleton] at hmem
      rcases hmem with hmem | rfl
      · exact h.done batch hmem
      · exact hcounts
    · simp [Packer.tokensOf, htokens, ← hall]
  · exact ⟨h.done, hcounts, by rw [htokens, ← List.append_assoc, hall]⟩

theorem batches_hold (level : Nat) (data : Array UInt8) :
    (batches level data).Hold (Repeats.tokens level data).toList := by
  have hadded : ∀ (ts before : List Token) {made : Batches}, made.Hold before →
      (ts.foldl (Batches.add (Repeats.isQuick level)) made).Hold (before ++ ts) := by
    intro ts
    induction ts with
    | nil => intro before made h; simpa using h
    | cons t ts ih =>
      intro before made h
      simpa using ih _ (h.add _ t)
  have hempty : ({} : Batches).Hold [] := ⟨by simp, rfl, rfl⟩
  rw [batches, ← Array.foldl_toList]
  exact hadded _ [] hempty

/-! ## All levels -/

theorem expand_inBatches (level : Nat) (bytes : Bytes) : expand (inBatches level bytes) = .ok bytes := by
  have hhold := batches_hold level bytes.toArray
  have hstands := Repeats.stands_tokens level bytes.toArray
  rw [← hhold.tokens] at hstands
  obtain ⟨word, hword, hread⟩ :=
    Packer.Holds.batches _ hhold.current #[] bytes Packer.holds_empty hhold.done (by simpa using hstands)
  obtain ⟨pad, hpad⟩ := hword.finish
  have hlength := congrArg List.length hpad
  simp only [List.nil_append, List.length_append, length_bitsOf] at hpad hlength
  obtain ⟨t, ht⟩ := hread (8 * (inBatches level bytes).length + 1) { bytes := inBatches level bytes } pad
    (by simp only [inBatches]; omega) (by simp only [List.length_nil]; omega)
    (by rw [← hpad]; exact BitSource.holds_bytes _)
  have hsize : ({ bytes := inBatches level bytes } : BitSource).size = 8 * (inBatches level bytes).length := by
    simp [BitSource.size]
  rw [expand]
  simp only [hsize, ht]
  simp [Except.map]

/-- A payload expands to the bytes that it stands for. -/
theorem expand_compress (level : Nat) (bytes : Bytes) :
    expand (compress level bytes) = .ok bytes := by
  unfold compress
  split
  · exact expand_storedBlocks bytes
  · exact expand_inBatches level bytes

end DeviceLog.Deflate
