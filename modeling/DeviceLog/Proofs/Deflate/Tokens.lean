import DeviceLog.Deflate.Compress
import DeviceLog.Proofs.Deflate.Repeats
import DeviceLog.Proofs.Deflate.Words

/-! # Tokens are read as they were written

* `Class.spans`: whether classes follow each other without a gap. `yields_classMember`: then every number up
  to the last one is read as it was written.
* `Code.Has code words symbol`: the word of the symbol is read as the symbol. `Codes.Serves` asks this of the
  symbols that tokens need; the fixed codes serve all tokens (`serves_fixedCodes`).
* `yields_contents`: what is written of tokens is read as the bytes that they stand for.
-/

namespace DeviceLog.Deflate

/-! ## Classes -/

/-- Whether classes follow each other without a gap, up to a greatest number. -/
def Class.spans (most : Nat) : List Class → Bool
  | [] => false
  | [c] => most < c.base + 2 ^ c.extra
  | c :: d :: rest => d.base ≤ c.base + 2 ^ c.extra && spans most (d :: rest)

theorem exists_class {most n : Nat} (hmost : n ≤ most) : ∀ {c : Class} {classes : List Class},
    c.base ≤ n → Class.spans most (c :: classes) = true →
      ∃ found, (c :: classes)[((c :: classes).takeWhile fun c => c.base ≤ n).length - 1]? = some found
        ∧ found.base ≤ n ∧ n - found.base < 2 ^ found.extra
  | c, [], hbase, hspans => by
    simp only [Class.spans, decide_eq_true_eq] at hspans
    exact ⟨c, by simp [hbase], hbase, by omega⟩
  | c, d :: rest, hbase, hspans => by
    simp only [Class.spans, Bool.and_eq_true, decide_eq_true_eq] at hspans
    by_cases hnext : d.base ≤ n
    · obtain ⟨found, hfound, hin⟩ := exists_class hmost hnext hspans.2
      refine ⟨found, ?_, hin⟩
      simpa [hbase, hnext] using hfound
    · exact ⟨c, by simp [hbase, hnext], hbase, by omega⟩

/-- A number is in the class that it is said to belong to. -/
theorem classOf_spec {classes : Array Class} {most n : Nat} (hspans : Class.spans most classes.toList = true)
    (hleast : (classes.getD 0 ⟨n + 1, 0⟩).base ≤ n) (hmost : n ≤ most) :
    ∃ c, classes[classOf classes n]? = some c ∧ c.base ≤ n ∧ n - c.base < 2 ^ c.extra := by
  obtain ⟨list⟩ := classes
  match list with
  | [] => simp [Class.spans] at hspans
  | c :: rest => simpa [classOf] using exists_class hmost (by simpa using hleast) hspans

theorem exists_lengthClass {length : Nat} (hleast : 3 ≤ length) (hmost : length ≤ 258) :
    ∃ c, lengthClasses[classOf lengthClasses length]? = some c ∧ c.base ≤ length ∧ length - c.base < 2 ^ c.extra :=
  classOf_spec (by decide) hleast hmost

theorem exists_distanceClass {distance : Nat} (hback : 1 ≤ distance) (hnear : distance ≤ 32768) :
    ∃ c, distanceClasses[classOf distanceClasses distance]? = some c ∧ c.base ≤ distance
      ∧ distance - c.base < 2 ^ c.extra :=
  classOf_spec (by decide) hback hnear

/-- The bits of the offset of a number in its class. -/
def offsetBits (classes : Array Class) (n : Nat) : List Bool :=
  let c := classes.getD (classOf classes n) ⟨n, 0⟩
  numberBits (n - c.base) c.extra

theorem yields_classMember {classes : Array Class} {n : Nat} {c : Class}
    (hc : classes[classOf classes n]? = some c) (hbase : c.base ≤ n) (hoffset : n - c.base < 2 ^ c.extra) :
    Yields (classMember classes (classOf classes n)) (offsetBits classes n) n := by
  have hbits : offsetBits classes n = numberBits (n - c.base) c.extra := by
    simp [offsetBits, Array.getD_eq_getD_getElem?, hc]
  rw [hbits, classMember, hc]
  refine (yields_number c.extra hoffset).bind_done ?_
  rw [Nat.add_sub_cancel' hbase]
  exact yields_done n

/-! ## Words that tokens need -/

/-- Whether the word of a symbol is read as the symbol. It has a bit at least. -/
def Code.Has (code : Code) (words : Array (List Bool)) (symbol : Nat) : Prop :=
  Yields code.read (words.getD symbol []) symbol ∧ 0 < (words.getD symbol []).length

/-- Whether codes have words for what a token needs. -/
def Codes.ServesToken (codes : Codes) : Token → Prop
  | .literal b => codes.literals.Has codes.words.literals b.toNat
  | .copy length distance =>
    codes.literals.Has codes.words.literals (257 + classOf lengthClasses length)
      ∧ codes.distances.Has codes.words.distances (classOf distanceClasses distance)

/-- Whether codes have words for what tokens need, and for the end of their block. -/
structure Codes.Serves (codes : Codes) (ts : List Token) : Prop where
  ends : codes.literals.Has codes.words.literals endOfBlock
  tokens : ∀ t ∈ ts, codes.ServesToken t

/-- Where lengths fit, a symbol with a length has a word. -/
theorem Code.Fits.has {lengths : List Nat} (h : Code.Fits lengths) {symbol bound : Nat}
    (hbound : lengths.length ≤ bound) (hsymbol : lengths.getD symbol 0 ≠ 0) :
    (Code.ofLengths lengths).Has ((Code.ofLengths lengths).words bound) symbol := by
  cases hget : lengths[symbol]? with
  | none => simp [hget] at hsymbol
  | some length =>
    have hlt : symbol < lengths.length := (List.getElem?_eq_some_iff.1 hget).1
    exact h.yields_word hget (by simpa [hget] using hsymbol) (by omega)

/-- Whether what a token needs has lengths. -/
def Token.Stated (literals distances : List Nat) : Token → Prop
  | .literal b => literals.getD b.toNat 0 ≠ 0
  | .copy length distance =>
    literals.getD (257 + classOf lengthClasses length) 0 ≠ 0
      ∧ distances.getD (classOf distanceClasses distance) 0 ≠ 0

theorem serves_ofLengths {literals distances : List Nat} (hliterals : Code.Fits literals)
    (hdistances : Code.Fits distances) (hbound : literals.length ≤ 288) (hbound' : distances.length ≤ 32)
    {ts : List Token} (hend : literals.getD endOfBlock 0 ≠ 0) (h : ∀ t ∈ ts, t.Stated literals distances) :
    (Codes.mk (.ofLengths literals) (.ofLengths distances)).Serves ts where
  ends := hliterals.has hbound hend
  tokens t hmem := by
    cases t with
    | literal b => exact hliterals.has hbound (h _ hmem)
    | copy length distance => exact ⟨hliterals.has hbound (h _ hmem).1, hdistances.has hbound' (h _ hmem).2⟩

/-! ## Tokens as bits -/

def Token.bits (words : Words) : Token → List Bool
  | .literal b => words.literals.getD b.toNat []
  | .copy length distance =>
    words.literals.getD (257 + classOf lengthClasses length) [] ++ offsetBits lengthClasses length
      ++ (words.distances.getD (classOf distanceClasses distance) [] ++ offsetBits distanceClasses distance)

/-- The bits of tokens and of the end of their block. -/
def blockBits (words : Words) (ts : List Token) : List Bool :=
  ts.flatMap (Token.bits words) ++ words.literals.getD endOfBlock []

theorem Packer.Holds.token {p : Packer} {bits : List Bool} (h : p.Holds bits) (words : Words) (t : Token) :
    (p.token words t).Holds (bits ++ t.bits words) := by
  have hmember : ∀ {p : Packer} {bits : List Bool} (classes : Array Class) (words : Array (List Bool))
      (first n : Nat), p.Holds bits → (p.member classes words first n).Holds
        (bits ++ (words.getD (first + classOf classes n) [] ++ offsetBits classes n)) := by
    intro p bits classes words first n h
    simpa [Packer.member, offsetBits] using (h.append _).append _
  cases t with
  | literal b => exact h.append _
  | copy length distance =>
    have hlength := hmember lengthClasses words.literals 257 length h
    have hdistance := hmember distanceClasses words.distances 0 distance hlength
    simpa [Packer.token, Token.bits] using hdistance

theorem Packer.Holds.tokens {p : Packer} {bits : List Bool} (h : p.Holds bits) (words : Words) (ts : Array Token) :
    (p.tokens words ts).Holds (bits ++ blockBits words ts.toList) := by
  have htokens : (ts.toList.foldl (Packer.token words) p).Holds (bits ++ ts.toList.flatMap (Token.bits words)) :=
    Packer.Holds.foldl (fun t _ _ _ h => h.token words t) h
  have hend := htokens.append (words.literals.getD endOfBlock [])
  rw [Array.foldl_toList, List.append_assoc] at hend
  exact hend

/-- Every token takes a bit at least, and so does the end of the block. -/
theorem length_lt_blockBits {codes : Codes} {ts : List Token} (h : codes.Serves ts) :
    ts.length < (blockBits codes.words ts).length := by
  have htokens : ∀ us : List Token, (∀ t ∈ us, codes.ServesToken t) →
      us.length ≤ (us.flatMap (Token.bits codes.words)).length := by
    intro us
    induction us with
    | nil => simp
    | cons t us ih =>
      intro hus
      obtain ⟨hfirst, hothers⟩ := List.forall_mem_cons.1 hus
      have hrest := ih hothers
      have hpos : 0 < (t.bits codes.words).length := by
        cases t with
        | literal b => exact hfirst.2
        | copy length distance =>
          have hword := hfirst.1.2
          simp only [Token.bits, List.length_append]
          omega
      simp only [List.flatMap_cons, List.length_append, List.length_cons]
      omega
  have hall := htokens ts h.tokens
  have hend := h.ends.2
  simp only [blockBits, List.length_append]
  omega

/-! ## Reading tokens -/

/-- What is written of tokens is read as the bytes that they stand for. -/
theorem yields_contents {codes : Codes} {ts : List Token} {out whole : Array UInt8} (h : Stands out ts whole)
    (hserves : codes.Serves ts) : ∀ turns : Nat, ts.length < turns →
      Yields (contents codes turns out) (blockBits codes.words ts) whole := by
  induction h with
  | @nil out =>
    intro turns hturns
    obtain ⟨turns, rfl⟩ := Nat.exists_eq_succ_of_ne_zero (Nat.ne_of_gt hturns)
    exact hserves.ends.1.bind_done (yields_done out)
  | @literal out whole b ts _ ih =>
    intro turns hturns
    obtain ⟨turns, rfl⟩ := Nat.exists_eq_succ_of_ne_zero (Nat.ne_of_gt (Nat.zero_lt_of_lt hturns))
    obtain ⟨hfirst, hothers⟩ := List.forall_mem_cons.1 hserves.tokens
    have hrest := ih ⟨hserves.ends, hothers⟩ turns (by simpa using hturns)
    have hbits : blockBits codes.words (.literal b :: ts)
        = codes.words.literals.getD b.toNat [] ++ blockBits codes.words ts := by
      simp [blockBits, Token.bits]
    rw [hbits, contents]
    refine hfirst.1.bind ?_
    rw [if_pos (show b.toNat < endOfBlock from b.toNat_lt), UInt8.ofNat_toNat]
    exact hrest
  | @copy out whole length distance ts hleast hmost hback hnear hwithin _ ih =>
    intro turns hturns
    obtain ⟨turns, rfl⟩ := Nat.exists_eq_succ_of_ne_zero (Nat.ne_of_gt (Nat.zero_lt_of_lt hturns))
    obtain ⟨⟨hlength, hdistance⟩, hothers⟩ := List.forall_mem_cons.1 hserves.tokens
    have hrest := ih ⟨hserves.ends, hothers⟩ turns (by simpa using hturns)
    obtain ⟨c, hc, hcbase, hcoffset⟩ := exists_lengthClass hleast hmost
    obtain ⟨d, hd, hdbase, hdoffset⟩ := exists_distanceClass hback hnear
    have hbits : blockBits codes.words (.copy length distance :: ts)
        = codes.words.literals.getD (257 + classOf lengthClasses length) []
          ++ (offsetBits lengthClasses length
            ++ (codes.words.distances.getD (classOf distanceClasses distance) []
              ++ (offsetBits distanceClasses distance ++ blockBits codes.words ts))) := by
      simp [blockBits, Token.bits]
    rw [hbits, contents]
    refine hlength.1.bind ?_
    have hsymbol : ¬257 + classOf lengthClasses length < endOfBlock := by simp only [endOfBlock]; omega
    have hsymbol' : ¬257 + classOf lengthClasses length = endOfBlock := by simp only [endOfBlock]; omega
    rw [if_neg hsymbol, if_neg hsymbol', Nat.add_sub_cancel_left]
    refine (yields_classMember hc hcbase hcoffset).bind (hdistance.1.bind
      ((yields_classMember hd hdbase hdoffset).bind ?_))
    rw [if_pos hwithin]
    exact hrest

/-! ## The fixed codes -/

theorem fits_fixedLiteralLengths : Code.Fits fixedLiteralLengths := ⟨by decide +kernel, by decide +kernel⟩

theorem fits_fixedDistanceLengths : Code.Fits fixedDistanceLengths := ⟨by decide, by decide +kernel⟩

/-- The codes of a block that states none have words for everything. -/
theorem serves_fixedCodes {ts : List Token} {out whole : Array UInt8} (h : Stands out ts whole) :
    fixedCodes.Serves ts := by
  have hliteral : ∀ symbol < 288, fixedLiteralLengths.getD symbol 0 ≠ 0 := by decide +kernel
  have hdistance : ∀ symbol < 32, fixedDistanceLengths.getD symbol 0 ≠ 0 := by decide +kernel
  refine serves_ofLengths fits_fixedLiteralLengths fits_fixedDistanceLengths (by decide +kernel) (by decide +kernel)
    (hliteral _ (by decide)) ?_
  induction h with
  | nil => simp
  | @literal out whole b ts _ ih =>
    have hlt := b.toNat_lt
    exact List.forall_mem_cons.2 ⟨hliteral _ (by omega), ih⟩
  | @copy out whole length distance ts hleast hmost hback hnear hwithin _ ih =>
    obtain ⟨c, hc, -⟩ := exists_lengthClass hleast hmost
    obtain ⟨d, hd, -⟩ := exists_distanceClass hback hnear
    have hlength := (Array.getElem?_eq_some_iff.1 hc).1
    have hdistance' := (Array.getElem?_eq_some_iff.1 hd).1
    have hsizes : lengthClasses.size = 29 ∧ distanceClasses.size = 30 := ⟨rfl, rfl⟩
    exact List.forall_mem_cons.2 ⟨⟨hliteral _ (by omega), hdistance _ (by omega)⟩, ih⟩

end DeviceLog.Deflate
