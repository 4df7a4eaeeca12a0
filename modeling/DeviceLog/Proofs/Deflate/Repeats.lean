import DeviceLog.Deflate.Expand
import DeviceLog.Deflate.Repeats
import DeviceLog.Proofs.Deflate.Stream

/-! # Tokens stand for the bytes that they are made of

* `Stands before ts whole`: literals and copies after the bytes `before` give the bytes `whole`, and every
  copy is one that can be written.
* `Found data i s`: a stretch of bytes at `i` is there a second time, so far back that a copy reaches it.
  `copyBack_front`: copying it takes the front of the data further.
* `stands_tokens`: both ways of looking for repeats give tokens that stand for the data.
-/

namespace DeviceLog.Deflate

/-! ## What tokens stand for -/

/-- The bytes that tokens give after the ones before them, where every copy is one that can be written. -/
inductive Stands : Array UInt8 → List Token → Array UInt8 → Prop
  | nil {out : Array UInt8} : Stands out [] out
  | literal {out whole : Array UInt8} {b : UInt8} {ts : List Token} :
      Stands (out.push b) ts whole → Stands out (.literal b :: ts) whole
  | copy {out whole : Array UInt8} {length distance : Nat} {ts : List Token} :
      3 ≤ length → length ≤ 258 → 1 ≤ distance → distance ≤ 32768 → distance ≤ out.size →
      Stands (copyBack distance length out) ts whole → Stands out (.copy length distance :: ts) whole

namespace Stands

variable {out middle whole : Array UInt8} {ts us : List Token}

theorem append (h : Stands out ts middle) (h' : Stands middle us whole) : Stands out (ts ++ us) whole := by
  induction h with
  | nil => exact h'
  | literal _ ih => exact .literal (ih h')
  | copy hleast hmost hback hnear hwithin _ ih => exact .copy hleast hmost hback hnear hwithin (ih h')

/-- Tokens stand for what the first of them give and the others after that. -/
theorem exists_middle (h : Stands out (ts ++ us) whole) : ∃ middle, Stands out ts middle ∧ Stands middle us whole := by
  induction ts generalizing out with
  | nil => exact ⟨out, .nil, h⟩
  | cons t ts ih =>
    cases h with
    | literal h =>
      obtain ⟨middle, hfirst, hothers⟩ := ih h
      exact ⟨middle, .literal hfirst, hothers⟩
    | copy hleast hmost hback hnear hwithin h =>
      obtain ⟨middle, hfirst, hothers⟩ := ih h
      exact ⟨middle, .copy hleast hmost hback hnear hwithin hfirst, hothers⟩

end Stands

/-- How many bytes a token stands for. -/
def Token.covers : Token → Nat
  | .literal _ => 1
  | .copy length _ => length

/-- A copy adds bytes behind those that are there, as many as it says. -/
theorem exists_copyBack {distance : Nat} (hback : 1 ≤ distance) (length : Nat) : ∀ out : Array UInt8,
    distance ≤ out.size → ∃ bytes : Bytes, copyBack distance length out = out ++ bytes ∧ bytes.length = length := by
  induction length with
  | zero => exact fun _ _ => ⟨[], by simp [copyBack], rfl⟩
  | succ length ih =>
    intro out hwithin
    have hlt : out.size - distance < out.size := by omega
    obtain ⟨bytes, hbytes, hlength⟩ := ih (out.push out[out.size - distance]) (by simp; omega)
    refine ⟨out[out.size - distance] :: bytes, ?_, by simp [hlength]⟩
    simp [copyBack, hlt, hbytes]

theorem Stands.exists_bytes {out whole : Array UInt8} {ts : List Token} (h : Stands out ts whole) :
    ∃ bytes : Bytes, whole = out ++ bytes ∧ bytes.length = (ts.map Token.covers).sum := by
  induction h with
  | nil => exact ⟨[], by simp, rfl⟩
  | @literal out whole b ts _ ih =>
    obtain ⟨bytes, rfl, hlength⟩ := ih
    exact ⟨b :: bytes, by simp, by simp [Token.covers, hlength]; omega⟩
  | @copy out whole length distance ts hleast hmost hback hnear hwithin _ ih =>
    obtain ⟨bytes, rfl, hlength⟩ := ih
    obtain ⟨copied, hcopied, hlength'⟩ := exists_copyBack hback length out hwithin
    refine ⟨copied ++ bytes, ?_, by simp [Token.covers, hlength, hlength']⟩
    rw [hcopied]
    exact Array.ext' (by simp)

namespace Repeats

/-! ## Stretches -/

/-- The first bytes of the data. -/
def front (data : Array UInt8) (i : Nat) : Array UInt8 := data.extract 0 i

theorem front_push {data : Array UInt8} {i : Nat} {b : UInt8} (h : data[i]? = some b) :
    (front data i).push b = front data (i + 1) := by
  obtain ⟨hlt, rfl⟩ := Array.getElem?_eq_some_iff.1 h
  simp [front, Array.push_extract_getElem]

/-- A stretch of bytes at a place that is there a second time, where a copy can reach it. -/
structure Found (data : Array UInt8) (i : Nat) (s : Stretch) : Prop where
  least : 3 ≤ s.length
  most : s.length ≤ 258
  back : 1 ≤ s.distance
  near : s.distance ≤ 32768
  within : s.distance ≤ i
  same : ∀ k < s.length, ∃ b, data[i - s.distance + k]? = some b ∧ data[i + k]? = some b

theorem Found.lt_size {data : Array UInt8} {i : Nat} {s : Stretch} (h : Found data i s) {k : Nat}
    (hk : k < s.length) : i + k < data.size := by
  obtain ⟨b, -, hget⟩ := h.same k hk
  exact (Array.getElem?_eq_some_iff.1 hget).1

theorem copyBack_front {data : Array UInt8} {distance : Nat} (hback : 1 ≤ distance) (length : Nat) : ∀ {i : Nat},
    distance ≤ i → (∀ k < length, ∃ b, data[i - distance + k]? = some b ∧ data[i + k]? = some b) →
      copyBack distance length (front data i) = front data (i + length) := by
  induction length with
  | zero => exact fun _ _ => rfl
  | succ length ih =>
    intro i hwithin hsame
    obtain ⟨b, hthere, hhere⟩ := hsame 0 (by omega)
    rw [Nat.add_zero] at hthere hhere
    have hlt : i < data.size := (Array.getElem?_eq_some_iff.1 hhere).1
    have hread : (front data i)[(front data i).size - distance]? = some b := by
      have hsize : (front data i).size = i := by simp [front]; omega
      rw [hsize, front, ← hthere]
      simp [Array.getElem?_extract]
      omega
    have hpush : copyBack distance (length + 1) (front data i) = copyBack distance length (front data (i + 1)) := by
      simp only [copyBack, hread, front_push hhere]
    rw [hpush, ih (by omega) fun k hk => ?_]
    · congr 1
      omega
    · obtain ⟨c, hthere', hhere'⟩ := hsame (k + 1) (by omega)
      exact ⟨c, by rw [← hthere']; congr 1; omega, by rw [← hhere']; congr 1; omega⟩

theorem lt_agreement {data : Array UInt8} : ∀ {bound i j k : Nat}, k < agreement data i j bound →
    ∃ b, data[i + k]? = some b ∧ data[j + k]? = some b
  | 0, _, _, _, h => by simp [agreement] at h
  | bound + 1, i, j, k, h => by
    rw [agreement] at h
    split at h
    · rename_i a b ha hb
      split at h
      · rename_i heq
        cases eq_of_beq heq
        cases k with
        | zero => exact ⟨a, ha, hb⟩
        | succ k =>
          obtain ⟨c, hi, hj⟩ := lt_agreement (k := k) (Nat.lt_of_succ_lt_succ h)
          exact ⟨c, by rw [← hi]; congr 1; omega, by rw [← hj]; congr 1; omega⟩
      · exact absurd h (Nat.not_lt_zero k)
    · exact absurd h (Nat.not_lt_zero k)

theorem agreement_le (data : Array UInt8) : ∀ bound i j, agreement data i j bound ≤ bound
  | 0, _, _ => Nat.le_refl 0
  | bound + 1, i, j => by
    have ih := agreement_le data bound (i + 1) (j + 1)
    rw [agreement]
    split
    · split <;> omega
    · omega

/-- A stretch that pays is found where its bytes agree with those at a place before. -/
theorem found_of_agreement {data : Array UInt8} {i j bound : Nat} {s : Stretch} (hpays : s.pays)
    (hdistance : s.distance = i - j) (hnear : s.distance ≤ maxDistance) (hbound : bound ≤ maxLength)
    (hlength : s.length ≤ agreement data j i bound) : Found data i s := by
  obtain ⟨hsome, hleast, -⟩ := of_decide_eq_true hpays
  have hmost := agreement_le data bound j i
  simp only [maxLength, maxDistance] at hbound hnear
  refine ⟨hleast, by omega, by omega, hnear, by omega, fun k hk => ?_⟩
  have hplace : i - s.distance = j := by omega
  rw [hplace]
  exact lt_agreement (Nat.lt_of_lt_of_le hk hlength)

/-! ## Tokens so far -/

variable {data : Array UInt8} {i : Nat} {out : Array Token}

theorem stands_literal {b : UInt8} (hget : data[i]? = some b) (h : Stands #[] out.toList (front data i)) :
    Stands #[] (out.push (.literal b)).toList (front data (i + 1)) := by
  rw [Array.toList_push]
  refine h.append (.literal ?_)
  rw [front_push hget]
  exact .nil

theorem stands_copy {s : Stretch} (hs : Found data i s) (h : Stands #[] out.toList (front data i)) :
    Stands #[] (out.push (.copy s.length s.distance)).toList (front data (i + s.length)) := by
  have hsize : (front data i).size = i := by
    have hlt := hs.lt_size (k := 0) (by have := hs.least; omega)
    simp [front]
    omega
  rw [Array.toList_push]
  refine h.append (.copy hs.least hs.most hs.back hs.near (by rw [hsize]; exact hs.within) ?_)
  rw [copyBack_front hs.back s.length hs.within hs.same]
  exact .nil

theorem stands_whole (hi : data.size ≤ i) (h : Stands #[] out.toList (front data i)) :
    Stands #[] out.toList data := by
  have hall : front data i = data := by simp [front, Array.extract_eq_self_of_le hi]
  rwa [hall] at h

/-! ## Looking at one place -/

theorem stands_quickFrom (data : Array UInt8) : ∀ (turns i : Nat) (latest : Array Nat) (out : Array Token),
    data.size ≤ i + turns → Stands #[] out.toList (front data i) →
      Stands #[] (quickFrom data turns i latest out).toList data
  | 0, i, _, out, hturns, h => stands_whole hturns h
  | turns + 1, i, latest, out, hturns, h => by
    have ih := stands_quickFrom data turns
    rw [quickFrom]
    cases hget : data[i]? with
    | none => exact stands_whole (by simpa using hget) h
    | some b =>
      have hliteral := stands_literal hget h
      simp only
      split
      · exact ih _ _ _ (by omega) hliteral
      · split
        · split
          · rename_i hreach hpays
            have hfound : Found data i ⟨agreement data (latest.getD (slotOf data i) 0) i _, _⟩ :=
              found_of_agreement hpays rfl (by simp only [maxDistance] at hreach ⊢; omega) (Nat.min_le_right _ _)
                (Nat.le_refl _)
            have hleast := hfound.least
            exact ih _ _ _ (by simp only at hleast; omega) (stands_copy hfound h)
          · exact ih _ _ _ (by omega) hliteral
        · split
          · rename_i hpays
            simp [Stretch.pays, minLength] at hpays
          · exact ih _ _ _ (by omega) hliteral

/-! ## Trying places -/

namespace Search

/-- A stretch of a search: none, or one within reach whose bytes agree with those at the place. -/
def Has (s : Search) (best : Stretch) : Prop :=
  best.distance = 0 ∨ best.distance ≤ s.reach
    ∧ best.length ≤ agreement s.data (s.place - best.distance) s.place s.room

theorem has_next {s : Search} {next : Nat} (hreach : s.place - next ≤ s.reach) :
    s.Has ⟨agreement s.data next s.place s.room, s.place - next⟩ := by
  by_cases hnext : next < s.place
  · have hplace : s.place - (s.place - next) = next := by omega
    exact .inr ⟨hreach, by simp [hplace]⟩
  · exact .inl (by simp; omega)

theorem has_improve {s : Search} : ∀ {turns tries steps j : Nat} {best : Stretch}, s.Has best →
    s.Has (s.improve turns tries steps j best)
  | 0, _, _, _, _, h => h
  | turns + 1, tries, 0, j, best, h => by
    rw [improve]
    split
    · exact h
    · exact has_improve h
  | turns + 1, tries, steps + 1, j, best, h => by
    rw [improve]
    simp only
    split
    · exact h
    · rename_i hgoes
      have hnext : s.Has ⟨agreement s.data (s.earlier.getD j 0) s.place s.room, s.place - s.earlier.getD j 0⟩ :=
        has_next (by omega)
      split
      · split
        · split
          · exact hnext
          · exact has_improve hnext
        · exact has_improve h
      · exact has_improve h

end Search

/-- The stretch that is found at a place is there, if it pays. -/
theorem found_bestAt {data earlier : Array _} {level i length : Nat}
    (hpays : (bestAt data earlier level i length).pays) : Found data i (bestAt data earlier level i length) := by
  obtain ⟨hsome, -, -⟩ := of_decide_eq_true hpays
  have hhas : Search.Has ⟨data, earlier, i, min i (maxDistance - min (data.size - i) maxLength),
      min (data.size - i) maxLength⟩ (bestAt data earlier level i length) := by
    simp only [bestAt, Search.beyond]
    split
    · exact .inl rfl
    · exact Search.has_improve (.inl rfl)
  obtain hnone | ⟨hreach, hlength⟩ := hhas
  · exact absurd hnone hsome
  · simp only at hreach hlength
    exact found_of_agreement hpays (by omega) (by omega) (Nat.min_le_right _ _) hlength

/-- What the tokens so far stand for: all bytes before a place, or all but the one before it, where a stretch
begins that has been put off. -/
def Reached (data : Array UInt8) (i : Nat) (out : Array Token) : Option Pending → Prop
  | none => Stands #[] out.toList (front data i)
  | some p => ∃ before, i = before + 1 ∧ data[before]? = some p.byte ∧ Found data before p.stretch
      ∧ Stands #[] out.toList (front data before)

theorem stands_searchedFrom (data : Array UInt8) (earlier : Array Nat) (level : Nat) (patient : Bool) :
    ∀ (turns i : Nat) (pending : Option Pending) (out : Array Token), data.size ≤ i + turns →
      Reached data i out pending →
        Stands #[] (searchedFrom data earlier level patient turns i pending out).toList data
  | 0, i, none, out, hturns, h => stands_whole hturns h
  | 0, i, some p, out, hturns, ⟨before, hi, _, hfound, _⟩ => by
    have hlt := hfound.lt_size (k := 1) (by have := hfound.least; omega)
    omega
  | turns + 1, i, none, out, hturns, h => by
    have ih := stands_searchedFrom data earlier level patient turns
    rw [searchedFrom]
    cases hget : data[i]? with
    | none => exact stands_whole (by simpa using hget) h
    | some b =>
      simp only
      split
      · exact ih _ _ _ (by omega) (stands_literal hget h)
      · rename_i hpays
        have hfound := found_bestAt (Decidable.not_not.1 hpays)
        have hleast := hfound.least
        split
        · exact ih _ _ _ (by omega) (stands_copy hfound h)
        · exact ih _ _ _ (by omega) ⟨i, rfl, hget, hfound, h⟩
  | turns + 1, i, some p, out, hturns, ⟨before, hi, hbyte, hbefore, h⟩ => by
    have ih := stands_searchedFrom data earlier level patient turns
    have hlt := hbefore.lt_size (k := 1) (by have := hbefore.least; omega)
    have hliteral := stands_literal hbyte h
    rw [← hi] at hliteral
    rw [searchedFrom]
    cases hget : data[i]? with
    | none => simp at hget; omega
    | some b =>
      simp only
      split
      · rename_i hbetter
        have hfound := found_bestAt hbetter.1
        have hleast := hfound.least
        split
        · exact ih _ _ _ (by omega) (stands_copy hfound hliteral)
        · exact ih _ _ _ (by omega) ⟨i, rfl, hget, hfound, hliteral⟩
      · have hleast := hbefore.least
        have hcopy := stands_copy hbefore h
        rw [show before + p.stretch.length = i + (p.stretch.length - 1) by omega] at hcopy
        exact ih _ _ _ (by omega) hcopy

/-! ## Levels -/

/-- The tokens of a byte string stand for it, at every level. -/
theorem stands_tokens (level : Nat) (data : Array UInt8) : Stands #[] (tokens level data).toList data := by
  have hnothing : Stands #[] (#[] : Array Token).toList (front data 0) := by
    simpa [front] using Stands.nil
  unfold tokens
  split
  · exact stands_quickFrom data data.size 0 _ _ (by omega) hnothing
  · exact stands_searchedFrom data _ level _ data.size 0 none _ (by omega) hnothing

end Repeats

end DeviceLog.Deflate
