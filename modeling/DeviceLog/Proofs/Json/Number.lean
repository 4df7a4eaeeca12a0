import DeviceLog.Json.Decode
import DeviceLog.Proofs.Json.Spelling
import Mathlib.Data.List.TakeDrop

/-! # Whole numbers are read as they were written

* `Numeral.ofInt n`: the numeral that a number is written as. `Numeral.value_ofInt` is its value.
* `apart_integer`: a rendered number is one token where no number goes on after it.
* `unsigned_ofInt` and `signed_ofInt`: a number that fits in 64 bits is read back from its token.
-/

namespace DeviceLog.Json

/-! ## Digits -/

namespace Numeral

/-- The digits of a number. Its last digit comes off the end. -/
def digitsOf (n : Nat) : List Nat := if n < 10 then [n] else digitsOf (n / 10) ++ [n % 10]

theorem digitsOf_of_lt {n : Nat} (h : n < 10) : digitsOf n = [n] := by
  rw [digitsOf, if_pos h]

theorem digitsOf_of_le {n : Nat} (h : ¬n < 10) : digitsOf n = digitsOf (n / 10) ++ [n % 10] := by
  rw [digitsOf, if_neg h]

/-- A property of the digits of all numbers, from one digit to one more. -/
theorem digits_induction {motive : Nat → Prop} (one : ∀ n, n < 10 → motive n)
    (more : ∀ n, ¬n < 10 → motive (n / 10) → motive n) (n : Nat) : motive n := by
  induction n using Nat.strongRecOn with
  | ind n ih =>
    by_cases h : n < 10
    · exact one n h
    · exact more n h (ih (n / 10) (by omega))

theorem digitsOf_ne_nil (n : Nat) : digitsOf n ≠ [] := by
  by_cases h : n < 10
  · rw [digitsOf_of_lt h]
    exact List.cons_ne_nil _ _
  · rw [digitsOf_of_le h]
    exact List.append_ne_nil_of_right_ne_nil _ (List.cons_ne_nil _ _)

theorem lt_of_mem_digitsOf (n : Nat) : ∀ d ∈ digitsOf n, d < 10 := by
  induction n using digits_induction with
  | one n h =>
    rw [digitsOf_of_lt h]
    simpa using h
  | more n h ih =>
    rw [digitsOf_of_le h]
    intro d hd
    rcases List.mem_append.1 hd with hd | hd
    · exact ih d hd
    · rw [List.mem_singleton.1 hd]
      exact Nat.mod_lt _ (by decide)

/-- No number but zero is written with a zero in front. -/
theorem head?_digitsOf {n : Nat} (hn : n ≠ 0) : (digitsOf n).head? ≠ some 0 := by
  induction n using digits_induction with
  | one n h =>
    rw [digitsOf_of_lt h]
    simpa using hn
  | more n h ih =>
    obtain ⟨first, others, hcons⟩ := List.exists_cons_of_ne_nil (digitsOf_ne_nil (n / 10))
    have hfirst := ih (by omega)
    rw [hcons] at hfirst
    rw [digitsOf_of_le h, hcons]
    exact hfirst

theorem encodeChar_digitChar {d : Nat} (h : d < 10) : Utf8.encodeChar d.digitChar = [UInt8.ofNat (0x30 + d)] := by
  revert d
  decide

theorem encode_toString (n : Nat) :
    Utf8.encode (toString n) = (digitsOf n).map fun d => UInt8.ofNat (0x30 + d) := by
  have hdigits : ∀ n, (Nat.toDigits 10 n).flatMap Utf8.encodeChar
      = (digitsOf n).map fun d => UInt8.ofNat (0x30 + d) := by
    intro n
    induction n using digits_induction with
    | one n h =>
      rw [Nat.toDigits_of_lt_base h, digitsOf_of_lt h]
      simp [encodeChar_digitChar h]
    | more n h ih =>
      rw [Nat.toDigits_of_base_le (by decide) (by omega), digitsOf_of_le h, List.flatMap_append, ih,
        List.map_append]
      simp [encodeChar_digitChar (Nat.mod_lt n (show 0 < 10 by decide))]
  rw [← hdigits, Nat.toString_eq_repr, Nat.repr_eq_ofList_toDigits, Utf8.encode, String.toList_ofList]

theorem gather_concat {d m : Nat} : ∀ {digits : List Nat} {significand : Nat},
    gather significand digits = (m, digits.length) → m * 10 + d < bound →
      gather significand (digits ++ [d]) = (m * 10 + d, digits.length + 1)
  | [], significand, h, hlt => by
    cases h
    rw [List.nil_append, gather, if_pos hlt]
    rfl
  | first :: digits, significand, h, hlt => by
    rw [gather] at h
    rw [List.cons_append, gather]
    split at h
    · rename_i hfirst
      simp only [List.length_cons, Prod.mk.injEq, Nat.add_right_cancel_iff] at h
      have hrest : gather (significand * 10 + first) digits = (m, digits.length) := Prod.ext h.1 h.2
      rw [if_pos hfirst, gather_concat hrest hlt]
      rfl
    · cases h

/-- All digits of a number below the bound are kept. -/
theorem gather_digitsOf {n : Nat} (h : n < bound) : gather 0 (digitsOf n) = (n, (digitsOf n).length) := by
  induction n using digits_induction with
  | one n hlt =>
    rw [digitsOf_of_lt hlt, gather, if_pos (by omega)]
    simp [gather]
  | more n hle ih =>
    have hn : n / 10 * 10 + n % 10 = n := by omega
    rw [digitsOf_of_le hle, gather_concat (ih (by omega)) (by omega), hn, List.length_append]
    rfl

/-- The numeral that a number is written as. -/
def ofInt (n : Int) : Numeral := { negative := decide (n < 0), whole := digitsOf n.natAbs }

/-- Numbers of 64 bits, with a sign or without one, are integers. -/
theorem value_ofInt {n : Int} (hlow : -0x8000000000000000 ≤ n) (hhigh : n < bound) :
    (ofInt n).value = some (.integer n) := by
  have hbound : bound = 0x10000000000000000 := rfl
  have hgather : gather 0 (digitsOf n.natAbs) = (n.natAbs, (digitsOf n.natAbs).length) :=
    gather_digitsOf (by omega)
  simp only [value, ofInt, hgather, Nat.sub_self, if_true]
  by_cases hn : n < 0
  · rw [if_pos (decide_eq_true hn), if_pos (by omega)]
    have habs : -(n.natAbs : Int) = n := by omega
    rw [habs]
  · rw [if_neg (by simp [hn])]
    have habs : (n.natAbs : Int) = n := by omega
    rw [habs]

end Numeral

/-! ## Tokens -/

namespace Token

theorem isDigit_ofNat {d : Nat} (h : d < 10) : isDigit (UInt8.ofNat (0x30 + d)) = true := by
  revert d
  decide

theorem digits_append {ds : List Nat} (hds : ∀ d ∈ ds, d < 10) {rest : Bytes} (h : EndNumber rest) :
    digits ((ds.map fun d => UInt8.ofNat (0x30 + d)) ++ rest) = (ds, rest) := by
  have htake : rest.takeWhile isDigit = [] ∧ rest.dropWhile isDigit = rest := by
    cases rest with
    | nil => exact ⟨rfl, rfl⟩
    | cons b rest =>
      have hb := (h b rfl).1
      exact ⟨by rw [List.takeWhile_cons, hb]; rfl, by rw [List.dropWhile_cons, hb]; rfl⟩
  have hall : ∀ b ∈ ds.map fun d => UInt8.ofNat (0x30 + d), isDigit b = true :=
    List.forall_mem_map.2 fun d hd => isDigit_ofNat (hds d hd)
  have hvalues : ((ds.map fun d => UInt8.ofNat (0x30 + d)).map fun b => b.toNat - 0x30) = ds := by
    rw [List.map_map]
    refine (List.map_congr_left fun d hd => ?_).trans (List.map_id ds)
    have hd' := hds d hd
    show (UInt8.ofNat (0x30 + d)).toNat - 0x30 = d
    rw [Utf8.toNat_ofNat_of_lt (by omega), Nat.add_sub_cancel_left]
  simp only [digits, List.span_eq_takeWhile_dropWhile]
  rw [List.takeWhile_append_of_pos hall, List.dropWhile_append_of_pos hall, htake.1, htake.2, List.append_nil,
    hvalues]

theorem fraction_of_endNumber {rest : Bytes} (h : EndNumber rest) : fraction rest = some (none, rest) := by
  unfold fraction
  split
  · exact absurd rfl (h _ rfl).2.1
  · rfl

theorem exponent_of_endNumber {rest : Bytes} (h : EndNumber rest) : exponent rest = some (none, rest) := by
  cases rest with
  | nil => rfl
  | cons b rest =>
    obtain ⟨-, -, he, hE⟩ := h b rfl
    simp only [exponent]
    rw [if_neg (by simp [he, hE])]

theorem numeral_digitsOf (negative : Bool) (n : Nat) {rest : Bytes} (h : EndNumber rest) :
    numeral negative (Utf8.encode (toString n) ++ rest) = some (⟨negative, Numeral.digitsOf n, none, none⟩, rest) := by
  have hzero : Numeral.digitsOf n ≠ []
      ∧ ((Numeral.digitsOf n).head? ≠ some 0 ∨ (Numeral.digitsOf n).length = 1) := by
    refine ⟨Numeral.digitsOf_ne_nil n, ?_⟩
    by_cases hn : n = 0
    · subst hn
      exact .inr (by rw [Numeral.digitsOf_of_lt (by decide)]; rfl)
    · exact .inl (Numeral.head?_digitsOf hn)
  rw [Numeral.encode_toString]
  unfold numeral guard
  rw [digits_append (Numeral.lt_of_mem_digitsOf n) h]
  dsimp only
  rw [if_pos hzero]
  simp only [Option.pure_def, Option.bind_eq_bind, Option.bind_some, fraction_of_endNumber h, exponent_of_endNumber h]

theorem spelled_digitsOf (n : Nat) {tokens : List Token} {rest : Bytes} (hrest : EndNumber rest)
    (h : Spelled tokens rest) :
    Spelled (number { whole := Numeral.digitsOf n } :: tokens) (Utf8.encode (toString n) ++ rest) := by
  have hnumeral := numeral_digitsOf false n hrest
  obtain ⟨first, others, hcons⟩ := List.exists_cons_of_ne_nil (Numeral.digitsOf_ne_nil n)
  have hfirst := Numeral.lt_of_mem_digitsOf n first (by rw [hcons]; exact List.mem_cons_self)
  rw [Numeral.encode_toString, hcons, List.map_cons, List.cons_append] at hnumeral ⊢
  -- The first digit is no blank and begins no other token.
  have hbyte : isSpace (UInt8.ofNat (0x30 + first)) = false ∧ ∀ bytes,
      next (UInt8.ofNat (0x30 + first)) bytes
        = (numeral false (UInt8.ofNat (0x30 + first) :: bytes)).map fun found => (number found.1, found.2) := by
    clear hnumeral hcons
    have hmarks : ∀ d < 10, isSpace (UInt8.ofNat (0x30 + d)) = false ∧ UInt8.ofNat (0x30 + d) ≠ 0x7B
        ∧ UInt8.ofNat (0x30 + d) ≠ 0x7D ∧ UInt8.ofNat (0x30 + d) ≠ 0x5B ∧ UInt8.ofNat (0x30 + d) ≠ 0x5D
        ∧ UInt8.ofNat (0x30 + d) ≠ 0x2C ∧ UInt8.ofNat (0x30 + d) ≠ 0x3A ∧ UInt8.ofNat (0x30 + d) ≠ 0x22
        ∧ UInt8.ofNat (0x30 + d) ≠ 0x2D := by decide
    obtain ⟨hspace, h₁, h₂, h₃, h₄, h₅, h₆, h₇, h₈⟩ := hmarks first hfirst
    refine ⟨hspace, fun bytes => ?_⟩
    unfold next
    rw [if_neg h₁, if_neg h₂, if_neg h₃, if_neg h₄, if_neg h₅, if_neg h₆, if_neg h₇, if_neg h₈,
      if_pos (isDigit_ofNat hfirst)]
  refine .token hbyte.1 ?_ ?_ h
  · rw [hbyte.2, hnumeral]
    rfl
  · rw [List.length_append]
    exact Nat.le_add_left _ _

/-- A rendered number is one token where no number goes on after it. -/
theorem spelled_number (n : Int) {tokens : List Token} {rest : Bytes} (hrest : EndNumber rest)
    (h : Spelled tokens rest) :
    Spelled (number (.ofInt n) :: tokens) (Utf8.encode (toString n) ++ rest) := by
  cases n with
  | ofNat n => exact spelled_digitsOf n hrest h
  | negSucc n =>
    have hbytes : Utf8.encode (toString (Int.negSucc n)) ++ rest
        = 0x2D :: (Utf8.encode (toString (n + 1)) ++ rest) := by
      show Utf8.encode ("-" ++ toString (n + 1)) ++ rest = _
      rw [Utf8.encode_append]
      rfl
    have hnext : next 0x2D (Utf8.encode (toString (n + 1)) ++ rest)
        = some (number (.ofInt (Int.negSucc n)), rest) := by
      show (numeral true _).map _ = _
      rw [numeral_digitsOf true (n + 1) hrest, Numeral.ofInt, decide_eq_true (Int.negSucc_lt_zero n)]
      rfl
    rw [hbytes]
    refine .token (by decide) hnext ?_ h
    rw [List.length_append]
    exact Nat.le_add_left _ _

end Token

/-! ## Values -/

theorem apart_integer (n : Int) : Renders.Apart (Value.integer n).render [.number (.ofInt n)] :=
  ⟨fun hrest hmore => Token.spelled_number n hrest hmore⟩

/-! ## Reading -/

theorem integer_ofInt {n low high : Int} (wanted : Wanted) (hlow : low ≤ n) (hhigh : n ≤ high)
    (hleast : -0x8000000000000000 ≤ low) (hmost : high < Numeral.bound) (rest : List Token) :
    Decoder.integer wanted low high (.number (.ofInt n) :: rest) = (.ok n, rest) := by
  simp only [Decoder.integer, Numeral.value_ofInt (Int.le_trans hleast hlow) (Int.lt_of_le_of_lt hhigh hmost)]
  rw [if_pos ⟨hlow, hhigh⟩]

/-- A number without a sign that fits in 64 bits is read back. -/
theorem unsigned_ofInt (v : UInt64) (rest : List Token) :
    Decoder.unsigned (.number (.ofInt v.toNat) :: rest) = (.ok v, rest) := by
  have hlt := v.toNat_lt
  have hlow : (0 : Int) ≤ v.toNat := Int.natCast_nonneg _
  have hhigh : (v.toNat : Int) ≤ UInt64.size - 1 := by
    simp only [UInt64.size]
    omega
  have hinteger := integer_ofInt .unsigned hlow hhigh (by decide) (by decide) rest
  rw [Decoder.unsigned, Action.bind_of_ok hinteger]
  simp

/-- A number with a sign that fits in 64 bits is read back. -/
theorem signed_ofInt (v : Int64) (rest : List Token) :
    Decoder.signed (.number (.ofInt v.toInt) :: rest) = (.ok v, rest) := by
  have hinteger := integer_ofInt .signed v.minValue_le_toInt v.toInt_le (by decide) (by decide) rest
  rw [Decoder.signed, Action.bind_of_ok hinteger]
  simp

end DeviceLog.Json
