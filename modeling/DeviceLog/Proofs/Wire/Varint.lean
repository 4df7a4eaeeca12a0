import DeviceLog.Proofs.Wire.Exact
import Mathlib.Data.Nat.Digits.Defs

/-! # What a number may look like

A number is written in one way and may be read from many: zeros may be put behind its groups, and what
exceeds 64 bits is dropped.

* `Varint.Groups` and `Varint.Spelled` say which bytes are a number, and which number they are.
* `Varint.reads_iff`, `Wire.reads_length_iff`: the readers take exactly these bytes.
* `Varint.decode_outcome` says of any bytes what is read of them, with `Varint.value` for the number that
  groups make, and that no number is read from fewer bytes than it is written with.
-/

namespace DeviceLog

namespace Varint

/-- Bytes that are groups of seven bits, lowest first, and the natural number that they stand for. All
bytes but the last have their high bit set. -/
inductive Groups : Bytes → Nat → Prop
  | last {b : UInt8} : b < 128 → Groups [b] b.toNat
  | more {b : UInt8} {bytes : Bytes} {n : Nat} :
      ¬b < 128 → Groups bytes n → Groups (b :: bytes) (b.toNat - 128 + 128 * n)

/-- Bytes that are a number: ten groups at most, of which the lowest 64 bits count. -/
def Spelled (n : Int64) (bytes : Bytes) : Prop :=
  ∃ m, Groups bytes m ∧ bytes.length ≤ 10 ∧ n = unfold (m % 2 ^ 64)

theorem Groups.reads {bytes : Bytes} {n : Nat} (h : Groups bytes n) :
    ∀ {budget : Nat}, bytes.length ≤ budget → Wire.Reads (readGroups budget) bytes n := by
  induction h with
  | @last b hb =>
    intro budget hlength
    cases budget with
    | zero => exact absurd hlength (Nat.not_succ_le_zero 0)
    | succ budget => exact Wire.reads_lastGroup hb budget
  | @more b bytes n hb _ ih =>
    intro budget hlength
    rw [List.length_cons] at hlength
    cases budget with
    | zero => exact absurd hlength (Nat.not_succ_le_zero _)
    | succ budget => exact (ih (Nat.le_of_succ_le_succ hlength)).group hb

theorem exists_groups {n : Nat} {rest : Bytes} : ∀ {budget : Nat} {bytes : Bytes},
    readGroups budget bytes = (.ok n, rest) →
      ∃ front, bytes = front ++ rest ∧ Groups front n ∧ front.length ≤ budget
  | 0, _, h => by cases h
  | budget + 1, [], h => by cases h
  | budget + 1, b :: bytes, h => by
    simp only [readGroups] at h
    split at h
    · rename_i hb
      cases h
      exact ⟨[b], rfl, .last hb, Nat.succ_le_succ (Nat.zero_le budget)⟩
    · rename_i hb
      split at h
      · rename_i m left hmore
        cases h
        obtain ⟨front, rfl, hgroups, hlength⟩ := exists_groups hmore
        exact ⟨b :: front, rfl, .more hb hgroups, Nat.succ_le_succ hlength⟩
      · cases h

/-- Numbers are read from the bytes that are numbers, and from no others. -/
theorem reads_iff {n : Int64} {bytes : Bytes} : Wire.Reads decode bytes n ↔ Spelled n bytes := by
  constructor
  · intro h
    obtain ⟨m, rest, hread, hdone⟩ := Action.bind_eq_ok h.alone
    cases hdone
    obtain ⟨front, rfl, hgroups, hlength⟩ := exists_groups hread
    rw [List.append_nil]
    exact ⟨m, hgroups, hlength, rfl⟩
  · rintro ⟨m, hgroups, hlength, rfl⟩
    exact (hgroups.reads hlength).bind_done fun rest => rfl

/-! ## Any bytes -/

/-- The number that the low seven bits of bytes make, those of the first byte lowest. -/
def value (bytes : Bytes) : Nat := Nat.ofDigits 128 (bytes.map fun b => b.toNat % 128)

@[simp] theorem value_nil : value [] = 0 := rfl

@[simp] theorem value_cons (b : UInt8) (bytes : Bytes) :
    value (b :: bytes) = b.toNat % 128 + 128 * value bytes := by
  simp [value, Nat.ofDigits_cons]

theorem value_lt (bytes : Bytes) : value bytes < 128 ^ bytes.length := by
  induction bytes with
  | nil => simp
  | cons b bytes ih =>
    have hb : b.toNat % 128 < 128 := Nat.mod_lt _ (by decide)
    rw [value_cons, List.length_cons, Nat.pow_succ]
    omega

theorem toNat_lt_of_lt {b : UInt8} (h : b < 128) : b.toNat < 128 := UInt8.lt_iff_toNat_lt.1 h

theorem le_toNat_of_not_lt {b : UInt8} (h : ¬b < 128) : 128 ≤ b.toNat := by
  rw [UInt8.lt_iff_toNat_lt] at h
  exact Nat.not_lt.1 h

theorem readGroups_eq (budget : Nat) : ∀ bytes : Bytes, readGroups budget bytes =
    match (bytes.take budget).findIdx? (· < 128) with
    | some k => (.ok (value (bytes.take (k + 1))), bytes.drop (k + 1))
    | none =>
      if budget ≤ bytes.length then (.error (.malformed .longVarint), bytes.drop budget)
      else (.error .endOfData, []) := by
  induction budget with
  | zero => intro bytes; simp [readGroups]
  | succ budget ih =>
    intro bytes
    cases bytes with
    | nil => simp [readGroups]
    | cons b bytes =>
      rw [List.take_succ_cons, List.findIdx?_cons]
      by_cases hb : b < 128
      · simp [readGroups, hb, Nat.mod_eq_of_lt (toNat_lt_of_lt hb)]
      · have hlow : b.toNat - 128 = b.toNat % 128 := by
          have hle := le_toNat_of_not_lt hb
          have hlt := b.toNat_lt
          omega
        simp only [readGroups, if_neg hb, ih, decide_eq_false hb]
        cases (bytes.take budget).findIdx? (· < 128) with
        | some k => simp [hlow]
        | none => by_cases hlength : budget ≤ bytes.length <;> simp [hlength]

/-! ## The fewest bytes -/

theorem Groups.eq_value {bytes : Bytes} {n : Nat} (h : Groups bytes n) : n = value bytes := by
  induction h with
  | last hb => simp [Nat.mod_eq_of_lt (toNat_lt_of_lt hb)]
  | @more b bytes n hb _ ih =>
    have hle := le_toNat_of_not_lt hb
    have hlt := b.toNat_lt
    rw [value_cons, ← ih]
    omega

/-- A number is not written with more groups than it may be read from. -/
theorem Groups.length_groups_le {bytes : Bytes} {n : Nat} (h : Groups bytes n) :
    (groups n).length ≤ bytes.length := by
  induction h with
  | last hb =>
    rw [groups, if_pos (toNat_lt_of_lt hb)]
    exact Nat.le_refl _
  | @more b bytes n hb _ ih =>
    rw [groups, List.length_cons]
    split
    · exact Nat.succ_le_succ (Nat.zero_le _)
    · have hlt := b.toNat_lt
      have hrest : (b.toNat - 128 + 128 * n) / 128 = n := by omega
      rw [hrest, List.length_cons]
      exact Nat.succ_le_succ ih

theorem fold_unfold {n : Nat} (h : n < 2 ^ 64) : fold (unfold n) = n := by
  unfold unfold
  split
  · have hn : (Int64.ofInt (n / 2)).toInt = n / 2 := Int64.toInt_ofInt_of_le (by omega) (by omega)
    rw [fold, hn, if_pos (by omega)]
    omega
  · have hn : (Int64.ofInt (-(n / 2 : Nat) - 1)).toInt = -(n / 2 : Nat) - 1 :=
      Int64.toInt_ofInt_of_le (by omega) (by omega)
    rw [fold, hn, if_neg (by omega)]
    omega

theorem fold_eq_iff (n : Int64) (m : Nat) : fold n = m % 2 ^ 64 ↔ n = unfold (m % 2 ^ 64) := by
  constructor
  · intro h
    rw [← h, Wire.unfold_fold]
  · rintro rfl
    exact fold_unfold (Nat.mod_lt _ (by decide))

theorem length_encode_le_of_decode {n : Int64} {bytes rest : Bytes} (h : decode bytes = (.ok n, rest)) :
    (encode n).length + rest.length ≤ bytes.length := by
  obtain ⟨m, left, hread, hdone⟩ := Action.bind_eq_ok h
  cases hdone
  obtain ⟨front, rfl, hgroups, hlength⟩ := exists_groups hread
  rw [List.length_append]
  apply Nat.add_le_add_right
  by_cases hten : front.length = maxBytes
  · rw [hten]
    exact Wire.length_encode_le _
  · -- Fewer groups than ten have no bits to be dropped.
    have hshort : front.length ≤ 9 := Nat.le_of_lt_succ (Nat.lt_of_le_of_ne hlength hten)
    have hm : m < 2 ^ 64 := by
      rw [hgroups.eq_value]
      apply Nat.lt_of_lt_of_le (value_lt front)
      exact Nat.le_trans (Nat.pow_le_pow_right (by decide) hshort) (by decide)
    rw [encode, show m % UInt64.size = m from Nat.mod_eq_of_lt hm, fold_unfold hm]
    exact hgroups.length_groups_le

/-- Of any bytes the first one below 128 among ten is looked for. If there is one, the number that the groups
up to it make is read, of which the lowest 64 bits are unfolded, and what follows is left. If there is none,
ten bytes are too many and fewer are too few. Unfolding is the inverse of folding. What is written for a
number has between one and ten bytes and is read as this number, whatever follows it; and wherever the number
is read, at least as many bytes are taken. -/
theorem decode_outcome :
    (∀ bytes : Bytes, decode bytes =
      match (bytes.take 10).findIdx? (· < 128) with
      | some k => (.ok (unfold (value (bytes.take (k + 1)) % 2 ^ 64)), bytes.drop (k + 1))
      | none =>
        if 10 ≤ bytes.length then (.error (.malformed .longVarint), bytes.drop 10)
        else (.error .endOfData, []))
    ∧ (∀ (n : Int64) (m : Nat), fold n = m % 2 ^ 64 ↔ n = unfold (m % 2 ^ 64))
    ∧ ∀ n : Int64, 1 ≤ (encode n).length ∧ (encode n).length ≤ 10
      ∧ (∀ rest, decode (encode n ++ rest) = (.ok n, rest))
      ∧ ∀ bytes rest, decode bytes = (.ok n, rest) → (encode n).length + rest.length ≤ bytes.length := by
  refine ⟨fun bytes => ?_, fold_eq_iff, fun n => ⟨Wire.length_encode_pos n, Wire.length_encode_le n,
    (Wire.reads_decode n).whole, fun bytes rest => length_encode_le_of_decode⟩⟩
  have hgroups := readGroups_eq maxBytes bytes
  rw [maxBytes] at hgroups
  cases hfound : (bytes.take 10).findIdx? (· < 128) with
  | some k =>
    rw [hfound] at hgroups
    exact Action.bind_of_ok hgroups
  | none =>
    rw [hfound] at hgroups
    by_cases hlength : 10 ≤ bytes.length
    · simp only [if_pos hlength] at hgroups ⊢
      exact Action.bind_of_error hgroups
    · simp only [if_neg hlength] at hgroups ⊢
      exact Action.bind_of_error hgroups

/-- Ten bytes for a number that is written with one. The bits that the last has set are all dropped. -/
theorem decode_outcome_overfull :
    decode ([0x83, 0x80, 0x80, 0x80, 0x80, 0x80, 0x80, 0x80, 0x80, 0x7E] ++ [5]) = (.ok (-2), [5])
      ∧ (encode (-2)).length + 1 ≤ 11 := by
  obtain ⟨hdecode, -, hencode⟩ := decode_outcome
  have hread : decode ([0x83, 0x80, 0x80, 0x80, 0x80, 0x80, 0x80, 0x80, 0x80, 0x7E] ++ [5])
      = (.ok (-2), [5]) := by
    rw [hdecode]
    rfl
  exact ⟨hread, (hencode (-2)).2.2.2 _ _ hread⟩

end Varint

namespace Wire

/-- Bytes that are a length: a number that is not negative. -/
def SpelledLength (n : Nat) (bytes : Bytes) : Prop := ∃ m : Int64, Varint.Spelled m bytes ∧ m.toInt = n

theorem reads_length_iff {n : Nat} {bytes : Bytes} : Reads length bytes n ↔ SpelledLength n bytes := by
  constructor
  · intro h
    obtain ⟨m, rest, hread, hdone⟩ := Action.bind_eq_ok h.alone
    split at hdone
    · cases hdone
    · rename_i hm
      cases hdone
      obtain ⟨front, hfront, hreads⟩ := exact_decode hread
      rw [List.append_nil] at hfront
      subst hfront
      exact ⟨m, Varint.reads_iff.1 hreads, (Int.toNat_of_nonneg (Int.not_lt.1 hm)).symm⟩
  · rintro ⟨m, hspelled, hm⟩
    refine (Varint.reads_iff.2 hspelled).bind_done fun rest => ?_
    rw [hm, if_neg (Int.not_lt.2 (Int.natCast_nonneg n)), Int.toNat_natCast]
    rfl

end Wire

/-- Zero with a group to spare. -/
example : Varint.Spelled 0 [0x80, 0x00] :=
  ⟨0, .more (by decide) (.last (by decide)), by decide, by decide⟩

end DeviceLog
