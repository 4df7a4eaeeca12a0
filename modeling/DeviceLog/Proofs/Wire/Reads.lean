import DeviceLog.Proofs.Text.Utf8
import DeviceLog.Wire.Datum
import Mathlib.Algebra.BigOperators.Group.List.Basic
import Mathlib.Algebra.Group.Int.Defs
import Mathlib.Algebra.Group.Nat.Defs

/-! # What is written is read

`Wire.Reads p bytes a` says of a reader two things at once: from the bytes it takes the value and
leaves whatever follows them, and from a part of them that is cut off at the end it tells that the
data end too early. The second is how an interrupted write is recognised.

Readers that are run one after another read what was written one after another (`Reads.bind`), so
there is one lemma for each kind of data:

* `reads_decode` for numbers, `reads_length`, `reads_bytes` and `reads_string`;
* `FieldValue.reads` and `Datum.reads` for the values of records.

Lengths are written as numbers of 64 bits with sign, so they must be below 2 ^ 63.
-/

namespace DeviceLog

namespace Wire

variable {α β : Type}

/-- From these bytes a reader takes a value, and a cut in them is told as such. -/
structure Reads (p : Reader α) (bytes : Bytes) (a : α) : Prop where
  whole : ∀ rest, p (bytes ++ rest) = (.ok a, rest)
  cut : ∀ n < bytes.length, ∃ rest, p (bytes.take n) = (.error .endOfData, rest)

theorem Reads.done (a : α) : Reads (Action.done a) [] a where
  whole _ := rfl
  cut _ h := absurd h (Nat.not_lt_zero _)

/-- What is read without bytes is read from nothing. -/
theorem Reads.of_apply_eq {p : Reader α} {a : α} (h : ∀ bytes, p bytes = (.ok a, bytes)) :
    Reads p [] a where
  whole rest := h rest
  cut _ h := absurd h (Nat.not_lt_zero _)

/-- A cut in what the first reader takes is told whatever the second one would do. -/
theorem Reads.cut_first {p : Reader α} {bytes : Bytes} {a : α} (hp : Reads p bytes a) (k : α → Reader β) :
    ∀ n < bytes.length, ∃ rest, (p >>= k) (bytes.take n) = (.error .endOfData, rest) := by
  intro n hn
  obtain ⟨rest, hrest⟩ := hp.cut n hn
  exact ⟨rest, Action.bind_of_error hrest⟩

/-- A cut falls into what the first reader takes, or into what the second one takes. -/
theorem Reads.cut_bind {p : Reader α} {k : α → Reader β} {front back : Bytes} {a : α}
    (hp : Reads p front a)
    (hk : ∀ n < back.length, ∃ rest, k a (back.take n) = (.error .endOfData, rest)) :
    ∀ n < (front ++ back).length, ∃ rest, (p >>= k) ((front ++ back).take n) = (.error .endOfData, rest) := by
  intro n hn
  rw [List.length_append] at hn
  rw [List.take_append]
  by_cases h : n < front.length
  · rw [show n - front.length = 0 by omega, List.take_zero, List.append_nil]
    exact hp.cut_first k n h
  · obtain ⟨rest, hrest⟩ := hk (n - front.length) (by omega)
    rw [List.take_of_length_le (by omega)]
    exact ⟨rest, by rw [Action.bind_of_ok (hp.whole _), hrest]⟩

theorem Reads.bind {p : Reader α} {k : α → Reader β} {front back : Bytes} {a : α} {b : β}
    (hp : Reads p front a) (hk : Reads (k a) back b) : Reads (p >>= k) (front ++ back) b where
  whole rest := by
    rw [List.append_assoc, Action.bind_of_ok (hp.whole (back ++ rest)), hk.whole]
  cut := hp.cut_bind hk.cut

theorem Reads.bind_done {p : Reader α} {k : α → Reader β} {bytes : Bytes} {a : α} {b : β}
    (hp : Reads p bytes a) (hk : ∀ rest, k a rest = (.ok b, rest)) : Reads (p >>= k) bytes b := by
  simpa using hp.bind (.of_apply_eq hk)

/-- A value is what its bytes are read as, with nothing left. -/
theorem Reads.alone {p : Reader α} {bytes : Bytes} {a : α} (h : Reads p bytes a) :
    p bytes = (.ok a, []) := by
  simpa using h.whole []

/-- A reader run again and again reads things written one after another. -/
theorem Reads.times {p : Reader α} {encode : α → Bytes} : ∀ {items : List α},
    (∀ a ∈ items, Reads p (encode a) a) →
      Reads (Action.times p items.length) (items.flatMap encode) items
  | [], _ => .done []
  | a :: items, h => by
    have ha := h a List.mem_cons_self
    have hrest := Reads.times fun b hb => h b (List.mem_cons_of_mem a hb)
    rw [List.length_cons, Action.times_succ, List.flatMap_cons]
    exact ha.bind (hrest.bind_done fun _ => rfl)

/-- Where each thing takes a byte at least there are no more things than bytes. -/
theorem length_le_length_flatMap {encode : α → Bytes} (h : ∀ a, 0 < (encode a).length) (items : List α) :
    items.length ≤ (items.flatMap encode).length := by
  have hsum := List.length_le_sum_of_one_le (items.map fun a => (encode a).length)
  rw [List.length_map, ← List.length_flatMap] at hsum
  apply hsum
  intro n hn
  obtain ⟨a, -, rfl⟩ := List.mem_map.1 hn
  exact h a

/-! ## Numbers -/

theorem reads_lastGroup {b : UInt8} (h : b < 128) (budget : Nat) :
    Reads (Varint.readGroups (budget + 1)) [b] b.toNat where
  whole rest := by
    rw [List.singleton_append, Varint.readGroups]
    simp only [if_pos h]
  cut k hk := by
    rw [List.length_singleton, Nat.lt_one_iff] at hk
    subst hk
    exact ⟨[], rfl⟩

/-- The high bit of a byte shows that there are more. -/
theorem Reads.group {b : UInt8} (h : ¬b < 128) {budget n : Nat} {more : Bytes}
    (hmore : Reads (Varint.readGroups budget) more n) :
    Reads (Varint.readGroups (budget + 1)) (b :: more) (b.toNat - 128 + 128 * n) where
  whole rest := by
    rw [List.cons_append, Varint.readGroups]
    simp only [if_neg h, hmore.whole rest]
  cut k hk := by
    cases k with
    | zero => exact ⟨[], rfl⟩
    | succ k =>
      obtain ⟨rest, hrest⟩ := hmore.cut k (by simpa using hk)
      refine ⟨rest, ?_⟩
      rw [List.take_succ_cons, Varint.readGroups]
      simp only [if_neg h, hrest]

/-- Groups are read as the number that they were made of. -/
theorem reads_readGroups (budget : Nat) : ∀ n : Nat, n < 128 ^ (budget + 1) →
    Reads (Varint.readGroups (budget + 1)) (Varint.groups n) n := by
  have hlast : ∀ {n : Nat} (budget : Nat), n < 128 →
      Reads (Varint.readGroups (budget + 1)) [UInt8.ofNat n] n := by
    intro n budget h
    have hb := Utf8.toNat_ofNat_of_lt (show n < 256 by omega)
    have hlt : UInt8.ofNat n < 128 := by
      rw [UInt8.lt_iff_toNat_lt, hb]
      exact h
    have hread := reads_lastGroup hlt budget
    rwa [hb] at hread
  induction budget with
  | zero =>
    intro n h
    have hn : n < 128 := by simpa using h
    rw [Varint.groups, if_pos hn]
    exact hlast 0 hn
  | succ budget ih =>
    intro n h
    rw [Varint.groups]
    split
    · rename_i hn
      exact hlast (budget + 1) hn
    · rename_i hn
      have hdiv : n / 128 < 128 ^ (budget + 1) := by
        rw [Nat.pow_succ] at h
        omega
      have hb := Utf8.toNat_ofNat_of_lt (show n % 128 + 128 < 256 by omega)
      have hlt : ¬ UInt8.ofNat (n % 128 + 128) < 128 := by
        rw [UInt8.lt_iff_toNat_lt, hb]
        simp
      have hread := (ih _ hdiv).group hlt
      rwa [hb, Nat.add_sub_cancel, Nat.mod_add_div] at hread

theorem fold_lt (n : Int64) : Varint.fold n < 2 ^ 64 := by
  have h1 := n.toInt_lt
  have h2 := n.le_toInt
  simp only [Varint.fold]
  split <;> omega

theorem unfold_fold (n : Int64) : Varint.unfold (Varint.fold n) = n := by
  unfold Varint.unfold Varint.fold
  by_cases h : 0 ≤ n.toInt
  · rw [if_pos h, if_pos (by omega)]
    rw [show ((2 * n.toInt.toNat : Nat) : Int) / 2 = n.toInt by omega, Int64.ofInt_toInt]
  · rw [if_neg h, if_neg (by omega)]
    rw [show (-(((2 * (-n.toInt).toNat - 1) / 2 : Nat) : Int) - 1) = n.toInt by omega, Int64.ofInt_toInt]

theorem reads_decode (n : Int64) : Reads Varint.decode (Varint.encode n) n := by
  have hlt : Varint.fold n < 128 ^ (9 + 1) := by
    have := fold_lt n
    omega
  refine (reads_readGroups 9 (Varint.fold n) hlt).bind_done fun rest => ?_
  have hsize : Varint.fold n < UInt64.size := Nat.lt_of_lt_of_le (fold_lt n) (by decide)
  rw [Nat.mod_eq_of_lt hsize, unfold_fold, Action.pure_apply]

theorem length_encode_pos (n : Int64) : 0 < (Varint.encode n).length := by
  unfold Varint.encode Varint.groups
  split <;> simp

theorem length_groups_le : ∀ (budget n : Nat), n < 128 ^ (budget + 1) →
    (Varint.groups n).length ≤ budget + 1
  | budget, n, h => by
    rw [Varint.groups]
    split
    · rw [List.length_singleton]
      exact Nat.le_add_left 1 budget
    · rename_i hn
      cases budget with
      | zero => exact absurd (by simpa using h) hn
      | succ budget =>
        have hdiv : n / 128 < 128 ^ (budget + 1) := by
          rw [Nat.pow_succ] at h
          omega
        rw [List.length_cons]
        exact Nat.succ_le_succ (length_groups_le budget (n / 128) hdiv)

theorem length_encode_le (n : Int64) : (Varint.encode n).length ≤ 10 := by
  have := fold_lt n
  exact length_groups_le 9 (Varint.fold n) (by omega)

/-! ## Lengths, bytes and texts -/

/-- A length of at most 63 bits is written as itself. -/
theorem toInt_ofNat {n : Nat} (h : n < 2 ^ 63) : (Int64.ofNat n).toInt = n :=
  Int64.toInt_ofNat_of_lt h

theorem reads_length {n : Nat} (h : n < 2 ^ 63) : Reads length (encodeLength n) n := by
  refine (reads_decode (Int64.ofNat n)).bind_done fun rest => ?_
  rw [toInt_ofNat h, if_neg (by omega)]
  rfl

/-- From 2 ^ 63 on a length is written as another number, which is negative. -/
theorem toInt_ofNat_of_le {n : Nat} (hle : 2 ^ 63 ≤ n) (hlt : n < 2 ^ 64) :
    (Int64.ofNat n).toInt = (n : Int) - 2 ^ 64 := by
  rw [Int64.toInt_ofNat']
  simp only [Int.bmod, Int64.size]
  omega

theorem length_of_le {n : Nat} (hle : 2 ^ 63 ≤ n) (hlt : n < 2 ^ 64) (rest : Bytes) :
    length (encodeLength n ++ rest) = (.error (.malformed (.negativeLength (Int64.ofNat n))), rest) := by
  have hneg : (Int64.ofNat n).toInt < 0 := by
    rw [toInt_ofNat_of_le hle hlt]
    omega
  rw [length, encodeLength, Action.bind_of_ok ((reads_decode _).whole rest), if_pos hneg]
  rfl

theorem reads_take (bytes : Bytes) : Reads (take bytes.length) bytes bytes where
  whole rest := by simp [take]
  cut n h := by
    have hlength : (bytes.take n).length = n := by
      rw [List.length_take, Nat.min_eq_left (Nat.le_of_lt h)]
    refine ⟨[], ?_⟩
    simp only [take, List.take_take, Nat.min_eq_right (Nat.le_of_lt h), hlength, if_pos h]

theorem reads_bytes {b : Bytes} (h : b.length < 2 ^ 63) : Reads bytes (encodeBytes b) b :=
  (reads_length h).bind (reads_take b)

theorem reads_string {s : String} (h : (Utf8.encode s).length < 2 ^ 63) :
    Reads string (encodeString s) s := by
  refine (reads_bytes h).bind_done fun rest => ?_
  rw [Utf8.decode_encode]
  rfl

theorem length_encodeLength_pos (n : Nat) : 0 < (encodeLength n).length := length_encode_pos _

/-- A text of no characters is not written as nothing. -/
theorem length_encodeString_pos (s : String) : 0 < (encodeString s).length := by
  have hcount := length_encodeLength_pos (Utf8.encode s).length
  simp only [encodeString, encodeBytes, List.length_append]
  omega

theorem length_encodeString_le (s : String) : (encodeString s).length ≤ 10 + s.utf8ByteSize := by
  have hcount := length_encode_le (Int64.ofNat (Utf8.encode s).length)
  simp only [encodeString, encodeBytes, encodeLength, List.length_append, Utf8.length_encode] at hcount ⊢
  omega

/-! ## Values -/

theorem reads_byte (b : UInt8) : Reads byte [b] b where
  whole _ := rfl
  cut n h := by
    rw [List.length_singleton, Nat.lt_one_iff] at h
    subst h
    exact ⟨[], rfl⟩

theorem reads_boolean (b : Bool) : Reads boolean [if b then 1 else 0] b := by
  refine (reads_byte _).bind_done fun rest => ?_
  cases b <;> rfl

theorem reads_int (n : Int32) : Reads int (Varint.encode n.toInt64) n := by
  refine (reads_decode n.toInt64).bind_done fun rest => ?_
  rw [Int32.toInt_toInt64, if_pos ⟨n.minValue_le_toInt, n.toInt_le⟩]
  simp

end Wire

/-- Whether the length of a value can be written. -/
def FieldValue.Fits : FieldValue → Prop
  | string s => (Utf8.encode s).length < 2 ^ 63
  | bytes b => b.length < 2 ^ 63
  | _ => True

instance : DecidablePred FieldValue.Fits
  | .string s => inferInstanceAs (Decidable ((Utf8.encode s).length < 2 ^ 63))
  | .bytes b => inferInstanceAs (Decidable (b.length < 2 ^ 63))
  | .boolean _ | .int _ | .long _ => inferInstanceAs (Decidable True)

theorem FieldValue.reads {v : FieldValue} (h : v.Fits) : Wire.Reads v.type.read v.encode v := by
  cases v with
  | boolean b => exact (Wire.reads_boolean b).bind_done fun _ => rfl
  | int n => exact (Wire.reads_int n).bind_done fun _ => rfl
  | long n => exact (Wire.reads_decode n).bind_done fun _ => rfl
  | string s => exact (Wire.reads_string h).bind_done fun _ => rfl
  | bytes b => exact (Wire.reads_bytes h).bind_done fun _ => rfl

/-- A value whose bytes are few enough fits. -/
theorem FieldValue.fits_of_length {v : FieldValue} (h : v.encode.length < 2 ^ 63) : v.Fits := by
  cases v with
  | string s =>
    simp only [encode, Wire.encodeString, Wire.encodeBytes, List.length_append] at h
    exact Nat.lt_of_le_of_lt (Nat.le_add_left _ _) h
  | bytes b =>
    simp only [encode, Wire.encodeBytes, List.length_append] at h
    exact Nat.lt_of_le_of_lt (Nat.le_add_left _ _) h
  | _ => trivial

/-! ## Records -/

/-- Of lists of one length nothing is found to differ exactly if the types are the same. -/
theorem Schema.find?_zip_eq_none_iff : ∀ {fields : List Field} {datum : Datum},
    datum.length = fields.length →
      ((fields.zip datum).find? (fun pair => pair.1.type ≠ pair.2.type) = none
        ↔ datum.map FieldValue.type = fields.map Field.type)
  | [], [], _ => by simp
  | f :: fields, v :: datum, h => by
    have hlength : datum.length = fields.length := by simpa using h
    have ih := find?_zip_eq_none_iff hlength
    by_cases hv : f.type = v.type
    · rw [List.zip_cons_cons, List.find?_cons_of_neg (by simpa using hv), ih]
      simp [hv]
    · rw [List.zip_cons_cons, List.find?_cons_of_pos (by simpa using hv)]
      simp [Ne.symm hv]
  | [], _ :: _, h => by simp at h
  | _ :: _, [], h => by simp at h

/-- A list of values fits a schema if it has a value of the right type for every field. -/
theorem Schema.fault_eq_none_iff {schema : Schema} {datum : Datum} :
    schema.fault datum = none ↔ datum.map FieldValue.type = schema.fields.map Field.type := by
  simp only [fault]
  by_cases h : datum.length = schema.fields.length
  · rw [if_neg (not_not_intro h), Option.map_eq_none_iff, find?_zip_eq_none_iff h]
  · rw [if_pos h]
    have hne : datum.map FieldValue.type ≠ schema.fields.map Field.type := fun heq =>
      h (by simpa using congrArg List.length heq)
    simp [hne]

/-- Values that fit a schema fit every schema with the same fields. -/
theorem Schema.fault_eq_none_of_fields {schema other : Schema} (hfields : schema.fields = other.fields)
    {datum : Datum} (h : other.fault datum = none) : schema.fault datum = none := by
  rw [fault_eq_none_iff] at h ⊢
  rw [hfields, h]

namespace Datum

def bytes (datum : Datum) : Bytes := datum.flatMap FieldValue.encode

theorem encode_eq_ok {schema : Schema} {datum : Datum} (h : schema.fault datum = none) :
    encode schema datum = .ok datum.bytes := by
  simp only [encode]
  rw [h]
  rfl

theorem fits_of_length {datum : Datum} (h : datum.bytes.length < 2 ^ 63) :
    ∀ v ∈ datum, v.Fits := by
  intro v hv
  refine FieldValue.fits_of_length (Nat.lt_of_le_of_lt ?_ h)
  exact (List.sublist_flatten_of_mem (List.mem_map_of_mem hv)).length_le

/-- Values are read as they were written, one after another. -/
theorem reads_fields : ∀ {fields : List Field} {datum : Datum},
    datum.map FieldValue.type = fields.map Field.type → (∀ v ∈ datum, v.Fits) →
      Wire.Reads (readFields fields) datum.bytes datum
  | [], [], _, _ => .done []
  | f :: fields, v :: datum, htypes, hfit => by
    rw [List.map_cons, List.map_cons, List.cons.injEq] at htypes
    have hv := FieldValue.reads (hfit v List.mem_cons_self)
    rw [htypes.1] at hv
    have hrest := reads_fields htypes.2 fun w hw => hfit w (List.mem_cons_of_mem _ hw)
    exact hv.bind (hrest.bind_done fun _ => rfl)
  | [], _ :: _, h, _ => by simp at h
  | _ :: _, [], h, _ => by simp at h

theorem reads {schema : Schema} {datum : Datum} (hfault : schema.fault datum = none)
    (hlength : datum.bytes.length < 2 ^ 63) : Wire.Reads (read schema) datum.bytes datum :=
  reads_fields (Schema.fault_eq_none_iff.1 hfault) (fits_of_length hlength)

end Datum

end DeviceLog
