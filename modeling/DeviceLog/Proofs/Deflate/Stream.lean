import DeviceLog.Deflate.Bits
import Mathlib.Algebra.Ring.Nat

/-! # Bits are read as they were written

A writer and a source are looked at as the bits that have been written and that are left. Both keep whole
bytes and, apart from them, the bits of a byte that is begun.

* `BitSource.Holds s bits`, `Packer.Holds p bits`: these are the bits.
* `Yields p word a`: the action takes the word, whatever follows it, and yields `a`. `Yields.bind` puts
  actions together; `yields_bit`, `yields_number` and `yields_times` are the parts.
* `Packer.Holds.append`, `Packer.Holds.align` and `Packer.Holds.appendBytes` are what a writer adds, and
  `Packer.Holds.finish` is what a reader of its bytes finds.
-/

namespace DeviceLog.Deflate

/-! ## Bytes and bits -/

/-- The bits of bytes, one byte after another. -/
def bitsOf (bytes : Bytes) : List Bool := bytes.flatMap byteBits

@[simp] theorem bitsOf_nil : bitsOf [] = [] := rfl

@[simp] theorem bitsOf_cons (b : UInt8) (bytes : Bytes) : bitsOf (b :: bytes) = byteBits b ++ bitsOf bytes := rfl

@[simp] theorem bitsOf_append (front back : Bytes) : bitsOf (front ++ back) = bitsOf front ++ bitsOf back :=
  List.flatMap_append

@[simp] theorem length_byteBits (b : UInt8) : (byteBits b).length = 8 := rfl

@[simp] theorem length_bitsOf (bytes : Bytes) : (bitsOf bytes).length = 8 * bytes.length := by
  induction bytes with
  | nil => rfl
  | cons b bytes ih => simp [ih]; omega

/-- A byte made of eight bits has these bits. -/
theorem byteBits_byteOfBits : ∀ {bits : List Bool}, bits.length = 8 → byteBits (byteOfBits bits) = bits
  | [b₀, b₁, b₂, b₃, b₄, b₅, b₆, b₇], _ => by
    cases b₀ <;> cases b₁ <;> cases b₂ <;> cases b₃ <;> cases b₄ <;> cases b₅ <;> cases b₆ <;> cases b₇ <;> rfl

theorem byteBits_injective {b c : UInt8} (h : byteBits b = byteBits c) : b = c := by
  have hbits : (List.range 8).map b.toNat.testBit = (List.range 8).map c.toNat.testBit := h
  refine UInt8.toNat_inj.1 (Nat.eq_of_testBit_eq fun i => ?_)
  rcases Nat.lt_or_ge i 8 with hlt | hge
  · exact List.map_inj_left.1 hbits i (List.mem_range.2 hlt)
  · have hbound : ∀ b : UInt8, b.toNat < 2 ^ i := fun b =>
      Nat.lt_of_lt_of_le b.toNat_lt (Nat.pow_le_pow_right (by decide) hge)
    rw [Nat.testBit_lt_two_pow (hbound b), Nat.testBit_lt_two_pow (hbound c)]

/-- Bits that begin with those of bytes are those of the bytes and of others. -/
theorem exists_of_bitsOf_eq_append : ∀ {bytes whole : Bytes} {rest : List Bool}, bitsOf whole = bitsOf bytes ++ rest →
    ∃ left, whole = bytes ++ left ∧ bitsOf left = rest
  | [], whole, _, h => ⟨whole, rfl, h⟩
  | b :: bytes, [], _, h => by simp [byteBits] at h
  | b :: bytes, c :: whole, rest, h => by
    rw [bitsOf_cons, bitsOf_cons, List.append_assoc] at h
    obtain ⟨hfirst, hothers⟩ := List.append_inj h rfl
    obtain ⟨left, rfl, hleft⟩ := exists_of_bitsOf_eq_append hothers
    exact ⟨left, by rw [byteBits_injective hfirst, List.cons_append], hleft⟩

/-- Zeros behind the bits of a byte make no difference. -/
theorem byteOfBits_append_replicate (bits : List Bool) (count : Nat) :
    byteOfBits (bits ++ List.replicate count false) = byteOfBits bits := by
  have hzeros : (List.replicate count false).foldr (fun b n => (if b then 1 else 0) + 2 * n) 0 = 0 := by
    induction count with
    | zero => rfl
    | succ count ih => simp [List.replicate_succ, ih]
  simp only [byteOfBits, List.foldr_append, hzeros]

/-- A byte made of fewer bits has zeros after them. -/
theorem byteBits_byteOfBits_of_lt {bits : List Bool} (h : bits.length < 8) :
    byteBits (byteOfBits bits) = bits ++ List.replicate (8 - bits.length) false := by
  rw [← byteOfBits_append_replicate bits (8 - bits.length)]
  exact byteBits_byteOfBits (by simp; omega)

/-! ## Reading -/

/-- Whether these bits are left in a source, of which the byte that is begun has fewer than eight. -/
structure BitSource.Holds (s : BitSource) (bits : List Bool) : Prop where
  pending_lt : s.pending.length < 8
  eq : s.pending ++ bitsOf s.bytes = bits

theorem BitSource.holds_bytes (bytes : Bytes) : ({ bytes := bytes } : BitSource).Holds (bitsOf bytes) :=
  ⟨by simp, rfl⟩

/-- Where whole bytes follow them, the first bits are those of the byte that is begun. -/
theorem BitSource.Holds.exists_left {s : BitSource} {pad : List Bool} {bytes : Bytes} {rest : List Bool}
    (h : s.Holds (pad ++ bitsOf bytes ++ rest)) (hpad : pad.length < 8) (hrest : rest.length % 8 = 0) :
    ∃ left, s.bytes = bytes ++ left ∧ bitsOf left = rest := by
  have heq := h.eq
  have hlt := h.pending_lt
  have hlength := congrArg List.length heq
  simp only [List.length_append, length_bitsOf] at hlength
  rw [List.append_assoc] at heq
  exact exists_of_bitsOf_eq_append (List.append_inj heq (by omega)).2

/-- Whether an action takes these bits and yields `a`, whatever follows them. -/
def Yields {α : Type} (p : Action Error BitSource α) (word : List Bool) (a : α) : Prop :=
  ∀ s rest, s.Holds (word ++ rest) → ∃ t, p s = (.ok a, t) ∧ t.Holds rest

section Reading

variable {α β : Type} {p : Action Error BitSource α} {word more : List Bool} {a : α} {b : β}

theorem yields_done (a : α) : Yields (Action.done a) [] a := fun s _ h => ⟨s, rfl, h⟩

theorem Yields.bind {k : α → Action Error BitSource β} (hp : Yields p word a) (hk : Yields (k a) more b) :
    Yields (p >>= k) (word ++ more) b := by
  intro s rest hs
  rw [List.append_assoc] at hs
  obtain ⟨t, ht, hrest⟩ := hp s (more ++ rest) hs
  rw [Action.bind_of_ok ht]
  exact hk t rest hrest

/-- The last step of an action may take no bits. -/
theorem Yields.bind_done {k : α → Action Error BitSource β} (hp : Yields p word a) (hk : Yields (k a) [] b) :
    Yields (p >>= k) word b := by
  have h := hp.bind hk
  rwa [List.append_nil] at h

theorem yields_bit (b : Bool) : Yields bit [b] b := by
  rintro ⟨pending, bytes⟩ rest ⟨hlt, heq⟩
  match pending, bytes with
  | c :: pending, bytes =>
    simp only [List.cons_append, List.nil_append, List.cons.injEq] at heq
    obtain ⟨rfl, hrest⟩ := heq
    exact ⟨⟨pending, bytes⟩, rfl, by simp at hlt ⊢; omega, hrest⟩
  | [], c :: bytes =>
    simp only [List.nil_append, bitsOf_cons, byteBits, List.cons_append, List.cons.injEq] at heq
    obtain ⟨rfl, hrest⟩ := heq
    exact ⟨⟨(byteBits c).tail, bytes⟩, rfl, by simp, hrest⟩
  | [], [] => cases heq

theorem yields_number (width : Nat) : ∀ {n : Nat}, n < 2 ^ width → Yields (number width) (numberBits n width) n := by
  induction width with
  | zero =>
    intro n hn
    obtain rfl : n = 0 := by simpa using hn
    exact yields_done 0
  | succ width ih =>
    intro n hn
    have hhalf : n / 2 < 2 ^ width := by rw [Nat.pow_succ] at hn; omega
    refine (yields_bit (n % 2 = 1)).bind ((ih hhalf).bind_done ?_)
    show Yields (Action.done _) [] n
    have hvalue : (if decide (n % 2 = 1) then 1 else 0) + 2 * (n / 2) = n := by
      by_cases hodd : n % 2 = 1 <;> simp [hodd] <;> omega
    rw [hvalue]
    exact yields_done n

theorem yields_times {wordOf : α → List Bool} : ∀ {as : List α}, (∀ a ∈ as, Yields p (wordOf a) a) →
    Yields (Action.times p as.length) (as.flatMap wordOf) as
  | [], _ => yields_done []
  | a :: as, h => by
    rw [List.length_cons, Action.times_succ]
    refine (h a List.mem_cons_self).bind (Yields.bind_done (yields_times fun b hb => ?_) (yields_done _))
    exact h b (List.mem_cons_of_mem _ hb)

end Reading

/-! ## Writing -/

namespace Packer

/-- Whether these bits have been written, of which the byte that is begun has fewer than eight. -/
structure Holds (p : Packer) (bits : List Bool) : Prop where
  pending_lt : p.pending.length < 8
  eq : bitsOf p.bytes.toList ++ p.pending.reverse = bits

theorem holds_empty : ({} : Packer).Holds [] := ⟨by decide, rfl⟩

namespace Holds

variable {p : Packer} {bits : List Bool}

theorem push (h : p.Holds bits) (b : Bool) : (p.push b).Holds (bits ++ [b]) := by
  obtain ⟨hlt, rfl⟩ := h
  unfold Packer.push
  split
  · rename_i hpending
    refine ⟨by simp, ?_⟩
    simp [hpending, byteBits_byteOfBits]
  · rename_i hpending
    refine ⟨?_, by simp⟩
    -- A byte of which seven bits were there would have been filled.
    have hseven : p.pending.length ≠ 7 := by
      intro hlength
      match hp : p.pending, hlength with
      | [_, _, _, _, _, _, _], _ => exact hpending _ _ _ _ _ _ _ hp
    simp only [List.length_cons]
    omega

theorem append (h : p.Holds bits) : ∀ word : List Bool, (p.append word).Holds (bits ++ word) := by
  intro word
  induction word generalizing p bits with
  | nil => simpa [Packer.append] using h
  | cons b word ih => simpa [Packer.append] using ih (h.push b)

/-- A writer fills the byte that is begun. -/
theorem align (h : p.Holds bits) :
    ∃ pad, pad.length < 8 ∧ (bits ++ pad).length % 8 = 0 ∧ bitsOf p.align.bytes.toList = bits ++ pad
      ∧ p.align.pending = [] := by
  obtain ⟨hlt, rfl⟩ := h
  unfold Packer.align
  split
  · rename_i hpending
    exact ⟨[], by simp, by simp [hpending], by simp [hpending], hpending⟩
  · rename_i hpending
    have hpos := List.length_pos_iff.2 hpending
    refine ⟨List.replicate (8 - p.pending.length) false, by simp; omega, by simp; omega, ?_, rfl⟩
    have hbyte := byteBits_byteOfBits_of_lt (show p.pending.reverse.length < 8 by simpa using hlt)
    simpa using hbyte

/-- Whole bytes stand behind the byte that is begun, which is filled first. -/
theorem appendBytes (h : p.Holds bits) (bytes : Bytes) :
    ∃ pad, pad.length < 8 ∧ (bits ++ pad).length % 8 = 0
      ∧ (p.appendBytes bytes).Holds (bits ++ (pad ++ bitsOf bytes)) := by
  obtain ⟨pad, hlt, hwhole, hbytes, -⟩ := h.align
  refine ⟨pad, hlt, hwhole, by simp [Packer.appendBytes], ?_⟩
  simp [Packer.appendBytes, hbytes]

/-- What is written piece by piece is the bits of the pieces. -/
theorem foldl {α : Type} {write : Packer → α → Packer} {wordOf : α → List Bool} {pieces : List α}
    (hwrite : ∀ piece ∈ pieces, ∀ {p : Packer} {bits : List Bool}, p.Holds bits →
      (write p piece).Holds (bits ++ wordOf piece)) (h : p.Holds bits) :
    (pieces.foldl write p).Holds (bits ++ pieces.flatMap wordOf) := by
  induction pieces generalizing p bits with
  | nil => simpa using h
  | cons piece pieces ih =>
    obtain ⟨hfirst, hothers⟩ := List.forall_mem_cons.1 hwrite
    simpa using ih hothers (hfirst h)

/-- The bytes hold what has been written, and zeros up to the end of the last one. -/
theorem finish (h : p.Holds bits) : ∃ pad, bitsOf p.finish = bits ++ pad := by
  obtain ⟨pad, -, -, hbytes, -⟩ := h.align
  exact ⟨pad, hbytes⟩

end Holds

end Packer

end DeviceLog.Deflate
