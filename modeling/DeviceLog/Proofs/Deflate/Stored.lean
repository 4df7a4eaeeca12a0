import DeviceLog.Deflate.Compress
import DeviceLog.Deflate.Expand
import DeviceLog.Proofs.Text.Utf8

/-! # Uncompressed blocks are read as their bytes

* `storedBlock_stored`: the bytes of an uncompressed block are found from the next whole byte on.
* `expand_storedBlocks`: bytes of any number, stored as they are, are found again.
-/

namespace DeviceLog.Deflate

/-! ## One uncompressed block -/

theorem bits_of_kindByte (last : Bool) (bytes : Bytes) :
    ∃ pending, bit ⟨[], (if last then 1 else 0) :: bytes⟩ = (.ok last, ⟨pending, bytes⟩)
      ∧ ∃ pending', number 2 ⟨pending, bytes⟩ = (.ok 0, ⟨pending', bytes⟩) := by
  refine ⟨List.replicate 7 false, ?_, List.replicate 5 false, rfl⟩
  cases last <;> rfl

theorem storedBlock_stored {bytes : Bytes} (h : bytes.length ≤ maxStored) (rest : Bytes)
    (pending : List Bool) (out : Array UInt8) :
    storedBlock out ⟨pending, storedHead bytes.length ++ bytes ++ rest⟩
      = (.ok (out ++ bytes), ⟨[], rest⟩) := by
  have hle : bytes.length ≤ 65535 := h
  have hlow := Utf8.toNat_ofNat_of_lt (show bytes.length % 256 < 256 by omega)
  have hhigh := Utf8.toNat_ofNat_of_lt (show bytes.length / 256 < 256 by omega)
  have hlow' := Utf8.toNat_ofNat_of_lt (show 255 - bytes.length % 256 < 256 by omega)
  have hhigh' := Utf8.toNat_ofNat_of_lt (show 255 - bytes.length / 256 < 256 by omega)
  have hlength : (UInt8.ofNat (bytes.length % 256)).toNat
      + 256 * (UInt8.ofNat (bytes.length / 256)).toNat = bytes.length := by
    rw [hlow, hhigh]
    omega
  have hcheck : (UInt8.ofNat (bytes.length % 256)).toNat
        + (UInt8.ofNat (255 - bytes.length % 256)).toNat = 255
      ∧ (UInt8.ofNat (bytes.length / 256)).toNat
        + (UInt8.ofNat (255 - bytes.length / 256)).toNat = 255 := by
    rw [hlow, hhigh, hlow', hhigh']
    omega
  have htaken : wholeBytes ((UInt8.ofNat (bytes.length % 256)).toNat
      + 256 * (UInt8.ofNat (bytes.length / 256)).toNat) ⟨[], bytes ++ rest⟩
        = (.ok bytes, ⟨[], rest⟩) := by
    rw [hlength]
    simp [wholeBytes]
  simp only [storedBlock]
  rw [Action.bind_of_ok (show align _ = _ from rfl)]
  simp only [storedHead, List.cons_append, List.nil_append]
  rw [Action.bind_of_ok (show byte _ = _ from rfl), Action.bind_of_ok (show byte _ = _ from rfl),
    Action.bind_of_ok (show byte _ = _ from rfl), Action.bind_of_ok (show byte _ = _ from rfl),
    if_pos hcheck, Action.bind_of_ok htaken]
  rfl

theorem block_stored {bytes : Bytes} (h : bytes.length ≤ maxStored) (last : Bool) (rest : Bytes)
    (turns : Nat) (out : Array UInt8) :
    block turns out ⟨[], stored last bytes ++ rest⟩ = (.ok (last, out ++ bytes), ⟨[], rest⟩) := by
  obtain ⟨pending, hbit, pending', hkind⟩ :=
    bits_of_kindByte last (storedHead bytes.length ++ bytes ++ rest)
  have hbytes : stored last bytes ++ rest
      = (if last then 1 else 0) :: (storedHead bytes.length ++ bytes ++ rest) := by
    simp [stored]
  simp only [block]
  rw [hbytes, Action.bind_of_ok hbit, Action.bind_of_ok hkind, if_pos rfl,
    Action.bind_of_ok (storedBlock_stored h rest pending' out)]
  rfl

/-! ## All blocks -/

/-- Uncompressed blocks are read as their bytes, with a turn for each byte of them. -/
theorem blocks_storedBlocks (bytes : Bytes) : ∀ (turns : Nat) (out : Array UInt8),
    (storedBlocks bytes).length ≤ turns →
      blocks turns out ⟨[], storedBlocks bytes⟩ = (.ok (out ++ bytes), ⟨[], []⟩) := by
  -- The induction is on how the bytes are split, with the last piece as the first case.
  induction bytes using storedBlocks.induct with
  | case1 bytes h =>
    intro turns out hturns
    rw [storedBlocks, if_pos h] at hturns ⊢
    cases turns with
    | zero => simp [stored] at hturns
    | succ turns =>
      have hblock := block_stored h true [] turns out
      rw [List.append_nil] at hblock
      rw [blocks, Action.bind_of_ok hblock]
      rfl
  | case2 bytes h ih =>
    intro turns out hturns
    have htake : (bytes.take maxStored).length ≤ maxStored := List.length_take_le _ _
    rw [storedBlocks, if_neg h] at hturns ⊢
    cases turns with
    | zero => simp [stored] at hturns
    | succ turns =>
      rw [blocks, Action.bind_of_ok (block_stored htake false _ turns out)]
      have hpos : 0 < (stored false (bytes.take maxStored)).length := by simp [stored]
      rw [List.length_append] at hturns
      simp only [Bool.false_eq_true, if_false]
      rw [ih turns _ (by omega)]
      have hjoin : out ++ bytes.take maxStored ++ bytes.drop maxStored = out ++ bytes :=
        Array.ext' (by simp)
      rw [hjoin]

theorem expand_storedBlocks (bytes : Bytes) : expand (storedBlocks bytes) = .ok bytes := by
  unfold expand
  simp only
  rw [blocks_storedBlocks bytes]
  · simp [Except.map]
  · simp only [BitSource.size, List.length_nil]
    omega

end DeviceLog.Deflate
