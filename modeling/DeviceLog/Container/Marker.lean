import DeviceLog.Action

/-! # Markers

Every log has a marker of sixteen bytes, which ends its header and every block. It is chosen afresh
for each log, so that a block of one log is not taken for a block of another.
-/

namespace DeviceLog

structure Marker where
  bytes : Bytes
  length_eq : bytes.length = 16
  deriving DecidableEq

namespace Marker

def size : Nat := 16

def ofBytes? (bytes : Bytes) : Option Marker :=
  if h : bytes.length = 16 then some ⟨bytes, h⟩ else none

/-- The lowest eight bytes of a number, highest first. -/
def eightBytes (n : Nat) : Bytes :=
  [UInt8.ofNat (n >>> 56), UInt8.ofNat (n >>> 48), UInt8.ofNat (n >>> 40),
    UInt8.ofNat (n >>> 32), UInt8.ofNat (n >>> 24), UInt8.ofNat (n >>> 16),
    UInt8.ofNat (n >>> 8), UInt8.ofNat n]

/-- The marker of two numbers of 64 bits. -/
def ofWords (high low : Nat) : Marker := ⟨eightBytes high ++ eightBytes low, rfl⟩

/-- A sequence of markers for logs that are made one after another. The factor is odd, so the
second word differs from marker to marker, and large, so its bytes are unlike those of small
numbers. -/
def numbered (n : Nat) : Marker :=
  ofWords 0x019A8C5E2F61B3D7 ((n + 1) * 0x9E3779B97F4A7C15)

end Marker

end DeviceLog
