import Mathlib.Data.Nat.Notation

/-! # The CRC-32 update function

A reflected cyclic redundancy check over a 32-bit register, byte by byte, with the
usual complement of the register before and after each update. -/

namespace Crc32

/-- The reflected polynomial of the common CRC-32. -/
def polynomial : UInt32 := 0xEDB88320

def bitStep (reg : UInt32) : UInt32 :=
  if reg &&& 1 = 1 then (reg >>> 1) ^^^ polynomial else reg >>> 1

def bitSteps : ℕ → UInt32 → UInt32
  | 0, reg => reg
  | n + 1, reg => bitSteps n (bitStep reg)

def byteStep (reg : UInt32) (b : UInt8) : UInt32 :=
  bitSteps 8 (reg ^^^ b.toUInt32)

/-- Continue a checksum over further bytes. -/
def update (crc : UInt32) (bytes : List UInt8) : UInt32 :=
  (bytes.foldl byteStep (crc ^^^ 0xFFFFFFFF)) ^^^ 0xFFFFFFFF

theorem xor_mask_mask (x : UInt32) : x ^^^ 0xFFFFFFFF ^^^ 0xFFFFFFFF = x := by
  rw [UInt32.xor_assoc, UInt32.xor_self, UInt32.xor_zero]

/-- Checksumming in pieces gives the checksum of the whole. -/
theorem update_append (crc : UInt32) (xs ys : List UInt8) :
    update crc (xs ++ ys) = update (update crc xs) ys := by
  simp only [update, List.foldl_append, xor_mask_mask]

/-- The published check value of the algorithm. -/
example : update 0 [0x31, 0x32, 0x33, 0x34, 0x35, 0x36, 0x37, 0x38, 0x39] = 0xCBF43926 := by
  decide +kernel

end Crc32
