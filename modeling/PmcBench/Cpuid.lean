import PmcBench.CLib.Format

/-!
# The answers of CPUID (cpuid.c)

The four registers that the instruction fills, and the bytes of a register as
a `uint8_t` pointer sees them on a machine of either byte order.
-/

namespace PmcBench

/-- What the `cpuid` instruction leaves in the registers. -/
structure CPUID where
  EAX : BitVec 32
  EBX : BitVec 32
  ECX : BitVec 32
  EDX : BitVec 32

inductive ByteOrder where
  | little | big
  deriving DecidableEq

/-- `((uint8_t *)&w)[k]`, for `k` below 4. -/
def byteAt (order : ByteOrder) (w : BitVec 32) (k : Nat) : BitVec 8 :=
  match order with
  | .little => (w >>> (8 * k)).setWidth 8
  | .big => (w >>> (8 * (3 - k))).setWidth 8

/-- `is_little_endian`: whether the first byte of 1 is not zero. -/
def isLittleEndian (order : ByteOrder) : Bool := byteAt order 1 0 ≠ 0

@[simp] theorem isLittleEndian_eq (order : ByteOrder) : isLittleEndian order = decide (order = .little) := by
  cases order <;> decide

theorem byteAt_little (w : BitVec 32) (k : Nat) : byteAt .little w k = w.extractLsb' (8 * k) 8 := by
  rw [byteAt, BitVec.setWidth_ushiftRight_eq_extractLsb]

theorem byteAt_big (w : BitVec 32) (k : Nat) : byteAt .big w k = w.extractLsb' (8 * (3 - k)) 8 := by
  rw [byteAt, BitVec.setWidth_ushiftRight_eq_extractLsb]

end PmcBench
