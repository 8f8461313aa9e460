import Mathlib.Tactic.Ring
import PmcBench.Cpuid
import PmcBench.Words.BitField

/-!
# The parameters of the caches (cpuid.c)

`get_cache_params` asks CPUID leaf 4 for one cache after the other and prints
what the bit-fields of `cache_params` say of it. The size it prints is formed
in 32 bits and without the line partitions.
-/

namespace PmcBench
open Words CLib

namespace CacheParams

def cacheType : BitField 32 := { lo := 0, width := 4 }
def level : BitField 32 := { lo := 5, width := 3 }
def fullyAssociative : BitField 32 := { lo := 9, width := 1 }
def cacheLineSize : BitField 32 := { lo := 0, width := 12 }
def physicalLinePartitions : BitField 32 := { lo := 12, width := 10 }
def ways : BitField 32 := { lo := 22, width := 10 }
def numSets : BitField 32 := { lo := 0, width := 32 }
def inclusive : BitField 32 := { lo := 1, width := 1 }

/-- A bit-field in an expression: narrower than 32 bits it becomes an `int`,
else an `unsigned int`. -/
def promoted (f : BitField 32) (w : BitVec 32) : BitVec 32 := (f.get w).setWidth 32

/-- `total_size`: as `num_sets` is unsigned, so is the product, and it is
widened only when it is assigned. -/
def totalSize (ebx ecx : BitVec 32) : BitVec 64 :=
  ((promoted cacheLineSize ebx + 1) * (promoted numSets ecx + 1) * (promoted ways ebx + 1)).setWidth 64

end CacheParams

open CacheParams

/-- What `get_cache_params_index` prints of a cache. -/
def cacheReport (regs : CPUID) : List Printf :=
  [⟨"cache level: %d\n", [.int (promoted level regs.EAX)]⟩] ++
  (if cacheType.get regs.EAX = 1 then [⟨"Data cache\n", []⟩]
    else if cacheType.get regs.EAX = 2 then [⟨"insn cache\n", []⟩]
    else if cacheType.get regs.EAX = 3 then [⟨"unified cache\n", []⟩] else []) ++
  [⟨"fully associative: %d\n", [.int (promoted fullyAssociative regs.EAX)]⟩,
    ⟨"cache line size: %d\n", [.int (promoted cacheLineSize regs.EBX + 1)]⟩,
    ⟨"ways of associativity: %d\n", [.int (promoted ways regs.EBX + 1)]⟩,
    ⟨"no. of sets: %d\n", [.int (promoted numSets regs.ECX + 1)]⟩,
    ⟨"cache size: %llu KB\n", [.long (totalSize regs.EBX regs.ECX / 1024)]⟩,
    if inclusive.get regs.EDX ≠ 0 then ⟨"inclusive cache\n", []⟩ else ⟨"not inclusive cache\n", []⟩,
    ⟨"=============================================\n\n", []⟩]

/-- `get_cache_params_index`: whether there is a cache, and what is printed. -/
def getCacheParamsIndex (regs : CPUID) : Bool × List Printf :=
  if cacheType.get regs.EAX = 0 then (false, []) else (true, cacheReport regs)

/-- The loop of `get_cache_params` from `index` on, where `cpuid` answers leaf 4
for each index. -/
def getCacheParams (cpuid : Nat → CPUID) : Nat → Nat → Option (List Printf)
  | 0, _ => none
  | fuel + 1, index =>
    match getCacheParamsIndex (cpuid index) with
    | (true, printed) => (getCacheParams cpuid fuel (index + 1)).map (printed ++ ·)
    | (false, printed) => some printed

/-- The loop ends at the first index without a cache, with a report of each
cache before it. -/
theorem getCacheParams_from {cpuid : Nat → CPUID} {fuel n index : Nat} (enough : n < fuel)
    (caches : ∀ i < n, cacheType.get (cpuid (index + i)).EAX ≠ 0) (last : cacheType.get (cpuid (index + n)).EAX = 0) :
    getCacheParams cpuid fuel index = some ((List.range n).flatMap fun i => cacheReport (cpuid (index + i))) := by
  induction fuel generalizing n index with
  | zero => omega
  | succ fuel ih =>
    unfold getCacheParams getCacheParamsIndex
    cases n with
    | zero =>
      rw [if_pos (by simpa using last)]
      rfl
    | succ n =>
      have later : getCacheParams cpuid fuel (index + 1) =
          some ((List.range n).flatMap fun i => cacheReport (cpuid (index + (i + 1)))) := by
        have next (i : Nat) : index + 1 + i = index + (i + 1) := by omega
        rw [ih (by omega) (fun i bound => next i ▸ caches (i + 1) (by omega)) (next n ▸ last)]
        simp only [next]
      rw [if_neg (by simpa using caches 0 (by omega)), later, List.range_succ_eq_map, List.flatMap_cons, List.flatMap_map]
      rfl

/-! ### The size of a cache -/

namespace CacheParams

theorem toNat_promoted (f : BitField 32) (w : BitVec 32) : (promoted f w).toNat = (f.get w).toNat := by
  have fits := f.fits
  rw [promoted, BitVec.toNat_setWidth]
  apply Nat.mod_eq_of_lt
  calc (f.get w).toNat < 2 ^ f.width := (f.get w).isLt
    _ ≤ 2 ^ 32 := Nat.pow_le_pow_right (by decide) (by omega)

/-- The product of the fields that take part in the size. -/
def product (ebx ecx : BitVec 32) : Nat :=
  ((cacheLineSize.get ebx).toNat + 1) * ((numSets.get ecx).toNat + 1) * ((ways.get ebx).toNat + 1)

theorem product_pos (ebx ecx : BitVec 32) : 0 < product ebx ecx :=
  Nat.mul_pos (Nat.mul_pos (Nat.succ_pos _) (Nat.succ_pos _)) (Nat.succ_pos _)

theorem toNat_totalSize (ebx ecx : BitVec 32) : (totalSize ebx ecx).toNat = product ebx ecx % 2 ^ 32 := by
  rw [totalSize, BitVec.toNat_setWidth, Nat.mod_eq_of_lt (Nat.lt_trans (BitVec.isLt _) (by decide))]
  simp only [BitVec.toNat_mul, BitVec.toNat_add, toNat_promoted]
  simp [product, Nat.mul_mod]

/-- A remainder is a positive multiple of its dividend only if it is the dividend. -/
theorem mod_eq_mul_iff {n m k : Nat} (pos : 0 < n) (bound : 0 < m) : n % m = n * (k + 1) ↔ k = 0 ∧ n < m := by
  constructor
  · intro same
    have least : n * (k + 1) ≤ n * 1 := by
      rw [← same, Nat.mul_one]
      exact Nat.mod_le n m
    have none : k = 0 := by
      have := Nat.le_of_mul_le_mul_left least pos
      omega
    subst none
    rw [Nat.zero_add, Nat.mul_one] at same
    exact ⟨rfl, same ▸ Nat.mod_lt n bound⟩
  · rintro ⟨rfl, small⟩
    rw [Nat.mod_eq_of_lt small, Nat.zero_add, Nat.mul_one]

/-- The computed size is the exact product of the declared fields if and only
if a line is one partition and the product is below `2 ^ 32`. -/
theorem totalSize_exact_iff (ebx ecx : BitVec 32) :
    (totalSize ebx ecx).toNat = ((ways.get ebx).toNat + 1) * ((physicalLinePartitions.get ebx).toNat + 1) *
        ((cacheLineSize.get ebx).toNat + 1) * ((numSets.get ecx).toNat + 1) ↔
      (physicalLinePartitions.get ebx).toNat = 0 ∧
        ((ways.get ebx).toNat + 1) * ((cacheLineSize.get ebx).toNat + 1) * ((numSets.get ecx).toNat + 1) < 2 ^ 32 := by
  have exact : ((ways.get ebx).toNat + 1) * ((physicalLinePartitions.get ebx).toNat + 1) *
      ((cacheLineSize.get ebx).toNat + 1) * ((numSets.get ecx).toNat + 1) =
      product ebx ecx * ((physicalLinePartitions.get ebx).toNat + 1) := by
    unfold product
    ring
  have formed : ((ways.get ebx).toNat + 1) * ((cacheLineSize.get ebx).toNat + 1) * ((numSets.get ecx).toNat + 1) =
      product ebx ecx := by
    unfold product
    ring
  rw [exact, formed, toNat_totalSize]
  exact mod_eq_mul_iff (product_pos ebx ecx) (by decide)

/-- A cache of 64 KB whose lines have two partitions: 32 KB are computed. -/
theorem totalSize_not_exact :
    ¬ ∀ ebx ecx : BitVec 32, (totalSize ebx ecx).toNat =
      ((ways.get ebx).toNat + 1) * ((physicalLinePartitions.get ebx).toNat + 1) *
        ((cacheLineSize.get ebx).toNat + 1) * ((numSets.get ecx).toNat + 1) := by
  intro exact
  have := exact 0x1C0103F 63
  revert this
  decide

end CacheParams

end PmcBench
