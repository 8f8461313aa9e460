import PmcBench.Words.BitField

/-!
# Registers and counter tables (types.h)

The model-specific registers the tool touches, the layouts of the two control
registers, and the table of counters that every loop of the tool walks.
-/

namespace PmcBench
open Words

abbrev Word := BitVec 64

/-- The index of a logical processor, `uint8_t` in `cpus`. -/
abbrev Cpu := UInt8

def perfMaxCustomCounters : Nat := 8

def ia32CrFixedCtrCtrl : Nat := 0x38D
def ia32CrPerfGlobalCtrl : Nat := 0x38F
def ia32Pmc0 : Nat := 0xC1
def ia32Perfevtsel0Addr : Nat := 0x186

/-! ### Configuration registers -/

namespace FixedEventControlRegister

/-- `os0`, `os1`, `os2`; the fields of counter `k` fill bits `4k` to `4k + 3`. -/
def os (k : Fin 3) : BitField 64 := ⟨4 * k, 1, by omega⟩
def usr (k : Fin 3) : BitField 64 := ⟨4 * k + 1, 1, by omega⟩
def anyThread (k : Fin 3) : BitField 64 := ⟨4 * k + 2, 1, by omega⟩
def enablePmi (k : Fin 3) : BitField 64 := ⟨4 * k + 3, 1, by omega⟩

end FixedEventControlRegister

namespace EventSelectRegister

def eventSelect : BitField 64 := { lo := 0, width := 8 }
def umask : BitField 64 := { lo := 8, width := 8 }
def usr : BitField 64 := { lo := 16, width := 1 }
def os : BitField 64 := { lo := 17, width := 1 }
def edge : BitField 64 := { lo := 18, width := 1 }
def pinControl : BitField 64 := { lo := 19, width := 1 }
def apicInt : BitField 64 := { lo := 20, width := 1 }
def anyThread : BitField 64 := { lo := 21, width := 1 }
def enable : BitField 64 := { lo := 22, width := 1 }
def invert : BitField 64 := { lo := 23, width := 1 }
def cmask : BitField 64 := { lo := 24, width := 8 }
def inTx : BitField 64 := { lo := 32, width := 1 }
def inTxcp : BitField 64 := { lo := 33, width := 1 }
def reservedX : BitField 64 := { lo := 34, width := 30 }

/-- The bit-fields of the register, read one by one. -/
structure Fields where
  eventSelect : BitVec 8 := 0
  umask : BitVec 8 := 0
  usr : BitVec 1 := 0
  os : BitVec 1 := 0
  edge : BitVec 1 := 0
  pinControl : BitVec 1 := 0
  apicInt : BitVec 1 := 0
  anyThread : BitVec 1 := 0
  enable : BitVec 1 := 0
  invert : BitVec 1 := 0
  cmask : BitVec 8 := 0
  inTx : BitVec 1 := 0
  inTxcp : BitVec 1 := 0
  reservedX : BitVec 30 := 0
  deriving DecidableEq

def fields (value : Word) : Fields where
  eventSelect := eventSelect.get value
  umask := umask.get value
  usr := usr.get value
  os := os.get value
  edge := edge.get value
  pinControl := pinControl.get value
  apicInt := apicInt.get value
  anyThread := anyThread.get value
  enable := enable.get value
  invert := invert.get value
  cmask := cmask.get value
  inTx := inTx.get value
  inTxcp := inTxcp.get value
  reservedX := reservedX.get value

end EventSelectRegister

/-! ### Counter tables -/

inductive CtrType where
  | fixedCtr | customCtr
  deriving DecidableEq

structure CounterTableT where
  name : Option String
  ctrType : CtrType
  evtnr : Nat
  umask : Nat
  cfgReg : Nat
  pmc : Nat
  id : Nat
  deriving DecidableEq

/-- `{ NULL, 0x0, ... }`, the row that ends a table. -/
def nullRow : CounterTableT := ⟨none, .fixedCtr, 0, 0, 0, 0, 0⟩

/-- A counter table in memory: `size` named rows, the NULL row, and whatever
the memory behind it holds. -/
structure CounterTbl where
  row : Nat → CounterTableT
  size : Nat
  named : ∀ c < size, (row c).name.isSome
  sentinel : row size = nullRow

namespace CounterTbl

def ofRows (rows : List CounterTableT) (named : ∀ r ∈ rows, r.name.isSome) : CounterTbl where
  row c := rows.getD c nullRow
  size := rows.length
  named c bound := by
    simpa [List.getD, List.getElem?_eq_getElem bound] using named _ (List.getElem_mem bound)
  sentinel := by simp

/-- The indices at which `for (c = i; counter_tbl[c].name; ++c)` runs its body. -/
def namedFrom (t : CounterTbl) : Nat → Nat → List Nat
  | 0, _ => []
  | fuel + 1, c => if (t.row c).name.isSome then c :: t.namedFrom fuel (c + 1) else []

def rows (t : CounterTbl) : List Nat := t.namedFrom (t.size + 1) 0

theorem namedFrom_eq (t : CounterTbl) (fuel c : Nat) (inside : c ≤ t.size) :
    t.namedFrom fuel c = List.range' c (min fuel (t.size - c)) := by
  induction fuel generalizing c with
  | zero => simp [namedFrom]
  | succ fuel ih =>
    rw [namedFrom]
    by_cases last : c = t.size
    · subst last
      simp [t.sentinel, nullRow]
    · rw [if_pos (t.named c (by omega)), ih (c + 1) (by omega),
        show min (fuel + 1) (t.size - c) = min fuel (t.size - (c + 1)) + 1 by omega, List.range'_succ]

/-- A loop that stops at the NULL name stays before it. -/
theorem lt_of_mem_namedFrom (t : CounterTbl) {fuel c d : Nat} (start : c ≤ t.size) (member : d ∈ t.namedFrom fuel c) :
    d < t.size := by
  induction fuel generalizing c with
  | zero => simp [namedFrom] at member
  | succ fuel ih =>
    rw [namedFrom] at member
    split at member
    · rename_i name
      have before : c ≠ t.size := by
        rintro rfl
        simp [t.sentinel, nullRow] at name
      rcases List.mem_cons.mp member with rfl | later
      · omega
      · exact ih (by omega) later
    · simp at member

/-- The loops that stop at the NULL name visit exactly the rows before it. -/
@[simp] theorem rows_eq (t : CounterTbl) : t.rows = List.range t.size := by
  rw [rows, t.namedFrom_eq (t.size + 1) 0 (Nat.zero_le _), List.range_eq_range', Nat.sub_zero, Nat.min_eq_right (by omega)]

end CounterTbl

/-! ### The build -/

/-- The compile-time constants of benchmarks.hh and the selected table. -/
structure Build where
  nFixedCtr : Nat
  nCustomCtr : Nat
  maxPts : Nat
  l2Size : Nat
  counterTbl : CounterTbl

/-- `n = (L2_SIZE / sizeof(uint64_t)) / 2`, the length of the shared array. -/
def Build.n (b : Build) : Nat := b.l2Size / 8 / 2

/-- The counter table types.h selects with `#if 1`. -/
def counterTbl : CounterTbl := .ofRows
  [⟨some "L2_REFS", .customCtr, 0x24, 0xFF, 0x186, 0xC1, 0⟩,
   ⟨some "L2_MISSES", .customCtr, 0x24, 0x3F, 0x187, 0xC2, 1⟩,
   ⟨some "L2_RFO_HITS", .customCtr, 0x24, 0x42, 0x188, 0xC3, 2⟩,
   ⟨some "L2_RFO_MISSES", .customCtr, 0x24, 0x22, 0x189, 0xC4, 3⟩,
   ⟨some "OFFCORE_RFO", .customCtr, 0xB0, 0x04, 0x18A, 0xC5, 4⟩,
   ⟨some "L3_REFS", .customCtr, 0x2E, 0x4F, 0x18B, 0xC6, 5⟩,
   ⟨some "L2_PF_HITS", .customCtr, 0x24, 0x50, 0x18C, 0xC7, 6⟩,
   ⟨some "L2_PF_MISSES", .customCtr, 0x24, 0x30, 0x18D, 0xC8, 7⟩] (by decide)

/-- The counter table of the `#else` branch of types.h. -/
def counterTblAlt : CounterTbl := .ofRows
  [⟨some "L2_LOAD_HITS", .customCtr, 0xD1, 0x02, 0x186, 0xC1, 0⟩,
   ⟨some "L2_LOAD_MISSES", .customCtr, 0xD1, 0x10, 0x187, 0xC2, 1⟩,
   ⟨some "L2_REFS", .customCtr, 0x24, 0xFF, 0x188, 0xC3, 2⟩,
   ⟨some "L2_MISSES", .customCtr, 0x24, 0x3F, 0x189, 0xC4, 3⟩,
   ⟨some "L3_HITS", .customCtr, 0x2E, 0x4F, 0x18A, 0xC5, 4⟩,
   ⟨some "L3_MISSES", .customCtr, 0x2E, 0x41, 0x18B, 0xC6, 5⟩] (by decide)

/-- The build of the repository: `N_FIXED_CTR`, `N_CUSTOM_CTR`, `MAX_PTS` and the
`L2_SIZE` of `DEDOS_07`. -/
def dedos07 : Build where
  nFixedCtr := 0
  nCustomCtr := 8
  maxPts := 50000
  l2Size := 262144
  counterTbl := counterTbl

end PmcBench
