import PmcBench.Accesses
import PmcBench.Words.Traversal

/-!
# The locality of the 2-D benchmarks

`bm_2d_array` and `bm_2d_array_non_cont` read the same elements, the one line by line,
the other changing the line with every access. Both are stated here for an array of any
size; benchmarks.hh has 1024 rows of 16.
-/

namespace PmcBench
open Threads Words
open Program (forEach)

variable {b : Build} {rows columns : Nat}

/-! ### The benchmarks for an array of any size -/

def fillArr2dSized (rows columns : Nat) : Prog Unit :=
  forEach (List.range rows) fun i =>
    forEach (List.range columns) fun j => perform (.store2d i j (BitVec.ofNat 64 (i + j)))

def bm2dArraySized (rows columns : Nat) (b : Build) (args : ThreadArgs) : Prog Unit := do
  mallocStores b.nCustomCtr
  fillArr2dSized rows columns
  samplingLoop args.iterations fun _ => do
    window b args do
      forEach (List.range rows) fun i =>
        forEach (List.range columns) fun j => do
          let _ ← perform (.load2d i j)
    perform .incCounts

def bm2dArrayNonContSized (rows columns : Nat) (b : Build) (args : ThreadArgs) : Prog Unit := do
  mallocStores b.nCustomCtr
  fillArr2dSized rows columns
  samplingLoop args.iterations fun _ => do
    window b args do
      forEach (List.range columns) fun j =>
        forEach (List.range rows) fun i => do
          let _ ← perform (.load2d i j)
    perform .incCounts

theorem bm2dArray_eq : bm2dArray = bm2dArraySized 1024 16 := rfl

theorem bm2dArrayNonCont_eq : bm2dArrayNonCont = bm2dArrayNonContSized 1024 16 := rfl

/-! ### The sequences of reads -/

/-- The element of `arr_2d` that is read. -/
def Action.reads2d : Action → Option (Nat × Nat)
  | .load2d i j => some (i, j)
  | _ => none

theorem inert_reads2d : Inert Action.reads2d := by
  intro o own
  cases o
  case load2d => cases own
  all_goals rfl

theorem readsNothing_fill (rows columns : Nat) :
    (fillArr2dSized rows columns).All fun o => windowed Action.reads2d o = none :=
  .forEach fun _ _ => .forEach fun _ _ => ⟨rfl, fun _ => trivial⟩

/-- Every iteration reads what its two nested loops read. -/
theorem accesses_sized {args : ThreadArgs} {loops : Prog Unit} {order : List (Nat × Nat)}
    (reads : loops.Performs (windowed Action.reads2d) (order.map some)) {V : View Action Action.Res} {s t : V.St}
    {tr : List (Σ o : Action, o.Res)} (run : V.Run (do
      mallocStores b.nCustomCtr
      fillArr2dSized rows columns
      samplingLoop args.iterations fun _ => do
        window b args loops
        perform .incCounts) s tr (.done ()) t) :
    accesses Action.reads2d tr = List.replicate args.iterations order := by
  apply accesses_of_performs run
  have stores : (mallocStores b.nCustomCtr).All fun o => windowed Action.reads2d o = none :=
    all_mallocStores (fun _ => rfl) (fun _ => rfl) _
  refine .before stores fun _ => .before (readsNothing_fill rows columns) fun _ => ?_
  apply performs_samplingLoop inert_reads2d
  intro _
  exact .after (performs_window inert_reads2d reads) fun _ => (Program.all_call _).mpr rfl

theorem accesses_2dArray {args : ThreadArgs} {V : View Action Action.Res} {s t : V.St} {tr : List (Σ o : Action, o.Res)}
    (run : V.Run (bm2dArraySized rows columns b args) s tr (.done ()) t) :
    accesses Action.reads2d tr = List.replicate args.iterations (rowWise rows columns) := by
  apply accesses_sized _ run
  rw [rowWise, List.map_flatMap]
  refine .forEach fun i _ => ?_
  rw [List.map_map]
  exact .forEach_one fun j _ => performs_access (by simp) rfl

theorem accesses_2dArrayNonCont {args : ThreadArgs} {V : View Action Action.Res} {s t : V.St}
    {tr : List (Σ o : Action, o.Res)} (run : V.Run (bm2dArrayNonContSized rows columns b args) s tr (.done ()) t) :
    accesses Action.reads2d tr = List.replicate args.iterations (columnWise rows columns) := by
  apply accesses_sized _ run
  rw [columnWise, List.map_flatMap]
  refine .forEach fun j _ => ?_
  rw [List.map_map]
  exact .forEach_one fun i _ => performs_access (by simp) rfl

/-! ### Lines -/

/-- The 64-byte line of an element of 8 bytes, row-major from the address `base`. -/
def lineOf (base columns : Nat) (p : Nat × Nat) : Nat := (base + 8 * (p.1 * columns + p.2)) / 64

/-- The same reads, with the number of lines that their order makes of them. -/
structure SameWork (base rows columns : Nat) (first second : List (Nat × Nat)) : Prop where
  perm : second.Perm first
  once : first.Nodup
  cells : ∀ p, p ∈ first ↔ p.1 < rows ∧ p.2 < columns
  last : ∃ p, first.getLast? = some p ∧ second.getLast? = some p
  firstRuns : runs (lineOf base columns) first = rows * columns / 8
  secondRuns : runs (lineOf base columns) second = rows * columns

theorem lineOf_eq {base k : Nat} (aligned : 64 ∣ base) (i j : Nat) :
    lineOf base (8 * k) (i, j) = base / 64 + i * k + j / 8 := by
  have row : i * (8 * k) = 8 * (i * k) := Nat.mul_left_comm i 8 k
  unfold lineOf
  dsimp only
  rw [row]
  omega

theorem runs_rowWise {base k : Nat} (aligned : 64 ∣ base) (some : 0 < k) :
    runs (lineOf base (8 * k)) (rowWise rows (8 * k)) = rows * k := by
  have blocks : rowWise rows (8 * k) = (List.range (rows * k)).flatMap fun q =>
      (List.range 8).map fun r => ((q * 8 + r) / (8 * k), (q * 8 + r) % (8 * k)) := by
    have cells : rows * (8 * k) = rows * k * 8 := by rw [Nat.mul_comm 8, Nat.mul_assoc]
    rw [rowWise_eq_map (by omega), cells, range_mul _ (by omega), List.map_flatMap]
    simp only [List.map_map]
    rfl
  rw [blocks, runs_flatMap fun q => base / 64 + q]
  · exact List.length_range
  · intro q
    simp
  · intro q p member
    obtain ⟨r, lt, rfl⟩ := List.mem_map.mp member
    have lt := List.mem_range.mp lt
    have position := Nat.div_add_mod' (q * 8 + r) (8 * k)
    rw [lineOf]
    dsimp only
    rw [position]
    omega
  · rw [List.isChain_range]
    intro q _
    omega

theorem runs_columnWise {base k : Nat} (aligned : 64 ∣ base) (two : 2 ≤ rows) (some : 0 < k) :
    runs (lineOf base (8 * k)) (columnWise rows (8 * k)) = rows * (8 * k) := by
  have length : (columnWise rows (8 * k)).length = rows * (8 * k) := by
    rw [columnWise_eq_map (by omega), List.length_map, List.length_range, Nat.mul_comm]
  rw [← length]
  apply runs_of_apart
  rw [columnWise_eq_map (by omega), List.isChain_map, List.isChain_range]
  intro e lt
  obtain ⟨i, j, row, rfl⟩ : ∃ i j, i < rows ∧ e = rows * j + i :=
    ⟨e % rows, e / rows, Nat.mod_lt e (by omega), (Nat.div_add_mod e rows).symm⟩
  have here : ((rows * j + i) % rows, (rows * j + i) / rows) = (i, j) := by
    rw [Nat.mul_add_mod, Nat.mod_eq_of_lt row, Nat.mul_add_div (by omega), Nat.div_eq_of_lt row, Nat.add_zero]
  rw [here, lineOf_eq aligned]
  by_cases inside : i + 1 < rows
  · -- The next row of the column is `k` lines away.
    have next : ((rows * j + i).succ % rows, (rows * j + i).succ / rows) = (i + 1, j) := by
      rw [Nat.succ_eq_add_one, Nat.add_assoc, Nat.mul_add_mod, Nat.mod_eq_of_lt inside, Nat.mul_add_div (by omega),
        Nat.div_eq_of_lt inside]
      rfl
    rw [next, lineOf_eq aligned, Nat.succ_mul]
    omega
  · -- From the last row, `k` lines or more from the start, to the first line of the array.
    have wrap : (rows * j + i).succ = rows * (j + 1) := by
      rw [Nat.mul_succ]
      omega
    have next : ((rows * j + i).succ % rows, (rows * j + i).succ / rows) = (0, j + 1) := by
      rw [wrap, Nat.mul_mod_right, Nat.mul_div_cancel_left _ (by omega)]
    have column : j + 1 < 8 * k := by
      have bound : rows * (j + 1) < rows * (8 * k) := by
        rw [← wrap, Nat.mul_comm rows (8 * k)]
        omega
      exact Nat.lt_of_mul_lt_mul_left bound
    have far : 1 * k ≤ i * k := Nat.mul_le_mul_right k (by omega)
    rw [next, lineOf_eq aligned]
    omega

theorem sameWork {base : Nat} (two : 2 ≤ rows) (some : 0 < columns) (line : 8 ∣ columns) (aligned : 64 ∣ base) :
    SameWork base rows columns (rowWise rows columns) (columnWise rows columns) := by
  obtain ⟨k, rfl⟩ := line
  have lines : rows * (8 * k) / 8 = rows * k := by
    rw [Nat.mul_left_comm, Nat.mul_div_cancel_left _ (by omega)]
  exact
    { perm := columnWise_perm rows (8 * k)
      once := nodup_rowWise rows (8 * k)
      cells := fun p => mem_rowWise
      last := ⟨_, getLast?_rowWise (by omega) some, getLast?_columnWise (by omega) some⟩
      firstRuns := by rw [lines]; exact runs_rowWise aligned (by omega)
      secondRuns := runs_columnWise aligned two (by omega) }

/-- Every iteration of the two benchmarks. -/
theorem iterations_sameWork {base : Nat} (two : 2 ≤ rows) (some : 0 < columns) (line : 8 ∣ columns) (aligned : 64 ∣ base)
    {args args' : ThreadArgs} {V : View Action Action.Res} {s t s' t' : V.St} {tr tr' : List (Σ o : Action, o.Res)}
    (run : V.Run (bm2dArraySized rows columns b args) s tr (.done ()) t)
    (run' : V.Run (bm2dArrayNonContSized rows columns b args') s' tr' (.done ()) t') :
    ∃ first second, SameWork base rows columns first second ∧
      accesses Action.reads2d tr = List.replicate args.iterations first ∧
      accesses Action.reads2d tr' = List.replicate args'.iterations second :=
  ⟨_, _, sameWork two some line aligned, accesses_2dArray run, accesses_2dArrayNonCont run'⟩

/-- The 1024 rows of 16 of the source: 2048 lines against 16384. -/
theorem sameWork_arr2d : ∃ tr tr' first second,
    (View.free : View Action Action.Res).Run (bm2dArray dedos07 { iterations := 10, id := 0, cpuMsr := 1 }) () tr
      (.done ()) () ∧
    (View.free : View Action Action.Res).Run (bm2dArrayNonCont dedos07 { iterations := 10, id := 0, cpuMsr := 1 }) () tr'
      (.done ()) () ∧
    accesses Action.reads2d tr = List.replicate 10 first ∧ accesses Action.reads2d tr' = List.replicate 10 second ∧
    second.Perm first ∧ runs (lineOf 0 16) first = 2048 ∧ runs (lineOf 0 16) second = 16384 := by
  rw [bm2dArray_eq, bm2dArrayNonCont_eq]
  obtain ⟨tr, run⟩ := run_free (bm2dArraySized 1024 16 dedos07 { iterations := 10, id := 0, cpuMsr := 1 })
  obtain ⟨tr', run'⟩ := run_free (bm2dArrayNonContSized 1024 16 dedos07 { iterations := 10, id := 0, cpuMsr := 1 })
  have iterations : ∃ first second, SameWork 0 1024 16 first second ∧ accesses Action.reads2d tr = List.replicate 10 first ∧
      accesses Action.reads2d tr' = List.replicate 10 second :=
    iterations_sameWork (by omega) (by omega) (by omega) (by omega) run run'
  obtain ⟨first, second, same, reads, reads'⟩ := iterations
  exact ⟨tr, tr', first, second, run, run', reads, reads', same.perm, same.firstRuns, same.secondRuns⟩

end PmcBench
