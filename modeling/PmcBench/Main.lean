import PmcBench.ConfigureCounters
import PmcBench.Benchmarks

/-!
# main (main.cc)

`main` after option parsing: programming the counters, creating and pinning the
workers, writing the log, and cleaning up; and the process it makes together
with its workers.
-/

namespace PmcBench
open Threads
open Program (forEach)

/-- The columns of a `do { ... c++; } while (counter_tbl[c].name)` loop; `c` is a
`uint8_t`. With 256 rows or more the loop would go round for ever; here it has 256 columns,
and what is said of a log is said of fewer rows. -/
def columns (b : Build) : List Nat := 0 :: b.counterTbl.namedFrom 255 1

theorem columns_eq {b : Build} (some : 0 < b.counterTbl.size) : columns b = List.range (min 256 b.counterTbl.size) := by
  rw [columns, b.counterTbl.namedFrom_eq 255 1 some, List.range_eq_range',
    show min 256 b.counterTbl.size = min 255 (b.counterTbl.size - 1) + 1 by omega, List.range'_succ]

def printHeader (b : Build) : Prog Unit := do
  perform (.fprintf .tidTime)
  forEach (columns b) fun i => perform (.fprintf (.name (b.counterTbl.row i).name))
  perform (.fprintf .newline)

/-- The rows of thread `i`. -/
def printRows (b : Build) (i : Nat) : Prog Unit := do
  let counts ← perform (.argsCounts i)
  forEach (List.range counts) fun j => do
    let time ← perform (.argsTimes i j)
    perform (.fprintf (.row i time))
    forEach (columns b) fun c => do
      let v ← perform (.argsValues i c j)
      perform (.fprintf (.value v))
    perform (.fprintf .newline)

/-- The log, from `fopen` to before `fclose`. A log that could not be opened is
reported and then used all the same. -/
def writeLog (b : Build) (threads : Nat) : Prog Unit := do
  let f ← perform .fopen
  if f then printHeader b
  forEach (List.range threads) fun i => do
    perform (.join i)
    printRows b i

/-- The set-up of the benchmark threads. The source gives every thread the same
`iterations`. -/
def createThreads (cpuMsr : Nat → Option Cpu) (cpus : List Cpu) (iterations : Nat → Nat) : Prog Unit :=
  forEach (List.range cpus.length) fun i => do
    perform (.createThread i ⟨iterations i, i, (cpuMsr i).getD 0⟩)
    perform (.pinThread (.worker i) (cpus.getD i 0))

/-- The end of `main`: the log is closed and the MSRs are cleaned. -/
def cleanUp (b : Build) (cpuMsr : Nat → Option Cpu) (cpus : List Cpu) : Prog Unit := do
  perform .fclose
  let _ ← configureCounters b cpuMsr cpus false

def main (b : Build) (cpus : List Cpu) (iterations : Nat → Nat) : Prog Unit := do
  perform (.pinThread .main 0)
  let cpuMsr ← configureCounters b (fun _ => none) cpus true
  createThreads cpuMsr cpus iterations
  writeLog b cpus.length
  cleanUp b cpuMsr cpus

/-- The life of a worker thread that runs `func[i]`. -/
def worker (b : Build) (bm : Benchmark) : Prog Unit := do
  let args ← perform .threadStart
  bm.body b args
  perform .threadExit

/-- The programs of the process when `main` starts. -/
def pool (b : Build) (cpus : List Cpu) (func : Nat → Benchmark) (iterations : Nat → Nat) : Tid → Prog Unit
  | .main => main b cpus iterations
  | .worker i => worker b (func i)

end PmcBench
