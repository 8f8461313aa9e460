import PmcBench.Actions

/-!
# Benchmark functions (benchmarks.cc, benchmarks.hh)

The functions share their pieces in the source by copying; here each is written
with the same few definitions. Output to the terminal, `clear_l1`, `clear_l2`,
`free` and the serialising instructions touch nothing the model has.
-/

namespace PmcBench
open Threads
open Program (forEach)

/-! ### Pieces -/

/-- `read_values(args.cpu_msr, store)` -/
def readValues (b : Build) (cpuMsr : Cpu) (store : Buf) : Prog Unit :=
  forEach b.counterTbl.rows fun i => do
    let _ ← perform (.readInto cpuMsr (b.counterTbl.row i).pmc store i)

/-- `args.values(c, args.counts) = store_end[c] - store_start[c]` for every row;
the first index is a `uint8_t`. -/
def recordDeltas (b : Build) : Prog Unit :=
  forEach b.counterTbl.rows fun c => do
    let k ← perform .counts
    let stop ← perform (.load .storeEnd c)
    let start ← perform (.load .storeStart c)
    perform (.setValue (c % 256) k (stop - start))

/-- The allocation of `store_start` and `store_end`. -/
def mallocStores (size : Nat) : Prog Unit := do
  perform (.malloc .storeStart size)
  perform (.malloc .storeEnd size)

/-- The block `if (sa_flag == false)`. -/
def setUpSharedArray (b : Build) : Prog Unit := do
  let saFlag ← perform .testFlag
  if saFlag = false then
    perform .setFlag
    perform (.mallocShared b.n)
    forEach (List.range b.n) fun i => perform (.storeShared i (BitVec.ofNat 64 i))

/-- `if (args.id == 1) while (!can_run);` -/
def waitForThread0 (args : ThreadArgs) : Prog Unit := do
  if args.id = 1 then
    perform .waitCanRun

/-- `if (args.id == 0) can_run = true;` -/
def letThread1Run (args : ThreadArgs) : Prog Unit := do
  if args.id = 0 then
    perform .setCanRun

/-- `gettimeofday` and `args.times.push_back(time)` -/
def takeTime : Prog Unit := do
  let tv ← perform .gettimeofday
  perform (.pushTime tv.micros)

/-- A sampling window: both readings of the counters around the measured code,
and the deltas. -/
def window (b : Build) (args : ThreadArgs) (measured : Prog Unit) : Prog Unit := do
  perform (.point .window)
  readValues b args.cpuMsr .storeStart
  measured
  readValues b args.cpuMsr .storeEnd
  recordDeltas b

/-- `for (i = 0; i < iterations; ++i) sample` -/
def samplingLoop (iterations : Nat) (sample : Nat → Prog Unit) : Prog Unit := do
  forEach (List.range iterations) fun i => do
    perform (.point .head)
    sample i
  perform (.point .head)

/-- The measured loops over `shared_array`. -/
def readShared (last : Nat) : Prog Unit := do
  perform (.point .measured)
  forEach (List.range last) fun j => do
    let _ ← perform (.loadShared j)

def writeShared (last : Nat) (v : Nat → Word) : Prog Unit := do
  perform (.point .measured)
  forEach (List.range last) fun j => perform (.storeShared j (v j))

/-- A sample of `bm_single_d_array_multithreaded_t1` to `_t4`. -/
def timedSample (b : Build) (args : ThreadArgs) (measured : Prog Unit) : Prog Unit := do
  takeTime
  window b args measured
  perform (.fakeOut none b.l2Size)
  perform .incCounts

/-! ### Benchmarks with a time stamp for each sample -/

/-- `j_last` is an `unsigned int`, so it takes `n` modulo 2^32. -/
def bmSingleDArrayMultithreadedT1 (b : Build) (args : ThreadArgs) : Prog Unit := do
  mallocStores b.nCustomCtr
  setUpSharedArray b
  waitForThread0 args
  samplingLoop args.iterations fun _ => timedSample b args (readShared (b.n % 2 ^ 32))
  letThread1Run args

def bmSingleDArrayMultithreadedT2 (b : Build) (args : ThreadArgs) : Prog Unit := do
  mallocStores b.nCustomCtr
  setUpSharedArray b
  waitForThread0 args
  samplingLoop (args.iterations / 2) fun _ => timedSample b args (readShared b.n)
  timedSample b args (writeShared b.n (BitVec.ofNat 64))
  samplingLoop (args.iterations / 2) fun _ => timedSample b args (readShared b.n)
  letThread1Run args

def bmSingleDArrayMultithreadedT3 (b : Build) (args : ThreadArgs) : Prog Unit := do
  mallocStores b.nCustomCtr
  setUpSharedArray b
  samplingLoop 9 fun _ => timedSample b args (readShared b.n)
  timedSample b args (writeShared b.n (BitVec.ofNat 64))

def bmSingleDArrayMultithreadedT4 (b : Build) (args : ThreadArgs) : Prog Unit := do
  mallocStores b.nCustomCtr
  setUpSharedArray b
  timedSample b args (writeShared b.n (BitVec.ofNat 64))
  samplingLoop 9 fun _ => timedSample b args (readShared b.n)

/-! ### Benchmarks without time stamps -/

/-- `L2_SIZE` as an `int`: modulo 2^32, with a sign. -/
def Build.intL2Size (b : Build) : Int := (b.l2Size : Int).bmod (2 ^ 32)

/-- The local `int n = L2_SIZE`; the array has one byte for each element. -/
def bmCacheLineTest (b : Build) (args : ThreadArgs) : Prog Unit := do
  let n := b.intL2Size
  mallocStores b.nCustomCtr
  perform (.malloc .a b.l2Size)
  forEach (List.range n.toNat) fun i => perform (.store .a i (BitVec.ofNat 64 (i % 256)))
  samplingLoop args.iterations fun i => do
    window b args do
      forEach (List.range 64) fun j => do
        let _ ← perform (.load .a j)
    perform .incCounts
    perform (.fakeOut (some .a) (n.tdiv 8))
    forEach (List.range' 64 (n.toNat - 64)) fun j => perform (.store .a j (BitVec.ofNat 64 (i * j % 256)))
    perform (.fakeOut (some .a) (n.tdiv 8))

def bmSingleDArrayWriteMultithreaded (b : Build) (args : ThreadArgs) : Prog Unit := do
  mallocStores b.nCustomCtr
  setUpSharedArray b
  samplingLoop args.iterations fun _ => do
    window b args (writeShared b.n fun j => BitVec.ofNat 64 (j + 1))
    perform (.fakeOut none 8)
    perform .incCounts

def bmSingleDArray (b : Build) (args : ThreadArgs) : Prog Unit := do
  mallocStores b.nCustomCtr
  perform (.malloc .a b.n)
  forEach (List.range b.n) fun i => perform (.store .a i (BitVec.ofNat 64 i))
  samplingLoop args.iterations fun _ => do
    window b args do
      forEach (List.range b.n) fun j => do
        let _ ← perform (.load .a j)
    perform (.fakeOut (some .a) 8)
    perform .incCounts

/-- `arr_2d[i][j] = i + j` for all 1024 rows of 16. -/
def fillArr2d : Prog Unit :=
  forEach (List.range 1024) fun i =>
    forEach (List.range 16) fun j => perform (.store2d i j (BitVec.ofNat 64 (i + j)))

def bm2dArray (b : Build) (args : ThreadArgs) : Prog Unit := do
  mallocStores b.nCustomCtr
  fillArr2d
  samplingLoop args.iterations fun _ => do
    window b args do
      forEach (List.range 1024) fun i =>
        forEach (List.range 16) fun j => do
          let _ ← perform (.load2d i j)
    perform .incCounts

def bm2dArrayNonCont (b : Build) (args : ThreadArgs) : Prog Unit := do
  mallocStores b.nCustomCtr
  fillArr2d
  samplingLoop args.iterations fun _ => do
    window b args do
      forEach (List.range 16) fun j =>
        forEach (List.range 1024) fun i => do
          let _ ← perform (.load2d i j)
    perform .incCounts

/-- `a` is `malloc(L2_SIZE)` bytes of `uint64_t`; the fill counts `L2_SIZE` elements. -/
def onedArrays (b : Build) (args : ThreadArgs) : Prog Unit := do
  mallocStores (b.nCustomCtr + b.nFixedCtr)
  perform (.malloc .a (b.l2Size / 8))
  forEach (List.range b.l2Size) fun i => do
    let x ← perform .xorshift128plus
    perform (.store .a i (x >>> 11))
  samplingLoop args.iterations fun _ => do
    window b args (pure ())
    perform .incCounts

/-- `a[i][j]` of `uint64_t a[nrows][ncols]` is element `i * ncols + j`. -/
def cacheWork (b : Build) (args : ThreadArgs) : Prog Unit := do
  let nrows := 50
  let ncols := 10
  mallocStores (b.nCustomCtr + b.nFixedCtr)
  perform (.malloc .a (nrows * ncols))
  forEach (List.range nrows) fun i =>
    forEach (List.range ncols) fun j => do
      let x ← perform .xorshift128plus
      perform (.store .a (i * ncols + j) (x >>> 11))
  samplingLoop args.iterations fun _ => do
    window b args do
      forEach (List.range ncols) fun i =>
        forEach (List.range nrows) fun j => do
          let x ← perform (.load .a (i * ncols + j))
          perform (.store .a (i * ncols + j) (2 * x))
    perform .incCounts

/-! ### The table of benchmarks -/

/-- The benchmark functions of benchmarks.hh that return. `file_work` does not: it
ends its thread with `pthread_exit`, and it takes no samples. -/
inductive Benchmark where
  | bmSingleDArrayMultithreadedT1
  | bmSingleDArrayMultithreadedT2
  | bmSingleDArrayMultithreadedT3
  | bmSingleDArrayMultithreadedT4
  | bmCacheLineTest
  | bmSingleDArray
  | bm2dArray
  | bm2dArrayNonCont
  | cacheWork
  | onedArrays
  | bmSingleDArrayWriteMultithreaded
  deriving DecidableEq

namespace Benchmark

def body : Benchmark → Build → ThreadArgs → Prog Unit
  | bmSingleDArrayMultithreadedT1 => PmcBench.bmSingleDArrayMultithreadedT1
  | bmSingleDArrayMultithreadedT2 => PmcBench.bmSingleDArrayMultithreadedT2
  | bmSingleDArrayMultithreadedT3 => PmcBench.bmSingleDArrayMultithreadedT3
  | bmSingleDArrayMultithreadedT4 => PmcBench.bmSingleDArrayMultithreadedT4
  | bmCacheLineTest => PmcBench.bmCacheLineTest
  | bmSingleDArray => PmcBench.bmSingleDArray
  | bm2dArray => PmcBench.bm2dArray
  | bm2dArrayNonCont => PmcBench.bm2dArrayNonCont
  | cacheWork => PmcBench.cacheWork
  | onedArrays => PmcBench.onedArrays
  | bmSingleDArrayWriteMultithreaded => PmcBench.bmSingleDArrayWriteMultithreaded

/-- `bm_single_d_array_multithreaded_t1` to `_t4`, which take the time of each sample. -/
def timed : Benchmark → Bool
  | bmSingleDArrayMultithreadedT1 | bmSingleDArrayMultithreadedT2 | bmSingleDArrayMultithreadedT3
  | bmSingleDArrayMultithreadedT4 => true
  | _ => false

/-- `bm_single_d_array_multithreaded_t1` and `_t2`, which pass `can_run` on. -/
def gated : Benchmark → Bool
  | bmSingleDArrayMultithreadedT1 | bmSingleDArrayMultithreadedT2 => true
  | _ => false

/-- The number of samples a run takes. -/
def samples : Benchmark → Nat → Nat
  | bmSingleDArrayMultithreadedT2, iterations => iterations / 2 + 1 + iterations / 2
  | bmSingleDArrayMultithreadedT3, _ | bmSingleDArrayMultithreadedT4, _ => 10
  | _, iterations => iterations

end Benchmark

end PmcBench
