import Mathlib.Logic.Function.Basic
import PmcBench.Threads.System
import PmcBench.Pmu

/-!
# Atomic actions and the world they act on

Each access that another thread, the hardware or the file system can observe
is one action; so is each access to memory a benchmark owns, so that bounds can
be stated. An action without a step (a null `shared_array`, a NULL `FILE *`, a
failed `assert`, a missing element of `times`) ends the process.
-/

namespace PmcBench
open Threads

inductive Tid where
  | main
  | worker (i : Nat)
  deriving DecidableEq

/-- The part of `ThreadArgs` that `main` fills in. A `MsrHandle *` is the CPU
whose device it has open. -/
structure ThreadArgs where
  iterations : Nat
  id : Nat
  cpuMsr : Cpu
  deriving DecidableEq, Inhabited

structure Timeval where
  tvSec : Nat
  tvUsec : Nat
  deriving Inhabited

namespace Timeval

def ofMicros (t : Word) : Timeval := ⟨t.toNat / 1000000, t.toNat % 1000000⟩

/-- `tv.tv_sec*(uint64_t)1000000+tv.tv_usec` -/
def micros (tv : Timeval) : Word := BitVec.ofNat 64 (tv.tvSec * 1000000 + tv.tvUsec)

@[simp] theorem micros_ofMicros (t : Word) : (ofMicros t).micros = t := by
  have whole : t.toNat / 1000000 * 1000000 + t.toNat % 1000000 = t.toNat := by omega
  simp [micros, ofMicros, whole]

end Timeval

/-- The buffers a benchmark allocates for itself. -/
inductive Buf where
  | storeStart | storeEnd | a
  deriving DecidableEq

/-- Program points that the specifications speak about; they have no effect. -/
inductive Point where
  /-- The head of a sampling loop, and its end. -/
  | head
  /-- A sampling window opens: `read_values` into `store_start` comes next. -/
  | window
  /-- The measured loop over `shared_array` comes next. -/
  | measured
  deriving DecidableEq

/-- One `fprintf` to the log: its format and arguments. -/
inductive Piece where
  /-- `"TID\tTIME"` -/
  | tidTime
  /-- `"\t%s"` -/
  | name (s : Option String)
  /-- `"%u\t%lu"` -/
  | row (tid : Nat) (time : Word)
  /-- `"\t%lu"` -/
  | value (v : Word)
  /-- `"\n"` -/
  | newline
  deriving DecidableEq

inductive Action where
  | openMsr (cpu : Cpu)
  | msrWrite (cpu : Cpu) (reg : Nat) (value : Word)
  | msrRead (cpu : Cpu) (reg : Nat)
  | assert (cond : Bool)
  | pinThread (t : Tid) (cpu : Cpu)
  | createThread (i : Nat) (args : ThreadArgs)
  | join (i : Nat)
  | argsCounts (i : Nat)
  | argsTimes (i j : Nat)
  | argsValues (i c j : Nat)
  | fopen
  | fprintf (p : Piece)
  | fclose
  | threadStart
  | threadExit
  | testFlag
  | setFlag
  | mallocShared (n : Nat)
  | storeShared (j : Nat) (v : Word)
  | loadShared (j : Nat)
  | waitCanRun
  | setCanRun
  | xorshift128plus
  | load2d (i j : Nat)
  | store2d (i j : Nat) (v : Word)
  | gettimeofday
  | readInto (cpu : Cpu) (reg : Nat) (store : Buf) (i : Nat)
  | malloc (b : Buf) (n : Nat)
  | load (b : Buf) (i : Nat)
  | store (b : Buf) (i : Nat) (v : Word)
  | pushTime (t : Word)
  | counts
  | setValue (c k : Nat) (v : Word)
  | incCounts
  | fakeOut (b : Option Buf) (bytes : Int)
  | point (p : Point)
  deriving DecidableEq

/-- What an action returns. A read of an MSR returns nothing when it fails and
leaves `*value` alone; a write returns whether it succeeded. -/
@[reducible] def Action.Res : Action → Type
  | .msrWrite .. => Bool
  | .msrRead .. | .readInto .. => Option Word
  | .argsCounts _ | .counts => Nat
  | .argsTimes .. | .argsValues .. | .loadShared _ | .xorshift128plus | .load2d .. | .load .. => Word
  | .fopen | .testFlag => Bool
  | .threadStart => ThreadArgs
  | .gettimeofday => Timeval
  | _ => Unit

abbrev Prog := Program Action Action.Res

abbrev perform (o : Action) : Prog o.Res := Program.call o

/-! ### Memory of one benchmark thread -/

/-- An allocated buffer; a cell without a value is uninitialised. -/
structure Buffer where
  size : Nat
  cell : Nat → Option Word

def Buffer.write (buf : Buffer) (i : Nat) (v : Word) : Buffer :=
  { buf with cell := Function.update buf.cell i (some v) }

/-- The profiling part of `ThreadArgs`. `values` is the memory of the
`MultiArray`, in which `values(x, y)` is at `x * MAX_PTS + y`, unchecked. -/
structure Profile where
  values : Nat → Word
  counts : Nat
  times : List Word

structure Local where
  prof : Profile
  mem : Buf → Option Buffer

namespace Local

def InBounds (l : Local) (b : Buf) (i : Nat) : Prop := ∃ buf, l.mem b = some buf ∧ i < buf.size

def alloc (l : Local) (b : Buf) (n : Nat) : Local :=
  { l with mem := Function.update l.mem b (some ⟨n, fun _ => none⟩) }

/-- A store; outside the buffer it hits memory that no benchmark reads. -/
def write (l : Local) (b : Buf) (i : Nat) (v : Word) : Local :=
  match l.mem b with
  | some buf => if i < buf.size then { l with mem := Function.update l.mem b (some (buf.write i v)) } else l
  | none => l

def cell (l : Local) (b : Buf) (i : Nat) : Option Word :=
  match l.mem b with
  | some buf => if i < buf.size then buf.cell i else none
  | none => none

def pushTime (l : Local) (t : Word) : Local := { l with prof := { l.prof with times := l.prof.times ++ [t] } }

def setValue (maxPts : Nat) (l : Local) (c k : Nat) (v : Word) : Local :=
  { l with prof := { l.prof with values := Function.update l.prof.values (c * maxPts + k) v } }

def incCounts (l : Local) : Local := { l with prof := { l.prof with counts := l.prof.counts + 1 } }

/-- The effect of an action on the thread's own memory. What other memory, a
device or the clock answers is left open here. -/
def step (b : Build) (l : Local) : (o : Action) → o.Res → Local → Prop
  | .malloc buf n, _, l' => l' = l.alloc buf n
  | .load buf i, r, l' => (∀ v, l.cell buf i = some v → r = v) ∧ l' = l
  | .store buf i v, _, l' => l' = l.write buf i v
  | .readInto _ _ buf i, some v, l' => l' = l.write buf i v
  | .pushTime t, _, l' => l' = l.pushTime t
  | .counts, r, l' => r = l.prof.counts ∧ l' = l
  | .setValue c k v, _, l' => l' = l.setValue b.maxPts c k v
  | .incCounts, _, l' => l' = l.incCounts
  | _, _, l' => l' = l

end Local

/-! ### The world -/

structure Worker where
  started : Bool
  finished : Bool
  pinned : Bool
  /-- The CPU the thread is running on. -/
  cpu : Cpu
  args : ThreadArgs
  mem : Local

structure World where
  msr : Cpu → Regs
  saFlag : Bool
  canRun : Bool
  sharedArray : Option Buffer
  arr2d : Nat → Nat → Word
  matRng : Word × Word
  clock : Word
  worker : Nat → Worker
  /-- What has been written to the log; `none` for a NULL `FILE *`. -/
  file : Option (List Piece)

/-- `xorshift128plus`: the number returned and the next state. -/
def xorshift128plus (s : Word × Word) : Word × (Word × Word) :=
  let x := s.1
  let y := s.2
  let x := x ^^^ (x <<< 23)
  let s1 := x ^^^ y ^^^ (x >>> 17) ^^^ (y >>> 26)
  (y + s1, (y, s1))

namespace World

def setWorker (s : World) (i : Nat) (w : Worker) : World :=
  { s with worker := Function.update s.worker i w }

/-- What a change to a worker's record leaves of it is left of all records. -/
theorem update_same {α : Type} (f : Worker → α) {workers : Nat → Worker} {i : Nat} {w : Worker}
    (same : f w = f (workers i)) (j : Nat) : f (Function.update workers i w j) = f (workers j) := by
  by_cases here : j = i
  · subst here
    rw [Function.update_self, same]
  · rw [Function.update_of_ne here]

def setReg (s : World) (cpu : Cpu) (reg : Nat) (v : Word) : World :=
  { s with msr := Function.update s.msr cpu (Function.update (s.msr cpu) reg v) }

/-- The actions of `main`. -/
def actMain (b : Build) (s : World) : (o : Action) → o.Res → World → Prop
  | .openMsr _, _, s' => s' = s
  | .msrWrite cpu reg v, ok, s' => (ok = true ∧ s' = s.setReg cpu reg v) ∨ (ok = false ∧ s' = s)
  | .msrRead cpu reg, r, s' => (r = some (s.msr cpu reg) ∨ r = none) ∧ s' = s
  | .assert cond, _, s' => cond = true ∧ s' = s
  | .pinThread (.worker i) cpu, _, s' => s' = s.setWorker i { s.worker i with pinned := true, cpu := cpu }
  | .pinThread .main _, _, s' => s' = s
  | .createThread i args, _, s' => s' = s.setWorker i { s.worker i with started := true, args := args }
  | .join i, _, s' => (s.worker i).finished = true ∧ s' = s
  | .argsCounts i, r, s' => r = (s.worker i).mem.prof.counts ∧ s' = s
  | .argsTimes i j, r, s' => (s.worker i).mem.prof.times[j]? = some r ∧ s' = s
  | .argsValues i c j, r, s' => r = (s.worker i).mem.prof.values (c * b.maxPts + j) ∧ s' = s
  | .fopen, ok, s' => s' = { s with file := if ok then some [] else none }
  | .fprintf p, _, s' => ∃ log, s.file = some log ∧ s' = { s with file := some (log ++ [p]) }
  | .fclose, _, s' => s.file.isSome ∧ s' = s
  | _, _, _ => False

/-- The actions of worker `i` on memory that is not its own. -/
def actShared (s : World) (i : Nat) : (o : Action) → o.Res → World → Prop
  | .threadStart, r, s' => (s.worker i).started = true ∧ r = (s.worker i).args ∧ s' = s
  | .threadExit, _, s' => s' = s.setWorker i { s.worker i with finished := true }
  | .testFlag, r, s' => r = s.saFlag ∧ s' = s
  | .setFlag, _, s' => s' = { s with saFlag := true }
  | .mallocShared n, _, s' => s' = { s with sharedArray := some ⟨n, fun _ => none⟩ }
  | .storeShared j v, _, s' => ∃ buf, s.sharedArray = some buf ∧ s' = { s with sharedArray := some (buf.write j v) }
  | .loadShared j, r, s' => ∃ buf, s.sharedArray = some buf ∧ (∀ v, buf.cell j = some v → r = v) ∧ s' = s
  | .waitCanRun, _, s' => s.canRun = true ∧ s' = s
  | .setCanRun, _, s' => s' = { s with canRun := true }
  | .xorshift128plus, r, s' =>
    r = (PmcBench.xorshift128plus s.matRng).1 ∧ s' = { s with matRng := (PmcBench.xorshift128plus s.matRng).2 }
  | .load2d i j, r, s' => r = s.arr2d i j ∧ s' = s
  | .store2d i j v, _, s' => s' = { s with arr2d := fun x y => if x = i ∧ y = j then v else s.arr2d x y }
  | .gettimeofday, r, s' => r = .ofMicros s.clock ∧ s' = s
  | .readInto cpu reg _ _, r, s' => (r = some (s.msr cpu reg) ∨ r = none) ∧ s' = s
  | .malloc .., _, s' | .load .., _, s' | .store .., _, s' | .pushTime _, _, s' | .counts, _, s'
  | .setValue .., _, s' | .incCounts, _, s' | .fakeOut .., _, s' | .point _, _, s' => s' = s
  | _, _, _ => False

/-- A worker's action: its part on shared memory and its part on the thread's own. -/
def actWorker (b : Build) (s : World) (i : Nat) (o : Action) (r : o.Res) (s' : World) : Prop :=
  ∃ t l, s.actShared i o r t ∧ (s.worker i).mem.step b o r l ∧ s' = t.setWorker i { t.worker i with mem := l }

def act (b : Build) : Tid → World → (o : Action) → o.Res → World → Prop
  | .main, s, o, r, s' => s.actMain b o r s'
  | .worker i, s, o, r, s' => s.actWorker b i o r s'

end World

/-! ### What an action of main changes -/

namespace World

/-- A register, the record of one worker, or the log. -/
theorem actMain_cases {b : Build} {s t : World} {o : Action} {r : o.Res} (step : s.actMain b o r t) :
    t = s ∨ (∃ cpu reg v, o = .msrWrite cpu reg v ∧ t = s.setReg cpu reg v) ∨
      (∃ i args, o = .createThread i args ∧ t = s.setWorker i { s.worker i with started := true, args := args }) ∨
      (∃ i cpu, o = .pinThread (.worker i) cpu ∧ t = s.setWorker i { s.worker i with pinned := true, cpu := cpu }) ∨
      ∃ file, t = { s with file := file } := by
  cases o
  case msrWrite cpu reg v =>
    rcases step with ⟨-, wrote⟩ | ⟨-, failed⟩
    · exact Or.inr (Or.inl ⟨cpu, reg, v, rfl, wrote⟩)
    · exact Or.inl failed
  case createThread i args => exact Or.inr (Or.inr (Or.inl ⟨i, args, rfl, step⟩))
  case pinThread who cpu =>
    cases who with
    | main => exact Or.inl step
    | worker i => exact Or.inr (Or.inr (Or.inr (Or.inl ⟨i, cpu, rfl, step⟩)))
  case fopen => exact Or.inr (Or.inr (Or.inr (Or.inr ⟨_, step⟩)))
  case fprintf =>
    obtain ⟨log, -, wrote⟩ := step
    exact Or.inr (Or.inr (Or.inr (Or.inr ⟨_, wrote⟩)))
  case openMsr => exact Or.inl step
  case msrRead | assert | join | argsCounts | argsTimes | argsValues | fclose => exact Or.inl step.2
  all_goals exact step.elim

end World

/-! ### What a worker's action leaves alone -/

namespace World

structure Frame (i : Nat) (s t : World) : Prop where
  msr : t.msr = s.msr
  clock : t.clock = s.clock
  file : t.file = s.file
  others : ∀ j ≠ i, t.worker j = s.worker j
  started : (t.worker i).started = (s.worker i).started
  pinned : (t.worker i).pinned = (s.worker i).pinned
  cpu : (t.worker i).cpu = (s.worker i).cpu
  args : (t.worker i).args = (s.worker i).args

theorem Frame.of_worker {i : Nat} {s t : World} (msr : t.msr = s.msr) (clock : t.clock = s.clock)
    (file : t.file = s.file) (worker : t.worker = s.worker) : Frame i s t := by
  refine ⟨msr, clock, file, fun j _ => ?_, ?_, ?_, ?_, ?_⟩ <;> rw [worker]

theorem actShared_frame {s t : World} {i : Nat} {o : Action} {r : o.Res} (step : s.actShared i o r t) :
    s.Frame i t := by
  cases o <;> simp only [actShared] at step
  case threadExit =>
    subst step
    exact ⟨rfl, rfl, rfl, fun j other => Function.update_of_ne other .., by simp [setWorker], by simp [setWorker],
      by simp [setWorker], by simp [setWorker]⟩
  all_goals
    first
    | exact step.elim
    | (subst step; exact .of_worker rfl rfl rfl rfl)
    | (obtain ⟨-, rfl⟩ := step; exact .of_worker rfl rfl rfl rfl)
    | (obtain ⟨-, -, rfl⟩ := step; exact .of_worker rfl rfl rfl rfl)
    | (obtain ⟨-, -, -, rfl⟩ := step; exact .of_worker rfl rfl rfl rfl)

theorem actWorker_mem {b : Build} {s s' : World} {i : Nat} {o : Action} {r : o.Res} (step : s.actWorker b i o r s') :
    (s.worker i).mem.step b o r (s'.worker i).mem := by
  obtain ⟨t, l, -, own, rfl⟩ := step
  simpa [setWorker] using own

theorem actWorker_frame {b : Build} {s s' : World} {i : Nat} {o : Action} {r : o.Res}
    (step : s.actWorker b i o r s') : s.Frame i s' := by
  obtain ⟨t, l, shared, -, rfl⟩ := step
  have frame := actShared_frame shared
  exact
    { msr := frame.msr
      clock := frame.clock
      file := frame.file
      others := fun j other => (Function.update_of_ne other ..).trans (frame.others j other)
      started := by simpa [setWorker] using frame.started
      pinned := by simpa [setWorker] using frame.pinned
      cpu := by simpa [setWorker] using frame.cpu
      args := by simpa [setWorker] using frame.args }

end World

/-- What happens without any thread: a hardware event on a CPU, the passing of
time, and the scheduler moving a thread that is not pinned. -/
inductive Move (hw : Pmu) where
  | tick (cpu : Cpu) (t : hw.Tick)
  | clock (now : Word)
  | migrate (i : Nat) (cpu : Cpu)

def World.move {hw : Pmu} (s : World) : Move hw → World → Prop
  | .tick cpu t, s' => s' = { s with msr := Function.update s.msr cpu (hw.tick (s.msr cpu) t) }
  | .clock now, s' => s.clock ≤ now ∧ s' = { s with clock := now }
  | .migrate i cpu, s' => (s.worker i).pinned = false ∧ s' = s.setWorker i { s.worker i with cpu := cpu }

/-- The running process and its surroundings. -/
def process (b : Build) (hw : Pmu) : System Tid (Move hw) Action Action.Res World where
  act t s o r s' := s.act b t o r s'
  env e s s' := s.move e s'

/-- The world in which `main` starts: any registers, clock and placement of threads. -/
structure World.Initial (s : World) : Prop where
  saFlag : s.saFlag = false
  canRun : s.canRun = false
  sharedArray : s.sharedArray = none
  started : ∀ i, (s.worker i).started = false
  finished : ∀ i, (s.worker i).finished = false
  pinned : ∀ i, (s.worker i).pinned = false
  counts : ∀ i, (s.worker i).mem.prof.counts = 0
  times : ∀ i, (s.worker i).mem.prof.times = []
  file : s.file = none

/-- A world in which `main` can start, with all registers at 0. -/
def World.idle : World where
  msr _ _ := 0
  saFlag := false
  canRun := false
  sharedArray := none
  arr2d _ _ := 0
  matRng := (0, 0)
  clock := 0
  worker _ := ⟨false, false, false, 0, ⟨0, 0, 0⟩, ⟨⟨fun _ => 0, 0, []⟩, fun _ => none⟩⟩
  file := none

theorem World.idle_initial : World.idle.Initial := by
  constructor <;> intros <;> rfl

end PmcBench
