import PmcBench.ConfigureCounters
import PmcBench.FixedCounters
import PmcBench.L3Readings

/-!
# The test of the MSR handles (msrtest.cc)

`main` lets the three fixed counters of eight CPUs count, reads them twice with a
second in between, and prints the differences. Nothing looks at the result of an
access but `assert(res >= 0)`, and nothing turns the counters off.
-/

namespace PmcBench.Msrtest
open Threads Words
open Program (forEach)
open L3Counts (Window)

/-! ### The code -/

/-- The variables that `MsrHandle::read` fills: `ctrl_reg.value`,
`counters_before[i][k]` and `counters_after[i][k]`. -/
inductive Var where
  | ctrlReg
  | before (i : Nat) (k : Fin 3)
  | after (i : Nat) (k : Fin 3)
  deriving DecidableEq

/-- A line of the output. The printed IPC is a quotient of the two numbers. -/
structure Line where
  core : Nat
  instructions : Word
  cycles : Word
  deriving DecidableEq

/-- A variable that is declared holds any value. A read fills `x` and returns what
it filled it with, if it succeeds. -/
inductive Act where
  | openMsr (cpu : Nat)
  | cerr (cpu : Nat)
  | terminate
  | assertFailed
  | declare (x : Var)
  | pread (cpu : Nat) (reg : Nat) (x : Var)
  | pwrite (cpu : Nat) (reg : Nat) (v : Word)
  | load (x : Var)
  | sleep (seconds : Nat)
  | close (cpu : Nat)
  | cout (line : Line)

@[reducible] def Act.Res : Act → Type
  | .openMsr _ | .pwrite .. => Bool
  | .terminate | .assertFailed => Empty
  | .pread .. => Option Word
  | .load _ => Word
  | _ => Unit

abbrev TProg := Program Act Act.Res

abbrev perform (o : Act) : TProg o.Res := Program.call o

/-- `new MsrHandle(i)`. Nothing catches the exception of a handle that cannot be opened. -/
def openMsr (i : Nat) : TProg Unit := do
  let opened ← perform (.openMsr i)
  if opened then pure () else do
    perform (.cerr i)
    let never ← perform .terminate
    never.elim

def assert (holds : Bool) : TProg Unit :=
  if holds then pure () else do
    let never ← perform .assertFailed
    never.elim

/-- `assert(res >= 0)` compares unsigned numbers. -/
@[simp] theorem assert_nonneg {n : Nat} (r : BitVec n) : assert (decide (r ≥ 0)) = .done () := by
  have nonneg : r ≥ 0 := BitVec.le_def.mpr (Nat.zero_le _)
  rw [assert, decide_eq_true nonneg]
  rfl

def read (i reg : Nat) (x : Var) : TProg (BitVec 32) := do
  let value ← perform (.pread i reg x)
  pure (res value.isSome)

def write (i reg : Nat) (v : Word) : TProg (BitVec 32) := do
  let written ← perform (.pwrite i reg v)
  pure (res written)

def numCores : Nat := 8

/-- The fields of fixed counter `k`: `os` and `usr` 1, `any_thread` and `enable_pmi` 0. -/
def countRings (ctrlReg : Word) (k : Fin 3) : Word :=
  let ctrlReg := (FixedEventControlRegister.os k).set 1 ctrlReg
  let ctrlReg := (FixedEventControlRegister.usr k).set 1 ctrlReg
  let ctrlReg := (FixedEventControlRegister.anyThread k).set 0 ctrlReg
  (FixedEventControlRegister.enablePmi k).set 0 ctrlReg

/-- `(1ULL << 0) + (1ULL << 1) + ... + (1ULL << 34)`. -/
def startCounting : Word := addBits 0 [0, 1, 2, 3, 32, 33, 34]

/-- The body of the first loop; `cpuMsr` is the address of the array of handles. -/
def setUp (cpuMsr : Word) (i : Nat) : TProg Unit := do
  openMsr i
  assert (cpuMsr ≥ 0)
  perform (.declare .ctrlReg)
  let r ← read i ia32CrFixedCtrCtrl .ctrlReg
  assert (r ≥ 0)
  let ctrlReg ← perform (.load .ctrlReg)
  let r ← write i ia32CrFixedCtrCtrl ((List.finRange 3).foldl countRings ctrlReg)
  assert (r ≥ 0)
  let r ← write i ia32CrPerfGlobalCtrl startCounting
  assert (r ≥ 0)

/-- The reads of INST_RETIRED_ANY, CPU_CLK_UNHALTED_THREAD and CPU_CLK_UNHALTED_REF. -/
def readCounters (i : Nat) (x : Fin 3 → Var) : TProg Unit :=
  forEach (List.finRange 3) fun k => do
    let r ← read i (fixedAddr k) (x k)
    assert (r ≥ 0)

def difference (i : Nat) (k : Fin 3) : TProg Word := do
  let after ← perform (.load (.after i k))
  let before ← perform (.load (.before i k))
  pure (after - before)

def printCore (i : Nat) : TProg Unit := do
  let instructions ← difference i ⟨0, by decide⟩
  let cycles ← difference i ⟨1, by decide⟩
  perform (.cout ⟨i, instructions, cycles⟩)

def main (cpuMsr : Word) : TProg Unit := do
  forEach (List.range numCores) (setUp cpuMsr)
  forEach (List.range numCores) fun i => readCounters i (.before i)
  perform (.sleep 1)
  forEach (List.range numCores) fun i => readCounters i (.after i)
  forEach (List.range numCores) fun i => perform (.close i)
  forEach (List.range numCores) printCore

/-! ### The machine -/

structure Machine where
  msr : Nat → Regs
  vars : Var → Word

namespace Machine

def write (m : Machine) (cpu reg : Nat) (v : Word) : Machine :=
  { m with msr := Function.update m.msr cpu (Function.update (m.msr cpu) reg v) }

def store (m : Machine) (x : Var) (v : Word) : Machine := { m with vars := Function.update m.vars x v }

def tick {hw : FixedPmu} (m : Machine) (cpu : Nat) (t : hw.Tick) : Machine :=
  { m with msr := Function.update m.msr cpu (hw.tick (m.msr cpu) t) }

end Machine

def effect (m : Machine) : (o : Act) → o.Res → Machine → Prop
  | .declare x, _, m' => ∃ v, m' = m.store x v
  | .pread cpu reg x, r, m' => (r = some (m.msr cpu reg) ∧ m' = m.store x (m.msr cpu reg)) ∨ (r = none ∧ m' = m)
  | .pwrite cpu reg v, written, m' => (written = true ∧ m' = m.write cpu reg v) ∨ (written = false ∧ m' = m)
  | .load x, r, m' => r = m.vars x ∧ m' = m
  | _, _, m' => m' = m

abbrev Ev (hw : FixedPmu) := Event Unit (Nat × hw.Tick) Act Act.Res

def machine (hw : FixedPmu) : System Unit (Nat × hw.Tick) Act Act.Res Machine where
  act _ m o r m' := effect m o r m'
  env e m m' := m' = m.tick e.1 e.2

variable {hw : FixedPmu}

/-- The condition on the steps of a run: accesses to CPU `i` succeed. -/
def Succeeds (i : Nat) (_ : List (Ev hw)) (_ : Machine) : Ev hw → Prop
  | .act _ (.pwrite cpu _ _) written => cpu = i → written = true
  | .act _ (.pread cpu _ _) r => cpu = i → r.isSome = true
  | _ => True

/-! ### What a run shows -/

def printed (tr : List (Ev hw)) : List Line := tr.filterMap fun
  | .act _ (.cout line) _ => some line
  | _ => none

/-- The event is one that counter `k` is there for, on this logical processor. -/
def hits (hw : FixedPmu) (k : Fin 3) (t : hw.Tick) : Bool := hw.fixed t k && hw.own t

def windowStep (i : Nat) (k : Fin 3) (w : Window) : Ev hw → Window
  | .act _ (.pread cpu reg _) (some v) => if cpu = i ∧ reg = fixedAddr k then w.read v else w
  | .act .. => w
  | .env (cpu, t) => if cpu = i then w.event (hits hw k t) else w

/-- The two reads of counter `k` of CPU `i`, and the events in between. -/
def window (i : Nat) (tr : List (Ev hw)) (k : Fin 3) : Window := tr.foldl (windowStep i k) .before

/-! ### Schedules -/

/-- All accesses succeed, and the handles that `opens` says can be opened. -/
def player (hw : FixedPmu) (opens : Nat → Bool) : System.Player (machine hw) where
  answer _ m
    | .openMsr cpu => some (opens cpu, m)
    | .terminate | .assertFailed => none
    | .declare x => some ((), m.store x 0)
    | .pread cpu reg x => some (some (m.msr cpu reg), m.store x (m.msr cpu reg))
    | .pwrite cpu reg v => some (true, m.write cpu reg v)
    | .load x => some (m.vars x, m)
    | .cerr _ | .sleep _ | .close _ | .cout _ => some ((), m)
  respond e m := some (m.tick e.1 e.2)
  answer_sound {t m o r m'} answered := by
    cases o with
    | terminate | assertFailed => cases answered
    | declare x => exact ⟨0, (Prod.mk.inj (Option.some.inj answered)).2.symm⟩
    | pread cpu reg x =>
      obtain ⟨here, there⟩ := Prod.mk.inj (Option.some.inj answered)
      exact Or.inl ⟨here.symm, there.symm⟩
    | pwrite cpu reg v =>
      obtain ⟨here, there⟩ := Prod.mk.inj (Option.some.inj answered)
      exact Or.inl ⟨here.symm, there.symm⟩
    | load x =>
      obtain ⟨here, there⟩ := Prod.mk.inj (Option.some.inj answered)
      exact ⟨here.symm, there.symm⟩
    | _ => exact (Prod.mk.inj (Option.some.inj answered)).2.symm
  respond_sound responded := (Option.some.inj responded).symm

def succeedsCheck (_ : List (Ev hw)) (_ : Machine) : Ev hw → Bool
  | .act _ (.pwrite ..) written => written
  | .act _ (.pread ..) r => r.isSome
  | _ => true

theorem succeeds_of_check (i : Nat) (tr : List (Ev hw)) (m : Machine) (e : Ev hw) (checked : succeedsCheck tr m e = true) :
    Succeeds i tr m e := by
  cases e with
  | env _ => trivial
  | act _ o r =>
    cases o with
    | pwrite | pread => exact fun _ => checked
    | _ => trivial

end PmcBench.Msrtest
