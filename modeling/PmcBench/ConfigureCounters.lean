import PmcBench.Actions

/-!
# configure_counters (main.cc)

`MsrHandle::read` and `MsrHandle::write` return the `ssize_t` of `pread` and
`pwrite` as an `int32_t`; `configure_counters` keeps it in a `uint32_t`.
-/

namespace PmcBench
open Threads Words
open Program (forEach)

/-- `res` after a read or write: 8, or -1 converted to `uint32_t`. -/
def res (ok : Bool) : BitVec 32 := BitVec.ofInt 32 (if ok then 8 else -1)

/-- `assert(res >= 0)`, a comparison of unsigned numbers. -/
def assertRes (res : BitVec 32) : Prog Unit := perform (.assert (decide (res ≥ 0)))

/-- The block for fixed counter `k` inside `if (N_FIXED_CTR > k)`: the new control
register and enable mask. -/
def fixedCtr (k : Fin 3) (ctrlReg value : Word) : Word × Word :=
  let ctrlReg := (FixedEventControlRegister.os k).set 0 ctrlReg
  let ctrlReg := (FixedEventControlRegister.usr k).set 1 ctrlReg
  let ctrlReg := (FixedEventControlRegister.anyThread k).set 0 ctrlReg
  let ctrlReg := (FixedEventControlRegister.enablePmi k).set 0 ctrlReg
  (ctrlReg, value + 1#64 <<< (32 + k.val))

/-- The three blocks in turn, from the value read back and an empty mask. -/
def fixedCtrs (b : Build) (ctrlReg : Word) : Word × Word :=
  let s := (ctrlReg, 0#64)
  let s := if b.nFixedCtr > 0 then fixedCtr 0 s.1 s.2 else s
  let s := if b.nFixedCtr > 1 then fixedCtr 1 s.1 s.2 else s
  if b.nFixedCtr > 2 then fixedCtr 2 s.1 s.2 else s

/-- `evt_reg.value` for a row of the table. -/
def evtReg (row : CounterTableT) : Word :=
  let evt : Word := 0
  let evt := EventSelectRegister.usr.set 1 evt
  let evt := EventSelectRegister.os.set 0 evt
  let evt := EventSelectRegister.enable.set 1 evt
  let evt := EventSelectRegister.eventSelect.set (BitVec.ofNat _ row.evtnr) evt
  let evt := EventSelectRegister.umask.set (BitVec.ofNat _ row.umask) evt
  let evt := EventSelectRegister.edge.set 1 evt
  let evt := EventSelectRegister.anyThread.set 0 evt
  let evt := EventSelectRegister.invert.set 0 evt
  let evt := EventSelectRegister.cmask.set 0 evt
  let evt := EventSelectRegister.inTx.set 0 evt
  let evt := EventSelectRegister.inTxcp.set 0 evt
  let evt := EventSelectRegister.pinControl.set 0 evt
  EventSelectRegister.apicInt.set 0 evt

/-- The table indices the PMC loop looks at: `c < N_CUSTOM_CTR`, left by the
`break` at `c > PERF_MAX_CUSTOM_COUNTERS`. -/
def pmcLoop (b : Build) : List Nat :=
  (List.range b.nCustomCtr).takeWhile fun c => !decide (c > perfMaxCustomCounters)

/-- The PMC loop from the remaining indices and the mask so far. -/
def programRows (b : Build) (cpu : Cpu) : List Nat → Word → Prog Word
  | [], value => pure value
  | c :: rest, value => do
    let row := b.counterTbl.row c
    if row.ctrType = .customCtr then
      let read ← perform (.msrRead cpu row.cfgReg)
      assertRes (res read.isSome)
      let written ← perform (.msrWrite cpu row.cfgReg (evtReg row))
      assertRes (res written)
      programRows b cpu rest (value + 1#64 <<< row.id)
    else
      programRows b cpu rest value

/-- The `set` branch for one CPU. -/
def programCpu (b : Build) (cpu : Cpu) : Prog Unit := do
  let read ← perform (.msrRead cpu ia32CrFixedCtrCtrl)
  assertRes (res read.isSome)
  -- A failed read leaves ctrl_reg.value at the all-ones it was set to.
  let (ctrlReg, value) := fixedCtrs b (read.getD (BitVec.allOnes 64))
  let _ ← perform (.msrWrite cpu ia32CrFixedCtrCtrl ctrlReg)
  let value ← programRows b cpu (pmcLoop b) value
  let written ← perform (.msrWrite cpu ia32CrPerfGlobalCtrl value)
  assertRes (res written)

/-- `for (c = 0; c < PERF_MAX_CUSTOM_COUNTERS; ++c) write(IA32_PMC0 + c, 0)` -/
def resetPmcs (cpu : Cpu) : Prog Unit :=
  forEach (List.range perfMaxCustomCounters) fun c => do
    let _ ← perform (.msrWrite cpu (ia32Pmc0 + c) 0)

/-- One round of the CPU loop, on the CPU whose device is open. -/
def configureCpu (b : Build) (cpu : Cpu) (set : Bool) : Prog Unit := do
  let _ ← perform (.msrWrite cpu ia32CrPerfGlobalCtrl 0)
  resetPmcs cpu
  let _ ← perform (.msrWrite cpu ia32CrFixedCtrCtrl 0)
  if set then programCpu b cpu

/-- The rounds from index `i` on; returns the array `cpu_msr`. A constructor that
throws ends the process at `openMsr`. -/
def configureFrom (b : Build) (set : Bool) : Nat → List Cpu → (Nat → Option Cpu) → Prog (Nat → Option Cpu)
  | _, [], cpuMsr => pure cpuMsr
  | i, cpu :: rest, cpuMsr => do
    if set then
      perform (.openMsr cpu)
    let cpuMsr := if set then Function.update cpuMsr i (some cpu) else cpuMsr
    perform (.assert (cpuMsr i).isSome)
    configureCpu b ((cpuMsr i).getD 0) set
    configureFrom b set (i + 1) rest cpuMsr

def configureCounters (b : Build) (cpuMsr : Nat → Option Cpu) (cpus : List Cpu) (set : Bool) :
    Prog (Nat → Option Cpu) :=
  configureFrom b set 0 cpus cpuMsr

/-- What `configureFrom` does for one CPU, given its handle. -/
def round (b : Build) (set : Bool) (cpu : Cpu) : Prog Unit := do
  if set then
    perform (.openMsr cpu)
  perform (.assert true)
  configureCpu b cpu set

/-! ### The PMC loop -/

/-- What the loop does for a custom row. -/
def programRow (cpu : Cpu) (row : CounterTableT) : Prog Unit := do
  let read ← perform (.msrRead cpu row.cfgReg)
  assertRes (res read.isSome)
  let written ← perform (.msrWrite cpu row.cfgReg (evtReg row))
  assertRes (res written)

theorem programRows_cons (b : Build) (cpu : Cpu) (c : Nat) (rest : List Nat) (value : Word) :
    programRows b cpu (c :: rest) value =
      if (b.counterTbl.row c).ctrType = .customCtr then do
        programRow cpu (b.counterTbl.row c)
        programRows b cpu rest (value + 1#64 <<< (b.counterTbl.row c).id)
      else programRows b cpu rest value := rfl

/-! ### The CPU loop -/

/-- The loop from index `i` on, for a given round on an open device. -/
def cpuLoop (body : Cpu → Prog Unit) (set : Bool) : Nat → List Cpu → (Nat → Option Cpu) → Prog (Nat → Option Cpu)
  | _, [], cpuMsr => pure cpuMsr
  | i, cpu :: rest, cpuMsr => do
    if set then
      perform (.openMsr cpu)
    let cpuMsr := if set then Function.update cpuMsr i (some cpu) else cpuMsr
    perform (.assert (cpuMsr i).isSome)
    body ((cpuMsr i).getD 0)
    cpuLoop body set (i + 1) rest cpuMsr

/-- What it does for one CPU, given its handle. -/
def onDevice (body : Cpu → Prog Unit) (set : Bool) (cpu : Cpu) : Prog Unit := do
  if set then
    perform (.openMsr cpu)
  perform (.assert true)
  body cpu

theorem configureFrom_eq (b : Build) (set : Bool) (i : Nat) (cpus : List Cpu) (cpuMsr : Nat → Option Cpu) :
    configureFrom b set i cpus cpuMsr = cpuLoop (fun cpu => configureCpu b cpu set) set i cpus cpuMsr := by
  induction cpus generalizing i cpuMsr with
  | nil => rfl
  | cons cpu rest ih => simp only [configureFrom, cpuLoop, ih]

theorem cpuLoop_cons (body : Cpu → Prog Unit) {set : Bool} {i : Nat} {cpu : Cpu} (rest : List Cpu)
    {cpuMsr : Nat → Option Cpu} (handle : set = false → cpuMsr i = some cpu) :
    cpuLoop body set i (cpu :: rest) cpuMsr = (do
      onDevice body set cpu
      cpuLoop body set (i + 1) rest (Function.update cpuMsr i (some cpu))) := by
  have checked (h : Nat → Option Cpu) (here : h i = some cpu) : (do
      perform (.assert (h i).isSome)
      body ((h i).getD 0)
      cpuLoop body set (i + 1) rest h : Prog _) = (do
      perform (.assert true)
      body cpu
      cpuLoop body set (i + 1) rest h) := by
    rw [here]
    rfl
  cases set with
  | true =>
    have opened := checked (Function.update cpuMsr i (some cpu)) (Function.update_self ..)
    exact congrArg (fun p => perform (.openMsr cpu) >>= fun _ => p) opened
  | false =>
    have there := handle rfl
    have same : Function.update cpuMsr i (some cpu) = cpuMsr := by rw [← there, Function.update_eq_self]
    rw [same]
    exact checked cpuMsr there

theorem configureFrom_cons (b : Build) {set : Bool} {i : Nat} {cpu : Cpu} (rest : List Cpu)
    {cpuMsr : Nat → Option Cpu} (handle : set = false → cpuMsr i = some cpu) :
    configureFrom b set i (cpu :: rest) cpuMsr = (do
      round b set cpu
      configureFrom b set (i + 1) rest (Function.update cpuMsr i (some cpu))) := by
  rw [configureFrom_eq, configureFrom_eq, cpuLoop_cons _ rest handle]
  rfl

end PmcBench
