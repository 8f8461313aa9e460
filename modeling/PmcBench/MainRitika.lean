import PmcBench.Postcondition

/-!
# The configure_counters of main_ritika.cc

Its CPU loop differs from that of main.cc in one block: it reads
IA32_FIXED_CTR_CTRL and clears it only where a fixed counter is in use.
`configureCounters_agree` says in which registers the two versions agree.
-/

namespace PmcBench
open Threads Words
open Program (forEach)

variable {b : Build}

/-! ### The CPU loop -/

namespace MainRitika

/-- `os0 || usr0 || enable_pmi0 || os1 || ... || enable_pmi2`, the fields of each of the
three counters in turn. -/
def inUse (ctrlReg : Word) : Bool :=
  (List.finRange 3).any fun k =>
    (FixedEventControlRegister.os k).get ctrlReg != 0 ||
    (FixedEventControlRegister.usr k).get ctrlReg != 0 ||
    (FixedEventControlRegister.enablePmi k).get ctrlReg != 0

/-- The `set` branch for one CPU; a failed read leaves `ctrl_reg` as it was. -/
def programCpu (b : Build) (cpu : Cpu) (ctrlReg : Word) : Prog Unit := do
  let read ← perform (.msrRead cpu ia32CrFixedCtrCtrl)
  assertRes (res read.isSome)
  let (ctrlReg, value) := fixedCtrs b (read.getD ctrlReg)
  let _ ← perform (.msrWrite cpu ia32CrFixedCtrCtrl ctrlReg)
  let value ← programRows b cpu (pmcLoop b) value
  let written ← perform (.msrWrite cpu ia32CrPerfGlobalCtrl value)
  assertRes (res written)

def configureCpu (b : Build) (cpu : Cpu) (set : Bool) : Prog Unit := do
  let _ ← perform (.msrWrite cpu ia32CrPerfGlobalCtrl 0)
  resetPmcs cpu
  let read ← perform (.msrRead cpu ia32CrFixedCtrCtrl)
  let ctrlReg := read.getD (BitVec.allOnes 64)
  if inUse ctrlReg then
    let _ ← perform (.msrWrite cpu ia32CrFixedCtrCtrl 0)
  if set then programCpu b cpu ctrlReg

def configureCounters (b : Build) (cpuMsr : Nat → Option Cpu) (cpus : List Cpu) (set : Bool) :
    Prog (Nat → Option Cpu) :=
  cpuLoop (fun cpu => configureCpu b cpu set) set 0 cpus cpuMsr

/-! ### What a round leaves in the registers -/

/-- What the reset part of a round leaves in IA32_FIXED_CTR_CTRL. -/
def resetFixed (v : Word) : Word := if inUse v then 0 else v

def cleared (R : Regs) : Regs :=
  Function.update (PmcBench.cleared R) ia32CrFixedCtrCtrl (resetFixed (R ia32CrFixedCtrCtrl))

/-- The effect of the `set` branch, which both versions share. -/
def programmedFrom (b : Build) (R : Regs) : Regs :=
  Function.update ((pmcLoop b).foldl (selectRow b) (Function.update R ia32CrFixedCtrCtrl (fixedCtrs b (R ia32CrFixedCtrCtrl)).1))
    ia32CrPerfGlobalCtrl (enableMask b)

def configured (b : Build) (set : Bool) (R : Regs) : Regs := if set then programmedFrom b (cleared R) else cleared R

end MainRitika

namespace Solo
variable {b : Build} {luck : Luck} {stop : Solo → Action → Prop} {x : Cpu} {s t : Solo} {R : Regs}

/-- `main` has CPU `x` at the registers `R`, and the rest of the machine as in `s`. -/
abbrev On (x : Cpu) (s : Solo) (R : Regs) (t : Solo) : Prop := t.world.msr x = R ∧ Keeps x s t

theorem accesses (b : Build) (allOk : ∀ k, luck.accesses k = true) (x : Cpu) (s : Solo) :
    Accesses (.ofHandler (handle b luck) stop) x (fun _ => True) (On x s) where
  moves _ step := step.elim
  write {R t a} v _ now := by
    obtain ⟨rfl, kept⟩ := now
    refine ⟨by simp [handle, allOk], fun r u step => ?_⟩
    obtain ⟨rfl, written, kept'⟩ := (shows b allOk x).write step
    exact ⟨rfl, written, kept.trans kept'⟩
  read {R t} a now := by
    obtain ⟨rfl, kept⟩ := now
    refine ⟨by simp [handle, allOk], fun r u step => ?_⟩
    obtain ⟨rfl, still, kept'⟩ := (shows b allOk x).read step
    exact ⟨rfl, still, kept.trans kept'⟩
  assert t := ⟨(shows b allOk x).allowAssert t, fun _ _ step => (shows b allOk x).assert step⟩

theorem wp_lastOn (allOk : ∀ k, luck.accesses k = true) (v : Word) (now : On x s R t) :
    (Program.act (.msrWrite x ia32CrPerfGlobalCtrl v) fun _ => perform (.assert true)).wp (.ofHandler (handle b luck) stop)
      (fun _ => On x s (Function.update R ia32CrPerfGlobalCtrl v)) t := by
  refine (accesses b allOk x s).wp_write trivial now fun u now => (accesses b allOk x s).wp_assert ?_
  exact (Program.wp_done_still fun _ _ => id).mpr now

/-- Nothing disturbs a lone `main`, so it does not matter what the PMC loop writes. -/
theorem wp_configureCpuOn (allOk : ∀ k, luck.accesses k = true) (set : Bool) (x : Cpu) (s : Solo) :
    (configureCpu b x set).wp (.ofHandler (handle b luck) stop)
      (fun _ => On x s (configured b set (s.world.msr x))) s := by
  simp only [configureCpu, Program.call_bind]
  refine (accesses b allOk x s).wp_write trivial ⟨rfl, keeps_access x s s.accessed⟩ fun u now => ?_
  refine (accesses b allOk x s).wp_afterOff (fun _ _ => trivial) trivial (fun _ _ _ => trivial) now
    (fun unset t now => ?_) (fun on t now => ?_)
  · subst unset
    exact (Program.wp_done_still fun _ _ => id).mpr now
  · subst on
    exact wp_lastOn allOk _ now

/-- The `set` branch, from the value `ctrl_reg` falls back to. -/
theorem wp_programCpuOn (allOk : ∀ k, luck.accesses k = true) {ctrlReg : Word} (now : On x s R t) :
    (MainRitika.programCpu b x ctrlReg).wp (.ofHandler (handle b luck) stop)
      (fun _ => On x s (MainRitika.programmedFrom b R)) t := by
  have mask (w : Word) : (fixedCtrs b w).2 = (fixedCtrs b 0).2 := by rw [fixedCtrs_mask, fixedCtrs_mask]
  simp only [MainRitika.programCpu, assertRes_eq, Program.call_bind]
  refine (accesses b allOk x s).wp_read now fun u now => (accesses b allOk x s).wp_assert ?_
  refine (accesses b allOk x s).wp_write trivial now fun u now => Program.wp_bind.mpr ?_
  apply (accesses b allOk x s).wp_programRows (fun _ _ _ => trivial) now
  intro u now
  rw [Option.getD_some, mask]
  exact wp_lastOn allOk _ now

theorem wp_ritikaCpuOn (allOk : ∀ k, luck.accesses k = true) (set : Bool) (x : Cpu) (s : Solo) :
    (MainRitika.configureCpu b x set).wp (.ofHandler (handle b luck) stop)
      (fun _ => On x s (MainRitika.configured b set (s.world.msr x))) s := by
  have finish {u : Solo} (now : On x s (MainRitika.cleared (s.world.msr x)) u) (ctrlReg : Word) :
      (if set then MainRitika.programCpu b x ctrlReg else pure () : Prog Unit).wp (.ofHandler (handle b luck) stop)
        (fun _ => On x s (MainRitika.configured b set (s.world.msr x))) u := by
    cases set with
    | true => exact wp_programCpuOn allOk now
    | false => exact (Program.wp_done_still fun _ _ => id).mpr now
  simp only [MainRitika.configureCpu, Program.call_bind]
  refine (accesses b allOk x s).wp_write trivial ⟨rfl, keeps_access x s s.accessed⟩ fun u now => ?_
  refine Program.wp_bind.mpr ((accesses b allOk x s).wp_resetPmcs (fun _ _ => trivial) now fun u now => ?_)
  refine (accesses b allOk x s).wp_read now fun u now => ?_
  have read : (if isPmc ia32CrFixedCtrCtrl then 0 else
      Function.update (s.world.msr x) ia32CrPerfGlobalCtrl 0 ia32CrFixedCtrCtrl) = s.world.msr x ia32CrFixedCtrCtrl :=
    rfl
  simp only [Option.getD_some, read]
  cases busy : MainRitika.inUse (s.world.msr x ia32CrFixedCtrCtrl) with
  | true =>
    refine (accesses b allOk x s).wp_write trivial now fun w now => finish ?_ _
    rw [Accesses.update_cleared] at now
    simpa only [MainRitika.cleared, MainRitika.resetFixed, busy, if_true] using now
  | false =>
    refine finish ⟨now.1.trans ?_, now.2⟩ _
    rw [MainRitika.cleared, MainRitika.resetFixed, busy, ← Accesses.update_cleared]
    exact (Function.update_eq_self_iff.mpr read.symm).symm

/-- The CPU loop over distinct CPUs, for a round with the effect `F` on a CPU's registers. -/
theorem wp_cpuLoopOn (allOk : ∀ k, luck.accesses k = true) (opens : ∀ k, luck.opens k = true) {body : Cpu → Prog Unit} {F : Regs → Regs}
    (round : ∀ x s, (body x).wp (.ofHandler (handle b luck) stop) (fun _ => On x s (F (s.world.msr x))) s)
    {set : Bool} {cpus : List Cpu} {cpuMsr : Nat → Option Cpu} (distinct : cpus.Nodup)
    (handles : set = false → ∀ j < cpus.length, cpuMsr j = cpus[j]?) (s : Solo) :
    (cpuLoop body set 0 cpus cpuMsr).wp (.ofHandler (handle b luck) stop)
      (fun _ t => ∀ x, t.world.msr x = if x ∈ cpus then F (s.world.msr x) else s.world.msr x) s := by
  refine wp_cpuLoop (V := .ofHandler (handle b luck) stop)
    (I := fun done t => ∀ x, t.world.msr x = if x ∈ done then F (s.world.msr x) else s.world.msr x)
    (fun x => by simp) (fun _ _ _ _ step => step.elim) (by simpa using handles) (fun done cpu t (front : done ++ [cpu] <+: [] ++ cpus) held => ?_)
    fun _ _ _ _ reached => reached
  have fresh : cpu ∉ done := by
    have apart := List.nodup_append.mp (distinct.sublist front.sublist)
    exact fun member => apart.2.2 cpu member cpu List.mem_cons_self rfl
  have checked (t' : Solo) (same : t'.world.msr = t.world.msr) : ((do
        perform (.assert true)
        body cpu) : Prog Unit).wp (.ofHandler (handle b luck) stop)
      (fun _ u => ∀ x, u.world.msr x = if x ∈ done ++ [cpu] then F (s.world.msr x) else s.world.msr x) t' := by
    refine (accesses b allOk cpu t').wp_assert (Program.wp_mono (round cpu t') fun _ u now x => ?_)
    by_cases here : x = cpu
    · subst here
      rw [now.1, same, held x, if_neg fresh, if_pos (by simp)]
    · rw [now.2.msr x here, same, held x]
      simp [here]
  unfold onDevice
  cases set with
  | false => exact checked t rfl
  | true =>
    refine (Program.wp_act_still fun _ _ => id).mpr ⟨by simp [handle, opens], fun r u step => ?_⟩
    simp only [handle, opens, if_true, Option.some.injEq, Prod.mk.injEq] at step
    obtain ⟨-, rfl⟩ := step
    exact checked _ rfl

end Solo

/-! ### Where the two versions agree -/

/-- The os, usr and enable_pmi fields of all three fixed counters are 0. -/
def FixedIdle (value : Word) : Prop := ∀ k : Fin 3,
  (FixedEventControlRegister.os k).get value = 0 ∧ (FixedEventControlRegister.usr k).get value = 0 ∧
    (FixedEventControlRegister.enablePmi k).get value = 0

/-- What the version of main.cc leaves in `t` and that of main_ritika.cc in `u`, both
started in `s`. -/
structure AgreeUpToFixed (cpus : List Cpu) (s t u : World) : Prop where
  others : ∀ x a, ¬ (x ∈ cpus ∧ a = ia32CrFixedCtrCtrl) → t.msr x a = u.msr x a
  fixed : ∀ x ∈ cpus, t.msr x ia32CrFixedCtrCtrl = u.msr x ia32CrFixedCtrCtrl ↔
    s.msr x ia32CrFixedCtrCtrl = 0 ∨ s.msr x ia32CrFixedCtrCtrl &&& 0xBBB ≠ 0
  idle : ∀ x ∈ cpus, FixedIdle (t.msr x ia32CrFixedCtrCtrl) ∧ FixedIdle (u.msr x ia32CrFixedCtrCtrl)

theorem get_eq_zero {f : BitField 64} (one : f.width = 1) (w : Word) :
    f.get w = 0#f.width ↔ w.getLsbD f.lo = false := by
  constructor
  · intro zero
    have bit := f.getLsbD_get w 0
    rw [zero] at bit
    simpa [one] using bit.symm
  · intro clear
    apply BitVec.eq_of_getLsbD_eq
    intro i bound
    rw [f.getLsbD_get, show i = 0 by omega, Nat.add_zero, clear]
    simp

/-- 0xBBB has the os, usr and enable_pmi bits of the three counters. -/
theorem getLsbD_busy : ∀ i < 64, (0xBBB : Word).getLsbD i = decide (i < 12 ∧ i % 4 ≠ 2) := by decide

theorem fixedIdle_iff (w : Word) : FixedIdle w ↔ w &&& 0xBBB = 0 := by
  have bits : w &&& 0xBBB = 0 ↔ ∀ i, i < 12 ∧ i % 4 ≠ 2 → w.getLsbD i = false := by
    constructor
    · intro zero i busy
      have bit := congrArg (fun v : Word => v.getLsbD i) zero
      rw [BitVec.getLsbD_and, getLsbD_busy i (by omega), decide_eq_true busy, Bool.and_true] at bit
      exact bit.trans BitVec.getLsbD_zero
    · intro clear
      apply BitVec.eq_of_getLsbD_eq
      intro i bound
      rw [BitVec.getLsbD_and, getLsbD_busy i bound]
      by_cases busy : i < 12 ∧ i % 4 ≠ 2
      · simp [clear i busy]
      · simp [busy]
  rw [bits]
  constructor
  · intro idle i busy
    obtain ⟨os, usr, pmi⟩ := idle ⟨i / 4, by omega⟩
    have position : i = 4 * (i / 4) ∨ i = 4 * (i / 4) + 1 ∨ i = 4 * (i / 4) + 3 := by omega
    rcases position with here | here | here
    · rw [here]
      exact (get_eq_zero rfl w).mp os
    · rw [here]
      exact (get_eq_zero rfl w).mp usr
    · rw [here]
      exact (get_eq_zero rfl w).mp pmi
  · intro clear k
    have bound := k.isLt
    exact ⟨(get_eq_zero rfl w).mpr (clear (4 * k) (by omega)), (get_eq_zero rfl w).mpr (clear (4 * k + 1) (by omega)),
      (get_eq_zero rfl w).mpr (clear (4 * k + 3) (by omega))⟩

namespace MainRitika

theorem inUse_eq_false (w : Word) : inUse w = false ↔ FixedIdle w := by
  simp only [inUse, FixedIdle, List.any_eq_false, Bool.not_eq_true, Bool.or_eq_false_iff, bne_eq_false_iff_eq, and_assoc,
    List.mem_finRange, forall_const]

theorem resetFixed_idle (v : Word) : FixedIdle (resetFixed v) := by
  cases busy : inUse v with
  | true => simp [resetFixed, busy, fixedIdle_iff]
  | false => simpa [resetFixed, busy] using (inUse_eq_false v).mp busy

theorem resetFixed_eq_zero (v : Word) : resetFixed v = 0 ↔ v = 0 ∨ v &&& 0xBBB ≠ 0 := by
  have unused : inUse v = false ↔ v &&& 0xBBB = 0 := (inUse_eq_false v).trans (fixedIdle_iff v)
  cases busy : inUse v with
  | true =>
    have used : v &&& 0xBBB ≠ 0 := fun idle => by
      rw [unused.mpr idle] at busy
      cases busy
    rw [resetFixed, busy, if_pos rfl]
    exact iff_of_true rfl (Or.inr used)
  | false =>
    have idle := unused.mp busy
    rw [resetFixed, busy, if_neg (by decide)]
    exact ⟨Or.inl, fun h => h.resolve_right fun used => used idle⟩

theorem programmed_eq (b : Build) (R : Regs) : programmed b R = programmedFrom b (PmcBench.cleared R) := by
  have fixed : PmcBench.cleared R ia32CrFixedCtrCtrl = 0 := by simp [PmcBench.cleared]
  rw [programmedFrom, fixed]
  rfl

theorem configured_other (b : Build) (set : Bool) (R : Regs) {a : Nat} (other : a ≠ ia32CrFixedCtrCtrl) :
    configured b set R a = PmcBench.configured b set R a := by
  have reset : cleared R a = PmcBench.cleared R a := Function.update_of_ne other ..
  cases set with
  | false => exact reset
  | true =>
    show programmedFrom b (cleared R) a = programmed b R a
    rw [programmed_eq]
    by_cases global : a = ia32CrPerfGlobalCtrl
    · subst global
      simp [programmedFrom]
    · simp only [programmedFrom, Function.update_of_ne global]
      rcases foldl_selectRow_cases b (pmcLoop b) a with kept | ⟨v, wrote⟩
      · rw [kept, kept, Function.update_of_ne other, Function.update_of_ne other, reset]
      · rw [wrote, wrote]

/-- The PMC loop does not configure IA32_FIXED_CTR_CTRL. -/
def SparesFixed (b : Build) : Prop :=
  ∀ c ∈ pmcLoop b, (b.counterTbl.row c).ctrType = .customCtr → (b.counterTbl.row c).cfgReg ≠ ia32CrFixedCtrCtrl

theorem programmedFrom_fixed (noFixed : b.nFixedCtr = 0) (spares : SparesFixed b) (R : Regs) :
    programmedFrom b R ia32CrFixedCtrCtrl = R ia32CrFixedCtrCtrl := by
  have plain (w : Word) : (fixedCtrs b w).1 = w := by simp [fixedCtrs, noFixed]
  rw [programmedFrom, Function.update_of_ne (by decide), foldl_selectRow_other spares, Function.update_self, plain]

theorem configured_fixed (noFixed : b.nFixedCtr = 0) {set : Bool} (spares : set = true → SparesFixed b) (R : Regs) :
    PmcBench.configured b set R ia32CrFixedCtrCtrl = 0 ∧
      configured b set R ia32CrFixedCtrCtrl = resetFixed (R ia32CrFixedCtrCtrl) := by
  have ours : PmcBench.cleared R ia32CrFixedCtrCtrl = 0 := by simp [PmcBench.cleared]
  have theirs : cleared R ia32CrFixedCtrCtrl = resetFixed (R ia32CrFixedCtrCtrl) := Function.update_self ..
  cases set with
  | false => exact ⟨ours, theirs⟩
  | true =>
    refine ⟨?_, (programmedFrom_fixed noFixed (spares rfl) _).trans theirs⟩
    show programmed b R ia32CrFixedCtrCtrl = 0
    rw [programmed_eq, programmedFrom_fixed noFixed (spares rfl), ours]

end MainRitika

/-- The version of main.cc and that of main_ritika.cc, on the same CPUs from the same state. -/
theorem exec_both {luck : Luck} (allOk : ∀ k, luck.accesses k = true) (opens : ∀ k, luck.opens k = true)
    {cpuMsr : Nat → Option Cpu} {cpus : List Cpu} {set : Bool} (distinct : cpus.Nodup)
    (handles : set = false → ∀ j < cpus.length, cpuMsr j = cpus[j]?) (s : Solo) : ∃ handles t handles' u,
      (configureCounters b cpuMsr cpus set).exec (Solo.handle b luck) s = (some handles, t) ∧
      (MainRitika.configureCounters b cpuMsr cpus set).exec (Solo.handle b luck) s = (some handles', u) ∧
      ∀ x, t.world.msr x = (if x ∈ cpus then configured b set (s.world.msr x) else s.world.msr x) ∧
        u.world.msr x = if x ∈ cpus then MainRitika.configured b set (s.world.msr x) else s.world.msr x := by
  have run {p : Prog (Nat → Option Cpu)} {F : Regs → Regs}
      (proved : p.wp (.ofHandler (Solo.handle b luck) fun _ _ => False)
        (fun _ t => ∀ x, t.world.msr x = if x ∈ cpus then F (s.world.msr x) else s.world.msr x) s) :
      ∃ h t, p.exec (Solo.handle b luck) s = (some h, t) ∧
        ∀ x, t.world.msr x = if x ∈ cpus then F (s.world.msr x) else s.world.msr x := by
    rcases Program.wp_exec proved with found | ⟨_, _, _, _, stop⟩
    · exact found
    · exact stop.elim
  obtain ⟨h, t, ran, left⟩ := run (Solo.wp_cpuLoopOn allOk opens (Solo.wp_configureCpuOn allOk set) distinct handles s)
  obtain ⟨h', u, ran', left'⟩ := run (Solo.wp_cpuLoopOn allOk opens (Solo.wp_ritikaCpuOn allOk set) distinct handles s)
  rw [← configureFrom_eq] at ran
  exact ⟨h, t, h', u, ran, ran', fun x => ⟨left x, left' x⟩⟩

/-- The two versions agree up to stale bits of IA32_FIXED_CTR_CTRL. -/
theorem configureCounters_agree (noFixed : b.nFixedCtr = 0) {luck : Luck} (allOk : ∀ k, luck.accesses k = true)
    (opens : ∀ k, luck.opens k = true) {cpuMsr : Nat → Option Cpu} {cpus : List Cpu} {set : Bool}
    (distinct : cpus.Nodup) (handles : set = false → ∀ j < cpus.length, cpuMsr j = cpus[j]?)
    (spares : set = true → MainRitika.SparesFixed b) (s : Solo) : ∃ h t h' u,
      (configureCounters b cpuMsr cpus set).exec (Solo.handle b luck) s = (some h, t) ∧
      (MainRitika.configureCounters b cpuMsr cpus set).exec (Solo.handle b luck) s = (some h', u) ∧
      AgreeUpToFixed cpus s.world t.world u.world := by
  obtain ⟨h, t, h', u, ran, ran', left⟩ := exec_both allOk opens distinct handles s
  refine ⟨h, t, h', u, ran, ran', ?_, fun x listed => ?_, fun x listed => ?_⟩
  · intro x a other
    rw [(left x).1, (left x).2]
    by_cases listed : x ∈ cpus
    · rw [if_pos listed, if_pos listed, MainRitika.configured_other b set _ fun fixed => other ⟨listed, fixed⟩]
    · rw [if_neg listed, if_neg listed]
  · obtain ⟨ours, theirs⟩ := MainRitika.configured_fixed noFixed spares (s.world.msr x)
    rw [(left x).1, (left x).2, if_pos listed, if_pos listed, ours, theirs, eq_comm, MainRitika.resetFixed_eq_zero]
  · obtain ⟨ours, theirs⟩ := MainRitika.configured_fixed noFixed spares (s.world.msr x)
    rw [(left x).1, (left x).2, if_pos listed, if_pos listed, ours, theirs]
    exact ⟨(fixedIdle_iff 0).mpr rfl, MainRitika.resetFixed_idle _⟩

theorem dedos07_sparesFixed : MainRitika.SparesFixed dedos07 := by
  unfold MainRitika.SparesFixed
  rw [pmcLoop_eq rfl]
  decide

/-- A CPU with stale any_thread bits in IA32_FIXED_CTR_CTRL. -/
def staleAnyThread : Solo where
  world := { World.idle with msr := fun _ a => if a = ia32CrFixedCtrCtrl then 4 else 0 }

theorem configureCounters_agree_dedos07 : ∃ h t h' u,
    (configureCounters dedos07 (fun _ => none) [1, 2] true).exec (Solo.handle dedos07 {}) staleAnyThread = (some h, t) ∧
    (MainRitika.configureCounters dedos07 (fun _ => none) [1, 2] true).exec (Solo.handle dedos07 {}) staleAnyThread =
      (some h', u) ∧
    AgreeUpToFixed [1, 2] staleAnyThread.world t.world u.world :=
  configureCounters_agree rfl (fun _ => rfl) (fun _ => rfl) (by decide) (by simp) (fun _ => dedos07_sparesFixed) _

/-- A build whose only row has IA32_FIXED_CTR_CTRL as its configuration register. -/
def fixedRow : Build where
  nFixedCtr := 0
  nCustomCtr := 1
  maxPts := 50000
  l2Size := 262144
  counterTbl := .ofRows [⟨some "L2_REFS", .customCtr, 0x24, 0xFF, ia32CrFixedCtrCtrl, 0xC1, 0⟩] (by decide)

/-- Where the PMC loop writes the register, the two versions agree whatever was stale. -/
theorem configureCounters_agree_fixedRow : ∃ h t h' u,
    (configureCounters fixedRow (fun _ => none) [0] true).exec (Solo.handle fixedRow {}) staleAnyThread = (some h, t) ∧
    (MainRitika.configureCounters fixedRow (fun _ => none) [0] true).exec (Solo.handle fixedRow {}) staleAnyThread =
      (some h', u) ∧
    ¬ AgreeUpToFixed [0] staleAnyThread.world t.world u.world := by
  have allOk : ∀ k, ({} : Luck).accesses k = true := fun _ => rfl
  have distinct : ([0] : List Cpu).Nodup := by decide
  have handles : true = false → ∀ j < ([0] : List Cpu).length, (none : Option Cpu) = [0][j]? := by simp
  obtain ⟨h, t, h', u, ran, ran', left⟩ := exec_both (b := fixedRow) allOk (fun _ => rfl) distinct handles staleAnyThread
  refine ⟨h, t, h', u, ran, ran', fun agree => ?_⟩
  have same : t.world.msr 0 ia32CrFixedCtrCtrl = u.world.msr 0 ia32CrFixedCtrCtrl := by
    rw [(left 0).1, (left 0).2]
    decide
  have stale : ¬ (staleAnyThread.world.msr 0 ia32CrFixedCtrCtrl = 0 ∨
      staleAnyThread.world.msr 0 ia32CrFixedCtrCtrl &&& 0xBBB ≠ 0) := by decide
  exact stale ((agree.fixed 0 (by simp)).mp same)

end PmcBench
