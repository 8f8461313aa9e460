import Mathlib.Algebra.Group.Nat.Defs
import Mathlib.Data.List.Induction
import PmcBench.Registers

/-!
# The performance-monitoring unit of one CPU

A CPU's register file, and the hardware events that advance its counters
between two register accesses. `run_pmc` gives a counter after any events as a
number of matching events, and `run_disabled` is why nothing counts while
IA32_PERF_GLOBAL_CTRL is 0.
-/

namespace PmcBench
open Words

abbrev Regs := Nat → Word

/-- The hardware: its events, which of them an event select and unit mask
count, and the width of its counters. -/
structure Pmu where
  Tick : Type
  hits : Tick → BitVec 8 → BitVec 8 → Bool
  width : Nat
  widthLe : width ≤ 64

def isPmc (a : Nat) : Prop := ia32Pmc0 ≤ a ∧ a < ia32Pmc0 + perfMaxCustomCounters

instance (a : Nat) : Decidable (isPmc a) := inferInstanceAs (Decidable (_ ∧ _))

namespace Pmu
variable (hw : Pmu)

/-- The event is one that this PERFEVTSEL value selects. -/
def selects (value : Word) (t : hw.Tick) : Bool :=
  hw.hits t (EventSelectRegister.eventSelect.get value) (EventSelectRegister.umask.get value)

/-- Whether counter `k` advances on an event: its GLOBAL_CTRL bit, its enable
bit and its selection. -/
def counts (R : Regs) (k : Nat) (t : hw.Tick) : Bool :=
  (R ia32CrPerfGlobalCtrl).getLsbD k &&
    (EventSelectRegister.enable.get (R (ia32Perfevtsel0Addr + k)) == 1) &&
    hw.selects (R (ia32Perfevtsel0Addr + k)) t

/-- One event on the CPU: every counter that counts it advances by one. -/
def tick (R : Regs) (t : hw.Tick) : Regs := fun a =>
  if isPmc a ∧ hw.counts R (a - ia32Pmc0) t then BitVec.ofNat 64 (((R a).toNat + 1) % 2 ^ hw.width) else R a

def run (R : Regs) (ts : List hw.Tick) : Regs := ts.foldl hw.tick R

variable {hw}

theorem tick_other {R : Regs} {a : Nat} (other : ¬ isPmc a) (t : hw.Tick) : hw.tick R t a = R a := by
  simp [tick, other]

theorem run_other {R : Regs} {a : Nat} (other : ¬ isPmc a) (ts : List hw.Tick) : hw.run R ts a = R a := by
  induction ts generalizing R with
  | nil => rfl
  | cons t ts ih => exact (ih (R := hw.tick R t)).trans (tick_other other t)

/-- With GLOBAL_CTRL at 0 an event changes nothing. -/
theorem tick_disabled {R : Regs} (off : R ia32CrPerfGlobalCtrl = 0) (t : hw.Tick) : hw.tick R t = R := by
  funext a
  simp [tick, counts, off]

theorem run_disabled {R : Regs} (off : R ia32CrPerfGlobalCtrl = 0) (ts : List hw.Tick) : hw.run R ts = R := by
  induction ts with
  | nil => rfl
  | cons t ts ih => exact (congrArg (fun R => hw.run R ts) (tick_disabled off t)).trans ih

theorem run_append (R : Regs) (ts us : List hw.Tick) : hw.run R (ts ++ us) = hw.run (hw.run R ts) us :=
  List.foldl_append

theorem counts_run (R : Regs) (ts : List hw.Tick) (k : Nat) (hk : k < perfMaxCustomCounters) (t : hw.Tick) :
    hw.counts (hw.run R ts) k t = hw.counts R k t := by
  have global : ¬ isPmc ia32CrPerfGlobalCtrl := by decide
  have select : ¬ isPmc (ia32Perfevtsel0Addr + k) := by
    simp only [isPmc, ia32Pmc0, ia32Perfevtsel0Addr, perfMaxCustomCounters] at hk ⊢
    omega
  simp only [counts, run_other global, run_other select]

/-- An enabled counter counts the events of its event select and unit mask. -/
theorem counts_enabled {R : Regs} {k : Nat} {v : Word} (global : (R ia32CrPerfGlobalCtrl).getLsbD k = true)
    (select : R (ia32Perfevtsel0Addr + k) = v) (enable : EventSelectRegister.enable.get v = 1) (t : hw.Tick) :
    hw.counts R k t = hw.hits t (EventSelectRegister.eventSelect.get v) (EventSelectRegister.umask.get v) := by
  rw [counts, global, select, enable, selects]
  rfl

theorem tick_pmc (R : Regs) (t : hw.Tick) (k : Nat) (hk : k < perfMaxCustomCounters) :
    hw.tick R t (ia32Pmc0 + k) =
      if hw.counts R k t then BitVec.ofNat 64 (((R (ia32Pmc0 + k)).toNat + 1) % 2 ^ hw.width)
      else R (ia32Pmc0 + k) := by
  have pmc : isPmc (ia32Pmc0 + k) := ⟨by omega, by omega⟩
  simp [tick, pmc]

theorem toNat_ofNat_mod (hw : Pmu) (x : Nat) :
    (BitVec.ofNat 64 (x % 2 ^ hw.width)).toNat = x % 2 ^ hw.width := by
  have small : x % 2 ^ hw.width < 2 ^ hw.width := Nat.mod_lt _ (Nat.two_pow_pos _)
  have wide : 2 ^ hw.width ≤ 2 ^ 64 := Nat.pow_le_pow_right (by decide) hw.widthLe
  rw [BitVec.toNat_ofNat, Nat.mod_eq_of_lt (Nat.lt_of_lt_of_le small wide)]

/-- A counter that holds `x` modulo its width still does so after an event that
it counts, with one more. -/
theorem toNat_tick_pmc {R : Regs} {k x : Nat} (hk : k < perfMaxCustomCounters)
    (value : (R (ia32Pmc0 + k)).toNat = x % 2 ^ hw.width) (t : hw.Tick) :
    (hw.tick R t (ia32Pmc0 + k)).toNat = (if hw.counts R k t then x + 1 else x) % 2 ^ hw.width := by
  rw [tick_pmc _ _ _ hk]
  cases hw.counts R k t with
  | true => rw [if_pos rfl, if_pos rfl, toNat_ofNat_mod, value, Nat.mod_add_mod]
  | false => simpa using value

/-- A counter that starts at 0 holds the number of events it counts, modulo its width. -/
theorem run_pmc {R : Regs} {k : Nat} (hk : k < perfMaxCustomCounters) (zero : R (ia32Pmc0 + k) = 0)
    (ts : List hw.Tick) :
    hw.run R ts (ia32Pmc0 + k) = BitVec.ofNat 64 (ts.countP (hw.counts R k) % 2 ^ hw.width) := by
  induction ts using List.reverseRecOn with
  | nil => simpa [run] using zero
  | append_singleton ts t ih =>
    rw [run_append, run, List.foldl_cons, List.foldl_nil, tick_pmc _ _ _ hk, counts_run R ts k hk, ih,
      toNat_ofNat_mod]
    cases counted : hw.counts R k t with
    | true => simp [List.countP_append, counted]
    | false => simp [List.countP_append, counted]

/-- A PMU whose events carry the event number and unit mask that count them, with
counters of 48 bits. -/
abbrev exact : Pmu where
  Tick := BitVec 8 × BitVec 8
  hits t event umask := decide (t = (event, umask))
  width := 48
  widthLe := by decide

end Pmu

end PmcBench
