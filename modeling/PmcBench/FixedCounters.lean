import PmcBench.Pmu

/-!
# The fixed counters of one CPU

A PMU that also counts three events in counters of their own: instructions retired,
cycles and reference cycles. IA32_FIXED_CTR_CTRL says for each of them at which
privilege level and for which logical processors of the core it counts.
-/

namespace PmcBench
open Words

def instRetiredAnyAddr : Nat := 0x309
def cpuClkUnhaltedThreadAddr : Nat := 0x30A
def cpuClkUnhaltedRefAddr : Nat := 0x30B

def fixedAddr (k : Fin 3) : Nat := instRetiredAnyAddr + k

example : List.ofFn fixedAddr = [instRetiredAnyAddr, cpuClkUnhaltedThreadAddr, cpuClkUnhaltedRefAddr] := rfl

/-- `fixed` says which fixed counters an event is for, `user` whether it happens at user
level, and `own` whether on this logical processor or on its sibling. -/
structure FixedPmu extends Pmu where
  fixed : Tick → Fin 3 → Bool
  user : Tick → Bool
  own : Tick → Bool
  fixedWidth : Nat
  fixedWidthLe : fixedWidth ≤ 64

def isFixed (a : Nat) : Prop := instRetiredAnyAddr ≤ a ∧ a - instRetiredAnyAddr < 3

instance (a : Nat) : Decidable (isFixed a) := inferInstanceAs (Decidable (_ ∧ _))

namespace FixedPmu
variable {hw : FixedPmu}

def countsFixed (hw : FixedPmu) (R : Regs) (k : Fin 3) (t : hw.Tick) : Bool :=
  let level := if hw.user t then FixedEventControlRegister.usr k else FixedEventControlRegister.os k
  (R ia32CrPerfGlobalCtrl).getLsbD (32 + k) && (R ia32CrFixedCtrCtrl).getLsbD level.lo && hw.fixed t k &&
    (hw.own t || (R ia32CrFixedCtrCtrl).getLsbD (FixedEventControlRegister.anyThread k).lo)

def tick (hw : FixedPmu) (R : Regs) (t : hw.Tick) : Regs := fun a =>
  if fixed : isFixed a then
    if hw.countsFixed R ⟨a - instRetiredAnyAddr, fixed.2⟩ t then
      BitVec.ofNat 64 (((R a).toNat + 1) % 2 ^ hw.fixedWidth) else R a
  else hw.toPmu.tick R t a

def run (hw : FixedPmu) (R : Regs) (ts : List hw.Tick) : Regs := ts.foldl hw.tick R

theorem run_snoc (R : Regs) (ts : List hw.Tick) (t : hw.Tick) : hw.run R (ts ++ [t]) = hw.tick (hw.run R ts) t := by
  rw [run, run, List.foldl_append]
  rfl

theorem tick_other {R : Regs} {a : Nat} (notFixed : ¬ isFixed a) (notPmc : ¬ isPmc a) (t : hw.Tick) :
    hw.tick R t a = R a := by
  rw [tick, dif_neg notFixed]
  exact Pmu.tick_other notPmc t

theorem tick_fixed (R : Regs) (t : hw.Tick) (k : Fin 3) :
    hw.tick R t (fixedAddr k) =
      if hw.countsFixed R k t then BitVec.ofNat 64 (((R (fixedAddr k)).toNat + 1) % 2 ^ hw.fixedWidth)
      else R (fixedAddr k) := by
  have index : fixedAddr k - instRetiredAnyAddr = k := Nat.add_sub_cancel_left ..
  have fixed : isFixed (fixedAddr k) := ⟨Nat.le_add_right .., index ▸ k.isLt⟩
  rw [tick, dif_pos fixed]
  simp only [index, Fin.eta]

/-- The counter as a PMU's counter of the same width. -/
theorem toNat_tick_fixed {R : Regs} {k : Fin 3} {x : Nat} (value : (R (fixedAddr k)).toNat = x % 2 ^ hw.fixedWidth)
    (t : hw.Tick) : (hw.tick R t (fixedAddr k)).toNat =
      (if hw.countsFixed R k t then x + 1 else x) % 2 ^ hw.fixedWidth := by
  rw [tick_fixed]
  cases hw.countsFixed R k t with
  | true =>
    have narrow : ((x + 1) % 2 ^ hw.fixedWidth) < 2 ^ 64 :=
      Nat.lt_of_lt_of_le (Nat.mod_lt _ (Nat.two_pow_pos _)) (Nat.pow_le_pow_right (by decide) hw.fixedWidthLe)
    rw [if_pos rfl, if_pos rfl, value, Nat.mod_add_mod, BitVec.toNat_ofNat, Nat.mod_eq_of_lt narrow]
  | false => simpa using value

/-- The fixed counters are no wider than the hardware. -/
def Narrow (hw : FixedPmu) (R : Regs) : Prop := ∀ k, (R (fixedAddr k)).toNat < 2 ^ hw.fixedWidth

theorem Narrow.tick {R : Regs} (narrow : hw.Narrow R) (t : hw.Tick) : hw.Narrow (hw.tick R t) := by
  intro k
  rw [toNat_tick_fixed (Nat.mod_eq_of_lt (narrow k)).symm]
  exact Nat.mod_lt _ (Nat.two_pow_pos _)

/-- A PMU whose events are each for one fixed counter, in one of the two rings. -/
abbrev exact : FixedPmu where
  Tick := Fin 3 × Bool
  hits _ _ _ := false
  width := 48
  widthLe := Pmu.exact.widthLe
  fixed t k := decide (t.1 = k)
  user t := t.2
  own _ := true
  fixedWidth := 48
  fixedWidthLe := Pmu.exact.widthLe

end FixedPmu

end PmcBench
