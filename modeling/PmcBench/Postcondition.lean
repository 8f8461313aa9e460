import Mathlib.Data.Fintype.EquivFin
import PmcBench.Programming

/-!
# Postcondition of configure_counters

The registers `programmed` describes, read register by register for a full
table, and the execution of `configure_counters` on a list of CPUs.
-/

namespace PmcBench
open Threads Words
open Program (forEach)

variable {b : Build}

/-! ### The PMC loop -/

/-- The custom counters that the PMC loop gets to have distinct ids and the PERFEVTSEL
of their id. -/
structure LoopRows (b : Build) : Prop where
  id : ∀ c ∈ pmcLoop b, (b.counterTbl.row c).ctrType = .customCtr → (b.counterTbl.row c).id < 8
  distinct : ∀ c ∈ pmcLoop b, ∀ d ∈ pmcLoop b, (b.counterTbl.row c).ctrType = .customCtr →
    (b.counterTbl.row d).ctrType = .customCtr → (b.counterTbl.row c).id = (b.counterTbl.row d).id → c = d
  cfgReg : ∀ c ∈ pmcLoop b, (b.counterTbl.row c).ctrType = .customCtr →
    (b.counterTbl.row c).cfgReg = ia32Perfevtsel0Addr + (b.counterTbl.row c).id

theorem pmcLoop_eq (eight : b.nCustomCtr = 8) : pmcLoop b = List.range 8 := by
  rw [pmcLoop, eight]
  decide

theorem CustomRows.loopRows (rows : CustomRows b) : LoopRows b := by
  have loop := pmcLoop_eq rows.nCustomCtr
  have size : 8 ≤ b.counterTbl.size := by
    rw [← rows.eight]
    exact List.countP_le_length.trans (List.length_range ..).le
  have inside : ∀ c ∈ pmcLoop b, c < b.counterTbl.size := fun c member => by
    rw [loop, List.mem_range] at member
    omega
  exact
    { id := fun c hc => rows.id c (inside c hc)
      distinct := fun c hc d hd => rows.distinct c (inside c hc) d (inside d hd)
      cfgReg := fun c hc => rows.cfgReg c (inside c hc) }

namespace FullTable

theorem pmcLoop_eq (full : FullTable b) : pmcLoop b = List.range 8 := PmcBench.pmcLoop_eq full.nCustomCtr

theorem mem_pmcLoop (full : FullTable b) {c : Nat} : c ∈ pmcLoop b ↔ c < 8 := by
  rw [full.pmcLoop_eq, List.mem_range]

theorem loopRows (full : FullTable b) : LoopRows b where
  id c hc _ := full.id c (full.mem_pmcLoop.mp hc)
  distinct c hc d hd _ _ := full.distinct c (full.mem_pmcLoop.mp hc) d (full.mem_pmcLoop.mp hd)
  cfgReg c hc _ := full.cfgReg c (full.mem_pmcLoop.mp hc)

theorem custom_iff (full : FullTable b) {c : Nat} (hc : c < b.counterTbl.size) :
    (b.counterTbl.row c).ctrType = .customCtr ↔ c < 8 := by
  refine ⟨fun custom => ?_, full.custom c⟩
  by_contra late
  have fixed := full.fixed c hc (by omega)
  rw [custom] at fixed
  cases fixed

end FullTable

theorem foldl_selectRow_other {rows : List Nat} {R : Regs} {a : Nat}
    (other : ∀ c ∈ rows, (b.counterTbl.row c).ctrType = .customCtr → (b.counterTbl.row c).cfgReg ≠ a) :
    rows.foldl (selectRow b) R a = R a := by
  induction rows generalizing R with
  | nil => rfl
  | cons c rows ih =>
    rw [List.foldl_cons, ih fun d member => other d (List.mem_cons_of_mem c member)]
    unfold selectRow
    split
    · rename_i custom
      exact Function.update_of_ne (other c List.mem_cons_self custom).symm ..
    · rfl

theorem foldl_selectRow_row {rows : List Nat} {R : Regs} {c : Nat} (member : c ∈ rows)
    (custom : (b.counterTbl.row c).ctrType = .customCtr)
    (distinct : ∀ d ∈ rows, (b.counterTbl.row d).ctrType = .customCtr →
      (b.counterTbl.row d).cfgReg = (b.counterTbl.row c).cfgReg → d = c) :
    rows.foldl (selectRow b) R (b.counterTbl.row c).cfgReg = evtReg (b.counterTbl.row c) := by
  induction rows generalizing R with
  | nil => simp at member
  | cons d rows ih =>
    rw [List.foldl_cons]
    by_cases later : c ∈ rows
    · exact ih later fun e member => distinct e (List.mem_cons_of_mem d member)
    · obtain rfl : c = d := (List.mem_cons.mp member).resolve_right later
      rw [foldl_selectRow_other, selectRow, if_pos custom, Function.update_self]
      intro e present other same
      exact later (distinct e (List.mem_cons_of_mem c present) other same ▸ present)

/-- What the PMC loop leaves in a register is either what was there or a word of its own. -/
theorem foldl_selectRow_cases (b : Build) (rows : List Nat) (a : Nat) :
    (∀ R, rows.foldl (selectRow b) R a = R a) ∨ ∃ v, ∀ R, rows.foldl (selectRow b) R a = v := by
  induction rows with
  | nil => exact Or.inl fun _ => rfl
  | cons c rows ih =>
    rcases ih with kept | ⟨v, wrote⟩
    · by_cases custom : (b.counterTbl.row c).ctrType = .customCtr
      · by_cases here : a = (b.counterTbl.row c).cfgReg
        · refine Or.inr ⟨evtReg (b.counterTbl.row c), fun R => ?_⟩
          rw [List.foldl_cons, kept, selectRow, if_pos custom, here, Function.update_self]
        · exact Or.inl fun R => by simp [kept, selectRow, custom, here]
      · exact Or.inl fun R => by simp [kept, selectRow, custom]
    · exact Or.inr ⟨v, fun R => wrote _⟩

theorem cleared_cleared (R : Regs) : cleared (cleared R) = cleared R := by
  funext a
  by_cases reset : a = ia32CrPerfGlobalCtrl ∨ isPmc a ∨ a = ia32CrFixedCtrCtrl
  · simp only [cleared, if_pos reset]
  · simp only [cleared, if_neg reset]

theorem programmed_programmed (b : Build) (R : Regs) : programmed b (programmed b R) = programmed b R := by
  funext a
  by_cases global : a = ia32CrPerfGlobalCtrl
  · subst global
    simp only [programmed, Function.update_self]
  · rw [programmed, Function.update_of_ne global, programmed, Function.update_of_ne global, selected, selected]
    rcases foldl_selectRow_cases b (pmcLoop b) a with kept | ⟨v, wrote⟩
    · rw [kept, kept]
      by_cases fixed : a = ia32CrFixedCtrCtrl
      · rw [fixed, Function.update_self, Function.update_self]
      · rw [Function.update_of_ne fixed, Function.update_of_ne fixed]
        by_cases pmc : isPmc a
        · simp [cleared, pmc]
        · simp [cleared, global, pmc, fixed, kept]
    · rw [wrote, wrote]

/-- A round resets the PMCs, so it does not matter what they held. -/
theorem configured_congr {R S : Regs} (agree : ∀ a, ¬ isPmc a → R a = S a) (b : Build) (set : Bool) :
    configured b set R = configured b set S := by
  have reset : cleared R = cleared S := by
    funext a
    by_cases pmc : isPmc a
    · simp only [cleared, pmc, true_or, or_true, if_true]
    · simp only [cleared, agree a pmc]
  cases set with
  | true => simp only [configured, if_true, programmed, selected, reset]
  | false => exact reset

theorem configured_configured (b : Build) (set : Bool) (R : Regs) :
    configured b set (configured b set R) = configured b set R := by
  cases set with
  | true => exact programmed_programmed b R
  | false => exact cleared_cleared R

namespace LoopRows
variable (loop : LoopRows b)
include loop

theorem cfgReg_bounds {c : Nat} (hc : c ∈ pmcLoop b) (custom : (b.counterTbl.row c).ctrType = .customCtr) :
    0x186 ≤ (b.counterTbl.row c).cfgReg ∧ (b.counterTbl.row c).cfgReg < 0x18E := by
  have bound := loop.id c hc custom
  rw [loop.cfgReg c hc custom, ia32Perfevtsel0Addr]
  omega

theorem sparesGlobal : SparesGlobal b := by
  intro c hc custom same
  have bounds := loop.cfgReg_bounds hc custom
  rw [same, ia32CrPerfGlobalCtrl] at bounds
  omega

theorem selected_row (R : Regs) {c : Nat} (hc : c ∈ pmcLoop b)
    (custom : (b.counterTbl.row c).ctrType = .customCtr) :
    selected b R (b.counterTbl.row c).cfgReg = evtReg (b.counterTbl.row c) := by
  apply foldl_selectRow_row hc custom
  intro d hd other same
  rw [loop.cfgReg c hc custom, loop.cfgReg d hd other] at same
  exact loop.distinct d hd c hc other custom (by omega)

theorem programmed_row (R : Regs) {c : Nat} (hc : c ∈ pmcLoop b)
    (custom : (b.counterTbl.row c).ctrType = .customCtr) :
    programmed b R (b.counterTbl.row c).cfgReg = evtReg (b.counterTbl.row c) := by
  have spares := loop.sparesGlobal c hc custom
  rw [programmed, Function.update_of_ne spares, loop.selected_row R hc custom]

theorem programmed_pmc (R : Regs) {a : Nat} (pmc : isPmc a) : programmed b R a = 0 := by
  have range := pmc
  simp only [isPmc, ia32Pmc0, perfMaxCustomCounters] at range
  rw [programmed, Function.update_of_ne (by rw [ia32CrPerfGlobalCtrl]; omega), selected, foldl_selectRow_other,
    Function.update_of_ne (by rw [ia32CrFixedCtrCtrl]; omega)]
  · simp [cleared, pmc]
  · intro c hc custom same
    have bounds := loop.cfgReg_bounds hc custom
    omega

theorem programmed_fixed (R : Regs) : programmed b R ia32CrFixedCtrCtrl = (fixedCtrs b 0).1 := by
  rw [programmed, Function.update_of_ne (by decide), selected, foldl_selectRow_other, Function.update_self]
  intro c hc custom same
  have bounds := loop.cfgReg_bounds hc custom
  rw [ia32CrFixedCtrCtrl] at same
  omega

end LoopRows

/-- The registers that a round with `set` writes. -/
def IsProgrammed (b : Build) (a : Nat) : Prop :=
  a = ia32CrPerfGlobalCtrl ∨ isPmc a ∨ a = ia32CrFixedCtrCtrl ∨
    ∃ c ∈ pmcLoop b, (b.counterTbl.row c).ctrType = .customCtr ∧ a = (b.counterTbl.row c).cfgReg

theorem programmed_other (R : Regs) {a : Nat} (other : ¬ IsProgrammed b a) : programmed b R a = R a := by
  simp only [IsProgrammed, not_or, not_exists, not_and] at other
  obtain ⟨global, pmc, fixed, rows⟩ := other
  rw [programmed, Function.update_of_ne global, selected,
    foldl_selectRow_other fun c hc custom same => rows c hc custom same.symm, Function.update_of_ne fixed]
  simp [cleared, global, pmc, fixed]

theorem LoopRows.programmed_congr (loop : LoopRows b) (R S : Regs) {a : Nat} (written : IsProgrammed b a) :
    programmed b R a = programmed b S a := by
  rcases written with rfl | pmc | rfl | ⟨c, hc, custom, rfl⟩
  · rw [programmed, programmed, Function.update_self, Function.update_self]
  · rw [loop.programmed_pmc R pmc, loop.programmed_pmc S pmc]
  · rw [loop.programmed_fixed R, loop.programmed_fixed S]
  · rw [loop.programmed_row R hc custom, loop.programmed_row S hc custom]

/-! ### The words that are written -/

/-- The event register decodes to the row's event, `usr`, `edge` and `enable`. -/
theorem fields_evtReg (row : CounterTableT) : EventSelectRegister.fields (evtReg row) =
    { eventSelect := BitVec.ofNat 8 row.evtnr, umask := BitVec.ofNat 8 row.umask, usr := 1, edge := 1, enable := 1 } := by
  have zero (f : BitField 64) : f.get (0 : Word) = 0#f.width := BitField.get_zero f
  simp (disch := decide) only [EventSelectRegister.fields, evtReg, BitField.get_set_other, BitField.get_set_same, zero]
  rfl

/-- The block of fixed counter `k` sets its usr bit, clears its three others, and keeps the rest. -/
theorem getLsbD_fixedCtr (k : Fin 3) (ctrlReg value : Word) (i : Nat) :
    (fixedCtr k ctrlReg value).1.getLsbD i =
      if 4 * k.val ≤ i ∧ i < 4 * k.val + 4 then decide (i = 4 * k.val + 1) else ctrlReg.getLsbD i := by
  simp only [fixedCtr, BitField.getLsbD_set]
  by_cases inside : 4 * k.val ≤ i ∧ i < 4 * k.val + 4
  · rw [if_pos inside]
    have position : i = 4 * k.val ∨ i = 4 * k.val + 1 ∨ i = 4 * k.val + 2 ∨ i = 4 * k.val + 3 := by omega
    rcases position with rfl | rfl | rfl | rfl <;>
      simp [FixedEventControlRegister.os, FixedEventControlRegister.usr, FixedEventControlRegister.anyThread,
        FixedEventControlRegister.enablePmi]
  · have outside (j : Nat) (f : BitField 64) (low : f.lo = 4 * k.val + j) (bit : f.width = 1) (lt : j < 4) :
        ¬ (f.lo ≤ i ∧ i < f.lo + f.width) := by omega
    rw [if_neg (outside 3 (FixedEventControlRegister.enablePmi k) rfl rfl (by decide)),
      if_neg (outside 2 (FixedEventControlRegister.anyThread k) rfl rfl (by decide)),
      if_neg (outside 1 (FixedEventControlRegister.usr k) rfl rfl (by decide)),
      if_neg (outside 0 (FixedEventControlRegister.os k) rfl rfl (by decide)), if_neg inside]

/-- The usr bits of the fixed counters in use, and nothing else. -/
theorem getLsbD_fixedCtrs (fixed : b.nFixedCtr ≤ 3) (i : Nat) :
    (fixedCtrs b 0).1.getLsbD i = true ↔ ∃ k < b.nFixedCtr, i = 4 * k + 1 := by
  have arith : (∃ k < b.nFixedCtr, i = 4 * k + 1) ↔ i < 4 * b.nFixedCtr ∧ i % 4 = 1 :=
    ⟨fun ⟨k, bound, at_⟩ => by omega, fun ⟨bound, rem⟩ => ⟨i / 4, by omega, by omega⟩⟩
  rw [arith]
  have number : b.nFixedCtr = 0 ∨ b.nFixedCtr = 1 ∨ b.nFixedCtr = 2 ∨ b.nFixedCtr = 3 := by omega
  rcases number with n | n | n | n
  · simp [fixedCtrs, n]
  all_goals
    simp [fixedCtrs, n, getLsbD_fixedCtr]
    repeat' split
  all_goals omega

/-- The mask of the fixed counters in use; there are blocks for three of them. -/
theorem fixedCtrs_mask (b : Build) (ctrlReg : Word) :
    (fixedCtrs b ctrlReg).2 = addBits 0 ((List.range (min b.nFixedCtr 3)).map (32 + ·)) := by
  have number : b.nFixedCtr = 0 ∨ b.nFixedCtr = 1 ∨ b.nFixedCtr = 2 ∨ 3 ≤ b.nFixedCtr := by omega
  rcases number with n | n | n | more
  · simp [fixedCtrs, n, addBits]
  · simp [fixedCtrs, fixedCtr, n, addBits]
  · simp [fixedCtrs, fixedCtr, n, addBits, List.range_succ]
  · have blocks : b.nFixedCtr > 0 ∧ b.nFixedCtr > 1 ∧ b.nFixedCtr > 2 := by omega
    rw [Nat.min_eq_right more]
    simp [fixedCtrs, fixedCtr, blocks, addBits, List.range_succ]

theorem foldl_maskRow {rows : List Nat} {value : Word} : rows.foldl (maskRow b) value =
    addBits value ((rows.filter fun c => (b.counterTbl.row c).ctrType = .customCtr).map
      fun c => (b.counterTbl.row c).id) := by
  induction rows generalizing value with
  | nil => rfl
  | cons c rows ih =>
    rw [List.foldl_cons, ih, maskRow]
    by_cases custom : (b.counterTbl.row c).ctrType = .customCtr
    · rw [if_pos custom, List.filter_cons_of_pos (by simpa using custom)]
      rfl
    · rw [if_neg custom, List.filter_cons_of_neg (by simpa using custom)]

theorem LoopRows.getLsbD_enableMask (loop : LoopRows b) (k : Nat) :
    (enableMask b).getLsbD k = true ↔
      (∃ c ∈ pmcLoop b, (b.counterTbl.row c).ctrType = .customCtr ∧ (b.counterTbl.row c).id = k) ∨
        32 ≤ k ∧ k < 32 + min b.nFixedCtr 3 := by
  let custom := (pmcLoop b).filter fun c => (b.counterTbl.row c).ctrType = .customCtr
  have ofCustom {c : Nat} (hc : c ∈ custom) : c ∈ pmcLoop b ∧ (b.counterTbl.row c).ctrType = .customCtr := by
    simpa [custom] using hc
  have mask : enableMask b = addBits 0 ((List.range (min b.nFixedCtr 3)).map (32 + ·) ++
      custom.map fun c => (b.counterTbl.row c).id) := by
    rw [enableMask, foldl_maskRow, fixedCtrs_mask, addBits, addBits, addBits, List.foldl_append]
  have nodup : custom.Nodup := (List.nodup_range.sublist (List.takeWhile_sublist _)).filter _
  have distinct : ((List.range (min b.nFixedCtr 3)).map (32 + ·) ++ custom.map fun c => (b.counterTbl.row c).id).Nodup := by
    refine List.Nodup.append (List.nodup_range.map fun i j same => by omega) ?_ ?_
    · refine List.Nodup.map_on (fun c hc d hd same => ?_) nodup
      exact loop.distinct c (ofCustom hc).1 d (ofCustom hd).1 (ofCustom hc).2 (ofCustom hd).2 same
    · intro i high low
      obtain ⟨j, -, rfl⟩ := List.mem_map.mp high
      obtain ⟨c, hc, same⟩ := List.mem_map.mp low
      have bound := loop.id c (ofCustom hc).1 (ofCustom hc).2
      omega
  rw [mask, getLsbD_addBits distinct (fun i _ => by simp)]
  simp only [BitVec.ofNat_eq_ofNat, BitVec.getLsbD_zero, Bool.false_or, Bool.and_eq_true, decide_eq_true_eq,
    List.mem_append, List.mem_map, List.mem_range]
  constructor
  · rintro ⟨-, ⟨i, bound, rfl⟩ | ⟨c, hc, rfl⟩⟩
    · exact Or.inr ⟨by omega, by omega⟩
    · exact Or.inl ⟨c, (ofCustom hc).1, (ofCustom hc).2, rfl⟩
  · rintro (⟨c, hc, isCustom, rfl⟩ | ⟨low, high⟩)
    · exact ⟨by have := loop.id c hc isCustom; omega, Or.inr ⟨c, by simp [custom, hc, isCustom], rfl⟩⟩
    · exact ⟨by omega, Or.inl ⟨k - 32, by omega, by omega⟩⟩

/-! ### configure_counters by itself, when every access succeeds -/

namespace Solo
variable {luck : Luck} {stop : Solo → Action → Prop}

/-- What a round on CPU `x` keeps of `main`'s world. -/
structure Keeps (x : Cpu) (s t : Solo) : Prop where
  opened : t.opened = s.opened
  msr : ∀ y, y ≠ x → t.world.msr y = s.world.msr y
  enabled : ∀ y, y ≠ x → t.enabled y = s.enabled y
  grows : s.enabled x = true → t.enabled x = true
  worker : t.world.worker = s.world.worker
  file : t.world.file = s.world.file

theorem Keeps.trans {x : Cpu} {s t u : Solo} (first : Keeps x s t) (second : Keeps x t u) : Keeps x s u where
  opened := second.opened.trans first.opened
  msr y other := (second.msr y other).trans (first.msr y other)
  enabled y other := (second.enabled y other).trans (first.enabled y other)
  grows := second.grows ∘ first.grows
  worker := second.worker.trans first.worker
  file := second.file.trans first.file

theorem keeps_access (x : Cpu) (s : Solo) (n : Nat) : Keeps x s { s with accessed := n } :=
  ⟨rfl, fun _ _ => rfl, fun _ _ => rfl, id, rfl, rfl⟩

theorem keeps_writeReg (s : Solo) (x : Cpu) (a : Nat) (v : Word) : Keeps x s (s.writeReg x a v) where
  opened := rfl
  msr y other := Function.update_of_ne other ..
  enabled y other := by simp [writeReg, other]
  grows on := by simp [writeReg, on]
  worker := rfl
  file := rfl

theorem shows (b : Build) (allOk : ∀ k, luck.accesses k = true) (x : Cpu) :
    Shows b (.ofHandler (handle b luck) stop) x (fun s => s.world.msr x) (Keeps x) where
  refl s := keeps_access x s s.accessed
  trans := Keeps.trans
  disturb moved := moved.elim
  write {s a v r t} step := by
    simp only [handle, allOk, if_true, Option.some.injEq] at step
    obtain ⟨rfl, rfl⟩ := step
    exact ⟨rfl, Function.update_self .., keeps_writeReg s x a v⟩
  read {s a r t} step := by
    simp only [handle, allOk, if_true, Option.some.injEq] at step
    obtain ⟨rfl, rfl⟩ := step
    exact ⟨rfl, rfl, keeps_access x s _⟩
  assert step := by
    simp only [handle, if_true, Option.some.injEq] at step
    cases step
    rfl
  allowRead s a := by simp [handle, allOk]
  allowAssert s := by simp [handle]
  allowOff s := by simp [handle, allOk]
  allowQuiet a v _ _ := by simp [handle, allOk]
  allowOn R _ := by simp [handle, allOk]

/-- `main`'s world after the rounds on `cpus`. -/
structure Configured (b : Build) (set : Bool) (cpus : List Cpu) (s t : Solo) : Prop where
  msr : ∀ x, t.world.msr x = if x ∈ cpus then configured b set (s.world.msr x) else s.world.msr x
  unlisted : ∀ x, x ∉ cpus → t.enabled x = s.enabled x
  listed : ∀ x, x ∈ cpus → set = true → enableMask b ≠ 0 → t.enabled x = true
  grows : ∀ x, s.enabled x = true → t.enabled x = true
  opened : t.opened = s.opened + if set then cpus.length else 0
  worker : t.world.worker = s.world.worker
  file : t.world.file = s.world.file

namespace Configured
variable {b : Build} {set : Bool} {cpus : List Cpu} {s t u : Solo}

theorem refl (b : Build) (set : Bool) (s : Solo) : Configured b set [] s s where
  msr x := by simp
  unlisted _ _ := rfl
  listed _ member := by simp at member
  grows _ := id
  opened := by cases set <;> rfl
  worker := rfl
  file := rfl

/-- One more round; a CPU that is listed again is programmed again with the same words. -/
theorem snoc {cpu : Cpu} (before : Configured b set cpus s t) (last : Configured b set [cpu] t u) :
    Configured b set (cpus ++ [cpu]) s u where
  msr x := by
    rw [last.msr, before.msr]
    by_cases same : x = cpu
    · subst same
      by_cases earlier : x ∈ cpus <;> simp [earlier, configured_configured]
    · simp [same]
  unlisted x member := by
    rw [List.mem_append, not_or] at member
    exact (last.unlisted x member.2).trans (before.unlisted x member.1)
  listed x member on mask := by
    rcases List.mem_append.mp member with earlier | same
    · exact last.grows x (before.listed x earlier on mask)
    · exact last.listed x same on mask
  grows x on := last.grows x (before.grows x on)
  opened := by
    rw [last.opened, before.opened]
    cases set <;> simp [Nat.add_assoc]
  worker := last.worker.trans before.worker
  file := last.file.trans before.file

end Configured
theorem wp_configureCpu {b : Build} {x : Cpu} {set : Bool} {s : Solo} {Q : Unit → Solo → Prop}
    (allOk : ∀ k, luck.accesses k = true) (spares : SparesGlobal b)
    (rest : ∀ t, Keeps x s t → t.world.msr x = configured b set (s.world.msr x) →
      (set = true → enableMask b ≠ 0 → t.enabled x = true) → Q () t) :
    (configureCpu b x set).wp (.ofHandler (handle b luck) stop) Q s := by
  apply (shows b allOk x).wp_configureCpu spares
  intro R t agree regs kept on
  refine Program.wp_done (fun _ _ _ moved => moved.elim) (rest t kept ?_ fun set_ mask => ?_)
  · exact regs.trans (configured_congr agree b set)
  · obtain ⟨v, step⟩ := on set_
    simp only [handle, allOk, if_true, Option.some.injEq] at step
    cases step
    simp only [writeReg, decide_true, Bool.and_true, Bool.or_eq_true]
    exact Or.inr (decide_eq_true mask)

theorem wp_round {b : Build} {x : Cpu} {set : Bool} {s : Solo} {Q : Unit → Solo → Prop}
    (allOk : ∀ k, luck.accesses k = true) (spares : SparesGlobal b)
    (stopped : set = true → luck.opens s.opened = false → stop s (.openMsr x))
    (rest : ∀ t, (set = true → luck.opens s.opened = true) → Configured b set [x] s t → Q () t) :
    (round b set x).wp (.ofHandler (handle b luck) stop) Q s := by
  have checked (t : Solo) (ok : set = true → luck.opens s.opened = true)
      (opened : t = { s with opened := s.opened + if set then 1 else 0 }) :
      ((do
        perform (.assert true)
        configureCpu b x set) : Prog Unit).wp (.ofHandler (handle b luck) stop) Q t := by
    refine ((shows b allOk x).accesses s).wp_assert (wp_configureCpu allOk spares fun u kept regs on => rest u ok ?_)
    subst opened
    exact
      { msr := fun y => by
          by_cases same : y = x
          · subst same; simpa using regs
          · simpa [same] using kept.msr y same
        unlisted := fun y other => kept.enabled y (by simpa using other)
        listed := fun y member set_ mask => by simpa [List.mem_singleton.mp member] using on set_ mask
        grows := fun y was => by
          by_cases same : y = x
          · subst same; exact kept.grows was
          · exact (kept.enabled y same).trans was
        opened := kept.opened
        worker := kept.worker
        file := kept.file }
  unfold round
  cases set with
  | false => exact checked s nofun rfl
  | true =>
    simp only [if_true, Program.call_bind]
    refine (Program.wp_act_still fun _ _ => id).mpr ⟨fun refused => ?_, fun r t step => ?_⟩
    · exact stopped rfl (by simpa [handle] using refused)
    · simp only [handle, Option.ite_none_right_eq_some, Option.some.injEq] at step
      obtain ⟨ok, step⟩ := step
      cases step
      exact checked _ (fun _ => ok) rfl

/-- The rounds on a list of CPUs. Only an `openMsr` can stop them. -/
theorem wp_configureCounters {b : Build} {set : Bool} {cpus : List Cpu} {cpuMsr : Nat → Option Cpu} {s : Solo}
    {Q : (Nat → Option Cpu) → Solo → Prop} (allOk : ∀ k, luck.accesses k = true) (spares : SparesGlobal b)
    (handles : set = false → ∀ j < cpus.length, cpuMsr j = cpus[j]?)
    (stopped : ∀ done cpu t, done ++ [cpu] <+: cpus → set = true → Configured b set done s t →
      (set = true → ∀ k < done.length, luck.opens (s.opened + k) = true) → luck.opens t.opened = false →
      stop t (.openMsr cpu))
    (rest : ∀ h t, (∀ j < cpus.length, h j = cpus[j]?) →
      (set = true → ∀ k < cpus.length, luck.opens (s.opened + k) = true) → Configured b set cpus s t → Q h t) :
    (configureCounters b cpuMsr cpus set).wp (.ofHandler (handle b luck) stop) Q s := by
  refine wp_configureFrom (V := .ofHandler (handle b luck) stop) (I := fun done t => Configured b set done s t ∧
      (set = true → ∀ k < done.length, luck.opens (s.opened + k) = true))
    ⟨.refl b set s, nofun⟩ (fun _ _ _ _ moved => moved.elim) (by simpa using handles)
    (fun done cpu t front ⟨held, opens⟩ => ?_)
    fun h t _ new ⟨reached, opens⟩ => rest h t (by simpa using new) opens reached
  refine wp_round allOk spares (fun on failed => stopped done cpu t front on held opens failed)
    fun u ok after => ⟨held.snoc after, fun on k bound => ?_⟩
  rw [List.length_append, List.length_singleton] at bound
  rcases Nat.lt_succ_iff_lt_or_eq.mp bound with earlier | rfl
  · exact opens on k earlier
  · have here := ok on
    rwa [held.opened, if_pos on] at here

theorem exec_configureCounters {b : Build} (allOk : ∀ k, luck.accesses k = true) (opens : ∀ k, luck.opens k = true)
    (spares : SparesGlobal b) (cpuMsr : Nat → Option Cpu) (cpus : List Cpu) (s : Solo) :
    ∃ handles t, (configureCounters b cpuMsr cpus true).exec (handle b luck) s = (some handles, t) ∧
      Configured b true cpus s t := by
  have proved : (configureCounters b cpuMsr cpus true).wp (.ofHandler (handle b luck) fun _ _ => False)
      (fun _ t => Configured b true cpus s t) s :=
    wp_configureCounters allOk spares nofun (fun _ _ t _ _ _ _ failed => by simp [opens] at failed)
      fun _ _ _ _ reached => reached
  rcases Program.wp_exec proved with ⟨handles, t, ran, reached⟩ | ⟨_, _, _, _, stop⟩
  · exact ⟨handles, t, ran, reached⟩
  · exact stop.elim

end Solo

/-- What the counters of a CPU look like after programming, `R` before and `S` after. -/
structure Postcondition (b : Build) (R S : Regs) : Prop where
  global : ∀ k, (S ia32CrPerfGlobalCtrl).getLsbD k = true ↔
    (∃ c < b.counterTbl.size, (b.counterTbl.row c).ctrType = .customCtr ∧ (b.counterTbl.row c).id = k) ∨
      32 ≤ k ∧ k < 32 + b.nFixedCtr
  perfevtsel : ∀ c < b.counterTbl.size, (b.counterTbl.row c).ctrType = .customCtr →
    ∃ e u : BitVec 8, e.toNat = (b.counterTbl.row c).evtnr ∧ u.toNat = (b.counterTbl.row c).umask ∧
      EventSelectRegister.fields (S (b.counterTbl.row c).cfgReg) =
        { eventSelect := e, umask := u, usr := 1, edge := 1, enable := 1 }
  pmc : ∀ k < perfMaxCustomCounters, S (ia32Pmc0 + k) = 0
  fixedCtrCtrl : ∀ k, (S ia32CrFixedCtrCtrl).getLsbD k = true ↔ ∃ i < b.nFixedCtr, k = 4 * i + 1
  frame : ∀ a, ¬ IsProgrammed b a → S a = R a

/-- The event numbers and unit masks of the custom counters are those of 8-bit fields. -/
def SmallEvents (b : Build) : Prop :=
  ∀ c < b.counterTbl.size, (b.counterTbl.row c).ctrType = .customCtr →
    (b.counterTbl.row c).evtnr < 256 ∧ (b.counterTbl.row c).umask < 256

theorem FullTable.postcondition (full : FullTable b) (fixed : b.nFixedCtr ≤ 3) (small : SmallEvents b) (R : Regs) :
    Postcondition b R (programmed b R) where
  global k := by
    rw [programmed, Function.update_self, full.loopRows.getLsbD_enableMask, Nat.min_eq_left fixed]
    refine or_congr_left ⟨?_, ?_⟩
    · rintro ⟨c, hc, custom, same⟩
      exact ⟨c, Nat.lt_of_lt_of_le (full.mem_pmcLoop.mp hc) full.size, custom, same⟩
    · rintro ⟨c, hc, custom, same⟩
      exact ⟨c, full.mem_pmcLoop.mpr ((full.custom_iff hc).mp custom), custom, same⟩
  perfevtsel c hc custom := by
    obtain ⟨evtnr, umask⟩ := small c hc custom
    rw [full.loopRows.programmed_row R (full.mem_pmcLoop.mpr ((full.custom_iff hc).mp custom)) custom, fields_evtReg]
    exact ⟨.ofNat 8 _, .ofNat 8 _, Nat.mod_eq_of_lt evtnr, Nat.mod_eq_of_lt umask, rfl⟩
  pmc k hk := full.loopRows.programmed_pmc R ⟨by omega, by omega⟩
  fixedCtrCtrl k := by
    rw [full.loopRows.programmed_fixed R]
    exact getLsbD_fixedCtrs fixed k
  frame a other := programmed_other R other

/-- `configure_counters(cpu_msr, cpus, true)` programs every listed CPU and touches no
other, and what it programs depends only on the build. -/
theorem configureCounters_post (full : FullTable b) (fixed : b.nFixedCtr ≤ 3) (small : SmallEvents b) :
    ∃ words : Regs, ∀ (luck : Luck) (cpuMsr : Nat → Option Cpu) (cpus : List Cpu) (s : Solo),
      (∀ k, luck.accesses k = true) → (∀ k, luck.opens k = true) →
      ∃ handles t, (configureCounters b cpuMsr cpus true).exec (Solo.handle b luck) s = (some handles, t) ∧
        (∀ x ∈ cpus, Postcondition b (s.world.msr x) (t.world.msr x) ∧
          ∀ a, IsProgrammed b a → t.world.msr x a = words a) ∧
        ∀ x, x ∉ cpus → t.world.msr x = s.world.msr x := by
  refine ⟨programmed b fun _ => 0, fun luck cpuMsr cpus s allOk opens => ?_⟩
  obtain ⟨handles, t, ran, reached⟩ := Solo.exec_configureCounters allOk opens full.loopRows.sparesGlobal cpuMsr cpus s
  refine ⟨handles, t, ran, fun x listed => ?_, fun x unlisted => ?_⟩
  · have now : t.world.msr x = programmed b (s.world.msr x) := (reached.msr x).trans (if_pos listed)
    rw [now]
    exact ⟨full.postcondition fixed small _, fun a written => full.loopRows.programmed_congr _ _ written⟩
  · exact (reached.msr x).trans (if_neg unlisted)

theorem dedos07_full : FullTable dedos07 := by
  constructor <;> decide

theorem dedos07_small : SmallEvents dedos07 := by
  unfold SmallEvents
  decide

theorem configureCounters_post_dedos07 :
    ∃ words : Regs, ∀ (luck : Luck) (cpuMsr : Nat → Option Cpu) (cpus : List Cpu) (s : Solo),
      (∀ k, luck.accesses k = true) → (∀ k, luck.opens k = true) →
      ∃ handles t, (configureCounters dedos07 cpuMsr cpus true).exec (Solo.handle dedos07 luck) s = (some handles, t) ∧
        (∀ x ∈ cpus, Postcondition dedos07 (s.world.msr x) (t.world.msr x) ∧
          ∀ a, IsProgrammed dedos07 a → t.world.msr x a = words a) ∧
        ∀ x, x ∉ cpus → t.world.msr x = s.world.msr x :=
  configureCounters_post dedos07_full (by decide) dedos07_small

/-- A table that declares a fixed counter before its 8 custom counters. -/
def fixedFirst : Build :=
  { dedos07 with
    nFixedCtr := 1
    counterTbl := .ofRows (⟨some "INSN_RETIRED", .fixedCtr, 0, 0, 0x38D, 0x309, 0⟩ ::
      (List.range 8).map counterTbl.row) (by decide) }

/-- The PMC loop does not get to the last row of such a table. -/
theorem configureCounters_fixedFirst : CustomRows fixedFirst ∧ SmallEvents fixedFirst ∧ fixedFirst.nFixedCtr ≤ 3 ∧
    ∃ handles t, (configureCounters fixedFirst (fun _ => none) [0] true).exec (Solo.handle fixedFirst {})
        { world := .idle } = (some handles, t) ∧
      ¬ Postcondition fixedFirst (World.idle.msr 0) (t.world.msr 0) := by
  have spares : SparesGlobal fixedFirst := by
    unfold SparesGlobal
    decide
  have allOk : ∀ k, ({} : Luck).accesses k = true := fun _ => rfl
  have opens : ∀ k, ({} : Luck).opens k = true := fun _ => rfl
  obtain ⟨handles, t, ran, reached⟩ := Solo.exec_configureCounters allOk opens spares (fun _ => none) [0]
    { world := .idle }
  refine ⟨by constructor <;> decide, by unfold SmallEvents; decide, by decide, handles, t, ran, fun post => ?_⟩
  have on := (post.global 7).mpr (Or.inl ⟨8, by decide, by decide, by decide⟩)
  rw [reached.msr 0, if_pos (List.mem_singleton.mpr rfl)] at on
  have off : (enableMask fixedFirst).getLsbD 7 = false := by decide
  rw [configured, if_pos rfl, programmed, Function.update_self, off] at on
  cases on

end PmcBench
