import PmcBench.Solo

/-!
# What configure_counters leaves in the registers

`programmed` and `cleared` are the register file of a CPU after one round of the
CPU loop with and without `set`. `Shows.wp_configureCpu` proves the round in any
view that shows the CPU's registers, whether or not counters may tick between
the accesses; the postcondition of `configure_counters` is its instance for an
undisturbed `main`.
-/

namespace PmcBench
open Threads Words
open Program (forEach)

/-- `N_CUSTOM_CTR` is 8, and the table has 8 custom counters, with distinct ids and the
PERFEVTSEL of their id, anywhere among its rows. -/
structure CustomRows (b : Build) : Prop where
  nCustomCtr : b.nCustomCtr = 8
  eight : (List.range b.counterTbl.size).countP (fun c => (b.counterTbl.row c).ctrType = .customCtr) = 8
  id : ∀ c < b.counterTbl.size, (b.counterTbl.row c).ctrType = .customCtr → (b.counterTbl.row c).id < 8
  distinct : ∀ c < b.counterTbl.size, ∀ d < b.counterTbl.size, (b.counterTbl.row c).ctrType = .customCtr →
    (b.counterTbl.row d).ctrType = .customCtr → (b.counterTbl.row c).id = (b.counterTbl.row d).id → c = d
  cfgReg : ∀ c < b.counterTbl.size, (b.counterTbl.row c).ctrType = .customCtr →
    (b.counterTbl.row c).cfgReg = ia32Perfevtsel0Addr + (b.counterTbl.row c).id

/-- The tables the PMC loop expects: `N_CUSTOM_CTR` is 8, and 8 custom counters with
distinct ids and the PERFEVTSEL of their id come before any fixed counter. -/
structure FullTable (b : Build) : Prop where
  nCustomCtr : b.nCustomCtr = 8
  size : 8 ≤ b.counterTbl.size
  custom : ∀ c < 8, (b.counterTbl.row c).ctrType = .customCtr
  fixed : ∀ c < b.counterTbl.size, 8 ≤ c → (b.counterTbl.row c).ctrType = .fixedCtr
  id : ∀ c < 8, (b.counterTbl.row c).id < 8
  distinct : ∀ c < 8, ∀ d < 8, (b.counterTbl.row c).id = (b.counterTbl.row d).id → c = d
  cfgReg : ∀ c < 8, (b.counterTbl.row c).cfgReg = ia32Perfevtsel0Addr + (b.counterTbl.row c).id

/-! ### The final register file -/

def cleared (R : Regs) : Regs := fun a =>
  if a = ia32CrPerfGlobalCtrl ∨ isPmc a ∨ a = ia32CrFixedCtrCtrl then 0 else R a

/-- The effect of the PMC loop at index `c` on the registers and on the mask. -/
def selectRow (b : Build) (R : Regs) (c : Nat) : Regs :=
  if (b.counterTbl.row c).ctrType = .customCtr then
    Function.update R (b.counterTbl.row c).cfgReg (evtReg (b.counterTbl.row c))
  else R

def maskRow (b : Build) (value : Word) (c : Nat) : Word :=
  if (b.counterTbl.row c).ctrType = .customCtr then value + 1#64 <<< (b.counterTbl.row c).id else value

/-- The mask that enables the counters. -/
def enableMask (b : Build) : Word := (pmcLoop b).foldl (maskRow b) (fixedCtrs b 0).2

/-- The registers when the mask is written, but for GLOBAL_CTRL. -/
def selected (b : Build) (R : Regs) : Regs :=
  (pmcLoop b).foldl (selectRow b) (Function.update (cleared R) ia32CrFixedCtrCtrl (fixedCtrs b 0).1)

/-- The registers after a round with `set`. -/
def programmed (b : Build) (R : Regs) : Regs :=
  Function.update (selected b R) ia32CrPerfGlobalCtrl (enableMask b)

def configured (b : Build) (set : Bool) (R : Regs) : Regs := if set then programmed b R else cleared R

/-- No row of the PMC loop has GLOBAL_CTRL as its configuration register. -/
def SparesGlobal (b : Build) : Prop :=
  ∀ c ∈ pmcLoop b, (b.counterTbl.row c).ctrType = .customCtr → (b.counterTbl.row c).cfgReg ≠ ia32CrPerfGlobalCtrl

/-- The assertion on `res` compares unsigned numbers, so it holds of every result. -/
@[simp] theorem assertRes_eq (r : BitVec 32) : assertRes r = perform (.assert true) := by
  have nonneg : r ≥ 0 := BitVec.le_def.mpr (Nat.zero_le _)
  rw [assertRes, decide_eq_true nonneg]

/-- The loop rule for the PMC loop: an invariant of the rows already looked at and of the mask. -/
theorem wp_programRows {b : Build} {V : View Action Action.Res} {x : Cpu} {I : List Nat → Word → V.St → Prop}
    {Q : Word → V.St → Prop} {before rows : List Nat} {value : Word} {s : V.St} (start : I before value s)
    (stable : ∀ done value t u, I done value t → V.rely t u → I done value u)
    (custom : ∀ done c value t, done ++ [c] <+: before ++ rows → (b.counterTbl.row c).ctrType = .customCtr →
      I done value t → (programRow x (b.counterTbl.row c)).wp V (fun _ => I (done ++ [c]) (maskRow b value c)) t)
    (other : ∀ done c value t, done ++ [c] <+: before ++ rows → (b.counterTbl.row c).ctrType ≠ .customCtr →
      I done value t → I (done ++ [c]) (maskRow b value c) t)
    (finish : ∀ value t, I (before ++ rows) value t → Q value t) : (programRows b x rows value).wp V Q s := by
  induction rows generalizing before value s with
  | nil =>
    rw [List.append_nil] at finish
    intro t moved
    apply finish
    exact Program.wp_done (Q := fun (_ : Unit) => I before value) (a := ()) (stable before value) start t moved
  | cons c rows ih =>
    have whole : before ++ c :: rows = before ++ [c] ++ rows := by simp
    rw [whole] at custom other finish
    have here : before ++ [c] <+: before ++ [c] ++ rows := List.prefix_append ..
    rw [programRows_cons]
    by_cases isCustom : (b.counterTbl.row c).ctrType = .customCtr
    · rw [if_pos isCustom]
      have mask : value + 1#64 <<< (b.counterTbl.row c).id = maskRow b value c := (if_pos isCustom).symm
      rw [mask]
      exact Program.wp_seq (custom before c value s here isCustom start) fun _ t after => ih after custom other finish
    · rw [if_neg isCustom]
      have mask : maskRow b value c = value := if_neg isCustom
      have after := other before c value s here isCustom start
      rw [mask] at after
      exact ih after custom other finish

/-! ### Accesses to one CPU, in any view -/

/-- A view in which the accesses to CPU `x` succeed: `On R` says that it has the registers `R`,
which the surroundings leave, and the registers that may be written are `free`. -/
structure Accesses (V : View Action Action.Res) (x : Cpu) (free : Nat → Prop) (On : Regs → V.St → Prop) : Prop where
  moves : ∀ {R t u}, On R t → V.rely t u → On R u
  write : ∀ {R t a} v, free a → On R t → V.allow t (.msrWrite x a v) ∧
    ∀ r u, V.next t (.msrWrite x a v) r u → r = true ∧ On (Function.update R a v) u
  read : ∀ {R t} a, On R t → V.allow t (.msrRead x a) ∧
    ∀ r u, V.next t (.msrRead x a) r u → r = some (R a) ∧ On R u
  assert : ∀ t, V.allow t (.assert true) ∧ ∀ r u, V.next t (.assert true) r u → u = t

namespace Accesses
open Relation
variable {b : Build} {V : View Action Action.Res} {x : Cpu} {free : Nat → Prop} {On : Regs → V.St → Prop}

theorem moved (h : Accesses V x free On) {R : Regs} {t u : V.St} (on : On R t) (moved : ReflTransGen V.rely t u) :
    On R u := by
  induction moved with
  | refl => exact on
  | tail _ step ih => exact h.moves ih step

theorem wp_write (h : Accesses V x free On) {α : Type} {t : V.St} {R : Regs} {a : Nat} {v : Word}
    {next : Bool → Prog α} {Q : α → V.St → Prop} (spare : free a) (on : On R t)
    (rest : ∀ u, On (Function.update R a v) u → (next true).wp V Q u) :
    (Program.act (.msrWrite x a v) next).wp V Q t := by
  intro u moved
  obtain ⟨allowed, written⟩ := h.write v spare (h.moved on moved)
  refine ⟨allowed, fun r w step => ?_⟩
  obtain ⟨rfl, on⟩ := written r w step
  exact rest w on

theorem wp_read (h : Accesses V x free On) {α : Type} {t : V.St} {R : Regs} {a : Nat}
    {next : Option Word → Prog α} {Q : α → V.St → Prop} (on : On R t)
    (rest : ∀ u, On R u → (next (some (R a))).wp V Q u) : (Program.act (.msrRead x a) next).wp V Q t := by
  intro u moved
  obtain ⟨allowed, found⟩ := h.read a (h.moved on moved)
  refine ⟨allowed, fun r w step => ?_⟩
  obtain ⟨rfl, on⟩ := found r w step
  exact rest w on

theorem wp_assert (h : Accesses V x free On) {α : Type} {t : V.St} {next : Unit → Prog α}
    {Q : α → V.St → Prop} (rest : (next ()).wp V Q t) : (Program.act (.assert true) next).wp V Q t := by
  intro u moved
  obtain ⟨allowed, still⟩ := h.assert u
  refine ⟨allowed, fun r w step => ?_⟩
  obtain rfl := still r w step
  exact Program.wp_rely rest moved

theorem wp_resetPmcs (h : Accesses V x free On) {t : V.St} {R : Regs} {Q : Unit → V.St → Prop}
    (pmcs : ∀ a, isPmc a → free a) (on : On R t) (rest : ∀ u, On (fun a => if isPmc a then 0 else R a) u → Q () u) :
    (resetPmcs x).wp V Q t := by
  refine Program.wp_forEach_range (I := fun i u => On (fun a => if ia32Pmc0 ≤ a ∧ a < ia32Pmc0 + i then 0 else R a) u)
    ?_ (fun i u v held step => h.moves held step) (fun i u bound held => ?_) rest
  · have none : (fun a => if ia32Pmc0 ≤ a ∧ a < ia32Pmc0 + 0 then 0 else R a) = R := by
      funext a
      rw [if_neg (by omega)]
    rwa [none]
  · refine h.wp_write (pmcs _ ⟨Nat.le_add_right .., Nat.add_lt_add_left bound _⟩) held fun w after => ?_
    have next : Function.update (fun a => if ia32Pmc0 ≤ a ∧ a < ia32Pmc0 + i then 0 else R a) (ia32Pmc0 + i) 0 =
        fun a => if ia32Pmc0 ≤ a ∧ a < ia32Pmc0 + (i + 1) then 0 else R a := by
      funext a
      by_cases here : a = ia32Pmc0 + i
      · subst here
        rw [Function.update_self, if_pos (by omega)]
      · rw [Function.update_of_ne here]
        congr 1
        exact propext ⟨fun _ => by omega, fun _ => by omega⟩
    rw [next] at after
    exact fun v moved => h.moved after moved

theorem wp_programRows (h : Accesses V x free On) {t : V.St} {R : Regs} {Q : Word → V.St → Prop}
    {rows : List Nat} {value : Word}
    (spares : ∀ c ∈ rows, (b.counterTbl.row c).ctrType = .customCtr → free (b.counterTbl.row c).cfgReg) (on : On R t)
    (rest : ∀ u, On (rows.foldl (selectRow b) R) u → Q (rows.foldl (maskRow b) value) u) :
    (programRows b x rows value).wp V Q t := by
  have start : On (([] : List Nat).foldl (selectRow b) R) t ∧ value = ([] : List Nat).foldl (maskRow b) value := ⟨on, rfl⟩
  refine PmcBench.wp_programRows
    (I := fun done mask u => On (done.foldl (selectRow b) R) u ∧ mask = done.foldl (maskRow b) value) start
    (fun _ _ _ _ held moved => ⟨h.moves held.1 moved, held.2⟩) ?_ ?_ ?_
  · rintro done c mask u front custom ⟨on, rfl⟩
    have spare := spares c (front.mem (by simp)) custom
    rw [List.foldl_concat, List.foldl_concat, selectRow, if_pos custom]
    simp only [programRow, assertRes_eq, Program.call_bind, and_true]
    refine h.wp_read on fun v on => h.wp_assert (h.wp_write spare on fun w on => h.wp_assert ?_)
    exact fun w' => h.moved on
  · rintro done c mask u - other ⟨on, rfl⟩
    rw [List.foldl_concat, List.foldl_concat, selectRow, if_neg other]
    exact ⟨on, rfl⟩
  · rintro mask u ⟨on, rfl⟩
    exact rest u on

theorem update_cleared (R : Regs) (v : Word) :
    Function.update (fun a => if isPmc a then 0 else Function.update R ia32CrPerfGlobalCtrl 0 a) ia32CrFixedCtrCtrl v =
      Function.update (cleared R) ia32CrFixedCtrCtrl v := by
  funext a
  by_cases isFixed : a = ia32CrFixedCtrCtrl
  · simp [isFixed]
  · by_cases isGlobal : a = ia32CrPerfGlobalCtrl
    · subst isGlobal
      simp [cleared, isFixed]
    · simp [cleared, isFixed, isGlobal]

/-- A round once GLOBAL_CTRL is off, up to the write that enables the counters. -/
theorem wp_afterOff (h : Accesses V x free On) {t : V.St} {R : Regs} {set : Bool} {Q : Unit → V.St → Prop}
    (pmcs : ∀ a, isPmc a → free a) (fixed : free ia32CrFixedCtrCtrl)
    (spares : ∀ c ∈ pmcLoop b, (b.counterTbl.row c).ctrType = .customCtr → free (b.counterTbl.row c).cfgReg)
    (on : On (Function.update R ia32CrPerfGlobalCtrl 0) t)
    (off : set = false → ∀ u, On (cleared R) u → (Program.done ()).wp V Q u)
    (last : set = true → ∀ u, On (selected b R) u →
      (Program.act (.msrWrite x ia32CrPerfGlobalCtrl (enableMask b)) fun _ => perform (.assert true)).wp V Q u) :
    (resetPmcs x >>= fun _ => Program.act (.msrWrite x ia32CrFixedCtrCtrl 0)
      fun _ => if set then programCpu b x else pure ()).wp V Q t := by
  refine Program.wp_bind.mpr (h.wp_resetPmcs pmcs on fun u on => h.wp_write fixed on fun u on => ?_)
  have zero : cleared R ia32CrFixedCtrCtrl = 0 := by simp [cleared]
  rw [update_cleared, Function.update_eq_self_iff.mpr zero.symm] at on
  cases set with
  | false => exact off rfl u on
  | true =>
    rw [if_pos rfl]
    simp only [programCpu, assertRes_eq, Program.call_bind]
    refine h.wp_read on fun u on => h.wp_assert ?_
    rw [zero]
    refine h.wp_write fixed on fun u on => Program.wp_bind.mpr ?_
    exact h.wp_programRows spares on (last rfl)

end Accesses

/-! ### One round, in any view of the CPU's registers -/

/-- A view in which the code programming CPU `x` sees its registers. Accesses
succeed; the surroundings may advance counters that GLOBAL_CTRL enables; what the
round on `x` keeps is `same`. The last two fields are the promises the round
makes: it changes a configuration only while GLOBAL_CTRL is 0, and enables only a
fully programmed register file. -/
structure Shows (b : Build) (V : View Action Action.Res) (x : Cpu) (reg : V.St → Regs)
    (same : V.St → V.St → Prop) : Prop where
  refl : ∀ s, same s s
  trans : ∀ {s t u}, same s t → same t u → same s u
  disturb : ∀ {s t}, V.rely s t → (∀ a, ¬ isPmc a → reg t a = reg s a) ∧
    (reg s ia32CrPerfGlobalCtrl = 0 → reg t = reg s) ∧ same s t
  write : ∀ {s a v r t}, V.next s (.msrWrite x a v) r t →
    r = true ∧ reg t = Function.update (reg s) a v ∧ same s t
  read : ∀ {s a r t}, V.next s (.msrRead x a) r t → r = some (reg s a) ∧ reg t = reg s ∧ same s t
  assert : ∀ {s r t}, V.next s (.assert true) r t → t = s
  allowRead : ∀ s a, V.allow s (.msrRead x a)
  allowAssert : ∀ s, V.allow s (.assert true)
  allowOff : ∀ s, V.allow s (.msrWrite x ia32CrPerfGlobalCtrl 0)
  allowQuiet : ∀ {s} a v, reg s ia32CrPerfGlobalCtrl = 0 → a ≠ ia32CrPerfGlobalCtrl → V.allow s (.msrWrite x a v)
  allowOn : ∀ {s} R, reg s = Function.update (selected b R) ia32CrPerfGlobalCtrl 0 →
    V.allow s (.msrWrite x ia32CrPerfGlobalCtrl (enableMask b))

namespace Shows
open Relation
variable {b : Build} {V : View Action Action.Res} {x : Cpu} {reg : V.St → Regs} {same : V.St → V.St → Prop}

theorem disturbed (h : Shows b V x reg same) {s t : V.St} (moved : ReflTransGen V.rely s t) :
    (∀ a, ¬ isPmc a → reg t a = reg s a) ∧ (reg s ia32CrPerfGlobalCtrl = 0 → reg t = reg s) ∧ same s t := by
  induction moved with
  | refl => exact ⟨fun _ _ => rfl, fun _ => rfl, h.refl s⟩
  | tail _ step ih =>
    obtain ⟨other, off, kept⟩ := h.disturb step
    refine ⟨fun a pmc => (other a pmc).trans (ih.1 a pmc), fun zero => ?_, h.trans ih.2.2 kept⟩
    have still := ih.2.1 zero
    exact (off (by rw [still]; exact zero)).trans still

/-- GLOBAL_CTRL is off, the registers are `R`, and what the round keeps is as it was in `s`. -/
def Quiet (reg : V.St → Regs) (same : V.St → V.St → Prop) (s : V.St) (R : Regs) (t : V.St) : Prop :=
  R ia32CrPerfGlobalCtrl = 0 ∧ reg t = R ∧ same s t

/-- While GLOBAL_CTRL is off nothing disturbs the registers, and every other may be written. -/
theorem accesses (h : Shows b V x reg same) (s : V.St) :
    Accesses V x (· ≠ ia32CrPerfGlobalCtrl) (Quiet reg same s) where
  moves {R t u} quiet step := by
    obtain ⟨off, rfl, kept⟩ := quiet
    obtain ⟨-, still, kept'⟩ := h.disturb step
    exact ⟨off, still off, h.trans kept kept'⟩
  write {R t a} v other quiet := by
    obtain ⟨off, rfl, kept⟩ := quiet
    refine ⟨h.allowQuiet a v off other, fun r u step => ?_⟩
    obtain ⟨rfl, written, kept'⟩ := h.write step
    exact ⟨rfl, by rw [Function.update_of_ne other.symm, off], written, h.trans kept kept'⟩
  read {R t} a quiet := by
    obtain ⟨off, rfl, kept⟩ := quiet
    refine ⟨h.allowRead t a, fun r u step => ?_⟩
    obtain ⟨rfl, still, kept'⟩ := h.read step
    exact ⟨rfl, off, still, h.trans kept kept'⟩
  assert t := ⟨h.allowAssert t, fun _ _ step => h.assert step⟩

/-- A round ends in the configured registers; with `set` it does so from the moment
GLOBAL_CTRL is written. -/
theorem wp_configureCpu (h : Shows b V x reg same) {s : V.St} {set : Bool} {Q : Unit → V.St → Prop}
    (spares : SparesGlobal b)
    (rest : ∀ R u, (∀ a, ¬ isPmc a → R a = reg s a) → reg u = configured b set R → same s u →
      (set = true → ∃ v, V.next v (.msrWrite x ia32CrPerfGlobalCtrl (enableMask b)) true u) →
      (Program.done ()).wp V Q u) :
    (configureCpu b x set).wp V Q s := by
  simp only [configureCpu, Program.call_bind]
  intro t moved
  obtain ⟨before, -, kept⟩ := h.disturbed moved
  refine ⟨h.allowOff t, fun r u step => ?_⟩
  obtain ⟨rfl, written, kept'⟩ := h.write step
  have others (a : Nat) (pmc : isPmc a) : a ≠ ia32CrPerfGlobalCtrl := by
    rintro rfl
    exact absurd pmc (by decide)
  refine (h.accesses s).wp_afterOff others (by decide) spares ⟨Function.update_self .., written, h.trans kept kept'⟩
    (fun unset u quiet => ?_) (fun on u quiet => ?_)
  · subst unset
    exact rest (reg t) u before quiet.2.1 quiet.2.2 nofun
  · subst on
    intro w moved
    obtain ⟨off, now, kept⟩ := (h.accesses s).moved quiet moved
    refine ⟨h.allowOn (reg t) ?_, fun r w' step => ?_⟩
    · rw [now]
      exact (Function.update_eq_self_iff.mpr off.symm).symm
    · obtain ⟨rfl, written, kept'⟩ := h.write step
      refine (h.accesses s).wp_assert (rest (reg t) w' before (written.trans ?_) (h.trans kept kept') fun _ => ⟨w, step⟩)
      rw [now]
      rfl

end Shows

/-- The loop rule for the CPU loop: an invariant over the CPUs already done. -/
theorem wp_cpuLoop {V : View Action Action.Res} {body : Cpu → Prog Unit} {set : Bool} {I : List Cpu → V.St → Prop}
    {Q : (Nat → Option Cpu) → V.St → Prop} {before cpus : List Cpu} {i : Nat} {cpuMsr : Nat → Option Cpu} {s : V.St}
    (start : I before s) (stable : ∀ done t u, I done t → V.rely t u → I done u)
    (handles : set = false → ∀ j < cpus.length, cpuMsr (i + j) = cpus[j]?)
    (step : ∀ done cpu t, done ++ [cpu] <+: before ++ cpus → I done t →
      (onDevice body set cpu).wp V (fun _ => I (done ++ [cpu])) t)
    (finish : ∀ h t, (∀ j < i, h j = cpuMsr j) → (∀ j < cpus.length, h (i + j) = cpus[j]?) →
      I (before ++ cpus) t → Q h t) :
    (cpuLoop body set i cpus cpuMsr).wp V Q s := by
  induction cpus generalizing before i cpuMsr s with
  | nil =>
    intro t moved
    apply finish cpuMsr t (fun _ _ => rfl) (fun j bound => by simp at bound)
    rw [List.append_nil]
    exact Program.wp_done (Q := fun (_ : Unit) => I before) (a := ()) (fun t u => stable before t u) start t moved
  | cons cpu cpus ih =>
    have handle : set = false → cpuMsr i = some cpu := fun off => by simpa using handles off 0 (by simp)
    rw [cpuLoop_cons body cpus handle, Program.wp_bind]
    have whole : before ++ cpu :: cpus = before ++ [cpu] ++ cpus := by simp
    rw [whole] at step finish
    apply Program.wp_mono (step before cpu s (List.prefix_append ..) start)
    intro _ t done
    refine ih done (fun off j bound => ?_) step fun h u old new reached => ?_
    · rw [Function.update_of_ne (by omega), show i + 1 + j = i + (j + 1) by omega,
        handles off (j + 1) (by simpa using bound), List.getElem?_cons_succ]
    · refine finish h u (fun j lt => ?_) (fun j bound => ?_) reached
      · rw [old j (by omega), Function.update_of_ne (by omega)]
      · cases j with
        | zero => rw [Nat.add_zero, old i (by omega), Function.update_self, List.getElem?_cons_zero]
        | succ j =>
          rw [show i + (j + 1) = i + 1 + j by omega, new j (by simpa using bound), List.getElem?_cons_succ]

theorem wp_configureFrom {b : Build} {V : View Action Action.Res} {set : Bool} {I : List Cpu → V.St → Prop}
    {Q : (Nat → Option Cpu) → V.St → Prop} {before cpus : List Cpu} {i : Nat} {cpuMsr : Nat → Option Cpu} {s : V.St}
    (start : I before s) (stable : ∀ done t u, I done t → V.rely t u → I done u)
    (handles : set = false → ∀ j < cpus.length, cpuMsr (i + j) = cpus[j]?)
    (step : ∀ done cpu t, done ++ [cpu] <+: before ++ cpus → I done t →
      (round b set cpu).wp V (fun _ => I (done ++ [cpu])) t)
    (finish : ∀ h t, (∀ j < i, h j = cpuMsr j) → (∀ j < cpus.length, h (i + j) = cpus[j]?) →
      I (before ++ cpus) t → Q h t) :
    (configureFrom b set i cpus cpuMsr).wp V Q s := by
  rw [configureFrom_eq]
  exact wp_cpuLoop start stable handles step finish

end PmcBench
