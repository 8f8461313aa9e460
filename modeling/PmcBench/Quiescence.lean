import PmcBench.Postcondition

/-!
# No counting while programming

The history of a run gives for each CPU the last word written to GLOBAL_CTRL and
the hardware events since then. While that word is 0 nothing counts; once it is
the enable mask, the registers are the freshly programmed ones advanced by those
events. `guarded_run` proves this of every run of the process in which `main`
keeps to `msrView`, whatever the workers do.
-/

namespace PmcBench
open Threads Words

abbrev Ev (hw : Pmu) := Event Tid (Move hw) Action Action.Res

variable {b : Build} {hw : Pmu}

/-- Every MSR access succeeds. -/
def AllOk (_ : List (Ev hw)) (_ : World) : Ev hw → Prop
  | .act _ (.msrWrite ..) ok => ok = true
  | .act _ (.msrRead ..) v => v.isSome
  | .act _ (.readInto ..) v => v.isSome
  | _ => True

/-! ### The last GLOBAL_CTRL write -/

def sinceStep (x : Cpu) (since : Option (Word × List hw.Tick)) : Ev hw → Option (Word × List hw.Tick)
  | .act _ (.msrWrite cpu reg v) true => if cpu = x ∧ reg = ia32CrPerfGlobalCtrl then some (v, []) else since
  | .env (.tick cpu t) => if cpu = x then since.map fun s => (s.1, s.2 ++ [t]) else since
  | _ => since

/-- The last word written to GLOBAL_CTRL of CPU `x`, and the events on the CPU since then. -/
def since (x : Cpu) (tr : List (Ev hw)) : Option (Word × List hw.Tick) := tr.foldl (sinceStep x) none

@[simp] theorem since_nil (x : Cpu) : since x ([] : List (Ev hw)) = none := rfl

@[simp] theorem since_snoc (x : Cpu) (tr : List (Ev hw)) (e : Ev hw) :
    since x (tr ++ [e]) = sinceStep x (since x tr) e := by
  simp [since]

theorem sinceStep_tick (x cpu : Cpu) (last : Option (Word × List hw.Tick)) (t : hw.Tick) :
    sinceStep x last (.env (.tick cpu t)) = if cpu = x then last.map fun s => (s.1, s.2 ++ [t]) else last := rfl

theorem since_length {x : Cpu} {tr : List (Ev hw)} {v : Word} {ticks : List hw.Tick} (last : since x tr = some (v, ticks)) :
    ticks.length ≤ tr.length := by
  induction tr using List.reverseRecOn generalizing v ticks with
  | nil => cases last
  | append_singleton tr e ih =>
    rw [List.length_append, List.length_singleton]
    rw [since_snoc] at last
    unfold sinceStep at last
    split at last
    · split at last
      · cases last
        exact Nat.zero_le _
      · exact Nat.le_succ_of_le (ih last)
    · split at last
      · obtain ⟨⟨v', ticks'⟩, before, now⟩ := Option.map_eq_some_iff.mp last
        cases now
        rw [List.length_append, List.length_singleton]
        exact Nat.succ_le_succ (ih before)
      · exact Nat.le_succ_of_le (ih last)
    · exact Nat.le_succ_of_le (ih last)

/-- How the registers of a CPU relate to its last GLOBAL_CTRL write. -/
structure Guarded (b : Build) (R : Regs) (since : Option (Word × List hw.Tick)) : Prop where
  off : ∀ ticks, since = some (0, ticks) → R ia32CrPerfGlobalCtrl = 0
  on : ∀ v ticks, since = some (v, ticks) → v ≠ 0 →
    v = enableMask b ∧ ∃ R₀, R = hw.run (programmed b R₀) ticks

namespace Guarded
variable {R : Regs} {last : Option (Word × List hw.Tick)}

theorem none (R : Regs) : Guarded b R (none : Option (Word × List hw.Tick)) := ⟨nofun, nofun⟩

theorem tick (held : Guarded b R last) (t : hw.Tick) :
    Guarded b (hw.tick R t) (last.map fun s => (s.1, s.2 ++ [t])) := by
  cases last with
  | none => exact .none _
  | some s =>
    obtain ⟨v, ticks⟩ := s
    constructor
    · intro ticks' same
      simp only [Option.map_some, Option.some.injEq, Prod.mk.injEq] at same
      obtain ⟨rfl, rfl⟩ := same
      rw [Pmu.tick_other (by decide), held.off ticks rfl]
    · intro v' ticks' same nonzero
      simp only [Option.map_some, Option.some.injEq, Prod.mk.injEq] at same
      obtain ⟨rfl, rfl⟩ := same
      obtain ⟨mask, R₀, rfl⟩ := held.on v ticks rfl nonzero
      exact ⟨mask, R₀, by rw [Pmu.run_append]; rfl⟩

/-- A write elsewhere while GLOBAL_CTRL is 0. -/
theorem write (held : Guarded b R last) {a : Nat} (other : a ≠ ia32CrPerfGlobalCtrl) (v : Word)
    (zero : R ia32CrPerfGlobalCtrl = 0) : Guarded b (Function.update R a v) last := by
  constructor
  · intro ticks same
    rw [Function.update_of_ne other.symm, held.off ticks same]
  · intro w ticks same nonzero
    obtain ⟨mask, R₀, rfl⟩ := held.on w ticks same nonzero
    rw [Pmu.run_other (by decide), programmed, Function.update_self] at zero
    exact (nonzero (mask.trans zero)).elim

theorem disable (R : Regs) : Guarded b (Function.update R ia32CrPerfGlobalCtrl 0) (some (0, ([] : List hw.Tick))) where
  off _ _ := Function.update_self ..
  on v ticks same nonzero := by
    simp only [Option.some.injEq, Prod.mk.injEq] at same
    exact (nonzero same.1.symm).elim

theorem enable {R₀ : Regs} (ready : R = Function.update (selected b R₀) ia32CrPerfGlobalCtrl 0) :
    Guarded b (Function.update R ia32CrPerfGlobalCtrl (enableMask b)) (some (enableMask b, ([] : List hw.Tick))) where
  off ticks same := by
    simp only [Option.some.injEq, Prod.mk.injEq] at same
    rw [Function.update_self, same.1]
  on v ticks same _ := by
    simp only [Option.some.injEq, Prod.mk.injEq] at same
    obtain ⟨rfl, rfl⟩ := same
    refine ⟨rfl, R₀, ?_⟩
    rw [ready, Function.update_idem]
    rfl

end Guarded

/-! ### main's view of the MSRs -/

/-- The registers of each CPU and the last word written to its GLOBAL_CTRL. -/
abbrev Panel := Cpu → Regs × Option Word

def Panel.write (m : Panel) (x : Cpu) (a : Nat) (v : Word) : Panel :=
  Function.update m x (Function.update (m x).1 a v, if a = ia32CrPerfGlobalCtrl then some v else (m x).2)

def Panel.tick (m : Panel) (x : Cpu) (t : hw.Tick) : Panel := Function.update m x (hw.tick (m x).1 t, (m x).2)

/-- Only events change the registers by themselves. GLOBAL_CTRL may be cleared at
any time, set only over a fully programmed register file, and every other register
written only while GLOBAL_CTRL is 0. -/
abbrev msrView (b : Build) (hw : Pmu) : View Action Action.Res where
  St := Panel
  rely m m' := ∃ x, ∃ t : hw.Tick, m' = m.tick x t
  allow m
    | .msrWrite x a v =>
      (a = ia32CrPerfGlobalCtrl ∧
        (v = 0 ∨ v = enableMask b ∧ ∃ R, (m x).1 = Function.update (selected b R) ia32CrPerfGlobalCtrl 0)) ∨
      a ≠ ia32CrPerfGlobalCtrl ∧ (m x).1 ia32CrPerfGlobalCtrl = 0
    | _ => True
  next m
    | .msrWrite x a v, ok, m' => ok = true ∧ m' = m.write x a v
    | .msrRead x a, r, m' => r = some ((m x).1 a) ∧ m' = m
    | _, _, m' => m' = m

/-- CPU `y` has seen events only. -/
def Panel.OnlyTicks (hw : Pmu) (y : Cpu) (m m' : Panel) : Prop :=
  ∃ ticks : List hw.Tick, m' y = (hw.run (m y).1 ticks, (m y).2)

theorem Panel.tick_onlyTicks (m : Panel) (x : Cpu) (t : hw.Tick) (y : Cpu) : Panel.OnlyTicks hw y m (m.tick x t) := by
  by_cases same : y = x
  · subst same
    exact ⟨[t], Function.update_self ..⟩
  · exact ⟨[], Function.update_of_ne same ..⟩

theorem msrView_shows (b : Build) (hw : Pmu) (x : Cpu) :
    Shows b (msrView b hw) x (fun m => (m x).1) fun m m' => ∀ y ≠ x, Panel.OnlyTicks hw y m m' where
  refl m y _ := ⟨[], rfl⟩
  trans first second y other := by
    obtain ⟨ts, first⟩ := first y other
    obtain ⟨us, second⟩ := second y other
    exact ⟨ts ++ us, by rw [second, first, Pmu.run_append]⟩
  disturb {m m'} moved := by
    obtain ⟨y, t, rfl⟩ := moved
    obtain ⟨ticks, now⟩ := m.tick_onlyTicks y t x
    refine ⟨fun a other => ?_, fun off => ?_, fun z _ => m.tick_onlyTicks y t z⟩
    · rw [now]
      exact Pmu.run_other other ticks
    · rw [now]
      exact Pmu.run_disabled off ticks
  write {m a v r m'} step := by
    obtain ⟨rfl, rfl⟩ := step
    refine ⟨rfl, ?_, fun y other => ⟨[], Function.update_of_ne other ..⟩⟩
    rw [Panel.write, Function.update_self]
  read step := by
    obtain ⟨rfl, rfl⟩ := step
    exact ⟨rfl, rfl, fun y _ => ⟨[], rfl⟩⟩
  assert step := step
  allowRead _ _ := trivial
  allowAssert _ := trivial
  allowOff _ := Or.inl ⟨rfl, Or.inl rfl⟩
  allowQuiet _ _ off other := Or.inr ⟨other, off⟩
  allowOn R ready := Or.inl ⟨rfl, Or.inr ⟨rfl, R, ready⟩⟩

/-- What a run shows in `main`'s view. -/
def panel (tr : List (Ev hw)) (s : World) : Panel := fun x => (s.msr x, (since x tr).map Prod.fst)

theorem panel_same {tr : List (Ev hw)} {e : Ev hw} {s s' : World} (msr : s'.msr = s.msr)
    (silent : ∀ x last, sinceStep x last e = last) : panel (tr ++ [e]) s' = panel tr s := by
  funext x
  rw [panel, panel, since_snoc, silent, msr]

theorem panel_main {tr : List (Ev hw)} {s s' : World} {o : Action} {r : o.Res} (step : s.actMain b o r s')
    (ok : AllOk tr s (.act .main o r)) : (msrView b hw).next (panel tr s) o r (panel (tr ++ [.act .main o r]) s') := by
  cases o <;> simp only [World.actMain] at step
  case msrWrite x a v =>
    rcases step with ⟨rfl, rfl⟩ | ⟨rfl, -⟩
    · refine ⟨rfl, funext fun y => ?_⟩
      by_cases same : y = x
      · subst same
        by_cases global : a = ia32CrPerfGlobalCtrl <;>
          simp [panel, Panel.write, sinceStep, World.setReg, global]
      · simp [panel, Panel.write, sinceStep, World.setReg, same, Ne.symm same]
    · cases ok
  case msrRead x a =>
    obtain ⟨rfl | rfl, rfl⟩ := step
    · exact ⟨rfl, panel_same rfl fun _ _ => rfl⟩
    · cases ok
  case pinThread t cpu => cases t <;> subst step <;> exact panel_same rfl fun _ _ => rfl
  all_goals
    first
    | exact step.elim
    | (subst step; exact panel_same rfl fun _ _ => rfl)
    | (obtain ⟨-, rfl⟩ := step; exact panel_same rfl fun _ _ => rfl)
    | (obtain ⟨-, -, rfl⟩ := step; exact panel_same rfl fun _ _ => rfl)

theorem sinceStep_worker {s s' : World} {i : Nat} {o : Action} {r : o.Res} (step : s.actWorker b i o r s') (x : Cpu)
    (last : Option (Word × List hw.Tick)) : sinceStep x last (.act (.worker i) o r) = last := by
  obtain ⟨t, -, shared, -⟩ := step
  cases o <;> first | rfl | exact (show False from shared).elim

/-- A step of `main` that its view allows keeps every CPU guarded. -/
theorem Guarded.main {s s' : World} {o : Action} {r : o.Res} {x : Cpu} {tr : List (Ev hw)}
    (held : Guarded b (s.msr x) (since x tr)) (allowed : (msrView b hw).allow (panel tr s) o)
    (step : s.actMain b o r s') (ok : AllOk tr s (.act .main o r)) :
    Guarded b (s'.msr x) (since x (tr ++ [.act .main o r])) := by
  rw [since_snoc]
  have next : (panel (tr ++ [.act .main o r]) s' x).1 = s'.msr x := rfl
  have seen := panel_main step ok
  by_cases write : ∃ y a v, o = .msrWrite y a v
  · obtain ⟨y, a, v, rfl⟩ := write
    obtain ⟨rfl, written⟩ := seen
    rw [← next, written]
    by_cases same : y = x
    · subst same
      rw [Panel.write, Function.update_self, sinceStep]
      rcases allowed with ⟨rfl, rfl | ⟨rfl, R, ready⟩⟩ | ⟨other, off⟩
      · simpa using Guarded.disable _
      · simpa using Guarded.enable ready
      · simpa [other, panel] using held.write other v off
    · simpa [Panel.write, panel, sinceStep, same, Function.update_of_ne (Ne.symm same)] using held
  · have kept : panel (tr ++ [.act .main o r]) s' = panel tr s ∧
        sinceStep x (since x tr) (.act .main o r : Ev hw) = since x tr := by
      cases o
      case msrWrite y a v => exact (write ⟨y, a, v, rfl⟩).elim
      case msrRead => exact ⟨seen.2, rfl⟩
      all_goals exact ⟨seen, rfl⟩
    rw [← next, kept.1, kept.2]
    exact held

/-- `main` keeps to its view of the MSRs, and nothing else writes them. -/
def msrGuard (b : Build) (hw : Pmu) : RelyGuarantee (process b hw) AllOk where
  view
    | .main => msrView b hw
    | .worker _ => .free
  abs
    | .main, tr, s => panel tr s
    | .worker _, _, _ => ()
  inv tr s := ∀ x, Guarded b (s.msr x) (since x tr)
  own {t tr s o r s'} _ _ ok step := by
    cases t with
    | worker i => rfl
    | main => exact panel_main step ok
  others {t u tr s o r s'} different _ _ _ step := by
    cases u with
    | worker i => exact .refl
    | main =>
      cases t with
      | main => exact (different rfl).elim
      | worker i =>
        show Relation.ReflTransGen _ (panel tr s) (panel (tr ++ [.act (.worker i) o r]) s')
        rw [panel_same (World.actWorker_frame step).msr (sinceStep_worker step)]
  moves {u tr s e s'} _ _ step := by
    cases u with
    | worker i => exact .refl
    | main =>
      cases e with
      | tick x t =>
        obtain rfl := step
        refine .single ⟨x, t, funext fun y => ?_⟩
        by_cases same : y = x
        · subst same
          cases last : since y tr <;> simp [panel, Panel.tick, sinceStep, last]
        · simp [panel, Panel.tick, sinceStep, same, Ne.symm same]
      | clock now =>
        obtain ⟨-, rfl⟩ := step
        show Relation.ReflTransGen _ (panel tr s) (panel (tr ++ [.env (.clock now)]) _)
        rw [panel_same rfl fun _ _ => rfl]
        exact .refl
      | migrate i cpu =>
        obtain ⟨-, rfl⟩ := step
        show Relation.ReflTransGen _ (panel tr s) (panel (tr ++ [.env (.migrate i cpu)]) _)
        rw [panel_same rfl fun _ _ => rfl]
        exact .refl
  inv_act {t tr s o r s'} held allowed ok step x := by
    cases t with
    | main => exact (held x).main allowed step ok
    | worker i =>
      rw [since_snoc, (World.actWorker_frame step).msr, sinceStep_worker step]
      exact held x
  inv_env {tr s e s'} held _ step x := by
    rw [since_snoc]
    cases e with
    | tick y t =>
      obtain rfl := step
      by_cases same : y = x
      · subst same
        simpa [sinceStep] using (held y).tick t
      · simpa [sinceStep, same, Function.update_of_ne (Ne.symm same)] using held x
    | clock now =>
      obtain ⟨-, rfl⟩ := step
      exact held x
    | migrate i cpu =>
      obtain ⟨-, rfl⟩ := step
      exact held x

theorem guarded_run {s : World} {pool : Tid → Prog Unit} {tr : List (Ev hw)}
    {c : Config Tid Action Action.Res World} {post : Unit → Panel → Prop}
    (run : (process b hw).Run AllOk ⟨s, pool⟩ tr c)
    (main : (pool .main).wp (msrView b hw) post (panel ([] : List (Ev hw)) s)) :
    (∀ x, Guarded b (c.state.msr x) (since x tr)) ∧ (c.pool .main).wp (msrView b hw) post (panel tr c.state) := by
  have proved := (msrGuard b hw).run (fun t => match t with | .main => post | .worker _ => fun _ _ => True) run
    (fun x => .none _) fun t => by
      cases t with
      | main => exact main
      | worker i => exact Program.wp_free
  exact ⟨proved.1, proved.2 .main⟩

/-! ### What the programmed counters count -/

/-- The event is selected by the PERFEVTSEL value that the PMC loop writes for counter `k`. -/
def newlySelects (b : Build) (hw : Pmu) (k : Nat) (t : hw.Tick) : Bool :=
  (pmcLoop b).any fun c =>
    decide ((b.counterTbl.row c).ctrType = .customCtr ∧ (b.counterTbl.row c).id = k) &&
      hw.selects (evtReg (b.counterTbl.row c)) t

namespace LoopRows
variable (loop : LoopRows b)
include loop

theorem newlySelects_row {c : Nat} (hc : c ∈ pmcLoop b) (custom : (b.counterTbl.row c).ctrType = .customCtr)
    (t : hw.Tick) : newlySelects b hw (b.counterTbl.row c).id t = hw.selects (evtReg (b.counterTbl.row c)) t := by
  rw [newlySelects, Bool.eq_iff_iff, List.any_eq_true]
  constructor
  · rintro ⟨d, hd, chosen⟩
    simp only [Bool.and_eq_true, decide_eq_true_eq] at chosen
    obtain ⟨⟨other, same⟩, selected⟩ := chosen
    rwa [← loop.distinct d hd c hc other custom same]
  · intro selected
    exact ⟨c, hc, by simp [custom, selected]⟩

theorem counts_programmed (R : Regs) {k : Nat} (hk : k < perfMaxCustomCounters)
    (t : hw.Tick) : hw.counts (programmed b R) k t = newlySelects b hw k t := by
  have mask := loop.getLsbD_enableMask k
  rw [perfMaxCustomCounters] at hk
  by_cases chosen : ∃ c ∈ pmcLoop b, (b.counterTbl.row c).ctrType = .customCtr ∧ (b.counterTbl.row c).id = k
  · have on := mask.mpr (Or.inl chosen)
    obtain ⟨c, hc, custom, rfl⟩ := chosen
    have enable : EventSelectRegister.enable.get (evtReg (b.counterTbl.row c)) = 1 :=
      congrArg EventSelectRegister.Fields.enable (fields_evtReg (b.counterTbl.row c))
    rw [loop.newlySelects_row hc custom, Pmu.counts, ← loop.cfgReg c hc custom, loop.programmed_row R hc custom, enable,
      programmed, Function.update_self, on]
    rfl
  · have off : (enableMask b).getLsbD k = false := by
      rw [← Bool.not_eq_true, mask]
      rintro (h | h)
      · exact chosen h
      · omega
    have none : newlySelects b hw k t = false := by
      rw [newlySelects, List.any_eq_false]
      intro c hc picked
      simp only [Bool.and_eq_true, decide_eq_true_eq] at picked
      exact chosen ⟨c, hc, picked.1⟩
    rw [none, Pmu.counts, programmed, Function.update_self, off]
    rfl

/-- After its programming, a counter holds the number of events its row selects. -/
theorem run_programmed (R : Regs) {k : Nat} (hk : k < perfMaxCustomCounters)
    (ticks : List hw.Tick) : hw.run (programmed b R) ticks (ia32Pmc0 + k) =
      BitVec.ofNat 64 (ticks.countP (newlySelects b hw k) % 2 ^ hw.width) := by
  have zero : programmed b R (ia32Pmc0 + k) = 0 := loop.programmed_pmc R ⟨by omega, by omega⟩
  rw [Pmu.run_pmc hk zero]
  congr 3
  funext t
  exact loop.counts_programmed R hk t

end LoopRows

/-! ### configure_counters among hardware events -/

/-- Nothing counts and nothing has been counted. -/
def Off (R : Regs) : Prop := R ia32CrPerfGlobalCtrl = 0 ∧ ∀ a, isPmc a → R a = 0

theorem Off.run {R : Regs} (off : Off R) (ticks : List hw.Tick) : Off (hw.run R ticks) := by
  rwa [Pmu.run_disabled off.1]

theorem off_cleared (R : Regs) : Off (cleared R) := ⟨by simp [cleared], fun a pmc => by simp [cleared, pmc]⟩

/-- A CPU after its round: the mask is written, or the counters are off. -/
def Settled (b : Build) (set : Bool) (p : Regs × Option Word) : Prop :=
  if set then p.2 = some (enableMask b) else Off p.1

theorem Settled.onlyTicks {set : Bool} {m m' : Panel} {x : Cpu} (held : Settled b set (m x))
    (moved : Panel.OnlyTicks hw x m m') : Settled b set (m' x) := by
  obtain ⟨ticks, now⟩ := moved
  rw [now]
  cases set with
  | true => exact held
  | false => exact Off.run held ticks

theorem settled_moves {set : Bool} {cpus : List Cpu} {m m' : Panel} (held : ∀ x ∈ cpus, Settled b set (m x))
    (moved : (msrView b hw).rely m m') : ∀ x ∈ cpus, Settled b set (m' x) := by
  obtain ⟨y, t, rfl⟩ := moved
  exact fun x member => (held x member).onlyTicks (m.tick_onlyTicks y t x)

theorem wp_configureCounters_msr {cpuMsr : Nat → Option Cpu} {cpus : List Cpu} {set : Bool} {m : Panel}
    (spares : SparesGlobal b) (handles : set = false → ∀ j < cpus.length, cpuMsr j = cpus[j]?) :
    (configureCounters b cpuMsr cpus set).wp (msrView b hw)
      (fun h m => (∀ j < cpus.length, h j = cpus[j]?) ∧ ∀ x ∈ cpus, Settled b set (m x)) m := by
  have start : ∀ x ∈ ([] : List Cpu), Settled b set (m x) := by simp
  have handles' : set = false → ∀ j < cpus.length, cpuMsr (0 + j) = cpus[j]? := by simpa using handles
  refine wp_configureFrom (V := msrView b hw) (I := fun done m => ∀ x ∈ done, Settled b set (m x)) start
    (fun _ _ _ => settled_moves) handles' (fun done cpu m _ held => ?_)
    fun h m _ new held => ⟨by simpa using new, held⟩
  have checked : ((do
      perform (.assert true)
      configureCpu b cpu set) : Prog Unit).wp (msrView b hw)
        (fun _ m => ∀ x ∈ done ++ [cpu], Settled b set (m x)) m := by
    refine ((msrView_shows b hw cpu).accesses m).wp_assert ((msrView_shows b hw cpu).wp_configureCpu spares ?_)
    intro R u _ regs kept on
    refine Program.wp_done (fun _ _ => settled_moves) fun x member => ?_
    by_cases same : x = cpu
    · subst same
      cases set with
      | true =>
        obtain ⟨v, -, written⟩ := on rfl
        simp [Settled, written, Panel.write]
      | false =>
        have now : (u x).1 = cleared R := regs
        rw [Settled, if_neg (by decide), now]
        exact off_cleared R
    · exact (held x (by simpa [same] using member)).onlyTicks (kept x same)
  unfold round
  cases set with
  | false => exact checked
  | true =>
    intro m' moved
    refine ⟨trivial, fun r u step => ?_⟩
    obtain rfl : u = m' := step
    exact Program.wp_rely checked moved

/-- No counter advances between the first GLOBAL_CTRL write and the closing one; after
it each counter holds exactly the events its new PERFEVTSEL selects; and after
`configure_counters(false)` the counters stay at 0. -/
theorem configureCounters_quiet (rows : CustomRows b) {cpuMsr : Nat → Option Cpu} {cpus : List Cpu} {set : Bool}
    (handles : set = false → ∀ j < cpus.length, cpuMsr j = cpus[j]?) {s : World}
    {others : Tid → Prog Unit} {tr : List (Ev hw)} {c : Config Tid Action Action.Res World}
    (run : (process b hw).Run AllOk
      ⟨s, Function.update others .main (configureCounters b cpuMsr cpus set >>= fun _ => .done ())⟩ tr c) (x : Cpu) :
    (∀ ticks, since x tr = some (0, ticks) → ∀ t, hw.tick (c.state.msr x) t = c.state.msr x) ∧
    (∀ v ticks, since x tr = some (v, ticks) → v ≠ 0 → ∀ k < perfMaxCustomCounters,
      c.state.msr x (ia32Pmc0 + k) = BitVec.ofNat 64 (ticks.countP (newlySelects b hw k) % 2 ^ hw.width)) ∧
    (c.pool .main = .done () → x ∈ cpus →
      if set then ∃ ticks, since x tr = some (enableMask b, ticks)
      else ∀ k < perfMaxCustomCounters, c.state.msr x (ia32Pmc0 + k) = 0) := by
  have loop := rows.loopRows
  have main : ((configureCounters b cpuMsr cpus set >>= fun _ => .done ()) : Prog Unit).wp (msrView b hw)
      (fun _ m => ∀ x ∈ cpus, Settled b set (m x)) (panel ([] : List (Ev hw)) s) := by
    rw [Program.wp_bind]
    apply Program.wp_mono (wp_configureCounters_msr loop.sparesGlobal handles)
    intro h m held
    exact Program.wp_done (fun _ _ => settled_moves) held.2
  obtain ⟨guarded, main⟩ := guarded_run run (by simpa only [Function.update_self] using main)
  refine ⟨fun ticks last t => Pmu.tick_disabled ((guarded x).off ticks last) t, fun v ticks last on k hk => ?_,
    fun done listed => ?_⟩
  · obtain ⟨-, R, now⟩ := (guarded x).on v ticks last on
    rw [now, loop.run_programmed R hk]
  · rw [done] at main
    have settled := main _ .refl x listed
    cases set with
    | true =>
      simp only [Settled, panel, if_true, Option.map_eq_some_iff, Prod.exists, exists_and_right] at settled
      obtain ⟨v, ⟨ticks, last⟩, rfl⟩ := settled
      exact ⟨ticks, last⟩
    | false => exact fun k hk => settled.2 _ ⟨by omega, by omega⟩

theorem handle_allOk {luck : Luck} (allOk : ∀ k, luck.accesses k = true) (tr : List (Ev hw)) (s : Solo) (o : Action)
    (r : o.Res) (s' : Solo) (h : Solo.handle b luck s o = some (r, s')) : AllOk tr s.world (.act .main o r : Ev hw) := by
  cases o
  case msrWrite =>
    simp only [Solo.handle, allOk, if_true, Option.some.injEq] at h
    cases h
    rfl
  case msrRead =>
    simp only [Solo.handle, allOk, if_true, Option.some.injEq] at h
    cases h
    rfl
  case readInto => cases h
  all_goals trivial

theorem dedos07_rows : CustomRows dedos07 := by
  constructor <;> decide

theorem dedos07_mask : enableMask dedos07 = 255 := by decide

/-- A run that programs CPU 0 to its end. -/
theorem configureCounters_quiet_dedos07 : ∃ tr c, (process dedos07 .exact).Run AllOk
    ⟨.idle, Function.update (fun _ => .done ()) .main
      (configureCounters dedos07 (fun _ => none) [0] true >>= fun _ => .done ())⟩ tr c ∧ c.pool .main = .done () ∧
    ∃ ticks, since 0 tr = some (enableMask dedos07, ticks) ∧ ∀ k < perfMaxCustomCounters,
      c.state.msr 0 (ia32Pmc0 + k) = BitVec.ofNat 64 (ticks.countP (newlySelects dedos07 .exact k) % 2 ^ 48) := by
  have allOk : ∀ k, ({} : Luck).accesses k = true := fun _ => rfl
  have opens : ∀ k, ({} : Luck).opens k = true := fun _ => rfl
  obtain ⟨handles, t, ran, -⟩ := Solo.exec_configureCounters allOk opens dedos07_rows.loopRows.sparesGlobal
    (fun _ => none) [0] { world := .idle }
  have whole : ((configureCounters dedos07 (fun _ => none) [0] true >>= fun _ => .done ()) : Prog Unit).exec
      (Solo.handle dedos07 {}) { world := .idle } = (some (), t) := Program.exec_bind ran
  obtain ⟨tr, run⟩ := solo_run .exact (fun _ => .done ()) (handle_allOk allOk) whole
  obtain ⟨-, counted, finished⟩ := configureCounters_quiet dedos07_rows (fun off => by cases off) run 0
  obtain ⟨ticks, last⟩ := finished (by simp) (by simp)
  exact ⟨tr, _, run, by simp, ticks, last, counted _ _ last (by rw [dedos07_mask]; decide)⟩

end PmcBench
