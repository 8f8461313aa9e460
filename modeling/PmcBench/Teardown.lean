import PmcBench.Quiescence
import PmcBench.Schedules
import PmcBench.Workers

/-!
# What the teardown leaves of the set-up

`configure_counters(false)` clears GLOBAL_CTRL, the counters and
IA32_FIXED_CTR_CTRL, but no PERFEVTSEL: whatever the set-up has programmed stays
enabled, and counts again once anything sets the GLOBAL_CTRL bit.
-/

namespace PmcBench
open Threads Words

variable {b : Build} {hw : Pmu}

/-! ### The teardown that the set-up needs -/

/-- The set-up has programmed PERFEVTSEL `k` of CPU `x` with a row of the table. -/
def Programs (b : Build) (tr : List (Ev hw)) (x : Cpu) (k : Nat) : Prop :=
  k < perfMaxCustomCounters ∧ ∃ v, RowWrite b (ia32Perfevtsel0Addr + k) v ∧
    .act .main (.msrWrite x (ia32Perfevtsel0Addr + k) v) true ∈ tr

/-- What events and writes to GLOBAL_CTRL make of a register file. -/
inductive Later (hw : Pmu) (R : Regs) : Regs → Prop where
  | now : Later hw R R
  | tick {S : Regs} (before : Later hw R S) (t : hw.Tick) : Later hw R (hw.tick S t)
  | global {S : Regs} (before : Later hw R S) (v : Word) : Later hw R (Function.update S ia32CrPerfGlobalCtrl v)

/-- No programmed PERFEVTSEL is still enabled, and no counter PMC0 to PMC7 of a listed CPU will
leave 0. -/
structure TornDown (b : Build) (cpus : List Cpu) (tr : List (Ev hw)) (m : Cpu → Regs) : Prop where
  disabled : ∀ x k, Programs b tr x k → EventSelectRegister.enable.get (m x (ia32Perfevtsel0Addr + k)) = 0
  still : ∀ x ∈ cpus, ∀ k < perfMaxCustomCounters, ∀ R, Later hw (m x) R → R (ia32Pmc0 + k) = 0

/-! ### What main writes to the PERFEVTSELs -/

def isSelect (a : Nat) : Prop := ia32Perfevtsel0Addr ≤ a ∧ a < ia32Perfevtsel0Addr + perfMaxCustomCounters

instance (a : Nat) : Decidable (isSelect a) := inferInstanceAs (Decidable (_ ∧ _))

/-- A PERFEVTSEL is only written with a row of the table. -/
def SelectsRows (b : Build) : Action → Prop
  | .msrWrite _ a v => isSelect a → RowWrite b a v
  | _ => True

theorem not_isPmc_of_isSelect {a : Nat} (select : isSelect a) : ¬ isPmc a := by
  simp only [isSelect, isPmc, ia32Perfevtsel0Addr, ia32Pmc0, perfMaxCustomCounters] at select ⊢
  omega

theorem rowWrite_of_mayWrite {a : Nat} {v : Word} (may : MayWrite b a v) (select : isSelect a) : RowWrite b a v := by
  rcases may with rfl | rfl | pmc | row
  · exact absurd select (by decide)
  · exact absurd select (by decide)
  · exact (not_isPmc_of_isSelect select pmc).elim
  · exact row

theorem enable_of_rowWrite {a : Nat} {v : Word} (row : RowWrite b a v) : EventSelectRegister.enable.get v = 1 := by
  obtain ⟨c, -, -, -, rfl⟩ := row
  exact congrArg EventSelectRegister.Fields.enable (fields_evtReg (b.counterTbl.row c))

theorem main_selectsRows (b : Build) (cpus : List Cpu) (iterations : Nat → Nat) :
    (main b cpus iterations).All (SelectsRows b) := by
  have configure (set : Bool) (cpuMsr : Nat → Option Cpu) : (configureCounters b cpuMsr cpus set).All (SelectsRows b) :=
    all_configureFrom (fun _ => trivial) (fun _ _ => trivial) (fun _ _ _ may => rowWrite_of_mayWrite may)
      (fun _ => trivial) set 0 cpus cpuMsr
  have create (cpuMsr : Nat → Option Cpu) : (createThreads cpuMsr cpus iterations).All (SelectsRows b) :=
    .forEach fun i _ => ⟨trivial, fun _ => ⟨trivial, fun _ => trivial⟩⟩
  have log : (writeLog b cpus.length).All (SelectsRows b) :=
    all_writeLog trivial (fun _ => trivial) (fun _ => trivial) (fun _ => trivial) (fun _ _ => trivial)
      (fun _ _ _ => trivial) _
  refine ⟨trivial, fun _ => (configure true _).bind fun cpuMsr => (create cpuMsr).bind fun _ => log.bind fun _ => ?_⟩
  exact ⟨trivial, fun _ => (configure false cpuMsr).bind fun _ => trivial⟩

theorem main_noCpus (b : Build) (iterations : Nat → Nat) :
    (main b [] iterations).All fun o => ∀ x a v, o ≠ .msrWrite x a v := by
  have log : (writeLog b 0).All fun o => ∀ x a v, o ≠ .msrWrite x a v := by
    refine all_writeLog ?_ ?_ ?_ ?_ ?_ ?_ 0 <;> simp
  have fclose : (perform .fclose).All fun o => ∀ x a v, o ≠ .msrWrite x a v := all_perform (by simp)
  apply (all_perform (by simp)).bind
  intro _
  exact log.bind fun _ => fclose.bind fun _ => trivial

/-! ### What main's writes make of the registers -/

def writtenStep (x : Cpu) (R : Regs) : Ev hw → Regs
  | .act .main (.msrWrite y a v) true => if y = x then Function.update R a v else R
  | _ => R

theorem writtenStep_other {x : Cpu} {R : Regs} {a : Nat} {e : Ev hw}
    (other : ∀ v, e ≠ .act .main (.msrWrite x a v) true) : writtenStep x R e a = R a := by
  unfold writtenStep
  split
  · rename_i y a' v
    split
    · rename_i same
      subst same
      exact Function.update_of_ne (fun here => other v (by rw [here])) ..
    · rfl
  · rfl

/-- What the writes of `main` to CPU `x` that succeed would make of its registers without events. -/
def written (x : Cpu) (R : Regs) (tr : List (Ev hw)) : Regs := tr.foldl (writtenStep x) R

@[simp] theorem written_snoc (x : Cpu) (R : Regs) (tr : List (Ev hw)) (e : Ev hw) :
    written x R (tr ++ [e]) = writtenStep x (written x R tr) e := by
  simp [written]

theorem writtenStep_write (x y : Cpu) (R : Regs) (a : Nat) (v : Word) :
    writtenStep x R (.act .main (.msrWrite y a v) true : Ev hw) = if y = x then Function.update R a v else R := rfl

theorem msr_main {s t : World} {o : Action} {r : o.Res} (step : s.actMain b o r t) (x : Cpu) :
    t.msr x = writtenStep x (s.msr x) (.act .main o r : Ev hw) := by
  cases o
  case msrWrite y a v =>
    rcases step with ⟨rfl, rfl⟩ | ⟨rfl, rfl⟩
    · rw [writtenStep_write]
      by_cases same : y = x
      · subst same
        simp [World.setReg]
      · simp [World.setReg, same, Ne.symm same]
    · rfl
  all_goals
    obtain rfl | ⟨_, _, _, write, -⟩ | ⟨_, _, -, rfl⟩ | ⟨_, _, -, rfl⟩ | ⟨_, rfl⟩ := World.actMain_cases step
    case inr.inl => cases write
    all_goals rfl

/-- A step of the process is an event on the CPU, or does to its registers what is written. -/
theorem msr_step {c c' : Config Tid Action Action.Res World} {e : Ev hw} (step : (process b hw).Step c e c') (x : Cpu) :
    (∃ t : hw.Tick, e = .env (.tick x t) ∧ c'.state.msr x = hw.tick (c.state.msr x) t) ∨
      c'.state.msr x = writtenStep x (c.state.msr x) e := by
  cases step with
  | @act u o r s' next head effect =>
    apply Or.inr
    cases u with
    | worker i => exact congrFun (World.actWorker_frame effect).msr x
    | main => exact msr_main effect x
  | @env e s' effect =>
    cases e with
    | tick y t =>
      obtain rfl := effect
      by_cases same : x = y
      · subst same
        exact Or.inl ⟨t, rfl, Function.update_self ..⟩
      · exact Or.inr (Function.update_of_ne same ..)
    | clock now =>
      obtain ⟨-, rfl⟩ := effect
      exact Or.inr rfl
    | migrate i cpu =>
      obtain ⟨-, rfl⟩ := effect
      exact Or.inr rfl

theorem writtenStep_congr {x : Cpu} {R S : Regs} {a : Nat} (same : R a = S a) (e : Ev hw) :
    writtenStep x R e a = writtenStep x S e a := by
  unfold writtenStep
  split
  · split
    · rename_i v _
      by_cases here : a = ‹Nat›
      · simp [here]
      · simp [here, same]
    · exact same
  · exact same

section
variable {C : List (Ev hw) → World → Ev hw → Prop} {c c' : Config Tid Action Action.Res World} {tr : List (Ev hw)}

/-- Events leave alone every register but the counters. -/
theorem msr_written (run : (process b hw).Run C c tr c') (x : Cpu) {a : Nat} (other : ¬ isPmc a) :
    c'.state.msr x a = written x (c.state.msr x) tr a := by
  induction run with
  | start => rfl
  | @step tr d e d' run meets step ih =>
    rw [written_snoc, ← writtenStep_congr ih e]
    obtain ⟨t, rfl, after⟩ | after := msr_step step x
    · rw [after, Pmu.tick_other other]
      rfl
    · rw [after]

/-- With this in its PERFEVTSEL a counter advances on some event. -/
def Selecting (hw : Pmu) (v : Word) : Prop := EventSelectRegister.enable.get v = 1 ∧ ∃ t, hw.selects v t = true

theorem counts_off {R : Regs} {k : Nat} (off : ¬ Selecting hw (R (ia32Perfevtsel0Addr + k))) (t : hw.Tick) :
    hw.counts R k t = false := by
  rw [Bool.eq_false_iff]
  intro counts
  simp only [Pmu.counts, Bool.and_eq_true, beq_iff_eq] at counts
  exact off ⟨counts.1.2, t, counts.2⟩

/-- A counter whose PERFEVTSEL has never selected an event holds what has been written. -/
theorem pmc_written (run : (process b hw).Run C c tr c') (x : Cpu) {k : Nat} (bound : k < perfMaxCustomCounters)
    (off : ∀ before, before <+: tr → ¬ Selecting hw (written x (c.state.msr x) before (ia32Perfevtsel0Addr + k))) :
    c'.state.msr x (ia32Pmc0 + k) = written x (c.state.msr x) tr (ia32Pmc0 + k) := by
  induction run with
  | start => rfl
  | @step tr d e d' run meets step ih =>
    have earlier : tr <+: tr ++ [e] := List.prefix_append ..
    rw [written_snoc, ← writtenStep_congr (ih fun before front => off before (front.trans earlier)) e]
    obtain ⟨t, rfl, after⟩ | after := msr_step step x
    · have select : ¬ isPmc (ia32Perfevtsel0Addr + k) := not_isPmc_of_isSelect ⟨by omega, by omega⟩
      have idle := off tr earlier
      rw [← msr_written run x select] at idle
      rw [after, Pmu.tick_pmc _ _ _ bound, counts_off idle, if_neg Bool.false_ne_true]
      rfl
    · rw [after]

end

/-- Once `main` has written a row to a PERFEVTSEL it stays enabled. -/
theorem enable_written {tr : List (Ev hw)} {x : Cpu} {a : Nat} (R : Regs)
    (rows : ∀ v, .act .main (.msrWrite x a v) true ∈ tr → RowWrite b a v) {v : Word}
    (wrote : .act .main (.msrWrite x a v) true ∈ tr) : EventSelectRegister.enable.get (written x R tr a) = 1 := by
  induction tr using List.reverseRecOn generalizing v with
  | nil => cases wrote
  | append_singleton tr e ih =>
    rw [written_snoc]
    by_cases here : ∃ v, e = .act .main (.msrWrite x a v) true
    · obtain ⟨v, rfl⟩ := here
      rw [writtenStep_write, if_pos rfl, Function.update_self]
      exact enable_of_rowWrite (rows v (by simp))
    · have before : .act .main (.msrWrite x a v) true ∈ tr := by
        rcases List.mem_append.mp wrote with earlier | now
        · exact earlier
        · exact (here ⟨v, (List.mem_singleton.mp now).symm⟩).elim
      rw [writtenStep_other fun v same => here ⟨v, same⟩]
      exact ih (fun v member => rows v (List.mem_append_left _ member)) before

/-- A register to which nothing is written keeps its value. -/
theorem written_untouched {tr : List (Ev hw)} {x : Cpu} {a : Nat} (R : Regs)
    (none : ∀ v, .act .main (.msrWrite x a v) true ∉ tr) : written x R tr a = R a := by
  induction tr using List.reverseRecOn with
  | nil => rfl
  | append_singleton tr e ih =>
    rw [written_snoc, writtenStep_other fun v same => none v (by simp [same])]
    exact ih fun v member => none v (List.mem_append_left _ member)

/-! ### What the set-up must write -/

theorem must_programRows {cpu : Cpu} {rows : List Nat} {c : Nat} (member : c ∈ rows)
    (custom : (b.counterTbl.row c).ctrType = .customCtr) (value : Word) :
    (programRows b cpu rows value).Must
      (· = .msrWrite cpu (b.counterTbl.row c).cfgReg (evtReg (b.counterTbl.row c))) := by
  induction rows generalizing value with
  | nil => cases member
  | cons d rows ih =>
    rw [programRows_cons]
    by_cases first : c = d
    · subst first
      have write : (perform (.msrWrite cpu (b.counterTbl.row c).cfgReg (evtReg (b.counterTbl.row c)))).Must
          (· = .msrWrite cpu (b.counterTbl.row c).cfgReg (evtReg (b.counterTbl.row c))) := .call rfl
      rw [if_pos custom]
      exact .first (.rest _ fun _ => .rest _ fun _ => .first write _) _
    · have rest := ih ((List.mem_cons.mp member).resolve_left first)
      by_cases other : (b.counterTbl.row d).ctrType = .customCtr
      · rw [if_pos other]
        exact .rest _ fun _ => rest _
      · rw [if_neg other]
        exact rest _

theorem must_configureFrom {i : Nat} {cpus : List Cpu} {cpuMsr : Nat → Option Cpu} {x : Cpu} (listed : x ∈ cpus) {c : Nat}
    (member : c ∈ pmcLoop b) (custom : (b.counterTbl.row c).ctrType = .customCtr) :
    (configureFrom b true i cpus cpuMsr).Must
      (· = .msrWrite x (b.counterTbl.row c).cfgReg (evtReg (b.counterTbl.row c))) := by
  induction cpus generalizing i cpuMsr with
  | nil => cases listed
  | cons cpu rest ih =>
    rw [configureFrom_cons b rest (fun off => by cases off)]
    by_cases first : x = cpu
    · subst first
      refine .first ?_ _
      have program : (programCpu b x).Must
          (· = .msrWrite x (b.counterTbl.row c).cfgReg (evtReg (b.counterTbl.row c))) :=
        .rest _ fun _ => .rest _ fun _ => .rest _ fun _ => .first (must_programRows member custom _) _
      exact .rest _ fun _ => .rest _ fun _ => .rest _ fun _ => .rest _ fun _ => .rest _ fun _ => program
    · exact .rest _ fun _ => ih ((List.mem_cons.mp listed).resolve_left first)

/-! ### What the teardown resets -/

/-- What `main` writes, where its writes succeed. -/
abbrev writesView : View Action Action.Res where
  St := Cpu → Regs
  rely _ _ := False
  allow _ _ := True
  next m
    | .msrWrite x a v, ok, m' => ok = true ∧ m' = Function.update m x (Function.update (m x) a v)
    | _, _, m' => m' = m

def Reset (m : Cpu → Regs) (x : Cpu) : Prop := ∀ k < perfMaxCustomCounters, m x (ia32Pmc0 + k) = 0

theorem Reset.clear {m : Cpu → Regs} {x : Cpu} (held : Reset m x) (y : Cpu) (a : Nat) :
    Reset (Function.update m y (Function.update (m y) a 0)) x := by
  intro k bound
  by_cases cpu : x = y
  · subst cpu
    rw [Function.update_self]
    by_cases here : ia32Pmc0 + k = a
    · rw [here, Function.update_self]
    · rw [Function.update_of_ne here, held k bound]
  · rw [Function.update_of_ne cpu, held k bound]

theorem wp_round_resets (cpu : Cpu) (m : Cpu → Regs) :
    (round b false cpu).wp writesView (fun _ m' => Reset m' cpu ∧ ∀ x, Reset m x → Reset m' x) m := by
  have still (s t : Cpu → Regs) : ¬ writesView.rely s t := id
  simp only [round, configureCpu, if_neg Bool.false_ne_true, Program.pure_eq, Program.call_bind]
  refine (Program.wp_act_still still).mpr ⟨trivial, fun _ m₁ same => ?_⟩
  rw [show m₁ = m from same]
  refine (Program.wp_act_still still).mpr ⟨trivial, ?_⟩
  rintro _ _ ⟨rfl, rfl⟩
  apply Program.wp_bind.mpr
  refine Program.wp_forEach_range
    (V := writesView)
    (I := fun i (m' : Cpu → Regs) => (∀ k < i, m' cpu (ia32Pmc0 + k) = 0) ∧ ∀ x, Reset m x → Reset m' x) ?_ ?_ ?_ ?_
  · exact ⟨fun _ none => absurd none (Nat.not_lt_zero _), fun x held => held.clear _ _⟩
  · exact fun _ _ _ _ moved => (still _ _ moved).elim
  · rintro i m' bound ⟨done, kept⟩
    refine (Program.wp_act_still still).mpr ⟨trivial, ?_⟩
    rintro _ _ ⟨rfl, rfl⟩
    refine (Program.wp_done_still still).mpr ⟨fun k below => ?_, fun x held => (kept x held).clear _ _⟩
    rw [Function.update_self]
    rcases Nat.lt_succ_iff_lt_or_eq.mp below with earlier | rfl
    · rw [Function.update_of_ne (by omega), done k earlier]
    · exact Function.update_self ..
  · rintro m' ⟨done, kept⟩
    refine (Program.wp_act_still still).mpr ⟨trivial, ?_⟩
    rintro _ _ ⟨rfl, rfl⟩
    have reset : Reset m' cpu := done
    exact (Program.wp_done_still still).mpr ⟨reset.clear _ _, fun x held => (kept x held).clear _ _⟩

/-- Whatever the process has done before, the teardown leaves the counters of its CPUs at 0. -/
theorem main_resets (b : Build) (cpus : List Cpu) (iterations : Nat → Nat) (m : Cpu → Regs) :
    (main b cpus iterations).wp writesView (fun _ m' => ∀ x ∈ cpus, Reset m' x) m := by
  have still (s t : Cpu → Regs) : ¬ writesView.rely s t := id
  have fine {α : Type} {p : Prog α} {m : Cpu → Regs} : p.wp writesView (fun _ _ => True) m :=
    Program.wp_allowed (.of_forall fun _ _ => trivial)
  have rounds (cpu : Cpu) : (round b true cpu).All (writesView.Preserves fun _ => True) :=
    .of_forall fun _ _ _ => ⟨trivial, fun _ _ _ => trivial⟩
  apply Program.wp_seq fine
  intro _ m _
  apply Program.wp_bind.mpr
  refine wp_configureCounters (I := fun _ => True) trivial (fun _ _ _ _ => trivial) nofun rounds fun cpuMsr m listed _ => ?_
  apply Program.wp_seq fine
  intro _ m _
  apply Program.wp_seq fine
  intro _ m _
  apply Program.wp_seq fine
  intro _ m _
  apply Program.wp_bind.mpr
  refine wp_configureFrom (I := fun done m => ∀ x ∈ done, Reset m x) ?_ ?_ ?_
    (fun done cpu t (_ : done ++ [cpu] <+: [] ++ cpus) held => ?_) ?_
  · simp
  · exact fun _ _ _ _ moved => (still _ _ moved).elim
  · simpa using listed
  · apply Program.wp_mono (wp_round_resets cpu t)
    rintro _ u ⟨now, kept⟩ x member
    rcases List.mem_append.mp member with earlier | here
    · exact kept x (held x earlier)
    · rw [List.mem_singleton.mp here]
      exact now
  · intro h t _ _ held
    exact (Program.wp_done_still still).mpr held

/-- A write of `main` succeeds. -/
def Writes (e : Ev hw) : Prop := ∀ x a v, e ≠ .act .main (.msrWrite x a v) false

theorem written_next (start : Cpu → Regs) (tr : List (Ev hw)) {o : Action} {r : o.Res}
    (ok : Writes (.act .main o r : Ev hw)) : writesView.next (fun x => written x (start x) tr) o r
      fun x => written x (start x) (tr ++ [.act .main o r]) := by
  cases o
  case msrWrite x a v =>
    cases r with
    | false => exact (ok x a v rfl).elim
    | true =>
      refine ⟨rfl, funext fun y => ?_⟩
      rw [written_snoc, writtenStep_write]
      by_cases same : x = y
      · subst same
        rw [if_pos rfl, Function.update_self]
      · rw [if_neg same, Function.update_of_ne (Ne.symm same)]
  all_goals exact funext fun y => written_snoc ..

def writing (b : Build) (hw : Pmu) (start : Cpu → Regs) : RelyGuarantee (process b hw) fun _ _ e => Writes e where
  view
    | .main => writesView
    | .worker _ => .free
  abs
    | .main, tr, _ => fun x => written x (start x) tr
    | .worker _, _, _ => ()
  inv _ _ := True
  own {t tr s o r s'} _ _ ok _ := by
    cases t with
    | worker i => rfl
    | main => exact written_next start tr ok
  others {t u tr s o r s'} different _ _ _ _ := by
    cases u with
    | worker i => exact .refl
    | main =>
      cases t with
      | main => exact (different rfl).elim
      | worker i =>
        have same : (fun x => written x (start x) (tr ++ [(.act (.worker i) o r : Ev hw)])) = fun x => written x (start x) tr :=
          funext fun x => written_snoc ..
        show Relation.ReflTransGen _ (fun x => written x (start x) tr) fun x => written x (start x) (tr ++ [_])
        rw [same]
  moves {u tr s e s'} _ _ _ := by
    cases u with
    | worker i => exact .refl
    | main =>
      have same : (fun x => written x (start x) (tr ++ [(.env e : Ev hw)])) = fun x => written x (start x) tr :=
        funext fun x => written_snoc ..
      show Relation.ReflTransGen _ (fun x => written x (start x) tr) fun x => written x (start x) (tr ++ [_])
      rw [same]
  inv_act _ _ _ _ := trivial
  inv_env _ _ _ := trivial

theorem written_reset {cpus : List Cpu} {func : Nat → Benchmark} {iterations : Nat → Nat} {s : World}
    {C : List (Ev hw) → World → Ev hw → Prop} {tr : List (Ev hw)} {c : Config Tid Action Action.Res World}
    (run : (process b hw).Run C ⟨s, pool b cpus func iterations⟩ tr c) (returned : c.pool .main = .done ())
    (ok : ∀ e ∈ tr, Writes e) : ∀ x ∈ cpus, Reset (fun x => written x (s.msr x) tr) x := by
  have proved := ((writing b hw s.msr).run (fun t => match t with
      | .main => fun _ m => ∀ x ∈ cpus, Reset m x
      | .worker _ => fun _ _ => True) (run.each ok) trivial fun t => by
    cases t with
    | main => exact main_resets b cpus iterations s.msr
    | worker i => exact Program.wp_free).2 .main
  rw [returned] at proved
  exact proved _ .refl

/-! ### Teardown -/

/-- The PMC loop reaches no row with a PERFEVTSEL. -/
def NoSelect (b : Build) : Prop :=
  ∀ c ∈ pmcLoop b, (b.counterTbl.row c).ctrType = .customCtr → ¬ isSelect (b.counterTbl.row c).cfgReg

section
variable {C : List (Ev hw) → World → Ev hw → Prop} {cpus : List Cpu} {func : Nat → Benchmark}
  {iterations : Nat → Nat} {s : World} {tr : List (Ev hw)} {c : Config Tid Action Action.Res World}

theorem rowWrite_of_run (run : (process b hw).Run C ⟨s, pool b cpus func iterations⟩ tr c) {x : Cpu} {k : Nat}
    (bound : k < perfMaxCustomCounters) {v : Word} {ok : Bool}
    (wrote : .act .main (.msrWrite x (ia32Perfevtsel0Addr + k) v) ok ∈ tr) : RowWrite b (ia32Perfevtsel0Addr + k) v :=
  (run.all (t := .main) (main_selectsRows b cpus iterations)).2 _ _ wrote ⟨by omega, by omega⟩

/-- A PERFEVTSEL that has not been programmed still has what it had at the start. -/
theorem written_unprogrammed (run : (process b hw).Run C ⟨s, pool b cpus func iterations⟩ tr c) {x : Cpu} {k : Nat}
    (bound : k < perfMaxCustomCounters) (none : ¬ Programs b tr x k) {before : List (Ev hw)} (front : before <+: tr)
    (R : Regs) : written x R before (ia32Perfevtsel0Addr + k) = R (ia32Perfevtsel0Addr + k) :=
  written_untouched R fun v wrote => none ⟨bound, v, rowWrite_of_run run bound (front.mem wrote), front.mem wrote⟩

/-- Nothing is programmed only if there is nothing to program. -/
theorem programs_iff (run : (process b hw).Run C ⟨s, pool b cpus func iterations⟩ tr c)
    (returned : c.pool .main = .done ()) (ok : ∀ e ∈ tr, Writes e) :
    (∀ x k, ¬ Programs b tr x k) ↔ cpus = [] ∨ NoSelect b := by
  constructor
  · intro none
    by_cases empty : cpus = []
    · exact Or.inl empty
    apply Or.inr
    intro c reached custom select
    obtain ⟨x, member⟩ := List.exists_mem_of_ne_nil cpus empty
    have must : (main b cpus iterations).Must
        (· = .msrWrite x (b.counterTbl.row c).cfgReg (evtReg (b.counterTbl.row c))) :=
      .rest _ fun _ => .first (must_configureFrom member reached custom) _
    rcases run.must (t := .main) must with due | ⟨o, r, taken, rfl⟩
    · rw [returned] at due
      exact due
    · obtain ⟨k, place⟩ := Nat.exists_eq_add_of_le select.1
      have width := select.2
      cases r with
      | false => exact ok _ taken _ _ _ rfl
      | true =>
        refine none x k ⟨by omega, _, ⟨c, reached, custom, place.symm, rfl⟩, ?_⟩
        rw [← place]
        exact taken
  · rintro (rfl | rows) x k ⟨bound, v, row, wrote⟩
    · have nothing := (run.all (t := .main) (main_noCpus b iterations)).2
      exact nothing _ _ wrote _ _ _ rfl
    · obtain ⟨c, reached, custom, place, -⟩ := row
      exact rows c reached custom (place ▸ ⟨by omega, by omega⟩)

/-- A selecting PERFEVTSEL lets its counter leave 0 once GLOBAL_CTRL has its bit. -/
theorem advances_of_selecting (width : 0 < hw.width) {R : Regs} {k : Nat} (bound : k < perfMaxCustomCounters)
    (selecting : Selecting hw (R (ia32Perfevtsel0Addr + k))) (zero : R (ia32Pmc0 + k) = 0) :
    ∃ S, Later hw R S ∧ S (ia32Pmc0 + k) ≠ 0 := by
  obtain ⟨enabled, t, selects⟩ := selecting
  have pmc : ia32Pmc0 + k ≠ ia32CrPerfGlobalCtrl := by
    simp only [ia32Pmc0, ia32CrPerfGlobalCtrl, perfMaxCustomCounters] at bound ⊢
    omega
  have select : ia32Perfevtsel0Addr + k ≠ ia32CrPerfGlobalCtrl := by
    simp only [ia32Perfevtsel0Addr, ia32CrPerfGlobalCtrl, perfMaxCustomCounters] at bound ⊢
    omega
  have start : Later hw R R := .now
  refine ⟨_, (start.global (BitVec.allOnes 64)).tick t, ?_⟩
  have counted : hw.counts (Function.update R ia32CrPerfGlobalCtrl (BitVec.allOnes 64)) k t = true := by
    have bit : (BitVec.allOnes 64).getLsbD k = true := by
      rw [BitVec.getLsbD_allOnes, decide_eq_true_eq]
      exact Nat.lt_trans bound (by decide)
    rw [Pmu.counts, Function.update_self, Function.update_of_ne select, bit, enabled, selects]
    rfl
  rw [Pmu.tick_pmc _ _ _ bound, counted, if_pos rfl, Function.update_of_ne pmc, zero]
  have one : 1 < 2 ^ hw.width := Nat.one_lt_two_pow (Nat.pos_iff_ne_zero.mp width)
  rw [show ((0 : Word).toNat + 1) % 2 ^ hw.width = 1 from Nat.mod_eq_of_lt one]
  decide

/-- Where no PERFEVTSEL selects an event, the counter stays what it is. -/
theorem Later.still {R S : Regs} (later : Later hw R S) {k : Nat} (bound : k < perfMaxCustomCounters)
    (off : ¬ Selecting hw (R (ia32Perfevtsel0Addr + k))) :
    S (ia32Perfevtsel0Addr + k) = R (ia32Perfevtsel0Addr + k) ∧ S (ia32Pmc0 + k) = R (ia32Pmc0 + k) := by
  have pmc : ia32Pmc0 + k ≠ ia32CrPerfGlobalCtrl := by
    simp only [ia32Pmc0, ia32CrPerfGlobalCtrl, perfMaxCustomCounters] at bound ⊢
    omega
  have select : ia32Perfevtsel0Addr + k ≠ ia32CrPerfGlobalCtrl := by
    simp only [ia32Perfevtsel0Addr, ia32CrPerfGlobalCtrl, perfMaxCustomCounters] at bound ⊢
    omega
  induction later with
  | now => exact ⟨rfl, rfl⟩
  | tick before t ih =>
    have idle := off
    rw [← ih.1] at idle
    rw [Pmu.tick_other (not_isPmc_of_isSelect ⟨by omega, by omega⟩), Pmu.tick_pmc _ _ _ bound, counts_off idle,
      if_neg Bool.false_ne_true]
    exact ih
  | global before v ih => rwa [Function.update_of_ne select, Function.update_of_ne pmc]

/-- When `main` has returned, its counters are torn down exactly if it has programmed none, no
PERFEVTSEL of a listed CPU selected an event before, and the last write to each counter has been 0. -/
theorem tornDown_written (width : 0 < hw.width)
    (run : (process b hw).Run C ⟨s, pool b cpus func iterations⟩ tr c) :
    TornDown b cpus tr c.state.msr ↔ (∀ x k, ¬ Programs b tr x k) ∧ ∀ x ∈ cpus, ∀ k < perfMaxCustomCounters,
      ¬ Selecting hw (s.msr x (ia32Perfevtsel0Addr + k)) ∧ written x (s.msr x) tr (ia32Pmc0 + k) = 0 := by
  have select {k : Nat} (bound : k < perfMaxCustomCounters) : ¬ isPmc (ia32Perfevtsel0Addr + k) :=
    not_isPmc_of_isSelect ⟨by omega, by omega⟩
  constructor
  · intro torn
    have none (x : Cpu) (k : Nat) : ¬ Programs b tr x k := by
      intro programs
      have bound := programs.1
      have disabled := torn.disabled x k programs
      obtain ⟨-, v, -, wrote⟩ := programs
      rw [msr_written run x (select bound), enable_written _ (fun v => rowWrite_of_run run bound) wrote] at disabled
      cases disabled
    refine ⟨none, fun x listed k bound => ?_⟩
    have zero := torn.still x listed k bound _ .now
    have now : c.state.msr x (ia32Perfevtsel0Addr + k) = s.msr x (ia32Perfevtsel0Addr + k) := by
      rw [msr_written run x (select bound), written_unprogrammed run bound (none x k) (List.prefix_refl tr)]
    have off : ¬ Selecting hw (s.msr x (ia32Perfevtsel0Addr + k)) := by
      rw [← now]
      intro selecting
      obtain ⟨S, later, left⟩ := advances_of_selecting width bound selecting zero
      exact left (torn.still x listed k bound S later)
    refine ⟨off, ?_⟩
    rw [← zero]
    refine (pmc_written run x bound fun before front => ?_).symm
    rwa [written_unprogrammed run bound (none x k) front]
  · rintro ⟨none, clean⟩
    refine ⟨fun x k programs => (none x k programs).elim, fun x listed k bound R later => ?_⟩
    obtain ⟨off, zero⟩ := clean x listed k bound
    have now : c.state.msr x (ia32Perfevtsel0Addr + k) = s.msr x (ia32Perfevtsel0Addr + k) := by
      rw [msr_written run x (select bound), written_unprogrammed run bound (none x k) (List.prefix_refl tr)]
    rw [(later.still bound (by rwa [now])).2, ← zero]
    refine pmc_written run x bound fun before front => ?_
    rwa [written_unprogrammed run bound (none x k) front]

/-- When all its writes have succeeded, that is: there is no CPU, or no row with a PERFEVTSEL,
and no PERFEVTSEL of a listed CPU selected an event before. -/
theorem tornDown_iff (width : 0 < hw.width) (run : (process b hw).Run C ⟨s, pool b cpus func iterations⟩ tr c)
    (returned : c.pool .main = .done ()) :
    (TornDown b cpus tr c.state.msr ↔ (∀ x k, ¬ Programs b tr x k) ∧ ∀ x ∈ cpus, ∀ k < perfMaxCustomCounters,
      ¬ Selecting hw (s.msr x (ia32Perfevtsel0Addr + k)) ∧ written x (s.msr x) tr (ia32Pmc0 + k) = 0) ∧
      ((∀ e ∈ tr, Writes e) → (TornDown b cpus tr c.state.msr ↔ cpus = [] ∨ NoSelect b ∧
        ∀ x ∈ cpus, ∀ k < perfMaxCustomCounters, ¬ Selecting hw (s.msr x (ia32Perfevtsel0Addr + k)))) := by
  refine ⟨tornDown_written width run, fun ok => ?_⟩
  have reset := written_reset run returned ok
  rw [tornDown_written width run, programs_iff run returned ok]
  constructor
  · rintro ⟨rfl | rows, clean⟩
    · exact Or.inl rfl
    · exact Or.inr ⟨rows, fun x listed k bound => (clean x listed k bound).1⟩
  · rintro (rfl | ⟨rows, off⟩)
    · exact ⟨Or.inl rfl, fun x listed => absurd listed List.not_mem_nil⟩
    · exact ⟨Or.inr rows, fun x listed k bound => ⟨off x listed k bound, reset x listed k bound⟩⟩

end

def hasReturned (c : Config Tid Action Action.Res World) : Bool :=
  match c.pool .main with
  | .done _ => true
  | .act .. => false

theorem done_of_hasReturned {c : Config Tid Action Action.Res World} (h : hasReturned c = true) :
    c.pool .main = .done () := by
  unfold hasReturned at h
  split at h
  · rename_i here
    exact here
  · cases h

def writes : Ev hw → Bool
  | .act .main (.msrWrite ..) false => false
  | _ => true

theorem writes_of {e : Ev hw} (h : writes e = true) : Writes e := by
  rintro x a v rfl
  cases h

/-- A build whose table has a fixed counter only. -/
def fixedOnly : Build :=
  { oneElement with
    nCustomCtr := 1
    nFixedCtr := 1
    counterTbl := .ofRows [⟨some "INSN_RETIRED", .fixedCtr, 0, 0, 0x38D, 0x309, 0⟩] (by decide) }

/-- A process that programs the fixed counters of an idle CPU. -/
theorem tornDown_fixedOnly : ∃ (tr : List (Ev .exact)) (c : Config Tid Action Action.Res World),
    (process fixedOnly .exact).Run (fun _ _ _ => True)
      ⟨.idle, pool fixedOnly [1] (fun _ => .bmSingleDArrayMultithreadedT1) fun _ => 0⟩ tr c ∧
      c.pool .main = .done () ∧ TornDown fixedOnly [1] tr c.state.msr := by
  have played : (playFrom fixedOnly .exact (fun _ _ _ => true) [1] (fun _ => .bmSingleDArrayMultithreadedT1) (fun _ => 0)
      .idle (List.replicate 24 (.inl .main) ++ List.replicate 10 (.inl (.worker 0)) ++
        List.replicate 14 (.inl .main))).any (fun x => hasReturned x.2 && x.1.all writes) = true := by decide +kernel
  obtain ⟨⟨tr, c⟩, found, here⟩ := (Option.any_eq_true ..).mp played
  simp only [Bool.and_eq_true] at here
  have returned := done_of_hasReturned here.1
  have run := (player fixedOnly .exact).play_run (C := fun _ _ _ => True) (fun _ _ _ _ => trivial) .start found
  have ok (e : Ev .exact) (member : e ∈ tr) : Writes e := writes_of (List.all_eq_true.mp here.2 e member)
  refine ⟨tr, c, run, returned, ((tornDown_iff (by decide) run returned).2 ok).mpr (Or.inr ⟨?_, ?_⟩)⟩
  · unfold NoSelect
    decide
  · rintro x - k - ⟨enabled, -⟩
    have idle : EventSelectRegister.enable.get (0 : Word) = 0 := by decide
    rw [show World.idle.msr x (ia32Perfevtsel0Addr + k) = 0 from rfl, idle] at enabled
    cases enabled

/-- After `main` has returned, PMC0 of CPU 1 advances on an L2 reference once
GLOBAL_CTRL is 0x0f. -/
theorem tornDown_leftEnabled : ∃ (tr : List (Ev .exact)) (c : Config Tid Action Action.Res World),
    (process oneElement .exact).Run (fun _ _ _ => True)
      ⟨.idle, pool oneElement [1] (fun _ => .bmSingleDArrayMultithreadedT1) fun _ => 0⟩ tr c ∧
      c.pool .main = .done () ∧ ¬ TornDown oneElement [1] tr c.state.msr := by
  have played : (playFrom oneElement .exact (fun _ _ _ => true) [1] (fun _ => .bmSingleDArrayMultithreadedT1)
      (fun _ => 0) .idle (List.replicate 63 (.inl .main) ++ List.replicate 10 (.inl (.worker 0)) ++
        List.replicate 14 (.inl .main))).any
      (fun x => hasReturned x.2 &&
        decide (Pmu.exact.tick (Function.update (x.2.state.msr 1) ia32CrPerfGlobalCtrl 0x0f) (0x24, 0xFF) ia32Pmc0 = 1)) =
      true := by decide +kernel
  obtain ⟨⟨tr, c⟩, found, here⟩ := (Option.any_eq_true ..).mp played
  simp only [Bool.and_eq_true, decide_eq_true_eq] at here
  obtain ⟨back, advances⟩ := here
  refine ⟨tr, c, (player oneElement .exact).play_run (fun _ _ _ _ => trivial) .start found, done_of_hasReturned back,
    fun torn => ?_⟩
  have start : Later .exact (c.state.msr 1) (c.state.msr 1) := .now
  have zero := torn.still 1 (by decide) 0 (by decide) _ ((start.global 0x0f).tick (0x24, 0xFF))
  rw [Nat.add_zero, advances] at zero
  cases zero

end PmcBench
