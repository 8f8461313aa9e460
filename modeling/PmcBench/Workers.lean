import PmcBench.Programming

/-!
# How main treats its workers

`main` creates worker `i` with `id` `i`, pins it to the `i`-th CPU, and touches
nothing the workers share. These facts hold of its whole program, whatever the
calls it makes return.
-/

namespace PmcBench
open Threads
open Program (forEach)

variable {b : Build}

/-- What `main` passes to the threads it creates, and where it pins them. -/
def Spawns (cpus : List Cpu) (iterations : Nat → Nat) : Action → Prop
  | .createThread i args => i < cpus.length ∧ args = ⟨iterations i, i, cpus.getD i 0⟩
  | .pinThread (.worker i) cpu => i < cpus.length ∧ cpu = cpus.getD i 0
  | _ => True

abbrev spawnView (cpus : List Cpu) (iterations : Nat → Nat) : View Action Action.Res :=
  .typestate (fun _ => Spawns cpus iterations) fun (_ : Unit) _ _ => ()

section
variable {φ : Action → Prop}

theorem all_assertRes (check : φ (.assert true)) (r : BitVec 32) : (assertRes r).All φ := by
  rw [assertRes_eq]
  exact ⟨check, fun _ => trivial⟩

theorem all_perform {o : Action} (h : φ o) : (perform o).All φ := (Program.all_call o).mpr h

def RowWrite (b : Build) (a : Nat) (v : Word) : Prop :=
  ∃ c ∈ pmcLoop b, (b.counterTbl.row c).ctrType = .customCtr ∧ a = (b.counterTbl.row c).cfgReg ∧
    v = evtReg (b.counterTbl.row c)

/-- `configure_counters` may write `v` to register `a`. -/
def MayWrite (b : Build) (a : Nat) (v : Word) : Prop :=
  a = ia32CrPerfGlobalCtrl ∨ a = ia32CrFixedCtrCtrl ∨ isPmc a ∨ RowWrite b a v

theorem all_programRows {cpu : Cpu} (read : ∀ a, φ (.msrRead cpu a)) (check : φ (.assert true)) {rows : List Nat}
    (write : ∀ c ∈ rows, (b.counterTbl.row c).ctrType = .customCtr →
      φ (.msrWrite cpu (b.counterTbl.row c).cfgReg (evtReg (b.counterTbl.row c)))) (value : Word) :
    (programRows b cpu rows value).All φ := by
  induction rows generalizing value with
  | nil => trivial
  | cons c rows ih =>
    have later := ih fun d member => write d (List.mem_cons_of_mem c member)
    rw [programRows_cons]
    split
    · rename_i custom
      have row : (programRow cpu (b.counterTbl.row c)).All φ := by
        refine ⟨read _, fun _ => (all_assertRes check _).bind fun _ => ?_⟩
        exact (all_perform (write c List.mem_cons_self custom)).bind fun _ => all_assertRes check _
      exact row.bind fun _ => later _
    · exact later _

theorem all_configureCpu (read : ∀ cpu a, φ (.msrRead cpu a))
    (write : ∀ cpu a v, MayWrite b a v → φ (.msrWrite cpu a v)) (check : φ (.assert true)) (set : Bool) (cpu : Cpu) :
    (configureCpu b cpu set).All φ := by
  have global (v : Word) : (perform (.msrWrite cpu ia32CrPerfGlobalCtrl v)).All φ :=
    all_perform (write _ _ _ (Or.inl rfl))
  have fixed (v : Word) : (perform (.msrWrite cpu ia32CrFixedCtrCtrl v)).All φ :=
    all_perform (write _ _ _ (Or.inr (Or.inl rfl)))
  have rows (value : Word) : (programRows b cpu (pmcLoop b) value).All φ :=
    all_programRows (read cpu) check
      (fun c member custom => write _ _ _ (Or.inr (Or.inr (Or.inr ⟨c, member, custom, rfl, rfl⟩)))) value
  have programCpu : (programCpu b cpu).All φ := by
    refine ⟨read .., fun r => (all_assertRes check _).bind fun _ => (fixed _).bind fun _ => ?_⟩
    exact (rows _).bind fun _ => (global _).bind fun _ => all_assertRes check _
  refine (global 0).bind fun _ => Program.All.bind (.forEach fun c member => ?_) fun _ => (fixed 0).bind fun _ => ?_
  · have bound := List.mem_range.mp member
    exact (all_perform (write _ _ _ (Or.inr (Or.inr (Or.inl ⟨by omega, by omega⟩))))).bind fun _ => trivial
  · cases set with
    | true => exact programCpu
    | false => trivial

theorem all_round (openMsr : ∀ cpu, φ (.openMsr cpu)) (read : ∀ cpu a, φ (.msrRead cpu a))
    (write : ∀ cpu a v, MayWrite b a v → φ (.msrWrite cpu a v)) (check : φ (.assert true)) (set : Bool) (cpu : Cpu) :
    (round b set cpu).All φ := by
  have configure := all_configureCpu read write check set cpu
  unfold round
  cases set with
  | true => exact ⟨openMsr cpu, fun _ => ⟨check, fun _ => configure⟩⟩
  | false => exact ⟨check, fun _ => configure⟩

theorem all_configureFrom (openMsr : ∀ cpu, φ (.openMsr cpu)) (read : ∀ cpu a, φ (.msrRead cpu a))
    (write : ∀ cpu a v, MayWrite b a v → φ (.msrWrite cpu a v)) (check : ∀ c, φ (.assert c)) (set : Bool) (i : Nat)
    (cpus : List Cpu) (cpuMsr : Nat → Option Cpu) : (configureFrom b set i cpus cpuMsr).All φ := by
  induction cpus generalizing i cpuMsr with
  | nil => trivial
  | cons cpu rest ih =>
    have body (h : Nat → Option Cpu) : (do
        perform (.assert (h i).isSome)
        configureCpu b ((h i).getD 0) set
        configureFrom b set (i + 1) rest h : Prog _).All φ :=
      (all_perform (check _)).bind fun _ => (all_configureCpu read write (check true) set _).bind fun _ => ih (i + 1) h
    cases set with
    | true => exact (all_perform (openMsr cpu)).bind fun _ => body _
    | false => exact body cpuMsr

theorem all_printHeader (fprintf : ∀ p, φ (.fprintf p)) : (printHeader b).All φ :=
  (all_perform (fprintf _)).bind fun _ => Program.All.bind (.forEach fun _ _ => all_perform (fprintf _)) fun _ =>
    all_perform (fprintf _)

theorem all_printRows (fprintf : ∀ p, φ (.fprintf p)) (counts : ∀ i, φ (.argsCounts i))
    (times : ∀ i j, φ (.argsTimes i j)) (values : ∀ i c j, φ (.argsValues i c j)) (i : Nat) : (printRows b i).All φ := by
  refine (all_perform (counts i)).bind fun n => .forEach fun j _ => (all_perform (times i j)).bind fun time => ?_
  refine (all_perform (fprintf _)).bind fun _ => Program.All.bind (.forEach fun c _ => ?_) fun _ =>
    all_perform (fprintf _)
  exact (all_perform (values i c j)).bind fun _ => all_perform (fprintf _)

theorem all_writeLog (fopen : φ .fopen) (fprintf : ∀ p, φ (.fprintf p)) (join : ∀ i, φ (.join i))
    (counts : ∀ i, φ (.argsCounts i)) (times : ∀ i j, φ (.argsTimes i j)) (values : ∀ i c j, φ (.argsValues i c j))
    (threads : Nat) : (writeLog b threads).All φ := by
  have all : (forEach (List.range threads) fun i => do
      perform (.join i)
      printRows b i).All φ := .forEach fun i _ => ⟨join i, fun _ => all_printRows fprintf counts times values i⟩
  apply (all_perform fopen).bind
  intro f
  dsimp only
  split
  · exact (all_printHeader fprintf).bind fun _ => all
  · exact all

end

/-- `configure_counters` in a view in which its actions keep `I`: it returns the handles
of the listed CPUs. -/
theorem wp_configureCounters {V : View Action Action.Res} {I : V.St → Prop} {Q : (Nat → Option Cpu) → V.St → Prop}
    {set : Bool} {cpus : List Cpu} {cpuMsr : Nat → Option Cpu} {s : V.St} (start : I s)
    (stable : ∀ t u, I t → V.rely t u → I u) (handles : set = false → ∀ j < cpus.length, cpuMsr j = cpus[j]?)
    (rounds : ∀ cpu, (round b set cpu).All (V.Preserves I))
    (finish : ∀ h t, (∀ j < cpus.length, h j = cpus[j]?) → I t → Q h t) :
    (configureCounters b cpuMsr cpus set).wp V Q s := by
  have step (done : List Cpu) (cpu : Cpu) (t : V.St) (_ : done ++ [cpu] <+: [] ++ cpus) (held : I t) :
      (round b set cpu).wp V (fun _ => I) t :=
    Program.wp_of_preserves stable (rounds cpu) held
  apply wp_configureFrom (I := fun _ => I) start (fun _ => stable) (by simpa using handles) step
  intro h t _ listed held
  exact finish h t (by simpa using listed) held

theorem main_spawns (b : Build) (cpus : List Cpu) (iterations : Nat → Nat) :
    (main b cpus iterations).wp (spawnView cpus iterations) (fun _ _ => True) () := by
  have fine {α : Type} {p : Prog α} (all : p.All (Spawns cpus iterations)) :
      p.wp (spawnView cpus iterations) (fun _ _ => True) () :=
    Program.wp_allowed (all.mono fun _ allowed _ => allowed)
  have one {o : Action} (h : Spawns cpus iterations o) : (perform o).All (Spawns cpus iterations) :=
    ⟨h, fun _ => trivial⟩
  have rounds (set : Bool) (cpu : Cpu) :
      (round b set cpu).All ((spawnView cpus iterations).Preserves fun _ => True) := by
    refine Program.All.mono (φ := Spawns cpus iterations) ?_ fun o allowed _ _ => ⟨allowed, fun _ _ _ => trivial⟩
    exact all_round (fun _ => trivial) (fun _ _ => trivial) (fun _ _ _ _ => trivial) trivial set cpu
  have log : (writeLog b cpus.length).All (Spawns cpus iterations) :=
    all_writeLog trivial (fun _ => trivial) (fun _ => trivial) (fun _ => trivial) (fun _ _ => trivial)
      (fun _ _ _ => trivial) _
  have create {cpuMsr : Nat → Option Cpu} (listed : ∀ j < cpus.length, cpuMsr j = cpus[j]?) :
      (createThreads cpuMsr cpus iterations).All (Spawns cpus iterations) := by
    refine .forEach fun i member => ?_
    have bound := List.mem_range.mp member
    have handle : (cpuMsr i).getD 0 = cpus.getD i 0 := by
      rw [listed i bound, List.getD_eq_getElem?_getD]
    refine Program.All.bind (one ⟨bound, ?_⟩) fun _ => one ⟨bound, rfl⟩
    rw [handle]
  unfold main
  apply Program.wp_seq (fine (one (by trivial)))
  intro _ _ _
  apply Program.wp_bind.mpr
  refine wp_configureCounters (I := fun _ => True) trivial (fun _ _ _ _ => trivial) nofun (rounds true)
    fun cpuMsr _ listed _ => ?_
  apply Program.wp_seq (fine (create listed))
  intro _ _ _
  apply Program.wp_seq (fine log)
  intro _ _ _
  apply Program.wp_seq (fine (one (by trivial)))
  intro _ _ _
  apply Program.wp_bind.mpr
  exact wp_configureCounters (I := fun _ => True) trivial (fun _ _ _ _ => trivial) (fun _ => listed) (rounds false)
    fun _ _ _ _ _ _ => trivial

/-! ### What main and the surroundings leave alone -/

namespace World

/-- The set-up flag, the hand-over flag and the shared array. -/
def SharedSame (s t : World) : Prop :=
  t.saFlag = s.saFlag ∧ t.canRun = s.canRun ∧ t.sharedArray = s.sharedArray

theorem actMain_shared {s t : World} {o : Action} {r : o.Res} (step : s.actMain b o r t) : s.SharedSame t := by
  obtain rfl | ⟨_, _, _, -, rfl⟩ | ⟨_, _, -, rfl⟩ | ⟨_, _, -, rfl⟩ | ⟨_, rfl⟩ := actMain_cases step <;>
    exact ⟨rfl, rfl, rfl⟩

/-- Of a worker's actions, four write memory that the workers share. -/
def writesShared : Action → Bool
  | .setFlag | .setCanRun | .mallocShared _ | .storeShared .. => true
  | _ => false

theorem actWorker_shared {s t : World} {i : Nat} {o : Action} {r : o.Res} (other : writesShared o = false)
    (step : s.actWorker b i o r t) : s.SharedSame t := by
  obtain ⟨u, l, shared, -, rfl⟩ := step
  suffices same : s.SharedSame u from same
  cases o
  case setFlag | setCanRun | mallocShared | storeShared => exact Bool.noConfusion other
  case threadExit | xorshift128plus | store2d =>
    obtain rfl : u = _ := by first | exact shared | exact shared.2
    exact ⟨rfl, rfl, rfl⟩
  case threadStart => obtain ⟨-, -, rfl⟩ := shared; exact ⟨rfl, rfl, rfl⟩
  case loadShared => obtain ⟨_, -, -, rfl⟩ := shared; exact ⟨rfl, rfl, rfl⟩
  case testFlag | waitCanRun | load2d | gettimeofday | readInto =>
    obtain ⟨-, rfl⟩ := shared
    exact ⟨rfl, rfl, rfl⟩
  case malloc | load | store | pushTime | counts | setValue | incCounts | fakeOut | point =>
    obtain rfl : u = s := shared
    exact ⟨rfl, rfl, rfl⟩
  all_goals exact shared.elim

theorem move_shared {hw : Pmu} {s t : World} {e : Move hw} (step : s.move e t) : s.SharedSame t := by
  cases e with
  | tick cpu tick => rw [show t = _ from step]; exact ⟨rfl, rfl, rfl⟩
  | clock now => rw [step.2]; exact ⟨rfl, rfl, rfl⟩
  | migrate i cpu => rw [step.2]; exact ⟨rfl, rfl, rfl⟩

/-! ### What happens to the workers -/

theorem actMain_worker {s t : World} {o : Action} {r : o.Res} (step : s.actMain b o r t) :
    t.worker = s.worker ∨
    (∃ i args, o = .createThread i args ∧
      t.worker = Function.update s.worker i { s.worker i with started := true, args := args }) ∨
    ∃ i cpu, o = .pinThread (.worker i) cpu ∧
      t.worker = Function.update s.worker i { s.worker i with pinned := true, cpu := cpu } := by
  obtain rfl | ⟨_, _, _, -, rfl⟩ | ⟨i, args, create, rfl⟩ | ⟨i, cpu, pin, rfl⟩ | ⟨_, rfl⟩ := actMain_cases step
  · exact Or.inl rfl
  · exact Or.inl rfl
  · exact Or.inr (Or.inl ⟨i, args, create, rfl⟩)
  · exact Or.inr (Or.inr ⟨i, cpu, pin, rfl⟩)
  · exact Or.inl rfl

theorem actMain_mem {s t : World} {o : Action} {r : o.Res} (step : s.actMain b o r t) (j : Nat) :
    (t.worker j).mem = (s.worker j).mem := by
  rcases actMain_worker step with same | ⟨i, _, -, now⟩ | ⟨i, _, -, now⟩
  · rw [same]
  all_goals
    rw [now]
    exact update_same Worker.mem (by rfl) j

theorem actMain_finished {s t : World} {o : Action} {r : o.Res} (step : s.actMain b o r t) (j : Nat) :
    (t.worker j).finished = (s.worker j).finished := by
  rcases actMain_worker step with same | ⟨i, _, -, now⟩ | ⟨i, _, -, now⟩
  · rw [same]
  all_goals
    rw [now]
    exact update_same Worker.finished (by rfl) j

/-- Only its last action changes a worker's record, apart from its memory. -/
theorem actShared_worker {s t : World} {i : Nat} {o : Action} {r : o.Res} (other : o ≠ .threadExit)
    (step : s.actShared i o r t) : t.worker = s.worker := by
  cases o
  case threadExit => exact (other rfl).elim
  case threadStart => obtain ⟨-, -, rfl⟩ := step; rfl
  case storeShared => obtain ⟨_, -, rfl⟩ := step; rfl
  case loadShared => obtain ⟨_, -, -, rfl⟩ := step; rfl
  case testFlag | waitCanRun | load2d | gettimeofday | readInto | xorshift128plus =>
    obtain ⟨-, rfl⟩ := step
    rfl
  case setFlag | setCanRun | mallocShared | store2d => rw [show t = _ from step]
  case malloc | load | store | pushTime | counts | setValue | incCounts | fakeOut | point => rw [show t = s from step]
  all_goals exact step.elim

theorem actWorker_finished {s t : World} {i : Nat} {o : Action} {r : o.Res} (step : s.actWorker b i o r t) (j : Nat) :
    (t.worker j).finished = ((s.worker j).finished || decide (j = i ∧ o = .threadExit)) := by
  by_cases same : j = i
  · subst same
    obtain ⟨u, l, shared, -, rfl⟩ := step
    by_cases exit : o = .threadExit
    · subst exit
      obtain rfl : u = _ := shared
      simp [setWorker]
    · simp [setWorker, actShared_worker exit shared, exit]
  · rw [(actWorker_frame step).others j same]
    simp [same]

theorem actMain_clock {s t : World} {o : Action} {r : o.Res} (step : s.actMain b o r t) : t.clock = s.clock := by
  obtain rfl | ⟨_, _, _, -, rfl⟩ | ⟨_, _, -, rfl⟩ | ⟨_, _, -, rfl⟩ | ⟨_, rfl⟩ := actMain_cases step <;> rfl

/-- The scheduler moves a worker that is not pinned. -/
theorem move_worker {hw : Pmu} {s t : World} {e : Move hw} (step : s.move e t) :
    t.worker = s.worker ∨ ∃ i cpu, (s.worker i).pinned = false ∧
      t.worker = Function.update s.worker i { s.worker i with cpu := cpu } := by
  cases e with
  | tick cpu tick => rw [show t = _ from step]; exact Or.inl rfl
  | clock now => rw [step.2]; exact Or.inl rfl
  | migrate i cpu =>
    obtain ⟨free, rfl⟩ := step
    exact Or.inr ⟨i, cpu, free, rfl⟩

theorem move_mem {hw : Pmu} {s t : World} {e : Move hw} (step : s.move e t) (j : Nat) :
    (t.worker j).mem = (s.worker j).mem := by
  rcases move_worker step with same | ⟨i, cpu, -, now⟩
  · rw [same]
  · rw [now]
    exact update_same Worker.mem (by rfl) j

theorem move_record {hw : Pmu} {s t : World} {e : Move hw} (step : s.move e t) (j : Nat) :
    (t.worker j).started = (s.worker j).started ∧ (t.worker j).finished = (s.worker j).finished := by
  rcases move_worker step with same | ⟨i, cpu, -, now⟩
  · rw [same]
    exact ⟨rfl, rfl⟩
  · rw [now]
    exact ⟨update_same Worker.started (by rfl) j, update_same Worker.finished (by rfl) j⟩

theorem move_clock {hw : Pmu} {s t : World} {e : Move hw} (step : s.move e t) : s.clock ≤ t.clock := by
  cases e with
  | tick cpu tick => rw [show t = _ from step]; exact BitVec.le_refl _
  | clock now => rw [step.2]; exact step.1
  | migrate i cpu => rw [step.2]; exact BitVec.le_refl _

/-! ### The arguments main has given to the workers -/

/-- Each worker that has been created has the arguments `main` makes for it. -/
def Created (cpus : List Cpu) (iterations : Nat → Nat) (s : World) : Prop :=
  ∀ i, (s.worker i).started = true → i < cpus.length ∧ (s.worker i).args = ⟨iterations i, i, cpus.getD i 0⟩

section
variable {cpus : List Cpu} {iterations : Nat → Nat} {s t : World}

/-- What `threadStart` tells worker `i`. -/
def Given (cpus : List Cpu) (iterations : Nat → Nat) (i : Nat) : (o : Action) → o.Res → Prop
  | .threadStart, args => i < cpus.length ∧ args = ⟨iterations i, i, cpus.getD i 0⟩
  | _, _ => True

theorem Created.given {i : Nat} {o : Action} {r : o.Res} (held : Created cpus iterations s)
    (step : s.actWorker b i o r t) : Given cpus iterations i o r := by
  obtain ⟨u, l, shared, -⟩ := step
  cases o with
  | threadStart =>
    obtain ⟨started, rfl, -⟩ := shared
    exact held i started
  | _ => trivial

theorem Initial.created (initial : s.Initial) : Created cpus iterations s := by
  intro i started
  rw [initial.started i] at started
  cases started

theorem Created.same (held : Created cpus iterations s)
    (same : ∀ i, (t.worker i).started = (s.worker i).started ∧ (t.worker i).args = (s.worker i).args) :
    Created cpus iterations t := by
  intro i started
  obtain ⟨started_, args⟩ := same i
  rw [started_] at started
  rw [args]
  exact held i started

theorem Created.worker {i : Nat} {o : Action} {r : o.Res} (held : Created cpus iterations s)
    (step : s.actWorker b i o r t) : Created cpus iterations t := by
  have frame := actWorker_frame step
  apply held.same
  intro j
  by_cases same : j = i
  · subst same
    exact ⟨frame.started, frame.args⟩
  · rw [frame.others j same]
    exact ⟨rfl, rfl⟩

theorem Created.update {i : Nat} {w : Worker} (held : Created cpus iterations s)
    (now : t.worker = Function.update s.worker i w)
    (fine : w.started = true → i < cpus.length ∧ w.args = ⟨iterations i, i, cpus.getD i 0⟩) :
    Created cpus iterations t := by
  intro j started
  rw [now] at started ⊢
  by_cases same : j = i
  · subst same
    rw [Function.update_self] at started ⊢
    exact fine started
  · rw [Function.update_of_ne same] at started ⊢
    exact held j started

theorem Created.main {o : Action} {r : o.Res} (held : Created cpus iterations s) (allowed : Spawns cpus iterations o)
    (step : s.actMain b o r t) : Created cpus iterations t := by
  rcases actMain_worker step with same | ⟨i, args, rfl, now⟩ | ⟨i, cpu, rfl, now⟩
  · exact held.same fun i => by rw [same]; exact ⟨rfl, rfl⟩
  · exact held.update now fun _ => allowed
  · exact held.update now (held i)

theorem Created.move {hw : Pmu} {e : Move hw} (held : Created cpus iterations s) (step : s.move e t) :
    Created cpus iterations t := by
  rcases move_worker step with same | ⟨i, cpu, -, now⟩
  · exact held.same fun i => by rw [same]; exact ⟨rfl, rfl⟩
  · exact held.update now (held i)

end

end World

end PmcBench
