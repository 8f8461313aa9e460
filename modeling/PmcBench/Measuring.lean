import PmcBench.CsvLog

/-!
# The counters while threads run

`main` programs every CPU before it creates a thread, and writes no MSR again until all
threads have finished. So while a thread runs, every listed CPU counts what its table
selects, and has done so since the programming.
-/

namespace PmcBench
open Threads
open Program (forEach)

variable {b : Build} {hw : Pmu} {cpus : List Cpu} {func : Nat → Benchmark} {iterations : Nat → Nat}

/-! ### Programming before the first thread -/

/-- The last word written to GLOBAL_CTRL of every listed CPU is the enable mask. -/
def Panel.Armed (b : Build) (cpus : List Cpu) (m : Panel) : Prop := ∀ x ∈ cpus, (m x).2 = some (enableMask b)

def ArmsFirst (b : Build) (hw : Pmu) (cpus : List Cpu) : (t : Tid) → ((msrGuard b hw).view t).St → Action → Prop
  | .main, m, .createThread _ _ => Panel.Armed b cpus m
  | _, _, _ => True

abbrev armView (b : Build) (hw : Pmu) (cpus : List Cpu) : View Action Action.Res :=
  ((msrGuard b hw).allowing (ArmsFirst b hw cpus)).view .main

theorem armView_neutral {K : Panel → Prop} {o : Action} (allowed : ∀ m, K m → (armView b hw cpus).allow m o)
    (same : ∀ m r m', (msrView b hw).next m o r m' → m' = m) : (armView b hw cpus).Preserves K o := by
  intro m held
  refine ⟨allowed m held, fun r m' step => ?_⟩
  rw [same m r m' step]
  exact held

theorem wp_configureCounters_arm {cpuMsr : Nat → Option Cpu} {set : Bool} {m : Panel} (spares : SparesGlobal b)
    (handles : set = false → ∀ j < cpus.length, cpuMsr j = cpus[j]?) :
    (configureCounters b cpuMsr cpus set).wp (armView b hw cpus)
      (fun h m => (∀ j < cpus.length, h j = cpus[j]?) ∧ ∀ x ∈ cpus, Settled b set (m x)) m := by
  have free {o : Action} (other : ∀ i args, o ≠ .createThread i args) :
      ((msrView b hw).allowing fun m o => ArmsFirst b hw cpus .main m o).Preserves (fun _ => True) o := by
    intro m _
    refine ⟨?_, fun _ _ _ => trivial⟩
    cases o with
    | createThread i args => exact (other i args rfl).elim
    | _ => trivial
  have rounds (cpu : Cpu) : (round b set cpu).All
      (((msrView b hw).allowing fun m o => ArmsFirst b hw cpus .main m o).Preserves fun _ => True) :=
    all_round (fun _ => free nofun) (fun _ _ => free nofun) (fun _ _ _ _ => free nofun) (free nofun) set cpu
  have second : (configureCounters b cpuMsr cpus set).wp
      ((msrView b hw).allowing fun m o => ArmsFirst b hw cpus .main m o) (fun _ _ => True) m :=
    wp_configureCounters (I := fun _ => True) trivial (fun _ _ _ _ => trivial) handles rounds fun _ _ _ _ => trivial
  have both := Program.wp_and (V := msrView b hw) (wp_configureCounters_msr spares handles) second
  exact Program.wp_mono both fun _ _ h => h.1

theorem main_arms (spares : SparesGlobal b) (m : Panel) :
    (main b cpus iterations).wp (armView b hw cpus) (fun _ _ => True) m := by
  have anyhow {α : Type} {p : Prog α} {m : Panel} {Q : α → Panel → Prop}
      (all : p.All ((armView b hw cpus).Preserves fun _ => True)) (rest : ∀ a m, Q a m) :
      p.wp (armView b hw cpus) Q m :=
    Program.wp_mono (Program.wp_of_preserves (fun _ _ _ _ => trivial) all trivial) fun a m _ => rest a m
  have still {o : Action} (allowed : ∀ m, (armView b hw cpus).allow m o)
      (same : ∀ m r m', (msrView b hw).next m o r m' → m' = m) : (armView b hw cpus).Preserves (fun _ => True) o :=
    armView_neutral (fun m _ => allowed m) same
  unfold main
  apply Program.wp_bind.mpr
  refine anyhow ⟨still (fun _ => ⟨trivial, trivial⟩) fun _ _ _ => id, fun _ => trivial⟩ fun _ m => ?_
  apply Program.wp_seq (wp_configureCounters_arm spares (by nofun))
  rintro handles m ⟨listed, settled⟩
  have create : (createThreads handles cpus iterations).All ((armView b hw cpus).Preserves (Panel.Armed b cpus)) := by
    refine .forEach fun i _ => ⟨armView_neutral (fun m armed => ⟨trivial, armed⟩) fun _ _ _ => id, fun _ => ?_⟩
    exact ⟨armView_neutral (fun m armed => ⟨trivial, trivial⟩) fun _ _ _ => id, fun _ => trivial⟩
  have stable (m m' : Panel) (armed : Panel.Armed b cpus m) (moved : (armView b hw cpus).rely m m') :
      Panel.Armed b cpus m' := by
    have armed : ∀ x ∈ cpus, Settled b true (m x) := armed
    exact settled_moves armed moved
  apply Program.wp_seq (Program.wp_of_preserves stable create settled)
  intro _ m _
  apply Program.wp_bind.mpr
  refine anyhow (all_writeLog ?_ ?_ ?_ ?_ ?_ ?_ _) fun _ m => ?_
  case _ => exact still (fun _ => ⟨trivial, trivial⟩) fun _ _ _ => id
  case _ => exact fun _ => still (fun _ => ⟨trivial, trivial⟩) fun _ _ _ => id
  case _ => exact fun _ => still (fun _ => ⟨trivial, trivial⟩) fun _ _ _ => id
  case _ => exact fun _ => still (fun _ => ⟨trivial, trivial⟩) fun _ _ _ => id
  case _ => exact fun _ _ => still (fun _ => ⟨trivial, trivial⟩) fun _ _ _ => id
  case _ => exact fun _ _ _ => still (fun _ => ⟨trivial, trivial⟩) fun _ _ _ => id
  apply Program.wp_bind.mpr
  refine anyhow ⟨still (fun _ => ⟨trivial, trivial⟩) fun _ _ _ => id, fun _ => trivial⟩ fun _ m => ?_
  apply Program.wp_bind.mpr
  exact Program.wp_mono (wp_configureCounters_arm spares fun _ => listed) fun _ _ _ _ _ => trivial

/-! ### No MSR write while a thread runs -/

structure Crew where
  started : Nat → Bool
  finished : Nat → Bool

def Crew.Idle (c : Crew) : Prop := ∀ i, c.started i = true → c.finished i = true

abbrev crewView : View Action Action.Res where
  St := Crew
  rely c c' := c'.started = c.started ∧ ∀ i, c.finished i = true → c'.finished i = true
  allow c o := ∀ x a v, o = .msrWrite x a v → c.Idle
  next c
    | .createThread i _, _, c' => c' = { c with started := Function.update c.started i true }
    | .join i, _, c' => c.finished i = true ∧ c' = c
    | _, _, c' => c' = c

/-- The threads up to `created` may have been created, and those up to `joined` have finished. -/
def Crew.Upto (created joined : Nat) (c : Crew) : Prop :=
  (∀ i, c.started i = true → i < created) ∧ ∀ i < joined, c.finished i = true

namespace Crew
variable {created joined : Nat} {c c' : Crew}

theorem Upto.rely (held : c.Upto created joined) (moved : crewView.rely c c') : c'.Upto created joined := by
  obtain ⟨started, finished⟩ := moved
  unfold Upto
  rw [started]
  exact ⟨held.1, fun i bound => finished i (held.2 i bound)⟩

theorem Upto.moves (held : c.Upto created joined) (moved : Relation.ReflTransGen crewView.rely c c') :
    c'.Upto created joined := by
  induction moved with
  | refl => exact held
  | tail _ step ih => exact ih.rely step

theorem Upto.idle (held : c.Upto joined joined) : c.Idle := fun i started => held.2 i (held.1 i started)

theorem upto_keeps {o : Action} (idle : created = joined ∨ ∀ x a v, o ≠ .msrWrite x a v)
    (same : ∀ c r c', crewView.next c o r c' → c' = c) : crewView.Preserves (Upto created joined) o := by
  intro c held
  refine ⟨?_, fun r c' step => ?_⟩
  · rintro x a v rfl
    obtain rfl := idle.resolve_right fun other => other x a v rfl
    exact held.idle
  · rw [same c r c' step]
    exact held

theorem wp_upto {α : Type} {p : Prog α} (all : p.All (crewView.Preserves (Upto created joined)))
    (held : c.Upto created joined) : p.wp crewView (fun _ => Upto created joined) c :=
  Program.wp_of_preserves (fun _ _ held moved => held.rely moved) all held

theorem wp_joins (held : c.Upto joined 0) : (writeLog b joined).wp crewView (fun _ => Upto joined joined) c := by
  have quiet {n : Nat} {o : Action} (other : ∀ x a v, o ≠ .msrWrite x a v)
      (same : ∀ c r c', crewView.next c o r c' → c' = c) : crewView.Preserves (Upto joined n) o :=
    upto_keeps (Or.inr other) same
  have rows (n i : Nat) : (printRows b i).All (crewView.Preserves (Upto joined n)) :=
    all_printRows (fun _ => quiet nofun fun _ _ _ => id) (fun _ => quiet nofun fun _ _ _ => id)
      (fun _ _ => quiet nofun fun _ _ _ => id) (fun _ _ _ => quiet nofun fun _ _ _ => id) i
  have header : (printHeader b).All (crewView.Preserves (Upto joined 0)) :=
    all_printHeader fun _ => quiet nofun fun _ _ _ => id
  have loop {c : Crew} (held : c.Upto joined 0) : (forEach (List.range joined) fun i => do
      perform (.join i)
      printRows b i).wp crewView (fun _ => Upto joined joined) c := by
    refine Program.wp_forEach_range (I := fun n => Upto joined n) held (fun _ _ _ held moved => held.rely moved) ?_
      fun _ => id
    intro n c _ held d moved
    refine ⟨nofun, fun _ d' step => ?_⟩
    obtain ⟨done, rfl⟩ := step
    have held : d'.Upto joined n := held.moves moved
    apply wp_upto (rows (n + 1) n)
    refine ⟨held.1, fun i bound => ?_⟩
    rcases Nat.lt_succ_iff_lt_or_eq.mp bound with earlier | rfl
    · exact held.2 i earlier
    · exact done
  unfold writeLog
  have opening : (perform .fopen).All (crewView.Preserves (Upto joined 0)) :=
    (Program.all_call _).mpr (quiet nofun fun _ _ _ => id)
  apply Program.wp_seq (wp_upto opening held)
  intro f c held
  dsimp only
  split
  · exact Program.wp_seq (wp_upto header held) fun _ _ => loop
  · exact loop held

theorem main_waits (fresh : ∀ i, c.started i = false) : (main b cpus iterations).wp crewView (fun _ _ => True) c := by
  have none : c.Upto 0 0 := by
    refine ⟨fun i started => ?_, nofun⟩
    rw [fresh i] at started
    cases started
  have stable (n : Nat) (c c' : Crew) (held : c.Upto n n) (moved : crewView.rely c c') : c'.Upto n n := held.rely moved
  have rounds (n : Nat) (set : Bool) (cpu : Cpu) : (round b set cpu).All (crewView.Preserves (Upto n n)) :=
    all_round (fun _ => upto_keeps (Or.inl rfl) fun _ _ _ => id) (fun _ _ => upto_keeps (Or.inl rfl) fun _ _ _ => id)
      (fun _ _ _ _ => upto_keeps (Or.inl rfl) fun _ _ _ => id) (upto_keeps (Or.inl rfl) fun _ _ _ => id) set cpu
  unfold main
  apply Program.wp_seq (wp_upto ((Program.all_call _).mpr (upto_keeps (Or.inl rfl) fun _ _ _ => id)) none)
  intro _ c held
  apply Program.wp_bind.mpr
  refine wp_configureCounters held (stable 0) nofun (rounds 0 true) fun handles c listed held => ?_
  have create : (createThreads handles cpus iterations).wp crewView (fun _ => Upto cpus.length 0) c := by
    refine Program.wp_of_preserves (fun _ _ held moved => held.rely moved) (.forEach fun i member => ?_)
      ⟨fun i started => absurd (held.1 i started) (Nat.not_lt_zero i), nofun⟩
    refine Program.All.bind ((Program.all_call _).mpr ?_) fun _ =>
      (Program.all_call _).mpr (upto_keeps (Or.inr nofun) fun _ _ _ => id)
    intro c held
    refine ⟨nofun, fun _ c' step => ?_⟩
    obtain rfl : c' = _ := step
    refine ⟨fun j started => ?_, nofun⟩
    by_cases same : j = i
    · subst same
      exact List.mem_range.mp member
    · exact held.1 j (by simpa [same] using started)
  apply Program.wp_seq create
  intro _ c held
  apply Program.wp_seq (wp_joins held)
  intro _ c held
  apply Program.wp_seq (wp_upto ((Program.all_call _).mpr (upto_keeps (Or.inl rfl) fun _ _ _ => id)) held)
  intro _ c held
  apply Program.wp_bind.mpr
  exact wp_configureCounters held (stable _) (fun _ => listed) (rounds _ false) fun _ _ _ _ _ _ => trivial

end Crew

/-! ### The counters are armed -/

/-- While a thread runs, every listed CPU has counted since it was programmed. -/
def Armed (b : Build) (cpus : List Cpu) (tr : List (Ev hw)) (s : World) : Prop :=
  ∀ i, (s.worker i).started = true → (s.worker i).finished = false →
    ∀ x ∈ cpus, ∃ ticks, since x tr = some (enableMask b, ticks)

def crew (s : World) : Crew := ⟨fun i => (s.worker i).started, fun i => (s.worker i).finished⟩

theorem crew_main {s s' : World} {o : Action} {r : o.Res} (step : s.actMain b o r s') :
    crewView.next (crew s) o r (crew s') := by
  have same (worker : ∀ i, (s'.worker i).started = (s.worker i).started ∧ (s'.worker i).finished = (s.worker i).finished) :
      crew s' = crew s := by
    unfold crew
    congr 1
    · funext i; rw [(worker i).1]
    · funext i; rw [(worker i).2]
  have record (i : Nat) {w : Worker} (now : s'.worker = Function.update s.worker i w)
      (still : w.started = (s.worker i).started ∧ w.finished = (s.worker i).finished) : crew s' = crew s := by
    apply same
    intro j
    rw [now]
    exact ⟨World.update_same Worker.started still.1 j, World.update_same Worker.finished still.2 j⟩
  have cases_ := World.actMain_worker step
  cases o
  case createThread i args =>
    obtain rfl : s' = _ := step
    unfold crew
    congr 1
    · funext j
      by_cases here : j = i
      · subst here; simp [World.setWorker]
      · simp [World.setWorker, here]
    · funext j
      exact World.update_same Worker.finished (by rfl) j
  case join i => exact ⟨step.1, by rw [step.2]⟩
  all_goals
    rcases cases_ with kept | ⟨i, args, created, -⟩ | ⟨i, cpu, -, now⟩
    · exact same fun i => by rw [kept]; exact ⟨rfl, rfl⟩
    · cases created
    · exact record i now ⟨rfl, rfl⟩

theorem since_main {x : Cpu} {tr : List (Ev hw)} {o : Action} {r : o.Res} (other : ∀ x a v, o ≠ .msrWrite x a v) :
    since x (tr ++ [(.act .main o r : Ev hw)]) = since x tr := by
  rw [since_snoc]
  cases o with
  | msrWrite y a v => exact (other y a v rfl).elim
  | _ => rfl

theorem Armed.main {tr : List (Ev hw)} {s s' : World} {o : Action} {r : o.Res} (held : Armed b cpus tr s)
    (allowed : crewView.allow (crew s) o) (arms : ∀ i args, o = .createThread i args → Panel.Armed b cpus (panel tr s))
    (step : s.actMain b o r s') : Armed b cpus (tr ++ [.act .main o r]) s' := by
  intro i started running x listed
  have worker := World.actMain_finished step i
  rw [worker] at running
  by_cases write : ∃ x a v, o = .msrWrite x a v
  · obtain ⟨y, a, v, rfl⟩ := write
    have before : (s.worker i).started = true := by
      rcases World.actMain_worker step with same | ⟨j, args, created, -⟩ | ⟨j, cpu, pinned, -⟩
      · rw [same] at started
        exact started
      · cases created
      · cases pinned
    have done : (s.worker i).finished = true := allowed y a v rfl i before
    rw [done] at running
    cases running
  · rw [since_main fun y a v same => write ⟨y, a, v, same⟩]
    by_cases create : ∃ j args, o = .createThread j args
    · obtain ⟨j, args, same⟩ := create
      have word := arms j args same x listed
      obtain ⟨⟨v, ticks⟩, last, rfl⟩ := Option.map_eq_some_iff.mp word
      exact ⟨ticks, last⟩
    · refine held i ?_ running x listed
      rcases World.actMain_worker step with same | ⟨j, args, created, -⟩ | ⟨j, cpu, -, now⟩
      · rw [same] at started
        exact started
      · exact (create ⟨j, args, created⟩).elim
      · rw [now] at started
        by_cases here : i = j
        · subst here
          rw [Function.update_self] at started
          exact started
        · rw [Function.update_of_ne here] at started
          exact started

def crewGuard (b : Build) (hw : Pmu) (cpus : List Cpu) :
    RelyGuarantee (process b hw) ((msrGuard b hw).allowing (ArmsFirst b hw cpus)).Kept where
  view
    | .main => crewView
    | .worker _ => .free
  abs
    | .main, _, s => crew s
    | .worker _, _, _ => ()
  inv tr s := Armed b cpus tr s
  own {t tr s o r s'} held allowed kept step := by
    cases t with
    | main => exact crew_main step
    | worker i => rfl
  others {t u tr s o r s'} different held allowed kept step := by
    cases u with
    | worker j => exact .refl
    | main =>
      cases t with
      | main => exact (different rfl).elim
      | worker i =>
        have frame := World.actWorker_frame step
        refine .single ⟨funext fun j => ?_, fun j done => ?_⟩
        · by_cases same : j = i
          · subst same
            exact frame.started
          · exact congrArg Worker.started (frame.others j same)
        · have now := World.actWorker_finished step j
          exact now.trans (by rw [show (s.worker j).finished = true from done, Bool.true_or])
  moves {u tr s e s'} held kept step := by
    cases u with
    | worker j => exact .refl
    | main =>
      show Relation.ReflTransGen _ (crew s) (crew s')
      have same : crew s' = crew s := by
        unfold crew
        congr 1
        · funext i; exact (World.move_record step i).1
        · funext i; exact (World.move_record step i).2
      rw [same]
  inv_act {t tr s o r s'} held allowed kept step := by
    cases t with
    | main =>
      refine held.main allowed (fun i args same => ?_) step
      subst same
      exact (kept.2.2 .main _ _ rfl).2
    | worker i =>
      intro j started running x listed
      rw [since_snoc, sinceStep_worker step]
      rw [World.actWorker_finished step, Bool.or_eq_false_iff] at running
      refine held j ?_ running.1 x listed
      by_cases same : j = i
      · subst same
        rw [(World.actWorker_frame step).started] at started
        exact started
      · rw [(World.actWorker_frame step).others j same] at started
        exact started
  inv_env {tr s e s'} held kept step := by
    intro j started running x listed
    obtain ⟨started_, finished_⟩ := World.move_record step j
    rw [started_] at started
    rw [finished_] at running
    obtain ⟨ticks, last⟩ := held j started running x listed
    rw [since_snoc, last]
    cases e with
    | tick y t =>
      by_cases same : y = x
      · exact ⟨ticks ++ [t], by simp [sinceStep, same]⟩
      · exact ⟨ticks, by simp [sinceStep, same]⟩
    | _ => exact ⟨ticks, rfl⟩

/-- What every step of a run can rely on. -/
structure Measures (b : Build) (hw : Pmu) (cpus : List Cpu) (tr : List (Ev hw)) (s : World) (e : Ev hw) : Prop where
  ok : AllOk tr s e
  guarded : ∀ x, Guarded b (s.msr x) (since x tr)
  armed : Armed b cpus tr s
  waits : ∀ x a v ok, e = .act .main (.msrWrite x a v) ok → (crew s).Idle

/-- The counters are armed while threads run, and `main` writes no MSR then. -/
theorem measuring (spares : SparesGlobal b) {s : World} (initial : s.Initial) {tr : List (Ev hw)}
    {c : Config Tid Action Action.Res World}
    (run : (process b hw).Run AllOk ⟨s, pool b cpus func iterations⟩ tr c) :
    (process b hw).Run (Measures b hw cpus) ⟨s, pool b cpus func iterations⟩ tr c := by
  have arms := ((msrGuard b hw).allowing (ArmsFirst b hw cpus)).kept
    (fun t => match t with | .main => fun _ _ => True | .worker _ => fun _ _ => True) run (fun x => .none _) fun t => by
      cases t with
      | main => exact main_arms spares _
      | worker i =>
        exact Program.wp_mono (Program.wp_of_preserves (I := fun _ => True) (fun _ _ _ _ => trivial)
          (Program.All.of_forall fun o _ _ => ⟨⟨trivial, trivial⟩, fun _ _ _ => trivial⟩) trivial) fun _ _ _ => trivial
  have waits := (crewGuard b hw cpus).kept
    (fun t => match t with | .main => fun _ _ => True | .worker _ => fun _ _ => True) arms
    (fun i started => by rw [initial.started i] at started; cases started) fun t => by
      cases t with
      | main => exact Crew.main_waits initial.started
      | worker i => exact Program.wp_free
  apply waits.mono
  intro tr s e kept
  obtain ⟨⟨ok, guarded, -⟩, armed, allowed⟩ := kept
  refine ⟨ok, guarded, armed, ?_⟩
  rintro x a v ok rfl
  exact allowed .main _ _ rfl x a v rfl

end PmcBench
