import PmcBench.SampleLog
import PmcBench.Schedules
import PmcBench.Threads.Progress

/-!
# When main can return

`main` waits for its threads, and thread 1 may wait for thread 0. Whatever the order
of steps so far, the process can be brought to its end exactly when every thread takes
the time of its samples or has none, and thread 1 does not wait for a benchmark that
never sets `can_run`.
-/

namespace PmcBench
open Threads
open Program (forEach)

variable {b : Build} {hw : Pmu} {cpus : List Cpu} {func : Nat → Benchmark} {iterations : Nat → Nat}

/-- `fopen` does not return NULL. -/
def LogOpens (_ : List (Ev hw)) (_ : World) : Ev hw → Prop
  | .act .main .fopen ok => ok = true
  | _ => True

/-- Thread 1 does not wait for a thread that never lets it run. -/
def Released (cpus : List Cpu) (func : Nat → Benchmark) : Prop :=
  1 < cpus.length → (func 1).gated = true → (func 0).gated = true

/-- The log of every thread can be written. -/
def Writable (cpus : List Cpu) (func : Nat → Benchmark) (iterations : Nat → Nat) : Prop :=
  ∀ i < cpus.length, (func i).timed = true ∨ (func i).samples (iterations i) = 0

/-! ### What main needs for its next step -/

/-- What the steps of `main` depend on. -/
structure Front where
  opened : Bool
  started : Nat → Bool
  finished : Nat → Bool
  prof : Nat → Profile

namespace Front

/-- `main` has what it needs for its action, but that it may wait for a thread. -/
def Allows (threads : Nat) (v : Front) : Action → Prop
  | .assert cond => cond = true
  | .join i => i < threads ∧ ∀ k < threads, v.started k = true
  | .argsTimes i j => j < (v.prof i).times.length
  | .fprintf _ | .fclose => v.opened = true
  | o => o.ofWorker = false

def next (v : Front) : (o : Action) → o.Res → Front → Prop
  | .createThread i _, _, v' => v' = { v with started := Function.update v.started i true }
  | .join i, _, v' => v.finished i = true ∧ (v.prof i).counts ≤ (v.prof i).times.length ∧ v' = v
  | .argsCounts i, r, v' => r = (v.prof i).counts ∧ v' = v
  | .fopen, ok, v' => ok = true ∧ v' = { v with opened := true }
  | _, _, v' => v' = v

end Front

/-- The threads leave the log and the records of finished threads alone. -/
abbrev frontView (threads : Nat) : View Action Action.Res where
  St := Front
  rely v v' := v'.opened = v.opened ∧ v'.started = v.started ∧
    ∀ i, v.finished i = true → v'.finished i = true ∧ v'.prof i = v.prof i
  allow := Front.Allows threads
  next := Front.next

namespace Front
variable {threads : Nat} {v : Front}

def Made (n : Nat) (v : Front) : Prop := ∀ k < n, v.started k = true

def Ready (threads : Nat) (v : Front) : Prop := v.opened = true ∧ v.Made threads

/-- Thread `i` has finished with `counts` samples. -/
def Joined (threads i counts : Nat) (v : Front) : Prop :=
  v.Ready threads ∧ v.finished i = true ∧ (v.prof i).counts = counts ∧ counts ≤ (v.prof i).times.length

theorem Made.stable {n : Nat} (v v' : Front) (held : v.Made n) (moved : (frontView threads).rely v v') : v'.Made n := by
  unfold Made
  rw [moved.2.1]
  exact held

theorem Ready.stable (v v' : Front) (held : v.Ready threads) (moved : (frontView threads).rely v v') :
    v'.Ready threads := ⟨moved.1.trans held.1, held.2.stable v v' moved⟩

theorem Joined.stable {i counts : Nat} (v v' : Front) (held : v.Joined threads i counts)
    (moved : (frontView threads).rely v v') : v'.Joined threads i counts := by
  obtain ⟨ready, done, number, enough⟩ := held
  obtain ⟨done', same⟩ := moved.2.2 i done
  exact ⟨ready.stable v v' moved, done', by rw [same]; exact number, by rw [same]; exact enough⟩

theorem keeps {K : Front → Prop} {o : Action} (allowed : ∀ v, K v → v.Allows threads o)
    (same : ∀ (v : Front) r v', v.next o r v' → v' = v) : (frontView threads).Preserves K o := by
  refine fun v held => ⟨allowed v held, fun r v' step => ?_⟩
  rw [same v r v' step]
  exact held

theorem wp_keeps {α : Type} {p : Prog α} {K : Front → Prop} {Q : α → Front → Prop}
    (stable : ∀ v v', K v → (frontView threads).rely v v' → K v') (all : p.All ((frontView threads).Preserves K))
    (held : K v) (rest : ∀ a v, K v → Q a v) : p.wp (frontView threads) Q v :=
  Program.wp_mono (Program.wp_of_preserves stable all held) fun a v held => rest a v held

theorem all_rounds {K : Front → Prop} (set : Bool) (cpu : Cpu) :
    (round b set cpu).All ((frontView threads).Preserves K) :=
  all_round (fun _ => keeps (fun _ _ => rfl) fun _ _ _ => id) (fun _ _ => keeps (fun _ _ => rfl) fun _ _ _ => id)
    (fun _ _ _ _ => keeps (fun _ _ => rfl) fun _ _ _ => id) (keeps (fun _ _ => rfl) fun _ _ _ => id) set cpu

theorem wp_createThreads {cpuMsr : Nat → Option Cpu} :
    (createThreads cpuMsr cpus iterations).wp (frontView cpus.length) (fun _ => Made cpus.length) v := by
  refine Program.wp_forEach_range (V := frontView cpus.length) (I := fun n v => Made n v)
    (fun k none => absurd none (Nat.not_lt_zero k)) (fun _ => Made.stable) ?_ fun _ => id
  intro i v _ held
  have moves : ∀ v v' : Front, v.Made i → (frontView cpus.length).rely v v' → v'.Made i := Made.stable
  refine Program.wp_act moves held fun u held => ⟨rfl, fun _ u' created => ?_⟩
  have next : u'.Made (i + 1) := by
    intro k bound
    rw [show u' = _ from created]
    by_cases new : k = i
    · subst new
      exact Function.update_self ..
    · exact (Function.update_of_ne new ..).trans (held k (by omega))
  exact wp_keeps Made.stable (all_perform (keeps (fun _ _ => rfl) fun _ _ _ => id)) next fun _ _ => id

theorem wp_printRows {i counts : Nat} (held : v.Joined threads i counts) :
    (printRows b i).wp (frontView threads) (fun _ => Ready threads) v := by
  refine Program.wp_act Joined.stable held fun u held => ⟨rfl, fun k u' ⟨number, same⟩ => ?_⟩
  subst same
  obtain rfl : k = counts := number.trans held.2.2.1
  have print (p : Piece) : (perform (.fprintf p)).All ((frontView threads).Preserves (Joined threads i k)) :=
    all_perform (keeps (fun v held => held.1.1) fun _ _ _ => id)
  refine wp_keeps Joined.stable (.forEach fun j member => ?_) held fun _ v held => held.1
  have bound := List.mem_range.mp member
  have time : (frontView threads).Preserves (Joined threads i k) (.argsTimes i j) :=
    keeps (fun v held => Nat.lt_of_lt_of_le bound held.2.2.2) fun _ _ _ => id
  refine (all_perform time).bind fun _ => (print _).bind fun _ => ?_
  refine Program.All.bind (.forEach fun c _ => ?_) fun _ => print _
  have value : (frontView threads).Preserves (Joined threads i k) (.argsValues i c j) :=
    keeps (fun _ _ => rfl) fun _ _ _ => id
  exact (all_perform value).bind fun _ => print _

theorem wp_writeLog (held : v.Made threads) :
    (writeLog b threads).wp (frontView threads) (fun _ => Ready threads) v := by
  refine Program.wp_act Made.stable held fun u held => ⟨rfl, fun ok u' ⟨opens, now⟩ => ?_⟩
  subst opens now
  have ready : Ready threads { u with opened := true } := ⟨rfl, held⟩
  have print (p : Piece) : (perform (.fprintf p)).All ((frontView threads).Preserves (Ready threads)) :=
    all_perform (keeps (fun v held => held.1) fun _ _ _ => id)
  have header : (printHeader b).All ((frontView threads).Preserves (Ready threads)) :=
    (print _).bind fun _ => Program.All.bind (.forEach fun _ _ => print _) fun _ => print _
  show (printHeader b >>= fun _ => _).wp _ _ _
  apply Program.wp_seq (Program.wp_of_preserves Ready.stable header ready)
  intro _ v held
  refine Program.wp_forEach_range (I := fun _ => Ready threads) held (fun _ => Ready.stable) ?_ fun _ => id
  intro i v bound held
  refine Program.wp_act Ready.stable held fun u held => ⟨⟨bound, held.2⟩, fun _ u' ⟨done, enough, same⟩ => ?_⟩
  subst same
  exact wp_printRows ⟨held, done, rfl, enough⟩

theorem wp_main : (main b cpus iterations).wp (frontView cpus.length) (fun _ _ => True) v := by
  have quiet (set : Bool) {Q : (Nat → Option Cpu) → Front → Prop} {v : Front} {h : Nat → Option Cpu}
      (listed : set = false → ∀ j < cpus.length, h j = cpus[j]?)
      (rest : ∀ h v, (∀ j < cpus.length, h j = cpus[j]?) → Q h v) :
      (configureCounters b h cpus set).wp (frontView cpus.length) Q v :=
    wp_configureCounters (I := fun _ => True) trivial (fun _ _ _ _ => trivial) listed (all_rounds set)
      fun h v listed _ => rest h v listed
  unfold main
  rw [Program.call_bind]
  refine Program.wp_act (I := fun _ => True) (fun _ _ _ _ => trivial) trivial fun u _ => ⟨rfl, fun _ u' _ => ?_⟩
  refine Program.wp_bind.mpr (quiet true (by nofun) fun h v listed => ?_)
  apply Program.wp_seq wp_createThreads
  intro _ v made
  apply Program.wp_seq (wp_writeLog made)
  intro _ v ready
  unfold cleanUp
  rw [Program.call_bind]
  refine Program.wp_act Ready.stable ready fun u held => ⟨held.1, fun _ u' _ => ?_⟩
  apply Program.wp_bind.mpr
  refine quiet false (fun _ => listed) fun h v _ => ?_
  exact fun _ _ => trivial

end Front

def front (s : World) : Front :=
  ⟨s.file.isSome, fun i => (s.worker i).started, fun i => (s.worker i).finished, fun i => (s.worker i).mem.prof⟩

theorem front_main {tr : List (Ev hw)} {s s' : World} {o : Action} {r : o.Res} (step : s.actMain b o r s')
    (meets : LogOpens tr s (.act .main o r)) (enough : ∀ i, o = .join i → (s.worker i).finished = true →
      (s.worker i).mem.prof.counts ≤ (s.worker i).mem.prof.times.length) :
    (front s).next o r (front s') := by
  have same (file : s'.file.isSome = s.file.isSome) (started : ∀ i, (s'.worker i).started = (s.worker i).started) :
      front s' = front s := by
    unfold front
    rw [file]
    congr 1
    · funext i; exact started i
    · funext i; exact World.actMain_finished step i
    · funext i; rw [World.actMain_mem step]
  cases o
  case join i =>
    obtain ⟨done, rfl⟩ := step
    exact ⟨done, enough i rfl done, rfl⟩
  case argsCounts => obtain ⟨read, rfl⟩ := step; exact ⟨read, rfl⟩
  case fopen =>
    obtain rfl : r = true := meets
    rw [show s' = _ from step]
    exact ⟨rfl, rfl⟩
  case fprintf =>
    obtain ⟨log, opened, rfl⟩ := step
    exact same (by rw [opened]; rfl) fun _ => rfl
  case createThread i args =>
    obtain rfl : s' = _ := step
    unfold front
    congr 1
    · funext j
      by_cases here : j = i
      · subst here; simp [World.setWorker]
      · simp [World.setWorker, here]
    · funext j; exact World.update_same Worker.finished (by rfl) j
    · funext j; exact World.update_same (fun w => w.mem.prof) (by rfl) j
  case pinThread who cpu =>
    cases who with
    | main => obtain rfl : s' = s := step; rfl
    | worker i =>
      obtain rfl : s' = _ := step
      exact same rfl fun j => World.update_same Worker.started (by rfl) j
  case openMsr => obtain rfl : s' = s := step; rfl
  case assert | fclose | msrRead | argsTimes | argsValues => obtain ⟨-, rfl⟩ := step; rfl
  case msrWrite => rcases step with ⟨-, rfl⟩ | ⟨-, rfl⟩ <;> rfl
  all_goals exact step.elim

/-- The proof that `main` never lacks what it needs, given how its threads end. -/
def frontGuarantee (b : Build) (hw : Pmu) (cpus : List Cpu) (func : Nat → Benchmark) (iterations : Nat → Nat)
    (writable : Writable cpus func iterations) :
    RelyGuarantee (process b hw) (samplesGuarantee b hw LogOpens cpus func iterations).Kept where
  view
    | .main => frontView cpus.length
    | .worker _ => .free
  abs
    | .main, _, s => front s
    | .worker _, _, _ => ()
  inv _ _ := True
  own {t tr s o r s'} _ allowed ok step := by
    cases t with
    | main =>
      obtain ⟨meets, samples, -⟩ := ok
      refine front_main step meets ?_
      rintro i rfl done
      obtain ⟨number, times, length⟩ := samples.recorded i done
      simp only [diary] at number times length
      rw [number, times, length]
      rcases writable i allowed.1 with timed | none
      · rw [timed]
        exact Nat.le_refl _
      · rw [none]
        exact Nat.zero_le _
    | worker i => rfl
  others {t u tr s o r s'} different _ allowed ok step := by
    cases u with
    | worker j => exact .refl
    | main =>
      cases t with
      | main => exact (different rfl).elim
      | worker i =>
        obtain ⟨-, samples, permitted⟩ := ok
        have running : exited i tr = false := (permitted (.worker i) o r rfl).1
        have frame := World.actWorker_frame step
        refine .single ⟨congrArg Option.isSome frame.file, ?_, fun j done => ?_⟩
        · funext j
          by_cases same : j = i
          · subst same; exact frame.started
          · exact congrArg Worker.started (frame.others j same)
        · have other : j ≠ i := by
            rintro rfl
            have gone : exited j tr = true := (samples.exited j).symm.trans done
            rw [running] at gone
            cases gone
          have same := frame.others j other
          exact ⟨(congrArg Worker.finished same).trans done, congrArg (fun w => w.mem.prof) same⟩
  moves {u tr s e s'} _ ok step := by
    cases u with
    | worker j => exact .refl
    | main =>
      have same : front s' = front s := by
        unfold front
        congr 1
        · cases e with
          | tick cpu tick => rw [show s' = _ from step]
          | clock now => rw [step.2]
          | migrate i cpu => rw [step.2]; rfl
        · funext i; exact (World.move_record step i).1
        · funext i; exact (World.move_record step i).2
        · funext i; rw [World.move_mem step]
      show Relation.ReflTransGen _ (front s) (front s')
      rw [same]
  inv_act _ _ _ _ := trivial
  inv_env _ _ _ := trivial

/-! ### What a thread can be waiting for -/

/-- A worker that cannot take its next step waits for `can_run` or for the array. -/
theorem worker_canStep {C : List (Ev hw) → World → Ev hw → Prop} {tr : List (Ev hw)}
    {c : Config Tid Action Action.Res World} {i : Nat} {o : Action} {next : o.Res → Prog Unit}
    (meets : ∀ r, C tr c.state (.act (.worker i) o r)) (here : c.pool (.worker i) = .act o next)
    (worker : o.ofWorker = true) (started : (c.state.worker i).started = true) :
    (process b hw).CanStep C tr c (.worker i) ∨ (o = .waitCanRun ∧ c.state.canRun = false) ∨
      ((∃ j, o = .loadShared j) ∨ ∃ j v, o = .storeShared j v) ∧ c.state.sharedArray = none := by
  have answers (r : o.Res) (t : World) (answered : c.state.answerShared i o = some (r, t)) :
      (process b hw).CanStep C tr c (.worker i) := by
    obtain ⟨shared, own⟩ := World.answerShared_sound (b := b) answered
    exact ⟨o, next, r, _, here, ⟨t, _, shared, own, rfl⟩, meets r⟩
  cases o
  case threadStart => exact Or.inl (answers _ _ (if_pos started))
  case waitCanRun =>
    cases set : c.state.canRun with
    | true => exact Or.inl (answers _ _ (if_pos set))
    | false => exact Or.inr (Or.inl ⟨rfl, rfl⟩)
  case loadShared j =>
    cases array : c.state.sharedArray with
    | none => exact Or.inr (Or.inr ⟨Or.inl ⟨j, rfl⟩, rfl⟩)
    | some buf => exact Or.inl (answers _ _ (by rw [World.answerShared, array]; rfl))
  case storeShared j v =>
    cases array : c.state.sharedArray with
    | none => exact Or.inr (Or.inr ⟨Or.inr ⟨j, v, rfl⟩, rfl⟩)
    | some buf => exact Or.inl (answers _ _ (by rw [World.answerShared, array]; rfl))
  all_goals
    first
    | exact Or.inl (answers _ _ rfl)
    | cases worker

/-- `main` with all it needs can only wait for a thread. -/
theorem main_canStep {tr : List (Ev hw)} {c : Config Tid Action Action.Res World} {threads : Nat} {o : Action}
    {next : o.Res → Prog Unit} (here : c.pool .main = .act o next) (allowed : (front c.state).Allows threads o) :
    (process b hw).CanStep LogOpens tr c .main ∨ ∃ i, o = .join i ∧ (c.state.worker i).finished = false := by
  have answers (r : o.Res) (t : Solo) (answered : Solo.handle b {} { world := c.state } o = some (r, t))
      (meets : LogOpens tr c.state (.act .main o r)) : (process b hw).CanStep LogOpens tr c .main :=
    ⟨o, next, r, t.world, here, Solo.handle_sound answered, meets⟩
  cases o
  case join i =>
    cases done : (c.state.worker i).finished with
    | true => exact Or.inl (answers _ _ (if_pos done) trivial)
    | false => exact Or.inr ⟨i, rfl, done⟩
  case assert cond => exact Or.inl (answers _ _ (if_pos allowed) trivial)
  case argsTimes i j =>
    have found : (c.state.worker i).mem.prof.times[j]? = some (c.state.worker i).mem.prof.times[j] :=
      List.getElem?_eq_getElem allowed
    exact Or.inl (answers _ _ (by rw [Solo.handle, found]; rfl) trivial)
  case fprintf p =>
    obtain ⟨log, opened⟩ := Option.isSome_iff_exists.mp (show c.state.file.isSome = true from allowed)
    exact Or.inl (answers _ _ (by rw [Solo.handle, opened]; rfl) trivial)
  case fclose => exact Or.inl (answers _ _ (if_pos allowed) trivial)
  case fopen => exact Or.inl (answers true _ rfl rfl)
  case pinThread who cpu => cases who <;> exact Or.inl (answers _ _ rfl trivial)
  all_goals
    first
    | exact Or.inl (answers _ _ rfl trivial)
    | cases allowed

/-- The worker that has set the flag can publish the array. -/
theorem publisher_canStep {tr : List (Ev hw)} {c : Config Tid Action Action.Res World}
    (staged : Staged cpus iterations tr c.state)
    (threads : ∀ i, (c.pool (.worker i)).wp (stageView cpus iterations i) (fun _ => Stage.Between) (stage i tr))
    (set : c.state.saFlag = true) (null : c.state.sharedArray = none) :
    ∃ i < cpus.length, (process b hw).CanStep LogOpens tr c (.worker i) := by
  obtain ⟨i, publishing⟩ := staged.publisher set null
  have turn := threads i
  rw [publishing] at turn
  refine ⟨i, staged.listed i (by rw [publishing]; nofun), ?_⟩
  cases here : c.pool (.worker i) with
  | done a =>
    rw [here] at turn
    rcases turn _ .refl with none | none <;> cases none
  | act o next =>
    rw [here] at turn
    obtain ⟨worker, allowed⟩ := (Program.wp_now turn).1
    cases o
    case mallocShared n => exact ⟨_, next, (), _, here, ⟨_, _, rfl, rfl, rfl⟩, trivial⟩
    case threadStart | loadShared | storeShared => cases allowed
    all_goals rcases allowed with none | none <;> cases none

section
variable {s : World} {tr : List (Ev hw)} {c : Config Tid Action Action.Res World}

/-- A created worker that has not ended takes a step, or another worker does, unless it waits for `can_run`. -/
theorem created_canStep (initial : s.Initial)
    (run : (process b hw).Run LogOpens ⟨s, pool b cpus func iterations⟩ tr c) {i : Nat} (bound : i < cpus.length)
    (started : (c.state.worker i).started = true) (running : (c.state.worker i).finished = false) :
    (∃ k < cpus.length, (process b hw).CanStep LogOpens tr c (.worker k)) ∨
      (∃ next, c.pool (.worker i) = .act .waitCanRun next) ∧ c.state.canRun = false := by
  obtain ⟨staged, stages⟩ := stage_run initial run
  obtain ⟨-, ended⟩ := samples_run initial run
  cases here : c.pool (.worker i) with
  | done a =>
    rw [ended i here] at running
    cases running
  | act o next =>
    have turn := stages i
    rw [here] at turn
    obtain ⟨worker, allowed⟩ := (Program.wp_now turn).1
    rcases (worker_canStep (fun _ => trivial) here worker started : (process b hw).CanStep LogOpens tr c _ ∨ _) with
      step | ⟨rfl, closed⟩ | ⟨shared, null⟩
    · exact Or.inl ⟨i, bound, step⟩
    · exact Or.inr ⟨⟨next, rfl⟩, closed⟩
    · have aware : stage i tr = .aware := by
        rcases shared with ⟨j, rfl⟩ | ⟨j, v, rfl⟩ <;> exact allowed
      exact Or.inl (publisher_canStep staged stages (staged.known i (Or.inr aware)) null)

/-- Before `main` has returned, `main` or one of its threads can take a step. -/
theorem process_canStep (initial : s.Initial) (writable : Writable cpus func iterations)
    (released : Released cpus func)
    (run : (process b hw).Run LogOpens ⟨s, pool b cpus func iterations⟩ tr c) (going : c.pool .main ≠ .done ()) :
    ∃ t ∈ Tid.main :: (List.range cpus.length).map .worker, (process b hw).CanStep LogOpens tr c t := by
  have listed {k : Nat} (bound : k < cpus.length) : Tid.worker k ∈ Tid.main :: (List.range cpus.length).map .worker :=
    List.mem_cons_of_mem _ (List.mem_map_of_mem (List.mem_range.mpr bound))
  have kept := (samplesGuarantee b hw LogOpens cpus func iterations).kept
    (samplesPost b hw LogOpens cpus func iterations) run (samples_start initial) (samples_threads initial)
  obtain ⟨-, threads⟩ := (frontGuarantee b hw cpus func iterations writable).run (fun _ _ _ => True) kept trivial
    fun t => by
      cases t with
      | main => exact Front.wp_main
      | worker i => exact Program.wp_free
  have turn := threads .main
  cases here : c.pool .main with
  | done a => exact (going here).elim
  | act o next =>
    rw [here] at turn
    have allowed : (front c.state).Allows cpus.length o := (Program.wp_now turn).1
    rcases (main_canStep here allowed : (process b hw).CanStep LogOpens tr c _ ∨ _) with step | ⟨i, rfl, running⟩
    · exact ⟨.main, List.mem_cons_self, step⟩
    -- `main` waits for thread `i`, and all threads have been created.
    obtain ⟨bound, created⟩ := allowed
    rcases created_canStep initial run bound (created i bound) running with ⟨k, below, step⟩ | ⟨⟨rest, waits⟩, closed⟩
    · exact ⟨_, listed below, step⟩
    -- Thread 1 waits for thread 0, which sets `can_run` before it ends.
    obtain ⟨gate, gates⟩ := gate_run initial run
    have permitted := gates i
    rw [waits] at permitted
    obtain ⟨rfl, gated⟩ := (Program.wp_now permitted).1
    have first : 0 < cpus.length := by omega
    have running : (c.state.worker 0).finished = false := by
      by_contra done
      have set := gate.passed 0 (by decide) (gate.finished 0 (by decide) (eq_true_of_ne_false done) (released bound gated))
      rw [closed] at set
      cases set
    rcases created_canStep initial run first (created 0 first) running with ⟨k, below, step⟩ | ⟨⟨rest, waits⟩, -⟩
    · exact ⟨_, listed below, step⟩
    · have permitted := gates 0
      rw [waits] at permitted
      exact absurd (Program.wp_now permitted).1.1 (by decide)

end

/-- Whatever has happened so far, `main` can still return, exactly when it can write the log
of every thread and thread 1 does not wait in vain. The table is one for which the source's loops
end and keep to the stores; an access through a null `shared_array`, which would kill the process,
is a step of no run. -/
theorem main_canReturn_iff (_some : 0 < b.counterTbl.size) (_small : b.counterTbl.size < 256)
    (_rows : b.counterTbl.size ≤ b.nCustomCtr) {s : World} (initial : s.Initial) :
    (∀ tr c, (process b hw).Run LogOpens ⟨s, pool b cpus func iterations⟩ tr c → ∃ more c',
      (process b hw).Run LogOpens ⟨s, pool b cpus func iterations⟩ (tr ++ more) c' ∧ c'.pool .main = .done ()) ↔
      Writable cpus func iterations ∧ Released cpus func := by
  constructor
  · intro returns
    obtain ⟨tr, c, run, ended⟩ := returns [] _ .start
    have complete := csv_of_closing initial run (Or.inr ended)
    obtain ⟨samples, -⟩ := samples_run initial run
    refine ⟨fun i bound => ?_, fun two gated => ?_⟩
    · obtain ⟨number, times, length⟩ := samples.recorded i (complete.finished i bound)
      simp only [diary] at number times length
      have enough : (c.state.worker i).mem.prof.counts ≤ (c.state.worker i).mem.prof.times.length := complete.timed i bound
      rw [number, times, length] at enough
      cases timed : (func i).timed with
      | true => exact Or.inl rfl
      | false =>
        rw [timed] at enough
        exact Or.inr (Nat.le_zero.mp enough)
    · obtain ⟨gate, -⟩ := gate_run initial run
      exact gate.released (gate.passed 1 (by decide) (gate.finished 1 (by decide) (complete.finished 1 two) gated))
  · rintro ⟨writable, released⟩ tr c run
    have distinct : (Tid.main :: (List.range cpus.length).map .worker).Nodup := by
      refine List.nodup_cons.mpr ⟨by simp, ?_⟩
      exact List.nodup_range.map fun i j same => Tid.worker.inj same
    exact run.completes distinct fun tr d run going => process_canStep initial writable released run going

/-- Two threads of the first handshake benchmark. -/
theorem main_canReturn_pair : ∃ more c',
    (process oneElement .exact).Run LogOpens
      ⟨.idle, pool oneElement [1, 2] (fun _ => .bmSingleDArrayMultithreadedT1) fun _ => 3⟩ ([] ++ more) c' ∧
      c'.pool .main = .done () :=
  (main_canReturn_iff (by decide) (by decide) (by decide) World.idle_initial).mpr ⟨fun _ _ => Or.inl rfl, fun _ _ => rfl⟩ [] _ .start

end PmcBench
