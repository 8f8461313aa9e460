import PmcBench.Bookkeeping
import PmcBench.CsvLog

/-!
# What the workers do in their lives

Two histories of each worker: how far it is with the block `if (sa_flag == false)`, and
whether it has passed its hand-over. Each is a proof by rely and guarantee about every
run of the process.
-/

namespace PmcBench
open Threads
open Program (forEach)

variable {b : Build} {hw : Pmu} {cpus : List Cpu} {func : Nat → Benchmark} {iterations : Nat → Nat}

/-! ### The actions of a benchmark -/

/-- The actions of a thread that is not `main`. -/
def Action.ofWorker : Action → Bool
  | .openMsr _ | .msrWrite .. | .msrRead .. | .assert _ | .pinThread .. | .createThread .. | .join _ | .argsCounts _
  | .argsTimes .. | .argsValues .. | .fopen | .fprintf _ | .fclose => false
  | _ => true

/-- Work on data that no other thread has. -/
def Action.private : Action → Bool
  | .xorshift128plus | .load2d .. | .store2d .. | .malloc .a _ | .load .a _ | .store .a .. | .fakeOut .. => true
  | _ => false

/-- The benchmarks that measure on `shared_array`. -/
def Benchmark.shares : Benchmark → Bool
  | bmSingleDArrayMultithreadedT1 | bmSingleDArrayMultithreadedT2 | bmSingleDArrayMultithreadedT3
  | bmSingleDArrayMultithreadedT4 | bmSingleDArrayWriteMultithreaded => true
  | _ => false

section
variable {args : ThreadArgs} {bm : Benchmark} {φ : Action → Prop}

/-- Stated through an equation, so that using it never evaluates the 1024 rows. -/
theorem all_fillArr2d {p : Prog Unit} (same : p = fillArr2d) (store : ∀ i j v, φ (.store2d i j v)) : p.All φ := by
  unfold fillArr2d at same
  generalize List.range 1024 = rows at same
  generalize List.range 16 = columns at same
  rw [same]
  exact .forEach fun i _ => .forEach fun j _ => ⟨store .., fun _ => trivial⟩

/-- What holds of the actions of a benchmark that works on data of its own. -/
theorem Benchmark.all_private (alone : bm.shares = false) (own : ∀ o, Action.ofSampling o = true → φ o)
    (opened : φ (.point .window)) (start : ∀ n, φ (.malloc .storeStart n)) (stop : ∀ n, φ (.malloc .storeEnd n))
    (data : ∀ o, Action.private o = true → φ o) : (bm.body b args).All φ := by
  have stores (size : Nat) {p : Prog Unit} (rest : p.All φ) : (do mallocStores size; p : Prog Unit).All φ :=
    (all_mallocStores start stop size).bind fun _ => rest
  have one {o : Action} (priv : o.private = true) {p : o.Res → Prog Unit} (rest : ∀ r, (p r).All φ) :
      (Program.act o p).All φ := ⟨data o priv, rest⟩
  have each {ι : Type} {l : List ι} {body : ι → Prog Unit} (fine : ∀ i, (body i).All φ) : (forEach l body).All φ :=
    .forEach fun i _ => fine i
  have loads (l : List Nat) : (forEach l fun j => do let _ ← perform (.load .a j)).All φ :=
    each fun _ => one rfl fun _ => trivial
  have fill (l : List Nat) (v : Nat → Word) : (forEach l fun i => perform (.store .a i (v i))).All φ :=
    each fun _ => one rfl fun _ => trivial
  have loop (k : Nat) (measured before after : Nat → Prog Unit) (inner : ∀ i, (measured i).All φ)
      (first : ∀ i, (before i).All φ) (last : ∀ i, (after i).All φ) : (samplingLoop k fun i => do
        window b args (measured i)
        before i
        perform .incCounts
        after i).All φ :=
    all_samplingLoop own fun i _ => (all_window own opened (inner i)).bind fun _ => (first i).bind fun _ =>
      ⟨own _ rfl, fun _ => last i⟩
  cases bm with
  | bmCacheLineTest =>
    -- An `n` without a value, so that nothing evaluates `L2_SIZE` modulo 2^32.
    obtain ⟨n, same⟩ : ∃ n, n = b.intL2Size := ⟨_, rfl⟩
    simp only [Benchmark.body, PmcBench.bmCacheLineTest]
    rw [← same]
    refine stores _ (one rfl fun _ => (fill ..).bind fun _ => ?_)
    refine loop _ _ (fun _ => pure ()) _ (fun _ => loads _) (fun _ => trivial) fun i => one rfl fun _ => ?_
    exact (fill ..).bind fun _ => one rfl fun _ => trivial
  | bmSingleDArray =>
    refine stores _ (one rfl fun _ => (fill ..).bind fun _ => ?_)
    exact loop _ _ (fun _ => perform (.fakeOut (some .a) 8)) (fun _ => pure ()) (fun _ => loads _)
      (fun _ => one rfl fun _ => trivial) fun _ => trivial
  | bm2dArray =>
    show (PmcBench.bm2dArray b args).All φ
    unfold PmcBench.bm2dArray
    generalize filled : fillArr2d = p
    generalize List.range 1024 = rows
    generalize List.range 16 = columns
    refine stores _ ((all_fillArr2d filled.symm fun _ _ _ => data _ rfl).bind fun _ => ?_)
    exact loop _ _ (fun _ => pure ()) (fun _ => pure ())
      (fun _ => each fun i => each fun j => one (o := .load2d i j) rfl fun _ => trivial) (fun _ => trivial) fun _ => trivial
  | bm2dArrayNonCont =>
    show (PmcBench.bm2dArrayNonCont b args).All φ
    unfold PmcBench.bm2dArrayNonCont
    generalize filled : fillArr2d = p
    generalize List.range 1024 = rows
    generalize List.range 16 = columns
    refine stores _ ((all_fillArr2d filled.symm fun _ _ _ => data _ rfl).bind fun _ => ?_)
    exact loop _ _ (fun _ => pure ()) (fun _ => pure ())
      (fun _ => each fun j => each fun i => one (o := .load2d i j) rfl fun _ => trivial) (fun _ => trivial) fun _ => trivial
  | cacheWork =>
    refine stores _ ((all_perform (data _ rfl)).bind fun _ => ?_)
    refine Program.All.bind (each fun i => each fun j => ?_) fun _ => ?_
    · exact one (o := .xorshift128plus) rfl fun x => one (o := .store .a (i * 10 + j) (x >>> 11)) rfl fun _ => trivial
    refine loop _ _ (fun _ => pure ()) (fun _ => pure ()) (fun _ => each fun i => each fun j => ?_)
      (fun _ => trivial) fun _ => trivial
    exact one (o := .load .a (i * 10 + j)) rfl fun x => one (o := .store .a (i * 10 + j) (2 * x)) rfl fun _ => trivial
  | onedArrays =>
    refine stores _ ((all_perform (data _ rfl)).bind fun _ => ?_)
    refine Program.All.bind (each fun i => ?_) fun _ => ?_
    · exact one (o := .xorshift128plus) rfl fun x => one (o := .store .a i (x >>> 11)) rfl fun _ => trivial
    exact loop _ (fun _ => pure ()) (fun _ => pure ()) (fun _ => pure ())
      (fun _ => trivial) (fun _ => trivial) fun _ => trivial
  | _ => cases alone

end

/-- What an action of a worker makes of the two flags and of the null pointer. -/
theorem World.flags_worker {s s' : World} {i : Nat} {o : Action} {r : o.Res} (step : s.actWorker b i o r s') :
    s'.saFlag = (s.saFlag || decide (o = .setFlag)) ∧ s'.canRun = (s.canRun || decide (o = .setCanRun)) ∧
      (s'.sharedArray = none → s.sharedArray = none ∧ ∀ n, o ≠ .mallocShared n) := by
  by_cases other : writesShared o = false
  · obtain ⟨flag, canRun, array⟩ := actWorker_shared other step
    have notFlag : o ≠ .setFlag := by rintro rfl; cases other
    have notCanRun : o ≠ .setCanRun := by rintro rfl; cases other
    rw [flag, canRun, array, decide_eq_false notFlag, decide_eq_false notCanRun, Bool.or_false, Bool.or_false]
    refine ⟨rfl, rfl, fun null => ⟨null, ?_⟩⟩
    rintro n rfl
    cases other
  · obtain ⟨t, l, shared, -, rfl⟩ := step
    cases o with
    | setFlag | setCanRun =>
      obtain rfl : t = _ := shared
      exact ⟨by simp [setWorker], by simp [setWorker], fun null => ⟨null, fun n same => by cases same⟩⟩
    | mallocShared n =>
      obtain rfl : t = _ := shared
      exact ⟨by simp [setWorker], by simp [setWorker], fun null => by cases null⟩
    | storeShared j v =>
      obtain ⟨buf, array, rfl⟩ := shared
      exact ⟨by simp [setWorker], by simp [setWorker], fun null => by cases null⟩
    | _ => exact (other rfl).elim

/-! ### The block `if (sa_flag == false)` -/

/-- How far a worker is with the set-up of the shared array. -/
inductive Stage where
  | waiting | unaware
  /-- It has set the flag and not yet published the array. -/
  | publishing
  /-- It has seen the flag set, or published the array. -/
  | aware
  deriving DecidableEq

namespace Stage

def step (st : Stage) : (o : Action) → o.Res → Stage
  | .threadStart, _ => unaware
  | .testFlag, r => if r = true then aware else st
  | .setFlag, _ => publishing
  | .mallocShared _, _ => aware
  | _, _ => st

/-- After setting the flag a worker publishes the array next; it uses the array when it
knows that the flag is set. -/
def Allows (st : Stage) (o : Action) : Prop :=
  o.ofWorker = true ∧
    match o with
    | .mallocShared _ => st = publishing
    | .loadShared _ | .storeShared .. => st = aware
    | .threadStart => st = waiting
    | _ => st = unaware ∨ st = aware

def event (i : Nat) (st : Stage) : Ev hw → Stage
  | .act (.worker j) o r => if j = i then st.step o r else st
  | _ => st

end Stage

def stage (i : Nat) (tr : List (Ev hw)) : Stage := tr.foldl (Stage.event i) .waiting

theorem stage_snoc (i : Nat) (tr : List (Ev hw)) (e : Ev hw) : stage i (tr ++ [e]) = (stage i tr).event i e := by
  simp [stage]

theorem stage_own {i : Nat} {o : Action} {r : o.Res} (tr : List (Ev hw)) :
    stage i (tr ++ [.act (.worker i) o r]) = (stage i tr).step o r := by
  rw [stage_snoc, Stage.event, if_pos rfl]

theorem stage_other {i j : Nat} {o : Action} {r : o.Res} (tr : List (Ev hw)) (other : j ≠ i) :
    stage i (tr ++ [.act (.worker j) o r]) = stage i tr := by
  rw [stage_snoc, Stage.event, if_neg other]

/-- The flag and the array, as the workers' stages leave them. -/
structure Staged (cpus : List Cpu) (iterations : Nat → Nat) (tr : List (Ev hw)) (s : World) : Prop where
  created : s.Created cpus iterations
  listed : ∀ i, stage i tr ≠ .waiting → i < cpus.length
  known : ∀ i, stage i tr = .publishing ∨ stage i tr = .aware → s.saFlag = true
  publisher : s.saFlag = true → s.sharedArray = none → ∃ i, stage i tr = .publishing

namespace Staged
variable {tr : List (Ev hw)} {s s' : World} {i : Nat} {o : Action} {r : o.Res}

theorem same (held : Staged cpus iterations tr s) {e : Ev hw} (created : s'.Created cpus iterations)
    (shared : s.SharedSame s') (other : ∀ i, stage i (tr ++ [e]) = stage i tr) : Staged cpus iterations (tr ++ [e]) s' := by
  obtain ⟨flag, -, array⟩ := shared
  refine ⟨created, fun i => ?_, fun i => ?_, ?_⟩
  · rw [other]; exact held.listed i
  · rw [other, flag]; exact held.known i
  · rw [flag, array]; simp only [other]; exact held.publisher

theorem worker (held : Staged cpus iterations tr s) (allowed : (stage i tr).Allows o) (step : s.actWorker b i o r s') :
    Staged cpus iterations (tr ++ [.act (.worker i) o r]) s' := by
  obtain ⟨flag, -, array⟩ := World.flags_worker step
  have stays (set : s.saFlag = true) : s'.saFlag = true := by rw [flag, set]; rfl
  refine ⟨held.created.worker step, fun j busy => ?_, fun j aware => ?_, fun set null => ?_⟩
  · by_cases same : i = j
    · subst same
      by_cases start : o = .threadStart
      · subst start
        exact (held.created.given step).1
      · apply held.listed
        intro waiting
        rw [waiting] at allowed
        obtain ⟨-, allowed⟩ := allowed
        cases o
        case threadStart => exact start rfl
        case mallocShared | loadShared | storeShared => cases allowed
        all_goals rcases allowed with none | none <;> cases none
    · rw [stage_other tr same] at busy
      exact held.listed j busy
  · by_cases same : i = j
    · subst same
      rw [stage_own] at aware
      cases o
      case testFlag =>
        obtain ⟨t, l, ⟨read, -⟩, -⟩ := step
        cases r with
        | true => exact stays read.symm
        | false => exact stays (held.known i aware)
      case setFlag => rw [flag]; simp
      case mallocShared => exact stays (held.known i (Or.inl allowed.2))
      case threadStart => rcases aware with none | none <;> cases none
      all_goals exact stays (held.known i aware)
    · rw [stage_other tr same] at aware
      exact stays (held.known j aware)
  · obtain ⟨null, notMalloc⟩ := array null
    by_cases setting : o = .setFlag
    · subst setting
      exact ⟨i, stage_own tr⟩
    · rw [flag, decide_eq_false setting, Bool.or_false] at set
      obtain ⟨j, publishing⟩ := held.publisher set null
      refine ⟨j, ?_⟩
      by_cases same : i = j
      · subst same
        -- A worker that is publishing takes no other action.
        rw [publishing] at allowed
        obtain ⟨-, allowed⟩ := allowed
        cases o
        case mallocShared n => exact (notMalloc n rfl).elim
        case threadStart | loadShared | storeShared => cases allowed
        all_goals rcases allowed with none | none <;> cases none
      · rw [stage_other tr same]
        exact publishing

end Staged

abbrev stageView (cpus : List Cpu) (iterations : Nat → Nat) (i : Nat) : View Action Action.Res where
  St := Stage
  rely _ _ := False
  allow := Stage.Allows
  next st o r st' := World.Given cpus iterations i o r ∧ st' = st.step o r

def stageGuarantee (b : Build) (hw : Pmu) (C : List (Ev hw) → World → Ev hw → Prop) (cpus : List Cpu)
    (iterations : Nat → Nat) : RelyGuarantee (process b hw) C where
  view
    | .main => spawnView cpus iterations
    | .worker i => stageView cpus iterations i
  abs
    | .main, _, _ => ()
    | .worker i, tr, _ => stage i tr
  inv := Staged cpus iterations
  own {t tr s o r s'} held allowed ok step := by
    cases t with
    | main => rfl
    | worker i => exact ⟨held.created.given step, stage_own tr⟩
  others {t u tr s o r s'} different held allowed ok step := by
    cases u with
    | main => exact .refl
    | worker j =>
      have still : stage j (tr ++ [(.act t o r : Ev hw)]) = stage j tr := by
        cases t with
        | main => exact stage_snoc ..
        | worker i => exact stage_other tr fun same => different (by rw [same])
      show Relation.ReflTransGen _ (stage j tr) (stage j (tr ++ [_]))
      rw [still]
  moves {u tr s e s'} held ok step := by
    cases u with
    | main => exact .refl
    | worker j =>
      show Relation.ReflTransGen _ (stage j tr) (stage j (tr ++ [_]))
      rw [stage_snoc]
      exact .refl
  inv_act {t tr s o r s'} held allowed ok step := by
    cases t with
    | main => exact held.same (held.created.main allowed step) (World.actMain_shared step) fun i => stage_snoc ..
    | worker i => exact held.worker allowed step
  inv_env {tr s e s'} held ok step :=
    held.same (held.created.move step) (World.move_shared step) fun i => stage_snoc ..

namespace Stage
variable {i : Nat} {args : ThreadArgs} {st : Stage}

/-- Actions of a worker that neither set the array up nor use it. -/
def other : Action → Bool
  | .threadStart | .testFlag | .setFlag | .mallocShared _ | .storeShared .. | .loadShared _ => false
  | o => o.ofWorker

/-- Actions of a worker that may use the array. -/
def uses : Action → Bool
  | .storeShared .. | .loadShared _ => true
  | o => other o

/-- The worker is not in the middle of the set-up. -/
def Between (st : Stage) : Prop := st = unaware ∨ st = aware

theorem preserves_other {K : Stage → Prop} (between : ∀ st, K st → st.Between) {o : Action} (fine : other o = true) :
    (stageView cpus iterations i).Preserves K o := by
  intro st held
  have here := between st held
  cases o
  case threadStart | testFlag | setFlag | mallocShared | storeShared | loadShared => cases fine
  all_goals exact ⟨⟨fine, here⟩, fun r t' next => (show t' = st from next.2) ▸ held⟩

theorem preserves_uses {o : Action} (fine : uses o = true) :
    (stageView cpus iterations i).Preserves (· = aware) o := by
  cases o
  case storeShared | loadShared =>
    rintro st rfl
    exact ⟨⟨rfl, rfl⟩, fun r t next => next.2⟩
  all_goals exact preserves_other (fun st held => Or.inr held) fine

theorem wp_other {α : Type} {p : Prog α} (fine : p.All fun o => other o = true) (here : st.Between) :
    p.wp (stageView cpus iterations i) (fun _ => Between) st :=
  Program.wp_of_preserves (fun _ _ _ moved => moved.elim)
    (fine.mono fun _ => preserves_other fun _ => id) here

theorem wp_uses {α : Type} {p : Prog α} (fine : p.All fun o => uses o = true) :
    p.wp (stageView cpus iterations i) (fun _ => Between) aware :=
  Program.wp_mono (Program.wp_of_preserves (fun _ _ _ moved => moved.elim) (fine.mono fun _ => preserves_uses) rfl)
    fun _ _ now => Or.inr now

theorem wp_act {o : Action} {next : o.Res → Prog Unit} {Q : Unit → Stage → Prop} (allowed : st.Allows o)
    (rest : ∀ r, World.Given cpus iterations i o r → (next r).wp (stageView cpus iterations i) Q (st.step o r)) :
    (Program.act o next).wp (stageView cpus iterations i) Q st :=
  (Program.wp_act_still fun _ _ => id).mpr ⟨allowed, fun r _ ⟨given, now⟩ => now ▸ rest r given⟩

/-- The set-up leaves the worker aware of it. -/
theorem wp_setUp {size : Nat} {p : Prog Unit} (here : st.Between) (fine : p.All fun o => uses o = true) : (do
      mallocStores size
      setUpSharedArray b
      p : Prog Unit).wp (stageView cpus iterations i) (fun _ => Between) st := by
  apply Program.wp_seq (wp_other (all_mallocStores (fun _ => rfl) (fun _ => rfl) size) here)
  intro _ st here
  have told : (setUpSharedArray b).wp (stageView cpus iterations i) (fun _ st => st = aware) st := by
    refine wp_act ⟨rfl, here⟩ fun saFlag _ => ?_
    cases saFlag with
    | true => exact (Program.wp_done_still fun _ _ => id).mpr rfl
    | false =>
      refine wp_act ⟨rfl, here⟩ fun _ _ => wp_act ⟨rfl, rfl⟩ fun _ _ => ?_
      exact Program.wp_of_preserves (fun _ _ _ moved => moved.elim)
        (.forEach fun _ _ => (Program.all_call _).mpr (preserves_uses rfl)) rfl
  apply Program.wp_seq told
  rintro _ st rfl
  exact wp_uses fine

theorem uses_of_sampling (o : Action) (own : o.ofSampling = true) : uses o = true := by
  cases o
  case threadStart | testFlag | setFlag | mallocShared | storeShared | loadShared => cases own
  all_goals first | rfl | cases own

theorem other_of_sampling (o : Action) (own : o.ofSampling = true) : other o = true := by
  cases o
  case threadStart | testFlag | setFlag | mallocShared | storeShared | loadShared => cases own
  all_goals first | rfl | cases own

theorem other_of_private (o : Action) (data : o.private = true) : other o = true := by
  cases o
  case threadStart | testFlag | setFlag | mallocShared | storeShared | loadShared => cases data
  all_goals first | rfl | cases data

theorem uses_of_handsOver {p : Prog Unit} (hand : p.All fun o => o.handsOver = true) : p.All fun o => uses o = true := by
  refine hand.mono fun o hand => ?_
  cases o with
  | waitCanRun | setCanRun => rfl
  | _ => cases hand

theorem readShared_uses (last : Nat) : (readShared last).All fun o => uses o = true :=
  ⟨rfl, fun _ => .forEach fun _ _ => ⟨rfl, fun _ => trivial⟩⟩

theorem writeShared_uses (last : Nat) (v : Nat → Word) : (writeShared last v).All fun o => uses o = true :=
  ⟨rfl, fun _ => .forEach fun _ _ => ⟨rfl, fun _ => trivial⟩⟩

theorem uses_timedSample {measured : Prog Unit} (inner : measured.All fun o => uses o = true) :
    (timedSample b args measured).All fun o => uses o = true :=
  all_timedSample uses_of_sampling rfl rfl inner

theorem uses_timedLoop (k last : Nat) :
    (samplingLoop k fun _ => timedSample b args (readShared last)).All fun o => uses o = true :=
  all_samplingLoop uses_of_sampling fun _ _ => uses_timedSample (readShared_uses last)

theorem wp_body {bm : Benchmark} (here : st.Between) :
    (bm.body b args).wp (stageView cpus iterations i) (fun _ => Between) st := by
  have wait := uses_of_handsOver (handsOver_waitForThread0 args)
  have hand := uses_of_handsOver (handsOver_letThread1Run args)
  have write : (timedSample b args (writeShared b.n (BitVec.ofNat 64))).All fun o => uses o = true :=
    uses_timedSample (writeShared_uses ..)
  have loop (k : Nat) : (samplingLoop k fun _ => timedSample b args (readShared b.n)).All fun o => uses o = true :=
    uses_timedLoop k b.n
  have alone (none : bm.shares = false) : (bm.body b args).wp (stageView cpus iterations i) (fun _ => Between) st :=
    wp_other (Benchmark.all_private none other_of_sampling rfl (fun _ => rfl) (fun _ => rfl) other_of_private) here
  cases bm with
  | bmSingleDArrayMultithreadedT1 => exact wp_setUp here (wait.bind fun _ => (uses_timedLoop ..).bind fun _ => hand)
  | bmSingleDArrayMultithreadedT2 =>
    exact wp_setUp here (wait.bind fun _ => (loop _).bind fun _ => write.bind fun _ => (loop _).bind fun _ => hand)
  | bmSingleDArrayMultithreadedT3 => exact wp_setUp here ((loop 9).bind fun _ => write)
  | bmSingleDArrayMultithreadedT4 => exact wp_setUp here (write.bind fun _ => loop 9)
  | bmSingleDArrayWriteMultithreaded =>
    refine wp_setUp here (all_samplingLoop uses_of_sampling fun _ _ => ?_)
    refine (all_window uses_of_sampling rfl (writeShared_uses ..)).bind fun _ => ?_
    exact ⟨rfl, fun _ => ⟨rfl, fun _ => trivial⟩⟩
  | _ => exact alone rfl

theorem wp_worker {bm : Benchmark} :
    (worker b bm).wp (stageView cpus iterations i) (fun _ => Between) .waiting := by
  refine wp_act ⟨rfl, rfl⟩ fun args _ => ?_
  show (bm.body b args >>= fun _ => perform .threadExit).wp _ _ _
  apply Program.wp_seq (wp_body (Or.inl rfl))
  intro _ st here
  exact wp_other (all_perform rfl) here

end Stage

/-- Every worker is where the set-up allows it to be. -/
theorem stage_run {C : List (Ev hw) → World → Ev hw → Prop} {s : World} (initial : s.Initial) {tr : List (Ev hw)}
    {c : Config Tid Action Action.Res World} (run : (process b hw).Run C ⟨s, pool b cpus func iterations⟩ tr c) :
    Staged cpus iterations tr c.state ∧ ∀ i,
      (c.pool (.worker i)).wp (stageView cpus iterations i) (fun _ => Stage.Between) (stage i tr) := by
  have start : Staged cpus iterations ([] : List (Ev hw)) s := by
    refine ⟨initial.created, nofun, nofun, fun set => ?_⟩
    rw [initial.saFlag] at set
    cases set
  obtain ⟨held, threads⟩ := (stageGuarantee b hw C cpus iterations).run
    (fun t => match t with | .main => fun _ _ => True | .worker _ => fun _ st => st.Between) run start fun t => by
      cases t with
      | main => exact main_spawns b cpus iterations
      | worker i => exact Stage.wp_worker
  exact ⟨held, fun i => threads (.worker i)⟩

/-! ### The hand-over -/

/-- Worker 0 has set `can_run`, or worker 1 has seen it set. -/
def passed (i : Nat) (tr : List (Ev hw)) : Bool :=
  tr.any fun
    | .act (.worker j) o _ => decide (j = i) && o.handsOver
    | _ => false

theorem passed_snoc (i : Nat) (tr : List (Ev hw)) (e : Ev hw) : passed i (tr ++ [e]) = (passed i tr || passed i [e]) :=
  List.any_append

/-- What is known of `can_run` and of the threads that have finished. -/
structure Gate (cpus : List Cpu) (func : Nat → Benchmark) (iterations : Nat → Nat) (tr : List (Ev hw)) (s : World) :
    Prop where
  created : s.Created cpus iterations
  released : s.canRun = true → (func 0).gated = true
  passed : ∀ i < 2, passed i tr = true → s.canRun = true
  finished : ∀ i < 2, (s.worker i).finished = true → (func i).gated = true → PmcBench.passed i tr = true

abbrev gateView (cpus : List Cpu) (func : Nat → Benchmark) (iterations : Nat → Nat) (i : Nat) :
    View Action Action.Res where
  St := Bool
  rely _ _ := False
  allow p
    | .waitCanRun => i = 1 ∧ (func i).gated = true
    | .setCanRun => i = 0 ∧ (func i).gated = true
    | .threadExit => i < 2 → (func i).gated = true → p = true
    | _ => True
  next p o r p' := World.Given cpus iterations i o r ∧ p' = (p || o.handsOver)

namespace Gate
variable {tr : List (Ev hw)} {s s' : World} {i : Nat} {o : Action} {r : o.Res}

theorem same (held : Gate cpus func iterations tr s) {e : Ev hw} (created : s'.Created cpus iterations)
    (shared : s.SharedSame s') (finished : ∀ i, (s'.worker i).finished = (s.worker i).finished)
    (other : ∀ i, PmcBench.passed i (tr ++ [e]) = PmcBench.passed i tr) :
    Gate cpus func iterations (tr ++ [e]) s' := by
  obtain ⟨-, canRun, -⟩ := shared
  refine ⟨created, ?_, fun i => ?_, fun i => ?_⟩
  · rw [canRun]; exact held.released
  · rw [canRun, other]; exact held.passed i
  · rw [finished, other]; exact held.finished i

theorem worker (held : Gate cpus func iterations tr s)
    (allowed : (gateView cpus func iterations i).allow (PmcBench.passed i tr) o) (step : s.actWorker b i o r s') :
    Gate cpus func iterations (tr ++ [.act (.worker i) o r]) s' := by
  obtain ⟨-, canRun, -⟩ := World.flags_worker step
  have now (j : Nat) : PmcBench.passed j (tr ++ [(.act (.worker i) o r : Ev hw)]) =
      (PmcBench.passed j tr || decide (i = j) && o.handsOver) := by
    rw [passed_snoc]
    simp [PmcBench.passed]
  have stays (run : s.canRun = true) : s'.canRun = true := by rw [canRun, run]; rfl
  refine ⟨held.created.worker step, fun run => ?_, fun j two done => ?_, fun j two done gated => ?_⟩
  · rw [canRun, Bool.or_eq_true, decide_eq_true_eq] at run
    rcases run with before | rfl
    · exact held.released before
    · obtain ⟨rfl, gated⟩ := allowed
      exact gated
  · rw [now, Bool.or_eq_true, Bool.and_eq_true, decide_eq_true_eq] at done
    rcases done with before | ⟨rfl, hand⟩
    · exact stays (held.passed j two before)
    · cases o with
      | waitCanRun =>
        obtain ⟨t, l, ⟨set, -⟩, -⟩ := step
        exact stays set
      | setCanRun => rw [canRun]; simp
      | _ => cases hand
  · rw [now, Bool.or_eq_true]
    rw [World.actWorker_finished step, Bool.or_eq_true, decide_eq_true_eq] at done
    rcases done with before | ⟨rfl, rfl⟩
    · exact Or.inl (held.finished j two before gated)
    · exact Or.inl (allowed two gated)

end Gate

def gateGuarantee (b : Build) (hw : Pmu) (C : List (Ev hw) → World → Ev hw → Prop) (cpus : List Cpu)
    (func : Nat → Benchmark) (iterations : Nat → Nat) : RelyGuarantee (process b hw) C where
  view
    | .main => spawnView cpus iterations
    | .worker i => gateView cpus func iterations i
  abs
    | .main, _, _ => ()
    | .worker i, tr, _ => passed i tr
  inv := Gate cpus func iterations
  own {t tr s o r s'} held allowed ok step := by
    cases t with
    | main => rfl
    | worker i =>
      refine ⟨held.created.given step, ?_⟩
      show passed i (tr ++ [_]) = _
      rw [passed_snoc]
      simp [passed]
  others {t u tr s o r s'} different held allowed ok step := by
    cases u with
    | main => exact .refl
    | worker j =>
      have silent : passed j [(.act t o r : Ev hw)] = false := by
        cases t with
        | main => rfl
        | worker i =>
          have other : i ≠ j := fun same => different (by rw [same])
          simp [passed, other]
      show Relation.ReflTransGen _ (passed j tr) (passed j (tr ++ [_]))
      rw [passed_snoc, silent, Bool.or_false]
  moves {u tr s e s'} held ok step := by
    cases u with
    | main => exact .refl
    | worker j =>
      show Relation.ReflTransGen _ (passed j tr) (passed j (tr ++ [_]))
      rw [passed_snoc, show passed j [(.env e : Ev hw)] = false from rfl, Bool.or_false]
  inv_act {t tr s o r s'} held allowed ok step := by
    cases t with
    | main =>
      refine held.same (held.created.main allowed step) (World.actMain_shared step) (World.actMain_finished step) fun i => ?_
      rw [passed_snoc, show passed i [(.act .main o r : Ev hw)] = false from rfl, Bool.or_false]
    | worker i => exact held.worker allowed step
  inv_env {tr s e s'} held ok step := by
    refine held.same (held.created.move step) (World.move_shared step) (fun i => (World.move_record step i).2) fun i => ?_
    rw [passed_snoc, show passed i [(.env e : Ev hw)] = false from rfl, Bool.or_false]

namespace Gate
variable {i : Nat} {args : ThreadArgs} {p : Bool}

/-- The actions that the hand-over does not depend on. -/
def still (o : Action) : Bool := !o.handsOver && decide (o ≠ .threadExit)

theorem wp_still {α : Type} {q : Prog α} (fine : q.All fun o => still o = true) :
    q.wp (gateView cpus func iterations i) (fun _ u => u = p) p := by
  refine Program.wp_of_preserves (fun _ _ _ moved => moved.elim) (fine.mono fun o fine => ?_) rfl
  obtain ⟨hand, exit⟩ := Bool.and_eq_true_iff.mp fine
  rintro u rfl
  refine ⟨?_, fun r t next => ?_⟩
  · cases o with
    | waitCanRun | setCanRun => cases hand
    | threadExit => exact (of_decide_eq_true exit rfl).elim
    | _ => trivial
  · rw [next.2, (Bool.not_eq_true' _).mp hand, Bool.or_false]

theorem still_of_quiet (o : Action) (quiet : o.quiet = true) : still o = true := by
  cases o
  case waitCanRun | setCanRun | threadExit => cases quiet
  all_goals rfl

theorem still_of_sampling (o : Action) (own : o.ofSampling = true) : still o = true := by
  cases o
  case waitCanRun | setCanRun | threadExit => cases own
  all_goals rfl

theorem still_of_private (o : Action) (data : o.private = true) : still o = true := by
  cases o
  case waitCanRun | setCanRun | threadExit => cases data
  all_goals rfl

theorem still_timedSample {measured : Prog Unit} (quiet : QuietProg measured) :
    (timedSample b args measured).All fun o => still o = true :=
  all_timedSample still_of_sampling rfl rfl (quiet.mono still_of_quiet)

theorem still_timedLoop (k last : Nat) :
    (samplingLoop k fun _ => timedSample b args (readShared last)).All fun o => still o = true :=
  all_samplingLoop still_of_sampling fun _ _ => still_timedSample (quiet_readShared last)

theorem still_setUp {size : Nat} {q : Prog Unit} (fine : q.All fun o => still o = true) : (do
    mallocStores size
    setUpSharedArray b
    q : Prog Unit).All fun o => still o = true :=
  (all_mallocStores (fun _ => rfl) (fun _ => rfl) size).bind fun _ =>
    ((quiet_setUpSharedArray b).mono still_of_quiet).bind fun _ => fine

theorem still_body {bm : Benchmark} (free : bm.gated = false) : (bm.body b args).All fun o => still o = true := by
  have write (v : Nat → Word) : QuietProg (writeShared b.n v) := quiet_writeShared ..
  have alone (none : bm.shares = false) : (bm.body b args).All fun o => still o = true :=
    Benchmark.all_private none still_of_sampling rfl (fun _ => rfl) (fun _ => rfl) still_of_private
  cases bm with
  | bmSingleDArrayMultithreadedT1 | bmSingleDArrayMultithreadedT2 => cases free
  | bmSingleDArrayMultithreadedT3 =>
    exact still_setUp ((still_timedLoop ..).bind fun _ => still_timedSample (write _))
  | bmSingleDArrayMultithreadedT4 =>
    exact still_setUp ((still_timedSample (write _)).bind fun _ => still_timedLoop ..)
  | bmSingleDArrayWriteMultithreaded =>
    refine still_setUp (all_samplingLoop still_of_sampling fun _ _ => ?_)
    refine (all_window still_of_sampling rfl ((write _).mono still_of_quiet)).bind fun _ => ?_
    exact ⟨rfl, fun _ => ⟨rfl, fun _ => trivial⟩⟩
  | _ => exact alone rfl

/-- A gated benchmark: worker 1 waits before `middle`, and worker 0 lets it run after it. -/
theorem wp_gated {size : Nat} {middle : Prog Unit} (own : args.id = i) (gated : (func i).gated = true)
    (fine : middle.All fun o => still o = true) : (do
      mallocStores size
      setUpSharedArray b
      waitForThread0 args
      middle
      letThread1Run args : Prog Unit).wp (gateView cpus func iterations i) (fun _ u => i < 2 → u = true) false := by
  have wait : (waitForThread0 args).wp (gateView cpus func iterations i) (fun _ u => u = decide (i = 1)) false := by
    unfold waitForThread0
    split
    · rename_i one
      obtain rfl : i = 1 := own.symm.trans one
      refine (Program.wp_act_still fun _ _ => id).mpr ⟨⟨rfl, gated⟩, fun r t next => ?_⟩
      exact (Program.wp_done_still fun _ _ => id).mpr next.2
    · rename_i other
      refine (Program.wp_done_still fun _ _ => id).mpr (decide_eq_false fun one => other (own.trans one)).symm
  have hand : (letThread1Run args).wp (gateView cpus func iterations i) (fun _ u => i < 2 → u = true)
      (decide (i = 1)) := by
    unfold letThread1Run
    split
    · rename_i zero
      obtain rfl : i = 0 := own.symm.trans zero
      refine (Program.wp_act_still fun _ _ => id).mpr ⟨⟨rfl, gated⟩, fun r t next => ?_⟩
      exact (Program.wp_done_still fun _ _ => id).mpr fun _ => next.2
    · rename_i other
      refine (Program.wp_done_still fun _ _ => id).mpr fun two => decide_eq_true ?_
      have notZero : i ≠ 0 := fun zero => other (own.trans zero)
      omega
  apply Program.wp_seq (wp_still (all_mallocStores (fun _ => rfl) (fun _ => rfl) size))
  rintro _ _ rfl
  apply Program.wp_seq (wp_still ((quiet_setUpSharedArray b).mono still_of_quiet))
  rintro _ _ rfl
  apply Program.wp_seq wait
  rintro _ _ rfl
  apply Program.wp_seq (wp_still fine)
  rintro _ _ rfl
  exact hand

theorem wp_body (own : args.id = i) : ((func i).body b args).wp (gateView cpus func iterations i)
    (fun _ u => i < 2 → (func i).gated = true → u = true) false := by
  cases gated : (func i).gated with
  | false => exact Program.wp_mono (wp_still (still_body gated)) fun _ _ _ _ on => nomatch on
  | true =>
    have write : QuietProg (writeShared b.n (BitVec.ofNat 64)) := quiet_writeShared ..
    have loop : (samplingLoop (args.iterations / 2) fun _ => timedSample b args (readShared b.n)).All
        fun o => still o = true := still_timedLoop ..
    have sample : (timedSample b args (writeShared b.n (BitVec.ofNat 64))).All fun o => still o = true :=
      still_timedSample write
    have middle := loop.bind fun _ => sample.bind fun _ => loop
    cases kind : func i with
    | bmSingleDArrayMultithreadedT1 =>
      exact Program.wp_mono (wp_gated own gated (still_timedLoop ..)) fun _ _ all two _ => all two
    | bmSingleDArrayMultithreadedT2 =>
      have whole := @wp_gated b cpus func iterations i args b.nCustomCtr _ own gated middle
      simp only [Program.bind_assoc] at whole
      exact Program.wp_mono whole fun _ _ all two _ => all two
    | _ => rw [kind] at gated; cases gated

theorem wp_worker : (PmcBench.worker b (func i)).wp (gateView cpus func iterations i)
    (fun _ u => i < 2 → (func i).gated = true → u = true) false := by
  refine (Program.wp_act_still fun _ _ => id).mpr ⟨trivial, fun args t ⟨given, now⟩ => ?_⟩
  obtain rfl : t = false := now
  obtain ⟨-, rfl⟩ := given
  show ((func i).body b _ >>= fun _ => perform .threadExit).wp _ _ _
  apply Program.wp_seq (wp_body (i := i) rfl)
  intro _ u done
  refine (Program.wp_act_still fun _ _ => id).mpr ⟨done, fun r v ⟨_, now⟩ => ?_⟩
  have same : v = u := now.trans (Bool.or_false u)
  exact (Program.wp_done_still fun _ _ => id).mpr (same ▸ done)

end Gate

/-- A thread that takes part in the hand-over passes it before it ends. -/
theorem gate_run {C : List (Ev hw) → World → Ev hw → Prop} {s : World} (initial : s.Initial) {tr : List (Ev hw)}
    {c : Config Tid Action Action.Res World} (run : (process b hw).Run C ⟨s, pool b cpus func iterations⟩ tr c) :
    Gate cpus func iterations tr c.state ∧ ∀ i, (c.pool (.worker i)).wp (gateView cpus func iterations i)
      (fun _ u => i < 2 → (func i).gated = true → u = true) (passed i tr) := by
  have start : Gate cpus func iterations ([] : List (Ev hw)) s := by
    refine ⟨initial.created, fun run => ?_, nofun, fun i _ done => ?_⟩
    · rw [initial.canRun] at run
      cases run
    · rw [initial.finished i] at done
      cases done
  obtain ⟨held, threads⟩ := (gateGuarantee b hw C cpus func iterations).run
    (fun t => match t with
      | .main => fun _ _ => True
      | .worker i => fun _ u => i < 2 → (func i).gated = true → u = true) run start fun t => by
      cases t with
      | main => exact main_spawns b cpus iterations
      | worker i => exact Gate.wp_worker
  exact ⟨held, fun i => threads (.worker i)⟩

end PmcBench
