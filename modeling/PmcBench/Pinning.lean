import PmcBench.Quiescence
import PmcBench.Sampling
import PmcBench.Schedules
import PmcBench.Workers

/-!
# Where the windows run

`main` pins a worker after it has created it, and the worker may run before. A worker
that is pinned by the time it takes its first time stamp opens all its windows on the
CPU whose counters it reads; nothing in the code makes it wait for that.
-/

namespace PmcBench
open Threads

variable {b : Build} {hw : Pmu} {cpus : List Cpu} {func : Nat → Benchmark} {iterations : Nat → Nat}

/-- When a worker takes a time stamp, `main` has pinned it. -/
def PinnedStamps (_ : List (Ev hw)) (s : World) : Ev hw → Prop
  | .act (.worker i) .gettimeofday _ => (s.worker i).pinned = true
  | _ => True

/-- Each worker that has opened a window reads the counters of the CPU listed for it, and has
been pinned to it. -/
def PinnedWindows (cpus : List Cpu) (tr : List (Ev hw)) (s : World) : Prop :=
  ∀ i cpu reg store k r, Event.act (.worker i) (.readInto cpu reg store k) r ∈ tr →
    cpus[i]? = some cpu ∧ (s.worker i).pinned = true ∧ (s.worker i).cpu = cpu

def Action.isStamp : Action → Bool
  | .gettimeofday => true
  | _ => false

/-- Worker `i` has taken a time stamp. -/
def stamped (i : Nat) (tr : List (Ev hw)) : Bool :=
  tr.any fun
    | .act (.worker j) o _ => decide (j = i) && o.isStamp
    | _ => false

/-- A worker's view: whether it has taken a time stamp. It reads counters only after that, and
only those of its CPU. -/
abbrev pinView (cpus : List Cpu) (iterations : Nat → Nat) (i : Nat) : View Action Action.Res where
  St := Bool
  rely _ _ := False
  allow stamped
    | .readInto cpu .. => stamped = true ∧ cpus[i]? = some cpu
    | _ => True
  next stamped o r stamped' := World.Given cpus iterations i o r ∧ stamped' = (stamped || o.isStamp)

/-- Pinned workers are where `main` pinned them. -/
structure Placed (cpus : List Cpu) (iterations : Nat → Nat) (tr : List (Ev hw)) (s : World) : Prop where
  created : s.Created cpus iterations
  cpu : ∀ i, (s.worker i).pinned = true → i < cpus.length ∧ (s.worker i).cpu = cpus.getD i 0
  pinned : ∀ i, stamped i tr = true → (s.worker i).pinned = true
  reads : ∀ i cpu reg store k r, Event.act (.worker i) (.readInto cpu reg store k) r ∈ tr →
    stamped i tr = true ∧ cpus[i]? = some cpu

theorem stamped_mono {i : Nat} {tr : List (Ev hw)} (e : Ev hw) (h : stamped i tr = true) :
    stamped i (tr ++ [e]) = true := by
  unfold stamped at h ⊢
  rw [List.any_append, h, Bool.true_or]

namespace Placed
variable {tr : List (Ev hw)} {s s' : World}

theorem windows (held : Placed cpus iterations tr s) : PinnedWindows cpus tr s := by
  intro i cpu reg store k r member
  obtain ⟨stamp, listed⟩ := held.reads i cpu reg store k r member
  have pinned := held.pinned i stamp
  refine ⟨listed, pinned, ?_⟩
  rw [(held.cpu i pinned).2, List.getD_eq_getElem?_getD, listed]
  rfl

/-- A step of something else than worker `i` itself does not count for it. -/
theorem quiet (held : Placed cpus iterations tr s) {e : Ev hw} (created : s'.Created cpus iterations)
    (cpu : ∀ i, (s'.worker i).pinned = true → i < cpus.length ∧ (s'.worker i).cpu = cpus.getD i 0)
    (pinned : ∀ i, (s.worker i).pinned = true → (s'.worker i).pinned = true)
    (other : ∀ i o r, e ≠ .act (.worker i) o r) : Placed cpus iterations (tr ++ [e]) s' := by
  have silent (i : Nat) : stamped i (tr ++ [e]) = stamped i tr := by
    unfold stamped
    rw [List.any_append]
    cases e with
    | env => simp
    | act t o r =>
      cases t with
      | main => simp
      | worker j => exact (other j o r rfl).elim
  refine ⟨created, cpu, ?_, ?_⟩
  · intro i stamp
    rw [silent i] at stamp
    exact pinned i (held.pinned i stamp)
  · intro i cpu reg store k r member
    rcases List.mem_append.mp member with earlier | last
    · obtain ⟨stamp, listed⟩ := held.reads i cpu reg store k r earlier
      exact ⟨stamped_mono e stamp, listed⟩
    · exact (other i _ r (List.mem_singleton.mp last).symm).elim

theorem main (held : Placed cpus iterations tr s) {o : Action} {r : o.Res} (allowed : Spawns cpus iterations o)
    (step : s.actMain b o r s') : Placed cpus iterations (tr ++ [.act .main o r]) s' := by
  have created := held.created.main allowed step
  rcases World.actMain_worker step with same | ⟨i, args, rfl, now⟩ | ⟨i, cpu, rfl, now⟩
  · exact held.quiet created (by rw [same]; exact held.cpu) (by rw [same]; exact fun _ => id) (by simp)
  · have same (j : Nat) : (s'.worker j).pinned = (s.worker j).pinned ∧ (s'.worker j).cpu = (s.worker j).cpu := by
      rw [now]
      by_cases here : j = i
      · subst here; simp
      · simp [here]
    refine held.quiet created (fun j pinned => ?_) (fun j pinned => ?_) (by simp)
    · rw [(same j).1] at pinned
      rw [(same j).2]
      exact held.cpu j pinned
    · rw [(same j).1, pinned]
  · refine held.quiet created (fun j pinned => ?_) (fun j pinned => ?_) (by simp)
    · rw [now] at pinned ⊢
      by_cases here : j = i
      · subst here
        rw [Function.update_self]
        exact allowed
      · rw [Function.update_of_ne here] at pinned ⊢
        exact held.cpu j pinned
    · rw [now]
      by_cases here : j = i
      · subst here; simp
      · simpa [here] using pinned

theorem move (held : Placed cpus iterations tr s) {e : Move hw} (step : s.move e s') :
    Placed cpus iterations (tr ++ [.env e]) s' := by
  have created := held.created.move step
  rcases World.move_worker step with same | ⟨i, cpu, free, now⟩
  · exact held.quiet created (by rw [same]; exact held.cpu) (by rw [same]; exact fun _ => id) (by simp)
  · -- Only a worker that is not pinned is moved.
    have same {j : Nat} (pinned : (s.worker j).pinned = true) : s'.worker j = s.worker j := by
      rw [now]
      apply Function.update_of_ne
      rintro rfl
      rw [free] at pinned
      cases pinned
    refine held.quiet created (fun j pinned => ?_) (fun j pinned => ?_) (by simp)
    · have before : (s.worker j).pinned = true := by
        rw [now] at pinned
        by_cases here : j = i
        · subst here; simpa using pinned
        · simpa [here] using pinned
      rw [same before]
      exact held.cpu j before
    · rw [same pinned]
      exact pinned

theorem worker (held : Placed cpus iterations tr s) {i : Nat} {o : Action} {r : o.Res}
    (allowed : (pinView cpus iterations i).allow (stamped i tr) o)
    (ok : PinnedStamps tr s (.act (.worker i) o r)) (step : s.actWorker b i o r s') :
    Placed cpus iterations (tr ++ [(.act (.worker i) o r : Ev hw)]) s' := by
  have frame := World.actWorker_frame step
  have same (j : Nat) : (s'.worker j).pinned = (s.worker j).pinned ∧ (s'.worker j).cpu = (s.worker j).cpu := by
    by_cases here : j = i
    · subst here
      exact ⟨frame.pinned, frame.cpu⟩
    · rw [frame.others j here]
      exact ⟨rfl, rfl⟩
  refine ⟨held.created.worker step, ?_, ?_, ?_⟩
  · intro j pinned
    rw [(same j).1] at pinned
    rw [(same j).2]
    exact held.cpu j pinned
  · intro j stamp
    rw [(same j).1]
    unfold stamped at stamp
    rw [List.any_append, Bool.or_eq_true] at stamp
    rcases stamp with earlier | now
    · exact held.pinned j earlier
    · simp only [List.any_cons, List.any_nil, Bool.or_false, Bool.and_eq_true, decide_eq_true_eq] at now
      obtain ⟨rfl, here⟩ := now
      cases o with
      | gettimeofday => exact ok
      | _ => cases here
  · intro j cpu reg store k r' member
    rcases List.mem_append.mp member with earlier | last
    · obtain ⟨stamp, listed⟩ := held.reads j cpu reg store k r' earlier
      exact ⟨stamped_mono _ stamp, listed⟩
    · cases List.mem_singleton.mp last
      exact ⟨stamped_mono _ allowed.1, allowed.2⟩

end Placed

/-! ### The run -/

def pinGuarantee (b : Build) (hw : Pmu) (cpus : List Cpu) (iterations : Nat → Nat) :
    RelyGuarantee (process b hw) PinnedStamps where
  view
    | .main => spawnView cpus iterations
    | .worker i => pinView cpus iterations i
  abs
    | .main, _, _ => ()
    | .worker i, tr, _ => stamped i tr
  inv tr s := Placed cpus iterations tr s
  own {t tr s o r s'} held allowed ok step := by
    cases t with
    | main => rfl
    | worker i => exact ⟨held.created.given step, by simp [stamped]⟩
  others {t u tr s o r s'} different held allowed ok step := by
    cases u with
    | main => exact .refl
    | worker j =>
      have same : stamped j (tr ++ [(.act t o r : Ev hw)]) = stamped j tr := by
        cases t with
        | main => simp [stamped]
        | worker i =>
          have other : i ≠ j := fun same => different (by rw [same])
          simp [stamped, other]
      show Relation.ReflTransGen _ (stamped j tr) (stamped j (tr ++ [_]))
      rw [same]
  moves {u tr s e s'} held ok step := by
    cases u with
    | main => exact .refl
    | worker j =>
      show Relation.ReflTransGen _ (stamped j tr) (stamped j (tr ++ [_]))
      rw [show stamped j (tr ++ [(.env e : Ev hw)]) = stamped j tr by simp [stamped]]
  inv_act {t tr s o r s'} held allowed ok step := by
    cases t with
    | main => exact held.main allowed step
    | worker i => exact held.worker allowed ok step
  inv_env held ok step := held.move step

/-! ### The benchmarks in a worker's view -/

section
variable {i : Nat} {args : ThreadArgs} {N : Nat}

/-- An action that does not read counters keeps a stamp. -/
theorem pinView_keeps {o : Action} {ready : Prop} (other : ∀ cpu reg store k, o ≠ .readInto cpu reg store k) :
    (pinView cpus iterations i).Preserves (fun stamped => ready → stamped = true) o := by
  intro st held
  refine ⟨?_, fun r t ⟨_, now⟩ isReady => ?_⟩
  · cases o with
    | readInto => exact (other _ _ _ _ rfl).elim
    | _ => trivial
  · rw [now, held isReady, Bool.true_or]

theorem pinView_reads {o : Action} (own : ∀ cpu reg store k, o = .readInto cpu reg store k → cpus[i]? = some cpu) :
    (pinView cpus iterations i).Preserves (fun stamped => stamped = true) o := by
  intro st held
  refine ⟨?_, fun r t ⟨_, now⟩ => ?_⟩
  · cases o with
    | readInto cpu reg store k => exact ⟨held, own cpu reg store k rfl⟩
    | _ => trivial
  · rw [now, held, Bool.true_or]

/-- A worker's sampling, between time stamps and windows. -/
def stampPhase : Phase → Nat → Bool → Prop
  | .stamped, _, stamped => stamped = true
  | _, _, _ => True

theorem stamp_sampling (listed : cpus[i]? = some args.cpuMsr) :
    Sampling b args true N (pinView cpus iterations i) (fun _ => True) stampPhase where
  stable _ moved := moved.elim
  quiet {ph m o} quiet := by
    have other : ∀ cpu reg store k, o ≠ .readInto cpu reg store k := by rintro cpu reg store k rfl; cases quiet
    cases ph with
    | stamped => exact pinView_reads fun cpu reg store k same => (other cpu reg store k same).elim
    | _ =>
      have keeps : (pinView cpus iterations i).Preserves (fun stamped => False → stamped = true) o := pinView_keeps other
      exact fun st _ => ⟨(keeps st nofun).1, fun _ _ _ => trivial⟩
  start _ _ := Program.wp_allowed (all_mallocStores (fun _ _ => trivial) (fun _ _ => trivial) _)
  head _ _ _ := ⟨trivial, fun _ _ _ => trivial⟩
  takeTime {m s} _ _ _ := by
    refine (Program.wp_act_still fun _ _ => id).mpr ⟨trivial, fun tv t ⟨_, stamp⟩ => ?_⟩
    refine (Program.wp_act_still fun _ _ => id).mpr ⟨trivial, fun _ u ⟨_, now⟩ => ?_⟩
    refine (Program.wp_done_still fun _ _ => id).mpr ?_
    show u = true
    rw [now, stamp]
    simp [Action.isStamp]
  untimed untimed := by cases untimed
  window {m s measured} _ quiet held := by
    have held : s = true := held
    refine Program.wp_mono (Program.wp_of_preserves (I := fun stamped => stamped = true) (fun _ _ _ moved => moved.elim)
      ?_ held) fun _ _ _ => trivial
    have fine {o : Action} (other : ∀ cpu reg store k, o ≠ .readInto cpu reg store k) :
        (pinView cpus iterations i).Preserves (fun stamped => stamped = true) o :=
      pinView_reads fun cpu reg store k same => (other cpu reg store k same).elim
    have read (store : Buf) :
        (readValues b args.cpuMsr store).All ((pinView cpus iterations i).Preserves fun stamped => stamped = true) := by
      refine all_readValues fun reg k => pinView_reads fun cpu reg store k same => ?_
      cases same
      exact listed
    have record : (recordDeltas b).All ((pinView cpus iterations i).Preserves fun stamped => stamped = true) :=
      all_recordDeltas (fine nofun) (fun _ => fine nofun) (fun _ => fine nofun) fun _ _ _ => fine nofun
    refine ⟨fine nofun, fun _ => (read _).bind fun _ => Program.All.bind ?_ fun _ => (read _).bind fun _ => record⟩
    refine quiet.mono fun o quiet => fine ?_
    rintro cpu reg store k rfl
    cases quiet
  incCounts {m s} _ _ := (Program.wp_act_still fun _ _ => id).mpr ⟨trivial, fun _ _ _ _ _ => trivial⟩

theorem stamp_passes : Sampling.Passes (pinView cpus iterations i) stampPhase := by
  intro m o hand st held
  cases o with
  | waitCanRun | setCanRun => exact ⟨trivial, fun _ _ _ => trivial⟩
  | _ => cases hand

theorem wp_worker_pinned {stamped : Bool} (timed : i < cpus.length → (func i).timed = true) :
    (worker b (func i)).wp (pinView cpus iterations i) (fun _ _ => True) stamped := by
  refine (Program.wp_act_still fun _ _ => id).mpr ⟨trivial, fun args t ⟨given, _⟩ => ?_⟩
  obtain ⟨bound, rfl⟩ := given
  show ((func i).body b _ >>= fun _ => perform .threadExit).wp _ _ t
  apply Program.wp_bind.mpr
  have listed : cpus[i]? = some (cpus.getD i 0) := by
    rw [List.getD_eq_getElem?_getD, List.getElem?_eq_getElem bound]
    rfl
  have sampling : Sampling b ⟨iterations i, i, cpus.getD i 0⟩ true ((func i).samples (iterations i))
      (pinView cpus iterations i) (fun _ => True) stampPhase := stamp_sampling listed
  have body := sampling.wp_body stamp_passes (timed bound).symm (Nat.le_refl _) (s := t) trivial
  apply Program.wp_mono body
  intro _ u _
  exact (Program.wp_act_still fun _ _ => id).mpr ⟨trivial, fun _ _ _ _ _ => trivial⟩

end

/-! ### Where the windows run, and where they may run -/

/-- If every worker is pinned when it takes a time stamp, each window runs on the CPU whose
counters it reads. -/
theorem windows_pinned (timed : ∀ i < cpus.length, (func i).timed = true) {s : World} (initial : s.Initial)
    {tr : List (Ev hw)} {c : Config Tid Action Action.Res World}
    (run : (process b hw).Run PinnedStamps ⟨s, pool b cpus func iterations⟩ tr c) :
    PinnedWindows cpus tr c.state := by
  have start : Placed cpus iterations ([] : List (Ev hw)) s := by
    refine ⟨initial.created, fun i pinned => ?_, nofun, nofun⟩
    rw [initial.pinned i] at pinned
    cases pinned
  have proved := (pinGuarantee b hw cpus iterations).run (fun _ _ _ => True) run start fun t => by
    cases t with
    | main => exact main_spawns b cpus iterations
    | worker i => exact wp_worker_pinned (timed i)
  exact proved.1.windows

def opened (i : Nat) (tr : List (Ev hw)) : Bool :=
  tr.any fun
    | .act (.worker j) (.readInto ..) _ => decide (j = i)
    | _ => false

theorem PinnedWindows.pinned {i : Nat} {tr : List (Ev hw)} {s : World} (h : PinnedWindows cpus tr s)
    (open_ : opened i tr = true) : (s.worker i).pinned = true := by
  unfold opened at open_
  obtain ⟨e, member, reads⟩ := List.any_eq_true.mp open_
  split at reads
  · rename_i j cpu reg store k r
    obtain rfl := of_decide_eq_true reads
    exact (h j cpu reg store k r member).2.1
  · cases reads

/-- Tells of a step whether it is allowed by `PinnedStamps`. -/
def stampsPinned (_ : List (Ev hw)) (s : World) : Ev hw → Bool
  | .act (.worker i) .gettimeofday _ => (s.worker i).pinned
  | _ => true

theorem PinnedStamps.of_check (tr : List (Ev hw)) (s : World) (e : Ev hw) (fine : stampsPinned tr s e = true) :
    PinnedStamps tr s e := by
  cases e with
  | env e => trivial
  | act t o r =>
    cases t with
    | main => trivial
    | worker i =>
      cases o with
      | gettimeofday => exact fine
      | _ => trivial

/-- Both workers are pinned before they start; worker 1 opens a window. -/
theorem windows_pinned_inTurn : ∃ (tr : List (Ev .exact)) (c : Config Tid Action Action.Res World),
    (process dedos07 .exact).Run PinnedStamps
      ⟨.idle, pool dedos07 [1, 2] (fun _ => .bmSingleDArrayMultithreadedT3) fun _ => 10⟩ tr c ∧
      opened 1 tr = true ∧ PinnedWindows [1, 2] tr c.state := by
  have played : (playFrom dedos07 .exact stampsPinned [1, 2] (fun _ => .bmSingleDArrayMultithreadedT3) (fun _ => 10) .idle
      (List.replicate 103 (.inl .main) ++ List.replicate 5 (.inl (.worker 0)) ++
        List.replicate 9 (.inl (.worker 1)))).any (fun x => opened 1 x.1) = true := by decide +kernel
  obtain ⟨⟨tr, c⟩, found, here⟩ := (Option.any_eq_true ..).mp played
  have run := (player dedos07 .exact).play_run PinnedStamps.of_check .start found
  exact ⟨tr, c, run, here, windows_pinned (fun _ _ => rfl) World.idle_initial run⟩

/-- Worker 1 finds the shared array set up and opens a window before `main` pins it. -/
theorem windows_unpinned : ∃ (tr : List (Ev .exact)) (c : Config Tid Action Action.Res World),
    (process dedos07 .exact).Run (fun _ _ _ => True)
      ⟨.idle, pool dedos07 [1, 2] (fun _ => .bmSingleDArrayMultithreadedT3) fun _ => 10⟩ tr c ∧
      ¬ PinnedWindows [1, 2] tr c.state := by
  have played : (playFrom dedos07 .exact (fun _ _ _ => true) [1, 2] (fun _ => .bmSingleDArrayMultithreadedT3)
      (fun _ => 10) .idle (List.replicate 102 (.inl .main) ++ List.replicate 5 (.inl (.worker 0)) ++
        List.replicate 9 (.inl (.worker 1)))).any (fun x => opened 1 x.1 && !(x.2.state.worker 1).pinned) = true := by
    decide +kernel
  obtain ⟨⟨tr, c⟩, found, here⟩ := (Option.any_eq_true ..).mp played
  rw [Bool.and_eq_true] at here
  refine ⟨tr, c, (player dedos07 .exact).play_run (fun _ _ _ _ => trivial) .start found, fun windows => ?_⟩
  have pinned := windows.pinned here.1
  rw [pinned] at here
  cases here.2

end PmcBench
