import PmcBench.Lifetimes
import PmcBench.Handshake
import PmcBench.Schedules

/-!
# The samples in the log

Each thread keeps a diary: the times it has asked for. A thread that has exited has
recorded one sample for each iteration, so that the rows of the log are the diaries of
the threads, one behind the other.
-/

namespace PmcBench
open Threads
open Program (forEach)

variable {b : Build} {hw : Pmu} {cpus : List Cpu} {func : Nat → Benchmark} {iterations : Nat → Nat}


def Action.stamp : (o : Action) → o.Res → List Word
  | .gettimeofday, tv => [tv.micros]
  | _, _ => []

/-- The times thread `i` has asked for. -/
def stamps (i : Nat) (tr : List (Ev hw)) : List Word :=
  tr.flatMap fun
    | .act (.worker j) o r => if j = i then o.stamp r else []
    | _ => []

theorem stamps_snoc (i : Nat) (tr : List (Ev hw)) (e : Ev hw) : stamps i (tr ++ [e]) = stamps i tr ++ stamps i [e] :=
  List.flatMap_append

/-- What a worker has in memory, whether it has exited, and the times it has asked for. -/
structure Diary where
  mem : Local
  gone : Bool
  stamps : List Word

/-- What a thread that runs `bm` has recorded when it ends. -/
def Diary.Recorded (bm : Benchmark) (iterations : Nat) (d : Diary) : Prop :=
  d.mem.prof.counts = bm.samples iterations ∧ d.mem.prof.times = d.stamps ∧
    d.stamps.length = if bm.timed then bm.samples iterations else 0

def diary (i : Nat) (tr : List (Ev hw)) (s : World) : Diary := ⟨(s.worker i).mem, exited i tr, stamps i tr⟩

/-- What is known of the threads that have exited. -/
structure Samples (cpus : List Cpu) (func : Nat → Benchmark) (iterations : Nat → Nat) (tr : List (Ev hw)) (s : World) :
    Prop where
  created : s.Created cpus iterations
  exited : ∀ i, (s.worker i).finished = exited i tr
  recorded : ∀ i, (s.worker i).finished = true → (diary i tr s).Recorded (func i) (iterations i)

abbrev samplesView (b : Build) (cpus : List Cpu) (func : Nat → Benchmark) (iterations : Nat → Nat) (i : Nat) :
    View Action Action.Res where
  St := Diary
  rely _ _ := False
  allow d o := d.gone = false ∧ (o = .threadExit → d.Recorded (func i) (iterations i))
  next d o r d' := World.Given cpus iterations i o r ∧ d.mem.step b o r d'.mem ∧
    d'.gone = (d.gone || decide (o = .threadExit)) ∧ d'.stamps = d.stamps ++ o.stamp r

section
variable {tr : List (Ev hw)} {s s' : World} {o : Action} {r : o.Res}

theorem diary_other {i j : Nat} (other : i ≠ j) (same : s'.worker j = s.worker j) :
    diary j (tr ++ [(.act (.worker i) o r : Ev hw)]) s' = diary j tr s := by
  unfold diary
  rw [same, exited_snoc, stamps_snoc]
  simp [exited, stamps, other]

theorem diary_main (i : Nat) (mem : (s'.worker i).mem = (s.worker i).mem) :
    diary i (tr ++ [(.act .main o r : Ev hw)]) s' = diary i tr s := by
  unfold diary
  rw [mem, exited_snoc, stamps_snoc]
  simp [exited, stamps]

theorem diary_env {m : Move hw} (i : Nat) (mem : (s'.worker i).mem = (s.worker i).mem) :
    diary i (tr ++ [(.env m : Ev hw)]) s' = diary i tr s := by
  unfold diary
  rw [mem, exited_snoc, stamps_snoc]
  simp [exited, stamps]

end

namespace Samples
variable {tr : List (Ev hw)} {s s' : World} {i : Nat} {o : Action} {r : o.Res}

theorem same (held : Samples cpus func iterations tr s) {e : Ev hw} (created : s'.Created cpus iterations)
    (finished : ∀ i, (s'.worker i).finished = (s.worker i).finished)
    (kept : ∀ i, diary i (tr ++ [e]) s' = diary i tr s) : Samples cpus func iterations (tr ++ [e]) s' := by
  refine ⟨created, fun i => ?_, fun i => ?_⟩
  · rw [finished, held.exited]
    exact (congrArg Diary.gone (kept i)).symm
  · rw [finished, kept]; exact held.recorded i

theorem worker (held : Samples cpus func iterations tr s)
    (allowed : (samplesView b cpus func iterations i).allow (diary i tr s) o)
    (step : s.actWorker b i o r s') : Samples cpus func iterations (tr ++ [.act (.worker i) o r]) s' := by
  have done (j : Nat) := World.actWorker_finished step j
  refine ⟨held.created.worker step, fun j => ?_, fun j finished => ?_⟩
  · rw [done, held.exited, exited_snoc]
    simp [PmcBench.exited, eq_comm]
  · by_cases own : j = i
    · subst own
      have before : PmcBench.exited j tr = false := allowed.1
      rw [done, held.exited, before, Bool.false_or, decide_eq_true_eq] at finished
      obtain ⟨-, rfl⟩ := finished
      have mem : (s'.worker j).mem = (s.worker j).mem := World.actWorker_mem step
      have same : (stamps j (tr ++ [(.act (.worker j) .threadExit r : Ev hw)])) = stamps j tr := by
        rw [stamps_snoc]
        simp [stamps, Action.stamp]
      unfold diary Diary.Recorded
      rw [mem, same]
      exact allowed.2 rfl
    · have frame := (World.actWorker_frame step).others j own
      rw [frame] at finished
      rw [diary_other (Ne.symm own) frame]
      exact held.recorded j finished

end Samples

def samplesGuarantee (b : Build) (hw : Pmu) (C : List (Ev hw) → World → Ev hw → Prop) (cpus : List Cpu)
    (func : Nat → Benchmark) (iterations : Nat → Nat) : RelyGuarantee (process b hw) C where
  view
    | .main => spawnView cpus iterations
    | .worker i => samplesView b cpus func iterations i
  abs
    | .main, _, _ => ()
    | .worker i, tr, s => diary i tr s
  inv := Samples cpus func iterations
  own {t tr s o r s'} held allowed ok step := by
    cases t with
    | main => rfl
    | worker i =>
      refine ⟨held.created.given step, World.actWorker_mem step, ?_, ?_⟩
      · show exited i (tr ++ [_]) = _
        rw [exited_snoc]
        simp [diary, exited]
      · show stamps i (tr ++ [_]) = _
        rw [stamps_snoc]
        simp [diary, stamps]
  others {t u tr s o r s'} different held allowed ok step := by
    cases u with
    | main => exact .refl
    | worker j =>
      have still : diary j (tr ++ [(.act t o r : Ev hw)]) s' = diary j tr s := by
        cases t with
        | main => exact diary_main j (World.actMain_mem step j)
        | worker i =>
          have other : i ≠ j := fun same => different (by rw [same])
          exact diary_other other ((World.actWorker_frame step).others j (Ne.symm other))
      show Relation.ReflTransGen _ (diary j tr s) (diary j (tr ++ [_]) s')
      rw [still]
  moves {u tr s e s'} held ok step := by
    cases u with
    | main => exact .refl
    | worker j =>
      show Relation.ReflTransGen _ (diary j tr s) (diary j (tr ++ [_]) s')
      rw [diary_env j (World.move_mem step j)]
  inv_act {t tr s o r s'} held allowed ok step := by
    cases t with
    | main =>
      exact held.same (held.created.main allowed step) (World.actMain_finished step) fun j =>
        diary_main j (World.actMain_mem step j)
    | worker i => exact held.worker allowed step
  inv_env {tr s e s'} held ok step :=
    held.same (held.created.move step) (fun i => (World.move_record step i).2) fun i => diary_env i (World.move_mem step i)

namespace Diary
variable {i : Nat} {args : ThreadArgs} {timed : Bool} {N : Nat}

def At (counts times : Nat) (d : Diary) : Prop :=
  d.mem.prof.counts = counts ∧ d.mem.prof.times = d.stamps ∧ d.stamps.length = times ∧ d.gone = false

def phase (timed : Bool) : Phase → Nat → Diary → Prop
  | .idle, m => At m (if timed then m else 0)
  | .stamped, m | .recorded, m => At m (if timed then m + 1 else 0)

/-- The actions that leave the counts and the time stamps alone. -/
def settled : Action → Bool
  | .gettimeofday | .pushTime _ | .incCounts | .threadExit => false
  | _ => true

theorem preserves_at {counts times : Nat} {o : Action} (fine : settled o = true) :
    (samplesView b cpus func iterations i).Preserves (At counts times) o := by
  have exit : o ≠ .threadExit := by rintro rfl; cases fine
  intro d held
  obtain ⟨number, stamps, length, stays⟩ := held
  refine ⟨⟨stays, fun same => (exit same).elim⟩, fun r d' next => ?_⟩
  obtain ⟨-, step, now, stamped⟩ := next
  have silent : o.stamp r = [] := by
    cases o
    case gettimeofday => cases fine
    all_goals rfl
  rw [silent, List.append_nil] at stamped
  have same : d'.mem.prof.counts = d.mem.prof.counts ∧ d'.mem.prof.times = d.mem.prof.times := by
    by_cases value : ∃ c k v, o = .setValue c k v
    · obtain ⟨c, k, v, rfl⟩ := value
      rw [show d'.mem = _ from step]
      exact ⟨rfl, rfl⟩
    · have keeps : o.keepsProfile = true := by
        cases o
        case pushTime | incCounts => cases fine
        case setValue c k v => exact (value ⟨c, k, v, rfl⟩).elim
        all_goals rfl
      rw [Local.step_prof keeps step]
      exact ⟨rfl, rfl⟩
  unfold At
  rw [stamped, now, stays, decide_eq_false exit]
  exact ⟨same.1.trans number, same.2.trans stamps, length, rfl⟩

theorem wp_at {α : Type} {p : Prog α} {counts times : Nat} {d : Diary}
    (fine : p.All fun o => settled o = true) (held : At counts times d) :
    p.wp (samplesView b cpus func iterations i) (fun _ => At counts times) d :=
  Program.wp_of_preserves (fun _ _ _ moved => moved.elim) (fine.mono fun _ => preserves_at) held

theorem settled_of_quiet {o : Action} (quiet : o.quiet = true) : settled o = true := by
  cases o
  case gettimeofday | pushTime | incCounts | threadExit => cases quiet
  all_goals rfl

theorem sampling : Sampling b args timed N (samplesView b cpus func iterations i) (At 0 0) (phase timed) where
  stable _ moved := moved.elim
  quiet {ph m o} quiet := by
    cases ph <;> exact preserves_at (settled_of_quiet quiet)
  start {s size} _ fresh := by
    have held : phase timed .idle 0 s := by
      cases timed <;> exact fresh
    exact wp_at (all_mallocStores (fun _ => rfl) (fun _ => rfl) size) held
  head _ := preserves_at rfl
  takeTime {m d} isTimed _ held := by
    subst isTimed
    obtain ⟨number, stamps, length, stays⟩ := held
    refine (Program.wp_act_still fun _ _ => id).mpr ⟨⟨stays, nofun⟩, fun tv d₁ next => ?_⟩
    obtain ⟨-, same, now, asked⟩ := next
    replace same : d₁.mem = d.mem := same
    replace now : d₁.gone = false := now.trans (by rw [stays]; rfl)
    refine (Program.wp_act_still fun _ _ => id).mpr ⟨⟨now, nofun⟩, fun _ d₂ next => ?_⟩
    obtain ⟨-, pushed, later, silent⟩ := next
    replace pushed : d₂.mem = d₁.mem.pushTime tv.micros := pushed
    replace silent : d₂.stamps = d₁.stamps := silent.trans (List.append_nil _)
    replace asked : d₁.stamps = d.stamps ++ [tv.micros] := asked
    refine (Program.wp_done_still fun _ _ => id).mpr ⟨?_, ?_, ?_, later.trans (by rw [now]; rfl)⟩
    · rw [pushed, same]; exact number
    · rw [pushed, same, silent, asked, ← stamps]; rfl
    · rw [silent, asked, List.length_append, length]; rfl
  untimed untimed _ held := by
    subst untimed
    exact held
  window {m s measured} _ quiet held := by
    have read (buf : Buf) : (readValues b args.cpuMsr buf).All fun o => settled o = true := all_readValues fun _ _ => rfl
    have deltas : (recordDeltas b).All fun o => settled o = true :=
      all_recordDeltas rfl (fun _ => rfl) (fun _ => rfl) fun _ _ _ => rfl
    have whole : (PmcBench.window b args measured).All fun o => settled o = true :=
      ⟨rfl, fun _ => (read _).bind fun _ => (quiet.mono fun _ => settled_of_quiet).bind fun _ => (read _).bind fun _ => deltas⟩
    exact wp_at whole held
  incCounts {m d} _ held := by
    obtain ⟨number, stamps, length, stays⟩ := held
    refine (Program.wp_act_still fun _ _ => id).mpr ⟨⟨stays, nofun⟩, fun _ d' next => ?_⟩
    obtain ⟨-, counted, now, silent⟩ := next
    replace counted : d'.mem = d.mem.incCounts := counted
    replace silent : d'.stamps = d.stamps := silent.trans (List.append_nil _)
    refine (Program.wp_done_still fun _ _ => id).mpr ⟨?_, ?_, by rw [silent]; exact length, now.trans (by rw [stays]; rfl)⟩
    · rw [counted, ← number]; rfl
    · rw [counted, silent, ← stamps]; rfl

theorem wp_worker {d : Diary} (fresh : d.mem.prof.counts = 0 ∧ d.mem.prof.times = [] ∧ d.stamps = [] ∧ d.gone = false) :
    (PmcBench.worker b (func i)).wp (samplesView b cpus func iterations i) (fun _ d => d.gone = true) d := by
  obtain ⟨none, untimed, unasked, stays⟩ := fresh
  refine (Program.wp_act_still fun _ _ => id).mpr ⟨⟨stays, nofun⟩, fun args d₁ next => ?_⟩
  obtain ⟨⟨-, rfl⟩, same, now, silent⟩ := next
  replace same : d₁.mem = d.mem := same
  replace silent : d₁.stamps = [] := silent.trans (by rw [unasked]; rfl)
  show ((func i).body b _ >>= fun _ => perform .threadExit).wp _ _ _
  have passes : Sampling.Passes (samplesView b cpus func iterations i) (phase (func i).timed) := by
    intro m o hand
    apply preserves_at
    cases o with
    | waitCanRun | setCanRun => rfl
    | _ => cases hand
  have start : At 0 0 d₁ := by
    refine ⟨by rw [same]; exact none, by rw [same, silent]; exact untimed, by rw [silent]; rfl, ?_⟩
    exact now.trans (by rw [stays]; rfl)
  apply Program.wp_seq ((sampling (N := (func i).samples (iterations i))).wp_body passes rfl (Nat.le_refl _) start)
  intro _ d held
  obtain ⟨number, stamps, length, stays⟩ := held
  refine (Program.wp_act_still fun _ _ => id).mpr ⟨⟨stays, fun _ => ⟨number, stamps, length⟩⟩, fun _ d' next => ?_⟩
  obtain ⟨-, -, now, -⟩ := next
  exact (Program.wp_done_still fun _ _ => id).mpr (now.trans (Bool.or_true _))

end Diary

section
variable {C : List (Ev hw) → World → Ev hw → Prop} {s : World} {tr : List (Ev hw)}
  {c : Config Tid Action Action.Res World}

theorem samples_start (initial : s.Initial) : Samples cpus func iterations ([] : List (Ev hw)) s := by
  refine ⟨initial.created, initial.finished, fun i done => ?_⟩
  rw [initial.finished i] at done
  cases done

def samplesPost (b : Build) (hw : Pmu) (C : List (Ev hw) → World → Ev hw → Prop) (cpus : List Cpu)
    (func : Nat → Benchmark) (iterations : Nat → Nat) :
    (t : Tid) → Unit → ((samplesGuarantee b hw C cpus func iterations).view t).St → Prop
  | .main, _, _ => True
  | .worker _, _, d => d.gone = true

theorem samples_threads (initial : s.Initial) (t : Tid) : (pool b cpus func iterations t).wp
    ((samplesGuarantee b hw C cpus func iterations).view t) (samplesPost b hw C cpus func iterations t)
    ((samplesGuarantee b hw C cpus func iterations).abs t [] s) := by
  cases t with
  | main => exact main_spawns b cpus iterations
  | worker i => exact Diary.wp_worker ⟨initial.counts i, initial.times i, rfl, rfl⟩

/-- A thread that has ended has taken all its samples, and has taken the time of each if its
benchmark does. -/
theorem samples_run (initial : s.Initial) (run : (process b hw).Run C ⟨s, pool b cpus func iterations⟩ tr c) :
    Samples cpus func iterations tr c.state ∧
      ∀ i, c.pool (.worker i) = .done () → (c.state.worker i).finished = true := by
  obtain ⟨held, threads⟩ := (samplesGuarantee b hw C cpus func iterations).run (samplesPost b hw C cpus func iterations)
    run (samples_start initial) (samples_threads initial)
  refine ⟨held, fun i ended => ?_⟩
  have turn := threads (.worker i)
  rw [ended] at turn
  exact (held.exited i).trans (turn _ .refl)

/-- When `main` closes its log, each thread has recorded the times it has asked for. -/
theorem recorded_of_closing (initial : s.Initial) (run : (process b hw).Run C ⟨s, pool b cpus func iterations⟩ tr c)
    (closing : Closing c) {i : Nat} (bound : i < cpus.length) :
    (c.state.worker i).mem.prof.counts = (stamps i tr).length ∧ (c.state.worker i).mem.prof.times = stamps i tr ∧
      (stamps i tr).length = (func i).samples (iterations i) := by
  obtain ⟨held, -⟩ := samples_run initial run
  have complete := csv_of_closing initial run closing
  obtain ⟨counts, times, length⟩ := held.recorded i (complete.finished i bound)
  have enough : (c.state.worker i).mem.prof.counts ≤ (c.state.worker i).mem.prof.times.length := complete.timed i bound
  simp only [diary] at counts times length
  rw [counts, times, length] at enough
  split at length <;> rename_i timed
  · exact ⟨counts.trans length.symm, times, length⟩
  · rw [if_neg timed] at enough
    have none := Nat.le_zero.mp enough
    exact ⟨by rw [counts, length, none], times, by rw [length, none]⟩

/-- When `main` closes its log, the log has for each thread a row for each time the thread
has asked for, in order, and a thread has asked for one for each sample of its benchmark. -/
theorem rows_of_closing (initial : s.Initial) (run : (process b hw).Run C ⟨s, pool b cpus func iterations⟩ tr c)
    (closing : Closing c) {log : List Piece} (file : c.state.file = some log) :
    rowsOf log = (List.range cpus.length).flatMap (fun i => (stamps i tr).map fun time => (i, time)) ∧
      ∀ i < cpus.length, (stamps i tr).length = (func i).samples (iterations i) := by
  have written {i : Nat} (bound : i < cpus.length) := recorded_of_closing initial run closing bound
  refine ⟨?_, fun i bound => (written bound).2.2⟩
  rw [(csv_of_closing initial run closing).file log file, rowsOf_csv]
  apply List.flatMap_congr
  intro i member
  obtain ⟨counts, times, -⟩ := written (List.mem_range.mp member)
  show (List.range (c.state.worker i).mem.prof.counts).map (fun j => (i, (c.state.worker i).mem.prof.times.getD j 0)) = _
  rw [counts, times]
  refine List.ext_getElem (by simp) fun j bound _ => ?_
  have inside : j < (stamps i tr).length := by simpa using bound
  simp only [List.getElem_map, List.getElem_range]
  rw [List.getD_eq_getElem?_getD, List.getElem?_eq_getElem inside, Option.getD_some]

end

/-- Two threads with one sample each, until `main` closes the log. -/
theorem closing_one : ∃ (tr : List (Ev .exact)) (c : Config Tid Action Action.Res World) (log : List Piece),
    (process oneElement .exact).Run (fun _ _ _ => True)
      ⟨.idle, pool oneElement [1, 2] (fun _ => .bmSingleDArrayMultithreadedT1) fun _ => 1⟩ tr c ∧
      Closing c ∧ c.state.file = some log ∧ rowsOf log = [(0, 7), (1, 8)] := by
  have played : (playFrom oneElement .exact (fun _ _ _ => true) [1, 2]
      (fun _ => .bmSingleDArrayMultithreadedT1) (fun _ => 1) .idle
      (List.replicate 114 (.inl .main) ++ [.inr (.clock 7)] ++ List.replicate 66 (.inl (.worker 0)) ++ [.inr (.clock 8)] ++
        List.replicate 63 (.inl (.worker 1)) ++ List.replicate 42 (.inl .main))).any
      (fun x => closes x.2 && x.2.state.file.any fun log => decide (rowsOf log = [(0, 7), (1, 8)])) = true := by decide +kernel
  obtain ⟨⟨tr, c⟩, found, here⟩ := (Option.any_eq_true ..).mp played
  obtain ⟨close, written⟩ := (Bool.and_eq_true ..).mp here
  obtain ⟨log, file, rows⟩ := (Option.any_eq_true ..).mp written
  have run := (player oneElement .exact).play_run (C := fun _ _ _ => True) (fun _ _ _ _ => trivial) .start found
  exact ⟨tr, c, log, run, closing_of_closes close, file, of_decide_eq_true rows⟩

theorem rows_of_closing_one : ∃ (tr : List (Ev .exact)) (c : Config Tid Action Action.Res World) (log : List Piece),
    c.state.file = some log ∧ rowsOf log = [(0, 7), (1, 8)] ∧
      (rowsOf log = (List.range 2).flatMap (fun i => (stamps i tr).map fun time => (i, time)) ∧
        ∀ i < 2, (stamps i tr).length = Benchmark.samples .bmSingleDArrayMultithreadedT1 1) := by
  obtain ⟨tr, c, log, run, closing, file, rows⟩ := closing_one
  exact ⟨tr, c, log, file, rows, rows_of_closing World.idle_initial run closing file⟩

end PmcBench
